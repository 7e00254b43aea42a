import Linkrs.Storage.AutoCommit

namespace Linkrs

open Function
open Transition (Run FreeRun)

namespace TwoPath

variable {n m k : ℕ}

-- The write set that a commit works with, from its seal on.
def TxnPhase.sealed : TxnPhase → Option WriteSet
  | .committing ws | .persisted ws | .pruning ws _ | .pruned ws | .reserved ws _ | .reviewed ws _
  | .finalized ws _ | .visible ws _ | .committed ws _ => some ws
  | _ => none

-- The phases from which there is no way to a commit.
def TxnPhase.isOver : TxnPhase → Bool
  | .refused | .parked | .aborted => true
  | _ => false

def StatementPhase.isOver : StatementPhase → Bool
  | .failed | .orphaned => true
  | _ => false

-- The write that a call records.
def TxnCall.access : TxnCall → Option WriteAccess
  | .write access => some access
  | _ => none

def StatementCall.access : StatementCall k → Option WriteAccess
  | .write access => some access
  | _ => none

namespace System

def commitOf (s : System n m k) (u : Fin m) : Option Timestamp :=
  match (s.statements u).home with
  | .group w => if (s.statements u).phase = .grouped then (s.windows w).phase.commit else none
  | _ => (s.statements u).phase.commit

-- Of a transaction and a statement, one cannot commit any more or has committed before the other
-- one began.
def Passed (s : System n m k) (t : Fin n) (u : Fin m) : Prop :=
  (s.txns t).phase.isOver ∨ (s.statements u).phase.isOver ∨ (∃ c ∈ s.commitOf u, c ≤ (s.txns t).start) ∨
    ∃ p ∈ (s.txns t).phase.commit, p.2 ≤ (s.statements u).start

-- A write is made only if the writers of the other path that it conflicts with have passed.
def Exclusive (s : System n m k) (e : Event n m k) : Prop :=
  match e.call with
  | .txn t call => ∀ access ∈ call.access, ∀ u, ((s.txns t).context.writeSet.recordWrite access).hasConflictWith
      (s.statements u).writeSet → s.Passed t u
  | .statement u call => ∀ access ∈ call.access, ∀ t, (s.txns t).context.writeSet.hasConflictWith
      ((s.statements u).writeSet.recordWrite access) → s.Passed t u
  | _ => True

instance (s : System n m k) (t : Fin n) (u : Fin m) : Decidable (s.Passed t u) :=
  inferInstanceAs (Decidable (_ ∨ _ ∨ _ ∨ _))

instance (s : System n m k) : (e : Event n m k) → Decidable (s.Exclusive e)
  | ⟨_, .txn t call⟩ => inferInstanceAs (Decidable (∀ access ∈ call.access, ∀ u, _ → s.Passed t u))
  | ⟨_, .statement u call⟩ => inferInstanceAs (Decidable (∀ access ∈ call.access, ∀ t, _ → s.Passed t u))
  | ⟨_, .window ..⟩ | ⟨_, .reap _⟩ => instDecidableTrue

end System

-- What a step that is not a write leaves of a writer: it begins with nothing written, or it keeps its
-- writes and its timestamp, and what it has come to is final.
inductive TxnMove (x x' : Txn) : Prop
  | fresh (hw : x'.context.writeSet = .new)
  | later (hw : x'.context.writeSet = x.context.writeSet) (hs : x'.start = x.start) (ho : x.phase.isOver → x'.phase.isOver)
    (hc : ∀ p ∈ x.phase.commit, p ∈ x'.phase.commit)

inductive StatementMove (s s' : System n m k) (u : Fin m) : Prop
  | fresh (hw : (s'.statements u).writeSet = .new)
  | later (hw : (s'.statements u).writeSet = (s.statements u).writeSet)
    (hs : (s'.statements u).start = (s.statements u).start)
    (ho : (s.statements u).phase.isOver → (s'.statements u).phase.isOver) (hc : ∀ c ∈ s.commitOf u, c ∈ s'.commitOf u)

theorem TxnMove.refl {x : Txn} : TxnMove x x :=
  .later rfl rfl id fun _ => id

structure Inv (s : System n m k) : Prop where
  sealed : ∀ t, ∀ ws ∈ (s.txns t).phase.sealed, ws = (s.txns t).context.writeSet
  passed : ∀ t u, (s.txns t).context.writeSet.hasConflictWith (s.statements u).writeSet → s.Passed t u

section

variable {s s' : System n m k} {t : Fin n} {u : Fin m} {w : Fin k} {now : Instant}

theorem hasConflictWith_new {ws : WriteSet} :
    WriteSet.new.hasConflictWith ws = false ∧ ws.hasConflictWith .new = false := by
  have h {ws : WriteSet} : WriteSet.new.hasConflictWith ws = false := WriteSet.hasConflictWith_of_isEmpty rfl
  exact ⟨h, WriteSet.hasConflictWith_comm .. ▸ h⟩

theorem System.Passed.mono (h : s.Passed t u) (ht : (s.txns t).phase.isOver → (s'.txns t).phase.isOver)
    (hu : (s.statements u).phase.isOver → (s'.statements u).phase.isOver) (hs : (s'.txns t).start = (s.txns t).start)
    (hs' : (s'.statements u).start = (s.statements u).start)
    (hc : ∀ p ∈ (s.txns t).phase.commit, p ∈ (s'.txns t).phase.commit)
    (hc' : ∀ c ∈ s.commitOf u, c ∈ s'.commitOf u) : s'.Passed t u := by
  rw [System.Passed, hs, hs']
  obtain h | h | ⟨c, h, hl⟩ | ⟨p, h, hl⟩ := h
  · exact .inl (ht h)
  · exact .inr (.inl (hu h))
  · exact .inr (.inr (.inl ⟨c, hc' c h, hl⟩))
  · exact .inr (.inr (.inr ⟨p, hc p h, hl⟩))

theorem Inv.move (h : Inv s)
    (hs : ∀ t, ∀ ws ∈ (s'.txns t).phase.sealed, ws = (s'.txns t).context.writeSet)
    (ht : ∀ t, TxnMove (s.txns t) (s'.txns t)) (hu : ∀ u, StatementMove s s' u) : Inv s' := by
  refine ⟨hs, fun t u hc => ?_⟩
  cases ht t with
  | fresh hw => simp [hw, hasConflictWith_new] at hc
  | later hw hst ho hct =>
    cases hu u with
    | fresh hw' => simp [hw', hasConflictWith_new] at hc
    | later hw' hs' ho' hc' => exact (h.passed t u (hw ▸ hw' ▸ hc)).mono ho ho' hst hs' hct hc'

theorem StatementMove.of_eq (hs : s'.statements = s.statements) (hw : s'.windows = s.windows) :
    StatementMove s s' u :=
  .later (by rw [hs]) (by rw [hs]) (by simp [hs]) (by simp [System.commitOf, hs, hw])

-- Windows only go on from a commit.
theorem StatementMove.of_windows (hs : s'.statements = s.statements)
    (hw : ∀ w, ∀ c ∈ (s.windows w).phase.commit, c ∈ (s'.windows w).phase.commit) : StatementMove s s' u := by
  refine .later (by rw [hs]) (by rw [hs]) (by simp [hs]) fun c hc => ?_
  simp only [System.commitOf, hs] at hc ⊢
  split at hc
  case h_1 w _ =>
    split at hc
    case isTrue hp => simpa [hp] using hw w c hc
    case isFalse => cases hc
  case h_2 => exact hc

theorem commitOf_of_phase (hc : (s.statements u).phase.commit = none) (hg : (s.statements u).phase ≠ .grouped) :
    s.commitOf u = none := by
  simp only [System.commitOf, hc, if_neg hg]
  split <;> rfl

theorem Inv.txn (h : Inv s) {x : Txn} (ht : s'.txns = update s.txns t x) (hs : s'.statements = s.statements)
    (hw : s'.windows = s.windows) (hx : ∀ ws ∈ x.phase.sealed, ws = x.context.writeSet)
    (hm : TxnMove (s.txns t) x) : Inv s' := by
  refine h.move (fun t' => ?_) (fun t' => ?_) fun _ => .of_eq hs hw
  all_goals rw [ht]; by_cases he : t' = t
  · subst he
    simpa using hx
  · simpa [he] using h.sealed t'
  · subst he
    simpa using hm
  · simpa [he] using .refl

-- A commit that goes on keeps what it has sealed and what it has come to.
def TxnPhase.Goes (p q : TxnPhase) : Prop :=
  (∀ ws ∈ q.sealed, ws ∈ p.sealed) ∧ (p.isOver → q.isOver) ∧ ∀ c ∈ p.commit, c ∈ q.commit

theorem Inv.txn_goto (h : Inv s) (hp : (s.txns t).phase = p) (ht : s'.txns = update s.txns t ((s.txns t).goto q))
    (hs : s'.statements = s.statements) (hw : s'.windows = s.windows) (hg : p.Goes q) : Inv s' := by
  subst hp
  exact h.txn ht hs hw (fun ws hws => h.sealed t ws (hg.1 ws hws)) (.later rfl rfl hg.2.1 hg.2.2)

-- A write of a transaction, which is still to be sealed.
theorem Inv.txn_write (h : Inv s) (ho : s.Exclusive ⟨now, .txn t (.write access)⟩)
    (hp : (s.txns t).phase.sealed = none) :
    Inv (s.setTxn t { s.txns t with context := (s.txns t).context.recordWrite access }) := by
  refine ⟨fun t' => ?_, fun t' u hc => ?_⟩
  all_goals by_cases he : t' = t
  · subst he
    simp [System.setTxn, hp]
  · simpa [System.setTxn, he] using h.sealed t'
  · subst he
    rw [show (s.setTxn t' _).txns t' = _ from update_self ..] at hc
    exact (ho access rfl u hc).mono (by simp [System.setTxn]) id (by simp [System.setTxn]; rfl) rfl
      (by simp [System.setTxn]) fun _ => id
  · have hx : (s.setTxn t { s.txns t with context := (s.txns t).context.recordWrite access }).txns t' = s.txns t' := by
      simp [System.setTxn, he]
    rw [hx] at hc
    exact (h.passed t' u hc).mono (by simp [hx]) id (by rw [hx]) rfl (by simp [hx]) fun _ => id

theorem writeSet_checkWriteSetConflict {c : Certifier} {ctx : TransactionContext} :
    (c.checkWriteSetConflict txnId ctx active).2.1.writeSet = ctx.writeSet := by
  simp only [Certifier.checkWriteSetConflict]
  split
  case isTrue => rfl
  case isFalse =>
    split
    case isTrue => rfl
    case isFalse => split <;> rfl

theorem Inv.txnStep (h : Inv s) (ho : s.Exclusive ⟨now, .txn t call⟩) (he : s.txnStep now t call = some s') :
    Inv s' := by
  simp only [System.txnStep] at he
  split at he
  case h_1 =>
    split at he <;> cases he
    exact h.txn rfl rfl rfl (by simp [TxnPhase.sealed]) (.fresh rfl)
  case h_2 hp | h_3 hp =>
    cases he
    exact h.txn_write ho (by rw [hp]; rfl)
  case h_4 access hp | h_5 access hp =>
    cases he
    have hw : ((s.txns t).context.recordRead access).writeSet = (s.txns t).context.writeSet := by
      cases access <;> rfl
    refine h.txn rfl rfl rfl (fun ws hs => (h.sealed t ws hs).trans hw.symm) (.later hw ?_ id fun _ => id)
    exact congrArg (·.startTimestamp) (TransactionContext.core_recordRead ..)
  case h_6 hp =>
    have hk := s.certifier.core_checkWriteSetConflict t (s.txns t).context s.activeTransactions
    have hw : (s.certifier.checkWriteSetConflict t (s.txns t).context s.activeTransactions).2.1.writeSet = _ :=
      writeSet_checkWriteSetConflict
    split at he <;> rename_i hr <;> cases he <;> rw [hr] at hk hw
    all_goals
      refine h.txn rfl rfl rfl (by simp [TxnPhase.sealed]) (.later hw (congrArg (·.startTimestamp) hk) ?_ ?_)
      · simp [hp, TxnPhase.isOver]
      · simp [hp, TxnPhase.commit]
  case h_7 hp =>
    cases he
    refine h.txn rfl rfl rfl (by simp [TxnPhase.sealed]) (.later rfl rfl ?_ ?_)
    · simp [hp, TxnPhase.isOver]
    · simp [hp, TxnPhase.commit]
  case h_12 hp | h_13 hp =>
    split at he <;> cases he
    all_goals
      refine h.txn_goto hp rfl rfl rfl ?_
      simp [TxnPhase.Goes, TxnPhase.sealed, TxnPhase.isOver, TxnPhase.commit]
  case h_16 ws commit hp =>
    cases he
    refine h.txn rfl rfl rfl (fun ws' hs => h.sealed t ws' (hp ▸ hs)) (.later rfl rfl ?_ ?_)
    · simp [hp, TxnPhase.isOver]
    · simp [hp, TxnPhase.commit]
  case h_8 hp | h_9 hp | h_10 hp | h_11 hp | h_14 hp | h_15 hp | h_17 hp | h_18 hp | h_19 hp | h_20 hp =>
    cases he
    refine h.txn_goto hp rfl rfl rfl ?_
    simp [TxnPhase.Goes, TxnPhase.sealed, TxnPhase.isOver, TxnPhase.commit]
  case h_21 => contradiction

theorem Inv.statement (h : Inv s) {x : Statement k} (ht : s'.txns = s.txns)
    (hs : s'.statements = update s.statements u x)
    (hw : ∀ w, (s'.windows w).phase = (s.windows w).phase) (hm : StatementMove s s' u) : Inv s' := by
  refine h.move (ht ▸ h.sealed) (fun t => ht ▸ .refl) fun u' => ?_
  by_cases he : u' = u
  · exact he ▸ hm
  · refine .later ?_ ?_ ?_ ?_
    all_goals simp [hs, he, System.commitOf, hw]

-- A statement without a commit goes on.
theorem Inv.statement_goto (h : Inv s) (hp : (s.statements u).phase = p) (ht : s'.txns = s.txns)
    (hs : s'.statements = update s.statements u ((s.statements u).goto q))
    (hw : ∀ w, (s'.windows w).phase = (s.windows w).phase) (ho : p.isOver = false)
    (hc : p.commit = none ∨ p.commit = q.commit) (hg : p ≠ .grouped) : Inv s' := by
  subst hp
  refine h.statement ht hs hw (.later (by simp [hs, Statement.goto]) (by simp [hs, Statement.goto]) (by simp [ho]) ?_)
  obtain hc | hc := hc
  · simp [commitOf_of_phase hc hg]
  · have hh : (s'.statements u).home = (s.statements u).home := by simp [hs, Statement.goto]
    have hq : (s'.statements u).phase = q := by simp [hs, Statement.goto]
    intro c hm
    simp only [System.commitOf, hh, hq, if_neg hg, ← hc] at hm ⊢
    split at hm
    case h_1 => cases hm
    case h_2 => exact hm

theorem Inv.dropStatement (h : Inv s) (hp : (s.statements u).phase = p) (ho : p.isOver = false)
    (hc : p.commit = none) (hg : p ≠ .grouped) : Inv (s.dropStatement u) := by
  simp only [System.dropStatement]
  split
  all_goals exact h.statement_goto hp rfl rfl (fun _ => rfl) ho (.inl hc) hg

theorem Inv.bindStatement (h : Inv s) (he : s.bindStatement now u w = some s') : Inv s' := by
  simp only [System.bindStatement] at he
  split at he
  case h_1 =>
    cases he
    exact h.statement rfl rfl (fun _ => rfl) (.fresh (by simp [System.setStatement]))
  case h_2 =>
    split at he <;> cases he
    refine h.statement rfl rfl (fun w' => ?_) (.fresh (by simp [System.setStatement]))
    by_cases hw : w' = w
    · subst hw
      simp [System.setStatement, System.setWindow]
    · simp [System.setStatement, System.setWindow, System.setVersions, hw]

theorem Inv.certify (h : Inv s) (hp : (s.statements u).phase = .executing) : Inv (s.certify u) := by
  simp only [System.certify]
  split
  case isTrue => exact h.dropStatement hp rfl rfl (by simp)
  case isFalse =>
    split
    case h_1 w _ =>
      refine h.statement_goto hp rfl rfl (fun w' => ?_) rfl (.inl rfl) (by simp)
      by_cases hw : w' = w
      · subst hw
        simp [System.setStatement, System.setWindow]
      · simp [System.setStatement, System.setWindow, hw]
    case h_2 => exact h.statement_goto hp rfl rfl (fun _ => rfl) rfl (.inl rfl) (by simp)

theorem Inv.statement_write (h : Inv s) (ho : s.Exclusive ⟨now, .statement u (.write access)⟩)
    (hp : (s.statements u).phase = .executing) :
    Inv (s.setStatement u { s.statements u with writeSet := (s.statements u).writeSet.recordWrite access }) := by
  refine ⟨h.sealed, fun t u' hc => ?_⟩
  have hn : s.commitOf u = none := commitOf_of_phase (by rw [hp]; rfl) (by simp [hp])
  by_cases he : u' = u
  · subst he
    rw [show (s.setStatement u' _).statements u' = _ from update_self ..] at hc
    exact (ho access rfl t hc).mono id (by simp [System.setStatement]) rfl (by simp [System.setStatement]) (fun _ => id)
      (by simp [hn])
  · have hx : (s.setStatement u { s.statements u with
        writeSet := (s.statements u).writeSet.recordWrite access }).statements u' = s.statements u' := by
      simp [System.setStatement, he]
    rw [hx] at hc
    refine (h.passed t u' hc).mono id (by simp [hx]) rfl (by rw [hx]) (fun _ => id) ?_
    simp only [System.commitOf, hx]
    exact fun _ => id

theorem Inv.statementStep (h : Inv s) (ho : s.Exclusive ⟨now, .statement u call⟩)
    (he : s.statementStep now u call = some s') : Inv s' := by
  simp only [System.statementStep] at he
  split at he
  case h_1 =>
    split at he <;> cases he
    exact h.statement rfl rfl (fun _ => rfl) (.fresh (by simp [System.setStatement]))
  case h_2 =>
    split at he
    · exact h.bindStatement he
    · contradiction
  case h_3 hp =>
    cases he
    exact h.statement_write ho hp
  case h_4 hp =>
    cases he
    exact h.certify hp
  case h_5 hp | h_7 hp =>
    cases he
    exact h.dropStatement hp rfl rfl (by simp)
  case h_8 hp =>
    split at he <;> cases he
    · exact h.statement_goto hp rfl rfl (fun _ => rfl) rfl (.inl rfl) (by simp)
    · exact h.dropStatement hp rfl rfl (by simp)
  case h_6 hp | h_9 hp =>
    cases he
    exact h.statement_goto hp rfl rfl (fun _ => rfl) rfl (.inl rfl) (by simp)
  case h_10 hp =>
    cases he
    exact h.statement_goto hp rfl rfl (fun _ => rfl) rfl (.inr rfl) (by simp)
  case h_11 hp =>
    cases he
    split
    all_goals exact h.statement_goto hp rfl rfl (fun _ => rfl) rfl (.inr rfl) (by simp)
  case h_12 => contradiction

theorem Inv.window (h : Inv s) {z : Window} (hp : (s.windows w).phase = p) (ht : s'.txns = s.txns)
    (hs : s'.statements = s.statements) (hw : s'.windows = update s.windows w z)
    (hc : p.commit = none ∨ p.commit = z.phase.commit) : Inv s' := by
  subst hp
  refine h.move (ht ▸ h.sealed) (fun t => ht ▸ .refl) fun u => .of_windows hs fun w' c hm => ?_
  rw [hw]
  by_cases he : w' = w
  · subst he
    rw [update_self]
    obtain hc | hc := hc
    · rw [hc] at hm
      cases hm
    · exact hc ▸ hm
  · rwa [update_of_ne he]

theorem Inv.windowStep (h : Inv s) (he : s.windowStep now w call = some s') : Inv s' := by
  simp only [System.windowStep] at he
  split at he
  case h_9 hp | h_10 hp =>
    cases he
    exact h.window hp rfl rfl rfl (.inr rfl)
  case h_11 => contradiction
  all_goals
    rename_i hp
    (repeat' split at he) <;> first
      | (cases he; exact h.window hp rfl rfl rfl (.inl rfl))
      | contradiction

theorem Inv.step (h : Inv s) (ho : s.Exclusive e) (he : s.step e = some s') : Inv s' := by
  obtain ⟨now, call⟩ := e
  cases call with
  | txn => exact h.txnStep ho he
  | statement => exact h.statementStep ho he
  | window => exact h.windowStep he
  | reap timeout =>
    cases he
    exact ⟨h.sealed, h.passed⟩

theorem Inv.new : Inv (System.new : System n m k) where
  sealed := by simp [System.new, TxnPhase.sealed]
  passed := by simp [System.new, hasConflictWith_new]

end

def txnCalls (t : Fin n) (calls : List TxnCall) : List (Event n m k) :=
  calls.map fun c => ⟨0, .txn t c⟩

def statementCalls (u : Fin m) (calls : List (StatementCall k)) : List (Event n m k) :=
  calls.map fun c => ⟨0, .statement u c⟩

-- The calls of a commit from its check on, and of `finalize_operation`.
def commitCalls : List TxnCall :=
  [.check, .seal, .persist true, .watermark, .prune, .reserve, .publish, .finalize true, .settle, .leave]

def finalizeCalls : List (StatementCall k) :=
  [.certify, .apply true, .reserve, .settle, .publish, .release]

def someVertex : WriteAccess := .vertex ⟨.int, [1], by decide⟩

def otherVertex : WriteAccess := .vertex ⟨.int, [2], by decide⟩

-- A transaction and a statement write side by side, each to a vertex of its own. A second transaction
-- writes to that of the statement, which has committed by then.
def sideBySide (t t' : Fin n) (u : Fin m) : List (Event n m k) :=
  txnCalls t [.begin .repeatableRead] ++ statementCalls u [.begin 0, .write someVertex] ++
    txnCalls t [.write otherVertex] ++ statementCalls u finalizeCalls ++
    txnCalls t' [.begin .repeatableRead, .write someVertex] ++ txnCalls t commitCalls ++ txnCalls t' commitCalls

-- Both write to one vertex. The statement commits first and the transaction does not notice, or the
-- other way round.
def statementFirst (t : Fin n) (u : Fin m) : List (Event n m k) :=
  txnCalls t [.begin .repeatableRead] ++
    statementCalls u (.begin 0 :: .write someVertex :: finalizeCalls) ++
    txnCalls t (.write someVertex :: commitCalls)

def transactionFirst (t : Fin n) (u : Fin m) : List (Event n m k) :=
  statementCalls u [.begin 0, .write someVertex] ++
    txnCalls t (.begin .repeatableRead :: .write someVertex :: commitCalls) ++
    statementCalls u finalizeCalls

def bothWrote (t : Fin n) (u : Fin m) (commit commit' : Timestamp) (s : System n m k) : Bool :=
  (s.txns t).phase.commit = some (WriteSet.new.recordWrite someVertex, commit) ∧
  s.commitOf u = some commit' ∧ (s.txns t).start < commit' ∧ (s.statements u).start < commit ∧
  (WriteSet.new.recordWrite someVertex).hasConflictWith (s.statements u).writeSet

-- The transaction and the statement have committed conflicting writes side by side.
def System.Clash (s : System n m k) (t : Fin n) (u : Fin m) : Prop :=
  ∃ (ws : WriteSet) (commit commit' : Timestamp),
    (s.txns t).phase.commit = some (ws, commit) ∧ s.commitOf u = some commit' ∧
    (s.txns t).start < commit' ∧ (s.statements u).start < commit ∧
    ws.hasConflictWith (s.statements u).writeSet = true

end TwoPath
end Linkrs
