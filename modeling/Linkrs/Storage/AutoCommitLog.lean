import Linkrs.Storage.TwoPath
import Linkrs.Wal.Commit

namespace Linkrs

open List Function VersionManager CommittedWriteSetWindow
open Transition (Run FreeRun only first second)

namespace TwoPath

variable {n m k : ℕ}

-- The calls that `finalize_operation` is made of.
def StatementCall.finalizes : StatementCall k → Bool
  | .certify | .apply _ | .reserve => true
  | _ => false

def StatementCall.begins : StatementCall k → Bool
  | .begin _ | .bind _ => true
  | _ => false

-- The thread that begins a statement.
def StatementCall.thread : StatementCall k → Option ThreadId
  | .begin thread => some thread
  | _ => none

def StatementCall.failsToApply : StatementCall k → Bool
  | .apply ok => !ok
  | _ => false

def StatementCall.reserves : StatementCall k → Bool
  | .reserve => true
  | _ => false

-- Ids below are those of explicit transactions.
def firstAutoTransactionId : TransactionId := 2 ^ 62

-- The two ways to write with the log. `buffered` says which transactions have staged vertex rows, the
-- only rows that a statement leaves for `apply_txn_staging`; `refused` are the statements whose
-- `finalize_operation` has returned an error.
structure Journal (codec : WalCodec) (n m k : ℕ) where
  system : System n m k
  nextAutoTransactionId : TransactionId
  transactionIds : Fin m → TransactionId
  groupTransactionIds : Fin k → Option TransactionId
  walStarts : Fin m → ℕ
  stagedWal : TransactionId → List TransactionWalEntry
  buffered : TransactionId → Bool
  log : List (LoggedBatch codec)
  refused : Fin m → Bool

-- `written` is the batch that reaches the log, if any does.
inductive JournalCall (codec : WalCodec) (n m k : ℕ) where
  | system (e : Event n m k)
  | stage (u : Fin m) (entry : TransactionWalEntry)
  | stageRow (u : Fin m)
  | commitAuto (u : Fin m) (written : Option (LoggedBatch codec))
  | flushGroup (now : Instant) (w : Fin k) (written : LoggedBatch codec)
  | commitExplicit (written : LoggedBatch codec)

namespace Journal

variable {codec : WalCodec} (s : Journal codec n m k)

def new : Journal codec n m k where
  system := .new
  nextAutoTransactionId := firstAutoTransactionId
  transactionIds := fun _ => 0
  groupTransactionIds := fun _ => none
  walStarts := fun _ => 0
  stagedWal := fun _ => []
  buffered := fun _ => false
  log := []
  refused := fun _ => false

def allocate (u : Fin m) : Journal codec n m k :=
  { s with
    nextAutoTransactionId := s.nextAutoTransactionId + 1
    transactionIds := update s.transactionIds u s.nextAutoTransactionId
    walStarts := update s.walStarts u 0 }

-- The statements of a group share the id of the first one.
def allocateInGroup (u : Fin m) (w : Fin k) : Journal codec n m k :=
  match s.groupTransactionIds w with
  | some id =>
    { s with
      transactionIds := update s.transactionIds u id
      walStarts := update s.walStarts u (s.stagedWal id).length }
  | none =>
    { s.allocate u with
      groupTransactionIds :=
        update s.groupTransactionIds w (some s.nextAutoTransactionId) }

def identify (u : Fin m) : StatementCall k → Journal codec n m k
  | .begin _ => s.allocate u
  | .bind w => if (s.system.windows w).grouped then s.allocateInGroup u w else s.allocate u
  | _ => s

-- The staged entries, with only some of one transaction's left.
def unstaged (id : TransactionId) (keep : ℕ) : TransactionId → List TransactionWalEntry :=
  update s.stagedWal id ((s.stagedWal id).take keep)

-- A statement that fails loses what it has staged, and so does one that has been committed.
def settledStaging (u : Fin m) (call : StatementCall k) : TransactionId → List TransactionWalEntry :=
  let id := s.transactionIds u
  match call, (s.system.statements u).phase, (s.system.statements u).home with
  | .reserve, _, _ => s.stagedWal
  | _, .failed, .group _ => s.unstaged id (s.walStarts u)
  | _, .failed, _ => s.unstaged id 0
  | _, .committed _, _ => s.unstaged id 0
  | _, _, _ => s.stagedWal

-- The buffer goes when its rows are installed, and with the statement. A group keeps that of its
-- statements.
def dropsBuffer (u : Fin m) (call : StatementCall k) : Bool :=
  match call, (s.system.statements u).phase, (s.system.statements u).home with
  | _, .failed, .group _ => false
  | .apply _, _, _ | .release, _, _ | _, .failed, _ => true
  | _, _, _ => false

def settledBuffers (u : Fin m) (call : StatementCall k) : TransactionId → Bool :=
  if s.dropsBuffer u call then update s.buffered (s.transactionIds u) false else s.buffered

def statementCall (now : Instant) (u : Fin m) (call : StatementCall k) : Option (Journal codec n m k) :=
  (s.system.statementStep now u call).map fun system =>
    let s := { s.identify u call with system := system }
    { s with
      stagedWal := s.settledStaging u call
      buffered := s.settledBuffers u call
      refused := update s.refused u
        (s.refused u || (call.finalizes && (system.statements u).phase = .failed)) }

-- Without a buffer there is nothing to install, and `apply_txn_staging` succeeds. A group that has been
-- joined flushes what its statements have staged.
def step : JournalCall codec n m k → Option (Journal codec n m k)
  | .system e =>
    match e.call with
    | .statement u call =>
      if call.failsToApply && !s.buffered (s.transactionIds u) then none else s.statementCall e.now u call
    | .window w (.append true) =>
      if s.groupTransactionIds w = none then
        (s.system.step e).map fun system => { s with system := system }
      else none
    | _ => (s.system.step e).map fun system => { s with system := system }
  | .stage u entry =>
    let id := s.transactionIds u
    if (s.system.statements u).phase = .executing then
      some { s with stagedWal := update s.stagedWal id (s.stagedWal id ++ [entry]) }
    else none
  | .stageRow u =>
    if (s.system.statements u).phase = .executing then
      some { s with buffered := update s.buffered (s.transactionIds u) true }
    else none
  | .commitAuto u written =>
    let id := s.transactionIds u
    if (s.system.statements u).phase = .executing then
      match written with
      -- `abort_staged_writes`, after an append that has failed
      | none => some { s with stagedWal := s.unstaged id 0, buffered := update s.buffered id false }
      | some b =>
        if b.transactionId = id ∧ b.redo.map RedoEntry.toTransactionWalEntry = s.stagedWal id then
          some { s with stagedWal := s.unstaged id 0, log := s.log ++ [b] }
        else none
    else none
  | .flushGroup now w written =>
    if s.groupTransactionIds w = some written.transactionId ∧
        written.redo.map RedoEntry.toTransactionWalEntry = s.stagedWal written.transactionId ∧
        written.intents = [] then
      (s.system.windowStep now w (.append true)).map fun system =>
        { s with
          system := system
          stagedWal := s.unstaged written.transactionId 0
          log := s.log ++ [written] }
    else none
  | .commitExplicit written =>
    if written.transactionId < firstAutoTransactionId then
      some { s with log := s.log ++ [written] }
    else none

-- A batch of the statement is in the log.
def Exposed (id : TransactionId) : Prop :=
  ∃ b ∈ s.log, b.transactionId = id

instance (id : TransactionId) : Decidable (s.Exposed id) :=
  inferInstanceAs (Decidable (∃ b ∈ s.log, b.transactionId = id))

-- Every statement has the write gate for itself: there are no windows, and no thread begins a
-- statement inside another one. What is logged has no vertex rows to install, and the timestamps do not
-- run out under a logged statement.
def Plain : JournalCall codec n m k → Prop
  | .system e =>
    match e.call with
    | .window .. => False
    | .statement u call => (∀ thread ∈ call.thread, ∀ p ∈ s.system.gate.state, p.1 ≠ thread) ∧
      (call.reserves → s.Exposed (s.transactionIds u) → s.system.versionManager.writeTs + 1 < maxTimestamp)
    | _ => True
  | .commitAuto u (some _) => s.buffered (s.transactionIds u) = false
  | .stageRow u => ¬s.Exposed (s.transactionIds u)
  | _ => True

end Journal

section

variable {vm vm' : VersionManager} {start commit ts : Timestamp} {now : Instant}

theorem writeTs_acquireInsertTimestamp (h : vm.acquireInsertTimestamp now = .ok (ts, vm')) :
    vm.writeTs < ts ∧ vm'.writeTs = ts := by
  have ⟨ht, hv⟩ := acquireInsertTimestamp_ok h
  subst hv
  exact ⟨ht ▸ Nat.lt_succ_self _, rfl⟩

theorem writeTs_reserveCommitTimestamp (h : vm.reserveCommitTimestamp start now = .ok (ts, vm')) :
    vm.writeTs < ts ∧ vm'.writeTs = ts := by
  have ⟨_, ht, hv⟩ := reserveCommitTimestamp_ok h
  subst hv
  exact ⟨ht ▸ Nat.lt_succ_self _, rfl⟩

@[simp]
theorem writeTs_abortWriteTimestamp : (vm.abortWriteTimestamp ts).writeTs = vm.writeTs := by
  simp [abortWriteTimestamp, finishWriteTimestamp]

@[simp]
theorem writeTs_publishReservedCommit : (vm.publishReservedCommit start commit now).writeTs = vm.writeTs := by
  simp [publishReservedCommit]

@[simp]
theorem writeTs_publishSettled : (System.publishSettled vm now start commit).writeTs = vm.writeTs := by
  unfold System.publishSettled
  split <;> simp

@[simp]
theorem writeTs_reap {timeout : Duration} {owned : List Timestamp} :
    (vm.reapExpiredWriteTimestamps timeout owned now).2.writeTs = vm.writeTs := by
  have hf := foldl_settleSlot_spec vm .aborted (vm.expired timeout owned now)
  simp only [reapExpiredWriteTimestamps]
  split
  · exact hf.1
  · simpa using hf.1

-- The reservation of `commit_ordered` answers with a fresh timestamp or with the old one.
theorem writeTs_reserveOrdered (h : System.reserveOrdered vm now start = .ok (commit, vm')) :
    vm.writeTs ≤ vm'.writeTs ∧ (start ≤ vm.writeTs → commit ≤ vm'.writeTs) := by
  unfold System.reserveOrdered at h
  split at h
  · cases h
    exact ⟨le_rfl, id⟩
  · have ⟨hl, he⟩ := writeTs_reserveCommitTimestamp h
    exact ⟨he ▸ hl.le, fun _ => he.ge⟩

theorem reserveOrdered_ne_error (h : vm.writeTs + 1 < maxTimestamp) :
    System.reserveOrdered vm now start ≠ .error e := by
  have hr : vm.reserveTimestamp = .ok (vm.writeTs + 1, { vm with writeTs := vm.writeTs + 1 }) := by
    have hi : ¬invalidTimestamp < vm.writeTs + 1 := by
      simp only [invalidTimestamp, maxTimestamp] at *
      lia
    have ha : isAllocatableTimestamp (vm.writeTs + 1) = true := by
      simp [isAllocatableTimestamp, invalidTimestamp, maxTimestamp] at *
      lia
    simp only [VersionManager.reserveTimestamp, if_neg hi, ha, if_true]
  simp only [System.reserveOrdered, VersionManager.reserveCommitTimestamp, hr]
  cases vm.slot start with
  | none => simp
  | some state => cases state <;> simp [pure, Except.pure]

end

-- A statement that holds the write gate.
def StatementPhase.isLive : StatementPhase → Bool
  | .executing | .certified | .applied | .reserved _ | .settled _ | .published _ => true
  | _ => false

-- The commit timestamp until it is published.
def StatementPhase.pending : StatementPhase → Option Timestamp
  | .reserved c | .settled c => some c
  | _ => none

section

variable {s s' : System n m k} {now : Instant} {u v : Fin m}

-- Statements outside of windows take turns: the one that holds the gate began after all that is in the
-- window of committed write sets.
structure Turns (s : System n m k) : Prop where
  windows : ∀ w, (s.windows w).phase = .unborn
  own : ∀ u, (s.statements u).phase.isLive → (s.statements u).home = .own
  alone : ∀ u v, (s.statements u).phase.isLive → (s.statements v).phase.isLive → u = v
  gate : ∀ u, (s.statements u).phase.isLive → ∃ thread, s.gate.state = some (thread, 1)
  start : ∀ u, (s.statements u).phase.isLive → (s.statements u).start ≤ s.versionManager.writeTs
  pending : ∀ u, ∀ c ∈ (s.statements u).phase.pending, c ≤ s.versionManager.writeTs
  entries : ∀ e ∈ s.committedWriteSets.entries, e.1 ≤ s.versionManager.writeTs
  before : ∀ u, (s.statements u).phase = .executing → ∀ e ∈ s.committedWriteSets.entries,
    e.1 < (s.statements u).start

theorem Turns.new : Turns (System.new : System n m k) := by
  constructor
  all_goals simp [System.new, StatementPhase.isLive, StatementPhase.pending, CommittedWriteSetWindow.new]

theorem Turns.replace {x : Statement k} (h : Turns s) (hw : s'.windows = s.windows)
    (ho : ∀ v ≠ u, ¬(s.statements v).phase.isLive) (hs : s'.statements = update s.statements u x)
    (hx : x.phase.isLive → x.home = .own ∧ (∃ thread, s'.gate.state = some (thread, 1)) ∧
      x.start ≤ s'.versionManager.writeTs)
    (hp : ∀ c ∈ x.phase.pending, c ≤ s'.versionManager.writeTs)
    (he : ∀ e ∈ s'.committedWriteSets.entries, e.1 ≤ s'.versionManager.writeTs)
    (hb : x.phase = .executing → ∀ e ∈ s'.committedWriteSets.entries, e.1 < x.start) : Turns s' := by
  have hu (v : Fin m) (hv : (s'.statements v).phase.isLive) : v = u := by
    by_contra hn
    rw [hs, update_of_ne hn] at hv
    exact ho v hn hv
  have hsu : s'.statements u = x := by rw [hs, update_self]
  refine ⟨hw ▸ h.windows, fun v hv => ?_, fun v v' hv hv' => (hu v hv).trans (hu v' hv').symm, fun v hv => ?_,
    fun v hv => ?_, fun v c hc => ?_, he, fun v hv => ?_⟩
  · cases hu v hv
    rw [hsu] at hv ⊢
    exact (hx hv).1
  · cases hu v hv
    exact (hx (hsu ▸ hv)).2.1
  · cases hu v hv
    rw [hsu] at hv ⊢
    exact (hx hv).2.2
  · have hl : (s'.statements v).phase.isLive := by
      cases hv : (s'.statements v).phase <;> rw [hv] at hc <;> first | rfl | cases hc
    cases hu v hl
    exact hp c (hsu ▸ hc)
  · cases hu v (by rw [hv]; rfl)
    rw [hsu] at hv ⊢
    exact hb hv

theorem acquire_free {gate gate' : AutoCommitWriteGate} (ha : gate.acquire thread = some gate')
    (hn : ∀ p ∈ gate.state, p.1 ≠ thread) : gate.state = none ∧ gate'.state = some (thread, 1) := by
  unfold AutoCommitWriteGate.acquire at ha
  split at ha
  case h_1 h => cases ha; exact ⟨h, rfl⟩
  case h_2 holder depth h =>
    split at ha
    case isTrue he => exact absurd he (hn (holder, depth) h)
    case isFalse => cases ha

theorem dropExpired_suffix (horizon : Timestamp) (es : List (Timestamp × WriteSet)) : dropExpired horizon es <:+ es := by
  induction es with
  | nil => exact suffix_rfl
  | cons e es ind =>
    cases es with
    | nil => exact suffix_rfl
    | cons e' es =>
      simp only [dropExpired]
      split
      case isTrue => exact ind.trans (suffix_cons ..)
      case isFalse => exact suffix_rfl

theorem mem_entries_publish {w : CommittedWriteSetWindow} {e : Timestamp × WriteSet}
    (h : e ∈ (w.publish commit ws horizon).entries) : e ∈ w.entries ∨ e.1 = commit := by
  simp only [CommittedWriteSetWindow.publish] at h
  split at h
  case isTrue => exact .inl h
  case isFalse =>
    dsimp only at h
    obtain h | h := mem_append.mp (((dropExpired_suffix _ _).trans (drop_suffix ..)).subset h)
    · exact .inl h
    · cases mem_singleton.mp h
      exact .inr rfl

-- Nothing is published behind the back of a statement that takes its turn.
theorem Turns.not_hasConflict (h : Turns s) (hp : (s.statements u).phase = .executing) :
    s.committedWriteSets.hasConflict (s.statements u).writeSet (s.statements u).start = false := by
  rw [hasConflict, Bool.and_eq_false_iff]
  refine .inr (any_eq_false.mpr fun e he => ?_)
  have hle := h.before u hp e he
  simp [hle.not_gt]

-- How a statement outside of windows comes to be refused.
def Refuses (s : System n m k) (now : Instant) (u : Fin m) (call : StatementCall k) : Prop :=
  call = .apply false ∨ call = .fail ∨
    call = .reserve ∧ ∃ e, System.reserveOrdered s.versionManager now (s.statements u).start = .error e

-- What a call of a statement does: the statement begins or goes on.
structure Proceeds (s : System n m k) (now : Instant) (u : Fin m) (call : StatementCall k) (s' : System n m k) :
    Prop where
  turns : Turns s'
  moves : ∃ x, s'.statements = update s.statements u x ∧ (x.phase = .failed → Refuses s now u call) ∧
    ((∃ thread, call = .begin thread ∧ (s.statements u).phase = .unborn ∧ x.phase = .executing) ∨
      call.begins = false ∧ (s.statements u).phase.isLive)

theorem Turns.goto (h : Turns s) (phase : StatementPhase) (hl : (s.statements u).phase.isLive)
    (hb : call.begins = false) (hs : s'.statements = update s.statements u ((s.statements u).goto phase))
    (hw : s'.windows = s.windows) (hn : phase ≠ .executing) (hg : phase.isLive → s'.gate = s.gate)
    (hv : s.versionManager.writeTs ≤ s'.versionManager.writeTs)
    (hp : ∀ c ∈ phase.pending, c ≤ s'.versionManager.writeTs)
    (he : ∀ e ∈ s'.committedWriteSets.entries, e ∈ s.committedWriteSets.entries ∨ e.1 ∈ (s.statements u).phase.pending)
    (hf : phase = .failed → Refuses s now u call) : Proceeds s now u call s' := by
  refine ⟨h.replace hw (fun v hv hlv => hv (h.alone v u hlv hl)) hs (fun hq => ?_) hp (fun e hm => ?_) fun hx => absurd hx hn,
    (s.statements u).goto phase, hs, hf, .inr ⟨hb, hl⟩⟩
  · exact ⟨h.own u hl, hg hq ▸ h.gate u hl, (h.start u hl).trans hv⟩
  · exact (he e hm).elim (h.entries e ·|>.trans hv) (h.pending u e.1 ·|>.trans hv)

theorem Turns.drop (h : Turns s) (hl : (s.statements u).phase.isLive) (hb : call.begins = false)
    (hf : Refuses s now u call) : Proceeds s now u call (s.dropStatement u) := by
  have ho := h.own u hl
  refine h.goto .failed hl hb ?_ ?_ (by simp) (by simp [StatementPhase.isLive]) ?_
    (by simp [StatementPhase.pending]) ?_ fun _ => hf
  all_goals simp only [System.dropStatement, ho]
  · rfl
  · rfl
  · exact writeTs_abortWriteTimestamp.ge
  · exact fun _ he => .inl he

theorem Turns.statement (h : Turns s) (hc : ∀ thread ∈ call.thread, ∀ p ∈ s.gate.state, p.1 ≠ thread)
    (he : s.statementStep now u call = some s') : Proceeds s now u call s' := by
  have live {p : StatementPhase} (hp : (s.statements u).phase = p) (hl : p.isLive) : (s.statements u).phase.isLive :=
    hp ▸ hl
  simp only [System.statementStep] at he
  split at he
  case h_1 thread hp =>
    split at he
    case h_2 => cases he
    case h_1 ha hr =>
      cases he
      obtain ⟨hlt, hv⟩ := writeTs_acquireInsertTimestamp hr
      obtain ⟨hf, hg⟩ := acquire_free ha (hc thread rfl)
      refine ⟨h.replace (x := ⟨.own, _, .new, .executing⟩) rfl (fun v _ hlv => ?_) rfl (fun _ => ⟨rfl, ⟨thread, hg⟩, hv.ge⟩)
        (by simp [StatementPhase.pending]) (fun e he => (h.entries e he).trans (hv ▸ hlt.le)) fun _ e he => ?_,
        _, rfl, by simp, .inl ⟨thread, rfl, hp, rfl⟩⟩
      · obtain ⟨_, hg⟩ := h.gate v hlv
        cases hf.symm.trans hg
      · exact (h.entries e he).trans_lt hlt
  case h_2 w hp => simp [h.windows w] at he
  case h_3 access hp =>
    cases he
    have hl := live hp rfl
    refine ⟨h.replace rfl (fun v hv hlv => hv (h.alone v u hlv hl)) rfl (fun _ => ⟨h.own u hl, h.gate u hl, h.start u hl⟩)
      (by simp [hp, StatementPhase.pending]) h.entries fun _ => h.before u hp, _, rfl, by simp [hp], .inr ⟨rfl, hl⟩⟩
  case h_4 hp =>
    have hl := live hp rfl
    cases he
    simp only [System.certify, h.own u hl, h.not_hasConflict hp]
    exact h.goto .certified hl rfl rfl rfl (by simp) (fun _ => rfl) le_rfl (by simp [StatementPhase.pending])
      (fun _ => .inl) (by simp)
  case h_5 hp =>
    cases he
    exact h.drop (live hp rfl) rfl (.inr (.inl rfl))
  case h_6 hp =>
    cases he
    exact h.goto .applied (live hp rfl) rfl rfl rfl (by simp) (fun _ => rfl) le_rfl (by simp [StatementPhase.pending])
      (fun _ => .inl) (by simp)
  case h_7 hp =>
    cases he
    exact h.drop (live hp rfl) rfl (.inl rfl)
  case h_8 hp =>
    have hl := live hp rfl
    split at he
    case h_1 commit vm hr =>
      cases he
      obtain ⟨hle, hc⟩ := writeTs_reserveOrdered hr
      refine h.goto (.reserved commit) hl rfl rfl rfl (by simp) (fun _ => rfl) hle ?_ (fun _ => .inl) (by simp)
      rintro _ ⟨⟩
      exact hc (h.start u hl)
    case h_2 e hr =>
      cases he
      exact h.drop hl rfl (.inr (.inr ⟨rfl, e, hr⟩))
  case h_9 commit hp =>
    cases he
    have hv : (System.publishSettled s.versionManager now (s.statements u).start commit).writeTs = _ :=
      writeTs_publishSettled
    refine h.goto (.settled commit) (live hp rfl) rfl rfl rfl (by simp) (fun _ => rfl) hv.ge ?_ (fun _ => .inl) (by simp)
    rintro _ ⟨⟩
    exact hv.ge.trans' (h.pending u commit (by rw [hp]; rfl))
  case h_10 commit hp =>
    cases he
    refine h.goto (.published commit) (live hp rfl) rfl rfl rfl (by simp) (fun _ => rfl) le_rfl (by simp [StatementPhase.pending])
      (fun e he => (mem_entries_publish he).imp_right fun heq => ?_) (by simp)
    simp [hp, heq, StatementPhase.pending]
  case h_11 commit hp =>
    cases he
    have hl := live hp rfl
    rw [if_pos (h.own u hl)]
    exact h.goto (.committed commit) hl rfl rfl rfl (by simp) (by simp [StatementPhase.isLive]) le_rfl (by simp [StatementPhase.pending])
      (fun _ => .inl) (by simp)
  case h_12 => cases he

-- The other steps only move the clock.
theorem Turns.frame (h : Turns s) (hs : s'.statements = s.statements) (hw : s'.windows = s.windows)
    (hg : s'.gate = s.gate) (hc : s'.committedWriteSets = s.committedWriteSets)
    (hv : s.versionManager.writeTs ≤ s'.versionManager.writeTs) : Turns s' where
  windows := hw ▸ h.windows
  own := hs ▸ h.own
  alone := hs ▸ h.alone
  gate := hs ▸ hg ▸ h.gate
  start := fun u hu => by rw [hs] at hu ⊢; exact (h.start u hu).trans hv
  pending := fun u c hu => (h.pending u c (hs ▸ hu)).trans hv
  entries := fun e he => (h.entries e (hc ▸ he)).trans hv
  before := by rw [hs, hc]; exact h.before

theorem txnStep_frame (h : s.txnStep now t call = some s') : s'.statements = s.statements ∧
    s'.windows = s.windows ∧ s'.gate = s.gate ∧ s'.committedWriteSets = s.committedWriteSets ∧
      s.versionManager.writeTs ≤ s'.versionManager.writeTs := by
  simp only [System.txnStep] at h
  split at h
  case h_1 =>
    split at h
    case h_1 hr => cases h; exact ⟨rfl, rfl, rfl, rfl, (writeTs_acquireInsertTimestamp hr).2 ▸ (writeTs_acquireInsertTimestamp hr).1.le⟩
    case h_2 => cases h
  case h_12 =>
    split at h
    case h_1 hr => cases h; exact ⟨rfl, rfl, rfl, rfl, (writeTs_reserveCommitTimestamp hr).2 ▸ (writeTs_reserveCommitTimestamp hr).1.le⟩
    case h_2 => cases h; exact ⟨rfl, rfl, rfl, rfl, le_rfl⟩
  case h_21 => cases h
  all_goals
    (try split at h) <;> cases h <;> refine ⟨rfl, rfl, rfl, rfl, ?_⟩ <;>
      simp [System.setTxn, System.setVersions, System.setCertifier, System.abortTxn]

end

namespace Journal

variable {codec : WalCodec} {s s' : Journal codec n m k} {u : Fin m} {w : Fin k}

-- What the log has of refused statements, and what stands between the others and a refusal.
structure Inv (s : Journal codec n m k) : Prop where
  turns : Turns s.system
  groups : ∀ w, s.groupTransactionIds w = none
  first : firstAutoTransactionId ≤ s.nextAutoTransactionId
  ids : ∀ u, (s.system.statements u).phase ≠ .unborn →
    firstAutoTransactionId ≤ s.transactionIds u ∧ s.transactionIds u < s.nextAutoTransactionId
  distinct : ∀ u v, (s.system.statements u).phase ≠ .unborn → (s.system.statements v).phase ≠ .unborn →
    s.transactionIds u = s.transactionIds v → u = v
  logged : ∀ b ∈ s.log, b.transactionId < s.nextAutoTransactionId
  refused : ∀ u, s.refused u = true → (s.system.statements u).phase = .failed ∧ ¬s.Exposed (s.transactionIds u)
  installed : ∀ u, (s.system.statements u).phase ≠ .unborn → s.Exposed (s.transactionIds u) →
    s.buffered (s.transactionIds u) = false

theorem Inv.new : (new : Journal codec n m k).Inv where
  turns := .new
  groups := by simp [Journal.new]
  first := le_rfl
  ids := by simp [Journal.new, System.new]
  distinct := by simp [Journal.new, System.new]
  logged := by simp [Journal.new]
  refused := by simp [Journal.new]
  installed := by simp [Journal.new, System.new]

theorem Inv.system {system : System n m k} (h : s.Inv) (ht : Turns system)
    (hs : system.statements = s.system.statements) : ({ s with system := system } : Journal codec n m k).Inv :=
  ⟨ht, h.groups, h.first, hs ▸ h.ids, hs ▸ h.distinct, h.logged, hs ▸ h.refused, hs ▸ h.installed⟩

theorem Inv.restage (h : s.Inv) {rows : TransactionId → Bool}
    (hb : ∀ u, s.Exposed (s.transactionIds u) → s.buffered (s.transactionIds u) = false →
      rows (s.transactionIds u) = false) :
    ({ s with stagedWal := staged, buffered := rows } : Journal codec n m k).Inv :=
  ⟨h.turns, h.groups, h.first, h.ids, h.distinct, h.logged, h.refused, fun u hu he => hb u he (h.installed u hu he)⟩

-- A batch of an explicit transaction, or of a statement that is executing without vertex rows.
theorem Inv.append (h : s.Inv) (hb : b.transactionId < firstAutoTransactionId ∨ ∃ u,
      (s.system.statements u).phase = .executing ∧ b.transactionId = s.transactionIds u ∧
      s.buffered (s.transactionIds u) = false) :
    ({ s with log := s.log ++ [b] } : Journal codec n m k).Inv := by
  -- the batch is of no other statement that has begun
  have hother (v : Fin m) (hv : (s.system.statements v).phase ≠ .unborn) (he : b.transactionId = s.transactionIds v) :
      (s.system.statements v).phase = .executing ∧ s.buffered (s.transactionIds v) = false := by
    obtain hl | ⟨u, hp, hu, hr⟩ := hb
    · exact absurd (h.ids v hv).1 (by rw [← he]; exact not_le.mpr hl)
    · cases h.distinct u v (by simp [hp]) hv (hu.symm.trans he)
      exact ⟨hp, hr⟩
  have hx (id : TransactionId) : ({ s with log := s.log ++ [b] } : Journal codec n m k).Exposed id ↔
      s.Exposed id ∨ b.transactionId = id := by
    simp [Exposed, or_and_right, exists_or]
  refine ⟨h.turns, h.groups, h.first, h.ids, h.distinct, fun b' hb' => ?_, fun v hv => ?_, fun v hv he => ?_⟩
  · obtain hb' | hb' := mem_append.mp hb'
    · exact h.logged b' hb'
    · cases mem_singleton.mp hb'
      obtain hl | ⟨u, hp, hu, -⟩ := hb
      · exact hl.trans_le h.first
      · exact hu ▸ (h.ids u (by simp [hp])).2
  · have ⟨hf, hn⟩ := h.refused v hv
    refine ⟨hf, fun he => ?_⟩
    obtain he | he := (hx _).mp he
    · exact hn he
    · have := (hother v (by simp [hf]) he).1
      simp [hf] at this
  · obtain he | he := (hx _).mp he
    · exact h.installed v hv he
    · exact (hother v hv he).2

-- The id of a statement that begins is new.
theorem Inv.start {system : System n m k} {x : Statement k} (h : s.Inv) (ht : Turns system)
    (hs : system.statements = update s.system.statements u x) (hp : (s.system.statements u).phase = .unborn)
    (hr : r = s.refused u) :
    ({ s.allocate u with system := system, stagedWal := staged, refused := update s.refused u r } :
      Journal codec n m k).Inv := by
  have hv {v : Fin m} (hn : v ≠ u) : system.statements v = s.system.statements v ∧
      (s.allocate u).transactionIds v = s.transactionIds v := by
    simp [hs, hn, Journal.allocate]
  have hu : (s.allocate u).transactionIds u = s.nextAutoTransactionId := update_self ..
  have hlt (v : Fin m) (hn : v ≠ u) (hb : (system.statements v).phase ≠ .unborn) :
      (s.allocate u).transactionIds v < s.nextAutoTransactionId := by
    rw [(hv hn).1] at hb
    exact (hv hn).2 ▸ (h.ids v hb).2
  refine ⟨ht, h.groups, h.first.trans (Nat.le_succ _), fun v hb => ?_, fun v v' hb hb' he => ?_,
    fun b hb => (h.logged b hb).trans (Nat.lt_succ_self _), fun v hf => ?_, fun v hb he => ?_⟩
  · by_cases hn : v = u
    · subst hn
      exact ⟨hu ▸ h.first, hu ▸ Nat.lt_succ_self _⟩
    · refine ⟨?_, (hlt v hn hb).trans (Nat.lt_succ_self _)⟩
      exact (hv hn).2 ▸ (h.ids v ((hv hn).1 ▸ hb)).1
  · by_cases hn : v = u <;> by_cases hn' : v' = u
    · exact hn.trans hn'.symm
    · subst hn
      exact absurd (hu ▸ he) (hlt v' hn' hb').ne'
    · subst hn'
      exact absurd (hu ▸ he) (hlt v hn hb).ne
    · exact h.distinct v v' ((hv hn).1 ▸ hb) ((hv hn').1 ▸ hb') ((hv hn).2.symm.trans (he.trans (hv hn').2))
  · by_cases hn : v = u
    · subst hn
      have := (h.refused v (by simpa [hr] using hf)).1
      simp [hp] at this
    · have ⟨hf, he⟩ := h.refused v (by simpa [hn] using hf)
      exact ⟨(hv hn).1 ▸ hf, (hv hn).2 ▸ he⟩
  · by_cases hn : v = u
    · subst hn
      obtain ⟨b, hb, he⟩ := he
      exact absurd (he.trans hu) (h.logged b hb).ne
    · rw [(hv hn).1] at hb
      rw [(hv hn).2] at he ⊢
      exact h.installed v hb he

-- A statement goes on, and nothing is logged or staged.
theorem Inv.proceed {system : System n m k} {x : Statement k} {rows : TransactionId → Bool} {r : Bool} (h : s.Inv)
    (ht : Turns system) (hs : system.statements = update s.system.statements u x)
    (hu : (s.system.statements u).phase ≠ .unborn)
    (hb : ∀ id, rows id → s.buffered id) (hr : r → x.phase = .failed ∧ ¬s.Exposed (s.transactionIds u)) :
    ({ s with system := system, stagedWal := staged, buffered := rows, refused := update s.refused u r } :
      Journal codec n m k).Inv := by
  have hv (v : Fin m) (hb : (system.statements v).phase ≠ .unborn) : (s.system.statements v).phase ≠ .unborn := by
    by_cases hn : v = u
    · exact hn ▸ hu
    · simpa [hs, hn] using hb
  refine ⟨ht, h.groups, h.first, fun v hb => h.ids v (hv v hb), fun v v' hb hb' => h.distinct v v' (hv v hb) (hv v' hb'),
    h.logged, fun v hf => ?_, fun v hn he => ?_⟩
  · by_cases hn : v = u
    · subst hn
      have ⟨hp, he⟩ := hr (by simpa using hf)
      exact ⟨by simpa [hs] using hp, he⟩
    · have ⟨hp, he⟩ := h.refused v (by simpa [hn] using hf)
      exact ⟨by simpa [hs, hn] using hp, he⟩
  · have := h.installed v (hv v hn) he
    exact Bool.eq_false_iff.mpr fun hrow => by simp [hb _ hrow] at this

theorem identify_of_not_begins (h : call.begins = false) : s.identify u call = s := by
  cases call <;> first | rfl | cases h

theorem buffered_of_settledBuffers {txnId : TransactionId} (h : s.settledBuffers u call txnId) : s.buffered txnId := by
  simp only [Journal.settledBuffers] at h
  split at h
  case isFalse => exact h
  case isTrue =>
    rw [update_apply] at h
    split at h
    case isTrue => cases h
    case isFalse => exact h

theorem Inv.statementCall (h : s.Inv) (hg : s.Plain (.system ⟨now, .statement u call⟩))
    (hf : ¬(call.failsToApply && !s.buffered (s.transactionIds u)))
    (hs : s.statementCall now u call = some s') : s'.Inv := by
  simp only [Journal.statementCall, Option.map_eq_some_iff] at hs
  obtain ⟨system, hs, rfl⟩ := hs
  obtain ⟨ht, x, hst, hr, ⟨thread, rfl, hp, hx⟩ | ⟨hb, hl⟩⟩ := h.turns.statement hg.1 hs
  · have hbuf : ({ s.allocate u with system := system } : Journal codec n m k).settledBuffers u (.begin thread) =
        s.buffered := by
      simp [Journal.settledBuffers, Journal.dropsBuffer, hst, hx, Journal.allocate]
    rw [show s.identify u (.begin thread) = s.allocate u from rfl, hbuf]
    exact h.start ht hst hp (by simp [StatementCall.finalizes]; rfl)
  · rw [identify_of_not_begins hb]
    -- a statement that has been refused is not called again
    have hborn : (s.system.statements u).phase ≠ .unborn := fun hn => by simp [hn, StatementPhase.isLive] at hl
    have hnot : s.refused u = false := Bool.eq_false_iff.mpr fun hr => by
      simp [(h.refused u hr).1, StatementPhase.isLive] at hl
    refine h.proceed ht hst hborn (fun id => buffered_of_settledBuffers) fun hfin => ?_
    simp only [hnot, hst, update_self, Bool.false_or, Bool.and_eq_true, decide_eq_true_eq] at hfin
    refine ⟨hfin.2, fun hx => ?_⟩
    obtain rfl | rfl | ⟨rfl, e, hr⟩ := hr hfin.2
    · simp [StatementCall.failsToApply, h.installed u hborn hx] at hf
    · cases hfin.1
    · exact reserveOrdered_ne_error (hg.2 rfl hx) hr

theorem Inv.step (h : s.Inv) (hg : s.Plain c) (hs : s.step c = some s') : s'.Inv := by
  cases c with
  | system e =>
    obtain ⟨now, call⟩ := e
    cases call with
    | statement u call =>
      simp only [Journal.step] at hs
      split at hs
      case isTrue => cases hs
      case isFalse hf => exact h.statementCall hg hf hs
    | window => exact hg.elim
    | txn t call =>
      obtain ⟨system, he, rfl⟩ := Option.map_eq_some_iff.mp hs
      have ⟨hst, hw, hga, hc, hv⟩ := txnStep_frame he
      exact h.system (h.turns.frame hst hw hga hc hv) hst
    | reap timeout =>
      cases hs
      exact h.system (h.turns.frame rfl rfl rfl rfl writeTs_reap.ge) rfl
  | stage u entry =>
    simp only [Journal.step] at hs
    split at hs
    case isTrue => cases hs; exact h.restage fun _ _ => id
    case isFalse => cases hs
  | stageRow u =>
    simp only [Journal.step] at hs
    split at hs
    case isFalse => cases hs
    case isTrue =>
      cases hs
      refine h.restage fun v he hb => ?_
      have hne : s.transactionIds v ≠ s.transactionIds u := fun hid => hg (hid ▸ he)
      exact (update_of_ne hne ..).trans hb
  | commitAuto u written =>
    simp only [Journal.step] at hs
    split at hs
    case isFalse => cases hs
    case isTrue hp =>
      split at hs
      case h_1 =>
        cases hs
        refine h.restage fun v _ hb => ?_
        rw [update_apply]
        split
        case isTrue => rfl
        case isFalse => exact hb
      case h_2 b =>
        split at hs
        case isFalse => cases hs
        case isTrue hb =>
          cases hs
          exact (h.append (.inr ⟨u, hp, hb.1, hg⟩)).restage fun _ _ => id
  | flushGroup now w written => simp [Journal.step, h.groups w] at hs
  | commitExplicit written =>
    simp only [Journal.step] at hs
    split at hs
    case isFalse => cases hs
    case isTrue hi => cases hs; exact h.append (.inl hi)

-- What is found in a log of complete batches that a crash may have cut short.
theorem collect_segment (hc : codec.Lawful) (segment : Segment codec) :
    collectCommittedTransactions codec segment.parsedEntries = .ok segment.committed := by
  rw [collectCommittedTransactions, Segment.parsedEntries, foldlM_append, collect_batches hc]
  simp [collect_open segment.isOpen_torn, Segment.committed, pure, Except.pure]

instance (s : Journal codec n m k) : (c : JournalCall codec n m k) → Decidable (s.Plain c)
  | .system ⟨_, .window ..⟩ => instDecidableFalse
  | .system ⟨_, .statement _ call⟩ => inferInstanceAs (Decidable ((∀ thread ∈ call.thread, _) ∧ (_ → _ → _)))
  | .commitAuto _ (some _) => inferInstanceAs (Decidable (_ = false))
  | .stageRow _ => inferInstanceAs (Decidable ¬_)
  | .system ⟨_, .txn ..⟩ | .system ⟨_, .reap _⟩ | .commitAuto _ none | .stage .. | .flushGroup .. | .commitExplicit _ =>
    instDecidableTrue

def calls (events : List (Event n m k)) : List (JournalCall codec n m k) :=
  events.map .system

def someEntry : TransactionWalEntry := ⟨.insertVertex, 7, [1, 2, 3], none⟩

def someEdge : TransactionWalEntry := ⟨.insertEdge, 7, [1, 2, 3], none⟩

-- A transaction that inserts an edge.
def edgeBatch (transactionId : TransactionId) : Batch postcardCodec where
  transactionId := transactionId
  redo := [⟨someEdge, by decide⟩]
  intents := []
  entries := (buildTransactionEntries postcardCodec none transactionId [someEdge] []).toOption.getD []
  built := by simp [buildTransactionEntries, intentRecords, Except.ensure, Except.toOption, someEdge]

-- Two statements of one window write to one vertex. The second one commits first.
def secondFirst : List (JournalCall postcardCodec 0 2 1) :=
  calls ([⟨0, .window only (.begin 0 false)⟩] ++ statementCalls first [.bind only, .write someVertex] ++
      statementCalls second [.bind only, .write someVertex]) ++
    [JournalCall.stage second someEntry, .stageRow second, .commitAuto second (some ((insertBatch (2 ^ 62 + 1)).logged 0))] ++
    calls (statementCalls second finalizeCalls)

-- The append for the first statement fails before anything is written. The statement stages its vertex
-- once more, which cannot be installed. The second statement inserts an edge and commits.
def edgeAfterVertex : List (JournalCall postcardCodec 0 2 0) :=
  calls (statementCalls first [.begin 0, .write someVertex]) ++
    [JournalCall.stage first someEntry, .stageRow first, .commitAuto first none, .stageRow first] ++
    calls (statementCalls first [.certify, .apply false] ++ statementCalls second [.begin 0, .write someVertex]) ++
    [JournalCall.stage second someEdge, .commitAuto second (some ((edgeBatch (2 ^ 62 + 1)).logged 0))] ++
    calls (statementCalls second finalizeCalls)

end Journal
end TwoPath
end Linkrs
