import Linkrs.Manager.CheckpointGate
import Linkrs.Wal.Types

namespace Linkrs

open Transition (Run FreeRun first second)

namespace Checkpoint

-- How far a write transaction has got in `commit_transaction`, or in its abort.
inductive Commit where
  | none
  | active
  -- a call of the commit sink, before and after the batch is in the log
  | persisting (attempt : ℕ)
  | appended (attempt : ℕ) (lsn : Lsn)
  -- `release_write_lease`, from a durable commit or from an abort
  | leaving (lsn : Lsn)
  | aborting
  -- the rest of the commit
  | reserving (lsn : Lsn)
  | certifying (lsn : Lsn)
  | finalizing (attempt : ℕ) (lsn : Lsn)
  deriving DecidableEq, Repr

namespace Commit

-- The transaction has not come to the release of its lease.
def needsLease : Commit → Bool
  | active | persisting _ | appended .. => true
  | _ => false

-- The last call of the commit sink has returned and the transaction has not ended.
def hasPersisted : Commit → Bool
  | leaving _ | aborting | reserving _ | certifying _ | finalizing .. => true
  | _ => false

end Commit

-- How a transaction ends. One whose finalization failed is parked in the recovery queue.
inductive Outcome where
  | finalized
  | parked
  | aborted
  deriving DecidableEq, Repr

structure Writer where
  txn : TransactionId
  commit : Commit
  deriving DecidableEq, Repr

structure Batch where
  lsn : Lsn
  txn : TransactionId
  deriving DecidableEq, Repr

-- The gate with the transactions that its writers run and the log that they append to.
structure System (n : ℕ) where
  gate : State n
  writers : Fin n → Writer
  nextTxn : TransactionId
  log : List Batch
  outcomes : List (TransactionId × Outcome)

variable {n : ℕ}

namespace System

-- `ok` is the result of the call that the event completes.
inductive Event (n : ℕ) where
  | gate (e : Checkpoint.Event n)
  | begin (t : Fin n)
  | commit (t : Fin n)
  | abort (t : Fin n)
  | append (t : Fin n) (lsn : Lsn)
  | persisted (t : Fin n) (ok : Bool)
  | left (t : Fin n)
  | reserved (t : Fin n) (ok : Bool)
  | certified (t : Fin n) (ok : Bool)
  | finalized (t : Fin n) (ok : Bool)

def new : System n where
  gate := .new
  writers := fun _ => ⟨0, .none⟩
  nextTxn := 1
  log := []
  outcomes := []

def lastLsn (s : System n) : Lsn :=
  (s.log.getLast?.map (·.lsn)).getD 0

def set (s : System n) (t : Fin n) (w : Writer) : System n :=
  { s with writers := Function.update s.writers t w }

def goto (s : System n) (t : Fin n) (c : Commit) : System n :=
  s.set t ⟨(s.writers t).txn, c⟩

def append (s : System n) (t : Fin n) (lsn : Lsn) : System n :=
  { s with log := s.log ++ [⟨lsn, (s.writers t).txn⟩] }

def finish (s : System n) (t : Fin n) (o : Outcome) : System n :=
  { s with outcomes := ((s.writers t).txn, o) :: s.outcomes }.goto t .none

-- A thread calls the gate where its transaction does.
def admits (s : System n) : Checkpoint.Event n → Bool
  | .acquireWrite t | .pauseWritesAndDrain t => (s.writers t).commit = .none
  | .releaseWrite t =>
    match (s.writers t).commit with
    | .leaving _ | .aborting => true
    | _ => false
  | _ => true

def step (retries : ℕ) (s : System n) : Event n → Option (System n)
  | .gate e => if s.admits e then (s.gate.step e).map ({ s with gate := · }) else none
  | .begin t =>
    if (s.writers t).commit = .none ∧ s.gate.threads t = .holding then
      { s with nextTxn := s.nextTxn + 1 }.set t ⟨s.nextTxn, .active⟩
    else
      none
  | .commit t =>
    match (s.writers t).commit with
    | .active => s.goto t (.persisting 0)
    | _ => none
  | .abort t =>
    match (s.writers t).commit with
    | .active => s.goto t .aborting
    | _ => none
  | .append t lsn =>
    match (s.writers t).commit with
    | .persisting k =>
      if s.lastLsn < lsn then
        (s.append t lsn).goto t (.appended k lsn)
      else
        none
    | _ => none
  -- A call that fails may have left its batch in the log.
  | .persisted t ok =>
    match (s.writers t).commit, ok with
    | .appended _ lsn, true => s.goto t (.leaving lsn)
    | .appended k _, false | .persisting k, false =>
      s.goto t (if k < retries then .persisting (k + 1) else .aborting)
    | _, _ => none
  | .left t =>
    match (s.writers t).commit, s.gate.threads t with
    | .leaving lsn, .idle => s.goto t (.reserving lsn)
    | .aborting, .idle => s.finish t .aborted
    | _, _ => none
  | .reserved t ok =>
    match (s.writers t).commit with
    | .reserving lsn => if ok then s.goto t (.certifying lsn) else s.finish t .parked
    | _ => none
  | .certified t ok =>
    match (s.writers t).commit with
    | .certifying lsn => if ok then s.goto t (.finalizing 0 lsn) else s.finish t .aborted
    | _ => none
  | .finalized t ok =>
    match (s.writers t).commit with
    | .finalizing k lsn =>
      if ok then
        s.finish t .finalized
      else if k < retries then
        s.goto t (.finalizing (k + 1) lsn)
      else
        s.finish t .parked
    | _ => none

-- The commit sink is done with the transaction: it has ended, or its last call has returned.
def Persisted (s : System n) (txn : TransactionId) : Prop :=
  (∃ t, (s.writers t).txn = txn ∧ (s.writers t).commit.hasPersisted) ∨ ∃ o, (txn, o) ∈ s.outcomes

-- The same, or a thread is still on the way there.
def Owned (s : System n) (txn : TransactionId) : Prop :=
  (∃ t, (s.writers t).txn = txn ∧ (s.writers t).commit ≠ .none) ∨ ∃ o, (txn, o) ∈ s.outcomes

structure Inv (s : System n) : Prop where
  gate : Checkpoint.Inv s.gate
  lease : ∀ {t}, (s.writers t).commit.needsLease → s.gate.threads t = .holding
  owned : ∀ {b}, b ∈ s.log → s.Owned b.txn

def Undisturbed (s : System n) : Event n → Prop
  | .gate e => Checkpoint.Undisturbed s.gate e
  | _ => True

end System

namespace State

variable {s s' : State n} {t t' : Fin n}

theorem goto_of_ne (h : t' ≠ t) : (s.goto t p).threads t' = s.threads t' :=
  Function.update_of_ne h ..

-- The step of another thread, which wakes at most the threads that wait.
theorem tick_of_ne (he : s.tick t expired = some s') (h : t' ≠ t) :
    s'.threads t' = s.threads t' ∨ s.threads t' = .waiting := by
  simp only [tick] at he
  split at he
  case h_13 =>
    cases he
    rw [goto_of_ne h]
    simp only [notifyAll]
    split <;> simp_all
  case h_8 | h_10 | h_17 | h_18 | h_19 | h_20 =>
    split at he <;> cases he
    all_goals exact .inl (goto_of_ne h)
  all_goals cases he
  all_goals exact .inl (goto_of_ne h)

theorem holding_step (he : s.step e = some s') (hr : e ≠ .releaseWrite t)
    (hh : s.threads t = .holding) : s'.threads t = .holding := by
  cases e with
  | tick t' expired =>
    have hn : t ≠ t' := by
      intro ht
      subst ht
      simp [step, tick, hh] at he
    cases tick_of_ne he hn with
    | inl hs => exact hs.trans hh
    | inr hw => simp [hh] at hw
  | release t' call =>
    simp only [step] at he
    split at he <;> cases he
    all_goals
      rw [goto_of_ne, hh]
      intro ht
      simp_all
  | _ t' =>
    simp only [step] at he
    split at he <;> cases he
    rw [goto_of_ne, hh]
    intro ht
    simp_all [Phase.isResting]

end State

namespace System

variable {s s' : System n} {t t' : Fin n} {txn : TransactionId} {c : Commit}

theorem set_of_ne (h : t' ≠ t) : (s.set t w).writers t' = s.writers t' :=
  Function.update_of_ne h ..

theorem set_self : (s.set t w).writers t = w :=
  Function.update_self ..

theorem Owned.goto (h : s.Owned txn) (hc : c ≠ .none) : (s.goto t c).Owned txn := by
  rcases h with ⟨t', ht, hn⟩ | ho
  · refine .inl ⟨t', ?_⟩
    by_cases he : t' = t
    · subst he
      exact ⟨by rw [System.goto, set_self]; exact ht, by rw [System.goto, set_self]; exact hc⟩
    · rw [System.goto, set_of_ne he]
      exact ⟨ht, hn⟩
  · exact .inr ho

theorem Owned.finish (h : s.Owned txn) : (s.finish t o).Owned txn := by
  rcases h with ⟨t', ht, hn⟩ | ⟨o', ho⟩
  · by_cases he : t' = t
    · subst he
      exact .inr ⟨o, ht ▸ List.mem_cons_self⟩
    · refine .inl ⟨t', ?_⟩
      rw [System.finish, System.goto, set_of_ne he]
      exact ⟨ht, hn⟩
  · exact .inr ⟨o', List.mem_cons_of_mem _ ho⟩

namespace Inv

theorem new : Inv (System.new : System n) where
  gate := .new
  lease := by simp [System.new, Commit.needsLease]
  owned := by simp [System.new]

-- A writer moves on. It does not come to need a lease that it does not have.
theorem goto (h : Inv s) (hc : c ≠ .none) (hl : c.needsLease → (s.writers t).commit.needsLease) :
    Inv (s.goto t c) where
  gate := h.gate
  lease := by
    intro t' hn
    by_cases he : t' = t
    · subst he
      rw [System.goto, set_self] at hn
      exact h.lease (hl hn)
    · rw [System.goto, set_of_ne he] at hn
      exact h.lease hn
  owned := fun hb => (h.owned hb).goto hc

theorem finish (h : Inv s) : Inv (s.finish t o) where
  gate := h.gate
  lease := by
    intro t' hn
    by_cases he : t' = t
    · subst he
      rw [System.finish, System.goto, set_self] at hn
      contradiction
    · rw [System.finish, System.goto, set_of_ne he] at hn
      exact h.lease hn
  owned := fun hb => (h.owned hb).finish

theorem begin (h : Inv s) (hn : (s.writers t).commit = .none) (hh : s.gate.threads t = .holding) :
    Inv ({ s with nextTxn := next }.set t ⟨txn, .active⟩) where
  gate := h.gate
  lease := by
    intro t' hl
    by_cases he : t' = t
    · exact he ▸ hh
    · rw [set_of_ne he] at hl
      exact h.lease hl
  owned := by
    intro b hb
    rcases h.owned hb with ⟨t', ht, hc⟩ | ho
    · have he : t' ≠ t := fun he => hc (he ▸ hn)
      exact .inl ⟨t', by rw [set_of_ne he]; exact ⟨ht, hc⟩⟩
    · exact .inr ho

theorem append {lsn : Lsn} (h : Inv s) (hc : (s.writers t).commit ≠ .none) :
    Inv (s.append t lsn) where
  gate := h.gate
  lease := h.lease
  owned := by
    intro b hb
    rcases List.mem_append.mp hb with hb | hb
    · exact h.owned hb
    · cases List.mem_singleton.mp hb
      exact .inl ⟨t, rfl, hc⟩

theorem gateStep (h : Inv s)
    (hu : Checkpoint.Undisturbed s.gate e) (ha : s.admits e) (he : s.gate.step e = some g) :
    Inv { s with gate := g } where
  gate := h.gate.step hu he
  lease := by
    intro t hl
    refine State.holding_step he ?_ (h.lease hl)
    rintro rfl
    simp only [admits] at ha
    cases hc : (s.writers t).commit <;> simp_all [Commit.needsLease]
  owned := h.owned

theorem step (h : Inv s) (hu : Undisturbed s e) (he : s.step retries e = some s') : Inv s' := by
  cases e with
  | gate e =>
    simp only [System.step] at he
    split at he
    case isFalse => contradiction
    case isTrue ha =>
      have ⟨g, hg, hs⟩ := Option.map_eq_some_iff.mp he
      exact hs ▸ h.gateStep hu ha hg
  | begin t =>
    simp only [System.step] at he
    split at he
    case isFalse => contradiction
    case isTrue hb => cases he; exact h.begin hb.1 hb.2
  | append t lsn =>
    simp only [System.step] at he
    split at he
    case h_2 => contradiction
    case h_1 hc =>
      split at he <;> cases he
      refine (h.append (by simp [hc])).goto nofun fun _ => ?_
      simp [System.append, hc, Commit.needsLease]
  | persisted t ok =>
    simp only [System.step] at he
    split at he
    case h_1 => cases he; exact h.goto nofun nofun
    case h_2 | h_3 =>
      cases he
      split
      all_goals exact h.goto nofun (by simp_all [Commit.needsLease])
    case h_4 => contradiction
  | left t =>
    simp only [System.step] at he
    split at he
    case h_1 => cases he; exact h.goto nofun nofun
    case h_2 => cases he; exact h.finish
    case h_3 => contradiction
  | finalized t ok =>
    simp only [System.step] at he
    split at he
    case h_2 => contradiction
    case h_1 =>
      split at he
      case isTrue => cases he; exact h.finish
      case isFalse =>
        split at he
        case isTrue => cases he; exact h.goto nofun nofun
        case isFalse => cases he; exact h.finish
  | reserved t ok | certified t ok =>
    simp only [System.step] at he
    split at he
    case h_2 => contradiction
    case h_1 =>
      split at he
      case isTrue => cases he; exact h.goto nofun nofun
      case isFalse => cases he; exact h.finish
  | commit t | abort t =>
    simp only [System.step] at he
    split at he
    case h_1 hc => cases he; exact h.goto nofun (by simp [hc, Commit.needsLease])
    case h_2 => contradiction

end Inv

theorem log_step (hn : ∀ t, (s.writers t).commit.needsLease = false)
    (he : s.step retries e = some s') : s'.log = s.log := by
  cases e with
  | gate e =>
    simp only [step] at he
    split at he
    case isFalse => contradiction
    case isTrue =>
      have ⟨g, _, hs⟩ := Option.map_eq_some_iff.mp he
      rw [← hs]
  | append t lsn =>
    simp only [step] at he
    split at he
    case h_2 => contradiction
    case h_1 hc => simpa [hc, Commit.needsLease] using hn t
  | _ =>
    simp only [step] at he
    repeat' split at he
    all_goals cases he
    all_goals rfl

-- While a checkpointer has drained the writers, no transaction of the log is still in the commit
-- sink and the log does not grow.
theorem drained_snapshot_persisted {retries : ℕ} {es : List (Event n)}
    (r : Run (step retries) Undisturbed .new es s) (hd : s.gate.threads t = .drained) :
    (∀ b ∈ s.log, b.lsn ≤ s.lastLsn → s.Persisted b.txn) ∧ (∀ t', (s.gate.threads t').holdsLease = false) ∧
    ∀ e s', s.step retries e = some s' → s'.log = s.log := by
  have h := r.invariant Inv.step Inv.new
  have hn := h.gate.exclusive hd
  have hl (t' : Fin n) : (s.writers t').commit.needsLease = false := by
    by_contra hl
    have := hn t'
    rw [h.lease (eq_true_of_ne_false hl)] at this
    contradiction
  refine ⟨fun b hb _ => ?_, hn, fun e s' => log_step hl⟩
  rcases h.owned hb with ⟨t', ht, hc⟩ | ho
  · refine .inl ⟨t', ht, ?_⟩
    have := hl t'
    cases hw : (s.writers t').commit <;> simp_all [Commit.needsLease, Commit.hasPersisted]
  · exact .inr ho

-- `Undisturbed`, to be evaluated.
def undisturbed (s : System n) : Event n → Bool
  | .gate e => Checkpoint.undisturbed s.gate e
  | _ => true

theorem undisturbed_sound (s : System n) (e : Event n) (h : undisturbed s e) : Undisturbed s e := by
  cases e with
  | gate e => exact Checkpoint.undisturbed_sound s.gate e h
  | _ => trivial

def gateTicks (t : Fin n) (k : ℕ) : List (Event n) :=
  (ticks t k).map .gate

-- The first thread begins a transaction, appends its batch and releases its lease.
def persistOne : List (Event 2) :=
  .gate (.acquireWrite first) :: gateTicks first 3 ++
    [Event.begin first, .commit first, .append first 138, .persisted first true, .gate (.releaseWrite first)] ++
    gateTicks first 2 ++ [Event.left first]

def drain : List (Event 2) :=
  .gate (.pauseWritesAndDrain second) :: gateTicks second 5

-- The checkpoint comes after the transaction has been finalized.
def finalizeAndDrain : List (Event 2) :=
  persistOne ++ [Event.reserved first true, .certified first true, .finalized first true] ++ drain

theorem drained_snapshot_persisted_finalized : ∃ s : System 2, Run (step 3) Undisturbed .new finalizeAndDrain s ∧
      s.gate.threads 1 = .drained ∧ s.log ≠ [] ∧ (∀ b ∈ s.log, b.lsn ≤ s.lastLsn → s.Persisted b.txn) ∧
      (∀ t', (s.gate.threads t').holdsLease = false) ∧ ∀ e s', s.step 3 e = some s' → s'.log = s.log := by
  obtain ⟨s, r, hp⟩ := Run.exists_of_checked (step 3) .new finalizeAndDrain
    (fun s => s.gate.threads 1 = .drained ∧ s.log ≠ []) undisturbed_sound (by decide +kernel)
  have ⟨hd, hl⟩ := of_decide_eq_true hp
  exact ⟨s, r, hd, hl, drained_snapshot_persisted r hd⟩

-- The checkpoint comes while the transaction has yet to be finalized, and after its finalization
-- has failed for good.
def drainBeforeFinalize : List (Event 2) :=
  persistOne ++ drain

def drainAfterFailure : List (Event 2) :=
  persistOne ++ [Event.reserved first true, .certified first true] ++
    List.replicate 4 (Event.finalized first false) ++ drain

theorem drained_snapshot_finalized_violated :
    (∃ s : System 2, Run (step 3) Undisturbed .new drainBeforeFinalize s ∧
      s.gate.threads 1 = .drained ∧ ∃ b ∈ s.log, b.lsn ≤ s.lastLsn ∧
        (b.txn, .finalized) ∉ s.outcomes ∧ s.writers 0 = ⟨b.txn, .reserving b.lsn⟩) ∧
    ∃ s : System 2, Run (step 3) Undisturbed .new drainAfterFailure s ∧
      s.gate.threads 1 = .drained ∧ ∃ b ∈ s.log, b.lsn ≤ s.lastLsn ∧ s.outcomes = [(b.txn, .parked)] := by
  constructor
  · obtain ⟨s, r, hp⟩ := Run.exists_of_checked (step 3) .new drainBeforeFinalize
      (fun s => s.gate.threads 1 = .drained ∧ ∃ b ∈ s.log, b.lsn ≤ s.lastLsn ∧
        (b.txn, .finalized) ∉ s.outcomes ∧ s.writers 0 = ⟨b.txn, .reserving b.lsn⟩)
      undisturbed_sound (by decide +kernel)
    exact ⟨s, r, of_decide_eq_true hp⟩
  · obtain ⟨s, r, hp⟩ := Run.exists_of_checked (step 3) .new drainAfterFailure
      (fun s => s.gate.threads 1 = .drained ∧ ∃ b ∈ s.log, b.lsn ≤ s.lastLsn ∧ s.outcomes = [(b.txn, .parked)])
      undisturbed_sound (by decide +kernel)
    exact ⟨s, r, of_decide_eq_true hp⟩

end System

end Checkpoint
end Linkrs
