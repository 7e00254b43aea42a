import Mathlib.Algebra.BigOperators.Fin
import Mathlib.Algebra.Order.BigOperators.Group.Finset
import Linkrs.Lib.Transition

namespace Linkrs

open Function Finset
open Transition (Run FreeRun)

-- `active_writes` is a `u64`. Every decrement follows an increment by the same thread.
structure CheckpointGate where
  writingPaused : Bool
  checkpointActive : Bool
  inStoragePhase : Bool
  activeWrites : ℕ
  deriving DecidableEq, Repr

def CheckpointGate.new : CheckpointGate := ⟨false, false, false, 0⟩

namespace Checkpoint

-- The calls by which a checkpointer lets writers in again.
inductive Release where
  | resumeWrites
  | releaseWriteGateEarly
  | completeCheckpoint
  deriving DecidableEq, Repr

-- How far a thread has got: a writer between `acquire_write` and the end of `release_write`, or a
-- checkpointer between `pause_writes_and_drain` and the end of its release.
inductive Phase where
  | idle
  -- acquire_write, and its error
  | entering
  | counting
  | rechecking
  | retreating
  | refused
  -- the lease is held until `release_write` has counted it down
  | holding
  | releasing
  | notifying
  -- pause_writes_and_drain, and its error
  | pausing
  | activating
  | resetting
  | locking
  | loading
  | expiring (active : ℕ)
  | waiting
  | woken (timedOut : Bool)
  | reopening (active : Option ℕ)
  | deactivating (active : Option ℕ)
  | reporting
  | timedOut (active : ℕ)
  -- `pause_writes_and_drain` has succeeded
  | drained
  -- the release calls; `storage` is a checkpoint after its early release
  | resuming (call : Release)
  | marking (call : Release)
  | closing
  | storage
  deriving DecidableEq, Repr

namespace Phase

def isResting : Phase → Bool
  | idle | refused | timedOut _ => true
  | _ => false

def isCounted : Phase → Bool
  | rechecking | retreating | holding | releasing => true
  | _ => false

def holdsLease : Phase → Bool
  | holding | releasing => true
  | _ => false

-- A checkpointer that has paused the writers and neither given up nor let them in again.
def reliesOnPause : Phase → Bool
  | activating | resetting | locking | loading | expiring _ | waiting | woken false | drained => true
  | _ => false

-- Moving on from `q` to `p` neither counts the thread nor gives it a lease, and the thread does not
-- come to rely on the pause.
def follows (q p : Phase) : Bool :=
  p.isCounted = q.isCounted ∧ (p.reliesOnPause → q.reliesOnPause) ∧ p ≠ drained ∧
    (p.holdsLease → q.holdsLease)

theorem isCounted_of_holdsLease {p : Phase} (h : p.holdsLease) : p.isCounted := by
  cases p <;> first | rfl | contradiction

end Phase

structure State (n : ℕ) where
  gate : CheckpointGate
  mutex : Option (Fin n)
  threads : Fin n → Phase

-- `expired` says whether the timeout has elapsed when a checkpointer looks at its clock.
inductive Event (n : ℕ) where
  | acquireWrite (t : Fin n)
  | releaseWrite (t : Fin n)
  | pauseWritesAndDrain (t : Fin n)
  | release (t : Fin n) (call : Release)
  | timeout (t : Fin n)
  | tick (t : Fin n) (expired : Bool)

variable {n : ℕ}

namespace State

def new : State n where
  gate := .new
  mutex := none
  threads := fun _ => .idle

def goto (s : State n) (t : Fin n) (phase : Phase) : State n :=
  { s with threads := Function.update s.threads t phase }

def notifyAll (s : State n) : State n :=
  { s with threads := fun t => if s.threads t = .waiting then .woken false else s.threads t }

def setPaused (s : State n) (b : Bool) : State n :=
  { s with gate.writingPaused := b }

def tick (s : State n) (t : Fin n) (expired : Bool) : Option (State n) :=
  match s.threads t with
  | .idle | .refused | .timedOut _ | .holding | .waiting | .drained | .storage => none
  | .entering => if s.gate.writingPaused then s.goto t .refused else s.goto t .counting
  | .counting =>
    { s with gate.activeWrites := s.gate.activeWrites + 1 }.goto t .rechecking
  | .rechecking => if s.gate.writingPaused then s.goto t .retreating else s.goto t .holding
  | .retreating =>
    { s with gate.activeWrites := s.gate.activeWrites - 1 }.goto t .refused
  | .releasing =>
    { s with gate.activeWrites := s.gate.activeWrites - 1 }.goto t
      (if s.gate.activeWrites = 1 then .notifying else .idle)
  | .notifying => s.notifyAll.goto t .idle
  | .pausing => (s.setPaused true).goto t .activating
  | .activating => { s with gate.checkpointActive := true }.goto t .resetting
  | .resetting => { s with gate.inStoragePhase := false }.goto t .locking
  | .locking =>
    match s.mutex with
    | none => { s with mutex := t }.goto t .loading
    | some _ => none
  | .loading =>
    if s.gate.activeWrites = 0 then
      { s with mutex := none }.goto t .drained
    else
      s.goto t (.expiring s.gate.activeWrites)
  | .expiring active =>
    if expired then
      s.goto t (.reopening active)
    else
      { s with mutex := none }.goto t .waiting
  | .woken timedOut =>
    match s.mutex, timedOut with
    | none, true => { s with mutex := t }.goto t (.reopening none)
    | none, false => { s with mutex := t }.goto t .loading
    | some _, _ => none
  | .reopening active => (s.setPaused false).goto t (.deactivating active)
  | .deactivating (some active) =>
    { s with gate.checkpointActive := false, mutex := none }.goto t (.timedOut active)
  | .deactivating none => { s with gate.checkpointActive := false }.goto t .reporting
  | .reporting => { s with mutex := none }.goto t (.timedOut s.gate.activeWrites)
  | .resuming call => (s.setPaused false).goto t (.marking call)
  | .marking .releaseWriteGateEarly => { s with gate.inStoragePhase := true }.goto t .storage
  | .marking _ => { s with gate.checkpointActive := false }.goto t .closing
  | .closing => { s with gate.inStoragePhase := false }.goto t .idle

def step (s : State n) : Event n → Option (State n)
  | .acquireWrite t => if (s.threads t).isResting then s.goto t .entering else none
  | .releaseWrite t => if s.threads t = .holding then s.goto t .releasing else none
  | .pauseWritesAndDrain t => if (s.threads t).isResting then s.goto t .pausing else none
  | .release t call =>
    match s.threads t, call with
    | .drained, _ => s.goto t (.resuming call)
    | .storage, .releaseWriteGateEarly => none
    | .storage, _ => s.goto t (.resuming call)
    | _, _ => none
  | .timeout t => if s.threads t = .waiting then s.goto t (.woken true) else none
  | .tick t expired => s.tick t expired

end State

-- Whoever lets the writers in again, by its release or because it has run out of time, is the only
-- checkpointer that relies on the pause.
def Undisturbed (s : State n) : Event n → Prop
  | .tick t _ =>
    match s.threads t with
    | .reopening _ | .resuming _ => ∀ t', (s.threads t').reliesOnPause = false
    | _ => True
  | _ => True

def counted (threads : Fin n → Phase) : ℕ :=
  ∑ t, (threads t).isCounted.toNat

theorem counted_update (threads : Fin n → Phase) (t : Fin n) (p : Phase) :
    counted (Function.update threads t p) + (threads t).isCounted.toNat = counted threads + p.isCounted.toNat := by
  have ho : ∀ t' ∈ Finset.univ.erase t, (Function.update threads t p t').isCounted.toNat =
      (threads t').isCounted.toNat := by
    intro t' ht
    rw [update_of_ne (ne_of_mem_erase ht)]
  have hn := add_sum_erase Finset.univ
    (fun t' => (Function.update threads t p t').isCounted.toNat) (mem_univ t)
  have hs := add_sum_erase Finset.univ
    (fun t' => (threads t').isCounted.toNat) (mem_univ t)
  simp only [update_self, sum_congr rfl ho] at hn hs
  simp only [counted]
  omega

theorem isCounted_of_counted_eq_zero {threads : Fin n → Phase} (h : counted threads = 0)
    (t : Fin n) : (threads t).isCounted = false := by
  have := (sum_eq_zero_iff.mp h) t (mem_univ t)
  simpa using this

structure Inv (s : State n) : Prop where
  count : s.gate.activeWrites = counted s.threads
  paused : ∀ {t}, (s.threads t).reliesOnPause → s.gate.writingPaused
  exclusive : ∀ {t}, s.threads t = .drained → ∀ t', (s.threads t').holdsLease = false

namespace Inv

variable {s s' : State n} {t : Fin n} {p q : Phase}

theorem new : Inv (State.new : State n) where
  count := by simp [State.new, CheckpointGate.new, counted, Phase.isCounted]
  paused := by simp [State.new, Phase.reliesOnPause]
  exclusive := by simp [State.new]

theorem notifyAll (h : Inv s) : Inv s.notifyAll := by
  have hw : ∀ t, s.notifyAll.threads t = s.threads t ∨
      s.threads t = .waiting ∧ s.notifyAll.threads t = .woken false := by
    intro t
    simp only [State.notifyAll]
    split
    · exact .inr ⟨‹_›, rfl⟩
    · exact .inl rfl
  constructor
  case count =>
    refine h.count.trans (sum_congr rfl fun t _ => ?_)
    rcases hw t with he | ⟨hs, he⟩
    · rw [he]
    · rw [he, hs]
      rfl
  case paused =>
    intro t ht
    rcases hw t with he | ⟨hs, _⟩
    · exact h.paused (he ▸ ht)
    · exact h.paused (t := t) (by rw [hs]; rfl)
  case exclusive =>
    intro t ht t'
    have hd : s.threads t = .drained := by
      rcases hw t with he | ⟨_, he⟩ <;> rw [he] at ht
      · exact ht
      · contradiction
    rcases hw t' with he | ⟨_, he⟩ <;> rw [he]
    · exact h.exclusive hd t'
    · rfl

theorem goto (h : Inv s) (ht : s'.threads = s.threads)
    (hc : s'.gate.activeWrites + (s.threads t).isCounted.toNat = s.gate.activeWrites + p.isCounted.toNat)
    (hw : ∀ t' ≠ t, (s.threads t').reliesOnPause → s'.gate.writingPaused)
    (hr : p.reliesOnPause → s'.gate.writingPaused) (hd : p = .drained → ∀ t', (s.threads t').holdsLease = false)
    (hl : p.holdsLease → ∀ t', s.threads t' ≠ .drained) : Inv (s'.goto t p) := by
  constructor
  case count =>
    have hs := h.count
    have hu := counted_update s.threads t p
    simp only [State.goto, ht]
    omega
  case paused =>
    intro t' hp
    by_cases he : t' = t
    · subst he
      exact hr (by simpa [State.goto] using hp)
    · exact hw t' he (by simpa [State.goto, ht, he] using hp)
  case exclusive =>
    intro t₁ h₁ t₂
    simp only [State.goto, ht] at h₁ ⊢
    by_cases e₁ : t₁ = t <;> by_cases e₂ : t₂ = t <;>
      simp only [e₁, e₂, update_self, ne_eq, not_false_eq_true, update_of_ne]
        at h₁ ⊢
    · rw [h₁]
      rfl
    · exact hd h₁ t₂
    · by_contra hn
      exact hl (eq_true_of_ne_false hn) t₁ h₁
    · exact h.exclusive h₁ t₂

theorem keep (h : Inv s) (hp : s.threads t = q) (ht : s'.threads = s.threads)
    (ha : s'.gate.activeWrites = s.gate.activeWrites)
    (hw : s'.gate.writingPaused = s.gate.writingPaused) (hq : q.follows p) : Inv (s'.goto t p) := by
  have ⟨hc, hr, hd, hl⟩ := of_decide_eq_true hq
  subst hp
  apply h.goto ht
  case hc => rw [ha, hc]
  case hw =>
    intro t' _ hp
    rw [hw]
    exact h.paused hp
  case hr =>
    intro hp
    rw [hw]
    exact h.paused (hr hp)
  case hd => exact fun hp => absurd hp hd
  case hl =>
    intro hp t' hd'
    have := h.exclusive hd' t
    rw [hl hp] at this
    contradiction

theorem lift (h : Inv s) (hp : s.threads t = q) (hn : ∀ t', (s.threads t').reliesOnPause = false)
    (hq : p.isCounted = q.isCounted ∧ p.reliesOnPause = false ∧ p ≠ .drained ∧
      p.holdsLease = false) : Inv ((s.setPaused false).goto t p) := by
  have ⟨hc, hr, hd, hl⟩ := hq
  subst hp
  apply h.goto
  case ht => rfl
  case hc => simp only [State.setPaused, hc]
  case hw =>
    intro t' _ hp
    rw [hn t'] at hp
    contradiction
  case hr =>
    intro hp
    rw [hr] at hp
    contradiction
  case hd => exact fun hp => absurd hp hd
  case hl =>
    intro hp
    rw [hl] at hp
    contradiction

theorem tick (h : Inv s) (hu : Undisturbed s (.tick t expired)) (he : s.tick t expired = some s') : Inv s' := by
  simp only [Undisturbed] at hu
  simp only [State.tick] at he
  split at he <;> rename_i hp
  case h_9 =>
    cases he
    apply h.goto
    case ht => rfl
    case hc => simp [hp, Phase.isCounted]
    case hw => exact fun _ _ hr => h.paused hr
    all_goals intro hn; contradiction
  -- The second look at the flag. No checkpointer has drained the writers if it is down.
  case h_10 =>
    split at he <;> rename_i hw <;> cases he
    · exact h.keep hp rfl rfl rfl rfl
    · apply h.goto
      case ht => rfl
      case hc => simp [hp, Phase.isCounted]
      case hw => exact fun _ _ hr => h.paused hr
      case hl => exact fun _ t' hd => hw (h.paused (t := t') (by rw [hd]; rfl))
      all_goals intro hn; contradiction
  case h_11 | h_12 =>
    have hs := counted_update s.threads t .idle
    have hc := h.count
    cases he
    apply h.goto
    case hc => grind [Phase.isCounted]
    case hw => exact fun _ _ hr => h.paused hr
    all_goals grind [Phase.reliesOnPause, Phase.holdsLease]
  case h_13 =>
    cases he
    have hn : s.notifyAll.threads t = .notifying := by simp [State.notifyAll, hp]
    exact h.notifyAll.keep hn rfl rfl rfl rfl
  case h_14 =>
    cases he
    apply h.goto
    case ht => rfl
    case hc => simp [hp, State.setPaused, Phase.isCounted]
    case hw => exact fun _ _ _ => rfl
    case hr => exact fun _ => rfl
    all_goals intro hn; contradiction
  -- No thread is counted, so none holds a lease.
  case h_18 =>
    split at he <;> rename_i hz <;> cases he
    · have hn := isCounted_of_counted_eq_zero (h.count ▸ hz)
      apply h.goto
      case ht => rfl
      case hc => simp [hp, Phase.isCounted]
      case hw => exact fun _ _ hr => h.paused hr
      case hr => exact fun _ => h.paused (t := t) (by rw [hp]; rfl)
      case hd =>
        intro _ t'
        by_contra hl
        have := Phase.isCounted_of_holdsLease (eq_true_of_ne_false hl)
        rw [hn t'] at this
        contradiction
      case hl => intro hn; contradiction
    · exact h.keep hp rfl rfl rfl rfl
  case h_21 | h_25 =>
    simp only [hp] at hu
    cases he
    exact h.lift hp hu (by simp [Phase.isCounted, Phase.reliesOnPause, Phase.holdsLease])
  case h_8 | h_17 | h_19 | h_20 =>
    split at he <;> cases he
    all_goals exact h.keep hp rfl rfl rfl rfl
  case h_15 | h_16 | h_22 | h_23 | h_24 | h_26 | h_27 | h_28 =>
    cases he
    exact h.keep hp rfl rfl rfl rfl
  all_goals contradiction

theorem step (h : Inv s) (hu : Undisturbed s e) (he : s.step e = some s') : Inv s' := by
  cases e with
  | tick => exact h.tick hu he
  | acquireWrite t | pauseWritesAndDrain t =>
    simp only [State.step] at he
    split at he <;> rename_i hr <;> cases he
    cases hp : s.threads t <;> simp only [hp, Phase.isResting] at hr <;> try contradiction
    all_goals exact h.keep hp rfl rfl rfl rfl
  | releaseWrite t | timeout t =>
    simp only [State.step] at he
    split at he <;> rename_i hp <;> cases he
    exact h.keep hp rfl rfl rfl rfl
  | release t call =>
    simp only [State.step] at he
    split at he <;> cases he
    all_goals exact h.keep ‹_› rfl rfl rfl rfl

end Inv

theorem holdsLease_goto {s s' : State n} (ht : s'.threads = s.threads)
    (hp : p.holdsLease = false ∨ (s.threads t).holdsLease)
    (hl : ((s'.goto t p).threads t').holdsLease) : (s.threads t').holdsLease := by
  by_cases he : t' = t
  · subst he
    simp only [State.goto, update_self] at hl
    simpa [hl] using hp
  · simpa [State.goto, ht, he] using hl

theorem holdsLease_tick {s s' : State n} (he : s.tick t expired = some s') (hw : s.gate.writingPaused)
    (hl : (s'.threads t').holdsLease) : (s.threads t').holdsLease := by
  simp only [State.tick] at he
  split at he <;> rename_i hp
  -- A lease is only granted by the second look at the flag.
  case h_10 =>
    rw [if_pos hw] at he
    cases he
    exact holdsLease_goto rfl (.inl rfl) hl
  case h_12 =>
    cases he
    exact holdsLease_goto rfl (.inr (by rw [hp]; rfl)) hl
  case h_13 =>
    cases he
    have hl := holdsLease_goto (p := .idle) rfl (.inl rfl) hl
    simp only [State.notifyAll] at hl
    split at hl
    · contradiction
    · exact hl
  case h_8 | h_17 | h_18 | h_19 | h_20 =>
    split at he <;> cases he
    all_goals exact holdsLease_goto rfl (.inl rfl) hl
  all_goals cases he
  all_goals exact holdsLease_goto rfl (.inl rfl) hl

theorem holdsLease_step {s s' : State n} (he : s.step e = some s')
    (hw : s.gate.writingPaused) (hl : (s'.threads t).holdsLease) : (s.threads t).holdsLease := by
  cases e with
  | tick => exact holdsLease_tick he hw hl
  | releaseWrite t' =>
    simp only [State.step] at he
    split at he <;> rename_i hp <;> cases he
    exact holdsLease_goto rfl (.inr (by rw [hp]; rfl)) hl
  | _ =>
    simp only [State.step] at he
    split at he <;> cases he
    all_goals exact holdsLease_goto rfl (.inl rfl) hl

-- A checkpointer that has the lock of the condition variable.
def Phase.holdsMutex : Phase → Bool
  | loading | expiring _ | reopening _ | deactivating _ | reporting => true
  | _ => false

-- The counter and the lock say what the threads do.
structure Balanced (s : State n) : Prop where
  count : s.gate.activeWrites = counted s.threads
  mutex : ∀ t, s.mutex = some t ↔ (s.threads t).holdsMutex

namespace Balanced

variable {s s' : State n} {t : Fin n} {p : Phase}

theorem goto (h : Balanced s) (ht : s'.threads = s.threads)
    (hc : s'.gate.activeWrites + (s.threads t).isCounted.toNat = s.gate.activeWrites + p.isCounted.toNat)
    (hm : ∀ t', s'.mutex = some t' ↔ if t' = t then p.holdsMutex else (s.threads t').holdsMutex) :
    Balanced (s'.goto t p) := by
  have hs := h.count
  have hu := counted_update s.threads t p
  refine ⟨by simp only [State.goto, ht]; omega, fun t' => (hm t').trans ?_⟩
  by_cases he : t' = t <;> simp [State.goto, ht, he]

theorem notifyAll (h : Balanced s) : Balanced s.notifyAll := by
  have hw (t : Fin n) : (s.notifyAll.threads t).isCounted = (s.threads t).isCounted ∧
      (s.notifyAll.threads t).holdsMutex = (s.threads t).holdsMutex := by
    simp only [State.notifyAll]
    split
    case isTrue hp => simp [hp, Phase.isCounted, Phase.holdsMutex]
    case isFalse => simp
  refine ⟨h.count.trans (sum_congr rfl fun t _ => ?_), fun t => ?_⟩
  · rw [(hw t).1]
  · rw [(hw t).2]
    exact h.mutex t

theorem tick (h : Balanced s) (he : s.tick t expired = some s') : Balanced s' := by
  have hu := counted_update s.threads t .idle
  have hs := h.count
  have hm := h.mutex
  have ht := h.mutex t
  simp only [State.tick] at he
  split at he <;> rename_i hp
  case h_13 =>
    cases he
    have hn : s.notifyAll.threads t = .notifying := by simp [State.notifyAll, hp]
    refine h.notifyAll.goto rfl (by rw [hn]; rfl) fun t' => ?_
    rw [h.notifyAll.mutex]
    grind [Phase.holdsMutex]
  all_goals (repeat' split at he) <;> cases he
  all_goals refine h.goto rfl ?_ ?_ <;> grind [Phase.isCounted, Phase.holdsMutex, State.setPaused]

theorem step (h : Balanced s) (he : s.step e = some s') : Balanced s' := by
  have hm := h.mutex
  cases e with
  | tick => exact h.tick he
  | acquireWrite t | pauseWritesAndDrain t =>
    simp only [State.step] at he
    split at he <;> rename_i hr <;> cases he
    cases hp : s.threads t <;> simp only [hp, Phase.isResting] at hr <;> try contradiction
    all_goals refine h.goto rfl ?_ ?_ <;> grind [Phase.isCounted, Phase.holdsMutex]
  | releaseWrite t | release t | timeout t =>
    simp only [State.step] at he
    split at he <;> cases he
    all_goals refine h.goto rfl ?_ ?_ <;> grind [Phase.isCounted, Phase.holdsMutex]

end Balanced

-- From a successful `pause_writes_and_drain` to its release, no writer holds a lease and no step
-- grants one.
theorem drained_excludes_writers {es : List (Event n)} {s : State n} {t : Fin n}
    (r : Run State.step Undisturbed .new es s) (hd : s.threads t = .drained) :
    (∀ t', (s.threads t').holdsLease = false) ∧
    ∀ e s', s.step e = some s' → ∀ t', (s'.threads t').holdsLease = false := by
  have h := r.invariant Inv.step Inv.new
  have hn := h.exclusive hd
  refine ⟨hn, fun e s' he t' => ?_⟩
  have hw : s.gate.writingPaused := h.paused (t := t) (by rw [hd]; rfl)
  by_contra hl
  have := holdsLease_step he hw (eq_true_of_ne_false hl)
  rw [hn t'] at this
  contradiction

-- `Undisturbed`, to be evaluated.
def undisturbed (s : State n) : Event n → Bool
  | .tick t _ =>
    match s.threads t with
    | .reopening _ | .resuming _ => ∀ t', (s.threads t').reliesOnPause = false
    | _ => true
  | _ => true

theorem undisturbed_sound (s : State n) (e : Event n) (h : undisturbed s e) : Undisturbed s e := by
  cases e with
  | tick t expired =>
    simp only [undisturbed] at h
    simp only [Undisturbed]
    split <;> rename_i hp <;> simp only [hp] at h
    case h_3 => trivial
    all_goals exact of_decide_eq_true h
  | _ => trivial

def ticks (t : Fin n) (k : ℕ) : List (Event n) :=
  .replicate k (.tick t false)

-- A writer that is counted when the writers are paused drops out, and the checkpointer drains.
def pauseWhileEntering : List (Event 2) :=
  .acquireWrite 0 :: ticks 0 2 ++ .pauseWritesAndDrain 1 :: ticks 1 3 ++ ticks 0 2 ++ ticks 1 2

theorem drained_excludes_writers_entering :
    ∃ s : State 2, Run State.step Undisturbed .new pauseWhileEntering s ∧ s.threads 1 = .drained ∧
      (∀ t', (s.threads t').holdsLease = false) ∧
      ∀ e s', s.step e = some s' → ∀ t', (s'.threads t').holdsLease = false := by
  obtain ⟨s, r, hp⟩ := Run.exists_of_checked State.step .new pauseWhileEntering
    (fun s => s.threads 1 = .drained) undisturbed_sound (by decide +kernel)
  have hd := of_decide_eq_true hp
  exact ⟨s, r, hd, drained_excludes_writers r hd⟩

-- Two checkpointers have drained the writers. The first one is done and lets a writer in.
def twoCheckpoints : List (Event 3) :=
  .pauseWritesAndDrain 0 :: ticks 0 5 ++ .pauseWritesAndDrain 1 :: ticks 1 5 ++
    .release 0 .completeCheckpoint :: ticks 0 3 ++ .acquireWrite 2 :: ticks 2 3

-- A checkpointer runs out of time while a writer is active. The writer leaves, a second
-- checkpointer drains, and then the first one lifts the pause.
def lateTimeout : List (Event 3) :=
  .acquireWrite 2 :: ticks 2 3 ++ .pauseWritesAndDrain 0 :: ticks 0 5 ++ ticks 0 1 ++
    [Event.timeout 0] ++ .releaseWrite 2 :: ticks 2 1 ++ .pauseWritesAndDrain 1 :: ticks 1 5 ++
    ticks 0 2 ++ ticks 2 1 ++ .acquireWrite 2 :: ticks 2 3

theorem drained_excludes_writers_violated :
    (∃ s : State 3, FreeRun State.step .new twoCheckpoints s ∧ s.threads 1 = .drained ∧ s.threads 2 = .holding) ∧
    (∃ s : State 3, FreeRun State.step .new lateTimeout s ∧ s.threads 1 = .drained ∧ s.threads 2 = .holding) := by
  constructor
  · obtain ⟨s, r, hp⟩ := Run.exists_of_any State.step .new twoCheckpoints
      (fun s => s.threads 1 = .drained ∧ s.threads 2 = .holding) (by decide +kernel)
    exact ⟨s, r, of_decide_eq_true hp⟩
  · obtain ⟨s, r, hp⟩ := Run.exists_of_any State.step .new lateTimeout
      (fun s => s.threads 1 = .drained ∧ s.threads 2 = .holding) (by decide +kernel)
    exact ⟨s, r, of_decide_eq_true hp⟩

-- However writers and checkpointers disturb each other, no writer is counted twice or left behind, and the
-- lock is with whoever acts under it.
theorem gate_balanced {es : List (Event n)} {s : State n} (r : FreeRun State.step .new es s) :
    s.gate.activeWrites = (univ.filter fun t => (s.threads t).isCounted).card ∧
      ∀ t, s.mutex = some t ↔ (s.threads t).holdsMutex := by
  have h : Balanced s := r.invariant (fun h _ => h.step)
    ⟨by simp [State.new, CheckpointGate.new, counted, Phase.isCounted], by simp [State.new, Phase.holdsMutex]⟩
  refine ⟨h.count.trans ?_, h.mutex⟩
  rw [card_filter, counted]
  exact sum_congr rfl fun t _ => by cases (s.threads t).isCounted <;> rfl

theorem gate_balanced_late_timeout :
    ∃ s : State 3, FreeRun State.step .new lateTimeout s ∧
      s.gate.activeWrites = (univ.filter fun t => (s.threads t).isCounted).card ∧
      ∀ t, s.mutex = some t ↔ (s.threads t).holdsMutex := by
  obtain ⟨s, r, -⟩ := Run.exists_of_any State.step .new lateTimeout (fun _ => true) (by decide +kernel)
  exact ⟨s, r, gate_balanced r⟩

end Checkpoint
end Linkrs
