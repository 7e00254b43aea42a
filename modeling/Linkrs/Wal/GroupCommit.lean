import Linkrs.Lib.Transition
import Linkrs.Wal.Types

namespace Linkrs.GroupCommit

open Transition (Run FreeRun first second)

-- The operations of the source that end in `append_and_wait`: a batch that is written and then
-- waited for, and `sync_via_file`, which waits for what the log holds already.
inductive Operation where
  | appendBatch
  | syncViaFile
  deriving DecidableEq, Repr

-- How far a thread has got. From `checking` on a thread that has not become the leader holds
-- `commit_mutex`, until it parks or leaves.
inductive Phase where
  | idle
  -- record_appended
  | recording
  | exchanging (current : Lsn)
  -- append_and_wait_timeout
  | probing
  | locking
  | checking
  | electing
  | claiming
  | raising
  | releasing
  -- sync_file: `start` is where the log ended when the fsync was issued
  | opening
  | syncing (start : Lsn)
  | loading (start : Lsn) (result : WalResult Unit)
  | storing (start : Lsn) (result : WalResult Unit) (newDurable : Lsn)
  | clearing (result : WalResult Unit)
  | notifying (result : WalResult Unit)
  -- the follower
  | expiring
  | waiting
  | woken (timedOut : Bool)
  | abandoning
  | leaving
  | returned (result : WalResult Unit)

def Phase.isStoring : Phase → Bool
  | storing .. => true
  | _ => false

structure Thread where
  operation : Operation
  lsn : Lsn
  phase : Phase

-- The operation has returned successfully.
def Thread.isAcknowledged (x : Thread) : Bool :=
  match x.phase with
  | .returned (.ok _) => true
  | _ => false

-- The writer and its coordinator. `fsyncs` is an observer: where the log ended when each of the
-- fsyncs that have succeeded was issued.
structure State (n : ℕ) where
  currentLsn : Lsn
  lastSyncedLsn : Lsn
  poisonReason : Option String
  appendedSeq : Lsn
  durableSeq : Lsn
  syncInProgress : Bool
  commitMutex : Option (Fin n)
  file : Option (Fin n)
  threads : Fin n → Thread
  fsyncs : List Lsn

-- What a step of a thread depends on besides the state: whether `compare_exchange_weak` fails
-- spuriously, whether the deadline has passed, and how `sync_data` ends.
structure Env where
  casFails : Bool
  expired : Bool
  syncData : WalResult Unit

inductive Event (n : ℕ) where
  | append (t : Fin n) (len : ℕ)
  | sync (t : Fin n)
  | poison (reason : String)
  | timeout (t : Fin n)
  | tick (t : Fin n) (env : Env)

variable {n : ℕ}

namespace State

-- `GroupCommitCoordinator::new` for a log that ends at `start`.
def new (start : Lsn) : State n where
  currentLsn := start
  lastSyncedLsn := start
  poisonReason := none
  appendedSeq := start
  durableSeq := start
  syncInProgress := false
  commitMutex := none
  file := none
  threads := fun _ => ⟨.appendBatch, start, .idle⟩
  fsyncs := []

def setThread (s : State n) (t : Fin n) (x : Thread) : State n :=
  { s with threads := fun t' => if t' = t then x else s.threads t' }

def goto (s : State n) (t : Fin n) (phase : Phase) : State n :=
  s.setThread t { s.threads t with phase }

-- `commit_condvar.notify_all()`
def notifyAll (s : State n) : State n :=
  { s with threads := fun t =>
      match (s.threads t).phase with
      | .waiting => { s.threads t with phase := .woken false }
      | _ => s.threads t }

-- What is left of the operation once `append_and_wait` has answered: `sync_via_file` records a
-- success in the writer.
def answer (s : State n) (t : Fin n) (result : WalResult Unit) : State n :=
  match (s.threads t).operation, result with
  | .syncViaFile, .ok _ =>
    { s with lastSyncedLsn := (s.threads t).lsn }.goto t (.returned result)
  | _, _ => s.goto t (.returned result)

def tick (s : State n) (t : Fin n) (env : Env) : Option (State n) :=
  let lsn := (s.threads t).lsn
  match (s.threads t).phase with
  | .idle | .waiting | .returned _ => none
  | .recording => s.goto t (.exchanging s.appendedSeq)
  | .exchanging current =>
    if lsn ≤ current then
      s.goto t .probing
    else if s.appendedSeq = current ∧ ¬env.casFails then
      { s with appendedSeq := lsn }.goto t .probing
    else
      s.goto t (.exchanging s.appendedSeq)
  | .probing =>
    if lsn ≤ s.durableSeq then s.answer t (.ok ()) else s.goto t .locking
  | .locking =>
    match s.commitMutex with
    | none => { s with commitMutex := t }.goto t .checking
    | some _ => none
  | .checking =>
    if lsn ≤ s.durableSeq then
      { s with commitMutex := none }.answer t (.ok ())
    else
      s.goto t .electing
  | .electing =>
    if s.syncInProgress then s.goto t .expiring else s.goto t .claiming
  | .claiming => { s with syncInProgress := true }.goto t .raising
  | .raising => { s with appendedSeq := max s.appendedSeq lsn }.goto t .releasing
  | .releasing => { s with commitMutex := none }.goto t .opening
  | .opening =>
    match s.file with
    | none => { s with file := t }.goto t (.syncing s.currentLsn)
    | some _ => none
  | .syncing start =>
    let fsyncs :=
      match env.syncData with
      | .ok _ => start :: s.fsyncs
      | .error _ => s.fsyncs
    { s with file := none, fsyncs }.goto t (.loading start env.syncData)
  | .loading start result => s.goto t (.storing start result s.appendedSeq)
  | .storing _ result newDurable => { s with durableSeq := newDurable }.goto t (.clearing result)
  | .clearing result => { s with syncInProgress := false }.goto t (.notifying result)
  | .notifying result => s.notifyAll.answer t result
  | .expiring =>
    if env.expired then
      s.goto t .abandoning
    else
      { s with commitMutex := none }.goto t .waiting
  | .woken timedOut =>
    match s.commitMutex, timedOut with
    | none, true => { s with commitMutex := t }.goto t .abandoning
    | none, false => { s with commitMutex := t }.goto t .checking
    | some _, _ => none
  | .abandoning => { s with syncInProgress := false }.goto t .leaving
  | .leaving =>
    { s.notifyAll with commitMutex := none }.answer t (.error .groupCommitTimeout)

-- The writer is borrowed exclusively while a batch is written, so batches are written one after
-- the other and a batch's LSN is stored once its bytes are in the file.
def step (s : State n) : Event n → Option (State n)
  | .append t len =>
    match (s.threads t).phase with
    | .idle | .returned _ =>
      let lsn := s.currentLsn + len
      some ({ s with currentLsn := lsn }.setThread t ⟨.appendBatch, lsn, .recording⟩)
    | _ => none
  | .sync t =>
    match (s.threads t).phase, s.poisonReason with
    | .idle, none | .returned _, none =>
      some (s.setThread t ⟨.syncViaFile, s.currentLsn, .recording⟩)
    | .idle, some reason | .returned _, some reason =>
      some (s.setThread t ⟨.syncViaFile, s.currentLsn, .returned (.error (.poisoned reason))⟩)
    | _, _ => none
  | .poison reason => some { s with poisonReason := s.poisonReason.getD reason }
  | .timeout t =>
    match (s.threads t).phase with
    | .waiting => some (s.goto t (.woken true))
    | _ => none
  | .tick t env => s.tick t env

end State

-- Everything up to `lsn` that lies behind the end `origin` of the log the writer was opened on was
-- in the file when an fsync was issued that has succeeded since.
def Covered (origin : Lsn) (s : State n) (lsn : Lsn) : Prop :=
  origin < lsn → ∃ start ∈ s.fsyncs, lsn ≤ start

-- No fsync fails. When a leader reads the appended sequence, what has been recorded there was in
-- the file before its own fsync was issued, and no other leader is about to store what it has read.
def Steady (s : State n) : Event n → Prop
  | .tick t env =>
    match (s.threads t).phase with
    | .syncing _ => env.syncData = .ok ()
    | .loading start _ => s.appendedSeq ≤ start ∧ ∀ t', (s.threads t').phase.isStoring = false
    | _ => True
  | _ => True

-- What a thread has established. None of this is lost when the log or the set of fsyncs grows.
def Thread.Sound (origin : Lsn) (s : State n) (x : Thread) : Prop :=
  x.lsn ≤ s.currentLsn ∧
  match x.phase with
  | .syncing start => x.lsn ≤ start
  | .loading start _ => x.lsn ≤ start ∧ start ∈ s.fsyncs
  | .storing start _ v => x.lsn ≤ start ∧ start ∈ s.fsyncs ∧ v ≤ s.appendedSeq ∧ v ≤ start
  | .clearing _ => Covered origin s x.lsn
  | .notifying _ => Covered origin s x.lsn
  | .returned (.ok _) => Covered origin s x.lsn
  | _ => True

structure Inv (origin : Lsn) (s : State n) : Prop where
  threads : ∀ t, (s.threads t).Sound origin s
  appended : s.appendedSeq ≤ s.currentLsn
  durable : s.durableSeq ≤ s.appendedSeq
  covered : Covered origin s s.durableSeq
  storing : ∀ {t start result v}, (s.threads t).phase = .storing start result v → s.durableSeq ≤ v
  single : ∀ {t t'}, (s.threads t).phase.isStoring → (s.threads t').phase.isStoring → t = t'

variable {origin : Lsn} {s s' : State n} {t : Fin n} {env : Env}

theorem Covered.mono {lsn : Lsn} (h : Covered origin s lsn) (hf : s.fsyncs ⊆ s'.fsyncs) :
    Covered origin s' lsn := by
  intro ho
  have ⟨start, hm, hl⟩ := h ho
  exact ⟨start, hf hm, hl⟩

theorem Covered.of_mem {lsn start : Lsn} (hm : start ∈ s.fsyncs) (hl : lsn ≤ start) : Covered origin s lsn :=
  fun _ => ⟨start, hm, hl⟩

theorem Covered.of_le {lsn lsn' : Lsn} (h : Covered origin s lsn) (hl : lsn' ≤ lsn) : Covered origin s lsn' := by
  intro ho
  have ⟨start, hm, hs⟩ := h (Nat.lt_of_lt_of_le ho hl)
  exact ⟨start, hm, Nat.le_trans hl hs⟩

theorem Thread.Sound.mono {x : Thread} (h : x.Sound origin s) (hc : s.currentLsn ≤ s'.currentLsn)
    (ha : s.appendedSeq ≤ s'.appendedSeq) (hf : s.fsyncs ⊆ s'.fsyncs) : x.Sound origin s' := by
  have ⟨hl, hx⟩ := h
  refine ⟨Nat.le_trans hl hc, ?_⟩
  split <;> (rename_i hp; simp only [hp] at hx)
  case h_1 => exact hx
  case h_2 => exact ⟨hx.1, hf hx.2⟩
  case h_3 => exact ⟨hx.1, hf hx.2.1, Nat.le_trans hx.2.2.1 ha, hx.2.2.2⟩
  case h_7 => trivial
  all_goals exact hx.mono hf

-- The shared part of a step that leaves the durable sequence alone: the log, the appended sequence
-- and the set of fsyncs can grow, and threads that wait on the condition variable can be woken.
structure Grows (s s' : State n) : Prop where
  currentLsn : s.currentLsn ≤ s'.currentLsn
  appendedSeq : s.appendedSeq ≤ s'.appendedSeq
  bound : s'.appendedSeq ≤ s'.currentLsn
  durableSeq : s'.durableSeq = s.durableSeq
  fsyncs : s.fsyncs ⊆ s'.fsyncs
  threads : ∀ t, s'.threads t = s.threads t ∨
    s'.threads t = { s.threads t with phase := .woken false }

namespace Grows

theorem lsn (h : Grows s s') (t : Fin n) : (s'.threads t).lsn = (s.threads t).lsn := by
  rcases h.threads t with hw | hw <;> rw [hw]

theorem storing (h : Grows s s') (ht : (s'.threads t).phase.isStoring) : s'.threads t = s.threads t := by
  rcases h.threads t with hw | hw
  · exact hw
  · rw [hw] at ht
    contradiction

-- Locks, flags and the writer's own record of its progress play no part.
theorem locks (h : Grows s s') :
    Grows s { s' with lastSyncedLsn := p, syncInProgress := b, commitMutex := m, file := f } where
  currentLsn := h.currentLsn
  appendedSeq := h.appendedSeq
  bound := h.bound
  durableSeq := h.durableSeq
  fsyncs := h.fsyncs
  threads := h.threads

theorem durable_answer (h : Grows s s') : s.durableSeq ≤ (s'.answer t result).durableSeq := by
  simp only [State.answer]
  split <;> exact h.durableSeq.ge

theorem notifyAll (h : Inv origin s) : Grows s s.notifyAll where
  currentLsn := le_refl _
  appendedSeq := le_refl _
  bound := h.appended
  durableSeq := rfl
  fsyncs := List.Subset.refl _
  threads t := by
    simp only [State.notifyAll]
    split
    · exact .inr rfl
    · exact .inl rfl

end Grows

namespace Inv

theorem grows (h : Inv origin s) : Grows s s where
  currentLsn := le_refl _
  appendedSeq := le_refl _
  bound := h.appended
  durableSeq := rfl
  fsyncs := List.Subset.refl _
  threads _ := .inl rfl

theorem raise (h : Inv origin s) {lsn : Lsn} (hl : s.appendedSeq ≤ lsn) (hc : lsn ≤ s.currentLsn) :
    Grows s { s with appendedSeq := lsn } :=
  { h.grows with appendedSeq := hl, bound := hc }

theorem setThread (h : Inv origin s) (g : Grows s s') (hn : x.phase.isStoring = false)
    (hx : x.Sound origin s') : Inv origin (s'.setThread t x) := by
  -- A thread about to store is another one, and it was about to store before.
  have old : ∀ t', ((s'.setThread t x).threads t').phase.isStoring →
      (s'.setThread t x).threads t' = s.threads t' := by
    intro t' ht
    by_cases he : t' = t
    · simp [State.setThread, he, hn] at ht
    · simp only [State.setThread, if_neg he] at ht ⊢
      exact g.storing ht
  constructor
  case threads =>
    intro t'
    by_cases he : t' = t
    · simp only [State.setThread, if_pos he]
      exact hx
    · have ho := (h.threads t').mono g.currentLsn g.appendedSeq g.fsyncs
      simp only [State.setThread, if_neg he]
      rcases g.threads t' with hw | hw
      · rw [hw]
        exact ho
      · rw [hw]
        exact ⟨ho.1, trivial⟩
  case appended => exact g.bound
  case durable => exact g.durableSeq.trans_le (h.durable.trans g.appendedSeq)
  case covered => exact (h.covered.mono g.fsyncs).of_le g.durableSeq.le
  case storing =>
    intro t' _ _ _ hp
    have hw := old t' (by rw [hp]; rfl)
    exact g.durableSeq.trans_le (h.storing (hw ▸ hp))
  case single =>
    intro t₁ t₂ h₁ h₂
    exact h.single (old t₁ h₁ ▸ h₁) (old t₂ h₂ ▸ h₂)

theorem goto (h : Inv origin s) (g : Grows s s') (hn : phase.isStoring = false)
    (hx : Thread.Sound origin s' ⟨(s.threads t).operation, (s.threads t).lsn, phase⟩) :
    Inv origin (s'.goto t phase) :=
  h.setThread g hn (by simpa [Thread.Sound, g.lsn t] using hx)

theorem answer (h : Inv origin s) (g : Grows s s')
    (hx : Thread.Sound origin s' ⟨(s.threads t).operation, (s.threads t).lsn, .returned result⟩) :
    Inv origin (s'.answer t result) := by
  simp only [State.answer]
  split
  · exact h.goto g.locks rfl hx
  · exact h.goto g rfl hx

-- A leader reads the appended sequence. Nobody else is between this load and the store.
theorem load (h : Inv origin s) (hp : (s.threads t).phase = .loading start result) (ha : s.appendedSeq ≤ start)
    (hn : ∀ t', (s.threads t').phase.isStoring = false) :
    Inv origin (s.goto t (.storing start result s.appendedSeq)) := by
  have ⟨hl, hx⟩ := h.threads t
  simp only [hp] at hx
  have only : ∀ t', ((s.goto t (.storing start result s.appendedSeq)).threads t').phase.isStoring →
      t' = t := by
    intro t' ht
    by_contra he
    simp [State.goto, State.setThread, he, hn t'] at ht
  constructor
  case threads =>
    intro t'
    by_cases he : t' = t
    · simp only [State.goto, State.setThread, if_pos he]
      exact ⟨hl, hx.1, hx.2, le_refl _, ha⟩
    · simp only [State.goto, State.setThread, if_neg he]
      exact h.threads t'
  case appended => exact h.appended
  case durable => exact h.durable
  case covered => exact h.covered
  case storing =>
    intro t' _ _ _ hp'
    have he := only t' (by rw [hp']; rfl)
    simp only [State.goto, State.setThread, if_pos he, Phase.storing.injEq] at hp'
    exact hp'.2.2 ▸ h.durable
  case single =>
    intro t₁ t₂ h₁ h₂
    rw [only t₁ h₁, only t₂ h₂]

theorem store (h : Inv origin s) (hp : (s.threads t).phase = .storing start result v) :
    Inv origin ({ s with durableSeq := v }.goto t (.clearing result)) := by
  have ⟨hl, hx⟩ := h.threads t
  simp only [hp] at hx
  have none : ∀ t', (({ s with durableSeq := v }.goto t
      (.clearing result)).threads t').phase.isStoring = false := by
    intro t'
    by_cases he : t' = t
    · simp [State.goto, State.setThread, he, Phase.isStoring]
    · simp only [State.goto, State.setThread, if_neg he]
      by_contra hs
      have ht : (s.threads t).phase.isStoring := by rw [hp]; rfl
      exact he (h.single (eq_true_of_ne_false hs) ht)
  constructor
  case threads =>
    intro t'
    by_cases he : t' = t
    · simp only [State.goto, State.setThread, if_pos he]
      exact ⟨hl, .of_mem hx.2.1 hx.1⟩
    · simp only [State.goto, State.setThread, if_neg he]
      exact h.threads t'
  case appended => exact h.appended
  case durable => exact hx.2.2.1
  case covered => exact .of_mem hx.2.1 hx.2.2.2
  case storing =>
    intro t' _ _ _ hp'
    have := none t'
    rw [hp'] at this
    contradiction
  case single =>
    intro t₁ _ h₁ _
    rw [none t₁] at h₁
    contradiction

end Inv

theorem step_tick (h : Inv origin s) (hs : Steady s (.tick t env)) (he : s.tick t env = some s') :
    Inv origin s' ∧ s.durableSeq ≤ s'.durableSeq := by
  have hl := (h.threads t).1
  have hx := (h.threads t).2
  simp only [Steady] at hs
  simp only [State.tick] at he
  split at he <;> rename_i hp <;> simp only [hp] at hx hs
  case h_4 =>
    cases he
    exact ⟨h.goto h.grows rfl ⟨hl, trivial⟩, le_refl _⟩
  case h_5 current =>
    split at he
    · cases he
      exact ⟨h.goto h.grows rfl ⟨hl, trivial⟩, le_refl _⟩
    · split at he
      · rename_i hlt hc
        cases he
        have ha : s.appendedSeq ≤ (s.threads t).lsn := by lia
        exact ⟨h.goto (h.raise ha hl) rfl ⟨hl, trivial⟩, le_refl _⟩
      · cases he
        exact ⟨h.goto h.grows rfl ⟨hl, trivial⟩, le_refl _⟩
  -- The two places where a thread finds its bytes covered by somebody else's fsync.
  case h_6 | h_8 =>
    split at he
    · rename_i hd
      cases he
      exact ⟨h.answer h.grows.locks ⟨hl, h.covered.of_le hd⟩, h.grows.locks.durable_answer⟩
    · cases he
      exact ⟨h.goto h.grows rfl ⟨hl, trivial⟩, le_refl _⟩
  case h_7 | h_9 | h_19 | h_20 =>
    split at he <;> cases he
    all_goals exact ⟨h.goto h.grows.locks rfl ⟨hl, trivial⟩, le_refl _⟩
  case h_11 =>
    cases he
    have hr := h.raise (le_max_left _ (s.threads t).lsn) (max_le h.appended hl)
    exact ⟨h.goto hr rfl ⟨hl, trivial⟩, le_refl _⟩
  case h_10 | h_12 | h_21 =>
    cases he
    exact ⟨h.goto h.grows.locks rfl ⟨hl, trivial⟩, le_refl _⟩
  case h_13 =>
    split at he
    · cases he
      exact ⟨h.goto h.grows.locks rfl ⟨hl, hl⟩, le_refl _⟩
    · contradiction
  case h_14 start =>
    rw [hs] at he
    cases he
    have g : Grows s { s with fsyncs := start :: s.fsyncs } :=
      { h.grows with fsyncs := List.subset_cons_self _ _ }
    exact ⟨h.goto g.locks rfl ⟨hl, hx, List.mem_cons_self⟩, le_refl _⟩
  case h_15 =>
    cases he
    exact ⟨h.load hp hs.1 hs.2, le_refl _⟩
  case h_16 =>
    cases he
    exact ⟨h.store hp, h.storing hp⟩
  case h_17 =>
    cases he
    exact ⟨h.goto h.grows.locks rfl ⟨hl, hx⟩, le_refl _⟩
  case h_18 result =>
    cases he
    have g := Grows.notifyAll h
    refine ⟨h.answer g ⟨hl, ?_⟩, g.durable_answer⟩
    cases result with
    | ok => exact hx
    | error => trivial
  case h_22 =>
    cases he
    have g := Grows.notifyAll h
    exact ⟨h.answer g.locks ⟨hl, trivial⟩, g.locks.durable_answer⟩
  all_goals contradiction

theorem inv_step (h : Inv origin s) (hs : Steady s e) (he : s.step e = some s') :
    Inv origin s' ∧ s.durableSeq ≤ s'.durableSeq := by
  cases e with
  | tick => exact step_tick h hs he
  | append t len =>
    have g : Grows s { s with currentLsn := s.currentLsn + len } :=
      { h.grows with currentLsn := Nat.le_add_right .., bound := Nat.le_add_right_of_le h.appended }
    simp only [State.step] at he
    split at he <;> cases he
    all_goals exact ⟨h.setThread g rfl ⟨le_refl _, trivial⟩, le_refl _⟩
  | sync t =>
    simp only [State.step] at he
    split at he <;> cases he
    all_goals exact ⟨h.setThread h.grows rfl ⟨le_refl _, trivial⟩, le_refl _⟩
  | poison =>
    cases he
    exact ⟨⟨h.threads, h.appended, h.durable, h.covered, h.storing, h.single⟩, le_refl _⟩
  | timeout t =>
    simp only [State.step] at he
    split at he <;> cases he
    exact ⟨h.goto h.grows rfl ⟨(h.threads t).1, trivial⟩, le_refl _⟩

theorem Inv.new : Inv origin (State.new origin : State n) where
  threads _ := ⟨le_refl _, trivial⟩
  appended := le_refl _
  durable := le_refl _
  covered := fun h => absurd h (lt_irrefl _)
  storing := by simp [State.new]
  single := by simp [State.new, Phase.isStoring]

-- Along every steady run a call that has returned successfully is covered by an fsync that was
-- issued after its bytes were written, and the durable sequence never decreases.
theorem acknowledged_is_durable {es₁ es₂ : List (Event n)} {s₁ s₂ : State n}
    (r₁ : Run State.step Steady (.new origin) es₁ s₁) (r₂ : Run State.step Steady s₁ es₂ s₂) :
    (∀ t, (s₁.threads t).isAcknowledged → origin < (s₁.threads t).lsn →
      ∃ start ∈ s₁.fsyncs, (s₁.threads t).lsn ≤ start) ∧ s₁.durableSeq ≤ s₂.durableSeq := by
  have h := r₁.invariant (P := Inv origin) (fun h hs he => (inv_step h hs he).1) .new
  constructor
  · intro t ha
    have hx := (h.threads t).2
    simp only [Thread.isAcknowledged] at ha
    split at ha
    · rename_i hp
      simp only [hp] at hx
      exact hx
    · contradiction
  · exact r₂.related (P := Inv origin) (R := fun s s' => s.durableSeq ≤ s'.durableSeq)
      (fun _ => le_refl _) le_trans inv_step h

-- `sync_data` succeeds, nothing times out and no exchange fails.
def fine : Env := ⟨false, false, .ok ()⟩

def ticks (t : Fin n) (k : ℕ) : List (Event n) :=
  .replicate k (.tick t fine)

-- A thread writes a batch and gets as far as its fsync.
def lead (t : Fin n) (len : ℕ) : List (Event n) :=
  .append t len :: ticks t 10

-- A thread writes a batch, records it and comes to the point where it locks `commit_mutex`.
def enqueue (t : Fin n) (len : ℕ) : List (Event n) :=
  .append t len :: ticks t 3

-- `Steady`, to be evaluated.
def steady (s : State n) : Event n → Bool
  | .tick t env =>
    match (s.threads t).phase with
    | .syncing _ => env.syncData = .ok ()
    | .loading start _ => s.appendedSeq ≤ start ∧ ∀ t', (s.threads t').phase.isStoring = false
    | _ => true
  | _ => true

theorem steady_sound (s : State n) (e : Event n) (h : steady s e) : Steady s e := by
  cases e with
  | tick t env =>
    simp only [steady] at h
    simp only [Steady]
    split <;> rename_i hp <;> simp only [hp] at h
    case h_1 => exact of_decide_eq_true h
    case h_2 => exact of_decide_eq_true h
    case h_3 => trivial
  | _ => trivial

-- The bytes of the second thread are in the file when the first one issues its fsync, and the
-- second thread returns without an fsync of its own.
def follow : List (Event 2) :=
  enqueue second 50 ++ lead first 100 ++ ticks first 3 ++ ticks second 2

-- The first thread returns as well, and the second one writes another batch and is the leader for it.
def again : List (Event 2) :=
  ticks first 2 ++ lead second 30 ++ ticks second 3

theorem acknowledged_is_durable_follower :
    ∃ s₁ s₂ : State 2, Run State.step Steady (.new 0) follow s₁ ∧ Run State.step Steady s₁ again s₂ ∧
      (s₁.threads 1).isAcknowledged ∧ (∃ start ∈ s₁.fsyncs, (s₁.threads 1).lsn ≤ start) ∧
      s₁.durableSeq ≠ s₂.durableSeq ∧ s₁.durableSeq ≤ s₂.durableSeq := by
  obtain ⟨s₁, r₁, hp⟩ := Run.exists_of_checked State.step (.new 0) follow
    (fun s => ((s.threads 1).isAcknowledged && decide (0 < (s.threads 1).lsn)) &&
      (again.foldlM (fun s e => if steady s e then s.step e else none) s).any (s.durableSeq ≠ ·.durableSeq))
    steady_sound (by decide +kernel)
  simp only [Bool.and_eq_true, decide_eq_true_eq] at hp
  obtain ⟨⟨ha, hl⟩, hagain⟩ := hp
  obtain ⟨s₂, r₂, hd⟩ := Run.exists_of_checked State.step s₁ again _ steady_sound hagain
  have h := acknowledged_is_durable r₁ r₂
  exact ⟨s₁, s₂, r₁, r₂, ha, h.1 1 ha hl, of_decide_eq_true hd, h.2⟩

def broken : Env := ⟨false, false, .error (.ioError "Input/output error")⟩

-- The leader's fsync fails, and the leader stores the appended sequence all the same.
def failedSync : List (Event 2) :=
  enqueue second 50 ++ lead first 100 ++ [Event.tick first broken] ++ ticks first 2 ++ ticks second 2

-- The bytes of the second thread are written and recorded while the fsync is under way.
def lateBytes : List (Event 2) :=
  lead first 100 ++ enqueue second 50 ++ ticks first 3 ++ ticks second 2

-- The second thread gives up waiting for a slow fsync and clears `sync_in_progress`, so the third
-- becomes a leader as well. The first leader has read the appended sequence but not stored it when
-- the second one stores a later value.
def twoLeaders : List (Event 4) :=
  lead 0 100 ++ enqueue 1 100 ++ ticks 1 4 ++ [Event.timeout 1] ++ ticks 1 3 ++
    .append 2 100 :: ticks 2 9 ++ ticks 0 2 ++ enqueue 3 100 ++ ticks 2 4

-- Success without any completed fsync, success with an fsync that was issued before the bytes were
-- written, and a durable sequence that goes back.
theorem acknowledged_is_durable_violated :
    (∃ s : State 2, FreeRun State.step (.new 0) failedSync s ∧ (s.threads 1).isAcknowledged ∧
      0 < (s.threads 1).lsn ∧ s.fsyncs = []) ∧
    (∃ s : State 2, FreeRun State.step (.new 0) lateBytes s ∧ (s.threads 1).isAcknowledged ∧
      0 < (s.threads 1).lsn ∧ ∀ start ∈ s.fsyncs, start < (s.threads 1).lsn) ∧
    (∃ s s' : State 4, FreeRun State.step (.new 0) twoLeaders s ∧
      s.step (.tick 0 fine) = some s' ∧ s'.durableSeq < s.durableSeq) := by
  refine ⟨?_, ?_, ?_⟩
  · obtain ⟨s, r, hp⟩ := Run.exists_of_any State.step (.new 0) failedSync
      (fun s => (s.threads 1).isAcknowledged && decide (0 < (s.threads 1).lsn ∧ s.fsyncs = []))
      (by decide +kernel)
    simp only [Bool.and_eq_true, decide_eq_true_eq] at hp
    exact ⟨s, r, hp⟩
  · obtain ⟨s, r, hp⟩ := Run.exists_of_any State.step (.new 0) lateBytes
      (fun s => (s.threads 1).isAcknowledged &&
        decide (0 < (s.threads 1).lsn ∧ ∀ start ∈ s.fsyncs, start < (s.threads 1).lsn))
      (by decide +kernel)
    simp only [Bool.and_eq_true, decide_eq_true_eq] at hp
    exact ⟨s, r, hp⟩
  · obtain ⟨s, r, hp⟩ := Run.exists_of_any State.step (.new 0) twoLeaders
      (fun s => (s.step (.tick 0 fine)).any fun s' => s'.durableSeq < s.durableSeq)
      (by decide +kernel)
    obtain ⟨s', he, hd⟩ := (Option.any_eq_true ..).mp hp
    exact ⟨s, s', r, he, of_decide_eq_true hd⟩

end Linkrs.GroupCommit
