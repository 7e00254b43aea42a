import Linkrs.Mvcc.SnapshotTracker

namespace Linkrs

-- A reading of the monotonic clock, and a length of time on it.
abbrev Instant := ℕ
abbrev Duration := ℕ

inductive WriteTimestampState where
  | pending
  | committed
  | aborted
  deriving DecidableEq, Inhabited, Repr

-- What `timestamp_slot` reports. `vanished` covers every timestamp absent from the slot map.
inductive TimestampSlot where
  | pending
  | committed
  | aborted
  | vanished
  deriving DecidableEq, Repr

inductive VersionManagerError where
  | invalidTimestamp (ts : Timestamp)
  | timestampExhausted
  deriving DecidableEq, Repr

abbrev WriteEntry := Instant × WriteTimestampState

abbrev WriteStates := AList fun _ : Timestamp => WriteEntry

namespace WriteStates

def entry (states : WriteStates) (ts : Timestamp) : Option WriteEntry :=
  states.lookup ts

@[simp]
theorem entry_empty (ts : Timestamp) : entry ∅ ts = none :=
  rfl

@[simp]
theorem entry_insert (states : WriteStates) (ts ts' : Timestamp) (e : WriteEntry) :
    entry (states.insert ts e) ts' = if ts' = ts then some e else states.entry ts' := by
  split
  case isTrue h => subst h; exact AList.lookup_insert _
  case isFalse h => exact AList.lookup_insert_ne h

@[simp]
theorem entry_erase (states : WriteStates) (ts ts' : Timestamp) :
    entry (states.erase ts) ts' = if ts' = ts then none else states.entry ts' := by
  split
  case isTrue h => subst h; exact AList.lookup_erase _ _
  case isFalse h => exact AList.lookup_erase_ne h

theorem mem_keys_of_entry {states : WriteStates} (h : states.entry ts = some e) : ts ∈ states.keys :=
  AList.mem_keys.mp <| AList.lookup_isSome.mp <| Option.isSome_of_eq_some h

end WriteStates

-- `read_pending` and `write_pending` are `i32` counters that only statistics and the admission of
-- readers look at.
structure VersionManager where
  writeTs : Timestamp
  readTs : Timestamp
  readPending : Int32
  writePending : Int32
  snapshotTracker : ActiveSnapshots
  writeStates : WriteStates

namespace VersionManager

def new : VersionManager where
  writeTs := 1
  readTs := 1
  readPending := 0
  writePending := 0
  snapshotTracker := .new
  writeStates := ∅

def slot (vm : VersionManager) (ts : Timestamp) : Option WriteTimestampState :=
  (vm.writeStates.entry ts).map Prod.snd

def timestampSlot (vm : VersionManager) (ts : Timestamp) : TimestampSlot :=
  match vm.slot ts with
  | some .pending => .pending
  | some .committed => .committed
  | some .aborted => .aborted
  | none => .vanished

def getSafeGcTimestamp (vm : VersionManager) : Timestamp :=
  vm.snapshotTracker.minActiveSnapshot

def reserveTimestamp (vm : VersionManager) : Except VersionManagerError (Timestamp × VersionManager) :=
  let next := vm.writeTs + 1
  if invalidTimestamp < next then
    .error .timestampExhausted
  else if isAllocatableTimestamp next then
    .ok (next, { vm with writeTs := next })
  else
    .error .timestampExhausted

-- One turn of the advance loop per unit of fuel. Each turn removes a slot, so the number of slots
-- is enough fuel.
def advanceLoop : ℕ → Timestamp → WriteStates → Timestamp × WriteStates
  | 0, frontier, states => (frontier, states)
  | fuel + 1, frontier, states =>
    match (states.entry (frontier + 1)).map Prod.snd with
    | some .committed | some .aborted =>
      advanceLoop fuel (frontier + 1) (states.erase (frontier + 1))
    | _ => (frontier, states)

def advanceReadFrontier (vm : VersionManager) : VersionManager :=
  let (frontier, states) := advanceLoop vm.writeStates.keys.length vm.readTs vm.writeStates
  { vm with readTs := frontier, writeStates := states }

-- The transition shared by every operation that ends a write: only a pending slot changes, and
-- with it go the snapshot it pinned and its share of the pending counter.
def settleSlot (vm : VersionManager) (ts : Timestamp) (state : WriteTimestampState) : VersionManager :=
  match vm.writeStates.entry ts with
  | some (acquired, .pending) =>
    { vm with
      writeStates := vm.writeStates.insert ts (acquired, state)
      snapshotTracker := vm.snapshotTracker.release ts
      writePending := vm.writePending - 1 }
  | _ => vm

def insertSlot (vm : VersionManager) (ts : Timestamp) (now : Instant)
    (state : WriteTimestampState) : VersionManager :=
  { vm with writeStates := vm.writeStates.insert ts (now, state) }

def openSlot (vm : VersionManager) (ts : Timestamp) (now : Instant) : VersionManager :=
  let vm := { vm with snapshotTracker := vm.snapshotTracker.addSnapshot ts }
  let vm := vm.insertSlot ts now .pending
  { vm with writePending := vm.writePending + 1 }

def tryNextWriteTimestamp (vm : VersionManager) (now : Instant) :
    Except VersionManagerError (Timestamp × VersionManager) := do
  let (ts, vm) ← vm.reserveTimestamp
  return (ts, vm.openSlot ts now)

def acquireInsertTimestamp (vm : VersionManager) (now : Instant) :
    Except VersionManagerError (Timestamp × VersionManager) := do
  let (ts, vm) ← vm.reserveTimestamp
  return (ts, vm.openSlot ts now)

def finishWriteTimestamp (vm : VersionManager) (ts : Timestamp) (state : WriteTimestampState) :
    VersionManager :=
  (vm.settleSlot ts state).advanceReadFrontier

def abortWriteTimestamp (vm : VersionManager) (ts : Timestamp) : VersionManager :=
  vm.finishWriteTimestamp ts .aborted

def reserveCommitTimestamp (vm : VersionManager) (start : Timestamp) (now : Instant) :
    Except VersionManagerError (Timestamp × VersionManager) :=
  match vm.slot start with
  | some .pending => do
    let (ts, vm) ← vm.reserveTimestamp
    return (ts, vm.insertSlot ts now .pending)
  | _ => .error (.invalidTimestamp start)

-- The commit slot was reserved without a snapshot and outside the pending counter, so settling it
-- releases neither.
def settleCommit (vm : VersionManager) (commit : Timestamp) (now : Instant) : VersionManager :=
  match vm.writeStates.entry commit with
  | some (acquired, .pending) => vm.insertSlot commit acquired .committed
  | some _ => vm
  | none => vm.insertSlot commit now .committed

def publishReservedCommit (vm : VersionManager) (start commit : Timestamp) (now : Instant) :
    VersionManager :=
  ((vm.settleSlot start .committed).settleCommit commit now).advanceReadFrontier

def allocateCommitTimestamp (vm : VersionManager) (start : Timestamp) (now : Instant) :
    Except VersionManagerError (Timestamp × VersionManager) := do
  let (ts, vm) ← vm.reserveTimestamp
  let vm := vm.settleSlot start .committed
  let vm := vm.insertSlot ts now .committed
  return (ts, vm.advanceReadFrontier)

def commitOrdered (vm : VersionManager) (start : Timestamp) (now : Instant) :
    Except VersionManagerError (Timestamp × VersionManager) := do
  let (commit, vm) ← vm.reserveCommitTimestamp start now
  return (commit, vm.publishReservedCommit start commit now)

def initTs (vm : VersionManager) (ts : Timestamp) : VersionManager :=
  { vm with writeTs := ts, readTs := ts, writeStates := ∅, snapshotTracker := .new }

def isExpired (timeout : Duration) (owned : List Timestamp) (now : Instant)
    (ts : Timestamp) (entry : WriteEntry) : Bool :=
  entry.2 = .pending && ts ∉ owned && timeout < now - entry.1

def expired (vm : VersionManager) (timeout : Duration) (owned : List Timestamp) (now : Instant) : List Timestamp :=
  vm.writeStates.keys.filter fun ts =>
    (vm.writeStates.entry ts).any (isExpired timeout owned now ts)

-- Returns the number of reaped slots. `duration_since` saturates at zero, as subtraction does here.
def reapExpiredWriteTimestamps (vm : VersionManager) (timeout : Duration) (owned : List Timestamp)
    (now : Instant) : ℕ × VersionManager :=
  let reaped := vm.expired timeout owned now
  let vm := reaped.foldl (fun vm ts => vm.settleSlot ts .aborted) vm
  (reaped.length, if reaped = [] then vm else vm.advanceReadFrontier)

def releaseReadTimestampAt (vm : VersionManager) (ts : Timestamp) : VersionManager :=
  { vm with
    snapshotTracker := vm.snapshotTracker.release ts
    readPending := vm.readPending - 1 }

def Settled (vm : VersionManager) (ts : Timestamp) : Prop :=
  vm.slot ts = some .committed ∨ vm.slot ts = some .aborted

theorem not_settled_of_pending {vm : VersionManager} (h : vm.slot ts = some .pending) : ¬vm.Settled ts := by
  simp [Settled, h]

theorem settled_or_pending {vm : VersionManager}
    (h : vm.writeStates.entry ts = some e) : vm.Settled ts ∨ vm.slot ts = some .pending := by
  obtain ⟨_, _ | _ | _⟩ := e <;> simp [Settled, slot, h]

section

variable {vm vm' : VersionManager} {ts : Timestamp} {now : Instant}

theorem reserveTimestamp_ok (h : vm.reserveTimestamp = .ok (ts, vm')) :
    ts = vm.writeTs + 1 ∧ vm' = { vm with writeTs := ts } := by
  simp only [reserveTimestamp] at h
  split at h
  case isTrue => contradiction
  case isFalse =>
    split at h
    case isTrue => cases h; exact ⟨rfl, rfl⟩
    case isFalse => contradiction

-- A timestamp is reserved, and what follows works with it.
theorem reserved_ok {f : Timestamp → VersionManager → VersionManager}
    (h : (do let (ts, vm) ← vm.reserveTimestamp; return (ts, f ts vm)) = Except.ok (ts, vm')) :
    ts = vm.writeTs + 1 ∧ vm' = f ts { vm with writeTs := ts } := by
  cases hr : vm.reserveTimestamp with
  | error => rw [hr] at h; contradiction
  | ok p =>
    have ⟨hts, hvm⟩ := reserveTimestamp_ok hr
    rw [hr] at h
    cases h
    exact ⟨hts, hvm ▸ rfl⟩

theorem acquireInsertTimestamp_ok (h : vm.acquireInsertTimestamp now = .ok (ts, vm')) :
    ts = vm.writeTs + 1 ∧ vm' = { vm with writeTs := ts }.openSlot ts now :=
  reserved_ok (f := fun ts vm => vm.openSlot ts now) h

theorem reserveCommitTimestamp_ok
    (h : vm.reserveCommitTimestamp start now = .ok (ts, vm')) : vm.slot start = some .pending ∧
    ts = vm.writeTs + 1 ∧ vm' = { vm with writeTs := ts }.insertSlot ts now .pending := by
  unfold reserveCommitTimestamp at h
  split at h
  case h_2 => contradiction
  case h_1 hs => exact ⟨hs, reserved_ok (f := fun ts vm => vm.insertSlot ts now .pending) h⟩

theorem allocateCommitTimestamp_ok
    (h : vm.allocateCommitTimestamp start now = .ok (ts, vm')) : ts = vm.writeTs + 1 ∧
    vm' = (({ vm with writeTs := ts }.settleSlot start .committed).insertSlot ts now
      .committed).advanceReadFrontier :=
  reserved_ok (f := fun ts vm => ((vm.settleSlot start .committed).insertSlot ts now .committed).advanceReadFrontier) h

end

section

variable (vm : VersionManager) (ts t : Timestamp) (st : WriteTimestampState) (now : Instant)

@[simp]
theorem entry_insertSlot : (vm.insertSlot ts now st).writeStates.entry t =
      if t = ts then some (now, st) else vm.writeStates.entry t := by
  simp [insertSlot]

@[simp]
theorem slot_insertSlot :
    (vm.insertSlot ts now st).slot t = if t = ts then some st else vm.slot t := by
  simp only [slot, entry_insertSlot]
  split <;> rfl

@[simp]
theorem slot_openSlot :
    (vm.openSlot ts now).slot t = if t = ts then some .pending else vm.slot t :=
  slot_insertSlot ..

@[simp]
theorem refCount_openSlot : (vm.openSlot ts now).snapshotTracker.refCount t =
      vm.snapshotTracker.refCount t + if t = ts then 1 else 0 :=
  SnapshotTracker.refCount_addSnapshot _ _ _

def settleEntry (st : WriteTimestampState) (e : WriteEntry) : WriteEntry :=
  if e.2 = .pending then (e.1, st) else e

theorem settleSlot_of_pending {vm : VersionManager} {ts : Timestamp}
    (h : vm.writeStates.entry ts = some (acquired, .pending)) : vm.settleSlot ts st =
      { vm with
        writeStates := vm.writeStates.insert ts (acquired, st)
        snapshotTracker := vm.snapshotTracker.release ts
        writePending := vm.writePending - 1 } := by
  simp [settleSlot, h]

theorem settleSlot_of_not_pending {vm : VersionManager} {ts : Timestamp}
    (h : vm.slot ts ≠ some .pending) : vm.settleSlot ts st = vm := by
  unfold settleSlot
  split
  case h_1 hp => simp [slot, hp] at h
  case h_2 => rfl

theorem slot_pending_iff {vm : VersionManager} {ts : Timestamp} :
    vm.slot ts = some .pending ↔ ∃ acquired, vm.writeStates.entry ts = some (acquired, .pending) := by
  simp [slot]

@[simp]
theorem writeTs_settleSlot : (vm.settleSlot ts st).writeTs = vm.writeTs := by
  unfold settleSlot; split <;> rfl

@[simp]
theorem readTs_settleSlot : (vm.settleSlot ts st).readTs = vm.readTs := by
  unfold settleSlot; split <;> rfl

theorem settleSlot_setWriteTs (n : Timestamp) :
    { vm with writeTs := n }.settleSlot ts st = { vm.settleSlot ts st with writeTs := n } := by
  simp only [settleSlot]
  split <;> rfl

theorem entry_settleSlot : (vm.settleSlot ts st).writeStates.entry t =
      if t = ts then (vm.writeStates.entry t).map (settleEntry st)
      else vm.writeStates.entry t := by
  by_cases hp : vm.slot ts = some .pending
  case pos =>
    have ⟨a, ha⟩ := slot_pending_iff.mp hp
    rw [settleSlot_of_pending st ha, WriteStates.entry_insert]
    split
    case isTrue h => simp [h, ha, settleEntry]
    case isFalse => rfl
  case neg =>
    rw [settleSlot_of_not_pending st hp]
    split
    case isFalse => rfl
    case isTrue h =>
      subst h
      cases he : vm.writeStates.entry t with
      | none => rfl
      | some e =>
        have : e.2 ≠ .pending := fun h => hp (by simp [slot, he, h])
        simp [settleEntry, this]

@[simp]
theorem slot_settleSlot : (vm.settleSlot ts st).slot t =
      if t = ts ∧ vm.slot t = some .pending then some st else vm.slot t := by
  rw [slot, entry_settleSlot]
  by_cases h : t = ts
  case neg => simp [h, slot]
  case pos =>
    subst h
    cases he : vm.writeStates.entry t with
    | none => simp [slot, he]
    | some e => by_cases hp : e.2 = .pending <;> simp [slot, he, settleEntry, hp]

@[simp]
theorem refCount_settleSlot : (vm.settleSlot ts st).snapshotTracker.refCount t = vm.snapshotTracker.refCount t -
        if t = ts ∧ vm.slot ts = some .pending then 1 else 0 := by
  by_cases hp : vm.slot ts = some .pending
  case pos =>
    have ⟨a, ha⟩ := slot_pending_iff.mp hp
    simp [settleSlot_of_pending st ha, SnapshotTracker.refCount_release, hp]
  case neg => simp [settleSlot_of_not_pending st hp, hp]

@[simp]
theorem writeTs_settleCommit : (vm.settleCommit ts now).writeTs = vm.writeTs := by
  unfold settleCommit; split <;> rfl

@[simp]
theorem readTs_settleCommit : (vm.settleCommit ts now).readTs = vm.readTs := by
  unfold settleCommit; split <;> rfl

theorem foldl_settleSlot_spec (reaped : List Timestamp) :
    (reaped.foldl (fun vm ts => vm.settleSlot ts st) vm).writeTs = vm.writeTs ∧
    (reaped.foldl (fun vm ts => vm.settleSlot ts st) vm).readTs = vm.readTs ∧
    ∀ t, (reaped.foldl (fun vm ts => vm.settleSlot ts st) vm).writeStates.entry t =
      if t ∈ reaped then (vm.writeStates.entry t).map (settleEntry st)
      else vm.writeStates.entry t := by
  induction reaped generalizing vm with
  | nil => simp
  | cons r reaped hi =>
    have ⟨hw, hr, he⟩ := hi (vm.settleSlot r st)
    refine ⟨by simp [hw], by simp [hr], fun t => ?_⟩
    rw [List.foldl_cons, he, entry_settleSlot]
    -- A slot listed twice is settled once: the second time it is no longer pending.
    have hs : ∀ e : WriteEntry, settleEntry st (settleEntry st e) = settleEntry st e := by
      intro e
      unfold settleEntry
      split <;> simp_all
    by_cases ht : t = r <;> by_cases hm : t ∈ reaped <;> simp [ht, hm, Function.comp_def, hs]

end

section

-- What the loop does to the slots it passes: they were settled, they are removed, and it stops at
-- the first timestamp that is not settled.
theorem advanceLoop_spec (hf : states.keys.length ≤ fuel) : f ≤ (advanceLoop fuel f states).1 ∧
    (∀ t, f < t → t ≤ (advanceLoop fuel f states).1 → ∃ e ∈ states.entry t, e.2 ≠ .pending) ∧
    (∀ t, (advanceLoop fuel f states).2.entry t =
      if f < t ∧ t ≤ (advanceLoop fuel f states).1 then none else states.entry t) ∧
    ∀ e ∈ states.entry ((advanceLoop fuel f states).1 + 1), e.2 = .pending := by
  induction fuel generalizing f states with
  | zero =>
    have hn : states.entry (f + 1) = none := by
      by_contra h
      have ⟨e, he⟩ := Option.ne_none_iff_exists'.mp h
      have := List.length_pos_of_mem (WriteStates.mem_keys_of_entry he)
      lia
    have hu : advanceLoop 0 f states = (f, states) := rfl
    rw [hu]
    exact ⟨le_refl _, fun t => by lia, fun t => by rw [if_neg (by lia)], by simp [hn]⟩
  | succ fuel hi =>
    -- The loop goes on exactly if the next slot is settled.
    by_cases hs : ∃ e ∈ states.entry (f + 1), e.2 ≠ .pending
    case pos =>
      obtain ⟨e, he, hp⟩ := hs
      have hl : (states.erase (f + 1)).keys.length ≤ fuel := by
        have hm := WriteStates.mem_keys_of_entry he
        rw [AList.keys_erase, List.length_erase_of_mem hm]
        lia
      have hu : advanceLoop (fuel + 1) f states =
          advanceLoop fuel (f + 1) (states.erase (f + 1)) := by
        have he : states.entry (f + 1) = some e := he
        obtain ⟨a, _ | _ | _⟩ := e
        case pending => exact absurd rfl hp
        all_goals simp [advanceLoop, he]
      have ⟨h₁, h₂, h₃, h₄⟩ := @hi (f + 1) _ hl
      rw [hu]
      refine ⟨by lia, ?_, ?_, ?_⟩
      case refine_1 =>
        intro t ht ht'
        by_cases h : t = f + 1
        case pos => exact ⟨e, h ▸ he, hp⟩
        case neg => simpa [h] using h₂ t (by lia) ht'
      case refine_2 =>
        intro t
        rw [h₃, WriteStates.entry_erase]
        grind
      case refine_3 =>
        intro e' he'
        refine h₄ e' ?_
        rw [WriteStates.entry_erase, if_neg (by lia)]
        exact he'
    case neg =>
      have hu : advanceLoop (fuel + 1) f states = (f, states) := by
        cases he : states.entry (f + 1) with
        | none => simp [advanceLoop, he]
        | some e =>
          have : e.2 = .pending := by by_contra h; exact hs ⟨e, he, h⟩
          simp [advanceLoop, he, this]
      rw [hu]
      refine ⟨le_refl _, fun t => by lia, fun t => by rw [if_neg (by lia)], fun e he => ?_⟩
      by_contra h
      exact hs ⟨e, he, h⟩

variable (vm : VersionManager) (t : Timestamp)

@[simp]
theorem writeTs_advanceReadFrontier : vm.advanceReadFrontier.writeTs = vm.writeTs :=
  rfl

@[simp]
theorem snapshotTracker_advanceReadFrontier : vm.advanceReadFrontier.snapshotTracker = vm.snapshotTracker :=
  rfl

theorem readTs_le_advanceReadFrontier : vm.readTs ≤ vm.advanceReadFrontier.readTs :=
  (advanceLoop_spec <| le_refl _).1

theorem settled_of_advanceReadFrontier {vm : VersionManager} {t : Timestamp}
    (h : vm.readTs < t) (h' : t ≤ vm.advanceReadFrontier.readTs) : vm.Settled t := by
  have ⟨e, he, hp⟩ := (advanceLoop_spec <| le_refl _).2.1 t h h'
  have := settled_or_pending he
  simp_all [slot]

theorem entry_advanceReadFrontier : vm.advanceReadFrontier.writeStates.entry t =
      if vm.readTs < t ∧ t ≤ vm.advanceReadFrontier.readTs then none
      else vm.writeStates.entry t :=
  (advanceLoop_spec <| le_refl _).2.2.1 t

theorem slot_advanceReadFrontier : vm.advanceReadFrontier.slot t =
      if vm.readTs < t ∧ t ≤ vm.advanceReadFrontier.readTs then none else vm.slot t := by
  rw [slot, entry_advanceReadFrontier]
  split <;> rfl

theorem not_settled_advanceReadFrontier : ¬vm.Settled (vm.advanceReadFrontier.readTs + 1) := by
  have h := (@advanceLoop_spec _ vm.readTs vm.writeStates <| le_refl _).2.2.2
  intro hs
  cases he : vm.writeStates.entry (vm.advanceReadFrontier.readTs + 1) with
  | none => simp [Settled, slot, he] at hs
  | some e => have := h e he; simp [Settled, slot, he, this] at hs

-- A pending slot survives every advance, and no advance creates one.
theorem slot_advanceReadFrontier_pending :
    vm.advanceReadFrontier.slot t = some .pending ↔ vm.slot t = some .pending := by
  rw [slot_advanceReadFrontier]
  split
  case isTrue h =>
    have := settled_of_advanceReadFrontier h.1 h.2
    simp only [Settled] at this
    grind
  case isFalse => rfl

end

end VersionManager
end Linkrs
