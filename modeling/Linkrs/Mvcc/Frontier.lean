import Mathlib.Order.Bounds.Basic
import Linkrs.Mvcc.VersionManager

namespace Linkrs

open VersionManager

-- The write-side operations of the version manager, each with the clock reading it takes.
inductive WriteOp where
  | tryNextWriteTimestamp (now : Instant)
  | acquireInsertTimestamp (now : Instant)
  | reserveCommitTimestamp (start : Timestamp) (now : Instant)
  | publishReservedCommit (start commit : Timestamp) (now : Instant)
  | abortWriteTimestamp (ts : Timestamp)
  | allocateCommitTimestamp (start : Timestamp) (now : Instant)
  | reapExpiredWriteTimestamps (timeout : Duration) (owned : List Timestamp) (now : Instant)
  deriving DecidableEq, Repr

namespace VersionManager

-- The timestamp returned by a fallible operation, if any, and the state it leaves. An operation
-- that fails has not changed anything.
def outcome (vm : VersionManager) :
    Except VersionManagerError (Timestamp × VersionManager) → Option Timestamp × VersionManager
  | .ok (ts, vm') => (some ts, vm')
  | .error _ => (none, vm)

def apply (vm : VersionManager) : WriteOp → Option Timestamp × VersionManager
  | .tryNextWriteTimestamp now => vm.outcome (vm.tryNextWriteTimestamp now)
  | .acquireInsertTimestamp now => vm.outcome (vm.acquireInsertTimestamp now)
  | .reserveCommitTimestamp start now => vm.outcome (vm.reserveCommitTimestamp start now)
  | .publishReservedCommit start commit now => (none, vm.publishReservedCommit start commit now)
  | .abortWriteTimestamp ts => (none, vm.abortWriteTimestamp ts)
  | .allocateCommitTimestamp start now => vm.outcome (vm.allocateCommitTimestamp start now)
  | .reapExpiredWriteTimestamps timeout owned now =>
    (none, (vm.reapExpiredWriteTimestamps timeout owned now).2)

end VersionManager

open VersionManager (settleEntry isExpired)

-- What an observer of the version manager's results knows: every timestamp ever handed out with the
-- state it has reached, and the pairs handed out by `reserve_commit_timestamp`. Nothing is ever
-- forgotten, and there is no frontier.
structure Ledger where
  entries : Timestamp → Option WriteEntry
  reserved : List (Timestamp × Timestamp)

namespace Ledger

def new : Ledger where
  entries := fun _ => none
  reserved := []

def Allocated (l : Ledger) (ts : Timestamp) : Prop :=
  l.entries ts ≠ none

def Settled (l : Ledger) (ts : Timestamp) : Prop :=
  ∃ e ∈ l.entries ts, e.2 ≠ .pending

def allocate (l : Ledger) (ts : Timestamp) (now : Instant) (st : WriteTimestampState) : Ledger :=
  { l with entries := fun t => if t = ts then some (now, st) else l.entries t }

def settleWhere (l : Ledger) (p : Timestamp → WriteEntry → Bool) (st : WriteTimestampState) : Ledger :=
  { l with entries := fun t => (l.entries t).map fun e => if p t e then settleEntry st e else e }

def settle (l : Ledger) (ts : Timestamp) (st : WriteTimestampState) : Ledger :=
  l.settleWhere (fun t _ => t = ts) st

def observe (l : Ledger) : WriteOp → Option Timestamp → Ledger
  | .tryNextWriteTimestamp now, some ts => l.allocate ts now .pending
  | .acquireInsertTimestamp now, some ts => l.allocate ts now .pending
  | .reserveCommitTimestamp start now, some ts =>
    { l.allocate ts now .pending with reserved := (start, ts) :: l.reserved }
  | .allocateCommitTimestamp start now, some ts =>
    (l.settle start .committed).allocate ts now .committed
  | .publishReservedCommit start commit _, _ =>
    (l.settle start .committed).settle commit .committed
  | .abortWriteTimestamp ts, _ => l.settle ts .aborted
  | .reapExpiredWriteTimestamps timeout owned now, _ =>
    l.settleWhere (isExpired timeout owned now) .aborted
  | _, _ => l

theorem settled_of_entries {l : Ledger} (h : l.entries ts = some e) : l.Settled ts ↔ e.2 ≠ .pending := by
  simp [Settled, h]

theorem Settled.allocated {l : Ledger} : l.Settled ts → l.Allocated ts
  | ⟨_, he, _⟩ => Option.ne_none_iff_exists'.mpr ⟨_, he⟩

theorem allocated_allocate {l : Ledger} : (l.allocate ts now st).Allocated t ↔ t = ts ∨ l.Allocated t := by
  by_cases ht : t = ts <;> simp [Allocated, allocate, ht]

end Ledger

def observedStep : VersionManager × Ledger → WriteOp → Option (VersionManager × Ledger)
  | (vm, l), op => some ((vm.apply op).2, l.observe op (vm.apply op).1)

-- A pair may only be published after it was handed out by `reserve_commit_timestamp`.
def PublishesReserved : VersionManager × Ledger → WriteOp → Prop
  | (_, l), .publishReservedCommit start commit _ => (start, commit) ∈ l.reserved
  | _, _ => True

-- The sparse slot map above the frontier is the ledger; everything at or below it is settled.
structure Tracks (vm : VersionManager) (l : Ledger) : Prop where
  base : 1 ≤ vm.readTs
  bound : vm.readTs ≤ vm.writeTs
  allocated : ∀ t, l.Allocated t ↔ 1 < t ∧ t ≤ vm.writeTs
  agree : ∀ t, vm.readTs < t → vm.writeStates.entry t = l.entries t
  below : ∀ t, t ≤ vm.readTs → l.Allocated t → l.Settled t
  stale : ∀ t, t ≤ vm.readTs → vm.slot t ≠ some .pending
  reserved : ∀ p ∈ l.reserved, l.Allocated p.1 ∧ l.Allocated p.2

namespace Tracks

variable {vm vm' : VersionManager} {l : Ledger} {ts : Timestamp} {now : Instant}
variable {st : WriteTimestampState}

theorem new : Tracks .new .new where
  base := le_refl _
  bound := le_refl _
  allocated := by simp [Ledger.Allocated, Ledger.new, VersionManager.new]
  agree := by simp [Ledger.new, VersionManager.new]
  below := by simp [Ledger.Allocated, Ledger.new]
  stale := by simp [VersionManager.slot, VersionManager.new]
  reserved := by simp [Ledger.new]

theorem congr (h : Tracks vm l) (hw : vm'.writeTs = vm.writeTs) (hr : vm'.readTs = vm.readTs)
    (hs : vm'.writeStates = vm.writeStates) : Tracks vm' l := by
  constructor
  case base => rw [hr]; exact h.base
  case bound => rw [hr, hw]; exact h.bound
  case allocated => rw [hw]; exact h.allocated
  case agree => rw [hr, hs]; exact h.agree
  case below => rw [hr]; exact h.below
  case stale => simpa only [VersionManager.slot, hr, hs] using h.stale
  case reserved => exact h.reserved

-- Settling any set of slots on both sides keeps them in step. The manager side is given by its
-- effect on the slot map, which covers a single slot and the whole list of the reaper.
theorem settleWhere {p : Timestamp → WriteEntry → Bool} (h : Tracks vm l)
    (hw : vm'.writeTs = vm.writeTs) (hr : vm'.readTs = vm.readTs)
    (hs : ∀ t, vm'.writeStates.entry t = (vm.writeStates.entry t).map fun e =>
      if p t e then settleEntry st e else e) : Tracks vm' (l.settleWhere p st) := by
  have ha : ∀ t, (l.settleWhere p st).Allocated t ↔ l.Allocated t := by
    simp [Ledger.Allocated, Ledger.settleWhere]
  -- What was settled before is not touched.
  have hk : ∀ t e, l.entries t = some e → e.2 ≠ .pending →
      (l.settleWhere p st).entries t = some e := by
    intro t e he hp
    simp [Ledger.settleWhere, he, settleEntry, hp]
  constructor
  case base => exact hr ▸ h.base
  case bound => exact hr ▸ hw ▸ h.bound
  case allocated => intro t; rw [ha, hw, h.allocated]
  case agree => intro t ht; rw [hs, h.agree t (hr ▸ ht)]; rfl
  case below =>
    intro t ht hl
    obtain ⟨e, he, hp⟩ := h.below t (hr ▸ ht) ((ha t).mp hl)
    exact ⟨e, hk t e he hp, hp⟩
  case stale =>
    intro t ht
    have hn := h.stale t (hr ▸ ht)
    cases he : vm.writeStates.entry t with
    | none => simp [VersionManager.slot, hs, he]
    | some e =>
      have hp : e.2 ≠ .pending := by simpa [VersionManager.slot, he] using hn
      simp [VersionManager.slot, hs, he, settleEntry, hp]
  case reserved =>
    intro q hq
    exact ⟨(ha _).mpr (h.reserved q hq).1, (ha _).mpr (h.reserved q hq).2⟩

theorem settleSlot (h : Tracks vm l) (ts : Timestamp) : Tracks (vm.settleSlot ts st) (l.settle ts st) := by
  refine h.settleWhere (by simp) (by simp) fun t => ?_
  rw [entry_settleSlot]
  by_cases ht : t = ts <;> simp [ht]

theorem allocate (h : Tracks vm l) :
    Tracks ({ vm with writeTs := vm.writeTs + 1 }.insertSlot (vm.writeTs + 1) now st)
      (l.allocate (vm.writeTs + 1) now st) := by
  have hb := h.bound
  have hn : ∀ t, t ≠ vm.writeTs + 1 →
      (l.allocate (vm.writeTs + 1) now st).entries t = l.entries t := by
    intro t ht
    simp [Ledger.allocate, ht]
  constructor
  case base => exact h.base
  case bound => exact Nat.le_succ_of_le hb
  case allocated =>
    intro t
    rw [Ledger.allocated_allocate, h.allocated]
    have := h.base
    simp only [VersionManager.insertSlot]
    lia
  case agree =>
    intro t ht
    rw [entry_insertSlot]
    split
    case isTrue ht => simp [Ledger.allocate, ht]
    case isFalse hne => rw [hn t hne]; exact h.agree t ht
  case below =>
    intro t ht hl
    have hne : t ≠ vm.writeTs + 1 := by
      simp only [VersionManager.insertSlot] at ht
      lia
    obtain ⟨e, he, hp⟩ := h.below t ht ((Ledger.allocated_allocate.mp hl).resolve_left hne)
    exact ⟨e, by rw [hn t hne]; exact he, hp⟩
  case stale =>
    intro t ht
    simp only [VersionManager.insertSlot] at ht
    rw [slot_insertSlot, if_neg (by lia)]
    exact h.stale t ht
  case reserved =>
    intro q hq
    obtain ⟨h₁, h₂⟩ := h.reserved q hq
    exact ⟨Ledger.allocated_allocate.mpr <| .inr h₁, Ledger.allocated_allocate.mpr <| .inr h₂⟩

-- The second half of a publication. A reserved slot that the frontier has already passed, because
-- it was aborted or reaped meanwhile, is put back below the frontier, where nothing reads it.
theorem settleCommit (h : Tracks vm l) (ha : l.Allocated ts) :
    Tracks (vm.settleCommit ts now) (l.settle ts .committed) := by
  unfold VersionManager.settleCommit
  split
  case h_1 a he =>
    refine h.settleWhere rfl rfl fun t => ?_
    by_cases ht : t = ts <;> simp [ht, he, settleEntry]
  case h_2 e hp he =>
    refine h.settleWhere rfl rfl fun t => ?_
    by_cases ht : t = ts
    case neg => simp [ht]
    case pos =>
      have : e.2 ≠ .pending := fun hp' => hp e.1 (by rw [← hp'])
      simp [ht, he, settleEntry, this]
  case h_3 he =>
    have hle : ts ≤ vm.readTs := by
      by_contra hgt
      exact ha <| (h.agree ts (by lia)).symm.trans he
    have h' : Tracks vm (l.settle ts .committed) := h.settleWhere rfl rfl fun t => by
      by_cases ht : t = ts <;> simp [ht, he]
    constructor
    case base => exact h'.base
    case bound => exact h'.bound
    case allocated => exact h'.allocated
    case below => exact h'.below
    case reserved => exact h'.reserved
    case agree =>
      intro t ht
      simp only [VersionManager.insertSlot] at ht
      rw [entry_insertSlot, if_neg (by lia)]
      exact h'.agree t ht
    case stale =>
      intro t ht
      rw [slot_insertSlot]
      split
      case isTrue => simp
      case isFalse => exact h'.stale t ht

theorem foldl_settleSlot (h : Tracks vm l) {reaped : List Timestamp}
    (hr : ∀ t, t ∈ reaped ↔ (vm.writeStates.entry t).any (p t)) :
    Tracks (reaped.foldl (fun vm ts => vm.settleSlot ts st) vm) (l.settleWhere p st) := by
  have ⟨hw, hf, he⟩ := VersionManager.foldl_settleSlot_spec vm st reaped
  refine h.settleWhere hw hf fun t => ?_
  rw [he]
  cases hv : vm.writeStates.entry t with
  | none => simp
  | some e =>
    have := hr t
    simp only [hv, Option.any_some] at this
    by_cases hp : p t e <;> simp [this, hp]

-- The advance stops exactly at the first allocated timestamp that is not settled.
theorem advanceReadFrontier (h : Tracks vm l) :
    Tracks vm.advanceReadFrontier l ∧ ¬l.Settled (vm.advanceReadFrontier.readTs + 1) := by
  have hle := vm.readTs_le_advanceReadFrontier
  -- The slots passed by the advance are settled in the ledger too.
  have hp : ∀ t, vm.readTs < t → t ≤ vm.advanceReadFrontier.readTs → l.Settled t := by
    intro t ht ht'
    have hs := settled_of_advanceReadFrontier ht ht'
    rw [VersionManager.Settled, VersionManager.slot, h.agree t ht] at hs
    cases he : l.entries t with
    | none => simp [he] at hs
    | some e =>
      rw [Ledger.settled_of_entries he]
      rintro hp
      simp [he, hp] at hs
  refine ⟨?_, ?_⟩
  case refine_1 =>
    constructor
    case base => exact le_trans h.base hle
    case allocated => exact h.allocated
    case reserved => exact h.reserved
    case bound =>
      by_cases hlt : vm.readTs < vm.advanceReadFrontier.readTs
      case pos => exact ((h.allocated _).mp (hp _ hlt (le_refl _)).allocated).2
      case neg => exact le_trans (by lia) h.bound
    case agree =>
      intro t ht
      rw [entry_advanceReadFrontier, if_neg (by lia)]
      exact h.agree t (by lia)
    case below =>
      intro t ht ha
      by_cases hlt : vm.readTs < t
      case pos => exact hp t hlt ht
      case neg => exact h.below t (by lia) ha
    case stale =>
      intro t ht
      by_cases hlt : vm.readTs < t
      case pos => simp [slot_advanceReadFrontier, hlt, ht]
      case neg =>
        rw [ne_eq, slot_advanceReadFrontier_pending]
        exact h.stale t (by lia)
  case refine_2 =>
    have hn := vm.not_settled_advanceReadFrontier
    rintro ⟨e, he, hs⟩
    rw [← h.agree _ (by lia)] at he
    have := settled_or_pending he
    simp_all [VersionManager.slot]

theorem mem_expired : ts ∈ vm.expired timeout owned now ↔
      (vm.writeStates.entry ts).any (isExpired timeout owned now ts) := by
  rw [expired, List.mem_filter]
  constructor
  · exact fun h => h.2
  · intro h
    have ⟨e, he⟩ := Option.isSome_iff_exists.mp (Option.isSome_of_any h)
    exact ⟨WriteStates.mem_keys_of_entry he, h⟩

theorem not_settled_allocate (hn : ¬l.Settled (vm.readTs + 1)) :
    ¬(l.allocate (vm.writeTs + 1) now .pending).Settled (vm.readTs + 1) := by
  rintro ⟨e, he, hp⟩
  simp only [Ledger.allocate] at he
  split at he
  case isTrue => cases he; contradiction
  case isFalse => exact hn ⟨e, he, hp⟩

theorem acquireInsertTimestamp (h : Tracks vm l) (hn : ¬l.Settled (vm.readTs + 1))
    (hr : vm.acquireInsertTimestamp now = .ok (ts, vm')) : Tracks vm' (l.allocate ts now .pending) ∧
    ¬(l.allocate ts now .pending).Settled (vm'.readTs + 1) := by
  have ⟨hts, hvm⟩ := VersionManager.acquireInsertTimestamp_ok hr
  subst hts hvm
  exact ⟨h.allocate.congr rfl rfl rfl, not_settled_allocate hn⟩

theorem reserveCommitTimestamp (h : Tracks vm l)
    (hn : ¬l.Settled (vm.readTs + 1)) (hr : vm.reserveCommitTimestamp start now = .ok (ts, vm')) :
    Tracks vm' { l.allocate ts now .pending with reserved := (start, ts) :: l.reserved } ∧
    ¬(l.allocate ts now .pending).Settled (vm'.readTs + 1) := by
  have ⟨hs, hts, hvm⟩ := VersionManager.reserveCommitTimestamp_ok hr
  subst hts hvm
  have ha : Tracks _ (l.allocate _ now .pending) := h.allocate
  refine ⟨{ ha with reserved := ?_ }, not_settled_allocate hn⟩
  -- The start slot is pending, so it lies above the frontier, where the ledger knows it.
  have ⟨a, he⟩ := slot_pending_iff.mp hs
  have hgt : vm.readTs < start := by
    by_contra hle
    exact h.stale start (by lia) hs
  have hst : l.Allocated start := by simp [Ledger.Allocated, ← h.agree start hgt, he]
  intro q hq
  cases hq with
  | head =>
    exact ⟨Ledger.allocated_allocate.mpr <| .inr hst, Ledger.allocated_allocate.mpr <| .inl rfl⟩
  | tail _ hq => exact ha.reserved q hq

theorem allocateCommitTimestamp (h : Tracks vm l) (hr : vm.allocateCommitTimestamp start now = .ok (ts, vm')) :
    Tracks vm' ((l.settle start .committed).allocate ts now .committed) ∧
    ¬((l.settle start .committed).allocate ts now .committed).Settled (vm'.readTs + 1) := by
  have ⟨hts, hvm⟩ := VersionManager.allocateCommitTimestamp_ok hr
  subst hts hvm
  have hs : Tracks _ (l.settle start .committed) := h.settleSlot start
  have ha : Tracks _ (Ledger.allocate _ _ now .committed) := hs.allocate
  rw [writeTs_settleSlot] at ha
  rw [settleSlot_setWriteTs]
  exact ha.advanceReadFrontier

theorem step (h : Tracks vm l) (hn : ¬l.Settled (vm.readTs + 1))
    (ho : PublishesReserved (vm, l) op) : Tracks (vm.apply op).2 (l.observe op (vm.apply op).1) ∧
    ¬(l.observe op (vm.apply op).1).Settled ((vm.apply op).2.readTs + 1) := by
  cases op with
  | tryNextWriteTimestamp now =>
    have he : vm.apply (.tryNextWriteTimestamp now) =
      vm.outcome (vm.acquireInsertTimestamp now) := rfl
    rw [he]
    cases hr : vm.acquireInsertTimestamp now with
    | error => exact ⟨h, hn⟩
    | ok => exact h.acquireInsertTimestamp hn hr
  | acquireInsertTimestamp now =>
    rw [VersionManager.apply]
    cases hr : vm.acquireInsertTimestamp now with
    | error => exact ⟨h, hn⟩
    | ok => exact h.acquireInsertTimestamp hn hr
  | reserveCommitTimestamp start now =>
    rw [VersionManager.apply]
    cases hr : vm.reserveCommitTimestamp start now with
    | error => exact ⟨h, hn⟩
    | ok => exact h.reserveCommitTimestamp hn hr
  | publishReservedCommit start commit now =>
    have hs : Tracks _ (l.settle start .committed) := h.settleSlot start
    exact advanceReadFrontier <| hs.settleCommit (hs.reserved (start, commit) ho).2
  | abortWriteTimestamp ts => exact advanceReadFrontier <| h.settleSlot ts
  | allocateCommitTimestamp start now =>
    rw [VersionManager.apply]
    cases hr : vm.allocateCommitTimestamp start now with
    | error => exact ⟨h, hn⟩
    | ok => exact h.allocateCommitTimestamp hr
  | reapExpiredWriteTimestamps timeout owned now =>
    have hf : Tracks _ (l.settleWhere (isExpired timeout owned now) .aborted) :=
      h.foldl_settleSlot fun _ => mem_expired
    simp only [VersionManager.apply, VersionManager.reapExpiredWriteTimestamps]
    split
    case isFalse => exact hf.advanceReadFrontier
    case isTrue he =>
      rw [he] at hf ⊢
      refine ⟨hf, ?_⟩
      rintro ⟨e, he', hp⟩
      have ha := (h.agree _ (Nat.lt_succ_self _)).symm.trans (hf.agree _ (Nat.lt_succ_self _))
      exact hn ⟨e, ha ▸ he', hp⟩

end Tracks

theorem tracks_of_run (r : Transition.Run observedStep PublishesReserved (.new, .new) ops s) :
    Tracks s.1 s.2 ∧ ¬s.2.Settled (s.1.readTs + 1) := by
  refine r.invariant (P := fun s => Tracks s.1 s.2 ∧ ¬s.2.Settled (s.1.readTs + 1)) ?_ ?_
  case refine_1 =>
    rintro s op _ ⟨h, hn⟩ ho he
    cases he
    exact h.step hn ho
  case refine_2 => exact ⟨.new, by simp [Ledger.Settled, Ledger.new]⟩

theorem VersionManager.readTs_le_apply (vm : VersionManager) (op : WriteOp) :
    vm.readTs ≤ (vm.apply op).2.readTs := by
  cases op with
  | tryNextWriteTimestamp now | acquireInsertTimestamp now =>
    show vm.readTs ≤ (vm.outcome (vm.acquireInsertTimestamp now)).2.readTs
    cases hr : vm.acquireInsertTimestamp now with
    | error => exact le_refl _
    | ok => rw [outcome, (acquireInsertTimestamp_ok hr).2]; exact le_refl _
  | reserveCommitTimestamp start now =>
    rw [apply]
    cases hr : vm.reserveCommitTimestamp start now with
    | error => exact le_refl _
    | ok => rw [outcome, (reserveCommitTimestamp_ok hr).2.2]; exact le_refl _
  | publishReservedCommit | abortWriteTimestamp =>
    refine le_trans ?_ (readTs_le_advanceReadFrontier _)
    simp
  | allocateCommitTimestamp start now =>
    rw [apply]
    cases hr : vm.allocateCommitTimestamp start now with
    | error => exact le_refl _
    | ok =>
      rw [outcome, (allocateCommitTimestamp_ok hr).2]
      refine le_trans ?_ (readTs_le_advanceReadFrontier _)
      simp [insertSlot]
  | reapExpiredWriteTimestamps timeout owned now =>
    have hf := (foldl_settleSlot_spec vm .aborted (vm.expired timeout owned now)).2.1
    simp only [apply, reapExpiredWriteTimestamps]
    split
    case isTrue => exact le_of_eq hf.symm
    case isFalse => exact le_trans (le_of_eq hf.symm) (readTs_le_advanceReadFrontier _)

-- The read frontier never moves back, and it is the largest timestamp handed out so far at or below
-- which nothing is left pending.
theorem read_frontier_exact {ops ops' : List WriteOp} {vm vm' : VersionManager} {l l' : Ledger}
    (r : Transition.Run observedStep PublishesReserved (.new, .new) ops (vm, l))
    (r' : Transition.Run observedStep PublishesReserved (vm, l) ops' (vm', l')) : vm.readTs ≤ vm'.readTs ∧
    IsGreatest { f | f ≤ vm'.writeTs ∧ ∀ t, l'.Allocated t → t ≤ f → l'.Settled t } vm'.readTs := by
  have ⟨h, hn⟩ := tracks_of_run (r.trans r')
  refine ⟨?_, ⟨h.bound, fun t ha ht => h.below t ht ha⟩, ?_⟩
  case refine_1 =>
    refine r'.related (P := fun _ => True) (R := fun s s' => s.1.readTs ≤ s'.1.readTs)
      (fun _ => le_refl _) le_trans ?_ trivial
    rintro s op _ - - he
    cases he
    exact ⟨trivial, s.1.readTs_le_apply op⟩
  case refine_2 =>
    -- A larger bound would need the first timestamp above the frontier to be settled.
    rintro f ⟨hf, hs⟩
    by_contra hlt
    have hb := h.base
    have ha := (h.allocated (vm'.readTs + 1)).mpr (by simp at hlt ⊢; lia)
    exact hn <| hs _ ha (by simp at hlt; lia)

-- Two writers, the second of which is aborted before the first commits: the frontier stays put
-- until the commit, and then passes both of them and the commit timestamp.
theorem read_frontier_exact_out_of_order : ∃ vm l vm' l',
      Transition.Run observedStep PublishesReserved (.new, .new)
        [.acquireInsertTimestamp 0, .acquireInsertTimestamp 0, .reserveCommitTimestamp 2 1,
          .abortWriteTimestamp 3] (vm, l) ∧
      Transition.Run observedStep PublishesReserved (vm, l) [.publishReservedCommit 2 4 1] (vm', l') ∧
      vm.readTs = 1 ∧ vm'.readTs = 4 ∧ vm.readTs ≤ vm'.readTs ∧
      IsGreatest { f | f ≤ vm'.writeTs ∧ ∀ t, l'.Allocated t → t ≤ f → l'.Settled t } vm'.readTs := by
  have r : Transition.Run observedStep PublishesReserved (.new, .new)
      [.acquireInsertTimestamp 0, .acquireInsertTimestamp 0, .reserveCommitTimestamp 2 1,
        .abortWriteTimestamp 3] _ :=
    .step trivial rfl <| .step trivial rfl <| .step trivial rfl <| .step trivial rfl .refl
  refine ⟨_, _, _, _, r, .single ?_ rfl, rfl, rfl, read_frontier_exact r (.single ?_ rfl)⟩
  all_goals exact List.mem_cons_self

end Linkrs
