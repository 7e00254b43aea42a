import Mathlib.Order.Interval.Finset.Nat
import Linkrs.Mvcc.Frontier

namespace Linkrs

open Transition Finset VersionManager

-- The calls that settle a pair handed out by `reserve_commit_timestamp`.
inductive SettleCall where
  | publish (now : Instant)
  | abortStart
  | abortCommit
  deriving DecidableEq, Repr

def SettleCall.op (start commit : Timestamp) : SettleCall → WriteOp
  | publish now => .publishReservedCommit start commit now
  | abortStart => .abortWriteTimestamp start
  | abortCommit => .abortWriteTimestamp commit

-- Nothing that can be observed of a version manager has changed.
structure VersionManager.Unchanged (vm vm' : VersionManager) : Prop where
  writeStates : vm'.writeStates = vm.writeStates
  readTs : vm'.readTs = vm.readTs
  snapshotTracker : vm'.snapshotTracker = vm.snapshotTracker
  writePending : vm'.writePending = vm.writePending

section

variable {vm : VersionManager} {l : Ledger} {start commit t : Timestamp} {ops : List WriteOp}

theorem VersionManager.advanceReadFrontier_of_not_settled (h : ¬vm.Settled (vm.readTs + 1)) :
    vm.advanceReadFrontier = vm := by
  have hloop : ∀ fuel, advanceLoop fuel vm.readTs vm.writeStates = (vm.readTs, vm.writeStates) := by
    intro fuel
    cases fuel with
    | zero => rfl
    | succ fuel =>
      rw [advanceLoop]
      split
      case h_1 hs => exact absurd (.inl hs) h
      case h_2 hs => exact absurd (.inr hs) h
      case h_3 => rfl
  rw [advanceReadFrontier, hloop]

theorem Tracks.not_pending_of_settled (h : Tracks vm l) (hs : l.Settled t) : vm.slot t ≠ some .pending := by
  by_cases ht : vm.readTs < t
  case pos =>
    have ⟨e, he, hp⟩ := hs
    rw [VersionManager.slot, h.agree t ht, he]
    simpa using hp
  case neg => exact h.stale t (by lia)

theorem Tracks.not_settled_next (h : Tracks vm l) (hn : ¬l.Settled (vm.readTs + 1)) :
    ¬vm.Settled (vm.readTs + 1) := by
  intro hs
  rw [VersionManager.Settled, VersionManager.slot, h.agree _ (Nat.lt_succ_self _)] at hs
  cases he : l.entries (vm.readTs + 1) with
  | none => simp [he] at hs
  | some e =>
    refine hn ((Ledger.settled_of_entries he).mpr fun hp => ?_)
    simp [he, hp] at hs

theorem Tracks.abortWriteTimestamp_eq (h : Tracks vm l) (hn : ¬l.Settled (vm.readTs + 1)) (hs : l.Settled t) :
    vm.abortWriteTimestamp t = vm := by
  rw [VersionManager.abortWriteTimestamp, finishWriteTimestamp,
    settleSlot_of_not_pending _ (h.not_pending_of_settled hs)]
  exact advanceReadFrontier_of_not_settled (h.not_settled_next hn)

-- A slot of the map that is settled is not touched by a publication.
theorem Tracks.settleCommit_eq (h : Tracks vm l) (hs : l.Settled t) (ht : vm.slot t ≠ none) (now : Instant) :
    vm.settleCommit t now = vm := by
  rw [VersionManager.settleCommit]
  split
  case h_1 a he => exact absurd (by simp [VersionManager.slot, he]) (h.not_pending_of_settled hs)
  case h_2 => rfl
  case h_3 he => simp [VersionManager.slot, he] at ht

-- Once a reservation is settled, settling it again changes nothing, unless it is published when the
-- frontier has passed the reserved timestamp and its slot is gone.
theorem settling_idempotent_iff (r : Run observedStep PublishesReserved (.new, .new) ops (vm, l))
    (hp : (start, commit) ∈ l.reserved) (hs : l.Settled start) (hc : l.Settled commit) (call : SettleCall) :
    vm.Unchanged (vm.apply (call.op start commit)).2 ↔ ∀ now, call = .publish now → vm.slot commit ≠ none := by
  obtain ⟨h, hn⟩ : Tracks vm l ∧ ¬l.Settled (vm.readTs + 1) := tracks_of_run r
  cases call with
  | abortStart =>
    rw [SettleCall.op, VersionManager.apply, h.abortWriteTimestamp_eq hn hs]
    exact iff_of_true ⟨rfl, rfl, rfl, rfl⟩ (by simp)
  | abortCommit =>
    rw [SettleCall.op, VersionManager.apply, h.abortWriteTimestamp_eq hn hc]
    exact iff_of_true ⟨rfl, rfl, rfl, rfl⟩ (by simp)
  | publish now =>
    rw [SettleCall.op, VersionManager.apply, VersionManager.publishReservedCommit,
      settleSlot_of_not_pending _ (h.not_pending_of_settled hs)]
    by_cases hslot : vm.slot commit = none
    case neg =>
      rw [h.settleCommit_eq hc hslot, advanceReadFrontier_of_not_settled (h.not_settled_next hn)]
      exact iff_of_true ⟨rfl, rfl, rfl, rfl⟩ fun _ _ => hslot
    case pos =>
      have he : vm.writeStates.entry commit = none := by simpa [VersionManager.slot] using hslot
      have hle : commit ≤ vm.readTs := by
        by_contra hgt
        exact (h.reserved _ hp).2 ((h.agree commit (by lia)).symm.trans he)
      refine iff_of_false (fun hu => ?_) fun hne => hne now rfl hslot
      -- the slot is back, below the frontier, where no advance removes it
      have hback := congrArg (·.entry commit) hu.writeStates
      rw [VersionManager.settleCommit, he] at hback
      rw [entry_advanceReadFrontier, if_neg, entry_insertSlot, if_pos rfl] at hback
      · cases hback
      · simp only [insertSlot]
        lia

end

-- A writer that commits while another one is still running: its slots stay in the map, and a second
-- publication changes nothing.
theorem settling_idempotent_held_frontier : ∃ vm l, Run observedStep PublishesReserved (.new, .new)
        [.acquireInsertTimestamp 0, .acquireInsertTimestamp 0, .reserveCommitTimestamp 3 0,
          .publishReservedCommit 3 4 0] (vm, l) ∧ vm.Unchanged (vm.publishReservedCommit 3 4 1) := by
  have r : Run observedStep PublishesReserved (.new, .new)
      [.acquireInsertTimestamp 0, .acquireInsertTimestamp 0, .reserveCommitTimestamp 3 0,
        .publishReservedCommit 3 4 0] _ :=
    .step trivial rfl <| .step trivial rfl <| .step trivial rfl <| .step (by exact List.mem_cons_self) rfl .refl
  have hp : ((3, 4) : Timestamp × Timestamp) ∈ [((3, 4) : Timestamp × Timestamp)] := List.mem_cons_self
  refine ⟨_, _, r, (settling_idempotent_iff r hp ?_ ?_ (.publish 1)).mpr ?_⟩
  · exact ⟨(0, .committed), rfl, by decide⟩
  · exact ⟨(0, .committed), rfl, by decide⟩
  · rintro _ -
    decide

-- A single writer that commits and publishes once more: the slot of its commit timestamp comes back.
theorem settling_idempotent_violated : ∃ vm l, Run observedStep PublishesReserved (.new, .new)
        [.acquireInsertTimestamp 0, .reserveCommitTimestamp 2 0, .publishReservedCommit 2 3 0] (vm, l) ∧
      vm.slot 3 = none ∧ (vm.publishReservedCommit 2 3 1).slot 3 = some .committed ∧
      ¬vm.Unchanged (vm.publishReservedCommit 2 3 1) := by
  refine ⟨_, _, .step trivial rfl <| .step trivial rfl <| .step (by exact List.mem_cons_self) rfl .refl, ?_, ?_, ?_⟩
  · decide
  · decide
  · intro h
    have := congrArg (fun states => (states.entry 3).map Prod.snd) h.writeStates
    revert this
    decide

section

variable {vm : VersionManager} {l : Ledger} {ts t : Timestamp} {st : WriteTimestampState} {now : Instant}

-- The timestamps handed out by `reserve_commit_timestamp`.
def Ledger.commits (l : Ledger) : List Timestamp :=
  l.reserved.map Prod.snd

-- The start timestamps whose slot is still pending. All other pending slots are reserved ones.
def pendingStarts (vm : VersionManager) (l : Ledger) : Finset Timestamp :=
  (Finset.range (vm.writeTs + 1)).filter fun t => vm.slot t = some .pending ∧ t ∉ l.commits

def PendingCommit (vm : VersionManager) (l : Ledger) (ts : Timestamp) : Prop :=
  vm.slot ts = some .pending ∧ ts ∈ l.commits

instance : Decidable (PendingCommit vm l ts) :=
  inferInstanceAs (Decidable (_ ∧ _))

-- No operation that takes a slot for that of a writer meets a reserved one: an abort, the start of a
-- publication or of an allocation, or the reaper.
def SettlesStarts : VersionManager × Ledger → WriteOp → Prop
  | (vm, l), .publishReservedCommit start _ _ => ¬PendingCommit vm l start
  | (vm, l), .abortWriteTimestamp ts => ¬PendingCommit vm l ts
  | (vm, l), .allocateCommitTimestamp start _ => vm.reserveTimestamp.isOk → ¬PendingCommit vm l start
  | (vm, l), .reapExpiredWriteTimestamps timeout owned now => ∀ ts ∈ vm.expired timeout owned now, ¬PendingCommit vm l ts
  | _, _ => True

def drift (s : VersionManager × Ledger) : ℤ :=
  (pendingStarts s.1 s.2).card - s.1.writePending.toInt

theorem mem_pendingStarts : t ∈ pendingStarts vm l ↔ t ≤ vm.writeTs ∧ vm.slot t = some .pending ∧ t ∉ l.commits := by
  rw [pendingStarts, Finset.mem_filter, Finset.mem_range, Nat.lt_succ_iff]

-- What keeps the counter within an `i32`: each pending slot is counted or takes one of the timestamps
-- handed out, and these are not too many.
structure Fits (vm : VersionManager) : Prop where
  pending : ∀ t, vm.slot t = some .pending → t ≤ vm.writeTs
  low : drift (vm, .new) ≤ vm.writeTs
  few : vm.writeTs + 2 < 2 ^ 31

theorem Fits.writePending_settleSlot (h : Fits vm) : (vm.settleSlot ts st).writePending.toInt =
    vm.writePending.toInt - if vm.slot ts = some .pending then 1 else 0 := by
  by_cases hp : vm.slot ts = some .pending
  case pos =>
    have ⟨a, ha⟩ := slot_pending_iff.mp hp
    have hc : 0 < (pendingStarts vm .new).card :=
      card_pos.mpr ⟨ts, mem_pendingStarts.mpr ⟨h.pending ts hp, hp, by simp [Ledger.commits, Ledger.new]⟩⟩
    have hl : (pendingStarts vm .new).card - vm.writePending.toInt ≤ vm.writeTs := h.low
    have := h.few
    have := vm.writePending.toInt_lt
    rw [settleSlot_of_pending st ha, if_pos hp, Int32.toInt_sub, Int32.toInt_one, Int.bmod_eq_of_le] <;> lia
  case neg => rw [settleSlot_of_not_pending st hp, if_neg hp, sub_zero]

theorem pendingStarts_settleSlot (hst : st ≠ .pending) :
    pendingStarts (vm.settleSlot ts st) l = (pendingStarts vm l).erase ts := by
  ext t
  simp only [mem_pendingStarts, writeTs_settleSlot, slot_settleSlot, mem_erase]
  grind

theorem Tracks.le_of_pending (h : Tracks vm l) (hp : vm.slot t = some .pending) : t ≤ vm.writeTs := by
  have ht : vm.readTs < t := by
    by_contra hle
    exact h.stale t (by lia) hp
  refine ((h.allocated t).mp fun hnone => ?_).2
  simp [VersionManager.slot, h.agree t ht, hnone] at hp

-- A settled writer leaves the counter as good as it was; a settled reservation takes one too many.
theorem Fits.drift_settleSlot (h : Fits vm) (hst : st ≠ .pending) :
    drift (vm.settleSlot ts st, l) = drift (vm, l) + if PendingCommit vm l ts then 1 else 0 := by
  simp only [drift, pendingStarts_settleSlot hst, h.writePending_settleSlot]
  by_cases hp : vm.slot ts = some .pending
  case neg =>
    have hm : ts ∉ pendingStarts vm l := fun hm => hp (mem_pendingStarts.mp hm).2.1
    rw [erase_eq_of_notMem hm, if_neg hp, if_neg fun hc => hp hc.1]
    lia
  case pos =>
    by_cases hc : ts ∈ l.commits
    case pos =>
      have hm : ts ∉ pendingStarts vm l := fun hm => (mem_pendingStarts.mp hm).2.2 hc
      rw [erase_eq_of_notMem hm, if_pos hp, if_pos ⟨hp, hc⟩]
      lia
    case neg =>
      have hm : ts ∈ pendingStarts vm l := mem_pendingStarts.mpr ⟨h.pending ts hp, hp, hc⟩
      have := card_pos.mpr ⟨ts, hm⟩
      rw [card_erase_of_mem hm, if_pos hp, if_neg fun h => hc h.2]
      lia

theorem Fits.settleSlot (h : Fits vm) (hst : st ≠ .pending) (ts : Timestamp) : Fits (vm.settleSlot ts st) where
  pending t hp := by
    rw [writeTs_settleSlot]
    rw [slot_settleSlot] at hp
    split at hp
    case isTrue => exact absurd (Option.some.inj hp) hst
    case isFalse => exact h.pending t hp
  low := by
    rw [h.drift_settleSlot hst, writeTs_settleSlot, if_neg (by simp [PendingCommit, Ledger.commits, Ledger.new])]
    exact (add_zero _).trans_le h.low
  few := by
    rw [writeTs_settleSlot]
    exact h.few

theorem drift_congr (hw : vm'.writeTs = vm.writeTs) (hn : vm'.writePending = vm.writePending)
    (hp : ∀ t, t ∉ l.commits → (vm'.slot t = some .pending ↔ vm.slot t = some .pending)) :
    drift (vm', l) = drift (vm, l) := by
  have hset : pendingStarts vm' l = pendingStarts vm l := by
    ext t
    rw [mem_pendingStarts, mem_pendingStarts, hw]
    have := hp t
    tauto
  rw [drift, drift, hset, hn]

theorem drift_congr_ledger (h : l'.reserved = l.reserved) : drift (vm, l') = drift (vm, l) := by
  have hset : pendingStarts vm l' = pendingStarts vm l := by
    ext t
    rw [mem_pendingStarts, mem_pendingStarts, Ledger.commits, Ledger.commits, h]
  rw [drift, drift, hset]

theorem drift_advanceReadFrontier : drift (vm.advanceReadFrontier, l) = drift (vm, l) :=
  drift_congr rfl rfl fun t _ => slot_advanceReadFrontier_pending vm t

theorem drift_settleCommit (hc : ts ∈ l.commits) : drift (vm.settleCommit ts now, l) = drift (vm, l) := by
  refine drift_congr (by simp) ?_ fun t ht => ?_
  · unfold VersionManager.settleCommit
    split <;> rfl
  · have hne : t ≠ ts := fun he => ht (he ▸ hc)
    unfold VersionManager.settleCommit
    split
    case h_1 => rw [slot_insertSlot, if_neg hne]
    case h_2 => rfl
    case h_3 => rw [slot_insertSlot, if_neg hne]

theorem Fits.drift_foldl_settleSlot (h : Fits vm) (hst : st ≠ .pending) (reaped : List Timestamp) :
    Fits (reaped.foldl (fun vm ts => vm.settleSlot ts st) vm) ∧
    drift (vm, l) ≤ drift (reaped.foldl (fun vm ts => vm.settleSlot ts st) vm, l) ∧
      (drift (reaped.foldl (fun vm ts => vm.settleSlot ts st) vm, l) = drift (vm, l) ↔
        ∀ ts ∈ reaped, ¬PendingCommit vm l ts) := by
  induction reaped generalizing vm with
  | nil => simp [h]
  | cons r reaped ind =>
    have hr : drift (vm.settleSlot r st, l) = drift (vm, l) + if PendingCommit vm l r then 1 else 0 :=
      h.drift_settleSlot hst
    have ⟨hfits, hle, hiff⟩ := ind (h.settleSlot hst r)
    have hother : ∀ ts, PendingCommit (vm.settleSlot r st) l ts ↔ ts ≠ r ∧ PendingCommit vm l ts := by
      intro ts
      rw [PendingCommit, PendingCommit, slot_settleSlot]
      grind
    rw [List.foldl_cons]
    by_cases hc : PendingCommit vm l r
    case pos =>
      exact ⟨hfits, by lia, iff_of_false (by lia) fun h => h r (.head _) hc⟩
    case neg =>
      rw [if_neg hc, add_zero] at hr
      rw [← hr, hiff, List.forall_mem_cons]
      refine ⟨hfits, hle, fun h => ⟨hc, fun ts hts hp => ?_⟩, fun h ts hts hp => h.2 ts hts ((hother ts).mp hp).2⟩
      exact h ts hts ((hother ts).mpr ⟨fun he => hc (he ▸ hp), hp⟩)

theorem Tracks.not_mem_commits (h : Tracks vm l) (ht : vm.writeTs < t) : t ∉ l.commits := by
  intro hm
  obtain ⟨p, hp, rfl⟩ := List.mem_map.mp hm
  have := ((h.allocated p.2).mp (h.reserved p hp).2).2
  lia

-- The counter is behind the number of pending slots, so it has room for one more.
theorem drift_openSlot (hc : vm.writeTs + 1 ∉ l.commits) (hn : vm.writePending.toInt + 1 < 2 ^ 31) :
    drift ({ vm with writeTs := vm.writeTs + 1 }.openSlot (vm.writeTs + 1) now, l) = drift (vm, l) := by
  have hset : pendingStarts ({ vm with writeTs := vm.writeTs + 1 }.openSlot (vm.writeTs + 1) now) l =
      insert (vm.writeTs + 1) (pendingStarts vm l) := by
    ext t
    have hw : ({ vm with writeTs := vm.writeTs + 1 }.openSlot (vm.writeTs + 1) now).writeTs = vm.writeTs + 1 := rfl
    have hs : ∀ t, { vm with writeTs := vm.writeTs + 1 }.slot t = vm.slot t := fun _ => rfl
    rw [mem_insert, mem_pendingStarts, mem_pendingStarts, slot_openSlot, hw, hs]
    grind
  have hm : vm.writeTs + 1 ∉ pendingStarts vm l := fun hm => by
    have := (mem_pendingStarts.mp hm).1
    lia
  have hw : ({ vm with writeTs := vm.writeTs + 1 }.openSlot (vm.writeTs + 1) now).writePending =
      vm.writePending + 1 := rfl
  have := vm.writePending.le_toInt
  rw [drift, drift, hset, card_insert_of_notMem hm, hw, Int32.toInt_add, Int32.toInt_one, Int.bmod_eq_of_le] <;> lia

-- A slot that is not counted, because it is settled or because it is a reserved one.
theorem drift_insertSlot
    (hc : ∀ t, t ∈ l'.commits ↔ t = vm.writeTs + 1 ∧ st = .pending ∨ t ∈ l.commits) :
    drift ({ vm with writeTs := vm.writeTs + 1 }.insertSlot (vm.writeTs + 1) now st, l') = drift (vm, l) := by
  have hset : pendingStarts ({ vm with writeTs := vm.writeTs + 1 }.insertSlot (vm.writeTs + 1) now st) l' =
      pendingStarts vm l := by
    ext t
    have hw : ({ vm with writeTs := vm.writeTs + 1 }.insertSlot (vm.writeTs + 1) now st).writeTs = vm.writeTs + 1 := rfl
    have hs : ∀ t, { vm with writeTs := vm.writeTs + 1 }.slot t = vm.slot t := fun _ => rfl
    rw [mem_pendingStarts, mem_pendingStarts, slot_insertSlot, hw, hs, hc]
    grind
  rw [drift, drift, hset]
  rfl

-- No slot becomes pending again, and those of new timestamps are not too many.
theorem low_of_slot (h : drift (vm, .new) ≤ vm.writeTs) (hn : vm'.writePending = vm.writePending)
    (hw : vm.writeTs ≤ vm'.writeTs) (hp : ∀ t ≤ vm.writeTs, vm'.slot t = some .pending → vm.slot t = some .pending) :
    drift (vm', .new) ≤ vm'.writeTs := by
  have hsub : pendingStarts vm' .new ⊆ pendingStarts vm .new ∪ Ioc vm.writeTs vm'.writeTs := by
    intro t ht
    obtain ⟨hle, hs, hc⟩ := mem_pendingStarts.mp ht
    by_cases hlt : t ≤ vm.writeTs
    · exact mem_union_left _ (mem_pendingStarts.mpr ⟨hlt, hp t hlt hs, hc⟩)
    · exact mem_union_right _ (mem_Ioc.mpr ⟨not_le.mp hlt, hle⟩)
  have hcard := (card_le_card hsub).trans (card_union_le ..)
  rw [Nat.card_Ioc] at hcard
  rw [drift, hn]
  rw [drift] at h
  lia

theorem low_advanceReadFrontier (h : drift (vm, .new) ≤ vm.writeTs) :
    drift (vm.advanceReadFrontier, .new) ≤ vm.advanceReadFrontier.writeTs :=
  drift_advanceReadFrontier.trans_le h

theorem low_insertSlot (h : drift (vm, .new) ≤ vm.writeTs) :
    drift ({ vm with writeTs := vm.writeTs + 1 }.insertSlot (vm.writeTs + 1) now st, .new) ≤
      ({ vm with writeTs := vm.writeTs + 1 }.insertSlot (vm.writeTs + 1) now st).writeTs := by
  refine low_of_slot h rfl (Nat.le_succ _) fun t ht hp => ?_
  rw [slot_insertSlot, if_neg (by lia)] at hp
  exact hp

theorem low_settleCommit (h : drift (vm, .new) ≤ vm.writeTs) :
    drift (vm.settleCommit ts now, .new) ≤ (vm.settleCommit ts now).writeTs := by
  refine low_of_slot h ?_ (by simp) fun t _ => ?_
  all_goals unfold VersionManager.settleCommit; split
  all_goals first | rfl | exact id | simp only [slot_insertSlot]
  all_goals split <;> simp

-- The counter only ever falls behind, and falls behind exactly when a reserved slot is taken for that
-- of a writer.
theorem Tracks.drift_step (h : Tracks vm l) (hf : Fits vm) (hd : 0 ≤ drift (vm, l))
    (ho : PublishesReserved (vm, l) op) :
    drift ((vm.apply op).2, .new) ≤ (vm.apply op).2.writeTs ∧
      drift (vm, l) ≤ drift ((vm.apply op).2, l.observe op (vm.apply op).1) ∧
      (drift ((vm.apply op).2, l.observe op (vm.apply op).1) = drift (vm, l) ↔ SettlesStarts (vm, l) op) := by
  have hkept {s : VersionManager × Ledger} {p : Prop} (he : drift s = drift (vm, l)) (hp : p) :
      drift (vm, l) ≤ drift s ∧ (drift s = drift (vm, l) ↔ p) :=
    ⟨he.ge, iff_of_true he hp⟩
  have hsettled {s : VersionManager × Ledger} {ts : Timestamp} {st : WriteTimestampState} (hst : st ≠ .pending)
      (he : drift s = drift (vm.settleSlot ts st, l)) :
      drift (vm, l) ≤ drift s ∧ (drift s = drift (vm, l) ↔ ¬PendingCommit vm l ts) := by
    rw [he, hf.drift_settleSlot hst]
    split
    case isTrue hc => exact ⟨by lia, iff_of_false (by lia) (not_not.mpr hc)⟩
    case isFalse hc => exact ⟨by lia, iff_of_true (by lia) hc⟩
  have hroom : vm.writePending.toInt + 1 < 2 ^ 31 := by
    have hc : (pendingStarts vm l).card ≤ vm.writeTs + 1 := (card_filter_le ..).trans (card_range _).le
    have hn : (0 : ℤ) ≤ (pendingStarts vm l).card - vm.writePending.toInt := hd
    have := hf.few
    lia
  have hacquire (now : Instant) : drift ((vm.outcome (vm.acquireInsertTimestamp now)).2, l) = drift (vm, l) ∧
      drift ((vm.outcome (vm.acquireInsertTimestamp now)).2, .new) ≤
        (vm.outcome (vm.acquireInsertTimestamp now)).2.writeTs := by
    cases hr : vm.acquireInsertTimestamp now with
    | error e => exact ⟨rfl, hf.low⟩
    | ok r =>
      obtain ⟨hts, hvm⟩ := acquireInsertTimestamp_ok hr
      rw [outcome, hvm, hts]
      refine ⟨drift_openSlot (h.not_mem_commits (Nat.lt_succ_self _)) hroom, ?_⟩
      refine (drift_openSlot (by simp [Ledger.commits, Ledger.new]) hroom).trans_le (hf.low.trans ?_)
      exact_mod_cast Nat.le_succ vm.writeTs
  cases op with
  | tryNextWriteTimestamp now =>
    refine ⟨(hacquire now).2, hkept ((drift_congr_ledger ?_).trans (hacquire now).1) trivial⟩
    cases (vm.apply (.tryNextWriteTimestamp now)).1 <;> rfl
  | acquireInsertTimestamp now =>
    refine ⟨(hacquire now).2, hkept ((drift_congr_ledger ?_).trans (hacquire now).1) trivial⟩
    cases (vm.apply (.acquireInsertTimestamp now)).1 <;> rfl
  | reserveCommitTimestamp start now =>
    rw [VersionManager.apply]
    cases hr : vm.reserveCommitTimestamp start now with
    | error e => exact ⟨hf.low, hkept rfl trivial⟩
    | ok r =>
      obtain ⟨_, hts, hvm⟩ := reserveCommitTimestamp_ok hr
      rw [outcome, hvm, hts]
      refine ⟨low_insertSlot hf.low, hkept (drift_insertSlot fun t => ?_) trivial⟩
      simp [Ledger.commits, Ledger.observe, Ledger.allocate]
  | publishReservedCommit start commit now =>
    have hc : commit ∈ l.commits := List.mem_map_of_mem (f := Prod.snd) ho
    exact ⟨low_advanceReadFrontier (low_settleCommit (hf.settleSlot (by simp) start).low),
      hsettled (by simp) (drift_advanceReadFrontier.trans (drift_settleCommit hc))⟩
  | abortWriteTimestamp ts =>
    exact ⟨low_advanceReadFrontier (hf.settleSlot (by simp) ts).low, hsettled (by simp) drift_advanceReadFrontier⟩
  | allocateCommitTimestamp start now =>
    rw [VersionManager.apply]
    cases hr : vm.allocateCommitTimestamp start now with
    | error e =>
      refine ⟨hf.low, hkept rfl fun hok => ?_⟩
      cases he : vm.reserveTimestamp with
      | error e => rw [he] at hok; cases hok
      | ok r => simp [VersionManager.allocateCommitTimestamp, he] at hr
    | ok r =>
      obtain ⟨hts, hvm⟩ := allocateCommitTimestamp_ok hr
      have hok : vm.reserveTimestamp.isOk := by
        cases he : vm.reserveTimestamp with
        | error e => simp [VersionManager.allocateCommitTimestamp, he] at hr
        | ok r => rfl
      rw [outcome, hvm, hts, settleSlot_setWriteTs, ← writeTs_settleSlot vm start .committed]
      have hs : drift (({ vm.settleSlot start .committed with
          writeTs := (vm.settleSlot start .committed).writeTs + 1 }.insertSlot
          ((vm.settleSlot start .committed).writeTs + 1) now .committed).advanceReadFrontier, l) =
          drift (vm.settleSlot start .committed, l) :=
        drift_advanceReadFrontier.trans (drift_insertSlot fun t => by simp)
      obtain ⟨hle, hiff⟩ := hsettled (by simp) hs
      refine ⟨low_advanceReadFrontier (low_insertSlot (hf.settleSlot (by simp) start).low), ?_⟩
      rw [drift_congr_ledger (by rfl)]
      exact ⟨hle, hiff.trans ⟨fun hc _ => hc, fun hc => hc hok⟩⟩
  | reapExpiredWriteTimestamps timeout owned now =>
    obtain ⟨hfits, hfold⟩ := hf.drift_foldl_settleSlot (l := l) (show .aborted ≠ WriteTimestampState.pending by simp)
      (vm.expired timeout owned now)
    simp only [VersionManager.apply, VersionManager.reapExpiredWriteTimestamps]
    split
    case isTrue => exact ⟨hfits.low, hfold⟩
    case isFalse =>
      refine ⟨low_advanceReadFrontier hfits.low, ?_⟩
      rw [show drift (VersionManager.advanceReadFrontier _, _) = _ from drift_advanceReadFrontier]
      exact hfold

-- The calls on a manager that has handed out few enough timestamps for an `i32`.
def Counted (s : VersionManager × Ledger) (op : WriteOp) : Prop :=
  PublishesReserved s op ∧ s.1.writeTs + 2 < 2 ^ 31

-- The counter is the number of pending start timestamps exactly in the runs in which no reserved slot
-- is taken for that of a writer.
theorem pending_counter_exact_iff {ops : List WriteOp} (r : Run observedStep Counted (.new, .new) ops (vm, l)) :
    vm.writePending.toInt = (pendingStarts vm l).card ↔
      Run observedStep (fun s op => Counted s op ∧ SettlesStarts s op) (.new, .new) ops (vm, l) := by
  have hnew : drift (.new, .new) = 0 := by decide
  rw [← r.measure_eq_iff_within (μ := drift) (P := fun s => (Tracks s.1 s.2 ∧ ¬s.2.Settled (s.1.readTs + 1)) ∧
    0 ≤ drift s ∧ drift (s.1, .new) ≤ s.1.writeTs) ?_ ?_, hnew, drift]
  · constructor <;> intro h <;> lia
  · rintro s op _ ⟨⟨h, hn⟩, hd, hl⟩ ⟨ho, hf⟩ he
    cases he
    have ⟨hl', hle, hiff⟩ := h.drift_step ⟨fun t => h.le_of_pending, hl, hf⟩ hd ho
    exact ⟨⟨h.step hn ho, hd.trans hle, hl'⟩, hle, hiff⟩
  · exact ⟨⟨.new, by simp [Ledger.Settled, Ledger.new]⟩, hnew.ge, hnew.trans_le (by simp)⟩

end

-- Two writers, one of which commits, while the other is aborted before it reserved anything.
theorem pending_counter_exact_commit_and_abort : ∃ vm l, Run observedStep Counted (.new, .new)
        [.acquireInsertTimestamp 0, .tryNextWriteTimestamp 0, .reserveCommitTimestamp 2 0, .abortWriteTimestamp 3,
          .publishReservedCommit 2 4 0, .acquireInsertTimestamp 1] (vm, l) ∧
      vm.writePending.toInt = (pendingStarts vm l).card := by
  have r : Run observedStep (fun s op => Counted s op ∧ SettlesStarts s op) (.new, .new)
      [.acquireInsertTimestamp 0, .tryNextWriteTimestamp 0, .reserveCommitTimestamp 2 0, .abortWriteTimestamp 3,
        .publishReservedCommit 2 4 0, .acquireInsertTimestamp 1] _ :=
    .step ⟨⟨trivial, by decide⟩, trivial⟩ rfl <| .step ⟨⟨trivial, by decide⟩, trivial⟩ rfl <| .step ⟨⟨trivial, by decide⟩, trivial⟩ rfl <|
      .step ⟨⟨trivial, by decide⟩, by simp only [SettlesStarts]; decide⟩ rfl <|
      .step ⟨⟨by exact List.mem_cons_self, by decide⟩, by simp only [SettlesStarts]; decide⟩ rfl <|
      .step ⟨⟨trivial, by decide⟩, trivial⟩ rfl .refl
  exact ⟨_, _, r.mono fun _ _ h => h.1, (pending_counter_exact_iff (r.mono fun _ _ h => h.1)).mpr r⟩

-- A commit that fails after the reservation: the manager aborts both timestamps.
theorem pending_counter_negative : ∃ vm l, Run observedStep Counted (.new, .new)
        [.acquireInsertTimestamp 0, .reserveCommitTimestamp 2 0, .abortWriteTimestamp 2, .abortWriteTimestamp 3] (vm, l) ∧
      vm.writePending = -1 ∧ pendingStarts vm l = ∅ ∧ vm.writePending.toInt ≠ (pendingStarts vm l).card := by
  refine ⟨_, _, .step ⟨trivial, by decide⟩ rfl <| .step ⟨trivial, by decide⟩ rfl <|
    .step ⟨trivial, by decide⟩ rfl <| .step ⟨trivial, by decide⟩ rfl .refl, ?_, ?_, ?_⟩
  all_goals decide

end Linkrs
