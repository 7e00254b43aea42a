import Linkrs.Mvcc.Frontier

namespace Linkrs

open Transition

structure PendingGate where
  manager : VersionManager
  ownWrite : Option Timestamp

namespace PendingGate

def isForeignPending (g : PendingGate) (snapshot stamp : Timestamp) : Bool :=
  if snapshot < stamp then false
  else if stamp ≤ g.manager.readTs then false
  else if some stamp = g.ownWrite then false
  else match g.manager.timestampSlot stamp with
    | .pending | .aborted => true
    | .committed | .vanished => false

def isCreateVisible (g : PendingGate) (snapshot createTs : Timestamp) : Bool :=
  if snapshot < createTs then false
  else if createTs ≤ g.manager.readTs then true
  else if some createTs = g.ownWrite then true
  else match g.manager.timestampSlot createTs with
    | .committed | .vanished => true
    | .pending | .aborted => false

def effectiveDelete (g : PendingGate) (snapshot : Timestamp) : Option Timestamp → Option Timestamp
  | none => none
  | some deleteTs =>
    if snapshot < deleteTs then none
    else if deleteTs ≤ g.manager.readTs then some deleteTs
    else if some deleteTs = g.ownWrite then some deleteTs
    else match g.manager.timestampSlot deleteTs with
      | .committed | .vanished => some deleteTs
      | .pending | .aborted => none

def isRowVisible (g : PendingGate) (snapshot createTs : Timestamp) (deleteTs : Option Timestamp) : Bool :=
  if g.isCreateVisible snapshot createTs then (g.effectiveDelete snapshot deleteTs).isNone
  else false

-- `Timestamp::MAX` marks an edge that is not deleted.
def isEdgeVisible (g : PendingGate) (snapshot createTs deleteTs : Timestamp) : Bool :=
  g.isRowVisible snapshot createTs (if deleteTs = invalidTimestamp then none else some deleteTs)

-- At or below the frontier, and above the snapshot, the slot map is not consulted.
theorem isRowVisible_congr {g g' : PendingGate}
    (hc : snapshot < createTs ∨ createTs ≤ g.manager.readTs ∧ createTs ≤ g'.manager.readTs)
    (hd : ∀ d ∈ deleteTs, snapshot < d ∨ d ≤ g.manager.readTs ∧ d ≤ g'.manager.readTs) :
    g.isRowVisible snapshot createTs deleteTs = g'.isRowVisible snapshot createTs deleteTs := by
  have h₁ : g.isCreateVisible snapshot createTs = g'.isCreateVisible snapshot createTs := by
    obtain h | ⟨h, h'⟩ := hc <;> simp_all [isCreateVisible]
  have h₂ : g.effectiveDelete snapshot deleteTs = g'.effectiveDelete snapshot deleteTs := by
    cases deleteTs with
    | none => rfl
    | some d => obtain h | ⟨h, h'⟩ := hd d rfl <;> simp_all [effectiveDelete]
  rw [isRowVisible, isRowVisible, h₁, h₂]

theorem isCreateVisible_of_pending {g : PendingGate} (hr : g.manager.readTs < ts) (ho : g.ownWrite ≠ some ts)
    (hp : g.manager.slot ts = some .pending) : g.isCreateVisible snapshot ts = false := by
  have hr' : ¬ts ≤ g.manager.readTs := by lia
  simp [isCreateVisible, hr', ho.symm, VersionManager.timestampSlot, hp]

theorem isCreateVisible_of_le {g : PendingGate}
    (hs : ts ≤ snapshot) (hr : ts ≤ g.manager.readTs) : g.isCreateVisible snapshot ts = true := by
  have hs' : ¬snapshot < ts := by lia
  simp [isCreateVisible, hs', hr]

@[simp]
theorem isRowVisible_none (g : PendingGate) (snapshot createTs : Timestamp) :
    g.isRowVisible snapshot createTs none = g.isCreateVisible snapshot createTs := by
  simp [isRowVisible, effectiveDelete]

end PendingGate

-- The operations another transaction, or the reaper, may perform while the transaction that began
-- at `start` is running: none of them is applied to its timestamp.
def ByOthers (start : Timestamp) : WriteOp → Prop
  | .tryNextWriteTimestamp _ => True
  | .acquireInsertTimestamp _ => True
  | .reserveCommitTimestamp s _ => s ≠ start
  | .publishReservedCommit s c _ => s ≠ start ∧ c ≠ start
  | .abortWriteTimestamp ts => ts ≠ start
  | .allocateCommitTimestamp s _ => s ≠ start
  | .reapExpiredWriteTimestamps _ owned _ => start ∈ owned

-- A write transaction reads at its own timestamp, through a gate that lets its own writes pass.
-- Its reads are repeatable if nothing the others do changes what it sees of their stamps.
def RepeatableReads (vm : VersionManager) (l : Ledger) (start : Timestamp) : Prop :=
  ∀ ops s,
    Run observedStep (fun s op => PublishesReserved s op ∧ ByOthers start op) (vm, l) ops s →
    ∀ createTs deleteTs, createTs ≠ start → deleteTs ≠ some start →
      PendingGate.isRowVisible ⟨s.1, some start⟩ start createTs deleteTs =
      PendingGate.isRowVisible ⟨vm, some start⟩ start createTs deleteTs

section

variable {vm vmB : VersionManager} {l : Ledger} {start : Timestamp} {now : Instant}

theorem readTs_le_of_run {ok} (r : Run observedStep ok s ops s') : s.1.readTs ≤ s'.1.readTs := by
  refine r.related (P := fun _ => True) (R := fun s s' => s.1.readTs ≤ s'.1.readTs)
    (fun _ => le_refl _) le_trans ?_ trivial
  rintro s op _ - - he
  cases he
  exact ⟨trivial, s.1.readTs_le_apply op⟩

-- Aborting the first timestamp above the frontier moves the frontier past it.
theorem Tracks.readTs_lt_abort (h : Tracks vm l) (ha : l.Allocated (vm.readTs + 1)) :
    vm.readTs < (vm.abortWriteTimestamp (vm.readTs + 1)).readTs := by
  have hs : Tracks _ (l.settle (vm.readTs + 1) .aborted) := h.settleSlot (vm.readTs + 1)
  have hle := vm.readTs_le_apply (.abortWriteTimestamp (vm.readTs + 1))
  refine lt_of_le_of_ne hle fun he => hs.advanceReadFrontier.2 ?_
  have ⟨e, he'⟩ := Option.ne_none_iff_exists'.mp ha
  have he : (vm.settleSlot (vm.readTs + 1) .aborted).advanceReadFrontier.readTs = vm.readTs :=
    he.symm
  rw [he]
  by_cases hp : e.2 = .pending
  all_goals simp [Ledger.Settled, Ledger.settle, Ledger.settleWhere, he', VersionManager.settleEntry, hp]

-- What a transaction that has just begun sees is stable exactly if no write was unsettled when it
-- began, that is, if the frontier had reached the last timestamp handed out.
theorem repeatable_reads_iff {ops : List WriteOp} (r : Run observedStep PublishesReserved (.new, .new) ops (vm, l))
    (hb : vm.acquireInsertTimestamp now = .ok (start, vmB)) :
    RepeatableReads vmB (l.observe (.acquireInsertTimestamp now) (some start)) start ↔ vm.readTs = vm.writeTs := by
  have ⟨h, hn⟩ : Tracks vm l ∧ ¬l.Settled (vm.readTs + 1) := tracks_of_run r
  have ⟨h', hn'⟩ := h.acquireInsertTimestamp hn hb
  have ⟨hs, hB⟩ := VersionManager.acquireInsertTimestamp_ok hb
  have hr : vmB.readTs = vm.readTs := by rw [hB]; rfl
  constructor
  case mpr =>
    -- Every foreign stamp is at or below the frontier, or after the snapshot.
    intro he ops s r createTs deleteTs hc hd
    have hle : vmB.readTs ≤ s.1.readTs := readTs_le_of_run r
    have hf : ∀ t, t ≠ start → start < t ∨ t ≤ s.1.readTs ∧ t ≤ vmB.readTs := by
      lia
    exact PendingGate.isRowVisible_congr (hf _ hc) fun d hd' => hf d fun he => hd (he ▸ hd')
  case mp =>
    intro hrep
    by_contra hne
    have hlt : vm.readTs < vm.writeTs := lt_of_le_of_ne h.bound hne
    -- The first timestamp above the frontier is pending.
    have hal := (h.allocated (vm.readTs + 1)).mpr ⟨by have := h.base; lia, hlt⟩
    have ha' : (l.allocate start now .pending).Allocated (vmB.readTs + 1) :=
      Ledger.allocated_allocate.mpr <| .inr <| hr ▸ hal
    have hp : vmB.slot (vmB.readTs + 1) = some .pending := by
      have ⟨e, he⟩ := Option.ne_none_iff_exists'.mp ha'
      rw [Ledger.settled_of_entries he, not_not] at hn'
      rw [VersionManager.slot, h'.agree _ (Nat.lt_succ_self _), he, Option.map_some, hn']
    -- One abort by another transaction is enough to let its stamp pass.
    have hlt' := h'.readTs_lt_abort ha'
    have ho : ByOthers start (.abortWriteTimestamp (vmB.readTs + 1)) := by
      simp only [ByOthers]
      lia
    have hvis := hrep [.abortWriteTimestamp (vmB.readTs + 1)] _ (.single ⟨trivial, ho⟩ rfl)
      (vmB.readTs + 1) none ho (by simp)
    have hc : PendingGate.isCreateVisible ⟨vmB, some start⟩ start (vmB.readTs + 1) = false :=
      PendingGate.isCreateVisible_of_pending (Nat.lt_succ_self _) (by simpa using ho.symm) hp
    have hc' : PendingGate.isCreateVisible ⟨vmB.abortWriteTimestamp (vmB.readTs + 1), some start⟩
        start (vmB.readTs + 1) = true :=
      PendingGate.isCreateVisible_of_le (by lia) hlt'
    rw [PendingGate.isRowVisible_none, PendingGate.isRowVisible_none, hc] at hvis
    exact Bool.noConfusion <| hc'.symm.trans hvis

end

theorem repeatable_reads_first_writer : ∃ vmB, VersionManager.new.acquireInsertTimestamp 0 = .ok (2, vmB) ∧
      RepeatableReads vmB (Ledger.new.observe (.acquireInsertTimestamp 0) (some 2)) 2 :=
  ⟨_, rfl, (repeatable_reads_iff .refl rfl).mpr rfl⟩

-- The second of two writers does not see a row of the first, until the first commits.
theorem repeatable_reads_violated : ∃ vm l vmB,
      Run observedStep PublishesReserved (.new, .new) [.acquireInsertTimestamp 0] (vm, l) ∧
      vm.acquireInsertTimestamp 0 = .ok (3, vmB) ∧ PendingGate.isRowVisible ⟨vmB, some 3⟩ 3 2 none = false ∧
      (∃ s, Run observedStep (fun s op => PublishesReserved s op ∧ ByOthers 3 op)
          (vmB, l.observe (.acquireInsertTimestamp 0) (some 3))
          [.reserveCommitTimestamp 2 0, .publishReservedCommit 2 4 0] s ∧
        PendingGate.isRowVisible ⟨s.1, some 3⟩ 3 2 none = true) ∧
      ¬RepeatableReads vmB (l.observe (.acquireInsertTimestamp 0) (some 3)) 3 := by
  refine ⟨_, _, _, .single trivial rfl, rfl, rfl, ⟨_, .step ⟨trivial, ?_⟩ rfl <|
    .step ⟨?_, ?_⟩ rfl .refl, rfl⟩, fun h => ?_⟩
  case refine_4 =>
    have := h [.reserveCommitTimestamp 2 0, .publishReservedCommit 2 4 0] _
      (.step ⟨trivial, by simp [ByOthers]⟩ rfl <|
        .step ⟨by exact List.mem_cons_self, by simp [ByOthers]⟩ rfl .refl)
      2 none (by decide) (by decide)
    exact Bool.noConfusion this
  case refine_2 => exact List.mem_cons_self
  all_goals simp [ByOthers]

end Linkrs
