import Linkrs.Mvcc.PendingGate

namespace Linkrs

structure EdgeTimestamps where
  createTs : Timestamp
  deleteTs : Timestamp

-- The segments as one map. The cached counts are left out.
def AuthorityMap : Type :=
  UInt64 → Option EdgeTimestamps

inductive AuthorityOp where
  | recordCreation (edgeId : UInt64) (createTs : Timestamp)
  | recordDeletion (edgeId : UInt64) (deleteTs : Timestamp)
  | revive (edgeId : UInt64)

namespace AuthorityMap

def new : AuthorityMap :=
  fun _ => none

variable (m : AuthorityMap)

def recordCreation (edgeId : UInt64) (createTs : Timestamp) : AuthorityMap :=
  if isAllocatableTimestamp createTs then
    Function.update m edgeId (some ⟨createTs, invalidTimestamp⟩)
  else
    m

-- The earliest deletion wins. An edge without stamps is left alone.
def recordDeletion (edgeId : UInt64) (deleteTs : Timestamp) : AuthorityMap :=
  Function.update m edgeId
    ((m edgeId).map fun stamps => { stamps with deleteTs := min stamps.deleteTs deleteTs })

def revive (edgeId : UInt64) : AuthorityMap :=
  Function.update m edgeId
    ((m edgeId).map fun stamps => { stamps with deleteTs := invalidTimestamp })

def apply : AuthorityOp → AuthorityMap
  | .recordCreation edgeId createTs => m.recordCreation edgeId createTs
  | .recordDeletion edgeId deleteTs => m.recordDeletion edgeId deleteTs
  | .revive edgeId => m.revive edgeId

def isEdgeVisibleWithGate (edgeId : UInt64) (ts : Timestamp) (gate : PendingGate) : Bool :=
  match m edgeId with
  | some stamps =>
    if stamps.deleteTs ≠ invalidTimestamp ∧ stamps.deleteTs ≤ ts ∧
        gate.isForeignPending ts stamps.deleteTs then
      true
    else
      gate.isEdgeVisible ts stamps.createTs stamps.deleteTs
  | none => false

end AuthorityMap

namespace EdgeTimestamps

variable (stamps : EdgeTimestamps) (gate : PendingGate) (ts : Timestamp)

def Created : Prop :=
  stamps.createTs ≤ ts ∧ ¬gate.isForeignPending ts stamps.createTs

def Deleted : Prop :=
  stamps.deleteTs ≠ invalidTimestamp ∧ stamps.deleteTs ≤ ts ∧
    ¬gate.isForeignPending ts stamps.deleteTs

-- The deletion is one that another transaction has not committed.
def DeletedByOther : Prop :=
  stamps.deleteTs ≠ invalidTimestamp ∧ stamps.deleteTs ≤ ts ∧
    gate.isForeignPending ts stamps.deleteTs

end EdgeTimestamps

section

variable {gate : PendingGate} {ts stamp : Timestamp} {stamps : EdgeTimestamps}

theorem PendingGate.isCreateVisible_iff :
    gate.isCreateVisible ts stamp ↔ stamp ≤ ts ∧ ¬gate.isForeignPending ts stamp := by
  unfold isCreateVisible isForeignPending
  by_cases hs : ts < stamp
  case pos => simp [hs, not_le.mpr hs]
  case neg =>
    have hle : stamp ≤ ts := not_lt.mp hs
    simp only [hs, hle, if_false, true_and]
    split_ifs <;> simp
    cases gate.manager.timestampSlot stamp <;> simp

theorem PendingGate.effectiveDelete_isNone_iff : (gate.effectiveDelete ts (some stamp)).isNone ↔
      ¬(stamp ≤ ts ∧ ¬gate.isForeignPending ts stamp) := by
  rw [← isCreateVisible_iff, effectiveDelete, isCreateVisible]
  split_ifs <;> simp
  cases gate.manager.timestampSlot stamp <;> simp

theorem PendingGate.isEdgeVisible_iff : gate.isEdgeVisible ts stamps.createTs stamps.deleteTs ↔
      stamps.Created gate ts ∧ ¬stamps.Deleted gate ts := by
  unfold isEdgeVisible EdgeTimestamps.Created EdgeTimestamps.Deleted
  rw [← isCreateVisible_iff, isRowVisible]
  cases gate.isCreateVisible ts stamps.createTs with
  | false => simp
  | true =>
    by_cases hd : stamps.deleteTs = invalidTimestamp
    case pos => simp [hd, effectiveDelete]
    case neg =>
      rw [if_pos rfl, if_neg hd, effectiveDelete_isNone_iff]
      simp [hd]

end

-- An edge is seen exactly if it was created and not deleted, as far as the reader is concerned,
-- unless another transaction is deleting an edge that the reader must not see yet.
theorem gated_visibility_iff (ops : List AuthorityOp) (edgeId : UInt64) (ts : Timestamp)
    (gate : PendingGate) : ((ops.foldl AuthorityMap.apply .new).isEdgeVisibleWithGate edgeId ts gate ↔
      ∃ stamps ∈ ops.foldl AuthorityMap.apply .new edgeId, stamps.Created gate ts ∧ ¬stamps.Deleted gate ts) ↔
    ∀ stamps ∈ ops.foldl AuthorityMap.apply .new edgeId,
      stamps.DeletedByOther gate ts → stamps.Created gate ts := by
  rw [AuthorityMap.isEdgeVisibleWithGate]
  cases ops.foldl AuthorityMap.apply .new edgeId with
  | none => simp
  | some stamps =>
    simp only [Option.mem_some_iff, exists_eq_left', forall_eq']
    split
    case isTrue hd =>
      have hd : stamps.DeletedByOther gate ts := hd
      have hn : ¬stamps.Deleted gate ts := fun h => h.2.2 hd.2.2
      simp [hd, hn]
    case isFalse hd => exact ⟨fun _ h => absurd h hd, fun _ => PendingGate.isEdgeVisible_iff⟩

-- The second of two writers sees an edge that the first one has created and deleted.
theorem gated_visibility_violated : ∃ vm vm', VersionManager.new.acquireInsertTimestamp 0 = .ok (2, vm) ∧
      vm.acquireInsertTimestamp 0 = .ok (3, vm') ∧ PendingGate.isForeignPending ⟨vm', some 3⟩ 3 2 ∧
      ([.recordCreation 7 2, .recordDeletion 7 2].foldl AuthorityMap.apply
        .new).isEdgeVisibleWithGate 7 3 ⟨vm', some 3⟩ :=
  ⟨_, _, rfl, rfl, rfl, rfl⟩

end Linkrs
