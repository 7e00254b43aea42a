import Mathlib.Data.List.AList
import Mathlib.Data.Multiset.AddSub
import Linkrs.Core.Ids
import Linkrs.Lib.Transition

namespace Linkrs

open AList

-- The first key of the ordered snapshot map, or the sentinel if it is empty.
def minKey (keys : List Timestamp) : Timestamp :=
  keys.foldr min invalidTimestamp

@[simp]
theorem minKey_cons (ts : Timestamp) (keys : List Timestamp) : minKey (ts :: keys) = min ts (minKey keys) :=
  rfl

theorem minKey_perm (h : ks.Perm ks') : minKey ks = minKey ks' :=
  h.foldr_eq _

theorem minKey_erase (h : minKey ks ≠ ts) : minKey (ks.erase ts) = minKey ks := by
  by_cases hm : ts ∈ ks
  case pos =>
    have := minKey_perm (List.perm_cons_erase hm)
    rw [minKey_cons] at this
    lia
  case neg => rw [List.erase_of_not_mem hm]

-- Reference counts of the active snapshots, their timestamps once more in the ordered map that answers
-- minimum queries (every value in it is 1), and the cached minimum.
structure SnapshotTracker where
  snapshots : AList fun _ : Timestamp => ℕ
  orderedSnapshots : AList fun _ : Timestamp => ℕ
  minActive : Timestamp

namespace SnapshotTracker

def new : SnapshotTracker where
  snapshots := ∅
  orderedSnapshots := ∅
  minActive := invalidTimestamp

def addSnapshot (t : SnapshotTracker) (ts : Timestamp) : SnapshotTracker :=
  match t.snapshots.lookup ts with
  | some n => { t with snapshots := t.snapshots.insert ts (n + 1) }
  | none => {
      snapshots := t.snapshots.insert ts 1
      orderedSnapshots := t.orderedSnapshots.insert ts 1
      minActive := min t.minActive ts
    }

-- `none` is the error "Snapshot {ts} not found".
def releaseSnapshot (t : SnapshotTracker) (ts : Timestamp) : Option SnapshotTracker :=
  match t.snapshots.lookup ts with
  | none => none
  | some n =>
    if n - 1 = 0 then
      let ordered := t.orderedSnapshots.erase ts
      some {
        snapshots := t.snapshots.erase ts
        orderedSnapshots := ordered
        minActive := if t.minActive = ts then minKey ordered.keys else t.minActive
      }
    else some { t with snapshots := t.snapshots.insert ts (n - 1) }

def minActiveSnapshot (t : SnapshotTracker) : Timestamp :=
  t.minActive

def refCount (t : SnapshotTracker) (ts : Timestamp) : ℕ :=
  (t.snapshots.lookup ts).getD 0

-- The release done by the version manager, which ignores an unknown snapshot.
def release (t : SnapshotTracker) (ts : Timestamp) : SnapshotTracker :=
  (t.releaseSnapshot ts).getD t

theorem getD_lookup_insert {m : AList fun _ : Timestamp => ℕ} :
    ((m.insert ts n).lookup ts').getD 0 = if ts' = ts then n else (m.lookup ts').getD 0 := by
  split
  case isTrue h => subst h; simp
  case isFalse h => rw [lookup_insert_ne h]

theorem refCount_addSnapshot (t : SnapshotTracker) (ts ts' : Timestamp) :
    (t.addSnapshot ts).refCount ts' = t.refCount ts' + if ts' = ts then 1 else 0 := by
  unfold addSnapshot
  split
  all_goals
    simp only [refCount, getD_lookup_insert]
    split
  case h_1.isTrue h he => subst he; simp [h]
  case h_2.isTrue h he => subst he; simp [h]
  all_goals rfl

theorem refCount_release (t : SnapshotTracker) (ts ts' : Timestamp) :
    (t.release ts).refCount ts' = t.refCount ts' - if ts' = ts then 1 else 0 := by
  unfold release releaseSnapshot
  split
  case h_1 h =>
    split
    case isTrue he => subst he; simp [refCount, h]
    case isFalse => rfl
  case h_2 n h =>
    split
    case isTrue hn =>
      simp only [refCount, Option.getD_some]
      split
      case isTrue he => subst he; simp [h, hn]
      case isFalse he => simp [lookup_erase_ne he]
    case isFalse =>
      simp only [refCount, Option.getD_some, getD_lookup_insert]
      split
      case isTrue he => subst he; simp [h]
      case isFalse => rfl

-- Every count is of a reference that is held, the ordered map has the timestamps of the counts, and the
-- cached minimum is its first key.
structure Consistent (t : SnapshotTracker) : Prop where
  counts_pos : ∀ {ts n}, t.snapshots.lookup ts = some n → 0 < n
  ordered : ∀ {ts}, ts ∈ t.orderedSnapshots ↔ ts ∈ t.snapshots
  min_eq : t.minActive = minKey t.orderedSnapshots.keys

theorem Consistent.new : new.Consistent where
  counts_pos := by simp [SnapshotTracker.new]
  ordered := Iff.rfl
  min_eq := rfl

namespace Consistent

theorem counts_pos_insert (h : Consistent t) (hn : 0 < n) (hl : (t.snapshots.insert ts n).lookup ts' = some n') :
    0 < n' := by
  by_cases he : ts' = ts
  case pos =>
    subst he
    rw [lookup_insert] at hl
    exact Option.some.inj hl ▸ hn
  case neg => exact h.counts_pos <| (lookup_insert_ne he).symm.trans hl

theorem setCount (h : Consistent t) (hn : 0 < n) (hm : ts ∈ t.snapshots) :
    Consistent { t with snapshots := t.snapshots.insert ts n } where
  counts_pos := h.counts_pos_insert hn
  ordered {ts'} := by
    rw [h.ordered, AList.mem_insert, iff_or_self]
    exact fun he => he ▸ hm
  min_eq := h.min_eq

theorem addSnapshot (h : Consistent t) (ts : Timestamp) : (t.addSnapshot ts).Consistent := by
  unfold SnapshotTracker.addSnapshot
  split
  case h_1 n hl => exact h.setCount n.succ_pos (lookup_isSome.mp <| by simp [hl])
  case h_2 hl =>
    refine ⟨h.counts_pos_insert Nat.one_pos, by simp [AList.mem_insert, h.ordered], ?_⟩
    have hm := mem_keys.not.mp <| h.ordered.not.mpr (lookup_eq_none.mp hl)
    rw [keys_insert, List.erase_of_not_mem hm, minKey_cons, h.min_eq, min_comm]

theorem release (h : Consistent t) (ts : Timestamp) : (t.release ts).Consistent := by
  unfold SnapshotTracker.release releaseSnapshot
  split
  case h_1 => exact h
  case h_2 n hl =>
    split
    case isFalse hn => exact h.setCount (by omega) (lookup_isSome.mp <| by simp [hl])
    case isTrue =>
      refine ⟨fun {ts' n'} hl' => ?_, by simp [AList.mem_erase, h.ordered], ?_⟩
      · by_cases he : ts' = ts
        case pos => subst he; simp at hl'
        case neg => exact h.counts_pos <| (lookup_erase_ne he).symm.trans hl'
      · simp only [Option.getD_some]
        split
        case isTrue => rfl
        case isFalse hm => rw [keys_erase, minKey_erase (h.min_eq ▸ hm), h.min_eq]

theorem mem_keys_iff (h : Consistent t) : ts ∈ t.orderedSnapshots.keys ↔ 0 < t.refCount ts := by
  rw [← mem_keys, h.ordered, ← lookup_isSome, refCount]
  cases hl : t.snapshots.lookup ts with
  | none => simp
  | some n => simpa using h.counts_pos hl

end Consistent

theorem minKey_le (h : ts ∈ ks) : minKey ks ≤ ts := by
  rw [minKey_perm (List.perm_cons_erase h)]
  exact min_le_left _ _

theorem minKey_mem (hn : ks ≠ []) (hk : ∀ ts ∈ ks, ts ≤ invalidTimestamp) : minKey ks ∈ ks := by
  induction ks with
  | nil => contradiction
  | cons ts ks ind =>
    have ⟨h, hs⟩ := List.forall_mem_cons.mp hk
    rw [minKey_cons]
    by_cases hks : ks = []
    · simp [hks, minKey, h]
    · obtain hm | hm := min_choice ts (minKey ks) <;> rw [hm]
      · exact List.mem_cons_self
      · exact List.mem_cons_of_mem _ (ind hks hs)

theorem Consistent.minActive_le (h : Consistent t) (hp : 0 < t.refCount ts) : t.minActive ≤ ts := by
  rw [h.min_eq]
  exact minKey_le (h.mem_keys_iff.mpr hp)

section

inductive Call where
  | addSnapshot (ts : Timestamp)
  | releaseSnapshot (ts : Timestamp)

-- The tracker, beside the timestamps that were added and not yet released.
def step : SnapshotTracker × Multiset Timestamp → Call → Option (SnapshotTracker × Multiset Timestamp)
  | (t, m), .addSnapshot ts => some (t.addSnapshot ts, ts ::ₘ m)
  | (t, m), .releaseSnapshot ts => (t.releaseSnapshot ts).map (·, m.erase ts)

-- Timestamps are of 64 bits.
def Admits (s : SnapshotTracker × Multiset Timestamp) : Call → Prop
  | .addSnapshot ts => ts ≤ invalidTimestamp
  | .releaseSnapshot ts => ts ∈ s.2

instance : ∀ c, Decidable (Admits s c)
  | .addSnapshot ts => Nat.decLe ts invalidTimestamp
  | .releaseSnapshot ts => Multiset.decidableMem ts s.2

-- `m` holds what was added and not yet released.
structure Counts (t : SnapshotTracker) (m : Multiset Timestamp) : Prop extends t.Consistent where
  count : ∀ ts, t.refCount ts = m.count ts
  bounded : ∀ ts ∈ m, ts ≤ invalidTimestamp

theorem Counts.mem_keys (h : Counts t m) : ts ∈ t.orderedSnapshots.keys ↔ ts ∈ m := by
  rw [h.mem_keys_iff, h.count, Multiset.count_pos]

theorem Counts.step (h : Counts s.1 s.2) (ha : Admits s c) : ∃ s', step s c = some s' ∧ Counts s'.1 s'.2 := by
  obtain ⟨t, m⟩ := s
  cases c with
  | addSnapshot ts =>
    refine ⟨_, rfl, h.toConsistent.addSnapshot ts, fun ts' => ?_, fun ts' hm => ?_⟩
    · simp [refCount_addSnapshot, h.count, Multiset.count_cons]
    · obtain rfl | hm := Multiset.mem_cons.mp hm
      · exact ha
      · exact h.bounded ts' hm
  | releaseSnapshot ts =>
    have hk : ts ∈ t.snapshots := h.ordered.mp (AList.mem_keys.mpr (h.mem_keys.mpr ha))
    have ⟨t', ht⟩ : ∃ t', t.releaseSnapshot ts = some t' := by
      unfold releaseSnapshot
      split
      case h_1 hn => exact absurd hk (lookup_eq_none.mp hn)
      case h_2 => split <;> exact ⟨_, rfl⟩
    have hr : t.release ts = t' := by rw [release, ht, Option.getD_some]
    refine ⟨(t', m.erase ts), by simp [SnapshotTracker.step, ht], hr ▸ h.toConsistent.release ts, fun ts' => ?_,
      fun ts' hm => ?_⟩
    · rw [← hr, refCount_release, h.count]
      split
      case isTrue he => rw [he, Multiset.count_erase_self]
      case isFalse he => rw [Multiset.count_erase_of_ne he, Nat.sub_zero]
    · exact h.bounded ts' (Multiset.mem_of_mem_erase hm)

theorem Counts.run (r : Transition.Run SnapshotTracker.step Admits (.new, 0) cs s) : Counts s.1 s.2 :=
  r.invariant (P := fun s => Counts s.1 s.2) (fun h ha he => by
    have ⟨_, he', h'⟩ := h.step ha
    cases he.symm.trans he'
    exact h') ⟨.new, fun _ => by simp [refCount, new], by simp⟩

-- The counts are those of what is outstanding, both maps have its timestamps, the minimum is its least
-- element, and no admitted call fails.
theorem tracks_outstanding (r : Transition.Run step Admits (.new, 0) cs (t, m)) :
    (∀ ts, t.refCount ts = m.count ts) ∧
      (∀ ts, (ts ∈ t.snapshots ↔ ts ∈ m) ∧ (ts ∈ t.orderedSnapshots ↔ ts ∈ m)) ∧
      (m = 0 → t.minActiveSnapshot = 2 ^ 64 - 1) ∧
      (m ≠ 0 → t.minActiveSnapshot ∈ m ∧ ∀ ts ∈ m, t.minActiveSnapshot ≤ ts) ∧
      ∀ c, Admits (t, m) c → ∃ s, step (t, m) c = some s := by
  have h : Counts t m := .run r
  have hmem {ts} : ts ∈ t.orderedSnapshots ↔ ts ∈ m := AList.mem_keys.trans h.mem_keys
  rw [minActiveSnapshot, h.min_eq]
  refine ⟨h.count, fun ts => ⟨h.ordered.symm.trans hmem, hmem⟩, fun hz => ?_,
    fun hn => ⟨?_, fun ts ht => minKey_le (h.mem_keys.mpr ht)⟩, fun c ha => ?_⟩
  · have hk : t.orderedSnapshots.keys = [] :=
      List.eq_nil_iff_forall_not_mem.mpr fun ts => by simp [h.mem_keys, hz]
    simp [hk, minKey, invalidTimestamp]
  · obtain ⟨ts, ht⟩ := Multiset.exists_mem_of_ne_zero hn
    exact h.mem_keys.mp (minKey_mem (List.ne_nil_of_mem (h.mem_keys.mpr ht)) fun ts ht =>
      h.bounded ts (h.mem_keys.mp ht))
  · obtain ⟨s, hs, -⟩ := h.step (s := (t, m)) ha
    exact ⟨s, hs⟩

theorem tracks_outstanding_released : ∃ t : SnapshotTracker, t.minActiveSnapshot = 7 ∧ t.refCount 7 = 2 := by
  obtain ⟨⟨t, m⟩, r, hp⟩ := Transition.Run.exists_of_checked step (.new, 0)
    [.addSnapshot 7, .addSnapshot 5, .addSnapshot 7, .releaseSnapshot 5] (fun s => s.2 = {7, 7})
    (g := fun s c => Admits s c) (fun _ _ => of_decide_eq_true) (by decide +kernel)
  have ⟨hc, _, _, hm, _⟩ := tracks_outstanding r
  obtain rfl : m = {7, 7} := of_decide_eq_true hp
  exact ⟨t, by simpa using (hm (by decide)).1, by simpa using hc 7⟩

end

end SnapshotTracker

-- The tracker that the version manager owns: it is reached by its own operations only.
structure ActiveSnapshots extends SnapshotTracker where
  consistent : toSnapshotTracker.Consistent

namespace ActiveSnapshots

def new : ActiveSnapshots where
  toSnapshotTracker := .new
  consistent := .new

def addSnapshot (t : ActiveSnapshots) (ts : Timestamp) : ActiveSnapshots where
  toSnapshotTracker := t.toSnapshotTracker.addSnapshot ts
  consistent := t.consistent.addSnapshot ts

def release (t : ActiveSnapshots) (ts : Timestamp) : ActiveSnapshots where
  toSnapshotTracker := t.toSnapshotTracker.release ts
  consistent := t.consistent.release ts

@[simp]
theorem toSnapshotTracker_addSnapshot (t : ActiveSnapshots) :
    (t.addSnapshot ts).toSnapshotTracker = t.toSnapshotTracker.addSnapshot ts :=
  rfl

@[simp]
theorem toSnapshotTracker_release (t : ActiveSnapshots) :
    (t.release ts).toSnapshotTracker = t.toSnapshotTracker.release ts :=
  rfl

end ActiveSnapshots
end Linkrs
