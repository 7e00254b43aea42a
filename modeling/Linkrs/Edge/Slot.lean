import Mathlib.Data.List.Sort
import Mathlib.Data.Prod.Lex
import Linkrs.Core.Error
import Linkrs.Core.Ids
import Linkrs.Lib.Bytes

namespace Linkrs

open List

-- `Timestamp::MAX`, the deletion stamp of an entry that is not deleted.
def neverDeleted : UInt64 := 0xFFFF_FFFF_FFFF_FFFF

-- Marks the slots that hold no entry. No edge is given this id.
def invalidEdgeId : UInt64 := 0xFFFF_FFFF_FFFF_FFFF

-- The endpoint and the rank under which a row holds at most one entry that is not deleted.
abbrev EdgeKey := UInt32 × Int64

def EdgeKey.order (key : EdgeKey) : ℕ ×ₗ ℤ :=
  toLex (key.1.toNat, key.2.toInt)

theorem EdgeKey.order_injective : Function.Injective EdgeKey.order := by
  rintro ⟨e, r⟩ ⟨e', r'⟩ h
  have ⟨he, hr⟩ := Prod.mk.inj (toLex.injective h)
  exact Prod.ext (UInt32.toNat.inj he) (Int64.toInt.inj hr)

-- The slots keep an entry as two halves, its `HotNbr` and its `ColdStamps`, which are always read
-- and written at the same index.
structure Nbr where
  endpoint : UInt32
  rank : Int64
  edgeId : UInt64
  deleteTs : UInt64
  deriving DecidableEq, Repr

inductive DeleteSlotOutcome where
  | stamped
  | alreadyStamped
  deriving DecidableEq, Repr

namespace Nbr

def new (key : EdgeKey) (edgeId : UInt64) : Nbr :=
  ⟨key.1, key.2, edgeId, neverDeleted⟩

def deadGap : Nbr :=
  ⟨0, 0, invalidEdgeId, 0⟩

def key (n : Nbr) : EdgeKey :=
  (n.endpoint, n.rank)

def isLive (n : Nbr) : Bool :=
  n.deleteTs = neverDeleted

def stamp (ts : UInt64) (n : Nbr) : Nbr :=
  { n with deleteTs := ts }

-- `Visibility::is_gc_eligible` for an entry that is deleted.
def isReclaimable (cutoff : UInt64) (n : Nbr) : Bool :=
  !n.isLive && n.deleteTs ≤ cutoff

def canRevertDelete (ts : UInt64) (n : Nbr) : Bool :=
  !n.isLive && n.deleteTs ≤ ts

def decideSlotDelete (n : Nbr) (edgeId ts : UInt64) : StorageResult DeleteSlotOutcome :=
  if n.isLive then
    .ok .stamped
  else if n.deleteTs = ts then
    .ok .alreadyStamped
  else
    let deleted := n.deleteTs
    .error (.writeWriteConflict
      s!"edge EdgeId({edgeId}) already deleted at ts={deleted}, attempted delete at ts={ts}")

@[simp]
theorem key_new (key : EdgeKey) (edgeId : UInt64) : (new key edgeId).key = key :=
  rfl

@[simp]
theorem edgeId_new (key : EdgeKey) (edgeId : UInt64) : (new key edgeId).edgeId = edgeId :=
  rfl

@[simp]
theorem isLive_new (key : EdgeKey) (edgeId : UInt64) : (new key edgeId).isLive = true :=
  rfl

@[simp]
theorem key_stamp (n : Nbr) (ts : UInt64) : (n.stamp ts).key = n.key :=
  rfl

@[simp]
theorem edgeId_stamp (n : Nbr) (ts : UInt64) : (n.stamp ts).edgeId = n.edgeId :=
  rfl

@[simp]
theorem isLive_stamp (n : Nbr) (ts : UInt64) : (n.stamp ts).isLive = decide (ts = neverDeleted) :=
  rfl

theorem decideSlotDelete_eq_stamped {n : Nbr} {edgeId ts : UInt64} :
    n.decideSlotDelete edgeId ts = .ok .stamped ↔ n.isLive := by
  simp only [decideSlotDelete]
  split
  case isTrue h => simp [h]
  case isFalse h => split <;> simp_all

end Nbr

-- A key of kind `edgeEndpoint` has the endpoint and the rank in its sixteen bytes, most significant
-- byte first.
def decodeEndpointPair (dst : VertexId) : Option EdgeKey :=
  if dst.kind = .edgeEndpoint ∧ dst.bytes.length = 16 then
    let endpoint := Bytes.ofLe (dst.bytes.take 8).reverse
    let rank := Bytes.ofLe (dst.bytes.drop 8).reverse
    if endpoint < 2 ^ 32 then some (.ofNat endpoint, (UInt64.ofNat rank).toInt64) else none
  else
    none

def edgeEndpointKey (endpoint : UInt32) (rank : Int64) : VertexId where
  kind := .edgeEndpoint
  bytes := (Bytes.le 8 endpoint.toNat).reverse ++ (Bytes.le 8 rank.toUInt64.toNat).reverse
  len_le := by simp [Bytes.length_le]

-- Where a row holds an entry.
inductive EdgePosition where
  | primary (slot : ℕ)
  | overflow (chunk slot : ℕ)
  deriving DecidableEq, Inhabited, Repr

def EdgePosition.isPrimary : EdgePosition → Bool
  | primary _ => true
  | overflow _ _ => false

structure OverflowChunk where
  entries : List Nbr
  capacity : ℕ
  deriving DecidableEq, Repr

namespace OverflowChunk

-- `Vec::reserve` on an empty vector makes room for at least four elements.
def consolidated (entries : List Nbr) : OverflowChunk :=
  ⟨entries, max entries.length 4⟩

def consolidatedWithReserve (entries : List Nbr) (spare : ℕ) : OverflowChunk :=
  ⟨entries, max (entries.length + spare) 4⟩

-- Puts an entry into the last chunk, or into a new one when the last chunk is full.
def pushToRow (chunks : List OverflowChunk) (n : Nbr) (chunkEdges : ℕ) : List OverflowChunk :=
  match chunks.getLast? with
  | some tail =>
    if max tail.capacity 1 ≤ tail.entries.length then
      chunks ++ [⟨[n], chunkEdges⟩]
    else
      chunks.dropLast ++ [{ tail with entries := tail.entries ++ [n] }]
  | none => [⟨[n], chunkEdges⟩]

theorem entries_pushToRow (chunks : List OverflowChunk) (n : Nbr) (chunkEdges : ℕ) :
    (pushToRow chunks n chunkEdges).flatMap entries = chunks.flatMap entries ++ [n] := by
  rw [pushToRow]
  split
  case h_1 tail ht =>
    split
    case isTrue => simp
    case isFalse =>
      conv_rhs => rw [← dropLast_append_getLast? tail ht]
      simp
  case h_2 hn => simp [getLast?_eq_none_iff.mp hn]

end OverflowChunk

theorem cons_set_perm {α : Type} {xs : List α} {x : α} (h : xs[i]? = some x) (y : α) :
    (x :: xs.set i y).Perm (y :: xs) := by
  obtain ⟨hi, rfl⟩ := List.getElem?_eq_some_iff.mp h
  rw [set_eq_take_append_cons_drop, if_pos hi]
  refine .trans (.cons _ perm_middle) (.trans (.swap ..) (.cons _ ?_))
  refine .trans perm_middle.symm (.of_eq ?_)
  rw [getElem_cons_drop, take_append_drop]

-- The last element takes the place of the one that is removed.
def swapRemove {α : Type} (xs : List α) (i : ℕ) : List α :=
  match xs.getLast? with
  | some x => (xs.set i x).dropLast
  | none => xs

theorem swapRemove_perm {xs : List α} {x : α} (h : xs[i]? = some x) : xs.Perm (x :: swapRemove xs i) := by
  obtain ⟨hi, rfl⟩ := List.getElem?_eq_some_iff.mp h
  cases eq_nil_or_concat' xs with
  | inl hn => simp [hn] at hi
  | inr hn =>
    obtain ⟨ys, y, rfl⟩ := hn
    simp only [swapRemove, getLast?_concat]
    by_cases hl : i < ys.length
    case pos =>
      have hs : (ys ++ [y]).set i y = ys.set i y ++ [y] := by rw [set_append_left _ _ hl]
      rw [hs, dropLast_concat, getElem_append_left hl]
      exact (perm_append_singleton y ys).trans
        (cons_set_perm (getElem?_eq_getElem hl) y).symm
    case neg =>
      have he : i = ys.length := by
        simp only [length_append, length_singleton] at hi
        omega
      subst he
      simp [perm_append_singleton]

-- A map from keys to positions: `hash` while the row is written to, `sorted` after it was rebuilt.
inductive LiveKeySet where
  | hash (entries : List (EdgeKey × EdgePosition))
  | sorted (entries : List (EdgeKey × EdgePosition))
  deriving DecidableEq, Repr

namespace LiveKeySet

def fromPositions (positions : List (EdgeKey × EdgePosition)) : LiveKeySet :=
  .sorted (positions.insertionSort fun a b => a.1.order ≤ b.1.order)

-- The entry that `partition_point` finds in a sorted vector.
def search (entries : List (EdgeKey × EdgePosition)) (key : EdgeKey) : Option (EdgeKey × EdgePosition) :=
  (entries.dropWhile fun e => e.1.order < key.order).head?.filter (·.1 = key)

def find? : LiveKeySet → EdgeKey → Option (EdgeKey × EdgePosition)
  | hash entries, key => entries.find? (·.1 = key)
  | sorted entries, key => search entries key

def contains (set : LiveKeySet) (key : EdgeKey) : Bool :=
  (set.find? key).isSome

def position (set : LiveKeySet) (key : EdgeKey) : Option EdgePosition :=
  (set.find? key).map Prod.snd

def len : LiveKeySet → ℕ
  | hash entries | sorted entries => entries.length

def hashInsert (entries : List (EdgeKey × EdgePosition)) (e : EdgeKey × EdgePosition) :
    List (EdgeKey × EdgePosition) :=
  entries.filter (·.1 ≠ e.1) ++ [e]

-- A sorted vector becomes a map before it is changed.
def toHash : LiveKeySet → List (EdgeKey × EdgePosition)
  | hash entries => entries
  | sorted entries => entries.foldl hashInsert []

def insert (set : LiveKeySet) (key : EdgeKey) (position : EdgePosition) : LiveKeySet :=
  .hash (hashInsert set.toHash (key, position))

def remove (set : LiveKeySet) (key : EdgeKey) : LiveKeySet :=
  .hash (set.toHash.filter (·.1 ≠ key))

def keys : LiveKeySet → List EdgeKey
  | hash entries | sorted entries => entries.map Prod.fst

-- The vector of a set in sorted form is in order.
def Ordered : LiveKeySet → Prop
  | hash _ => True
  | sorted entries => entries.Pairwise fun a b => a.1.order ≤ b.1.order

theorem ordered_fromPositions (positions : List (EdgeKey × EdgePosition)) : (fromPositions positions).Ordered := by
  exact pairwise_insertionSort _ positions

variable {key : EdgeKey} {entries : List (EdgeKey × EdgePosition)} {set : LiveKeySet} {key key' : EdgeKey}

@[simp]
theorem mem_keys_fromPositions {positions : List (EdgeKey × EdgePosition)} :
    key ∈ (fromPositions positions).keys ↔ key ∈ positions.map Prod.fst := by
  simp [fromPositions, keys]

theorem isSome_search
    (h : entries.Pairwise fun a b => a.1.order ≤ b.1.order) :
    (search entries key).isSome ↔ key ∈ entries.map Prod.fst := by
  induction entries with
  | nil => simp [search]
  | cons e es ind =>
    have ⟨he, hs⟩ := pairwise_cons.mp h
    by_cases hl : e.1.order < key.order
    case pos =>
      have hn : key ≠ e.1 := fun hk => absurd hl (by simp [hk])
      have hd : search (e :: es) key = search es key := by simp [search, hl]
      rw [hd, ind hs]
      simp [hn]
    case neg =>
      -- the search stops here, and all that follows is not smaller
      have hd : search (e :: es) key = (some e).filter (·.1 = key) := by simp [search, hl]
      rw [hd]
      by_cases hk : e.1 = key
      case pos => simp [hk]
      case neg =>
        have hm : key ∉ es.map Prod.fst := by
          intro hm
          obtain ⟨e', hm', rfl⟩ := mem_map.mp hm
          exact hk (EdgeKey.order_injective (le_antisymm (he e' hm') (not_lt.mp hl)))
        simp [Option.filter, hk, hm, Ne.symm hk]

theorem contains_iff (h : set.Ordered) : set.contains key ↔ key ∈ set.keys := by
  cases set with
  | hash entries => simp [contains, find?, keys]
  | sorted entries => exact isSome_search h

theorem mem_map_filter :
    key' ∈ (entries.filter (·.1 ≠ key)).map Prod.fst ↔ key' ≠ key ∧ key' ∈ entries.map Prod.fst := by
  by_cases hk : key' = key <;> simp [hk]

theorem mem_map_hashInsert :
    key ∈ (hashInsert entries e).map Prod.fst ↔ key = e.1 ∨ key ∈ entries.map Prod.fst := by
  rw [hashInsert, map_append, mem_append, mem_map_filter]
  by_cases hk : key = e.1 <;> simp [hk]

theorem mem_map_toHash (set : LiveKeySet) : key ∈ set.toHash.map Prod.fst ↔ key ∈ set.keys := by
  cases set with
  | hash entries => rfl
  | sorted entries =>
    have hf (acc : List (EdgeKey × EdgePosition)) :
        key ∈ (entries.foldl hashInsert acc).map Prod.fst ↔
          key ∈ acc.map Prod.fst ∨ key ∈ entries.map Prod.fst := by
      induction entries generalizing acc with
      | nil => simp
      | cons e es ind =>
        rw [foldl_cons, ind, mem_map_hashInsert, map_cons, mem_cons]
        tauto
    rw [toHash, hf, map_nil]
    simp [keys]

@[simp]
theorem mem_keys_insert {position : EdgePosition} :
    key' ∈ (set.insert key position).keys ↔ key' = key ∨ key' ∈ set.keys := by
  rw [← mem_map_toHash set]
  exact mem_map_hashInsert

@[simp]
theorem mem_keys_remove : key' ∈ (set.remove key).keys ↔ key' ≠ key ∧ key' ∈ set.keys := by
  rw [← mem_map_toHash set]
  exact mem_map_filter

theorem ordered_insert {position : EdgePosition} : (set.insert key position).Ordered :=
  trivial

theorem ordered_remove : (set.remove key).Ordered :=
  trivial

end LiveKeySet
end Linkrs
