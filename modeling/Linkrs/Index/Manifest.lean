import Mathlib.Data.List.Chain
import Mathlib.Data.List.TakeWhile
import Mathlib.Order.Fin.Basic
import Linkrs.Lib.Except
import Linkrs.Core.Error

namespace Linkrs.Routing

open List Option

-- Byte strings, in the order of slices.
abbrev Key := List (Fin 256)

-- The keys from `lower` on and below `upper`. There is no bound where it is `none`.
structure IndexShard where
  shardId : UInt32
  lower : Option Key
  upper : Option Key
  checkpointFile : String

structure IndexManifest where
  shards : List IndexShard

inductive PartitionSelector where
  | all
  | shards (ids : List UInt32)
  | keyRange (lower upper : Option Key)

-- The search of the standard library. Nothing is known of it on a slice that is not partitioned.
structure PartitionPoint where
  find : (IndexShard → Bool) → List IndexShard → ℕ
  find_append : ∀ {p xs ys}, (∀ x ∈ xs, p x) → (∀ y ∈ ys, ¬p y) → find p (xs ++ ys) = xs.length

namespace IndexShard

variable (s : IndexShard)

def contains (key : Key) : Bool :=
  s.lower.all (· ≤ key) && s.upper.all (key < ·)

def intersects (lower upper : Option Key) : Bool :=
  (s.upper.all fun shardUpper => lower.all (· < shardUpper)) &&
    upper.all fun queryUpper => s.lower.all (· < queryUpper)

def validate : StorageResult Unit :=
  if s.lower.any fun lower => s.upper.any (· ≤ lower) then
    .error ⟨.dbError, s!"Index shard {s.shardId} has an empty or inverted range"⟩
  else if s.checkpointFile = "" then .error ⟨.dbError, s!"Index shard {s.shardId} has no checkpoint file"⟩
  else .ok ()

def clip (queryLower queryUpper : Key) : Option (UInt32 × Key × Key) :=
  let lower := s.lower.elim queryLower (max · queryLower)
  let upper := s.upper.elim queryUpper (min · queryUpper)
  if lower < upper then some (s.shardId, lower, upper) else none

end IndexShard

namespace IndexManifest

def checkPairs : List IndexShard → StorageResult Unit
  | a :: b :: rest =>
    if a.shardId = b.shardId then .error ⟨.dbError, s!"Duplicate index shard id {a.shardId}"⟩
    else if a.upper ≠ b.lower then
      .error ⟨.dbError, s!"Index shards {a.shardId} and {b.shardId} are not contiguous"⟩
    else checkPairs (b :: rest)
  | _ => .ok ()

variable (m : IndexManifest)

def validate : StorageResult Unit :=
  if m.shards.isEmpty then .error ⟨.dbError, "Index manifest must contain at least one shard"⟩
  else if m.shards.head?.any (·.lower.isSome) then
    .error ⟨.dbError, "The first index shard must have an unbounded lower range"⟩
  else if m.shards.getLast?.any (·.upper.isSome) then
    .error ⟨.dbError, "The last index shard must have an unbounded upper range"⟩
  else do
    m.shards.forM IndexShard.validate
    checkPairs m.shards

-- Before the first shard the index wraps around, and nothing is there.
def routeKey (search : PartitionPoint) (key : Key) : Option IndexShard :=
  match search.find (fun shard => shard.lower.all (· ≤ key)) m.shards with
  | 0 => none
  | idx + 1 => m.shards[idx]?.filter (·.contains key)

def selectShards : PartitionSelector → List IndexShard
  | .all => m.shards
  | .shards ids => m.shards.filter (ids.contains ·.shardId)
  | .keyRange lower upper => m.shards.filter (·.intersects lower upper)

def scanRangesWithShard (selector : PartitionSelector) (queryLower queryUpper : Key) : List (UInt32 × Key × Key) :=
  ((m.selectShards selector).filter (·.intersects queryLower queryUpper)).filterMap
    (·.clip queryLower queryUpper)

end IndexManifest

section

variable {s a b : IndexShard} {xs : List IndexShard} {key lower upper : Key}
  {range : UInt32 × Key × Key}

def InRange (key : Key) (range : UInt32 × Key × Key) : Prop :=
  range.2.1 ≤ key ∧ key < range.2.2

theorem contains_iff : s.contains key ↔ (∀ l ∈ s.lower, l ≤ key) ∧ ∀ u ∈ s.upper, key < u := by
  simp [IndexShard.contains, Option.all_eq_true]

theorem inRange_clip (h : s.clip lower upper = some range) :
    InRange key range ↔ s.contains key ∧ lower ≤ key ∧ key < upper := by
  simp only [IndexShard.clip, ite_none_right_eq_some, Option.some.injEq] at h
  obtain ⟨_, rfl⟩ := h
  cases hl : s.lower <;> cases hu : s.upper <;>
    simp [InRange, IndexShard.contains, hl, hu, and_assoc, and_left_comm]

theorem exists_clip (h : s.contains key) (hl : lower ≤ key) (hu : key < upper) :
    s.intersects lower upper ∧ ∃ range, s.clip lower upper = some range := by
  obtain ⟨hsl, hsu⟩ := contains_iff.mp h
  constructor
  · simp only [IndexShard.intersects, Bool.and_eq_true, Option.all_eq_true, decide_eq_true_eq,
      Option.some.injEq, forall_eq']
    exact ⟨fun u h => hl.trans_lt (hsu u h), fun l h => (hsl l h).trans_lt hu⟩
  · refine ⟨_, if_pos (lt_of_le_of_lt (b := key) ?_ ?_)⟩
    · cases h : s.lower with
      | none => exact hl
      | some l => exact max_le (hsl l h) hl
    · cases h : s.upper with
      | none => exact hu
      | some u => exact lt_min (hsu u h) hu

-- What `validate` makes sure of.
structure Accepted (xs : List IndexShard) : Prop where
  ne_nil : xs ≠ []
  head : ∀ s ∈ xs.head?, s.lower = none
  last : ∀ s ∈ xs.getLast?, s.upper = none
  proper : ∀ s ∈ xs, ∀ l ∈ s.lower, ∀ u ∈ s.upper, l < u
  chain : xs.IsChain fun a b => a.shardId ≠ b.shardId ∧ a.upper = b.lower

theorem proper_of_validate (h : s.validate = .ok ()) : ∀ l ∈ s.lower, ∀ u ∈ s.upper, l < u := by
  unfold IndexShard.validate at h
  intro l hl u hu
  split_ifs at h with hp
  simpa [mem_def.mp hl, mem_def.mp hu] using hp

theorem chain_of_checkPairs (h : IndexManifest.checkPairs xs = .ok ()) :
    xs.IsChain fun a b => a.shardId ≠ b.shardId ∧ a.upper = b.lower := by
  fun_induction IndexManifest.checkPairs xs with
  | case1 => cases h
  | case2 => cases h
  | case3 a b rest hid hu ind => exact .cons_cons ⟨hid, not_not.mp hu⟩ (ind h)
  | case4 xs hx =>
    match xs, hx with
    | [], _ => exact .nil
    | [a], _ => exact .singleton a
    | a :: b :: rest, hx => exact (hx a b rest rfl).elim

theorem accepted_of_validate {m : IndexManifest} (h : m.validate = .ok ()) : Accepted m.shards := by
  unfold IndexManifest.validate at h
  split_ifs at h with hn hh hl
  obtain ⟨_, hv, hp⟩ := Except.bind_eq_ok.mp h
  simp only [Option.any_eq_true, isSome_iff_exists, not_exists, not_and] at hh hl
  refine ⟨by simpa using hn, fun s hs => ?_, fun s hs => ?_, fun s hs => ?_, chain_of_checkPairs hp⟩
  · exact eq_none_iff_forall_ne_some.mpr (hh s hs)
  · exact eq_none_iff_forall_ne_some.mpr (hl s hs)
  · exact proper_of_validate (Except.forM_eq_ok.mp hv s hs)

-- The shards are searched from one that begins at or before the key to one without an end.
theorem exists_contains (key : Key) (hc : xs.IsChain fun a b => a.upper = b.lower) (hn : xs ≠ [])
    (hh : ∀ s ∈ xs.head?, s.lower.all (· ≤ key)) (hl : ∀ s ∈ xs.getLast?, s.upper = none) :
    ∃ s ∈ xs, s.contains key := by
  induction xs with
  | nil => exact (hn rfl).elim
  | cons s xs ind =>
    have hs := hh s rfl
    by_cases hu : s.upper.all (key < ·)
    case pos => exact ⟨s, by simp, by simp [IndexShard.contains, hs, hu]⟩
    case neg =>
      cases xs with
      | nil => simp [hl s rfl] at hu
      | cons t xs =>
        obtain ⟨hst, hc⟩ := isChain_cons_cons.mp hc
        have ht : t.lower.all (· ≤ key) := by
          rw [← hst]
          cases hu' : s.upper with
          | none => rfl
          | some u => simpa [hu'] using hu
        obtain ⟨r, hr, hk⟩ := ind hc (by simp) (by simpa using ht) (by simpa using hl)
        exact ⟨r, .tail _ hr, hk⟩

-- `a` ends where `b` begins, or earlier.
structure Before (a b : IndexShard) : Prop where
  apart : ∃ u ∈ a.upper, ∃ l ∈ b.lower, u ≤ l
  proper : ∀ l ∈ b.lower, ∀ u ∈ b.upper, l < u

instance : Trans Before Before Before where
  trans := by
    rintro a b c ⟨⟨u, hu, l, hl, hul⟩, hb⟩ ⟨⟨u', hu', l', hl', hul'⟩, hc⟩
    exact ⟨⟨u, hu, l', hl', hul.trans ((hb l hl u' hu').le.trans hul')⟩, hc⟩

theorem Before.not_both (h : Before a b) (ha : a.contains key) : ¬b.contains key := by
  obtain ⟨u, hu, l, hl, hul⟩ := h.apart
  exact fun hb => ((contains_iff.mp ha).2 u hu).not_ge (hul.trans ((contains_iff.mp hb).1 l hl))

variable (xs) in
-- Non-neighbours have different ids, and only the last shard may be without an end.
structure Separate : Prop where
  ids : ∀ i j, i + 1 < j → ∀ a ∈ xs[i]?, ∀ b ∈ xs[j]?, a.shardId ≠ b.shardId
  bounded : xs.IsChain fun a _ => a.upper.isSome

namespace Accepted

variable (h : Accepted xs)
include h

theorem upper_eq_lower : xs.IsChain fun a b => a.upper = b.lower :=
  h.chain.imp fun _ _ h => h.2

theorem nodup (hs : Separate xs) : (xs.map (·.shardId)).Nodup := by
  rw [List.Nodup, pairwise_map, pairwise_iff_getElem]
  intro i j hi hj hij
  by_cases hn : i + 1 = j
  case pos =>
    subst hn
    exact (isChain_iff_getElem.mp h.chain i hj).1
  case neg => exact hs.ids i j (by omega) _ (by simp) _ (by simp)

theorem pairwise (hb : xs.IsChain fun a _ => a.upper.isSome) : xs.Pairwise Before := by
  rw [← isChain_iff_pairwise, isChain_iff_getElem]
  intro i hi
  obtain ⟨u, hu⟩ := isSome_iff_exists.mp (isChain_iff_getElem.mp hb i hi)
  have hl := isChain_iff_getElem.mp h.upper_eq_lower i hi
  exact ⟨⟨u, hu, u, hl ▸ hu, le_rfl⟩, h.proper _ (getElem_mem _)⟩

-- With an unbounded shard inside, the shards up to it and those behind it cover all keys each.
theorem bounded (hf : ∀ key, ∃ s, xs.filter (·.contains key) = [s]) :
    xs.IsChain fun a _ => a.upper.isSome := by
  rw [isChain_iff_forall_rel_of_append_cons_cons]
  rintro a b ys zs rfl
  rw [← ne_none_iff_isSome]
  intro hu
  obtain ⟨hys, hzs⟩ := isChain_split.mp h.upper_eq_lower
  obtain ⟨hab, hzs⟩ := isChain_cons_cons.mp hzs
  obtain ⟨c, hc, hck⟩ := exists_contains [] hys (by simp)
    (fun s hs => by simp [h.head s (by cases ys <;> simpa using hs)]) (by simpa using hu)
  obtain ⟨d, hd, hdk⟩ := exists_contains [] hzs (by simp) (by simp [← hab, hu])
    (by simpa using h.last)
  obtain ⟨s, hs⟩ := hf []
  rw [append_cons, filter_append] at hs
  have hc' : c ∈ (ys ++ [a]).filter (·.contains []) := mem_filter.mpr ⟨hc, hck⟩
  have hd' : d ∈ (b :: zs).filter (·.contains []) := mem_filter.mpr ⟨hd, hdk⟩
  obtain ⟨hl, _⟩ | ⟨_, hr⟩ := append_eq_singleton_iff.mp hs
  · simp [hl] at hc'
  · simp [hr] at hd'

end Accepted

end

section

variable {m : IndexManifest}

-- The shard that contains the key parts the list for the search.
theorem routed (h : Accepted m.shards) (hp : m.shards.Pairwise Before) (search : PartitionPoint)
    (key : Key) : ∃ s, m.shards.filter (·.contains key) = [s] ∧ m.routeKey search key = some s := by
  obtain ⟨s, hs, hk⟩ := exists_contains key h.upper_eq_lower h.ne_nil
    (fun s hs => by simp [h.head s hs]) h.last
  obtain ⟨xs, ys, heq⟩ := append_of_mem hs
  rw [heq, pairwise_append, pairwise_cons] at hp
  obtain ⟨_, ⟨hy, _⟩, hx⟩ := hp
  have hk' := contains_iff.mp hk
  have hbefore : ∀ x ∈ xs ++ [s], x.lower.all (· ≤ key) := by
    intro x hx'
    simp only [Option.all_eq_true, decide_eq_true_eq]
    intro l hl
    obtain hx' | hx' := mem_append.mp hx'
    · obtain ⟨u, hu, l', hl', hul⟩ := (hx x hx' s (by simp)).apart
      exact (h.proper x (by simp [heq, hx']) l hl u hu).le.trans (hul.trans (hk'.1 l' hl'))
    · obtain rfl := mem_singleton.mp hx'
      exact hk'.1 l hl
  have hafter : ∀ y ∈ ys, ¬y.lower.all (· ≤ key) := by
    intro y hy'
    obtain ⟨u, hu, l, hl, hul⟩ := (hy y hy').apart
    simp [mem_def.mp hl, (hk'.2 u hu).trans_le hul]
  refine ⟨s, ?_, ?_⟩
  · have hx x hx' hk' := (hx x hx' s (by simp)).not_both hk' hk
    have hy y hy' := (hy y hy').not_both hk
    rw [heq, filter_append, filter_cons, if_pos hk, filter_eq_nil_iff.mpr hx, filter_eq_nil_iff.mpr hy]
    rfl
  · rw [IndexManifest.routeKey, heq, append_cons, search.find_append hbefore hafter]
    simp [hk]

-- Every key has one shard, and so have the parts that a query is split into.
structure RoutesOnce (search : PartitionPoint) (m : IndexManifest) : Prop where
  ids : (m.shards.map (·.shardId)).Nodup
  routed : ∀ key, ∃ s, m.shards.filter (·.contains key) = [s] ∧ m.routeKey search key = some s
  covered : ∀ lower upper key, lower ≤ key ∧ key < upper ↔
    ∃ range ∈ m.scanRangesWithShard .all lower upper, InRange key range
  disjoint : ∀ lower upper, (m.scanRangesWithShard .all lower upper).Pairwise fun a b =>
    ∀ key, InRange key a → ¬InRange key b
  assigned : ∀ lower upper, ∀ range ∈ m.scanRangesWithShard .all lower upper, ∀ key, InRange key range →
    ∃ s, m.routeKey search key = some s ∧ s.shardId = range.1

theorem mem_scanRanges {lower upper : Key} {range : UInt32 × Key × Key}
    (h : range ∈ m.scanRangesWithShard .all lower upper) :
    ∃ s ∈ m.shards, s.clip lower upper = some range ∧ s.shardId = range.1 := by
  obtain ⟨s, hs, hc⟩ := mem_filterMap.mp h
  have hc' := (ite_none_right_eq_some ..).mp hc
  exact ⟨s, (mem_filter.mp hs).1, hc, congrArg Prod.fst (Option.some.inj hc'.2)⟩

theorem routesOnce (h : Accepted m.shards) (hs : Separate m.shards) (search : PartitionPoint) :
    RoutesOnce search m := by
  have hp := h.pairwise hs.bounded
  have hr := routed h hp search
  refine ⟨h.nodup hs, hr, fun lower upper key => ⟨fun ⟨hl, hu⟩ => ?_, ?_⟩, fun lower upper => ?_, ?_⟩
  · obtain ⟨s, hf, _⟩ := hr key
    have ⟨hs, hk⟩ := mem_filter.mp (hf ▸ mem_singleton_self s)
    obtain ⟨hi, range, hc⟩ := exists_clip hk hl hu
    exact ⟨range, mem_filterMap.mpr ⟨s, mem_filter.mpr ⟨hs, hi⟩, hc⟩, (inRange_clip hc).mpr ⟨hk, hl, hu⟩⟩
  · rintro ⟨range, hm, hk⟩
    obtain ⟨s, _, hc, _⟩ := mem_scanRanges hm
    exact ((inRange_clip hc).mp hk).2
  · refine pairwise_filterMap.mpr ((hp.filter _).imp fun hab a ha b hb key hka hkb => ?_)
    exact hab.not_both ((inRange_clip ha).mp hka).1 ((inRange_clip hb).mp hkb).1
  · intro lower upper range hm key hk
    obtain ⟨s, hs, hc, hid⟩ := mem_scanRanges hm
    obtain ⟨s', hf, hr⟩ := hr key
    have hs' : s ∈ [s'] := hf ▸ mem_filter.mpr ⟨hs, ((inRange_clip hc).mp hk).1⟩
    obtain rfl := mem_singleton.mp hs'
    exact ⟨s, hr, hid⟩

theorem routesOnce_iff (search : PartitionPoint) (h : m.validate = .ok ()) :
    RoutesOnce search m ↔ Separate m.shards := by
  have ha := accepted_of_validate h
  refine ⟨fun hr => ⟨fun i j hij a ha b hb => ?_, ha.bounded fun key => ?_⟩, (routesOnce ha · search)⟩
  · obtain ⟨hi, rfl⟩ := List.getElem?_eq_some_iff.mp ha
    obtain ⟨hj, rfl⟩ := List.getElem?_eq_some_iff.mp hb
    have hn := pairwise_iff_getElem.mp (pairwise_map.mp hr.ids)
    exact hn i j hi hj (by omega)
  · obtain ⟨s, hs, _⟩ := hr.routed key
    exact ⟨s, hs⟩

def takeWhile : PartitionPoint where
  find p xs := (xs.takeWhile p).length
  find_append hx hy := by
    rw [takeWhile_append_of_pos hx, takeWhile_eq_nil_iff.mpr fun _ => hy _ (getElem_mem _)]
    simp

-- Shards below and from `key` on.
def halves (key : Key) : IndexManifest where
  shards := [⟨0, none, key, "shard-0"⟩, ⟨1, key, none, "shard-1"⟩]

theorem routesOnce_halves : RoutesOnce takeWhile (halves [7]) := by
  refine (routesOnce_iff takeWhile rfl).mpr ⟨fun i j hij a _ b hb => ?_, by simp [halves]⟩
  have ⟨hj, _⟩ := List.getElem?_eq_some_iff.mp hb
  simp only [halves, length_cons, length_nil] at hj
  omega

-- Two shards without bounds are neighbours, as `none = none`.
theorem validate_accepts_overlap : ¬∀ search m, IndexManifest.validate m = .ok () → RoutesOnce search m := by
  intro h
  let shards : List IndexShard := [⟨0, none, none, "shard-0"⟩, ⟨1, none, none, "shard-1"⟩]
  obtain ⟨s, hs, _⟩ := (h takeWhile ⟨shards⟩ rfl).routed []
  cases hs

end

end Linkrs.Routing
