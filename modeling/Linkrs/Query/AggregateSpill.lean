import Linkrs.Query.AggregateRun
import Mathlib.Data.List.Flatten

namespace Linkrs

open List KeyTable

variable {α : Type} [Serialized α]

omit [Serialized α] in
-- The parts of a list, one for each number below a bound, make up the list.
theorem flatMap_filter_perm {β : Type} {f : β → ℕ} {l : List β} (h : ∀ x ∈ l, f x < n) :
    ((List.range n).flatMap fun i => l.filter fun x => f x = i).Perm l := by
  have hbelow : ∀ m, ((List.range m).flatMap fun i => l.filter fun x => f x = i).Perm (l.filter fun x => f x < m) := by
    intro m
    induction m with
    | zero => simp
    | succ m ind =>
      have hsplit := filter_append_perm (fun x => f x < m) (l.filter fun x => f x < m + 1)
      have hlt : (l.filter fun x => f x < m + 1).filter (fun x => f x < m) = l.filter fun x => f x < m := by
        rw [filter_filter]
        exact filter_congr fun x _ => by grind
      have heq : (l.filter fun x => f x < m + 1).filter (fun x => !decide (f x < m)) = l.filter fun x => f x = m := by
        rw [filter_filter]
        exact filter_congr fun x _ => by grind
      rw [hlt, heq] at hsplit
      rw [range_succ, flatMap_append, flatMap_singleton]
      exact (ind.append_right _).trans hsplit
  have hall : l.filter (fun x => f x < n) = l := filter_eq_self.mpr fun x hx => by simpa using h x hx
  exact (hbelow n).trans (.of_eq hall)

theorem hashRowPartition_lt (row : Tuple α) (h : 0 < n) : hashRowPartition row n < n :=
  Nat.mod_lt _ h

namespace HashPartitionSpiller

def routed (n : ℕ) (es : List (Tuple α × Tuple α)) : List (List (Tuple α)) :=
  (List.range n).map fun p => (es.filter fun e => hashRowPartition e.1 n = p).map (·.2)

variable {es : List (Tuple α × Tuple α)}

@[simp]
theorem length_routed {n : ℕ} : (routed n es).length = n := by
  simp [routed]

theorem getD_routed (hp : p < n) :
    (routed n es).getD p [] = (es.filter fun e => hashRowPartition e.1 n = p).map (·.2) := by
  simp [routed, hp]

theorem getElem_routed (hp : p < (routed n es).length) :
    (routed n es)[p] = (es.filter fun e => hashRowPartition e.1 n = p).map (·.2) := by
  simp [routed]

theorem mem_flatten_routed (hn : 0 < n) : row ∈ (routed n es).flatten ↔ ∃ e ∈ es, e.2 = row := by
  simp only [routed, mem_flatten, mem_map, mem_range]
  constructor
  · rintro ⟨_, ⟨p, -, rfl⟩, hrow⟩
    obtain ⟨e, he, rfl⟩ := mem_map.mp hrow
    exact ⟨e, mem_of_mem_filter he, rfl⟩
  · rintro ⟨e, he, rfl⟩
    refine ⟨_, ⟨hashRowPartition e.1 n, hashRowPartition_lt e.1 hn, rfl⟩, ?_⟩
    exact mem_map_of_mem (mem_filter.mpr ⟨he, by simp⟩)

theorem routed_concat (es : List (Tuple α × Tuple α)) (e : Tuple α × Tuple α) :
    (routed n es).modify (hashRowPartition e.1 n) (· ++ [e.2]) = routed n (es ++ [e]) := by
  apply ext_getElem
  · simp
  · intro p hp hp'
    simp only [routed, getElem_modify, getElem_map, getElem_range, filter_append, map_append]
    by_cases h : hashRowPartition e.1 n = p <;> simp [h]

def ofEntries (es : List (Tuple α × Tuple α)) : HashPartitionSpiller α :=
  ⟨spillPartitionsDefault, routed spillPartitionsDefault es, 0⟩

-- As long as no partition is too large, rows only add up.
theorem insertRowToPartition_routed (e : Tuple α × Tuple α) (hn : 0 < n)
    (h : ((es ++ [e]).filter fun x => hashRowPartition x.1 n = hashRowPartition e.1 n).length ≤ maxRowsPerPartition) :
    insertRowToPartition ⟨n, routed n es, d⟩ e.2 (hashRowPartition e.1 n) = ⟨n, routed n (es ++ [e]), d⟩ := by
  have hlt := hashRowPartition_lt e.1 hn
  rw [insertRowToPartition, if_pos (by simpa using hlt)]
  simp only [routed_concat]
  rw [if_neg]
  rw [getD_routed hlt, length_map]
  omega

-- A partition that is too large sends all rows anew, with all of a row for its key.
theorem insertRowToPartition_full (e : Tuple α × Tuple α) (hn : 0 < n)
    (hsize : n * 2 < 2 ^ 64) (hd : d < maxRecursionDepth)
    (h : maxRowsPerPartition < ((es ++ [e]).filter fun x => hashRowPartition x.1 n = hashRowPartition e.1 n).length) :
    insertRowToPartition ⟨n, routed n es, d⟩ e.2 (hashRowPartition e.1 n) =
      ⟨n * 2, routed (n * 2) ((routed n (es ++ [e])).flatten.map fun row => (row, row)), d + 1⟩ := by
  have hlt := hashRowPartition_lt e.1 hn
  have hsend : ∀ (rows : List (Tuple α)) (sent : List (Tuple α × Tuple α)),
      rows.foldl (fun ws row => ws.modify (hashRowPartition row (n * 2)) (· ++ [row])) (routed (n * 2) sent) =
        routed (n * 2) (sent ++ rows.map fun row => (row, row)) := by
    intro rows
    induction rows with
    | nil => simp
    | cons row rows ind =>
      intro sent
      rw [foldl_cons, routed_concat sent (row, row), ind]
      simp
  have hnew : List.replicate (n * 2) [] = routed (n * 2) ([] : List (Tuple α × Tuple α)) := by simp [routed]
  rw [insertRowToPartition, if_pos (by simpa using hlt)]
  simp only [routed_concat]
  rw [if_pos ⟨by rwa [getD_routed hlt, length_map], hd⟩, repartition, Nat.min_eq_left (show n * 2 ≤ 2 ^ 64 - 1 by omega)]
  simp only [hnew, hsend, nil_append]

end HashPartitionSpiller

namespace Aggregate

variable {a : Aggregate α} {env : AggregateEnvironment α}

section

open AggregateAccumulator

variable {accs accs' : List (AggregateAccumulator α)} {values : List (Value α)} {key : Tuple α}

def Typed (a : Aggregate α) (accs : List (AggregateAccumulator α)) : Prop :=
  accs.map (·.function) = a.functions.map (·.1)

-- Accumulators as values can make them.
structure Fits (a : Aggregate α) (accs : List (AggregateAccumulator α)) : Prop where
  typed : a.Typed accs
  wellFormed : ∀ acc ∈ accs, acc.WellFormed

theorem fits_newAccumulators : a.Fits a.newAccumulators where
  typed := by simp [Typed, newAccumulators]
  wellFormed := by
    simp only [newAccumulators, forall_mem_map]
    exact fun f _ => wellFormed_forFunction f.1

omit [Serialized α] in
theorem Typed.length (h : a.Typed accs) : accs.length = a.functions.length := by
  simpa using congrArg List.length h

omit [Serialized α] in
theorem Typed.function (h : a.Typed accs) (hi : i < accs.length) (hi' : i < a.functions.length) :
    (accs[i]).function = (a.functions[i]).1 := by
  have hfun := congrArg (fun l => l[i]?) h
  simpa only [getElem?_map, getElem?_eq_getElem hi, getElem?_eq_getElem hi', Option.map_some,
    Option.some.injEq] using hfun

@[simp]
theorem length_accumulateAll : (a.accumulateAll accs values).length = min accs.length values.length :=
  length_zipWith

theorem Fits.accumulateAll (h : a.Fits accs) (hv : values.length = a.functions.length) :
    a.Fits (a.accumulateAll accs values) where
  typed := by
    rw [Typed, ← show a.Typed accs from h.typed, Aggregate.accumulateAll, map_zipWith]
    have := h.typed.length
    apply ext_getElem <;> simp [hv, this]
  wellFormed := by
    intro acc hacc
    obtain ⟨i, hi, rfl⟩ := mem_iff_getElem.mp hacc
    simp only [Aggregate.accumulateAll, getElem_zipWith]
    exact (h.wellFormed _ (getElem_mem _)).accumulate _

omit [Serialized α] in
@[simp]
theorem length_argValues (row : Tuple α) : (a.argValues row).length = a.functions.length := by
  simp [argValues]

omit [Serialized α] in
@[simp]
theorem length_evalGroupKey (row : Tuple α) : (a.evalGroupKey row).length = a.groupBy.length := by
  simp [evalGroupKey]

omit [Serialized α] in
theorem take_partialRow (hk : key.length = a.groupBy.length) :
    (partialRow env (key, accs)).take a.groupBy.length = key := by
  rw [partialRow, ← hk, take_left]

omit [Serialized α] in
theorem partialValues_partialRow (hk : key.length = a.groupBy.length) (h : accs.length = a.functions.length) :
    a.partialValues (partialRow env (key, accs)) = accs.map (·.toValue env.iteration) := by
  apply ext_getElem
  · simp [partialValues, h]
  · intro i hi hi'
    have : i < accs.length := by simpa using hi'
    simp [partialValues, partialRow, ← hk, this]

theorem mergeAll_single (h : a.Typed accs) (hk : key.length = a.groupBy.length)
    (hv : values.length = a.functions.length) :
    a.mergeAll accs (partialRow env (key, a.accumulateAll a.newAccumulators values)) = a.accumulateAll accs values := by
  have hnew := fits_newAccumulators.accumulateAll (a := a) hv
  have hlen := h.length
  rw [mergeAll, partialValues_partialRow hk hnew.typed.length]
  apply ext_getElem
  · simp [hlen, hv, newAccumulators]
  · intro i hi hi'
    have hi : i < a.functions.length := by simpa [hlen, hv] using hi'
    have hfun := h.function (hlen ▸ hi) hi
    simp only [Aggregate.accumulateAll, newAccumulators, getElem_zipWith, getElem_map, ← hfun]
    exact merge_single accs[i] values[i]

theorem mergeAll_group (h : a.Fits accs) (hk : key.length = a.groupBy.length) :
    List.Forall₂ Alike (a.mergeAll a.newAccumulators (partialRow env (key, accs))) accs := by
  have hlen := h.typed.length
  rw [mergeAll, partialValues_partialRow hk hlen, forall₂_iff_get]
  refine ⟨by simp [newAccumulators, hlen], fun i hi hi' => ?_⟩
  have hfun := h.typed.function hi' (hlen ▸ hi')
  simp only [get_eq_getElem, newAccumulators, getElem_zipWith, getElem_map, ← hfun]
  exact alike_merge_forFunction (h.wellFormed _ (getElem_mem hi'))

theorem accumulateAll_alike (h : List.Forall₂ Alike accs accs') :
    List.Forall₂ Alike (a.accumulateAll accs values) (a.accumulateAll accs' values) := by
  induction h generalizing values with
  | nil => exact .nil
  | cons hacc _ ind =>
    cases values with
    | nil => exact .nil
    | cons v vs => exact .cons (hacc.accumulate v) ind

omit [Serialized α] in
theorem typed_of_alike (h : List.Forall₂ Alike accs accs') (h' : a.Typed accs') : a.Typed accs := by
  have hfun : accs.map (·.function) = accs'.map (·.function) := by
    clear h'
    induction h with
    | nil => rfl
    | cons hacc _ ind => rw [map_cons, map_cons, hacc.function, ind]
  exact hfun.trans h'

end

section

variable {before refused after later rows : List (Tuple α)}

def partitionOf (key : Tuple α) : ℕ :=
  hashRowPartition key spillPartitionsDefault

-- The rows on disk, with the keys by which they were sent to their partitions.
def entries (a : Aggregate α) (env : AggregateEnvironment α) (before later : List (Tuple α)) :
    List (Tuple α × Tuple α) :=
  (env.iteration.order (a.groups before)).map (fun g => (g.1, partialRow env g)) ++
    later.map fun row => (a.evalGroupKey row, a.singleRow env row)

theorem foldl_insert_ofEntries {β : Type} {step : HashPartitionSpiller α → β → HashPartitionSpiller α}
    (entry : β → Tuple α × Tuple α) {new : List β} (hstep : ∀ l x, step (.ofEntries l) x =
      (HashPartitionSpiller.ofEntries l).insertRowToPartition (entry x).2 (partitionOf (entry x).1))
    (h : ∀ p, ((l ++ new.map entry).filter fun e => partitionOf e.1 = p).length ≤ maxRowsPerPartition) :
    new.foldl step (.ofEntries l) = .ofEntries (l ++ new.map entry) := by
  induction new generalizing l with
  | nil => simp
  | cons x xs ind =>
    have hx : ((l ++ [entry x]).filter fun e => partitionOf e.1 = partitionOf (entry x).1).length ≤
        maxRowsPerPartition := by
      refine Nat.le_trans (List.Sublist.length_le (List.Sublist.filter _ ?_)) (h (partitionOf (entry x).1))
      simp
    have hrow : step (.ofEntries l) x = .ofEntries (l ++ [entry x]) :=
      (hstep l x).trans (HashPartitionSpiller.insertRowToPartition_routed (entry x) (by decide) hx)
    rw [foldl_cons, hrow]
    have := ind (l := l ++ [entry x]) (by simpa using h)
    simpa using this

theorem spilled_eq (h : ∀ p, ((a.entries env before (refused ++ after)).filter fun e => partitionOf e.1 = p).length ≤
    maxRowsPerPartition) : a.spilled env before refused after = .ofEntries (a.entries env before (refused ++ after)) := by
  have hsub : ∀ {es : List (Tuple α × Tuple α)}, es.Sublist (a.entries env before (refused ++ after)) →
      ∀ p, (es.filter fun e => partitionOf e.1 = p).length ≤ maxRowsPerPartition :=
    fun hs p => Nat.le_trans (hs.filter _).length_le (h p)
  have hentries : a.entries env before (refused ++ after) =
      (env.iteration.order (a.groups before)).map (fun g => (g.1, partialRow env g)) ++
        refused.map (fun row => (a.evalGroupKey row, a.singleRow env row)) ++
          after.map fun row => (a.evalGroupKey row, a.singleRow env row) := by
    simp [entries]
  have hgroups : spillGroups env (a.groups before) =
      .ofEntries ((env.iteration.order (a.groups before)).map fun g => (g.1, partialRow env g)) := by
    refine foldl_insert_ofEntries (fun g => (g.1, partialRow env g)) (l := []) ?_ (hsub ?_)
    · exact fun _ _ => rfl
    · rw [hentries, append_assoc]
      exact sublist_append_left _ _
  rw [spilled, hgroups, foldl_insert_ofEntries (fun row => (a.evalGroupKey row, a.singleRow env row)) (fun _ _ => rfl),
    foldl_insert_ofEntries (fun row => (a.evalGroupKey row, a.singleRow env row)) (fun _ _ => rfl), hentries]
  · rw [← hentries]
    exact h
  · refine hsub ?_
    rw [hentries]
    exact sublist_append_left _ _

-- Rows of one group are sent to the same partition.
def Routed (a : Aggregate α) (rows : List (Tuple α)) : Prop :=
  ∀ row ∈ rows, ∀ row' ∈ rows, sameKey (a.evalGroupKey row) (a.evalGroupKey row') →
    partitionOf (a.evalGroupKey row) = partitionOf (a.evalGroupKey row')

def Sized (a : Aggregate α) (rows : List (Tuple α)) : Prop :=
  ∀ p, (rows.filter fun row => partitionOf (a.evalGroupKey row) = p).length ≤ maxRowsPerPartition

theorem key_mem_groups (hg : g ∈ a.groups rows) : ∃ row ∈ rows, a.evalGroupKey row = g.1 := by
  obtain ⟨e, he, -⟩ | ⟨x, hx, hk⟩ := key_mem_collect hg
  · simp at he
  · obtain ⟨row, hrow, rfl⟩ := mem_map.mp hx
    exact ⟨row, hrow, hk⟩

theorem fits_groups (hg : g ∈ a.groups rows) : a.Fits g.2 := by
  refine forall_mem_collect fits_newAccumulators (fun accs x hx h => h.accumulateAll ?_) (by simp) g hg
  obtain ⟨row, -, rfl⟩ := mem_map.mp hx
  simp

theorem apart_groups : KeyTable.Apart sameKey (a.groups rows) :=
  KeyTable.Apart.collect .nil

theorem groups_filter (hr : a.Routed rows) (p : ℕ) :
    (a.groups rows).filter (fun g => partitionOf g.1 = p) =
      a.groups (rows.filter fun row => partitionOf (a.evalGroupKey row) = p) := by
  rw [groups, collect_filter (p := fun k => decide (partitionOf k = p))]
  · rw [groups, items, items, filter_map]
    rfl
  · intro x hx
    obtain ⟨row, hrow, rfl⟩ := mem_map.mp hx
    refine ⟨by simp, fun y hy hs => ?_⟩
    obtain ⟨row', hrow', rfl⟩ := mem_map.mp hy
    rw [hr row' hrow' row hrow hs]

theorem length_entries_le (hr : a.Routed (before ++ later)) (hs : a.Sized (before ++ later)) (p : ℕ) :
    ((a.entries env before later).filter fun e => partitionOf e.1 = p).length ≤ maxRowsPerPartition := by
  have hbefore : a.Routed before := fun row h row' h' =>
    hr row (mem_append_left _ h) row' (mem_append_left _ h')
  have hgroups : ((env.iteration.order (a.groups before)).filter fun g => partitionOf g.1 = p).length ≤
      (before.filter fun row => partitionOf (a.evalGroupKey row) = p).length := by
    rw [((env.iteration.perm _).filter _).length_eq, groups_filter hbefore]
    refine Nat.le_trans length_collect_le ?_
    simp [items]
  have hall := hs p
  rw [filter_append, length_append] at hall
  rw [entries, filter_append, filter_map, filter_map, length_append, length_map, length_map]
  refine Nat.le_trans (Nat.add_le_add hgroups (Nat.le_refl _)) hall

-- Related groups have the same key, and accumulators that are alike.
def Agree (a : Aggregate α) : GroupMap α → GroupMap α → Prop :=
  KeyTable.Related Eq fun accs accs' => List.Forall₂ AggregateAccumulator.Alike accs accs' ∧ a.Fits accs'

theorem agree_replay (hr : a.Routed (before ++ later)) (p : ℕ) :
    a.Agree (KeyTable.collect sameKey a.newAccumulators a.mergeAll []
        ((a.entries env before later).filter fun e => partitionOf e.1 = p))
      ((a.groups (before ++ later)).filter fun g => partitionOf g.1 = p) := by
  have hbefore : a.Routed before := fun row h row' h' =>
    hr row (mem_append_left _ h) row' (mem_append_left _ h')
  have hrows : (a.groups (before ++ later)).filter (fun g => partitionOf g.1 = p) =
      KeyTable.collect sameKey a.newAccumulators a.accumulateAll ((a.groups before).filter fun g => partitionOf g.1 = p)
        (a.items (later.filter fun row => partitionOf (a.evalGroupKey row) = p)) := by
    rw [groups_filter hr, groups_filter hbefore, filter_append, groups, items, map_append, collect_append]
    rfl
  have hentries : (a.entries env before later).filter (fun e => partitionOf e.1 = p) =
      ((env.iteration.order (a.groups before)).filter fun g => partitionOf g.1 = p).map
        (fun g => (g.1, partialRow env g)) ++
        (later.filter fun row => partitionOf (a.evalGroupKey row) = p).map
          fun row => (a.evalGroupKey row, a.singleRow env row) := by
    rw [entries, filter_append, filter_map, filter_map]
    rfl
  have hperm := (env.iteration.perm (a.groups before)).filter fun g => decide (partitionOf g.1 = p)
  have hapart : KeyTable.Apart sameKey (((env.iteration.order (a.groups before)).filter fun g => partitionOf g.1 = p).map
      fun g => (g.1, partialRow env g)) :=
    pairwise_map.mpr ((apart_groups.perm sameKey_comm (env.iteration.perm (a.groups before)).symm).filter _)
  have hkey : ∀ g ∈ a.groups before, g.1.length = a.groupBy.length := fun g hg => by
    obtain ⟨row, -, hk⟩ := key_mem_groups hg
    rw [← hk, length_evalGroupKey]
  rw [hrows, hentries, collect_append, collect_of_apart hapart (by simp), nil_append, map_map]
  refine KeyTable.Related.collect sameKey_comm sameKey_trans respects_eq
    (q := fun x values => ∃ key, key.length = a.groupBy.length ∧ values.length = a.functions.length ∧
      x = partialRow env (key, a.accumulateAll a.newAccumulators values)) ?_ ?_ ?_ ?_ ?_
  · exact pairwise_map.mpr (pairwise_map.mp hapart)
  · refine ⟨_, hperm.map _, forall₂_map_left_iff.mpr (List.forall₂_same.mpr fun g hg => ⟨rfl, ?_, ?_⟩)⟩
    · exact mergeAll_group (fits_groups (mem_of_mem_filter hg)) (hkey g (mem_of_mem_filter hg))
    · exact fits_groups (mem_of_mem_filter hg)
  · exact ⟨List.forall₂_same.mpr fun acc _ => AggregateAccumulator.alike_refl acc, fits_newAccumulators⟩
  · rintro accs accs' _ values ⟨halike, hfits⟩ ⟨key, hk, hv, rfl⟩
    rw [mergeAll_single (typed_of_alike halike hfits.typed) hk hv]
    exact ⟨accumulateAll_alike halike, hfits.accumulateAll hv⟩
  · refine forall₂_map_left_iff.mpr (forall₂_map_right_iff.mpr (List.forall₂_same.mpr fun row _ => ⟨rfl, ?_⟩))
    exact ⟨a.evalGroupKey row, length_evalGroupKey row, length_argValues row, rfl⟩

end

end Aggregate
end Linkrs
