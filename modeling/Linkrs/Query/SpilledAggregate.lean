import Linkrs.Query.AggregateSpill

namespace Linkrs

open List HashPartitionSpiller

variable {α : Type} [Serialized α]

-- All requests for memory are granted, and no spill is asked for.
def AggregateEnvironment.granting (env : AggregateEnvironment α) : AggregateEnvironment α :=
  { env with budget := fun _ _ => .ok (), spillRequested := fun _ => false }

-- The first request is refused.
def AggregateEnvironment.refusing (it : Iteration) : AggregateEnvironment α where
  iteration := it
  budget n _ := if n = 0 then .error ⟨"memory budget exceeded"⟩ else .ok ()
  groupMemory _ := 0
  spillRequested _ := false
  spillManager := true

-- A value, up to the order in which the elements of a set are listed.
def Value.Listed (v w : Value α) : Prop :=
  v = w ∨ ∃ xs ys, v = .set xs ∧ w = .set ys ∧ xs.Perm ys

omit [Serialized α] in
theorem AggregateAccumulator.Alike.finalize {acc acc' : AggregateAccumulator α} (h : Alike acc acc') (it : Iteration) :
    (acc.finalize it).Listed (acc'.finalize it) := by
  cases acc with
  | collectSet values =>
    cases acc' with
    | collectSet values' =>
      have hp : values.Perm values' := h
      by_cases he : values = []
      · subst he
        rw [nil_perm.mp hp]
        exact .inl rfl
      · have he' : values' ≠ [] := fun hnil => he (perm_nil.mp (hnil ▸ hp))
        refine .inr ⟨it.order values, it.order values', ?_, ?_, ?_⟩
        · simp [AggregateAccumulator.finalize, he]
        · simp [AggregateAccumulator.finalize, he']
        · exact ((it.perm _).trans hp).trans (it.perm _).symm
    | _ => simp [Alike] at h
  | _ =>
    subst h
    exact .inl rfl

namespace Aggregate

variable {a : Aggregate α} {env : AggregateEnvironment α}

section

variable {input out out' : List (Tuple α)} {g : Tuple α × List (AggregateAccumulator α)}

-- The same key, and the same values for the functions.
def SameRow (a : Aggregate α) (r r' : Tuple α) : Prop :=
  r.take a.groupBy.length = r'.take a.groupBy.length ∧
    List.Forall₂ Value.Listed (r.drop a.groupBy.length) (r'.drop a.groupBy.length)

def SameRows (a : Aggregate α) : List (Tuple α) → List (Tuple α) → Prop :=
  UpTo a.SameRow

-- There is a row for each group, and no other.
structure OnePerGroup (a : Aggregate α) (input out : List (Tuple α)) : Prop where
  apart : (out.map (·.take a.groupBy.length)).Pairwise fun k k' => ¬sameKey k k'
  covers : ∀ row ∈ input, sameKey (a.evalGroupKey row) (a.evalGroupKey row) →
    ∃ r ∈ out, sameKey (r.take a.groupBy.length) (a.evalGroupKey row)
  keys : ∀ r ∈ out, (∃ row ∈ input, r.take a.groupBy.length = a.evalGroupKey row) ∨ input = [] ∧ a.groupBy = []

omit [Serialized α] in
theorem sameRow_refl (r : Tuple α) : a.SameRow r r :=
  ⟨rfl, List.forall₂_same.mpr fun _ _ => .inl rfl⟩

omit [Serialized α] in
theorem SameRows.keys (h : a.SameRows out out') :
    (out.map (·.take a.groupBy.length)).Perm (out'.map (·.take a.groupBy.length)) := by
  obtain ⟨mid, hp, hf⟩ := h
  refine (hp.map _).trans (.of_eq ?_)
  clear hp
  induction hf with
  | nil => rfl
  | cons hr _ ind => rw [map_cons, map_cons, hr.1, ind]

theorem OnePerGroup.of_sameRows (h : a.OnePerGroup input out') (hs : a.SameRows out out') :
    a.OnePerGroup input out where
  apart := (hs.keys.pairwise_iff fun h h' => h (by rwa [sameKey_comm])).mpr h.apart
  covers row hrow hkey := by
    obtain ⟨r', hr', hk⟩ := h.covers row hrow hkey
    obtain ⟨r, hr, hrr'⟩ := mem_map.mp (hs.keys.mem_iff.mpr (mem_map_of_mem hr'))
    exact ⟨r, hr, hrr' ▸ hk⟩
  keys r hr := by
    obtain ⟨r', hr', hrr'⟩ := mem_map.mp (hs.keys.mem_iff.mp (mem_map_of_mem hr))
    rw [← hrr']
    exact h.keys r' hr'

omit [Serialized α] in
theorem take_resultRow (hk : g.1.length = a.groupBy.length) : (a.resultRow env g).take a.groupBy.length = g.1 := by
  rw [resultRow]
  split
  case isTrue he =>
    have hn : a.groupBy.length = 0 := by simpa using he
    rw [hn, take_zero, length_eq_zero_iff.mp (hk.trans hn)]
  case isFalse he => rw [← hk, take_left]

omit [Serialized α] in
theorem drop_resultRow (hk : g.1.length = a.groupBy.length) :
    (a.resultRow env g).drop a.groupBy.length = g.2.map (·.finalize env.iteration) := by
  rw [resultRow]
  split
  case isTrue he =>
    have hn : a.groupBy.length = 0 := by simpa using he
    rw [hn, drop_zero, nil_append]
  case isFalse he => rw [← hk, drop_left]

omit [Serialized α] in
theorem sameRow_resultRow
    (hk : key.length = a.groupBy.length) (h : List.Forall₂ AggregateAccumulator.Alike accs accs') :
    a.SameRow (a.resultRow env (key, accs)) (a.resultRow env (key, accs')) := by
  refine ⟨by rw [take_resultRow hk, take_resultRow hk], ?_⟩
  rw [drop_resultRow hk, drop_resultRow hk]
  refine forall₂_map_left_iff.mpr (forall₂_map_right_iff.mpr (h.imp fun acc acc' hacc => ?_))
  exact hacc.finalize env.iteration

theorem length_key_of_mem_groups (hg : g ∈ a.groups input) : g.1.length = a.groupBy.length := by
  obtain ⟨row, -, hk⟩ := key_mem_groups hg
  rw [← hk, length_evalGroupKey]

def results (a : Aggregate α) (env : AggregateEnvironment α) (input : List (Tuple α)) : List (Tuple α) :=
  a.memoryResults env { AggregateState.new input with groupMap := a.groups input }

theorem exists_mem_groups (hrow : row ∈ input) (hkey : sameKey (a.evalGroupKey row) (a.evalGroupKey row)) :
    ∃ g ∈ a.groups input, sameKey g.1 (a.evalGroupKey row) :=
  KeyTable.exists_same_collect ⟨_, mem_map_of_mem hrow, hkey⟩ sameKey_trans

theorem groups_ne_nil (h : input ≠ []) : a.groups input ≠ [] := by
  obtain ⟨rows, row, rfl⟩ := eq_nil_or_concat' input |>.resolve_left h
  rw [groups_concat]
  exact KeyTable.alter_ne_nil

theorem results_of_ne_nil (h : input ≠ []) :
    a.results env input = (env.iteration.order (a.groups input)).map (a.resultRow env) := by
  have hne : env.iteration.order (a.groups input) ≠ [] := fun hnil =>
    groups_ne_nil h (nil_perm.mp (hnil ▸ env.iteration.perm (a.groups input)))
  simp [results, memoryResults, hne]

theorem onePerGroup_results : a.OnePerGroup input (a.results env input) := by
  by_cases h : input = []
  · subst h
    by_cases hg : a.groupBy = []
    · refine ⟨?_, by simp, fun _ _ => .inr ⟨rfl, hg⟩⟩
      simp [results, memoryResults, hg, groups, items]
    · refine ⟨?_, by simp, ?_⟩ <;> simp [results, memoryResults, hg, groups, items]
  · have hperm := env.iteration.perm (a.groups input)
    have hkeys : ((env.iteration.order (a.groups input)).map (a.resultRow env)).map (·.take a.groupBy.length) =
        (env.iteration.order (a.groups input)).map (·.1) := by
      rw [map_map]
      exact map_congr_left fun g hg => take_resultRow (length_key_of_mem_groups (hperm.mem_iff.mp hg))
    rw [results_of_ne_nil h]
    constructor
    case apart =>
      rw [hkeys, pairwise_map]
      exact apart_groups.perm sameKey_comm hperm.symm
    case covers =>
      intro row hrow hkey
      obtain ⟨g, hg, hs⟩ := exists_mem_groups hrow hkey
      refine ⟨_, mem_map_of_mem (hperm.mem_iff.mpr hg), ?_⟩
      rwa [take_resultRow (length_key_of_mem_groups hg)]
    case keys =>
      intro r hr
      obtain ⟨g, hg, rfl⟩ := mem_map.mp hr
      have hg := hperm.mem_iff.mp hg
      obtain ⟨row, hrow, hk⟩ := key_mem_groups hg
      exact .inl ⟨row, hrow, (take_resultRow (length_key_of_mem_groups hg)).trans hk.symm⟩

end

section

variable {s s' : AggregateState α} {input before refused after later : List (Tuple α)}

theorem memoryResults_eq (h : s.groupMap = a.groups input) : a.memoryResults env s = a.results env input := by
  rw [memoryResults, h]
  rfl

theorem drains_granting : Drains (a.next env.granting) (.new input) (a.results env input) := by
  have hrows : ∀ (n : ℕ) (s : AggregateState α) (rows : List (Tuple α)), s.partitionSpiller = none →
      ∃ s', a.accumulateRows env.granting n s rows = .ok s' ∧ s'.partitionSpiller = none := by
    intro n s rows hs
    induction rows generalizing n s with
    | nil => exact ⟨_, rfl, hs⟩
    | cons row rows ind =>
      obtain ⟨s₁, hrow, hs₁⟩ : ∃ s₁, a.accumulateRow env.granting s row = .ok s₁ ∧ s₁.partitionSpiller = none := by
        simp only [accumulateRow, hs]
        split
        · exact ⟨_, rfl, hs⟩
        · exact ⟨_, rfl, rfl⟩
      obtain ⟨s', hrest, hs'⟩ := ind (n + 1) s₁ hs₁
      refine ⟨s', ?_, hs'⟩
      rw [accumulateRows, show env.granting.spillRequested n = false from rfl, if_neg (by simp), hrow, Except.ok_bind,
        hrest]
  obtain ⟨s, hs, hnone⟩ := hrows 0 (.new input) input rfl
  refine drains_iff.mpr ⟨s, hs, ?_⟩
  have h := (accumulated_new input).accumulateRows hs
  rw [outputs, hnone]
  exact memoryResults_eq (h.memory hnone)

theorem replay_ofEntries : (ofEntries (a.entries env before later)).writers.flatMap
    (a.replayRun env) = (List.range spillPartitionsDefault).flatMap fun p =>
      (env.iteration.order (KeyTable.collect sameKey a.newAccumulators a.mergeAll []
        ((a.entries env before later).filter fun e => partitionOf e.1 = p))).map (a.resultRow env) := by
  have hkey : ∀ e ∈ a.entries env before later, e.2.take a.groupBy.length = e.1 := by
    intro e he
    obtain he | he := mem_append.mp he
    · obtain ⟨g, hg, rfl⟩ := mem_map.mp he
      exact take_partialRow (length_key_of_mem_groups ((env.iteration.perm _).mem_iff.mp hg))
    · obtain ⟨row, -, rfl⟩ := mem_map.mp he
      exact take_partialRow (length_evalGroupKey row)
  rw [ofEntries, HashPartitionSpiller.routed, flatMap_map]
  refine flatMap_congr fun p _ => ?_
  rw [replayRun, map_map]
  congr 3
  refine (map_congr_left fun e he => ?_).trans (map_id _)
  simp [hkey e (mem_of_mem_filter he)]

theorem sameRows_replay (hr : a.Routed (before ++ later)) (hne : before ++ later ≠ []) :
    a.SameRows ((ofEntries (a.entries env before later)).writers.flatMap (a.replayRun env))
      (a.results env (before ++ later)) := by
  rw [replay_ofEntries, results_of_ne_nil hne]
  have hpart : ∀ p, a.SameRows
      ((env.iteration.order (KeyTable.collect sameKey a.newAccumulators a.mergeAll []
        ((a.entries env before later).filter fun e => partitionOf e.1 = p))).map (a.resultRow env))
      (((a.groups (before ++ later)).filter fun g => partitionOf g.1 = p).map (a.resultRow env)) := by
    intro p
    refine UpTo.perm_left (UpTo.map (agree_replay hr p) ?_) ((env.iteration.perm _).map _)
    rintro ⟨key, accs⟩ - ⟨key', accs'⟩ hg ⟨hk, halike, -⟩
    obtain rfl : key = key' := hk
    exact sameRow_resultRow (length_key_of_mem_groups (mem_of_mem_filter hg)) halike
  refine (UpTo.flatMap fun p _ => hpart p).perm_right ?_
  rw [← map_flatMap]
  refine (List.Perm.trans ?_ (env.iteration.perm _).symm).map _
  exact flatMap_filter_perm fun g _ => hashRowPartition_lt g.1 (by decide)

-- Under whatever conditions the aggregation runs to its end, it gives a row for each group, with the
-- values that it gives when it never spills.
def SpillsUnseen (a : Aggregate α) (input : List (Tuple α)) : Prop :=
  ∀ env out, Drains (a.next env) (.new input) out →
    a.OnePerGroup input out ∧ ∃ out', Drains (a.next env.granting) (.new input) out' ∧ a.SameRows out out'

theorem spillsUnseen_of_routed (hs : a.Sized input) (hr : a.Routed input) : a.SpillsUnseen input := by
  intro env out d
  obtain ⟨s, hrows, rfl⟩ := drains_iff.mp d
  have h : a.Accumulated env s input := (accumulated_new input).accumulateRows hrows
  have hsame : a.SameRows (a.outputs env s) (a.results env input) := by
    rw [outputs]
    split
    case h_1 sp hsp =>
      obtain ⟨before, refused, after, hinput, hne, rfl⟩ := h.disk sp hsp
      rw [append_assoc] at hinput
      subst hinput
      rw [spilled_eq (length_entries_le hr hs)]
      exact sameRows_replay hr hne
    case h_2 hnone =>
      rw [memoryResults_eq (h.memory hnone)]
      exact ⟨_, .refl _, List.forall₂_same.mpr fun r _ => sameRow_refl r⟩
  exact ⟨onePerGroup_results.of_sameRows hsame, _, drains_granting, hsame⟩

theorem exists_mem_replayRun (hlen : ∀ row ∈ run, a.groupBy.length ≤ row.length) (hrow : row ∈ run)
    (hkey : sameKey (row.take a.groupBy.length) key) :
    ∃ r ∈ a.replayRun env run, sameKey (r.take a.groupBy.length) key := by
  have hex : ∃ x ∈ run.map fun row => (row.take a.groupBy.length, row), sameKey x.1 key :=
    ⟨_, mem_map_of_mem hrow, hkey⟩
  obtain ⟨g, hg, hs⟩ : ∃ g ∈ KeyTable.collect sameKey a.newAccumulators a.mergeAll []
      (run.map fun row => (row.take a.groupBy.length, row)), sameKey g.1 key :=
    KeyTable.exists_same_collect hex sameKey_trans
  refine ⟨_, mem_map_of_mem ((env.iteration.perm _).mem_iff.mpr hg), ?_⟩
  obtain ⟨e, he, -⟩ | ⟨x, hx, hk⟩ := KeyTable.key_mem_collect hg
  · simp at he
  · obtain ⟨row', hrow', rfl⟩ := mem_map.mp hx
    rwa [take_resultRow (by rw [← hk, length_take, Nat.min_eq_left (hlen row' hrow')])]

theorem not_apart_of_split (hn : 0 < n)
    (hlen : ∀ e ∈ es, a.groupBy.length ≤ e.2.length) (he : e ∈ es) (he' : e' ∈ es)
    (hs : sameKey (e.2.take a.groupBy.length) (e'.2.take a.groupBy.length))
    (hne : hashRowPartition e.1 n ≠ hashRowPartition e'.1 n) :
    ¬(((HashPartitionSpiller.routed n es).flatMap (a.replayRun env)).map (·.take a.groupBy.length)).Pairwise
      fun k k' => ¬sameKey k k' := by
  intro h
  have hruns : ∀ p (hp : p < (HashPartitionSpiller.routed n es).length), ∀ row ∈ (HashPartitionSpiller.routed n es)[p],
      a.groupBy.length ≤ row.length := by
    intro p hp row hrow
    obtain ⟨e, he, rfl⟩ := mem_map.mp (getElem_routed hp ▸ hrow)
    exact hlen e (mem_of_mem_filter he)
  have hrow : ∀ {e key}, e ∈ es → sameKey (e.2.take a.groupBy.length) key →
      ∀ hp : hashRowPartition e.1 n < (HashPartitionSpiller.routed n es).length,
        ∃ r ∈ a.replayRun env (HashPartitionSpiller.routed n es)[hashRowPartition e.1 n],
          sameKey (r.take a.groupBy.length) key := by
    intro e key he hk hp
    refine exists_mem_replayRun (hruns _ hp) ?_ hk
    rw [getElem_routed hp]
    exact mem_map_of_mem (mem_filter.mpr ⟨he, by simp⟩)
  have hp : hashRowPartition e.1 n < (HashPartitionSpiller.routed n es).length := by
    simpa using hashRowPartition_lt e.1 hn
  have hp' : hashRowPartition e'.1 n < (HashPartitionSpiller.routed n es).length := by
    simpa using hashRowPartition_lt e'.1 hn
  obtain ⟨r, hr, hk⟩ := hrow he hs hp
  obtain ⟨r', hr', hk'⟩ := hrow he' (sameKey_trans (by rwa [sameKey_comm]) hs) hp'
  have hkeys : sameKey (r.take a.groupBy.length) (r'.take a.groupBy.length) :=
    sameKey_trans hk (by rwa [sameKey_comm])
  rw [pairwise_map, pairwise_flatMap] at h
  obtain hlt | hgt := Nat.lt_or_gt_of_ne hne
  · exact pairwise_iff_getElem.mp h.2 _ _ hp hp' hlt r hr r' hr' hkeys
  · exact pairwise_iff_getElem.mp h.2 _ _ hp' hp hgt r' hr' r hr (by rwa [sameKey_comm])

-- If the first group finds no memory, all rows are sent to disk one by one.
theorem drains_refusing (row : Tuple α) (rows : List (Tuple α)) :
    Drains (a.next (.refusing it)) (.new (row :: rows))
      ((a.spilled (.refusing it) [] [row] rows).writers.flatMap (a.replayRun (.refusing it))) := by
  have hrows : ∀ (n : ℕ) (s : AggregateState α) (after new : List (Tuple α)),
      s.partitionSpiller = some (a.spilled (.refusing it) [] [row] after) →
        ∃ s', a.accumulateRows (.refusing it) n s new = .ok s' ∧
          s'.partitionSpiller = some (a.spilled (.refusing it) [] [row] (after ++ new)) := by
    intro n s after new hs
    induction new generalizing n s after with
    | nil => exact ⟨_, rfl, by simpa using hs⟩
    | cons row' new ind =>
      have hrow : ∃ s₁, a.accumulateRow (.refusing it) s row' = .ok s₁ ∧
          s₁.partitionSpiller = some (a.spilled (.refusing it) [] [row] (after ++ [row'])) := by
        simp only [accumulateRow, hs, AggregateEnvironment.refusing, if_true]
        refine ⟨_, rfl, ?_⟩
        rw [spilled_concat]
        rfl
      obtain ⟨s₁, hrow, hs₁⟩ := hrow
      obtain ⟨s', hrest, hs'⟩ := ind (n + 1) s₁ (after ++ [row']) hs₁
      refine ⟨s', ?_, by simpa using hs'⟩
      rw [accumulateRows, show (AggregateEnvironment.refusing it : AggregateEnvironment α).spillRequested n = false from rfl,
        if_neg (by simp), hrow, Except.ok_bind, hrest]
  obtain ⟨s, hs, hsp⟩ := hrows 1 (a.spillRow (.refusing it) { AggregateState.new (row :: rows) with tracker := ⟨0, 1⟩ } row)
    [] rows rfl
  refine drains_iff.mpr ⟨s, hs, ?_⟩
  rw [outputs, hsp]
  rfl

theorem le_length_singleRow (row : Tuple α) : a.groupBy.length ≤ (a.singleRow env row).length := by
  simp [singleRow, partialRow]

theorem length_entries_nil_le (hs : a.Sized input) (p : ℕ) :
    ((a.entries env [] input).filter fun e => partitionOf e.1 = p).length ≤ maxRowsPerPartition := by
  have hnil : a.groups [] = [] := rfl
  rw [entries, hnil, AggregateAccumulator.order_nil, map_nil, nil_append, filter_map, length_map]
  exact hs p

theorem routed_of_spillsUnseen (hs : a.Sized input) (h : a.SpillsUnseen input) : a.Routed input := by
  intro row hrow row' hrow' hkey
  obtain ⟨first, rest, rfl⟩ := exists_cons_of_ne_nil (ne_nil_of_mem hrow)
  let env : AggregateEnvironment α := .refusing ⟨fun xs => xs, .refl⟩
  have hspilled : a.spilled env [] [first] rest =
      .ofEntries ((first :: rest).map fun row => (a.evalGroupKey row, a.singleRow env row)) :=
    spilled_eq (length_entries_nil_le hs)
  have hapart := (h env _ (drains_refusing first rest)).1.apart
  rw [hspilled] at hapart
  have htake : ∀ x, (a.singleRow env x).take a.groupBy.length = a.evalGroupKey x := fun x =>
    take_partialRow (length_evalGroupKey x)
  by_contra hne
  refine absurd hapart (not_apart_of_split (by decide) ?_ (mem_map_of_mem hrow) (mem_map_of_mem hrow') ?_ hne)
  · simpa using ⟨le_length_singleRow first, fun x _ => le_length_singleRow x⟩
  · rwa [htake, htake]

-- As long as no partition gets too many rows, spilling is not seen in the result exactly when rows of
-- one group are sent to one partition.
theorem aggregate_spills_unseen_iff (hs : a.Sized input) : a.SpillsUnseen input ↔ a.Routed input :=
  ⟨routed_of_spillsUnseen hs, spillsUnseen_of_routed hs⟩

end

section

open HashPartitionSpiller (routed)

variable {it : Iteration}

-- One row that comes again and again, once more than it takes for the partitions to be made anew, and
-- once after that.
theorem spilled_replicate (row : Tuple α) (hm : maxRowsPerPartition = m + 1)
    (hsplit : hashRowPartition (a.singleRow env row) (spillPartitionsDefault * 2) ≠
      hashRowPartition (a.evalGroupKey row) (spillPartitionsDefault * 2)) :
    ∃ rows : List (Tuple α), (∀ r, r ∈ rows ↔ r = a.singleRow env row) ∧
      (a.spilled env [] [row] (List.replicate m row ++ [row] ++ [row])).writers =
        routed (spillPartitionsDefault * 2) (rows.map (fun r => (r, r)) ++ [(a.evalGroupKey row, a.singleRow env row)]) := by
  let e := (a.evalGroupKey row, a.singleRow env row)
  have hentries : a.entries env [] ([row] ++ List.replicate m row) = List.replicate (m + 1) e := by
    have hnil : a.groups [] = [] := rfl
    rw [entries, hnil, AggregateAccumulator.order_nil, map_nil, nil_append, singleton_append,
      ← replicate_succ, map_replicate]
  have hfirst : a.spilled env [] [row] (List.replicate m row) = .ofEntries (List.replicate (m + 1) e) := by
    rw [spilled_eq, hentries]
    intro p
    refine Nat.le_trans (length_filter_le _ _) ?_
    rw [hentries, length_replicate, hm]
  let rows := (routed spillPartitionsDefault (List.replicate (m + 1) e ++ [e])).flatten
  have hrows : ∀ r, r ∈ rows ↔ r = a.singleRow env row := by
    intro r
    rw [mem_flatten_routed (by decide)]
    simp [e, eq_comm]
  have hmore : a.writeRow env (.ofEntries (List.replicate (m + 1) e)) row =
      ⟨spillPartitionsDefault * 2, routed (spillPartitionsDefault * 2) (rows.map fun r => (r, r)), 0 + 1⟩ := by
    refine insertRowToPartition_full e (by decide) (by decide) (by decide) ?_
    rw [← replicate_succ', filter_eq_self.mpr (by simp), length_replicate, hm]
    exact Nat.lt_succ_self _
  have hlast : a.writeRow env ⟨spillPartitionsDefault * 2, routed (spillPartitionsDefault * 2)
      (rows.map fun r => (r, r)), 0 + 1⟩ row = ⟨spillPartitionsDefault * 2,
        routed (spillPartitionsDefault * 2) (rows.map (fun r => (r, r)) ++ [e]), 0 + 1⟩ := by
    refine insertRowToPartition_routed e (by decide) ?_
    rw [filter_append, filter_eq_nil_iff.mpr]
    · exact Nat.le_trans (length_filter_le _ _) (by decide : 1 ≤ maxRowsPerPartition)
    · simpa [hrows] using hsplit
  refine ⟨rows, hrows, ?_⟩
  rw [spilled_concat, spilled_concat, hfirst, hmore, hlast]

-- The last row and the rows before it are in different partitions.
theorem not_spillsUnseen_replicate (hkey : sameKey (a.evalGroupKey row) (a.evalGroupKey row))
    (hsplit : hashRowPartition (a.singleRow (.refusing it) row) (spillPartitionsDefault * 2) ≠
      hashRowPartition (a.evalGroupKey row) (spillPartitionsDefault * 2)) :
    ¬a.SpillsUnseen (List.replicate (maxRowsPerPartition + 2) row) := by
  intro h
  obtain ⟨m, hm⟩ : ∃ m, maxRowsPerPartition = m + 1 := Nat.exists_eq_succ_of_ne_zero (by decide)
  obtain ⟨rows, hrows, hwriters⟩ := spilled_replicate row hm hsplit
  have hinput : List.replicate (maxRowsPerPartition + 2) row = row :: (List.replicate m row ++ [row] ++ [row]) := by
    rw [hm, ← replicate_succ', ← replicate_succ', ← replicate_succ]
  rw [hinput] at h
  have hapart := (h (.refusing it) _ (drains_refusing row _)).1.apart
  rw [hwriters] at hapart
  have htake : (a.singleRow (.refusing it) row).take a.groupBy.length = a.evalGroupKey row :=
    take_partialRow (length_evalGroupKey row)
  have hbefore : (a.singleRow (.refusing it) row, a.singleRow (.refusing it) row) ∈ rows.map fun r => (r, r) :=
    mem_map.mpr ⟨_, (hrows _).mpr rfl, rfl⟩
  refine absurd hapart (not_apart_of_split (by decide) ?_ (mem_append_left _ hbefore)
    (mem_append_right _ (mem_singleton_self _)) ?_ hsplit)
  · intro e he
    obtain he | he := mem_append.mp he
    · obtain ⟨r, hr, rfl⟩ := mem_map.mp he
      rw [(hrows r).mp hr]
      exact le_length_singleRow row
    · rw [mem_singleton.mp he]
      exact le_length_singleRow row
  · rwa [htake]

end

-- The number of rows for each value of a column.
def countByKey : Aggregate Empty where
  evaluate _ _ _ := .error "not a variable"
  text _ := ""
  columns := ["k"]
  identity _ := false
  groupBy := [.variable "k"]
  functions := [(.count, [])]

theorem aggregate_spills_unseen_countByKey :
    countByKey.Sized [[.int 1], [.int 1], [.int 2]] ∧ countByKey.SpillsUnseen [[.int 1], [.int 1], [.int 2]] := by
  have hsized : countByKey.Sized [[.int 1], [.int 1], [.int 2]] := fun p =>
    Nat.le_trans (length_filter_le _ _) (by decide)
  exact ⟨hsized, (aggregate_spills_unseen_iff hsized).mpr (by unfold Routed; decide +kernel)⟩

-- One group whose rows are all alike, one of them more than it takes for the partitions to be made
-- anew, and one after it.
def overfull : List (Tuple Empty) :=
  List.replicate (maxRowsPerPartition + 2) [.int 1]

-- By then the rows are sent to a partition by their key and their count, the last one by its key.
theorem aggregate_spill_splits_overfull_group : ¬countByKey.SpillsUnseen overfull := by
  have hsplit : hashRowPartition (countByKey.singleRow (.refusing ⟨fun xs => xs, .refl⟩) [.int 1])
      (spillPartitionsDefault * 2) ≠ hashRowPartition (countByKey.evalGroupKey [.int 1])
        (spillPartitionsDefault * 2) := by
    decide +kernel
  exact not_spillsUnseen_replicate (by decide +kernel) hsplit

end Aggregate
end Linkrs
