import Linkrs.Query.HashJoin
import Mathlib.Data.List.Range

namespace Linkrs

open List Except

variable {α : Type} [Serialized α]

namespace HashJoinBuildSide

variable {key : Tuple α → QueryResult (JoinKeyValue α)} {w : ℕ} {side side' : HashJoinBuildSide α}
  {rows new : List (Tuple α)}

def keyOf (key : Tuple α → QueryResult (JoinKeyValue α)) (row : Tuple α) : JoinKeyValue α :=
  (key row).getD (.multi [])

-- The build side was made of some rows of one width, in order. Rows without columns are not stored
-- and only counted by the index.
structure Holds (key : Tuple α → QueryResult (JoinKeyValue α)) (w : ℕ) (side : HashJoinBuildSide α)
    (rows : List (Tuple α)) : Prop where
  columns : side.buildColumns = 0 ∨ side.buildColumns = w
  width : ∀ row ∈ rows, row.length = w
  stored : side.rows = if w = 0 then [] else rows
  index : ∃ is : List ℕ, is.length = rows.length ∧ (w ≠ 0 → is = List.range rows.length) ∧
    side.index = KeyTable.collect JoinKeyValue.same [] (fun is i => is ++ [i]) []
      ((rows.map (keyOf key)).zip is)

theorem holds_new : Holds key w .new [] where
  columns := .inl rfl
  width := by simp
  stored := by simp [HashJoinBuildSide.new]
  index := ⟨[], rfl, fun _ => rfl, rfl⟩

theorem Holds.map_rowAt (h : Holds key w side rows) (hlen : is.length = rows.length)
    (hrange : w ≠ 0 → is = List.range rows.length) : is.map side.rowAt = rows := by
  by_cases hw : w = 0
  · have hrow : side.rowAt = fun _ => [] := by
      funext i
      simp [rowAt, h.stored, hw]
    have hrows : rows = List.replicate rows.length [] :=
      eq_replicate_iff.mpr ⟨rfl, fun row hr => length_eq_zero_iff.mp (hw ▸ h.width row hr)⟩
    rw [hrow, map_const', hlen, ← hrows]
  · rw [hrange hw]
    apply ext_getElem <;> simp [rowAt, h.stored, hw]
    grind

theorem Holds.keys_zip (h : Holds key w side rows) (hlen : is.length = rows.length)
    (hrange : w ≠ 0 → is = List.range rows.length) :
    (rows.map (keyOf key)).zip is = is.map fun i => (keyOf key (side.rowAt i), i) := by
  conv_lhs => rw [← h.map_rowAt hlen hrange, map_map]
  rw [zip_map_left]
  simp [zip_eq_zipWith]

theorem Holds.matching (h : Holds key w side rows) (k : JoinKeyValue α) :
    (side.matching k).map (·.map side.rowAt) =
      if (rows.filter fun row => (keyOf key row).same k) = [] then none
      else some (rows.filter fun row => (keyOf key row).same k) := by
  obtain ⟨is, hlen, hrange, hindex⟩ := h.index
  have hfilter : rows.filter (fun row => (keyOf key row).same k) =
      (is.filter fun i => (keyOf key (side.rowAt i)).same k).map side.rowAt := by
    conv_lhs => rw [← h.map_rowAt hlen hrange, filter_map]
    rfl
  rw [HashJoinBuildSide.matching, hindex, h.keys_zip hlen hrange,
    KeyTable.get?_collect_append JoinKeyValue.same_comm JoinKeyValue.same_trans, filter_map, hfilter]
  split <;> simp_all [Function.comp_def]

theorem Holds.rowCount (h : Holds key w side rows) (hw : w ≠ 0) : side.rowCount = rows.length := by
  rw [HashJoinBuildSide.rowCount, h.stored, if_neg hw]

-- What is added when rows come in with the positions that they are indexed under.
def extended (side : HashJoinBuildSide α) (w : ℕ) (new : List (Tuple α)) (keys : List (JoinKeyValue α × ℕ)) :
    HashJoinBuildSide α :=
  ⟨(side.store w new).1, (side.store w new).2, side.addToIndex keys⟩

theorem Holds.extended (h : Holds key w side rows) (hnew : ∀ row ∈ new, row.length = w)
    (hlen : is.length = new.length) (hrange : w ≠ 0 → is = List.range' rows.length new.length) :
    Holds key w (side.extended w new ((new.map (keyOf key)).zip is)) (rows ++ new) where
  columns := by
    by_cases hw : w = 0 <;> simp [HashJoinBuildSide.extended, store, hw]
  width := fun row hr => (mem_append.mp hr).elim (h.width row) (hnew row)
  stored := by
    by_cases hw : w = 0 <;> simp [HashJoinBuildSide.extended, store, hw, h.stored]
  index := by
    obtain ⟨old, holen, horange, hindex⟩ := h.index
    refine ⟨old ++ is, by simp [holen, hlen], fun hw => ?_, ?_⟩
    · rw [horange hw, hrange hw, length_append, range_eq_range', range_eq_range', ← range'_append_1, Nat.zero_add]
    · rw [HashJoinBuildSide.extended, addToIndex, hindex, map_append,
        zip_append (by simp [holen]), KeyTable.collect_append]

theorem insertChunk_eq_ok (hc : side.buildColumns = 0 ∨ side.buildColumns = w) :
    side.insertChunk key w typed new = .ok side' ↔ (∀ row ∈ new, (key row).isOk) ∧
      side' = side.extended w (gathered w typed new)
        ((new.map (keyOf key)).zip (List.range' side.rowCount new.length)) := by
  have hc' : side.buildColumns = 0 ∨ w = side.buildColumns := by grind
  rw [insertChunk, bind_eq_ok]
  simp only [mapM_eq_ok_iff (JoinKeyValue.multi []), ensure_of hc', ok_bind, pure,
    Except.pure, Except.ok.injEq, and_assoc, exists_and_left, exists_eq_left', zipIdx_eq_zip_range',
    length_map, extended]
  exact and_congr_right fun _ => Eq.comm

omit [Serialized α] in
theorem gathered_typedColumns (env : JoinEnvironment α) (hrows : ∀ row ∈ rows, row.length = w) :
    gathered w (env.typedColumns rows) rows = rows := by
  cases hf : (env.typedColumns rows).filter (·.length = w) with
  | none => simp [gathered, hf]
  | some columns =>
    obtain ⟨hc, hw⟩ := Option.filter_eq_some_iff.mp hf
    simp only [gathered, hf]
    exact env.typed rows columns hc fun row hr => (hrows row hr).trans (of_decide_eq_true hw).symm

theorem Holds.insertChunk {env : JoinEnvironment α} (h : Holds key w side rows)
    (hnew : ∀ row ∈ new, row.length = w) (hi : side.insertChunk key w (env.typedColumns new) new = .ok side') :
    (∀ row ∈ new, (key row).isOk) ∧ Holds key w side' (rows ++ new) := by
  obtain ⟨hok, rfl⟩ := (insertChunk_eq_ok h.columns).mp hi
  rw [gathered_typedColumns env hnew]
  exact ⟨hok, h.extended hnew (by simp) fun hw => by rw [h.rowCount hw]⟩

theorem Holds.insertChunk_isOk (h : Holds key w side rows) (hok : ∀ row ∈ new, (key row).isOk)
    (typed : Option (List (List (Value α)))) :
    (side.insertChunk key w typed new).isOk :=
  isOk_iff.mpr ⟨_, (insertChunk_eq_ok h.columns).mpr ⟨hok, rfl⟩⟩

theorem insertKeyedRow_eq_ok (hc : side.buildColumns = 0 ∨ side.buildColumns = w)
    (hrow : row.length = w) (hk : key row = .ok k) : side.insertKeyedRow k row = .ok
      (side.extended w [row] (([row].map (keyOf key)).zip [(side.store w [row]).2.length - 1])) := by
  subst hrow
  have hc' : side.buildColumns = 0 ∨ row.length = side.buildColumns := by grind
  simp [insertKeyedRow, ensure_of hc', extended, keyOf, hk, pure, Except.pure]

theorem Holds.insertKeyedRow (h : Holds key w side rows) (hrow : row.length = w) (hk : key row = .ok k) :
    ∃ side', side.insertKeyedRow k row = .ok side' ∧ Holds key w side' (rows ++ [row]) := by
  refine ⟨_, insertKeyedRow_eq_ok h.columns hrow hk, h.extended (by simpa using hrow) rfl fun hw => ?_⟩
  simp [store, hw, h.stored, range'_one]

end HashJoinBuildSide

-- All memory is granted and no spill is asked for.
structure JoinEnvironment.Grants (env : JoinEnvironment α) : Prop where
  budget : ∀ n bytes, env.budget n bytes = .ok ()
  spillRequested : ∀ n, env.spillRequested n = false

def JoinEnvironment.granting (env : JoinEnvironment α) : JoinEnvironment α :=
  { env with budget := fun _ _ => .ok (), spillRequested := fun _ => false }

omit [Serialized α] in
theorem JoinEnvironment.grants_granting (env : JoinEnvironment α) : env.granting.Grants :=
  ⟨fun _ _ => rfl, fun _ => rfl⟩

namespace HashJoin

open HashJoinBuildSide (keyOf Holds)

variable (j : HashJoin α) (env : JoinEnvironment α)

def joined (row : Tuple α) (builds : List (Tuple α)) : QueryResult (List (Tuple α)) :=
  if builds.isEmpty then j.unmatched row else j.joinMatches row builds

-- What a row is owed, by all rows of the build side.
def answer (build : List (Tuple α)) (row : Tuple α) : QueryResult (List (Tuple α)) := do
  let key ← j.probeKey row
  j.joined row (build.filter fun b => (keyOf j.buildKey b).same key)

variable {j env} {w : ℕ} {side : HashJoinBuildSide α} {build rows : List (Tuple α)}

theorem probeRow_eq (h : Holds j.buildKey w side build) (row : Tuple α) :
    j.probeRow side row = j.answer build row := by
  rw [probeRow, answer]
  congr 1
  funext key
  have hm := h.matching key
  cases hs : side.matching key with
  | none =>
    have : build.filter (fun b => (keyOf j.buildKey b).same key) = [] := by
      by_contra hne
      simp [hs, hne] at hm
    simp [joined, this]
  | some indices =>
    have : build.filter (fun b => (keyOf j.buildKey b).same key) ≠ [] ∧
        indices.map side.rowAt = build.filter fun b => (keyOf j.buildKey b).same key := by
      simpa [hs, Option.some_eq_ite_none_left] using hm
    simp [joined, this.1, this.2]

omit [Serialized α] in
theorem joinMatches_of_none (hc : j.joinCondition = none) (row : Tuple α) (builds : List (Tuple α)) :
    j.joinMatches row builds = .ok (builds.map (row ++ ·)) := by
  induction builds with
  | nil => rfl
  | cons b bs ind =>
    have hs : j.satisfied row b = .ok true := by rw [satisfied, hc]
    rw [joinMatches, hs, ind]
    rfl

omit [Serialized α] in
theorem joined_of_none (hc : j.joinCondition = none) (hl : j.leftJoin = false) (row : Tuple α)
    (builds : List (Tuple α)) : j.joined row builds = .ok (builds.map (row ++ ·)) := by
  rw [joined]
  split
  case isTrue he =>
    rw [List.isEmpty_iff.mp he, unmatched, hl]
    rfl
  case isFalse he => exact joinMatches_of_none hc row builds

-- What some rows are owed together.
def answers (j : HashJoin α) (build rows : List (Tuple α)) : List (Tuple α) :=
  rows.flatMap fun row => (j.answer build row).getD []

@[simp]
theorem answers_nil : j.answers build [] = [] :=
  rfl

@[simp]
theorem answers_append (rows rows' : List (Tuple α)) :
    j.answers build (rows ++ rows') = j.answers build rows ++ j.answers build rows' :=
  flatMap_append

theorem probeRows_eq_ok (h : Holds j.buildKey w side build) : j.probeRows side rows = .ok out ↔
      (∀ row ∈ rows, (j.answer build row).isOk) ∧ j.answers build rows = out := by
  have hf : j.probeRow side = j.answer build := funext (probeRow_eq h)
  simp only [probeRows, hf, bind_eq_ok, mapM_eq_ok_iff ([] : List (Tuple α)), and_assoc,
    exists_and_left, exists_eq_left', pure, Except.pure, Except.ok.injEq, answers, flatMap_def]

theorem probeChunks_eq_ok (h : Holds j.buildKey w side build) (hp : j.probeChunks side chunks = .ok (out, rest)) :
    ∃ pre, chunks = pre ++ rest ∧ (∀ row ∈ pre.flatten, (j.answer build row).isOk) ∧
      j.answers build pre.flatten = out ∧ (out = [] → rest = []) ∧ (out ≠ [] → pre ≠ []) := by
  induction chunks with
  | nil => exact ⟨[], by simp_all [probeChunks]⟩
  | cons chunk chunks ind =>
    obtain ⟨found, hfound, hp⟩ := bind_eq_ok.mp hp
    have ⟨hok, hout⟩ := (probeRows_eq_ok h).mp hfound
    split at hp
    case isTrue he =>
      obtain ⟨pre, hpre, hoks, houts, hrest, -⟩ := ind hp
      refine ⟨chunk :: pre, by rw [hpre, cons_append], ?_, ?_, hrest, by simp⟩
      · simpa [or_imp, forall_and] using ⟨hok, by simpa using hoks⟩
      · simp_all
    case isFalse he =>
      exact ⟨[chunk], by simp_all⟩

theorem probeChunks_isOk (h : Holds j.buildKey w side build)
    (hok : ∀ row ∈ chunks.flatten, (j.answer build row).isOk) : (j.probeChunks side chunks).isOk := by
  induction chunks with
  | nil => rfl
  | cons chunk chunks ind =>
    simp only [flatten_cons, mem_append, or_imp, forall_and] at hok
    rw [probeChunks, (probeRows_eq_ok h).mpr ⟨hok.1, rfl⟩, ok_bind]
    split
    · exact ind hok.2
    · rfl

section

variable {s : JoinState α} {out : List (Tuple α)}

theorem next_memory (hp : s.partitioned = none) (hd : s.buildDone) : j.next env w s = j.probeMemory s := by
  simp [next, hp, hd]

theorem probeMemory_eq_ok :
    j.probeMemory s = .ok (o, s') ↔ ∃ out rest, j.probeChunks s.buildSide s.probeInput = .ok (out, rest) ∧
      (if out = [] then none else some out) = o ∧ { s with probeInput := rest } = s' := by
  simp [probeMemory, bind_eq_ok, pure, Except.pure]

theorem drains_memory (hp : s.partitioned = none) (hd : s.buildDone)
    (h : Holds j.buildKey w s.buildSide build) (d : Drains (j.next env w) s out) :
    (∀ row ∈ s.probeInput.flatten, (j.answer build row).isOk) ∧ j.answers build s.probeInput.flatten = out := by
  induction d with
  | done hn =>
    rw [next_memory hp hd, probeMemory_eq_ok] at hn
    obtain ⟨out, rest, hc, ho, -⟩ := hn
    obtain ⟨pre, hpre, hok, hout, hrest, -⟩ := probeChunks_eq_ok h hc
    have he : out = [] := by
      by_contra hne
      simp [hne] at ho
    rw [hpre, hrest he, append_nil]
    exact ⟨hok, hout.trans he⟩
  | more hn d ind =>
    rw [next_memory hp hd, probeMemory_eq_ok] at hn
    obtain ⟨out, rest, hc, ho, rfl⟩ := hn
    obtain ⟨pre, hpre, hok, hout, -⟩ := probeChunks_eq_ok h hc
    have hxs := ind hp hd h
    split at ho
    · simp at ho
    · cases ho
      rw [hpre, flatten_append, answers_append, hout, hxs.2]
      exact ⟨fun row hr => (mem_append.mp hr).elim (hok row) (hxs.1 row), rfl⟩

theorem drains_memory_of_isOk (hp : s.partitioned = none) (hd : s.buildDone)
    (h : Holds j.buildKey w s.buildSide build) (hok : ∀ row ∈ s.probeInput.flatten, (j.answer build row).isOk) :
    Drains (j.next env w) s (j.answers build s.probeInput.flatten) := by
  -- each call that gives something uses up a chunk
  induction hn : s.probeInput.length using Nat.strong_induction_on generalizing s with
  | _ n ind =>
    obtain ⟨⟨out, rest⟩, hc⟩ := isOk_iff.mp (probeChunks_isOk h hok)
    obtain ⟨pre, hpre, -, hout, hrest, hne⟩ := probeChunks_eq_ok h hc
    have hnext : j.next env w s = .ok (if out = [] then none else some out, { s with probeInput := rest }) := by
      rw [next_memory hp hd, probeMemory_eq_ok]
      exact ⟨out, rest, hc, rfl, rfl⟩
    by_cases he : out = []
    · rw [hpre, hrest he, append_nil, hout, he]
      exact .done (by rw [hnext, if_pos he])
    · rw [hpre, flatten_append, answers_append, hout]
      refine .more (by rw [hnext, if_neg he]) (ind rest.length ?_ (s := { s with probeInput := rest }) hp hd h ?_ rfl)
      · have := length_pos_of_ne_nil (hne he)
        rw [← hn, hpre, length_append]
        omega
      · intro row hr
        exact hok row (by rw [hpre, flatten_append]; exact mem_append_right _ hr)

end

section

variable {s : JoinState α} {chunks : List (List (Tuple α))}

omit [Serialized α] in
theorem reserveRows_granted (t : MemoryTracker) (rows : List (Tuple α))
    (hg : ∀ n bytes, t.requests ≤ n → n < t.requests + rows.length → env.budget n bytes = .ok ()) :
    (reserveRows env t rows).1 = true ∧ (reserveRows env t rows).2.requests = t.requests + rows.length := by
  induction rows generalizing t with
  | nil => exact ⟨rfl, rfl⟩
  | cons row rows ind =>
    have hrow := hg t.requests (env.rowMemory row) (le_refl _) (by simp)
    simp only [reserveRows, MemoryTracker.tryReserve, hrow, length_cons] at hg ⊢
    have := ind ⟨t.currentBytes + env.rowMemory row, t.requests + 1⟩ fun n bytes hn hlt => by
      dsimp only at hn hlt
      exact hg n bytes (by omega) (by omega)
    exact ⟨this.1, this.2.trans (by dsimp only; omega)⟩

theorem buildInMemory_granted (hp : (reserveRows env s.tracker rows).1 = true) (h : Holds j.buildKey w s.buildSide build)
    (hw : ∀ row ∈ rows, row.length = w) (hk : ∀ row ∈ rows, (j.buildKey row).isOk) :
    ∃ side, Holds j.buildKey w side (build ++ rows) ∧ j.buildInMemory env w s rows =
      .ok { s with buildSide := side, tracker := (reserveRows env s.tracker rows).2 } := by
  obtain ⟨side, hside⟩ := isOk_iff.mp (h.insertChunk_isOk hk (env.typedColumns rows))
  exact ⟨side, (h.insertChunk hw hside).2, by simp [buildInMemory, hp, hside, pure, Except.pure]⟩

theorem buildSideLoop_granted (hg : env.Grants) (n : ℕ) (hp : s.pendingBuild = none)
    (h : Holds j.buildKey w s.buildSide build) (hw : ∀ row ∈ chunks.flatten, row.length = w)
    (hk : ∀ row ∈ chunks.flatten, (j.buildKey row).isOk) :
    ∃ side t, Holds j.buildKey w side (build ++ chunks.flatten) ∧ j.buildSideLoop env w n s chunks =
        .ok { s with buildSide := side, buildDone := true, tracker := t, buildInput := [] } := by
  induction chunks generalizing n s build with
  | nil => exact ⟨s.buildSide, s.tracker, by simpa using h, rfl⟩
  | cons chunk chunks ind =>
    simp only [flatten_cons, mem_append, or_imp, forall_and] at hw hk
    obtain ⟨side, hside, hstep⟩ := buildInMemory_granted
      (reserveRows_granted s.tracker chunk fun n bytes _ _ => hg.budget n bytes).1 h hw.1 hk.1
    obtain ⟨side', t, hside', hloop⟩ := ind (n + 1) (s := { s with
      buildSide := side, tracker := (reserveRows env s.tracker chunk).2 }) hp hside hw.2 hk.2
    refine ⟨side', t, by simpa using hside', ?_⟩
    simpa [buildSideLoop, buildRequested, hg.spillRequested, buildChunk, hp, hstep] using hloop

theorem drains_granted (hg : env.Grants)
    (hw : ∀ row ∈ chunks.flatten, row.length = w) (hk : ∀ row ∈ chunks.flatten, (j.buildKey row).isOk)
    (hok : ∀ row ∈ probe.flatten, (j.answer chunks.flatten row).isOk) :
    Drains (j.next env w) (.new chunks probe) (j.answers chunks.flatten probe.flatten) := by
  obtain ⟨side, t, hside, hloop⟩ := buildSideLoop_granted (s := .new chunks probe) hg 0 rfl
    HashJoinBuildSide.holds_new hw hk
  have d : Drains (j.next env w) { JoinState.new chunks probe with
      buildSide := side, buildDone := true, tracker := t, buildInput := [] } _ :=
    drains_memory_of_isOk rfl rfl hside hok
  refine d.of_next_eq (Eq.trans ?_ (next_memory rfl rfl).symm)
  have hbuild : j.next env w (.new chunks probe) =
      j.buildSideLoop env w 0 (.new chunks probe) chunks >>= j.afterBuild env := rfl
  rw [hbuild, hloop]
  rfl

end

end HashJoin
end Linkrs
