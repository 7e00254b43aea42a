import Linkrs.Lib.Grouping
import Linkrs.Query.Aggregate

namespace Linkrs

open List

variable {α : Type} [Serialized α]

theorem sameKey_comm (k k' : Tuple α) : sameKey k k' = sameKey k' k :=
  Value.same_comm _ _

theorem sameKey_trans {k k' k'' : Tuple α} (h : sameKey k k') (h' : sameKey k' k'') : sameKey k k'' :=
  Value.same_trans h h'

namespace Aggregate

variable {a : Aggregate α} {env : AggregateEnvironment α}

section

variable {s : AggregateState α}

-- The input has been read, and there are rows to give or partitions to look at.
structure Serving (s : AggregateState α) : Prop where
  spiller : s.partitionSpiller = none
  offset : s.emittedOffset ≤ s.resultBatch.length
  phase : s.hasSpilled ∨ s.resultBatch ≠ []

def owed (a : Aggregate α) (env : AggregateEnvironment α) (s : AggregateState α) : List (Tuple α) :=
  s.resultBatch.drop s.emittedOffset ++
    if s.hasSpilled then (s.spilledRuns.drop s.currentPartition).flatMap (a.replayRun env) else []

theorem emitBatchSlice_spec (h : s.emittedOffset < s.resultBatch.length) (hs : s.partitionSpiller = none) :
    ∃ slice s', emitBatchSlice s = (some slice, s') ∧ slice ≠ [] ∧ Serving s' ∧
      a.owed env s = slice ++ a.owed env s' := by
  refine ⟨_, _, rfl, ?_, ⟨hs, ?_, .inr ?_⟩, ?_⟩
  · simpa [emitBatchRows] using h
  · simp only [length_take, length_drop]
    omega
  · exact ne_nil_of_length_pos (Nat.zero_lt_of_lt h)
  · simp only [owed]
    rw [← drop_drop, ← append_assoc, take_append_drop_length]

theorem replayRuns_spec (h : a.replayRuns env current runs = (current', rows)) :
    current ≤ current' ∧ runs.flatMap (a.replayRun env) =
      rows ++ (runs.drop (current' - current)).flatMap (a.replayRun env) ∧
        (rows = [] → runs.flatMap (a.replayRun env) = []) := by
  induction runs generalizing current with
  | nil =>
    obtain ⟨rfl, rfl⟩ : current = current' ∧ [] = rows := by simpa [replayRuns] using h
    simp
  | cons run runs ind =>
    rw [replayRuns] at h
    split at h
    case isTrue he =>
      obtain ⟨hle, hflat, hnil⟩ := ind h
      have he : a.replayRun env run = [] := by simpa using he
      obtain ⟨n, hn⟩ : ∃ n, current' - current = n + 1 := ⟨current' - current - 1, by omega⟩
      rw [hn, drop_succ_cons, flatMap_cons, he, nil_append]
      exact ⟨by omega, by rw [hflat]; congr 3; omega, hnil⟩
    case isFalse he =>
      obtain ⟨rfl, rfl⟩ : current + 1 = current' ∧ a.replayRun env run = rows := by simpa using h
      refine ⟨by omega, ?_, fun hr => absurd hr (by simpa using he)⟩
      rw [Nat.add_sub_cancel_left, drop_succ_cons, drop_zero, flatMap_cons]

theorem emitResults_spec (rows : List (Tuple α)) (hs : s.partitionSpiller = none) :
    ∃ o s', emitResults s rows = (o, s') ∧ o ≠ some [] ∧ (o = none → rows = []) ∧ ∀ slice, o = some slice →
      Serving s' ∧ a.owed env { s with resultBatch := rows, emittedOffset := 0 } = slice ++ a.owed env s' := by
  rw [emitResults]
  split
  case isTrue he => exact ⟨none, s, rfl, by simp, fun _ => by simpa using he, by simp⟩
  case isFalse he =>
    have hlt : 0 < rows.length := length_pos_of_ne_nil (by simpa using he)
    obtain ⟨slice, s', hs', hne, hserving, howed⟩ := emitBatchSlice_spec (a := a)
      (s := { s with resultBatch := rows, emittedOffset := 0 }) hlt hs
    refine ⟨some slice, s', hs', by simpa using hne, by simp, ?_⟩
    rintro _ ⟨⟩
    exact ⟨hserving, howed⟩

theorem replay_spec (hs : s.partitionSpiller = none) (hspilled : s.hasSpilled) :
    ∃ o s', a.replay env s = (o, s') ∧ o ≠ some [] ∧
      (o = none → (s.spilledRuns.drop s.currentPartition).flatMap (a.replayRun env) = []) ∧
        ∀ slice, o = some slice → Serving s' ∧
          (s.spilledRuns.drop s.currentPartition).flatMap (a.replayRun env) = slice ++ a.owed env s' := by
  rw [replay]
  cases hr : a.replayRuns env s.currentPartition (s.spilledRuns.drop s.currentPartition) with | _ current rows
  obtain ⟨hle, hflat, hnil⟩ := replayRuns_spec hr
  obtain ⟨o, s', hs', hne, hnone, hsome⟩ :=
    emitResults_spec (a := a) (s := { s with currentPartition := current }) rows hs
  refine ⟨o, s', hs', hne, fun ho => hnil (hnone ho), fun slice ho => ⟨(hsome slice ho).1, ?_⟩⟩
  rw [← (hsome slice ho).2, hflat, drop_drop, owed]
  simp only [drop_zero, hspilled, if_true]
  rw [Nat.add_sub_cancel' hle]

-- Each call gives the next part of what is owed, and gives nothing only at the end.
theorem next_serving (h : Serving s) : ∃ o s', a.next env s = .ok (o, s') ∧ o ≠ some [] ∧
    (o = none → a.owed env s = []) ∧ ∀ slice, o = some slice → Serving s' ∧ a.owed env s = slice ++ a.owed env s' := by
  rw [next]
  split
  case isTrue hlt =>
    obtain ⟨slice, s', hs', hne, hserving, howed⟩ := emitBatchSlice_spec (a := a) hlt h.spiller
    refine ⟨some slice, s', by rw [hs'], by simpa using hne, by simp, ?_⟩
    rintro _ ⟨⟩
    exact ⟨hserving, howed⟩
  case isFalse hge =>
    have hdrop : s.resultBatch.drop s.emittedOffset = [] := drop_eq_nil_of_le (by omega)
    split
    case isTrue hend =>
      rw [owed, hdrop, nil_append]
      obtain hn | hle := hend.2
      · simp_all
      · simp [drop_eq_nil_of_le hle]
    case isFalse hend =>
      have hspilled : s.hasSpilled := by
        obtain hs | hs := h.phase
        · exact hs
        · by_contra hns
          have := length_pos_of_ne_nil hs
          exact hend ⟨by omega, .inl (by simpa using hns)⟩
      have howed : a.owed env s = (s.spilledRuns.drop s.currentPartition).flatMap (a.replayRun env) := by
        rw [owed, hdrop, nil_append, if_pos hspilled]
      rw [howed]
      have hreplay : ∀ s₁ : AggregateState α, s₁.hasSpilled = s.hasSpilled → s₁.partitionSpiller = s.partitionSpiller →
          (if s₁.hasSpilled ∧ s₁.partitionSpiller.isNone then .ok (a.replay env s₁) else a.accumulatePhase env s₁) =
            .ok (a.replay env s₁) := fun s₁ h₁ h₂ => if_pos (by simp [h₁, h₂, hspilled, h.spiller])
      split
      · obtain ⟨o, s', hs', hrest⟩ :=
          replay_spec (a := a) (s := { s with resultBatch := [], emittedOffset := 0 }) h.spiller hspilled
        exact ⟨o, s', (hreplay { s with resultBatch := [], emittedOffset := 0 } rfl rfl).trans (by rw [hs']), hrest⟩
      · obtain ⟨o, s', hs', hrest⟩ := replay_spec (a := a) h.spiller hspilled
        exact ⟨o, s', (hreplay s rfl rfl).trans (by rw [hs']), hrest⟩

theorem drains_serving (h : Serving s) : Drains (a.next env) s (a.owed env s) := by
  induction hn : (a.owed env s).length using Nat.strong_induction_on generalizing s with
  | _ n ind =>
    obtain ⟨o, s', hnext, hne, hnone, hsome⟩ := next_serving (a := a) h
    cases o with
    | none =>
      rw [hnone rfl]
      exact .done hnext
    | some slice =>
      obtain ⟨h', howed⟩ := hsome slice rfl
      have hpos : 0 < slice.length := length_pos_of_ne_nil fun he => hne (he ▸ rfl)
      rw [howed]
      refine .more hnext (ind _ ?_ h' rfl)
      rw [← hn, howed, length_append]
      omega

end

section

variable {s s' : AggregateState α} {rows : List (Tuple α)}

def items (a : Aggregate α) (rows : List (Tuple α)) : List (Tuple α × List (Value α)) :=
  rows.map fun row => (a.evalGroupKey row, a.argValues row)

def groups (a : Aggregate α) (rows : List (Tuple α)) : GroupMap α :=
  KeyTable.collect sameKey a.newAccumulators a.accumulateAll [] (a.items rows)

theorem groups_concat (rows : List (Tuple α)) (row : Tuple α) : a.groups (rows ++ [row]) =
    KeyTable.alter sameKey (a.evalGroupKey row)
      (fun accs => a.accumulateAll (accs.getD a.newAccumulators) (a.argValues row)) (a.groups rows) := by
  rw [groups, items, map_append, KeyTable.collect_append]
  rfl

-- A row is sent to its partition among all that there are, or among those there were at first.
def writeRow (a : Aggregate α) (env : AggregateEnvironment α) (sp : HashPartitionSpiller α) (row : Tuple α) :
    HashPartitionSpiller α :=
  sp.insertRowToPartition (a.singleRow env row) (hashRowPartition (a.evalGroupKey row) sp.numPartitions)

def writeFirstRow (a : Aggregate α) (env : AggregateEnvironment α) (sp : HashPartitionSpiller α) (row : Tuple α) :
    HashPartitionSpiller α :=
  sp.insertRowToPartition (a.singleRow env row) (hashRowPartition (a.evalGroupKey row) spillPartitionsDefault)

-- What is on disk: the groups of some rows, the row whose group found no memory, and the rows after it.
def spilled (a : Aggregate α) (env : AggregateEnvironment α) (before refused after : List (Tuple α)) :
    HashPartitionSpiller α :=
  after.foldl (a.writeRow env) (refused.foldl (a.writeFirstRow env) (spillGroups env (a.groups before)))

theorem spilled_concat {before refused after : List (Tuple α)} (row : Tuple α) :
    a.spilled env before refused (after ++ [row]) = a.writeRow env (a.spilled env before refused after) row :=
  foldl_append

structure Accumulated (a : Aggregate α) (env : AggregateEnvironment α) (s : AggregateState α) (rows : List (Tuple α)) :
    Prop where
  resultBatch : s.resultBatch = []
  emittedOffset : s.emittedOffset = 0
  hasSpilled : s.hasSpilled = s.partitionSpiller.isSome
  memory : s.partitionSpiller = none → s.groupMap = a.groups rows
  disk : ∀ sp, s.partitionSpiller = some sp → ∃ before refused after,
    rows = before ++ refused ++ after ∧ rows ≠ [] ∧ sp = a.spilled env before refused after

theorem accumulated_new (input : List (Tuple α)) : Accumulated a env (.new input) [] where
  resultBatch := rfl
  emittedOffset := rfl
  hasSpilled := rfl
  memory _ := rfl
  disk := by simp [AggregateState.new]

theorem Accumulated.spillAggregate (h : Accumulated a env s rows) : Accumulated a env (spillAggregate env s) rows := by
  rw [Aggregate.spillAggregate]
  split
  case isTrue hs =>
    obtain ⟨hnone, hsome⟩ : s.partitionSpiller = none ∧ s.groupMap ≠ [] := by simpa using hs
    have hmap := h.memory hnone
    refine ⟨h.resultBatch, h.emittedOffset, rfl, by simp, ?_⟩
    rintro _ ⟨⟩
    refine ⟨rows, [], [], by simp, fun hrows => hsome ?_, by rw [hmap]; rfl⟩
    rw [hmap, hrows]
    rfl
  case isFalse hs => exact h

theorem Accumulated.accumulateGroup (h : Accumulated a env s rows) (hs : s.partitionSpiller = none)
    (row : Tuple α) : Accumulated a env (a.accumulateGroup { s with tracker := t } row) (rows ++ [row]) where
  resultBatch := h.resultBatch
  emittedOffset := h.emittedOffset
  hasSpilled := h.hasSpilled
  memory _ := by
    rw [groups_concat, ← h.memory hs]
    rfl
  disk sp hsp := by
    rw [Aggregate.accumulateGroup, hs] at hsp
    simp at hsp

theorem Accumulated.accumulateRow (h : Accumulated a env s rows)
    (hs : a.accumulateRow env s row = .ok s') : Accumulated a env s' (rows ++ [row]) := by
  rw [Aggregate.accumulateRow] at hs
  split at hs
  case h_1 sp hsp =>
    split at hs
    case isTrue hm =>
      cases hs
      obtain ⟨before, refused, after, hrows, -, rfl⟩ := h.disk sp hsp
      refine ⟨h.resultBatch, h.emittedOffset, by rw [h.hasSpilled, hsp]; rfl, by simp, ?_⟩
      rintro _ ⟨⟩
      refine ⟨before, refused, after ++ [row], by rw [hrows, append_assoc], by simp, ?_⟩
      exact (spilled_concat row).symm
    case isFalse hm => simp at hs
  case h_2 hnone =>
    split at hs
    case isTrue hget =>
      cases hs
      exact h.accumulateGroup hnone row
    case isFalse hget =>
      dsimp only at hs
      split at hs
      case h_1 =>
        cases hs
        exact h.accumulateGroup hnone row
      case h_2 =>
        split at hs
        case isTrue hm =>
          cases hs
          refine ⟨h.resultBatch, h.emittedOffset, rfl, by simp [spillRow], ?_⟩
          rintro _ ⟨⟩
          exact ⟨rows, [row], [], by simp, by simp, by rw [h.memory hnone]; rfl⟩
        case isFalse hm => simp at hs

theorem Accumulated.accumulateRows (h : Accumulated a env s rows)
    (hs : a.accumulateRows env n s new = .ok s') : Accumulated a env s' (rows ++ new) := by
  induction new generalizing n s rows with
  | nil =>
    cases hs
    simpa using ⟨h.resultBatch, h.emittedOffset, h.hasSpilled, h.memory, h.disk⟩
  | cons row new ind =>
    obtain ⟨s₁, hrow, hs⟩ := Except.bind_eq_ok.mp hs
    have h₁ : Accumulated a env (if env.spillRequested n then Aggregate.spillAggregate env s else s) rows := by
      split
      · exact h.spillAggregate
      · exact h
    rw [append_cons]
    exact ind (h₁.accumulateRow hrow) hs

def outputs (a : Aggregate α) (env : AggregateEnvironment α) (s : AggregateState α) : List (Tuple α) :=
  match s.partitionSpiller with
  | some sp => sp.writers.flatMap (a.replayRun env)
  | none => a.memoryResults env s

theorem next_new (input : List (Tuple α)) : a.next env (.new input) = a.accumulatePhase env (.new input) :=
  rfl

theorem drains_outputs (hs : a.accumulateRows env 0 (.new input) input = .ok s) :
    Drains (a.next env) (.new input) (a.outputs env s) := by
  have h := (accumulated_new input).accumulateRows hs
  cases hsp : s.partitionSpiller with
  | some sp =>
    have hspilled : s.hasSpilled := by rw [h.hasSpilled, hsp, Option.isSome_some]
    have d : Drains (a.next env) { s with
        partitionSpiller := none, spilledRuns := sp.writers, currentPartition := 0 } _ :=
      drains_serving ⟨rfl, by simp [h.emittedOffset], .inl hspilled⟩
    have howed : a.owed env { s with partitionSpiller := none, spilledRuns := sp.writers, currentPartition := 0 } =
        a.outputs env s := by
      simp [owed, outputs, hsp, hspilled, h.resultBatch]
    rw [howed] at d
    refine d.of_next_eq ?_
    rw [next_new, accumulatePhase, show (AggregateState.new input).input = input from rfl, hs, Except.ok_bind, hsp, next]
    simp [h.emittedOffset, h.resultBatch, hspilled, pure, Except.pure]
  | none =>
    have hmemory : ¬s.hasSpilled := by rw [h.hasSpilled, hsp]; simp
    have hnext : a.next env (.new input) = .ok (emitResults { s with groupMap := [] } (a.memoryResults env s)) := by
      rw [next_new, accumulatePhase, show (AggregateState.new input).input = input from rfl, hs, Except.ok_bind, hsp]
      rfl
    rw [outputs, hsp]
    by_cases he : a.memoryResults env s = []
    · rw [he] at hnext ⊢
      exact .done hnext
    · have hlt : 0 < (a.memoryResults env s).length := length_pos_of_ne_nil he
      have d : Drains (a.next env) { s with
          groupMap := [], resultBatch := a.memoryResults env s, emittedOffset := 0 } _ :=
        drains_serving ⟨hsp, Nat.zero_le _, .inr he⟩
      have howed : a.owed env { s with groupMap := [], resultBatch := a.memoryResults env s, emittedOffset := 0 } =
          a.memoryResults env s := by
        simp [owed, hmemory]
      rw [howed] at d
      refine d.of_next_eq ?_
      rw [hnext, next, if_pos hlt, emitResults, if_neg (by simpa using he)]

theorem drains_iff : Drains (a.next env) (.new input) out ↔
    ∃ s, a.accumulateRows env 0 (.new input) input = .ok s ∧ a.outputs env s = out := by
  constructor
  · intro d
    obtain ⟨r, hr⟩ := d.next_ok
    obtain ⟨s, hs, -⟩ := Except.bind_eq_ok.mp hr
    exact ⟨s, hs, (drains_outputs hs).unique d⟩
  · rintro ⟨s, hs, rfl⟩
    exact drains_outputs hs

end

end Aggregate
end Linkrs
