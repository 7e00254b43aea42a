import Linkrs.Lib.Drain
import Linkrs.Lib.KeyTable
import Linkrs.Query.Accumulator
import Linkrs.Query.SpillHash

namespace Linkrs

variable {α : Type}

def spillPartitionsDefault : ℕ := 16
def maxRowsPerPartition : ℕ := 1000000
def maxRecursionDepth : ℕ := 3
def emitBatchRows : ℕ := 2048

-- The rows written to each partition, which are also counted by them.
structure HashPartitionSpiller (α : Type) where
  numPartitions : ℕ
  writers : List (List (Tuple α))
  recursionDepth : ℕ

namespace HashPartitionSpiller

def new : HashPartitionSpiller α :=
  ⟨spillPartitionsDefault, List.replicate spillPartitionsDefault [], 0⟩

variable [Serialized α] (sp : HashPartitionSpiller α)

-- All rows are sent anew, by all that is in them, to twice as many partitions.
def repartition : HashPartitionSpiller α :=
  let n := min (sp.numPartitions * 2) (2 ^ 64 - 1)
  { numPartitions := n
    writers := sp.writers.flatten.foldl
      (fun ws row => ws.modify (hashRowPartition row n) (· ++ [row])) (List.replicate n [])
    recursionDepth := sp.recursionDepth + 1 }

-- A row for a partition that there is not is dropped.
def insertRowToPartition (row : Tuple α) (partition : ℕ) : HashPartitionSpiller α :=
  if partition < sp.writers.length then
    let sp := { sp with writers := sp.writers.modify partition (· ++ [row]) }
    if maxRowsPerPartition < (sp.writers.getD partition []).length ∧ sp.recursionDepth < maxRecursionDepth then
      sp.repartition
    else sp
  else sp

end HashPartitionSpiller

-- What stays fixed during an aggregation. All chunks of the input have one layout, some columns of
-- which hold identities of vertices or edges.
structure Aggregate (α : Type) where
  evaluate : Evaluator α
  text : Value α → String
  columns : List String
  identity : String → Bool
  groupBy : List (Expr α)
  functions : List (AggregateFunction × List (Expr α))

-- What an aggregation meets during its run: the orders of its hash tables, the answers to its
-- requests for memory, before which rows it is asked to spill, and whether it can.
structure AggregateEnvironment (α : Type) where
  iteration : Iteration
  budget : MemoryBudget
  groupMemory : Tuple α → ℕ
  spillRequested : ℕ → Bool
  spillManager : Bool

abbrev GroupMap (α : Type) := KeyTable (Tuple α) (List (AggregateAccumulator α))

structure AggregateState (α : Type) where
  groupMap : GroupMap α
  resultBatch : List (Tuple α)
  emittedOffset : ℕ
  partitionSpiller : Option (HashPartitionSpiller α)
  spilledRuns : List (List (Tuple α))
  currentPartition : ℕ
  hasSpilled : Bool
  tracker : MemoryTracker
  input : List (Tuple α)

def AggregateState.new (input : List (Tuple α)) : AggregateState α where
  groupMap := []
  resultBatch := []
  emittedOffset := 0
  partitionSpiller := none
  spilledRuns := []
  currentPartition := 0
  hasSpilled := false
  tracker := .new
  input := input

-- Whether a hash table takes two rows of key values for one.
def sameKey [Serialized α] (k k' : Tuple α) : Bool :=
  (Value.list k).same (.list k')

namespace Aggregate

variable (a : Aggregate α) (env : AggregateEnvironment α)

-- What cannot be evaluated is null.
def eval (row : Tuple α) : Expr α → Value α
  | .variable name => ((slotId a.columns name).bind (row[·]?)).getD (.null .null)
  | expr => (a.evaluate expr a.columns row).getD (.null .null)

def evalGroupKey (row : Tuple α) : Tuple α :=
  a.groupBy.map (a.eval row)

-- A column of identities has no nulls, so that its values need not be looked at to be counted.
def countIdentityArg : AggregateFunction × List (Expr α) → Bool
  | (.count, .variable name :: _) => a.identity name
  | _ => false

def argValue (row : Tuple α) (f : AggregateFunction × List (Expr α)) : Value α :=
  if a.countIdentityArg f then .int 1
  else
    match f.2 with
    | [] => .int 1
    | expr :: _ => a.eval row expr

def argValues (row : Tuple α) : List (Value α) :=
  a.functions.map (a.argValue row)

def newAccumulators : List (AggregateAccumulator α) :=
  a.functions.map fun f => .forFunction f.1

-- A group as it is written to disk.
def partialRow (group : Tuple α × List (AggregateAccumulator α)) : Tuple α :=
  group.1 ++ group.2.map (·.toValue env.iteration)

def resultRow (group : Tuple α × List (AggregateAccumulator α)) : Tuple α :=
  (if a.groupBy.isEmpty then [] else group.1) ++ group.2.map (·.finalize env.iteration)

-- The part of a row that comes after the key, one value for each function.
def partialValues (row : Tuple α) : List (Value α) :=
  (List.range a.functions.length).map fun i => (row[a.groupBy.length + i]?).getD (.null .null)

variable [Serialized α]

def accumulateAll (accs : List (AggregateAccumulator α)) (values : List (Value α)) :
    List (AggregateAccumulator α) :=
  List.zipWith (fun acc v => acc.accumulate a.text v) accs values

def mergeAll (accs : List (AggregateAccumulator α)) (row : Tuple α) : List (AggregateAccumulator α) :=
  List.zipWith (fun acc other => acc.merge a.text other) accs
    (List.zipWith (fun f v => .decodePartial f.1 v) a.functions (a.partialValues row))

def singleRow (row : Tuple α) : Tuple α :=
  partialRow env (a.evalGroupKey row, a.accumulateAll a.newAccumulators (a.argValues row))

def spillGroups (groups : GroupMap α) : HashPartitionSpiller α :=
  (env.iteration.order groups).foldl
    (fun sp group => sp.insertRowToPartition (partialRow env group) (hashRowPartition group.1 spillPartitionsDefault))
    .new

def releaseGroups (groups : GroupMap α) (t : MemoryTracker) : MemoryTracker :=
  (env.iteration.order groups).foldl (fun t group => t.release (env.groupMemory group.1)) t

def spillAggregate (s : AggregateState α) : AggregateState α :=
  if s.partitionSpiller.isNone && !s.groupMap.isEmpty then
    { s with
      groupMap := []
      tracker := releaseGroups env s.groupMap s.tracker
      partitionSpiller := some (spillGroups env s.groupMap)
      hasSpilled := true }
  else s

def accumulateGroup (s : AggregateState α) (row : Tuple α) : AggregateState α :=
  { s with
    groupMap := KeyTable.alter sameKey (a.evalGroupKey row)
      (fun accs => a.accumulateAll (accs.getD a.newAccumulators) (a.argValues row)) s.groupMap }

-- A new group for which there is no memory goes to disk, after all others.
def spillRow (s : AggregateState α) (row : Tuple α) : AggregateState α :=
  { s with
    groupMap := []
    tracker := releaseGroups env s.groupMap s.tracker
    partitionSpiller := some ((spillGroups env s.groupMap).insertRowToPartition (a.singleRow env row)
      (hashRowPartition (a.evalGroupKey row) spillPartitionsDefault))
    hasSpilled := true }

def accumulateRow (s : AggregateState α) (row : Tuple α) : QueryResult (AggregateState α) :=
  match s.partitionSpiller with
  | some sp =>
    if env.spillManager then
      .ok { s with
        partitionSpiller := some (sp.insertRowToPartition (a.singleRow env row)
          (hashRowPartition (a.evalGroupKey row) sp.numPartitions)) }
    else .error ⟨"Spill manager not available"⟩
  | none =>
    if (KeyTable.get? sameKey s.groupMap (a.evalGroupKey row)).isSome then .ok (a.accumulateGroup s row)
    else
      let (answer, t) := s.tracker.tryReserve env.budget (env.groupMemory (a.evalGroupKey row))
      match answer with
      | .ok _ => .ok (a.accumulateGroup { s with tracker := t } row)
      | .error e => if env.spillManager then .ok (a.spillRow env { s with tracker := t } row) else .error e

def accumulateRows : ℕ → AggregateState α → List (Tuple α) → QueryResult (AggregateState α)
  | _, s, [] => .ok { s with input := [] }
  | n, s, row :: rows => do
    let s ← a.accumulateRow env (if env.spillRequested n then spillAggregate env s else s) row
    accumulateRows (n + 1) s rows

-- The groups in memory. Without group keys there is a row even if there was no input.
def memoryResults (s : AggregateState α) : List (Tuple α) :=
  let rows := (env.iteration.order s.groupMap).map (a.resultRow env)
  if a.groupBy.isEmpty && rows.isEmpty then [a.resultRow env ([], a.newAccumulators)] else rows

def replayRun (run : List (Tuple α)) : List (Tuple α) :=
  (env.iteration.order (KeyTable.collect sameKey a.newAccumulators a.mergeAll []
    (run.map fun row => (row.take a.groupBy.length, row)))).map (a.resultRow env)

-- The partitions up to the first that has groups.
def replayRuns : ℕ → List (List (Tuple α)) → ℕ × List (Tuple α)
  | current, [] => (current, [])
  | current, run :: runs =>
    if (a.replayRun env run).isEmpty then replayRuns (current + 1) runs
    else (current + 1, a.replayRun env run)

omit [Serialized α] in
def emitBatchSlice (s : AggregateState α) : Option (List (Tuple α)) × AggregateState α :=
  let slice := (s.resultBatch.drop s.emittedOffset).take emitBatchRows
  (some slice, { s with emittedOffset := s.emittedOffset + slice.length })

omit [Serialized α] in
def emitResults (s : AggregateState α) (rows : List (Tuple α)) : Option (List (Tuple α)) × AggregateState α :=
  if rows.isEmpty then (none, s) else emitBatchSlice { s with resultBatch := rows, emittedOffset := 0 }

def replay (s : AggregateState α) : Option (List (Tuple α)) × AggregateState α :=
  let (current, rows) := a.replayRuns env s.currentPartition (s.spilledRuns.drop s.currentPartition)
  emitResults { s with currentPartition := current } rows

def accumulatePhase (s : AggregateState α) : QueryResult (Option (List (Tuple α)) × AggregateState α) := do
  let s ← a.accumulateRows env 0 s s.input
  match s.partitionSpiller with
  | some sp => return a.replay env { s with partitionSpiller := none, spilledRuns := sp.writers, currentPartition := 0 }
  | none => return emitResults { s with groupMap := [] } (a.memoryResults env s)

def next (s : AggregateState α) : QueryResult (Option (List (Tuple α)) × AggregateState α) :=
  if s.emittedOffset < s.resultBatch.length then .ok (emitBatchSlice s)
  else if s.emittedOffset > 0 ∧ (!s.hasSpilled ∨ s.spilledRuns.length ≤ s.currentPartition) then
    .ok (none, { s with resultBatch := [], emittedOffset := 0 })
  else
    let s := if s.emittedOffset > 0 then { s with resultBatch := [], emittedOffset := 0 } else s
    if s.hasSpilled ∧ s.partitionSpiller.isNone then .ok (a.replay env s) else a.accumulatePhase env s

end Aggregate
end Linkrs
