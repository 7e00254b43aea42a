import Linkrs.Lib.Drain
import Linkrs.Lib.KeyTable
import Linkrs.Query.SpillHash
import Mathlib.Data.List.Infix

namespace Linkrs

variable {α : Type}

-- The columns of the build side are given by their number and the rows across them.
structure HashJoinBuildSide (α : Type) where
  buildColumns : ℕ
  rows : List (Tuple α)
  index : KeyTable (JoinKeyValue α) (List ℕ)

namespace HashJoinBuildSide

def new : HashJoinBuildSide α :=
  ⟨0, [], []⟩

variable (side : HashJoinBuildSide α)

def rowCount : ℕ :=
  side.rows.length

def rowAt (i : ℕ) : Tuple α :=
  side.rows.getD i []

-- Rows without columns are not stored.
def store (width : ℕ) (rows : List (Tuple α)) : ℕ × List (Tuple α) :=
  if width = 0 then (0, []) else (width, side.rows ++ rows)

-- The rows across some columns.
def rowsAcross (n : ℕ) (columns : List (List (Value α))) : List (Tuple α) :=
  (List.range n).map fun i => columns.map (·.getD i (.null .null))

-- The rows of a chunk as they are stored: from its typed columns, if there is one for each of its
-- columns.
def gathered (width : ℕ) (typed : Option (List (List (Value α)))) (rows : List (Tuple α)) : List (Tuple α) :=
  match typed.filter (·.length = width) with
  | some columns => rowsAcross rows.length columns
  | none => rows

-- Every row with the key that its entry in the index was made for.
def takeIndexedRows : List (JoinKeyValue α × Tuple α) :=
  (List.range side.rowCount).filterMap fun i =>
    (side.index.find? (·.2.contains i)).map fun e => (e.1, side.rowAt i)

variable [Foreign α]

def addToIndex (keys : List (JoinKeyValue α × ℕ)) : KeyTable (JoinKeyValue α) (List ℕ) :=
  KeyTable.collect JoinKeyValue.same [] (fun is i => is ++ [i]) side.index keys

def matching (key : JoinKeyValue α) : Option (List ℕ) :=
  KeyTable.get? JoinKeyValue.same side.index key

def insertChunk (key : Tuple α → QueryResult (JoinKeyValue α)) (width : ℕ)
    (typed : Option (List (List (Value α)))) (rows : List (Tuple α)) : QueryResult (HashJoinBuildSide α) := do
  let keys ← rows.mapM key
  Except.ensure (side.buildColumns = 0 ∨ width = side.buildColumns)
    ⟨"HashJoinBuildSide: chunk column count " ++ toString width ++
      " differs from build side column count " ++ toString side.buildColumns⟩
  let (width, stored) := side.store width (gathered width typed rows)
  return ⟨width, stored, side.addToIndex (keys.zipIdx side.rowCount)⟩

def insertKeyedRow (key : JoinKeyValue α) (row : Tuple α) : QueryResult (HashJoinBuildSide α) := do
  Except.ensure (side.buildColumns = 0 ∨ row.length = side.buildColumns)
    ⟨"HashJoinBuildSide: spilled row width " ++ toString row.length ++
      " differs from build width " ++ toString side.buildColumns⟩
  let (width, stored) := side.store row.length [row]
  return ⟨width, stored, side.addToIndex [(key, stored.length - 1)]⟩

end HashJoinBuildSide

-- The rows written to each partition. A run is read back as it was written, and a partition has a
-- run only if it has a row, so that its runs are taken together.
abbrev Partitions (α : Type) := List (List (Tuple α))

namespace Partitions

def empty (n : ℕ) : Partitions α :=
  List.replicate n []

def insert (ps : Partitions α) (partition : ℕ) (row : Tuple α) : QueryResult (Partitions α) := do
  Except.ensure (partition < ps.length)
    ⟨"spill run: join partition " ++ toString partition ++ " out of range " ++ toString ps.length⟩
  return ps.modify partition (· ++ [row])

variable [Serialized α]

def insertKeyed (ps : Partitions α) (row : JoinKeyValue α × Tuple α) : QueryResult (Partitions α) :=
  ps.insert (hashJoinKeyPartition row.1 ps.length) row.2

def route (key : Tuple α → QueryResult (JoinKeyValue α)) (ps : Partitions α) (rows : List (Tuple α)) :
    QueryResult (Partitions α) :=
  rows.foldlM (fun ps row => do ps.insertKeyed (← key row, row)) ps

end Partitions

def hashJoinPartitionsDefault : ℕ := 32
def hashJoinMaxDepth : ℕ := 3
def graceSubPartitions : ℕ := 4
def partitionedBatchRows : ℕ := 1024

-- Both sides of one partition, and how often it was split off from a larger one.
structure Partition (α : Type) where
  depth : ℕ
  build : List (Tuple α)
  probe : List (Tuple α)

-- The partition being served and those after it. Only the rows that are still to be probed are kept
-- of the partition being served.
structure PartitionedJoinState (α : Type) where
  current : ℕ
  partitions : List (Partition α)
  buildSide : HashJoinBuildSide α
  probeRows : List (Tuple α)
  exhausted : Bool

-- What stays fixed during a join: its two inputs are told apart by what is done with them, not by
-- the side on which they stand. Each input has one layout.
structure HashJoin (α : Type) where
  evaluate : Evaluator α
  joinCondition : Option (Expr α)
  hashKeys : List (Expr α)
  probeKeys : List (Expr α)
  buildNames : List String
  probeNames : List String
  leftJoin : Bool
  outputWidth : ℕ

-- What a join meets during its run: the answers to its requests for memory, before which chunks of
-- the build input it is asked to spill, and the typed columns that chunks come with. These hold the
-- values of the rows.
structure JoinEnvironment (α : Type) where
  budget : MemoryBudget
  rowMemory : Tuple α → ℕ
  spillRequested : ℕ → Bool
  typedColumns : List (Tuple α) → Option (List (List (Value α)))
  typed : ∀ rows columns, typedColumns rows = some columns → (∀ row ∈ rows, row.length = columns.length) →
    HashJoinBuildSide.rowsAcross rows.length columns = rows

structure JoinState (α : Type) where
  buildSide : HashJoinBuildSide α
  buildDone : Bool
  tracker : MemoryTracker
  pendingBuild : Option (Partitions α)
  partitioned : Option (PartitionedJoinState α)
  buildInput : List (List (Tuple α))
  probeInput : List (List (Tuple α))

def JoinState.new (build probe : List (List (Tuple α))) : JoinState α where
  buildSide := .new
  buildDone := false
  tracker := .new
  pendingBuild := none
  partitioned := none
  buildInput := build
  probeInput := probe

namespace HashJoin

variable (j : HashJoin α) (env : JoinEnvironment α)

def buildKey : Tuple α → QueryResult (JoinKeyValue α) :=
  evaluateJoinKey j.evaluate j.buildNames j.hashKeys

def probeKey : Tuple α → QueryResult (JoinKeyValue α) :=
  evaluateJoinKey j.evaluate j.probeNames j.probeKeys

-- The remaining condition of a pair with equal keys. Only a left join reports its errors.
def satisfied (probe build : Tuple α) : QueryResult Bool :=
  match j.joinCondition with
  | none => .ok true
  | some condition =>
    match j.evaluate condition (j.probeNames ++ j.buildNames) (probe ++ build) with
    | .ok (.bool b) => .ok b
    | .ok (.null _) => .ok false
    | .ok _ => .ok j.leftJoin
    | .error e =>
      if j.leftJoin then .error ⟨"HashLeftJoin condition evaluation failed: " ++ e⟩ else .ok false

def joinMatches (probe : Tuple α) : List (Tuple α) → QueryResult (List (Tuple α))
  | [] => .ok []
  | build :: builds => do
    let keep ← j.satisfied probe build
    let rest ← joinMatches probe builds
    return if keep then (probe ++ build) :: rest else rest

-- A left join gives a row without a match too, filled up with nulls.
def unmatched (probe : Tuple α) : QueryResult (List (Tuple α)) :=
  if j.leftJoin then do
    Except.ensure (probe.length ≤ j.outputWidth)
      ⟨"HashLeftJoin planned output layout is narrower than its left input"⟩
    return [probe ++ List.replicate (j.outputWidth - probe.length) (.null .null)]
  else .ok []

variable [Serialized α]

def probeRow (side : HashJoinBuildSide α) (row : Tuple α) : QueryResult (List (Tuple α)) := do
  let key ← j.probeKey row
  match side.matching key with
  | some indices => j.joinMatches row (indices.map side.rowAt)
  | none => j.unmatched row

def probeRows (side : HashJoinBuildSide α) (rows : List (Tuple α)) : QueryResult (List (Tuple α)) := do
  return (← rows.mapM (j.probeRow side)).flatten

-- The chunks of the probe input up to the first that gives a row.
def probeChunks (side : HashJoinBuildSide α) :
    List (List (Tuple α)) → QueryResult (List (Tuple α) × List (List (Tuple α)))
  | [] => .ok ([], [])
  | chunk :: chunks => do
    let out ← j.probeRows side chunk
    if out.isEmpty then probeChunks side chunks else .ok (out, chunks)

-- Whether memory was granted for each of some rows. The first refusal ends the requests.
def reserveRows (t : MemoryTracker) : List (Tuple α) → Bool × MemoryTracker
  | [] => (true, t)
  | row :: rows =>
    let (answer, t) := t.tryReserve env.budget (env.rowMemory row)
    match answer with
    | .error _ => (false, t)
    | .ok _ => reserveRows t rows

def spillBuildSide (s : JoinState α) : QueryResult (JoinState α) := do
  let pending := s.pendingBuild.getD (.empty hashJoinPartitionsDefault)
  let pending ← s.buildSide.takeIndexedRows.foldlM Partitions.insertKeyed pending
  return { s with buildSide := .new, pendingBuild := some pending, tracker := s.tracker.reset }

def spillWithManager (s : JoinState α) : QueryResult (JoinState α) :=
  if s.buildDone || s.partitioned.isSome then .ok s
  else if s.buildSide.rowCount = 0 ∧ s.pendingBuild.isNone then .ok s
  else spillBuildSide s

def spillRows (s : JoinState α) (pending : Partitions α) (rows : List (Tuple α)) : QueryResult (JoinState α) := do
  return { s with pendingBuild := some (← pending.route j.buildKey rows) }

-- A chunk of the build input, when nothing was spilled so far.
def buildInMemory (width : ℕ) (s : JoinState α) (rows : List (Tuple α)) : QueryResult (JoinState α) :=
  let (granted, t) := reserveRows env s.tracker rows
  if granted then do
    let side ← s.buildSide.insertChunk j.buildKey width (env.typedColumns rows) rows
    return { s with buildSide := side, tracker := t }
  else do
    let s ← spillBuildSide { s with tracker := t }
    j.spillRows s (s.pendingBuild.getD []) rows

def buildChunk (width : ℕ) (s : JoinState α) (rows : List (Tuple α)) : QueryResult (JoinState α) :=
  match s.pendingBuild with
  | some pending => j.spillRows s pending rows
  | none => j.buildInMemory env width s rows

def buildRequested (n : ℕ) (s : JoinState α) : QueryResult (JoinState α) :=
  if env.spillRequested n then spillWithManager s else .ok s

def buildSideLoop (width : ℕ) : ℕ → JoinState α → List (List (Tuple α)) → QueryResult (JoinState α)
  | _, s, [] => .ok { s with buildDone := true, buildInput := [] }
  | n, s, chunk :: chunks => do
    let s ← buildRequested env n s
    let s ← j.buildChunk env width s chunk
    buildSideLoop width (n + 1) s chunks

def tooLarge (i : ℕ) : QueryError :=
  ⟨"spill run: join partition " ++ toString i ++
    " exceeds memory budget (single partition too large for Grace join)"⟩

-- An error is taken for a refusal of memory by its text.
def exceedsBudget (e : QueryError) : Bool :=
  decide ("exceeds memory budget".toList <:+: e.message.toList)

def loadBuildRows (i : ℕ) (side : HashJoinBuildSide α) (t : MemoryTracker) :
    List (Tuple α) → QueryResult (HashJoinBuildSide α) × MemoryTracker
  | [] => (.ok side, t)
  | row :: rows =>
    let (answer, t) := t.tryReserve env.budget (env.rowMemory row)
    match answer with
    | .error _ => (.error (tooLarge i), t)
    | .ok _ =>
      match j.buildKey row >>= (side.insertKeyedRow · row) with
      | .error e => (.error e, t)
      | .ok side => loadBuildRows i side t rows

def loadProbeRows (i : ℕ) (t : MemoryTracker) (rows : List (Tuple α)) : QueryResult Unit × MemoryTracker :=
  let (granted, t) := reserveRows env t rows
  (if granted then .ok () else .error (tooLarge i), t)

def loadPartitionRows (i : ℕ) (t : MemoryTracker) (p : Partition α) :
    QueryResult (HashJoinBuildSide α) × MemoryTracker :=
  match j.loadBuildRows env i .new t.reset p.build with
  | (.error e, t) => (.error e, t)
  | (.ok side, t) =>
    let (answer, t) := loadProbeRows env i t p.probe
    (answer.map fun _ => side, t)

def splitPartition (i : ℕ) (p : Partition α) : QueryResult (List (Partition α)) := do
  Except.ensure (p.depth < hashJoinMaxDepth)
    ⟨"spill run: join partition " ++ toString i ++ " exceeds memory budget (Grace repartition depth " ++
      toString hashJoinMaxDepth ++ " exhausted)"⟩
  let build ← Partitions.route j.buildKey (.empty graceSubPartitions) p.build
  let probe ← Partitions.route j.probeKey (.empty graceSubPartitions) p.probe
  return List.zipWith (.mk (p.depth + 1)) build probe

-- How many partitions a partition can still become, itself included.
def splits : ℕ → ℕ
  | 0 => 1
  | n + 1 => 1 + graceSubPartitions * splits n

def work (ps : List (Partition α)) : ℕ :=
  (ps.map fun p => splits (hashJoinMaxDepth - p.depth)).sum

-- The loop of `load_current`. It goes round at most `work` times.
def loadLoop : ℕ → ℕ → MemoryTracker → List (Partition α) → QueryResult (PartitionedJoinState α × MemoryTracker)
  | 0, i, t, ps => .ok (⟨i, ps, .new, [], true⟩, t)
  | _ + 1, i, t, [] => .ok (⟨i, [], .new, [], true⟩, t)
  | n + 1, i, t, p :: ps =>
    if p.build.isEmpty && p.probe.isEmpty then loadLoop n (i + 1) t ps
    else
      match j.loadPartitionRows env i t p with
      | (.ok side, t) => .ok (⟨i, p :: ps, side, p.probe, false⟩, t)
      | (.error e, t) =>
        if exceedsBudget e then do loadLoop n i t ((← j.splitPartition i p) ++ ps) else .error e

def loadCurrent (i : ℕ) (t : MemoryTracker) (ps : List (Partition α)) :
    QueryResult (PartitionedJoinState α × MemoryTracker) :=
  j.loadLoop env (work ps) i t ps

def advance (s : PartitionedJoinState α) (t : MemoryTracker) :
    QueryResult (PartitionedJoinState α × MemoryTracker) :=
  j.loadCurrent env (s.current + 1) t s.partitions.tail

-- Rows are probed until a batch is full.
def serveRows (side : HashJoinBuildSide α) :
    List (Tuple α) → List (Tuple α) → QueryResult (List (Tuple α) × List (Tuple α))
  | out, [] => .ok (out, [])
  | out, row :: rows =>
    if out.length < partitionedBatchRows then do serveRows side (out ++ (← j.probeRow side row)) rows
    else .ok (out, row :: rows)

-- The loop of `next_partitioned`, until a row is found or the partitions are used up.
def nextLoop : ℕ → PartitionedJoinState α → MemoryTracker →
    QueryResult (Option (List (Tuple α)) × PartitionedJoinState α × MemoryTracker)
  | 0, s, t => .ok (none, s, t)
  | n + 1, s, t =>
    if s.exhausted then .ok (none, s, t)
    else if s.probeRows.isEmpty then do
      let (s, t) ← j.advance env s t
      nextLoop n s t
    else do
      let (out, rest) ← j.serveRows s.buildSide [] s.probeRows
      if out.isEmpty then nextLoop n { s with probeRows := rest } t
      else .ok (some out, { s with probeRows := rest }, t)

def nextPartitioned (s : PartitionedJoinState α) (t : MemoryTracker) :
    QueryResult (Option (List (Tuple α)) × PartitionedJoinState α × MemoryTracker) :=
  j.nextLoop env (2 * work s.partitions + 2) s t

def servePartitioned (s : JoinState α) (p : PartitionedJoinState α) :
    QueryResult (Option (List (Tuple α)) × JoinState α) := do
  let (out, p, t) ← j.nextPartitioned env p s.tracker
  return (out, { s with partitioned := some p, tracker := t })

def enterPartitionedMode (s : JoinState α) (pending : Partitions α) :
    QueryResult (PartitionedJoinState α × MemoryTracker) := do
  let probe ← Partitions.route j.probeKey (.empty pending.length) s.probeInput.flatten
  j.loadCurrent env 0 s.tracker.reset (List.zipWith (.mk 0) pending probe)

def probeMemory (s : JoinState α) : QueryResult (Option (List (Tuple α)) × JoinState α) := do
  let (out, rest) ← j.probeChunks s.buildSide s.probeInput
  return (if out.isEmpty then none else some out, { s with probeInput := rest })

-- The first call after the build side was read.
def afterBuild (s : JoinState α) : QueryResult (Option (List (Tuple α)) × JoinState α) :=
  match s.pendingBuild with
  | none => j.probeMemory s
  | some pending => do
    let (p, t) ← j.enterPartitionedMode env s pending
    j.servePartitioned env { s with pendingBuild := none, tracker := t, probeInput := [] } p

def next (width : ℕ) (s : JoinState α) : QueryResult (Option (List (Tuple α)) × JoinState α) :=
  match s.partitioned with
  | some p => j.servePartitioned env s p
  | none =>
    if s.buildDone then j.probeMemory s
    else do j.afterBuild env (← j.buildSideLoop env width 0 s s.buildInput)

end HashJoin
end Linkrs
