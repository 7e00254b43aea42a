import Linkrs.Core.Context

namespace Linkrs

-- Committed writes by resource. An entry is never stored twice, so a set of entries will do for the
-- source's map from resources to lists.
structure ConflictIndex (V : Type) where
  entries : Finset (V × Timestamp × TransactionId)

namespace ConflictIndex

variable {V : Type} [DecidableEq V]

def new : ConflictIndex V where
  entries := ∅

def conflictsAfter (index : ConflictIndex V) (resource : V) (since : Timestamp) : Bool :=
  decide (∃ e ∈ index.entries, e.1 = resource ∧ since < e.2.1)

def addAll (index : ConflictIndex V) (commitTimestamp : Timestamp) (txnId : TransactionId)
    (resources : Finset V) : ConflictIndex V :=
  { index with entries := index.entries ∪ resources.image fun r => (r, commitTimestamp, txnId) }

def prune (index : ConflictIndex V) (oldestActiveTs : Timestamp) : ConflictIndex V :=
  { index with entries := index.entries.filter fun e => oldestActiveTs < e.2.1 }

end ConflictIndex

-- Read locks by resource, with the reader and its start timestamp.
structure SsiTracker where
  readLocks : Finset (ResourceId × TransactionId × Timestamp)

namespace SsiTracker

def new : SsiTracker where
  readLocks := ∅

def registerTxnReads (t : SsiTracker) (txnId : TransactionId) (startTs : Timestamp)
    (readSet : WriteSet) : SsiTracker :=
  { t with
    readLocks := t.readLocks ∪
      (readSet.vertices.image .vertex ∪ readSet.edges.image .edge ∪
        readSet.schemaResources.image .schema ∪ readSet.indexResources.image .index).image
      fun r => (r, txnId, startTs) }

def unregisterReads (t : SsiTracker) (txnId : TransactionId) : SsiTracker :=
  { t with readLocks := t.readLocks.filter fun l => l.2.1 ≠ txnId }

def prune (t : SsiTracker) (oldestActiveTs : Timestamp) : SsiTracker :=
  { t with readLocks := t.readLocks.filter fun l => oldestActiveTs < l.2.2 }

end SsiTracker

def pruneInterval : ℕ := 64

-- `committedWriteSets` lists the published write sets with their commit timestamps; the source keys
-- them by timestamp.
structure Certifier where
  committedWriteSets : List (Timestamp × WriteSet)
  vertexWrites : ConflictIndex VertexId
  edgeWrites : ConflictIndex EdgeIdentifier
  schemaWrites : ConflictIndex String
  indexWrites : ConflictIndex String
  ssiTracker : SsiTracker
  pruneCountdown : ℕ

-- The active-transaction table as certification sees it.
abbrev ActiveTransactions := List (TransactionId × TransactionContext)

namespace Certifier

def new : Certifier where
  committedWriteSets := []
  vertexWrites := .new
  edgeWrites := .new
  schemaWrites := .new
  indexWrites := .new
  ssiTracker := .new
  pruneCountdown := 1

-- Each part of the check answers with the conflict it found, if any.
def scanActiveTransactions (txnId : TransactionId) (ctx : TransactionContext)
    (active : ActiveTransactions) : Option TransactionError :=
  active.findSome? fun (otherId, otherCtx) =>
    if otherId = txnId || otherCtx.readOnly || !otherCtx.writeValidated then none
    else if ctx.writeSet.hasConflictWith otherCtx.writeSet then
      some (.serializationFailed .writeWrite (.activeTransaction otherId))
    else if ctx.serializable && ctx.readSet.hasConflictWith otherCtx.writeSet then
      some (.serializationFailed .readWrite (.activeTransaction otherId))
    else none

-- Probes the four indices with the resources of one set. Writes and reads are probed alike, but
-- report a conflict on a vertex or an edge under a different kind.
def probeCommitted (c : Certifier) (kind : ConflictType) (start : Timestamp) (ws : WriteSet) :
    Option TransactionError :=
  if ∃ v ∈ ws.vertices, c.vertexWrites.conflictsAfter v start then
    some (.serializationFailed kind .vertex)
  else if ∃ e ∈ ws.edges, c.edgeWrites.conflictsAfter e start then
    some (.serializationFailed kind .edge)
  else if ∃ r ∈ ws.schemaResources, c.schemaWrites.conflictsAfter r start then
    some (.serializationFailed .schemaGeneration .schema)
  else if ∃ r ∈ ws.indexResources, c.indexWrites.conflictsAfter r start then
    some (.serializationFailed .indexGeneration .index)
  else none

def probeCommittedWrites (c : Certifier) (start : Timestamp) (ws : WriteSet) : Option TransactionError :=
  c.probeCommitted .writeWrite start ws

def probeCommittedReads (c : Certifier) (start : Timestamp) (rs : WriteSet) : Option TransactionError :=
  c.probeCommitted .readWrite start rs

def anyCommittedAfter (c : Certifier) (start : Timestamp) (p : WriteSet → Bool) : Bool :=
  c.committedWriteSets.any fun (ts, ws) => start < ts && p ws

def checkRangePhantomsAndFullScan (c : Certifier) (ctx : TransactionContext) : Option TransactionError :=
  if ctx.readSet.readRanges ≠ [] &&
      c.anyCommittedAfter ctx.startTimestamp ctx.readSet.hasReadRangeConflictWith then
    some (.serializationFailed .phantom .range)
  else if ctx.serializableFullScanThreshold.any
        (· ≤ ctx.readSet.size + ctx.readSet.readRanges.length) &&
      c.anyCommittedAfter ctx.startTimestamp ctx.readSet.hasReadConflictWith then
    some (.serializationFailed .phantom .fullScan)
  else none

def detectDangerousStructures (c : Certifier) (txnId : TransactionId) (ctx : TransactionContext)
    (active : ActiveTransactions) : Option TransactionError :=
  if ∃ l ∈ c.ssiTracker.readLocks,
      ctx.writeSet.hasSsiResource l.1 ∧ l.2.1 ≠ txnId ∧ l.2.2 < ctx.startTimestamp ∧
      active.any fun (readerId, readerCtx) =>
        readerId = l.2.1 && !readerCtx.readOnly && readerCtx.writeValidated &&
        decide (∃ r ∈ ctx.ssiReadResources, readerCtx.writeSet.hasSsiResource r) then
    some (.serializationFailed .readWrite .dangerousStructure)
  else none

def findConflict (c : Certifier) (txnId : TransactionId) (ctx : TransactionContext)
    (active : ActiveTransactions) : Option TransactionError :=
  scanActiveTransactions txnId ctx active <|>
  c.probeCommittedWrites ctx.startTimestamp ctx.writeSet <|>
  if ctx.serializable then
    c.probeCommittedReads ctx.startTimestamp ctx.readSet <|>
    c.checkRangePhantomsAndFullScan ctx <|>
    c.detectDangerousStructures txnId ctx active
  else none

-- Transactions for which there is nothing to certify pass without being marked as validated.
def bypassesCheck (ctx : TransactionContext) : Bool :=
  (ctx.readOnly && (!ctx.serializable || ctx.readSet.isEmpty)) ||
  (ctx.concurrencyMode ≠ .singleWriter && ctx.writeSet.isEmpty &&
    (!ctx.serializable || ctx.readSet.isEmpty) && !ctx.readOnly)

-- Returns the certifier, the context and the verdict: the read locks stay registered even if a
-- conflict is found.
def checkWriteSetConflict (c : Certifier) (txnId : TransactionId) (ctx : TransactionContext)
    (active : ActiveTransactions) : Certifier × TransactionContext × Except TransactionError Unit :=
  if bypassesCheck ctx then (c, ctx, .ok ())
  else if ctx.concurrencyMode = .singleWriter then
    (c, { ctx with writeValidated := true }, .ok ())
  else
    let c := if ctx.serializable then
        { c with ssiTracker := c.ssiTracker.registerTxnReads txnId ctx.startTimestamp ctx.readSet }
      else c
    match c.findConflict txnId ctx active with
    | some e => (c, ctx, .error e)
    | none => (c, { ctx with writeValidated := true }, .ok ())

def indexWriteSet (c : Certifier) (txnId : TransactionId) (ts : Timestamp) (ws : WriteSet) : Certifier :=
  { c with
    vertexWrites := c.vertexWrites.addAll ts txnId ws.vertices
    edgeWrites := c.edgeWrites.addAll ts txnId ws.edges
    schemaWrites := c.schemaWrites.addAll ts txnId ws.schemaResources
    indexWrites := c.indexWrites.addAll ts txnId ws.indexResources }

def unregisterReads (c : Certifier) (txnId : TransactionId) : Certifier :=
  { c with ssiTracker := c.ssiTracker.unregisterReads txnId }

def insertCommitted (c : Certifier) (txnId : TransactionId) (ts : Timestamp) (ws : WriteSet) :
    Certifier :=
  { c with committedWriteSets := c.committedWriteSets ++ [(ts, ws)] }
    |>.indexWriteSet txnId ts ws |>.unregisterReads txnId

-- The final review against active validated writers and against everything committed since `start`.
def review (c : Certifier) (txnId : TransactionId) (start : Timestamp) (ws : WriteSet)
    (active : ActiveTransactions) : Option TransactionError :=
  (active.findSome? fun (otherId, otherCtx) =>
    if otherId = txnId || otherCtx.readOnly || !otherCtx.writeValidated then none
    else if ws.hasConflictWith otherCtx.writeSet then
      some (TransactionError.serializationFailed .writeWrite (.publishActive otherId))
    else none) <|>
  if c.anyCommittedAfter start ws.hasConflictWith then
    some (TransactionError.serializationFailed .writeWrite .publishCommitted)
  else none

def publish (c : Certifier) (txnId : TransactionId) (writeTimestamp start : Timestamp)
    (ws : WriteSet) (active : ActiveTransactions) : Except TransactionError Certifier :=
  if ws.isEmpty then .ok (c.unregisterReads txnId)
  else match c.review txnId start ws active with
    | some e => .error e
    | none => .ok (c.insertCommitted txnId writeTimestamp ws)

def forcePublish (c : Certifier) (txnId : TransactionId) (commitTimestamp : Timestamp)
    (ws : WriteSet) : Certifier :=
  if ws.isEmpty || (commitTimestamp, ws) ∈ c.committedWriteSets then c.unregisterReads txnId
  else c.insertCommitted txnId commitTimestamp ws

def pruneNow (c : Certifier) (oldestActiveTs : Timestamp) : Certifier :=
  { c with
    committedWriteSets := c.committedWriteSets.filter fun (ts, _) => oldestActiveTs < ts
    vertexWrites := c.vertexWrites.prune oldestActiveTs
    edgeWrites := c.edgeWrites.prune oldestActiveTs
    schemaWrites := c.schemaWrites.prune oldestActiveTs
    indexWrites := c.indexWrites.prune oldestActiveTs
    ssiTracker := c.ssiTracker.prune oldestActiveTs }

-- A request only counts down, except for every `pruneInterval`-th one.
def prune (c : Certifier) (oldestActiveTs : Timestamp) : Certifier :=
  if c.pruneCountdown ≤ 1 then { c.pruneNow oldestActiveTs with pruneCountdown := pruneInterval }
  else { c with pruneCountdown := c.pruneCountdown - 1 }

theorem core_checkWriteSetConflict (c : Certifier) (txnId : TransactionId)
    (ctx : TransactionContext) (active : ActiveTransactions) :
    (c.checkWriteSetConflict txnId ctx active).2.1.core = ctx.core := by
  simp only [checkWriteSetConflict]
  split
  case isTrue => rfl
  case isFalse =>
    split
    case isTrue => rfl
    case isFalse => split <;> rfl

end Certifier
end Linkrs
