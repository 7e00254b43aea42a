import Linkrs.Certify.WriteSet

namespace Linkrs

inductive TransactionState where
  | active
  | committing
  | committed
  | aborting
  | aborted
  deriving DecidableEq, Repr

namespace TransactionState

def canExecute (s : TransactionState) : Bool :=
  s = .active

def canCommit (s : TransactionState) : Bool :=
  s = .active

def canAbort (s : TransactionState) : Bool :=
  s = .active || s = .committing || s = .aborting

def canTransition : TransactionState → TransactionState → Bool
  | .active, .committing | .active, .aborting => true
  | .committing, .committed | .committing, .aborting | .committing, .aborted => true
  | .aborting, .aborted => true
  | _, _ => false

end TransactionState

-- The two types a user can begin. Checkpoint, recovery and dummy transactions never take the paths
-- modelled here.
inductive TransactionType where
  | readOnly
  | write
  deriving DecidableEq, Repr

inductive IsolationLevel where
  | readCommitted
  | repeatableRead
  | serializable
  deriving DecidableEq, Repr

inductive ConcurrencyMode where
  | optimistic
  | singleWriter
  deriving DecidableEq, Repr

inductive ConflictType where
  | writeWrite
  | readWrite
  | phantom
  | schemaGeneration
  | indexGeneration
  deriving DecidableEq, Repr

-- Where a certification conflict was found.
inductive ConflictSite where
  | activeTransaction (other : TransactionId)
  | vertex
  | edge
  | schema
  | index
  | range
  | fullScan
  | dangerousStructure
  | publishActive (other : TransactionId)
  | publishCommitted
  deriving DecidableEq, Repr

inductive TransactionError where
  | transactionNotFound (txnId : TransactionId)
  | invalidStateForCommit (state : TransactionState)
  | invalidStateForAbort (state : TransactionState)
  | invalidStateForExecution (state : TransactionState)
  | invalidStateTransition (source target : TransactionState)
  | transactionTimeout
  | transactionExpired
  | readOnlyTransaction
  | transactionBudgetExceeded (current limit : ℕ)
  | serializationFailed (kind : ConflictType) (site : ConflictSite)
  | commitVetoed
  | commitFailed
  | rollbackFailed
  | writeTransactionConflict
  | tooManyTransactions
  | internal
  deriving DecidableEq, Repr

-- The recorders of the write set and of the read set. `ssi` records a read for the detection of
-- dangerous structures only.
inductive WriteAccess where
  | vertex (vid : VertexId)
  | vertexDelete (vid : VertexId)
  | edge (edge : EdgeIdentifier)
  | schema (resource : String)
  | index (resource : String)
  deriving DecidableEq

inductive ReadAccess where
  | vertex (vid : VertexId)
  | edge (edge : EdgeIdentifier)
  | schema (resource : String)
  | index (resource : String)
  | range (range : ReadRange)
  | ssi (resource : ResourceId)
  deriving DecidableEq

def WriteSet.recordWrite (ws : WriteSet) : WriteAccess → WriteSet
  | .vertex vid => ws.recordVertex vid
  | .vertexDelete vid => ws.recordVertexDelete vid
  | .edge edge => ws.recordEdge edge
  | .schema resource => ws.recordSchemaResource resource
  | .index resource => ws.recordIndexResource resource

def WriteSet.recordRead (rs : WriteSet) : ReadAccess → WriteSet
  | .vertex vid => rs.recordVertex vid
  | .edge edge => rs.recordEdge edge
  | .schema resource => rs.recordSchemaResource resource
  | .index resource => rs.recordIndexResource resource
  | .range range => rs.recordReadRange range
  | .ssi _ => rs

inductive MutationEntityKey where
  | vertex (vid : VertexId)
  | edge (edge : EdgeIdentifier)
  deriving DecidableEq

-- The kinds of resource that `record_mutation` tells apart, once the kind has been inferred.
inductive MutationResource where
  | schema
  | index
  | syncIntent
  | other
  deriving DecidableEq, Repr

-- `indexKeys` are the ordering keys of the index intents. Undo and redo entries go to the undo log
-- and to the mutation journal, which certification does not look at.
structure MutationResult where
  entityKeys : List MutationEntityKey
  resource : MutationResource
  modifiedTable : Option String
  indexKeys : List String

-- The writes that `record_mutation` records, in its order.
def MutationResult.accesses (m : MutationResult) : List WriteAccess :=
  (m.entityKeys.map fun
    | .vertex vid => WriteAccess.vertex vid
    | .edge edge => .edge edge) ++
  (if m.resource = .schema then [WriteAccess.schema (m.modifiedTable.getD "schema")] else []) ++
  (if m.resource = .index ∨ m.resource = .syncIntent then m.indexKeys.map .index else [])

structure TransactionContext where
  txnType : TransactionType
  startTimestamp : Timestamp
  isolationLevel : IsolationLevel
  concurrencyMode : ConcurrencyMode
  serializableFullScanThreshold : Option ℕ
  state : TransactionState
  writeSet : WriteSet
  readSet : WriteSet
  ssiReadResources : Finset ResourceId
  writeValidated : Bool
  rollbackOnly : Bool
  commitPublished : Bool
  resourcesReleased : Bool
  pessimisticLockHeld : Bool
  -- Zero until the commit is visible.
  commitTimestamp : Timestamp
  mutationCount : ℕ
  undoBytes : ℕ
  -- Limits of zero are no limits.
  maxMutationCount : ℕ
  maxUndoBytes : ℕ

-- The fields that a transaction's way to commit or abort depends on.
structure ContextCore where
  txnType : TransactionType
  startTimestamp : Timestamp
  isolationLevel : IsolationLevel
  concurrencyMode : ConcurrencyMode
  state : TransactionState
  commitPublished : Bool
  commitTimestamp : Timestamp

def TransactionContext.core (ctx : TransactionContext) : ContextCore where
  txnType := ctx.txnType
  startTimestamp := ctx.startTimestamp
  isolationLevel := ctx.isolationLevel
  concurrencyMode := ctx.concurrencyMode
  state := ctx.state
  commitPublished := ctx.commitPublished
  commitTimestamp := ctx.commitTimestamp

-- The part of a transaction's configuration that comes from the manager.
structure TransactionConfig where
  concurrencyMode : ConcurrencyMode
  serializableFullScanThreshold : Option ℕ
  maxMutationCount : ℕ
  maxUndoBytes : ℕ

def TransactionConfig.default : TransactionConfig where
  concurrencyMode := .optimistic
  serializableFullScanThreshold := some 10000
  maxMutationCount := 100000
  maxUndoBytes := 128 * 1024 * 1024

namespace TransactionContext

def new (txnType : TransactionType) (startTimestamp : Timestamp) (isolationLevel : IsolationLevel)
    (config : TransactionConfig) : TransactionContext where
  txnType := txnType
  startTimestamp := startTimestamp
  isolationLevel := isolationLevel
  concurrencyMode := config.concurrencyMode
  serializableFullScanThreshold := config.serializableFullScanThreshold
  state := .active
  writeSet := .new
  readSet := .new
  ssiReadResources := ∅
  writeValidated := false
  rollbackOnly := false
  commitPublished := false
  resourcesReleased := false
  pessimisticLockHeld := false
  commitTimestamp := 0
  mutationCount := 0
  undoBytes := 0
  maxMutationCount := config.maxMutationCount
  maxUndoBytes := config.maxUndoBytes

def readOnly (ctx : TransactionContext) : Bool :=
  ctx.txnType = .readOnly

def serializable (ctx : TransactionContext) : Bool :=
  ctx.isolationLevel = .serializable

def transitionTo (ctx : TransactionContext) (state : TransactionState) :
    Except TransactionError TransactionContext :=
  if ctx.state.canTransition state then .ok { ctx with state := state }
  else .error (.invalidStateTransition ctx.state state)

def canExecute (ctx : TransactionContext) (expired : Bool) : Except TransactionError Unit :=
  if !ctx.state.canExecute || ctx.rollbackOnly then .error (.invalidStateForExecution ctx.state)
  else if expired then .error .transactionExpired
  else .ok ()

def recordWrite (ctx : TransactionContext) (access : WriteAccess) : TransactionContext :=
  { ctx with writeSet := ctx.writeSet.recordWrite access }

def recordRead (ctx : TransactionContext) : ReadAccess → TransactionContext
  | .ssi resource =>
    { ctx with ssiReadResources := insert resource ctx.ssiReadResources }
  | access => { ctx with readSet := ctx.readSet.recordRead access }

-- The counters are bumped before the limits are checked, so they grow even if the mutation is
-- rejected.
def recordMutation (ctx : TransactionContext) (mutation : MutationResult) (expired : Bool) :
    Except TransactionError Unit × TransactionContext :=
  match ctx.canExecute expired with
  | .error e => (.error e, ctx)
  | .ok () =>
    if ctx.readOnly then (.error .readOnlyTransaction, ctx) else
    let ctx := { ctx with mutationCount := ctx.mutationCount + 1 }
    if 0 < ctx.maxMutationCount ∧ ctx.maxMutationCount < ctx.mutationCount then
      (.error (.transactionBudgetExceeded ctx.mutationCount ctx.maxMutationCount), ctx) else
    let ctx := { ctx with undoBytes := ctx.undoBytes + 64 }
    if 0 < ctx.maxUndoBytes ∧ ctx.maxUndoBytes < ctx.undoBytes then
      (.error (.transactionBudgetExceeded ctx.undoBytes ctx.maxUndoBytes), ctx) else
    (.ok (), { mutation.accesses.foldl recordWrite ctx with writeValidated := false })

theorem core_recordRead (ctx : TransactionContext) (access : ReadAccess) :
    (ctx.recordRead access).core = ctx.core := by
  cases access <;> rfl

theorem core_foldl_recordWrite (ctx : TransactionContext) (accesses : List WriteAccess) :
    (accesses.foldl recordWrite ctx).core = ctx.core := by
  induction accesses generalizing ctx with
  | nil => rfl
  | cons _ _ hind => exact hind _

theorem core_recordMutation (ctx : TransactionContext) (mutation : MutationResult)
    (expired : Bool) : (ctx.recordMutation mutation expired).2.core = ctx.core := by
  simp only [recordMutation]
  split
  case h_1 => rfl
  case h_2 =>
    split
    case isTrue => rfl
    case isFalse =>
      split
      case isTrue => rfl
      case isFalse =>
        split
        case isTrue => rfl
        case isFalse => exact core_foldl_recordWrite ..

end TransactionContext
end Linkrs
