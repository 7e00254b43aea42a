import Linkrs.Context.UndoLog
import Linkrs.Core.Context
import Linkrs.Wal.Commit

namespace Linkrs

-- What a journal record says about the resource it changes. Certification only tells some of the
-- kinds apart.
inductive RecordedResource where
  | vertex
  | edge
  | vertexProperty
  | edgeProperty
  | schema
  | index
  | sequence
  | macros
  | typeAlias
  | syncIntent
  | unknown
  deriving DecidableEq, Repr

namespace RecordedResource

def fromWalOp : WalOpType → RecordedResource
  | .insertVertex | .deleteVertex => .vertex
  | .insertEdge | .deleteEdge => .edge
  | .updateVertexProp | .addVertexProp | .deleteVertexProp | .renameVertexProp => .vertexProperty
  | .updateEdgeProp | .addEdgeProp | .deleteEdgeProp | .renameEdgeProp => .edgeProperty
  | .createVertexType | .deleteVertexType | .createEdgeType | .deleteEdgeType | .createSpace
  | .dropSpace | .clearSpace => .schema
  | .createTagIndex | .dropTagIndex | .createEdgeIndex | .dropEdgeIndex => .index
  | .updateSequence => .sequence
  | .createMacro | .dropMacro => .macros
  | .createTypeAlias | .dropTypeAlias => .typeAlias
  | .outboxIntent => .syncIntent
  | _ => .unknown

def fromModifiedTable : Option String → RecordedResource
  | some "vertex" => .vertex
  | some "edge" => .edge
  | some "schema" => .schema
  | some "index" => .index
  | some "sequence" => .sequence
  | some "macro" => .macros
  | some "type_alias" => .typeAlias
  | some "sync" => .syncIntent
  | _ => .unknown

def certified : RecordedResource → MutationResource
  | .schema => .schema
  | .index => .index
  | .syncIntent => .syncIntent
  | _ => .other

end RecordedResource

-- A mutation with all that is kept for commit and abort. `ε` are the undo entries.
structure Mutation (ε : Type) where
  entityKeys : List MutationEntityKey
  undoEntry : Option ε
  redoEntry : Option TransactionWalEntry
  modifiedTable : Option String
  indexIntents : List OutboxIntent
  resource : RecordedResource

namespace Mutation

variable {ε : Type} (orderingKey : IndexMutation → String) (mutation : Mutation ε)

-- A resource that is not given is inferred from the table, the redo entry or the intents.
def inferredResource : RecordedResource :=
  if mutation.resource ≠ .unknown then mutation.resource
  else if mutation.modifiedTable.isSome then .fromModifiedTable mutation.modifiedTable
  else match mutation.redoEntry with
    | some redo => .fromWalOp redo.opType
    | none => if mutation.indexIntents ≠ [] then .syncIntent else .unknown

def result : MutationResult where
  entityKeys := mutation.entityKeys
  resource := mutation.inferredResource.certified
  modifiedTable := mutation.modifiedTable
  indexKeys := mutation.indexIntents.map (orderingKey ·.mutation)

end Mutation

structure TransactionMutationRecord (ε : Type) where
  sequence : ℕ
  transactionId : TransactionId
  entityKeys : List MutationEntityKey
  resource : RecordedResource
  undo : Option ε
  redo : Option TransactionWalEntry
  indexIntents : List OutboxIntent
  modifiedTable : Option String
  writeTimestamp : Timestamp
  commitTimestamp : Option Timestamp

structure MutationJournal (ε : Type) where
  records : List (TransactionMutationRecord ε)
  nextSequence : ℕ

namespace MutationJournal

variable {ε : Type} (journal : MutationJournal ε)

def new : MutationJournal ε where
  records := []
  nextSequence := 0

def len : ℕ :=
  journal.records.length

def push (record : TransactionMutationRecord ε) : MutationJournal ε where
  records := journal.records ++ [{ record with sequence := journal.nextSequence }]
  nextSequence := journal.nextSequence + 1

def truncate (len : ℕ) : MutationJournal ε :=
  if len < journal.len then ⟨journal.records.take len, len⟩ else journal

def redoEntries : List TransactionWalEntry :=
  journal.records.filterMap (·.redo)

def walIntents : List OutboxIntent :=
  journal.records.flatMap (·.indexIntents)

-- The sequence numbers are the positions.
def Numbered : Prop :=
  journal.nextSequence = journal.len

variable {journal}

theorem Numbered.push (h : journal.Numbered) (record : TransactionMutationRecord ε) :
    (journal.push record).Numbered := by
  simp only [Numbered, len] at h
  simp [Numbered, len, MutationJournal.push, h]

theorem Numbered.truncate (h : journal.Numbered) (hn : n ≤ journal.len) :
    journal.truncate n = ⟨journal.records.take n, n⟩ := by
  simp only [MutationJournal.truncate]
  split
  case isTrue => rfl
  case isFalse hl =>
    have he : n = journal.records.length := Nat.le_antisymm hn (not_lt.mp hl)
    rw [he, List.take_length]
    exact congrArg (MutationJournal.mk _) h

end MutationJournal

-- The estimate of the buffered bytes is for metrics only.
structure LocalWalBuffer where
  entries : List TransactionWalEntry
  intents : List OutboxIntent
  deriving DecidableEq

namespace LocalWalBuffer

def new : LocalWalBuffer where
  entries := []
  intents := []

def appendFullEntry (buffer : LocalWalBuffer) (entry : TransactionWalEntry) : LocalWalBuffer :=
  { buffer with entries := buffer.entries ++ [entry] }

def appendIntent (buffer : LocalWalBuffer) (intent : OutboxIntent) : WalResult LocalWalBuffer := do
  intent.validate.mapError .invalidOperation
  return { buffer with intents := buffer.intents ++ [intent] }

theorem getD_appendIntent (buffer : LocalWalBuffer) (intent : OutboxIntent) :
    (buffer.appendIntent intent).toOption.getD buffer =
      ⟨buffer.entries, buffer.intents ++ [intent].filter (·.validate.isOk)⟩ := by
  cases hv : intent.validate with
  | error e => simp [appendIntent, hv, Except.toOption]
  | ok u => simp [appendIntent, hv, Except.toOption, pure, Except.pure]

end LocalWalBuffer

-- Where a savepoint was taken. The time of its creation is not kept.
structure SavepointInfo where
  name : Option String
  sequence : ℕ
  undoLogIndex : ℕ
  syncSequence : ℕ
  writeSet : WriteSet
  readSet : WriteSet
  modifiedTables : List String
  journalLen : ℕ
  journalNextSequence : ℕ
  stagedWriteMark : Option StagedWriteMark

structure SavepointManager where
  savepoints : ℕ → Option SavepointInfo
  nextId : ℕ
  nextSequence : ℕ

namespace SavepointManager

variable (manager : SavepointManager)

def new : SavepointManager where
  savepoints := fun _ => none
  nextId := 1
  nextSequence := 1

def createSavepoint (info : SavepointInfo) : ℕ × SavepointManager :=
  (manager.nextId,
    { savepoints := Function.update manager.savepoints manager.nextId
        (some { info with sequence := manager.nextSequence, stagedWriteMark := none })
      nextId := manager.nextId + 1
      nextSequence := manager.nextSequence + 1 })

def removeSavepoint (id : ℕ) : SavepointManager :=
  { manager with savepoints := Function.update manager.savepoints id none }

def setStagingMark (id : ℕ) (mark : Option StagedWriteMark) : SavepointManager :=
  { manager with
    savepoints := Function.update manager.savepoints id
      ((manager.savepoints id).map fun info => { info with stagedWriteMark := mark }) }

def removeAfter (sequence : ℕ) : SavepointManager :=
  { manager with savepoints := fun id => (manager.savepoints id).filter (·.sequence ≤ sequence) }

end SavepointManager

inductive SavepointError where
  | invalidStateForAbort (state : TransactionState)
  | transactionExpired
  | savepointNotFound (id : ℕ)
  | rollbackFailed (message : String)
  deriving DecidableEq, Repr

-- How a nested error is displayed.
def SavepointError.rollbackFailedText (message : String) : String :=
  s!"[rollback_failed] {message}"

-- A position in the journal is still valid if the journal reaches it.
def SavepointInfo.validateAgainst {ε : Type} (info : SavepointInfo) (journal : MutationJournal ε) :
    Except String Unit :=
  if journal.len < info.journalLen then
    .error (s!"journal truncated beyond savepoint: savepoint len {info.journalLen} > " ++
      s!"current len {journal.len}")
  else if info.journalNextSequence ≠ info.journalLen then
    .error (s!"savepoint next_sequence {info.journalNextSequence} != " ++ s!"journal_len {info.journalLen}")
  else
    .ok ()

end Linkrs
