import Linkrs.Core.Ids

namespace Linkrs

inductive WalOpType where
  | insertVertex
  | insertEdge
  | createVertexType
  | createEdgeType
  | addVertexProp
  | addEdgeProp
  | updateVertexProp
  | updateEdgeProp
  | deleteVertex
  | deleteEdge
  | deleteVertexType
  | deleteEdgeType
  | deleteVertexProp
  | deleteEdgeProp
  | renameVertexProp
  | renameEdgeProp
  | renameTag
  | renameEdgeType
  | compact
  | createSpace
  | dropSpace
  | clearSpace
  | outboxIntent
  | transactionCommit
  | transactionAbort
  | createTagIndex
  | dropTagIndex
  | createEdgeIndex
  | dropEdgeIndex
  | updateSequence
  | createMacro
  | dropMacro
  | createTypeAlias
  | dropTypeAlias
  | deleteVertexProps
  deriving DecidableEq, Repr

namespace WalOpType

-- The discriminants, in the order of the constructors. There is no operation 22.
def codes : List UInt8 :=
  [0, 1, 2, 3, 4, 5, 6, 7, 8, 9, 10, 11, 12, 13, 14, 15, 16, 17, 18, 19, 20, 21, 23, 24, 25, 26, 27,
    28, 29, 30, 31, 32, 33, 34, 35]

def toByte (op : WalOpType) : UInt8 :=
  codes.getD op.ctorIdx 0

def all : List WalOpType :=
  [.insertVertex, .insertEdge, .createVertexType, .createEdgeType, .addVertexProp, .addEdgeProp,
    .updateVertexProp, .updateEdgeProp, .deleteVertex, .deleteEdge, .deleteVertexType,
    .deleteEdgeType, .deleteVertexProp, .deleteEdgeProp, .renameVertexProp, .renameEdgeProp,
    .renameTag, .renameEdgeType, .compact, .createSpace, .dropSpace, .clearSpace, .outboxIntent,
    .transactionCommit, .transactionAbort, .createTagIndex, .dropTagIndex, .createEdgeIndex,
    .dropEdgeIndex, .updateSequence, .createMacro, .dropMacro, .createTypeAlias, .dropTypeAlias,
    .deleteVertexProps]

def tryFrom (byte : UInt8) : Option WalOpType :=
  all.find? (·.toByte = byte)

theorem tryFrom_toByte (op : WalOpType) : tryFrom op.toByte = some op := by
  cases op <;> decide

end WalOpType

abbrev Lsn := ℕ

inductive WalError where
  | ioError (reason : String)
  | invalidOpType (value : UInt8)
  | checksumMismatch (expected actual : UInt32)
  | serializationError (reason : String)
  | deserializationError (reason : String)
  | corrupted (reason : String)
  | invalidFileHeader
  | fileNotFound (path : String)
  | recoveryAborted (reason : String)
  | invalidOperation (reason : String)
  | poisoned (reason : String)
  | groupCommitTimeout
  deriving DecidableEq, Repr

abbrev WalResult := Except WalError

def WalOpType.parse (value : UInt8) : WalResult WalOpType :=
  match tryFrom value with
  | some op => .ok op
  | none => .error (.invalidOpType value)

@[simp]
theorem WalOpType.parse_toByte (op : WalOpType) : parse op.toByte = .ok op := by
  simp [parse, tryFrom_toByte]

-- A record as the writers pass it around. The transaction id of the source's type is never read.
structure TransactionWalEntry where
  opType : WalOpType
  timestamp : Timestamp
  payload : List UInt8
  mutationSequence : Option ℕ := none
  deriving DecidableEq

-- A staged redo record. Staging only ever sees data operations.
structure RedoEntry extends TransactionWalEntry where
  is_redo : opType ≠ .outboxIntent ∧ opType ≠ .transactionCommit ∧ opType ≠ .transactionAbort

inductive RecordType where
  | full
  | first
  | middle
  | last
  deriving DecidableEq, Repr

structure WalHeader where
  length : UInt32
  opType : UInt8
  isUpdate : Bool
  recordType : RecordType
  flags : UInt16
  timestamp : Timestamp
  lsn : Lsn
  prevLsn : Lsn
  checksum : UInt32
  deriving DecidableEq, Repr

-- `checksum_valid` is always true and `file_start_lsn` is never read.
structure ParsedWalEntry where
  header : WalHeader
  payload : List UInt8
  offset : ℕ
  lsn : Lsn
  prevLsn : Lsn
  deriving DecidableEq, Repr

end Linkrs
