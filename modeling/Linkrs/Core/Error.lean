import Mathlib.Data.Nat.Notation

namespace Linkrs

-- The kinds that the modelled functions report.
inductive StorageErrorKind where
  | dbError
  | serializeError
  | deserializeError
  | conflict
  | ioError
  | invalidInput
  | vertexNotFound
  | vertexAlreadyExists
  | edgeAlreadyExists
  | columnNotFound
  | storageNotOpen
  | capacityExceeded
  | nullValueNotAllowed
  | invalidOperation
  | walError
  deriving DecidableEq, Repr

structure StorageError where
  kind : StorageErrorKind
  message : String
  deriving DecidableEq, Repr

abbrev StorageResult := Except StorageError

namespace StorageError

def vertexNotFound : StorageError :=
  ⟨.vertexNotFound, "Vertex not found"⟩

def storageNotOpen : StorageError :=
  ⟨.storageNotOpen, "Storage not open"⟩

def capacityExceeded : StorageError :=
  ⟨.capacityExceeded, "Capacity exceeded"⟩

def writeWriteConflict (entity : String) : StorageError :=
  ⟨.conflict, s!"Write-write conflict: {entity}"⟩

def nullValueNotAllowed (column : String) : StorageError :=
  ⟨.nullValueNotAllowed, s!"Null value not allowed for column: {column}"⟩

end StorageError

def serializeError (message : String) : StorageError :=
  ⟨.serializeError, message⟩

def deserializeError (message : String) : StorageError :=
  ⟨.deserializeError, message⟩

end Linkrs
