import Mathlib.Data.List.Sort
import Linkrs.Wal.Parser

namespace Linkrs

open Except (ensure)

def WalError.message : WalError → String
  | .ioError reason => s!"IO error: {reason}"
  | .invalidOpType value => s!"Invalid operation type: {value}"
  | .invalidFileHeader => "Invalid file header"
  | .checksumMismatch expected actual => s!"Checksum mismatch: expected {expected}, got {actual}"
  | .serializationError reason => s!"Serialization error: {reason}"
  | .deserializationError reason => s!"Deserialization error: {reason}"
  | .corrupted reason => s!"Corrupted WAL: {reason}"
  | .fileNotFound path => s!"File not found: {path}"
  | .recoveryAborted reason => s!"Recovery aborted: {reason}"
  | .invalidOperation reason => s!"Invalid operation: {reason}"
  | .poisoned reason => s!"WAL is poisoned: {reason}"
  | .groupCommitTimeout =>
    "Group commit timeout: sync leader did not complete within deadline"

-- The header of a file, `none` for an empty one.
def readWalFile (bytes : List UInt8) : WalResult (Option WalFileHeader) :=
  if bytes = [] then
    .ok none
  else
    match WalFileHeader.fromBytes (bytes.take walFileHeaderSize) with
    | none => .error .invalidFileHeader
    | some header => if header.isValid then .ok (some header) else .error .invalidFileHeader

-- A file of the log directory. The directory lists them in the order of their paths.
structure WalFile where
  path : String
  bytes : List UInt8

def discoverWalFiles (files : List WalFile) (mode : WalRecoveryMode) : WalResult (List WalFile) :=
  if files = [] ∧ mode = .errorIfMissing then .error (.fileNotFound "No WAL files found")
  else .ok files

structure LocalWalParser where
  recoveryMode : WalRecoveryMode := .abortOnCorruption
  verifyChecksum : Bool := true
  allEntries : List ParsedWalEntry := []
  lastTimestamp : Timestamp := 0
  lastLsn : Lsn := 0
  corruptedCount : ℕ := 0
  skippedCount : ℕ := 0

namespace LocalWalParser

variable (backend : WalBackend)

def parseWalFile (p : LocalWalParser) (bytes : List UInt8) : WalResult LocalWalParser := do
  match ← readWalFile bytes with
  | none => return p
  | some header =>
    let result ← parseWalFileBytes backend p.recoveryMode p.verifyChecksum bytes header.startLsn
    return { p with
      allEntries := p.allEntries ++ result.allEntries
      corruptedCount := p.corruptedCount + result.corruptedCount
      skippedCount := p.skippedCount + result.skippedCount
      lastTimestamp := max p.lastTimestamp result.lastTimestamp
      lastLsn := if p.lastLsn < result.lastLsn then result.lastLsn else p.lastLsn }

def parseWalFiles (p : LocalWalParser) : List WalFile → WalResult LocalWalParser
  | [] => .ok p
  | file :: files =>
    match p.parseWalFile backend file.bytes with
    | .ok p => p.parseWalFiles files
    | .error error =>
      if p.recoveryMode = .abortOnCorruption then
        let path := file.path
        let reason := error.message
        .error (.recoveryAborted s!"Failed to parse {path}: {reason}")
      else
        { p with corruptedCount := p.corruptedCount + 1 }.parseWalFiles files

def openFiles (p : LocalWalParser) (files : List WalFile) : WalResult LocalWalParser := do
  let p ← p.parseWalFiles backend files
  return { p with allEntries := p.allEntries.mergeSort (·.lsn ≤ ·.lsn) }

end LocalWalParser

theorem readWalFile_eq (hv : header.isValid)
    (hl : header.startLsn < 2 ^ 64) : readWalFile (header.asBytes ++ rest) = .ok (some header) := by
  have hn : header.asBytes ++ rest ≠ [] := by
    apply List.ne_nil_of_length_pos
    rw [List.length_append, WalFileHeader.length_asBytes, walFileHeaderSize]
    omega
  have ht : (header.asBytes ++ rest).take walFileHeaderSize = header.asBytes := by
    simp
  simp [readWalFile, hn, ht, WalFileHeader.fromBytes_asBytes hl, hv]

end Linkrs
