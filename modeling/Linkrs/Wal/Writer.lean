import Linkrs.Lib.Chunks
import Linkrs.Wal.Reassembly

namespace Linkrs

structure WalConfig where
  compression : WalCompression
  checksumEnabled : Bool
  truncateSize : ℕ
  truncateSize_pos : 0 < truncateSize

abbrev WalEntry := WalOpType × Timestamp × List UInt8

def compressionMinSize : ℕ := 64

def chunkRecordType (totalChunks chunkIndex : ℕ) : RecordType :=
  if totalChunks = 1 then .full
  else if chunkIndex = 0 then .first
  else if chunkIndex = totalChunks - 1 then .last
  else .middle

section

variable (backend : WalBackend) (config : WalConfig)

-- Small payloads, and those that do not get shorter, are stored as they are.
def compress (data : List UInt8) : WalResult (List UInt8 × WalCompression) :=
  match config.compression with
  | .none => .ok (data, .none)
  | .zstd =>
    if data.length < compressionMinSize then
      .ok (data, .none)
    else do
      let compressed ← (backend.compress data).mapError .serializationError
      if compressed.length < data.length then
        .ok (compressed, .zstd)
      else
        .ok (data, .none)

def buildWalHeader (op : WalOpType) (timestamp : Timestamp) (compression : WalCompression)
    (recordType : RecordType) (prevLsn newLsn : Lsn) (payload : List UInt8) : WalHeader :=
  let header := WalHeader.new op timestamp (.ofNat payload.length)
    |>.withLsn newLsn prevLsn
    |>.withRecordType recordType
    |>.withCompression compression
  if config.checksumEnabled then header.withChecksum backend payload else header

section

variable (op : WalOpType) (timestamp : Timestamp) (compression : WalCompression)

def buildRecord (recordType : RecordType) (prevLsn : Lsn) (payload : List UInt8) : Record where
  header := buildWalHeader backend config op timestamp compression recordType prevLsn
    (prevLsn + (walHeaderSize + payload.length)) payload
  payload := payload

-- The loop of `append_fragmented_entry`, over the chunks that are left.
def fragmentRecords (totalChunks : ℕ) : ℕ → Lsn → List (List UInt8) → List Record
  | _, _, [] => []
  | chunkIndex, prevLsn, chunk :: chunks =>
    let r := buildRecord backend config op timestamp compression
      (chunkRecordType totalChunks chunkIndex) prevLsn chunk
    r :: fragmentRecords totalChunks (chunkIndex + 1) r.header.lsn chunks

end

def entryRecords (prevLsn : Lsn) : WalEntry → WalResult (List Record)
  | (op, timestamp, payload) => do
    let (stored, compression) ← compress backend config payload
    if walMaxRecordSize < stored.length then
      .ok (fragmentRecords backend config op timestamp compression
        (stored.length ⌈/⌉ walMaxRecordSize) 0 prevLsn (stored.pieces walMaxRecordSize))
    else
      .ok [buildRecord backend config op timestamp compression .full prevLsn stored]

-- Unlike a single entry, the entries of a batch are never fragmented.
def batchRecords : Lsn → List WalEntry → WalResult (List Record)
  | _, [] => .ok []
  | prevLsn, (op, timestamp, payload) :: entries => do
    let (stored, compression) ← compress backend config payload
    let r := buildRecord backend config op timestamp compression .full prevLsn stored
    return r :: (← batchRecords r.header.lsn entries)

end

-- The writer without its buffer. `closed` are the files before the current one.
structure LocalWalWriter where
  config : WalConfig
  currentLsn : Lsn
  fileSize : ℕ
  fileUsed : ℕ
  file : List UInt8
  closed : List (List UInt8)

namespace LocalWalWriter

variable (backend : WalBackend)

-- A new file of the configured size, with its header.
def newFile (config : WalConfig) (closed : List (List UInt8)) (currentLsn : Lsn)
    (stamp : FileStamp) : LocalWalWriter where
  config := config
  currentLsn := currentLsn
  fileSize := config.truncateSize
  fileUsed := walFileHeaderSize
  file := Bytes.writeAt (Bytes.setLen [] config.truncateSize) 0
    (WalFileHeader.new stamp currentLsn config.checksumEnabled).asBytes
  closed := closed

def write (w : LocalWalWriter) (data : List UInt8) : LocalWalWriter :=
  let expectedSize := w.fileUsed + data.length
  let newSize := (expectedSize / w.config.truncateSize + 1) * w.config.truncateSize
  let grown :=
    if w.fileSize < expectedSize then
      { w with file := Bytes.setLen w.file newSize, fileSize := newSize }
    else
      w
  { grown with file := Bytes.writeAt grown.file w.fileUsed data, fileUsed := expectedSize }

def writeEntry (w : LocalWalWriter) (r : Record) : LocalWalWriter :=
  { w.write r.bytes with currentLsn := r.header.lsn }

def appendEntry (w : LocalWalWriter) (entry : WalEntry) : WalResult LocalWalWriter := do
  let records ← entryRecords backend w.config w.currentLsn entry
  return records.foldl writeEntry w

def appendBatch (w : LocalWalWriter) (entries : List WalEntry) : WalResult LocalWalWriter := do
  let records ← batchRecords backend w.config w.currentLsn entries
  let data := Record.stream records
  return { w.write data with currentLsn := w.currentLsn + data.length }

def rotate (w : LocalWalWriter) (stamp : FileStamp) : LocalWalWriter :=
  newFile w.config (w.closed ++ [w.file]) w.currentLsn stamp

end LocalWalWriter

inductive AppendCall where
  | entry (entry : WalEntry)
  | batch (entries : List WalEntry)

inductive WalCall where
  | append (call : AppendCall)
  | rotate (stamp : FileStamp)

namespace LocalWalWriter

variable (backend : WalBackend)

-- A call that fails has not touched the writer.
def append (w : LocalWalWriter) : AppendCall → LocalWalWriter
  | .entry entry => (w.appendEntry backend entry).toOption.getD w
  | .batch entries => (w.appendBatch backend entries).toOption.getD w

def perform (w : LocalWalWriter) : WalCall → LocalWalWriter
  | .append call => w.append backend call
  | .rotate stamp => w.rotate stamp

def files (w : LocalWalWriter) : List (List UInt8) :=
  w.closed ++ [w.file]

end LocalWalWriter

-- The entries that a call puts in the log, each with its records.
def AppendCall.layout (backend : WalBackend) (config : WalConfig) (prevLsn : Lsn) :
    AppendCall → List (WalEntry × List Record)
  | .entry e =>
    match entryRecords backend config prevLsn e with
    | .ok records => [(e, records)]
    | .error _ => []
  | .batch entries =>
    match batchRecords backend config prevLsn entries with
    | .ok records => entries.zip (records.map ([·]))
    | .error _ => []

-- What a file holds: its header, the entries of the calls made while it was the current one, and the
-- zeros up to its size.
structure WalSegment where
  header : WalFileHeader
  calls : List AppendCall
  padding : ℕ

section

variable (backend : WalBackend) (config : WalConfig)

def layoutFrom : Lsn → List AppendCall → List (WalEntry × List Record)
  | _, [] => []
  | prevLsn, call :: calls =>
    let entries := call.layout backend config prevLsn
    entries ++ layoutFrom (Record.endLsn prevLsn (entries.flatMap Prod.snd)) calls

namespace WalSegment

def layout (segment : WalSegment) : List (WalEntry × List Record) :=
  layoutFrom backend config segment.header.startLsn segment.calls

def records (segment : WalSegment) : List Record :=
  (segment.layout backend config).flatMap Prod.snd

def bytes (segment : WalSegment) : List UInt8 :=
  segment.header.asBytes ++ Record.stream (segment.records backend config) ++
    List.replicate segment.padding 0

end WalSegment
end

section

variable {backend : WalBackend} {config : WalConfig} {op : WalOpType} {timestamp : Timestamp}
variable {compression : WalCompression} {recordType : RecordType} {prev : Lsn}
variable {payload : List UInt8} {rs : List Record}

@[simp]
theorem buildWalHeader_lsn {newLsn : Lsn} :
    (buildWalHeader backend config op timestamp compression recordType prev newLsn payload).lsn =
      newLsn := by
  simp only [buildWalHeader]
  split <;> rfl

theorem fromFlagByte_flags (compression : WalCompression) :
    WalCompression.fromFlagByte (((0 &&& ~~~WalHeader.compressionMask) |||
      compression.flagByte.toUInt16) &&& WalHeader.compressionMask).toUInt8 = compression := by
  cases compression <;> decide

def Built (backend : WalBackend) (config : WalConfig) (op : WalOpType) (timestamp : Timestamp)
    (compression : WalCompression) (prev : Lsn) (r : Record) : Prop :=
  ∃ recordType payload,
    r = buildRecord backend config op timestamp compression recordType prev payload

namespace Built

variable {r : Record} (h : Built backend config op timestamp compression prev r)

include h

theorem prevLsn : r.header.prevLsn = prev := by
  obtain ⟨_, _, rfl⟩ := h
  simp only [buildRecord, buildWalHeader]
  split <;> rfl

theorem lsn : r.header.lsn = prev + r.size := by
  obtain ⟨_, _, rfl⟩ := h
  simp [buildRecord, Record.size]

theorem opType : r.header.opType = op.toByte := by
  obtain ⟨_, _, rfl⟩ := h
  simp only [buildRecord, buildWalHeader]
  split <;> rfl

theorem header_timestamp : r.header.timestamp = timestamp := by
  obtain ⟨_, _, rfl⟩ := h
  simp only [buildRecord, buildWalHeader]
  split <;> rfl

theorem header_compression : r.header.compression = compression := by
  obtain ⟨_, _, rfl⟩ := h
  simp only [buildRecord, buildWalHeader]
  split <;> exact fromFlagByte_flags compression

theorem logged (ht : timestamp < 2 ^ 64) (hl : prev + r.size < 2 ^ 64) : r.Logged backend prev where
  fits := ⟨h.header_timestamp ▸ ht, h.lsn ▸ hl, h.prevLsn ▸ Nat.lt_of_le_of_lt (by lia) hl⟩
  length := by
    obtain ⟨_, _, rfl⟩ := h
    simp only [buildRecord, buildWalHeader]
    split <;> rfl
  prevLsn := h.prevLsn
  lsn := h.lsn
  op := ⟨op, by rw [h.opType, WalOpType.parse_toByte]⟩
  checksum := by
    obtain ⟨_, _, rfl⟩ := h
    simp only [buildRecord, buildWalHeader]
    split
    case isTrue => exact .inr rfl
    case isFalse => exact .inl rfl

end Built
end
end Linkrs
