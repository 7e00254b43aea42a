import Linkrs.Lib.Bytes
import Linkrs.Lib.Except
import Linkrs.Wal.Types

namespace Linkrs

open Bytes

def walFileHeaderSize : ℕ := 64

def walHeaderSize : ℕ := 40

def walMaxRecordSize : ℕ := 32 * 1024 - walHeaderSize

def maxPayloadLength : ℕ := 256 * 1024 * 1024

def slice (bytes : List UInt8) (offset n : ℕ) : List UInt8 :=
  (bytes.drop offset).take n

namespace RecordType

def toByte : RecordType → UInt8
  | full => 0
  | first => 1
  | middle => 2
  | last => 3

def ofByte : UInt8 → Option RecordType
  | 0 => full
  | 1 => first
  | 2 => middle
  | 3 => last
  | _ => none

@[simp]
theorem ofByte_toByte (t : RecordType) : ofByte t.toByte = some t := by
  cases t <;> rfl

end RecordType

inductive WalCompression where
  | none
  | zstd
  deriving DecidableEq, Repr

namespace WalCompression

def flagByte : WalCompression → UInt8
  | none => 0
  | zstd => 2

def fromFlagByte (byte : UInt8) : WalCompression :=
  if byte &&& 0x0F = 2 then zstd else none

end WalCompression

-- What the log takes from other crates: the CRC of `crc32fast` and the compression of `zstd`, at the
-- level that is configured.
structure WalBackend where
  crc : List UInt8 → UInt32
  compress : List UInt8 → Except String (List UInt8)
  decompress : List UInt8 → Except String (List UInt8)

namespace WalHeader

def compressionMask : UInt16 := 0x000F

def new (op : WalOpType) (timestamp : Timestamp) (length : UInt32) : WalHeader where
  length := length
  opType := op.toByte
  isUpdate := match op with
    | .updateVertexProp | .updateEdgeProp | .deleteVertex | .deleteEdge | .deleteVertexType
    | .deleteEdgeType | .deleteVertexProp | .deleteEdgeProp | .deleteVertexProps
    | .renameVertexProp | .renameEdgeProp | .compact => true
    | _ => false
  recordType := .full
  flags := 0
  timestamp := timestamp
  lsn := 0
  prevLsn := 0
  checksum := 0

def withLsn (h : WalHeader) (lsn prevLsn : Lsn) : WalHeader :=
  { h with lsn, prevLsn }

def withRecordType (h : WalHeader) (recordType : RecordType) : WalHeader :=
  { h with recordType }

def withCompression (h : WalHeader) (compression : WalCompression) : WalHeader :=
  { h with flags := (h.flags &&& ~~~compressionMask) ||| compression.flagByte.toUInt16 }

def compression (h : WalHeader) : WalCompression :=
  .fromFlagByte (h.flags &&& compressionMask).toUInt8

def isCompressed (h : WalHeader) : Bool :=
  h.compression ≠ .none

def isUpdateByte (h : WalHeader) : UInt8 :=
  if h.isUpdate then 1 else 0

-- The bytes that the checksum of a record covers.
def checksumInput (h : WalHeader) (payload : List UInt8) : List UInt8 :=
  Bytes.le 4 h.length.toNat ++ [h.opType, h.isUpdateByte, h.recordType.toByte] ++
    Bytes.le 2 h.flags.toNat ++ Bytes.le 8 h.timestamp ++ Bytes.le 8 h.lsn ++ Bytes.le 8 h.prevLsn ++
    payload

def withChecksum (backend : WalBackend) (h : WalHeader) (payload : List UInt8) : WalHeader :=
  { h with checksum := backend.crc (h.checksumInput payload) }

def isLengthValid (h : WalHeader) (remaining : ℕ) : Bool :=
  h.length.toNat ≤ maxPayloadLength ∧ h.length.toNat ≤ remaining

-- One byte of padding stands in front of the flags, two at the end.
def asBytes (h : WalHeader) : List UInt8 :=
  Bytes.le 4 h.length.toNat ++ [h.opType, h.isUpdateByte, h.recordType.toByte, 0] ++
    Bytes.le 2 h.flags.toNat ++ Bytes.le 8 h.timestamp ++ Bytes.le 8 h.lsn ++ Bytes.le 8 h.prevLsn ++
    Bytes.le 4 h.checksum.toNat ++ [0, 0]

def fromBytes (bytes : List UInt8) : Option WalHeader := do
  guard (walHeaderSize ≤ bytes.length)
  let recordType ← RecordType.ofByte (bytes.getD 6 0)
  return {
    length := .ofNat (ofLe (slice bytes 0 4))
    opType := bytes.getD 4 0
    isUpdate := bytes.getD 5 0 ≠ 0
    recordType := recordType
    flags := .ofNat (ofLe (slice bytes 8 2))
    timestamp := ofLe (slice bytes 10 8)
    lsn := ofLe (slice bytes 18 8)
    prevLsn := ofLe (slice bytes 26 8)
    checksum := .ofNat (ofLe (slice bytes 34 4))
  }

-- The fields that are `u64` in the source hold such a value.
structure Fits (h : WalHeader) : Prop where
  timestamp : h.timestamp < 2 ^ 64
  lsn : h.lsn < 2 ^ 64
  prevLsn : h.prevLsn < 2 ^ 64

@[simp]
theorem length_asBytes (h : WalHeader) : h.asBytes.length = walHeaderSize := by
  simp [asBytes, walHeaderSize]

theorem fromBytes_asBytes (hf : h.Fits) : fromBytes h.asBytes = some h := by
  have hr : h.asBytes.getD 6 0 = h.recordType.toByte := rfl
  have hu : h.asBytes.getD 5 0 = h.isUpdateByte := rfl
  have h₁ : slice h.asBytes 0 4 = Bytes.le 4 h.length.toNat := rfl
  have h₂ : slice h.asBytes 8 2 = Bytes.le 2 h.flags.toNat := rfl
  have h₃ : slice h.asBytes 10 8 = Bytes.le 8 h.timestamp := rfl
  have h₄ : slice h.asBytes 18 8 = Bytes.le 8 h.lsn := rfl
  have h₅ : slice h.asBytes 26 8 = Bytes.le 8 h.prevLsn := rfl
  have h₆ : slice h.asBytes 34 4 = Bytes.le 4 h.checksum.toNat := rfl
  have hb : decide (h.isUpdateByte ≠ 0) = h.isUpdate := by
    cases hb : h.isUpdate <;> simp [isUpdateByte, hb]
  have ⟨ht, hl, hp⟩ := hf
  simp only [fromBytes, length_asBytes, hr, RecordType.ofByte_toByte, hu, hb, h₁, h₂, h₃, h₄, h₅, h₆,
    ofLe_le (w := 4) h.length.toNat_lt, ofLe_le (w := 2) h.flags.toNat_lt,
    ofLe_le (w := 8) ht, ofLe_le (w := 8) hl, ofLe_le (w := 8) hp,
    ofLe_le (w := 4) h.checksum.toNat_lt]
  simp
  rfl

end WalHeader

def walMagic : UInt32 := 0x47524150

def walVersion : UInt32 := 3

structure WalFileHeader where
  magic : UInt32
  version : UInt32
  checkpointSeq : UInt64
  startLsn : Lsn
  salt1 : UInt32
  salt2 : UInt32
  createdAt : UInt64
  threadId : UInt32
  reserved : List UInt8
  reserved_size : reserved.length = 20

-- What a new file header takes from outside the log: the random salts, the time of day, and the
-- writer's own fields.
structure FileStamp where
  checkpointSeq : UInt64
  salt1 : UInt32
  salt2 : UInt32
  createdAt : UInt64
  threadId : UInt32

namespace WalFileHeader

def new (stamp : FileStamp) (startLsn : Lsn) (checksumEnabled : Bool) : WalFileHeader where
  magic := walMagic
  version := walVersion
  checkpointSeq := stamp.checkpointSeq
  startLsn := startLsn
  salt1 := stamp.salt1
  salt2 := stamp.salt2
  createdAt := stamp.createdAt
  threadId := stamp.threadId
  reserved := (if checksumEnabled then 1 else 0) :: List.replicate 19 0
  reserved_size := by simp

def asBytes (h : WalFileHeader) : List UInt8 :=
  Bytes.le 4 h.magic.toNat ++ Bytes.le 4 h.version.toNat ++ Bytes.le 8 h.checkpointSeq.toNat ++
    Bytes.le 8 h.startLsn ++ Bytes.le 4 h.salt1.toNat ++ Bytes.le 4 h.salt2.toNat ++
    Bytes.le 8 h.createdAt.toNat ++ Bytes.le 4 h.threadId.toNat ++ h.reserved

def fromBytes (bytes : List UInt8) : Option WalFileHeader :=
  if h : bytes.length < walFileHeaderSize then
    none
  else
    some {
      magic := .ofNat (ofLe (slice bytes 0 4))
      version := .ofNat (ofLe (slice bytes 4 4))
      checkpointSeq := .ofNat (ofLe (slice bytes 8 8))
      startLsn := ofLe (slice bytes 16 8)
      salt1 := .ofNat (ofLe (slice bytes 24 4))
      salt2 := .ofNat (ofLe (slice bytes 28 4))
      createdAt := .ofNat (ofLe (slice bytes 32 8))
      threadId := .ofNat (ofLe (slice bytes 40 4))
      reserved := slice bytes 44 20
      reserved_size := by
        simp only [walFileHeaderSize, slice, List.length_take, List.length_drop] at *
        omega
    }

def isValid (h : WalFileHeader) : Bool :=
  h.magic = walMagic ∧ h.version = walVersion

@[simp]
theorem length_asBytes (h : WalFileHeader) : h.asBytes.length = walFileHeaderSize := by
  simp [asBytes, walFileHeaderSize, h.reserved_size]

theorem isValid_new (stamp : FileStamp) (startLsn : Lsn) (enabled : Bool) :
    (new stamp startLsn enabled).isValid := by
  simp [isValid, new]

theorem fromBytes_asBytes (hl : h.startLsn < 2 ^ 64) : fromBytes h.asBytes = some h := by
  have h₀ : slice h.asBytes 0 4 = Bytes.le 4 h.magic.toNat := rfl
  have h₁ : slice h.asBytes 4 4 = Bytes.le 4 h.version.toNat := rfl
  have h₂ : slice h.asBytes 8 8 = Bytes.le 8 h.checkpointSeq.toNat := rfl
  have h₃ : slice h.asBytes 16 8 = Bytes.le 8 h.startLsn := rfl
  have h₄ : slice h.asBytes 24 4 = Bytes.le 4 h.salt1.toNat := rfl
  have h₅ : slice h.asBytes 28 4 = Bytes.le 4 h.salt2.toNat := rfl
  have h₆ : slice h.asBytes 32 8 = Bytes.le 8 h.createdAt.toNat := rfl
  have h₇ : slice h.asBytes 40 4 = Bytes.le 4 h.threadId.toNat := rfl
  have h₈ : slice h.asBytes 44 20 = h.reserved :=
    List.take_of_length_le (Nat.le_of_eq h.reserved_size)
  rw [fromBytes, dif_neg (by simp)]
  simp only [h₀, h₁, h₂, h₃, h₄, h₅, h₆, h₇, h₈, ofLe_le (w := 4) h.magic.toNat_lt,
    ofLe_le (w := 4) h.version.toNat_lt, ofLe_le (w := 8) h.checkpointSeq.toNat_lt,
    ofLe_le (w := 8) hl, ofLe_le (w := 4) h.salt1.toNat_lt,
    ofLe_le (w := 4) h.salt2.toNat_lt, ofLe_le (w := 8) h.createdAt.toNat_lt,
    ofLe_le (w := 4) h.threadId.toNat_lt]
  simp

end WalFileHeader

section

variable (backend : WalBackend)

def decompressPayload (payload : List UInt8) : WalCompression → WalResult (List UInt8)
  | .zstd => (backend.decompress payload).mapError .deserializationError
  | .none => .ok payload

def decodeRecordPayload (header : WalHeader) (payload : List UInt8) : WalResult (List UInt8) :=
  if header.isCompressed then
    decompressPayload backend payload header.compression
  else
    .ok payload

end

-- A record as it lies in a file.
structure Record where
  header : WalHeader
  payload : List UInt8
  deriving DecidableEq

namespace Record

def bytes (r : Record) : List UInt8 :=
  r.header.asBytes ++ r.payload

def size (r : Record) : ℕ :=
  walHeaderSize + r.payload.length

@[simp]
theorem length_bytes (r : Record) : r.bytes.length = r.size := by
  simp [bytes, size]

def content (backend : WalBackend) (r : Record) : List UInt8 :=
  (decodeRecordPayload backend r.header r.payload).toOption.getD []

-- A record as a writer puts it behind the position `prev`.
structure Logged (backend : WalBackend) (prev : Lsn) (r : Record) : Prop where
  fits : r.header.Fits
  length : r.header.length = .ofNat r.payload.length
  prevLsn : r.header.prevLsn = prev
  lsn : r.header.lsn = prev + r.size
  op : ∃ op, WalOpType.parse r.header.opType = .ok op
  checksum : r.header.checksum = 0 ∨
    backend.crc (r.header.checksumInput r.payload) = r.header.checksum

-- A record that a reader takes. The bound on its payload keeps the length field from wrapping.
structure Intact (backend : WalBackend) (prev : Lsn) (r : Record) : Prop
    extends Logged backend prev r where
  small : r.payload.length ≤ maxPayloadLength
  decodes : decodeRecordPayload backend r.header r.payload = .ok (r.content backend)

-- Records that follow one another in the log, from `prev` on.
def Chain (P : Lsn → Record → Prop) : Lsn → List Record → Prop
  | _, [] => True
  | prev, r :: rs => P prev r ∧ Chain P r.header.lsn rs

def endLsn : Lsn → List Record → Lsn
  | prev, [] => prev
  | _, r :: rs => endLsn r.header.lsn rs

def stream (rs : List Record) : List UInt8 :=
  rs.flatMap bytes

section

variable {backend : WalBackend} {P Q : Lsn → Record → Prop} {prev : Lsn} {r : Record}
variable {rs rs' : List Record}

theorem length_toNat (h : r.payload.length ≤ maxPayloadLength) :
    (UInt32.ofNat r.payload.length).toNat = r.payload.length := by
  apply UInt32.toNat_ofNat_of_lt'
  exact Nat.lt_of_le_of_lt h (by decide)

@[simp]
theorem stream_nil : stream [] = [] :=
  rfl

@[simp]
theorem stream_cons : stream (r :: rs) = r.bytes ++ stream rs :=
  rfl

@[simp]
theorem stream_append : stream (rs ++ rs') = stream rs ++ stream rs' :=
  List.flatMap_append

theorem chain_append : Chain P prev (rs ++ rs') ↔ Chain P prev rs ∧ Chain P (endLsn prev rs) rs' := by
  induction rs generalizing prev with
  | nil => simp [Chain, endLsn]
  | cons r rs ind => simp [Chain, endLsn, ind, and_assoc]

theorem Chain.imp (h : Chain P prev rs) (hi : ∀ r ∈ rs, ∀ prev, P prev r → Q prev r) : Chain Q prev rs := by
  induction rs generalizing prev with
  | nil => trivial
  | cons r rs ind =>
    have ⟨hr, hrs⟩ := List.forall_mem_cons.mp hi
    exact ⟨hr _ h.1, ind h.2 hrs⟩

theorem Chain.of_mem (h : Chain P prev rs) (hr : r ∈ rs) : ∃ prev, P prev r := by
  induction rs generalizing prev with
  | nil => cases hr
  | cons r' rs ind =>
    rcases List.mem_cons.mp hr with rfl | hr
    · exact ⟨prev, h.1⟩
    · exact ind h.2 hr

@[simp]
theorem endLsn_append : endLsn prev (rs ++ rs') = endLsn (endLsn prev rs) rs' := by
  induction rs generalizing prev with
  | nil => rfl
  | cons r rs ind => exact ind

theorem endLsn_eq (h : Chain (fun prev r => r.header.lsn = prev + r.size) prev rs) :
    endLsn prev rs = prev + (stream rs).length := by
  induction rs generalizing prev with
  | nil => rfl
  | cons r rs ind =>
    rw [endLsn, ind h.2, h.1, stream_cons, List.length_append, length_bytes, Nat.add_assoc]

end
end Record
end Linkrs
