import Linkrs.Wal.RoundTrip

namespace Linkrs

open Record Scanner

variable {backend : WalBackend}

-- The entries that a reader reports for unfragmented records from `offset` on.
def Record.entries (backend : WalBackend) : ℕ → List Record → List ParsedWalEntry
  | _, [] => []
  | offset, r :: rs =>
    { header := r.header, payload := r.content backend, offset, lsn := r.header.lsn, prevLsn := r.header.prevLsn } ::
      entries backend (offset + r.size) rs

-- A segment of unfragmented records with the payload of one of them altered in place, so that the
-- checksum in its header is no longer that of its bytes.
structure DamagedSegment (backend : WalBackend) where
  header : WalFileHeader
  before : List Record
  record : Record
  after : List Record
  payload : List UInt8
  padding : ℕ
  intact : Record.Chain (Record.Intact backend) header.startLsn (before ++ record :: after)
  whole : ∀ r ∈ before ++ record :: after, r.header.recordType = .full
  length : payload.length = record.payload.length
  mismatch : backend.crc (record.header.checksumInput payload) ≠ record.header.checksum

namespace Scanner

variable {s : Scanner} {offset : ℕ} {rs : List Record}

theorem acceptAll_whole (h : ∀ r ∈ rs, r.header.recordType = .full) : acceptAll backend offset rs s =
      { s with
        expectedPrevLsn := endLsn s.expectedPrevLsn rs
        result := s.result.pushAll (Record.entries backend offset rs) } := by
  induction rs generalizing offset s with
  | nil => simp [acceptAll, endLsn, Record.entries, RecoveryResult.pushAll]
  | cons r rs ind =>
    obtain ⟨hr, hrs⟩ := List.forall_mem_cons.mp h
    rw [acceptAll, ind hrs]
    simp [accept, hr, push, endLsn, Record.entries, RecoveryResult.pushAll]

end Scanner

@[simp]
theorem RecoveryResult.pushAll_corruptedCount {result : RecoveryResult} {entries : List ParsedWalEntry} :
    (result.pushAll entries).corruptedCount = result.corruptedCount := by
  induction entries generalizing result with
  | nil => rfl
  | cons e es ind => exact ind

namespace DamagedSegment

variable {d : DamagedSegment backend}

def damaged (d : DamagedSegment backend) : Record :=
  { d.record with payload := d.payload }

def bytes (d : DamagedSegment backend) : List UInt8 :=
  d.header.asBytes ++ (stream (d.before ++ d.damaged :: d.after) ++ List.replicate d.padding 0)

def others (d : DamagedSegment backend) : List ParsedWalEntry :=
  Record.entries backend walFileHeaderSize d.before ++
    Record.entries backend (walFileHeaderSize + (stream d.before).length + d.record.size) d.after

-- A reader that skips corruption reports all other records and the damage.
def Skipped (d : DamagedSegment backend) : Prop :=
  ∃ result, parseWalFileBytes backend .skipCorruption true d.bytes d.header.startLsn = .ok result ∧
    result.allEntries = d.others ∧ result.corruptedCount = 1

-- A checksum of zero counts as none, and then only a failing decompression shows the damage.
def Detected (d : DamagedSegment backend) : Prop :=
  d.record.header.checksum ≠ 0 ∨ (decodeRecordPayload backend d.record.header d.payload).isOk = false

theorem intact_record (d : DamagedSegment backend) : d.record.Intact backend (endLsn d.header.startLsn d.before) :=
  (chain_append.mp d.intact).2.1

def reached (d : DamagedSegment backend) : Scanner where
  result := RecoveryResult.pushAll {} (Record.entries backend walFileHeaderSize d.before)
  expectedPrevLsn := endLsn d.header.startLsn d.before

theorem parse_eq (d : DamagedSegment backend) :
    parseWalFileBytes backend .skipCorruption true d.bytes d.header.startLsn =
      d.reached.scanFrom backend .skipCorruption true (walFileHeaderSize + (stream d.before).length)
        (d.damaged.bytes ++ (stream d.after ++ List.replicate d.padding 0)) := by
  have hdrop : d.bytes.drop walFileHeaderSize =
      stream d.before ++ (d.damaged.bytes ++ (stream d.after ++ List.replicate d.padding 0)) := by
    rw [bytes, List.drop_left' d.header.length_asBytes]
    simp
  have ⟨hbefore, _⟩ := chain_append.mp d.intact
  rw [parseWalFileBytes, hdrop, scanFrom_stream hbefore,
    Scanner.acceptAll_whole fun r hr => d.whole r (List.mem_append_left _ hr)]
  rfl

theorem exists_refusal (h : d.Detected) :
    ∃ error, readRecord backend true d.record.header d.payload = .error error := by
  have ⟨op, ho⟩ := d.intact_record.op
  simp only [readRecord, ho, Except.ok_bind]
  cases hm : checksumMismatch backend true d.record.header d.payload with
  | some computed => exact ⟨_, rfl⟩
  | none =>
    have hzero : d.record.header.checksum = 0 := by
      by_contra hz
      simp [checksumMismatch, hz, d.mismatch] at hm
    obtain hz | hd := h
    · exact absurd hzero hz
    · cases he : decodeRecordPayload backend d.record.header d.payload with
      | ok => simp [he, Except.isOk, Except.toBool] at hd
      | error => exact ⟨_, rfl⟩

theorem parse_of_detected (h : d.Detected) :
    parseWalFileBytes backend .skipCorruption true d.bytes d.header.startLsn =
      d.reached.countCorrupted.scanFrom backend .skipCorruption true
        (walFileHeaderSize + (stream d.before).length + d.record.size)
        (stream d.after ++ List.replicate d.padding 0) := by
  have ⟨error, he⟩ := exists_refusal h
  rw [d.parse_eq, damaged, scanFrom_refused d.intact_record.toLogged d.intact_record.small d.length he]
  rfl

-- Damage that goes unnoticed: the record is as good as any other.
theorem intact_damaged (h : ¬d.Detected) : d.damaged.Intact backend (endLsn d.header.startLsn d.before) := by
  simp only [Detected, not_or, ne_eq, not_not, Bool.not_eq_false, Except.isOk_iff] at h
  obtain ⟨hzero, content, hcontent⟩ := h
  have hr := d.intact_record
  exact {
    fits := hr.fits
    length := by rw [damaged, d.length, hr.length]
    prevLsn := hr.prevLsn
    lsn := by rw [damaged, Record.size, d.length, hr.lsn, Record.size]
    op := hr.op
    checksum := .inl hzero
    small := d.length ▸ hr.small
    decodes := by simp [damaged, Record.content, hcontent, Except.toOption] }

theorem parse_of_not_detected (h : ¬d.Detected) :
    ∃ result, parseWalFileBytes backend .skipCorruption true d.bytes d.header.startLsn = .ok result ∧
      result.corruptedCount = 0 := by
  have hchain : Record.Chain (Record.Intact backend) d.reached.expectedPrevLsn (d.damaged :: d.after) :=
    ⟨intact_damaged h, (chain_append.mp d.intact).2.2⟩
  have hwhole : ∀ r ∈ d.damaged :: d.after, r.header.recordType = .full := by
    have ⟨hrecord, hafter⟩ := List.forall_mem_cons.mp (List.forall_mem_append.mp d.whole).2
    exact List.forall_mem_cons.mpr ⟨hrecord, hafter⟩
  rw [d.parse_eq, ← List.append_assoc, ← stream_cons, scanFrom_stream hchain,
    scanFrom_zeros, Scanner.acceptAll_whole hwhole]
  exact ⟨_, rfl, by simp [reached]⟩

-- The scan does not carry the position behind a record that it skips, so the next one does not continue
-- the log.
theorem parse_of_followed (h : d.Detected) (hafter : d.after = r :: rs) :
    ∃ error, parseWalFileBytes backend .skipCorruption true d.bytes d.header.startLsn = .error error := by
  have hr : r.Intact backend d.record.header.lsn := by
    have hchain := (chain_append.mp d.intact).2.2
    rw [hafter] at hchain
    exact hchain.1
  have hapart : r.header.prevLsn ≠ d.reached.countCorrupted.expectedPrevLsn := by
    rw [hr.prevLsn, d.intact_record.lsn, Record.size, walHeaderSize]
    simp only [countCorrupted, reached]
    lia
  rw [parse_of_detected h, hafter]
  exact scanFrom_unchained hr.fits (isZeroPadding_eq_false hr.toLogged) (by simp)
    fun heq => absurd heq hapart

theorem skipped_iff_detected_last (d : DamagedSegment backend) : d.Skipped ↔ d.Detected ∧ d.after = [] := by
  by_cases h : d.Detected
  case neg =>
    obtain ⟨result, hresult, hcount⟩ := parse_of_not_detected h
    refine iff_of_false ?_ fun h' => h h'.1
    rintro ⟨result', hresult', -, hcount'⟩
    cases hresult.symm.trans hresult'
    omega
  case pos =>
    cases hafter : d.after with
    | nil =>
      rw [Skipped, parse_of_detected h, hafter]
      refine iff_of_true ⟨_, scanFrom_zeros _, ?_, ?_⟩ ⟨h, rfl⟩
      · simp [reached, countCorrupted, others, hafter, Record.entries]
      · simp [reached, countCorrupted]
    | cons r rs =>
      obtain ⟨error, he⟩ := parse_of_followed h hafter
      rw [Skipped, he]
      exact iff_of_false (by simp) fun h' => by simpa using h'.2

section

theorem intact_buildRecord {prev : Lsn}
    {payload : List UInt8} (ht : timestamp < 2 ^ 64) (hl : prev + (walHeaderSize + payload.length) < 2 ^ 64)
    (hs : payload.length ≤ maxPayloadLength) :
    (buildRecord backend config op timestamp .none .full prev payload).Intact backend prev := by
  have hb : Built backend config op timestamp .none prev
      (buildRecord backend config op timestamp .none .full prev payload) := ⟨_, _, rfl⟩
  have hd := hb.decode
  exact ⟨hb.logged ht hl, hs, content_eq hd ▸ hd⟩

-- Two vertices are inserted, and a byte of the first one's payload changes.
def firstInsert : Record :=
  buildRecord trimmingBackend plainConfig .insertVertex 7 .none .full 0 [1, 2, 3]

def secondInsert : Record :=
  buildRecord trimmingBackend plainConfig .insertVertex 8 .none .full firstInsert.header.lsn [4]

def changedByte : DamagedSegment trimmingBackend where
  header := .new someStamp 0 true
  before := []
  record := firstInsert
  after := [secondInsert]
  payload := [1, 2, 5]
  padding := 100
  intact := ⟨intact_buildRecord (by decide) (by decide) (by decide),
    intact_buildRecord (by decide) (by decide) (by decide), trivial⟩
  whole := by decide
  length := rfl
  mismatch := by decide +kernel

-- The damage is detected, and yet the second record is lost with the first.
theorem skip_corruption_refuses_segment : changedByte.Detected ∧ ¬changedByte.Skipped ∧
    ∃ error, parseWalFileBytes trimmingBackend .skipCorruption true changedByte.bytes 0 = .error error := by
  have hd : changedByte.Detected := .inl (by decide +kernel)
  have ⟨error, he⟩ := parse_of_followed hd rfl
  refine ⟨hd, ?_, error, he⟩
  rintro ⟨result, hresult, -⟩
  cases he.symm.trans hresult

end
end DamagedSegment
end Linkrs
