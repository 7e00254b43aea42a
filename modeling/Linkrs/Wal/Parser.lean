import Linkrs.Wal.Record

namespace Linkrs

open List WalHeader
open Except (ensure)

inductive WalRecoveryMode where
  | abortOnCorruption
  | skipCorruption
  | walOnly
  | errorIfMissing
  deriving DecidableEq, Repr

structure RecoveryResult where
  allEntries : List ParsedWalEntry := []
  lastTimestamp : Timestamp := 0
  lastLsn : Lsn := 0
  corruptedCount : ℕ := 0
  skippedCount : ℕ := 0
  deriving DecidableEq, Repr

def RecoveryResult.pushEntry (result : RecoveryResult) (entry : ParsedWalEntry) : RecoveryResult :=
  { result with
    allEntries := result.allEntries ++ [entry]
    lastTimestamp := max result.lastTimestamp entry.header.timestamp
    lastLsn := if result.lastLsn < entry.lsn then entry.lsn else result.lastLsn }

structure FragmentBuffer where
  fragments : List (List UInt8) := []
  firstHeader : Option WalHeader := none
  expectedNext : Option RecordType := none
  deriving DecidableEq, Repr

namespace FragmentBuffer

def reset (_ : FragmentBuffer) : FragmentBuffer :=
  {}

def continues (buffer : FragmentBuffer) : Bool :=
  buffer.expectedNext = some .middle ∨ buffer.expectedNext = some .last

-- The flag says whether the record is complete.
def addFragment (buffer : FragmentBuffer) (header : WalHeader) (payload : List UInt8) : Bool × FragmentBuffer :=
  match header.recordType with
  | .full => (true, buffer.reset)
  | .first =>
    (false, { fragments := [payload], firstHeader := some header, expectedNext := some .middle })
  | .middle =>
    if buffer.continues then
      (false, { buffer with
        fragments := buffer.fragments ++ [payload], expectedNext := some .middle })
    else
      (false, buffer.reset)
  | .last =>
    if buffer.continues then
      (true, { buffer with fragments := buffer.fragments ++ [payload] })
    else
      (false, buffer.reset)

def assemble (buffer : FragmentBuffer) : Option (List UInt8) :=
  if buffer.fragments = [] then none else some buffer.fragments.flatten

end FragmentBuffer

-- A zero timestamp, zero length and zero LSN marks the zero-filled tail.
def WalHeader.isZeroPadding (header : WalHeader) : Bool :=
  header.timestamp = 0 ∧ header.length = 0 ∧ header.lsn = 0

def WalHeader.nextLsn (header : WalHeader) : Lsn :=
  header.prevLsn + walHeaderSize + header.length.toNat

def validateLsnChain (header : WalHeader) (expected : Lsn) (offset : ℕ) : WalResult Unit := do
  ensure (header.nextLsn < 2 ^ 64) (.corrupted s!"LSN overflow at offset {offset}")
  let prev := header.prevLsn
  let lsn := header.lsn
  ensure (header.prevLsn = expected ∧ header.lsn = header.nextLsn) (.corrupted
    s!"Invalid LSN chain at offset {offset}: expected prev {expected}, got prev {prev}, lsn {lsn}")

structure Scanner where
  result : RecoveryResult := {}
  fragments : FragmentBuffer := {}
  expectedPrevLsn : Lsn
  deriving DecidableEq, Repr

-- How the loop goes on: it ends, or moves `n` bytes further.
inductive Turn where
  | stop (s : Scanner)
  | go (n : ℕ) (s : Scanner)
  deriving DecidableEq, Repr

namespace Scanner

def push (s : Scanner) (offset : ℕ) (header : WalHeader) (payload : List UInt8) : Scanner :=
  { s with
    result := s.result.pushEntry
      { header, payload, offset, lsn := header.lsn, prevLsn := header.prevLsn } }

def countCorrupted (s : Scanner) : Scanner :=
  { s with result.corruptedCount := s.result.corruptedCount + 1 }

-- What the loop does with a record that passed every check.
def accept (s : Scanner) (offset : ℕ) (header : WalHeader) (payload : List UInt8) : Scanner :=
  let s := { s with expectedPrevLsn := header.lsn }
  if header.recordType = .full then
    s.push offset header payload
  else
    let (isComplete, buffer) := s.fragments.addFragment header payload
    if isComplete then
      { s with fragments := buffer.reset }.push offset
        (buffer.firstHeader.getD header) (buffer.assemble.getD [])
    else
      { s with fragments := buffer }

section

variable (backend : WalBackend) (mode : WalRecoveryMode) (verifyChecksum : Bool)

def checksumMismatch (header : WalHeader) (payload : List UInt8) : Option UInt32 :=
  let computed := backend.crc (header.checksumInput payload)
  if verifyChecksum ∧ header.checksum ≠ 0 ∧ computed ≠ header.checksum then
    some computed
  else
    none

-- The checks of a record whose bytes are all there.
def readRecord (header : WalHeader) (payload : List UInt8) : WalResult (List UInt8) := do
  let _ ← WalOpType.parse header.opType
  match checksumMismatch backend verifyChecksum header payload with
  | some computed => .error (.checksumMismatch header.checksum computed)
  | none => decodeRecordPayload backend header payload

-- A damaged record ends the scan, or is counted and passed over.
def reject (s : Scanner) (n : ℕ) (error : WalError) : WalResult Turn :=
  if mode = .abortOnCorruption then .error error else .ok (.go n s.countCorrupted)

def turn (s : Scanner) (offset : ℕ) (rest : List UInt8) : WalResult Turn :=
  match fromBytes (rest.take walHeaderSize) with
  | none => s.reject mode 1 (.corrupted s!"Invalid WAL header at offset {offset}")
  | some header =>
    if header.isZeroPadding then
      .ok (.stop s)
    else do
      validateLsnChain header s.expectedPrevLsn offset
      let body := rest.drop walHeaderSize
      let n := header.length.toNat
      if header.isLengthValid body.length then
        match readRecord backend verifyChecksum header (body.take n) with
        | .ok payload => .ok (.go (walHeaderSize + n) (s.accept offset header payload))
        | .error error => s.reject mode (walHeaderSize + n) error
      else
        .ok (.stop s.countCorrupted)

-- `fuel` bounds the number of turns. A turn consumes at least a byte.
def scan : ℕ → ℕ → List UInt8 → Scanner → WalResult RecoveryResult
  | 0, _, _, s => .ok s.result
  | fuel + 1, offset, rest, s =>
    if rest.length < walHeaderSize then
      .ok s.result
    else
      match turn backend mode verifyChecksum s offset rest with
      | .error error => .error error
      | .ok (.stop s) => .ok s.result
      | .ok (.go n s) => scan fuel (offset + n) (rest.drop n) s

def scanFrom (offset : ℕ) (rest : List UInt8) (s : Scanner) : WalResult RecoveryResult :=
  scan backend mode verifyChecksum rest.length offset rest s

end
end Scanner

def parseWalFileBytes (backend : WalBackend) (mode : WalRecoveryMode) (verifyChecksum : Bool)
    (buffer : List UInt8) (fileStartLsn : Lsn) : WalResult RecoveryResult :=
  Scanner.scanFrom backend mode verifyChecksum walFileHeaderSize (buffer.drop walFileHeaderSize)
    { expectedPrevLsn := fileStartLsn }

namespace Scanner

variable {backend : WalBackend} {mode : WalRecoveryMode} {verify : Bool}
variable {s s' : Scanner} {offset n : ℕ} {rest : List UInt8} {r : Record} {rs : List Record} {prev : Lsn}
  {payload : List UInt8}

theorem reject_pos (hk : 0 < k) (h : s.reject mode k e = .ok (.go n s')) : 0 < n := by
  simp only [reject] at h
  split at h
  case isTrue => cases h
  case isFalse => cases h; exact hk

theorem turn_pos (h : turn backend mode verify s offset rest = .ok (.go n s')) : 0 < n := by
  have hs (k : ℕ) : 0 < walHeaderSize + k := Nat.add_pos_left (by decide) k
  simp only [turn] at h
  split at h
  case h_1 => exact reject_pos Nat.one_pos h
  case h_2 header _ =>
    split at h
    case isTrue => cases h
    case isFalse =>
      have ⟨_, _, h⟩ := Except.bind_eq_ok.mp h
      split at h
      case isFalse => cases h
      case isTrue =>
        split at h
        case h_1 => cases h; exact hs _
        case h_2 => exact reject_pos (hs _) h

theorem scan_short (h : rest.length < walHeaderSize) :
    scan backend mode verify fuel offset rest s = .ok s.result := by
  cases fuel <;> simp [scan, h]

theorem scan_congr (h : rest.length ≤ fuel) (h' : rest.length ≤ fuel') :
    scan backend mode verify fuel offset rest s = scan backend mode verify fuel' offset rest s := by
  induction fuel generalizing fuel' offset rest s with
  | zero =>
    have hr : rest.length < walHeaderSize := Nat.lt_of_le_of_lt h (by decide)
    rw [scan_short hr, scan_short hr]
  | succ fuel ind =>
    by_cases hr : rest.length < walHeaderSize
    case pos => rw [scan_short hr, scan_short hr]
    case neg =>
      have : walHeaderSize = 40 := rfl
      cases fuel' with
      | zero => omega
      | succ fuel' =>
        simp only [scan, if_neg hr]
        split
        case h_1 => rfl
        case h_2 => rfl
        case h_3 n s' ht =>
          have hn := turn_pos ht
          apply ind <;> rw [length_drop] <;> omega

-- The number of bytes is enough fuel: more of it changes nothing.
theorem scan_fuel (h : rest.length ≤ fuel) :
    scan backend mode verify fuel offset rest s = scanFrom backend mode verify offset rest s :=
  scan_congr h (Nat.le_refl _)

theorem scanFrom_short (h : rest.length < walHeaderSize) :
    scanFrom backend mode verify offset rest s = .ok s.result :=
  scan_short h

theorem scanFrom_eq (h : ¬ rest.length < walHeaderSize) : scanFrom backend mode verify offset rest s =
      match turn backend mode verify s offset rest with
      | .error error => .error error
      | .ok (.stop s) => .ok s.result
      | .ok (.go n s) => scanFrom backend mode verify (offset + n) (rest.drop n) s := by
  have hw : walHeaderSize = 40 := rfl
  have hl : rest.length = (rest.length - 1) + 1 := by omega
  rw [scanFrom, hl, scan, if_neg h]
  split
  case h_1 => rfl
  case h_2 => rfl
  case h_3 n s' ht =>
    have hn := turn_pos ht
    apply scan_fuel
    rw [length_drop]
    omega

theorem isZeroPadding_eq_false (h : r.Logged backend prev) : r.header.isZeroPadding = false := by
  have hp : r.header.lsn ≠ 0 := by
    rw [h.lsn, Record.size, walHeaderSize]
    lia
  simp [isZeroPadding, hp]

theorem validateLsnChain_eq_ok_iff : validateLsnChain header prev offset = .ok () ↔
      header.nextLsn < 2 ^ 64 ∧ header.prevLsn = prev ∧ header.lsn = header.nextLsn := by
  simp [validateLsnChain, Except.bind_eq_ok]

theorem validateLsnChain_eq_ok (h : r.Logged backend prev)
    (hl : r.payload.length < 2 ^ 32) : validateLsnChain r.header prev offset = .ok () := by
  have hn : r.header.nextLsn = r.header.lsn := by
    rw [h.lsn, nextLsn, h.prevLsn, h.length, UInt32.toNat_ofNat_of_lt' hl, Record.size, Nat.add_assoc]
  exact validateLsnChain_eq_ok_iff.mpr ⟨hn ▸ h.fits.lsn, h.prevLsn, hn.symm⟩

theorem readRecord_logged (h : r.Logged backend prev) : readRecord backend verify r.header r.payload =
      decodeRecordPayload backend r.header r.payload := by
  have ⟨op, ho⟩ := h.op
  have hm : checksumMismatch backend verify r.header r.payload = none := by
    rcases h.checksum with hc | hc <;> simp [checksumMismatch, hc]
  simp [readRecord, ho, hm]

@[simp]
theorem take_bytes_append (r : Record) : (r.bytes ++ rest).take walHeaderSize = r.header.asBytes := by
  simp [Record.bytes]

-- The header of a record of a writer is taken whatever bytes follow it.
theorem turn_framed (h : r.Logged backend s.expectedPrevLsn)
    (hs : r.payload.length ≤ maxPayloadLength) (hp : payload.length = r.payload.length) :
    turn backend mode verify s offset (({ r with payload } : Record).bytes ++ rest) =
      match readRecord backend verify r.header payload with
      | .ok payload => .ok (.go r.size (s.accept offset r.header payload))
      | .error error => s.reject mode r.size error := by
  have hd : (({ r with payload } : Record).bytes ++ rest).drop walHeaderSize = payload ++ rest := by
    simp [Record.bytes]
  have hn : r.header.length.toNat = payload.length := by
    rw [h.length, Record.length_toNat hs, hp]
  have hc : validateLsnChain r.header s.expectedPrevLsn offset = .ok () :=
    validateLsnChain_eq_ok h (Nat.lt_of_le_of_lt hs (by decide))
  have hl : r.header.isLengthValid (payload ++ rest).length := by
    simp [isLengthValid, hn, hp, hs]
  simp only [turn, take_bytes_append, fromBytes_asBytes h.fits, isZeroPadding_eq_false h,
    hc, hd, hl, hn, take_left, Record.size, ← hp]
  rfl

-- What becomes of a whole record of a writer is decided by its decompression.
theorem turn_logged (h : r.Logged backend s.expectedPrevLsn) (hs : r.payload.length ≤ maxPayloadLength) :
    turn backend mode verify s offset (r.bytes ++ rest) =
      match decodeRecordPayload backend r.header r.payload with
      | .ok payload => .ok (.go r.size (s.accept offset r.header payload))
      | .error error => s.reject mode r.size error := by
  rw [← readRecord_logged h]
  exact turn_framed h hs rfl

theorem not_short (r : Record) : ¬ (r.bytes ++ rest).length < walHeaderSize := by
  simp only [length_append, Record.length_bytes, Record.size]
  omega

theorem scanFrom_record (h : r.Intact backend s.expectedPrevLsn) :
    scanFrom backend mode verify offset (r.bytes ++ rest) s =
      scanFrom backend mode verify (offset + r.size) rest (s.accept offset r.header (r.content backend)) := by
  rw [scanFrom_eq (not_short r), turn_logged h.toLogged h.small, h.decodes]
  simp

theorem scanFrom_refused {error : WalError} (h : r.Logged backend s.expectedPrevLsn)
    (hs : r.payload.length ≤ maxPayloadLength) (hp : payload.length = r.payload.length)
    (he : readRecord backend verify r.header payload = .error error) :
    scanFrom backend mode verify offset (({ r with payload } : Record).bytes ++ rest) s =
      if mode = .abortOnCorruption then
        .error error
      else
        scanFrom backend mode verify (offset + r.size) rest s.countCorrupted := by
  have hd : (({ r with payload } : Record).bytes ++ rest).drop r.size = rest := by
    rw [Record.size, ← hp]
    exact drop_left' (Record.length_bytes _)
  rw [scanFrom_eq (not_short _), turn_framed h hs hp, he]
  by_cases hm : mode = .abortOnCorruption <;> simp [reject, hm, hd]

theorem scanFrom_undecodable {error : WalError} (h : r.Logged backend s.expectedPrevLsn)
    (hs : r.payload.length ≤ maxPayloadLength)
    (hd : decodeRecordPayload backend r.header r.payload = .error error) :
    scanFrom backend mode verify offset (r.bytes ++ rest) s =
      if mode = .abortOnCorruption then
        .error error
      else
        scanFrom backend mode verify (offset + r.size) rest s.countCorrupted :=
  scanFrom_refused h hs rfl (readRecord_logged h ▸ hd)

theorem scanFrom_unchained (hf : r.header.Fits) (hz : r.header.isZeroPadding = false)
    (hb : rest.take walHeaderSize = r.header.asBytes)
    (hc : r.header.prevLsn = s.expectedPrevLsn → r.header.lsn ≠ r.header.nextLsn) :
    ∃ error, scanFrom backend mode verify offset rest s = .error error := by
  have hl : ¬ rest.length < walHeaderSize := by
    have := congrArg List.length hb
    simp only [length_take, length_asBytes] at this
    omega
  cases hv : validateLsnChain r.header s.expectedPrevLsn offset with
  | ok u =>
    have ⟨_, hp, hn⟩ := validateLsnChain_eq_ok_iff.mp hv
    exact absurd hn (hc hp)
  | error error =>
    rw [scanFrom_eq hl, turn, hb, fromBytes_asBytes hf]
    simp [hz, hv]

-- A payload of four gigabytes or more does not fit the length field, and its header is refused.
theorem scanFrom_wrapped (h : r.Logged backend s.expectedPrevLsn)
    (hb : rest.take walHeaderSize = r.header.asBytes) (hw : 2 ^ 32 ≤ r.payload.length) :
    ∃ error, scanFrom backend mode verify offset rest s = .error error := by
  apply scanFrom_unchained h.fits (isZeroPadding_eq_false h) hb
  rw [h.lsn, nextLsn, h.prevLsn, h.length, UInt32.toNat_ofNat', Record.size]
  lia

-- A payload that is too long, or that the file does not hold, ends the scan without an error.
theorem scanFrom_cut (h : r.Logged backend s.expectedPrevLsn)
    (hb : rest.take walHeaderSize = r.header.asBytes) (hw : r.payload.length < 2 ^ 32)
    (hl : maxPayloadLength < r.payload.length ∨ rest.length < r.size) :
    scanFrom backend mode verify offset rest s = .ok s.countCorrupted.result := by
  have hr : walHeaderSize ≤ rest.length := by
    have := congrArg List.length hb
    simp only [length_take, length_asBytes] at this
    omega
  have hi : r.header.isLengthValid (rest.length - walHeaderSize) = false := by
    simp only [isLengthValid, h.length, UInt32.toNat_ofNat_of_lt' hw, decide_eq_false_iff_not, Record.size] at *
    omega
  rw [scanFrom_eq (Nat.not_lt.mpr hr), turn, hb, fromBytes_asBytes h.fits]
  simp [isZeroPadding_eq_false h, validateLsnChain_eq_ok h hw, hi]

theorem scanFrom_zeros (k : ℕ) : scanFrom backend mode verify offset (List.replicate k 0) s = .ok s.result := by
  by_cases hk : (List.replicate k (0 : UInt8)).length < walHeaderSize
  case pos => exact scanFrom_short hk
  case neg =>
    have ht : (List.replicate k (0 : UInt8)).take walHeaderSize = List.replicate walHeaderSize 0 := by
      rw [take_replicate]
      congr 1
      simp only [length_replicate] at hk
      omega
    have hh : fromBytes (List.replicate walHeaderSize 0) =
        some ⟨0, 0, false, .full, 0, 0, 0, 0, 0⟩ := by
      decide
    rw [scanFrom_eq hk, turn, ht, hh]
    simp [isZeroPadding]

@[simp]
theorem accept_expectedPrevLsn {header : WalHeader} :
    (s.accept offset header payload).expectedPrevLsn = header.lsn := by
  simp only [accept]
  split
  case isTrue => rfl
  case isFalse => split <;> rfl

def acceptAll (backend : WalBackend) : ℕ → List Record → Scanner → Scanner
  | _, [], s => s
  | offset, r :: rs, s =>
    acceptAll backend (offset + r.size) rs (s.accept offset r.header (r.content backend))

theorem acceptAll_append : acceptAll backend offset (rs ++ rs') s =
      acceptAll backend (offset + (Record.stream rs).length) rs' (acceptAll backend offset rs s) := by
  induction rs generalizing offset s with
  | nil => simp [acceptAll]
  | cons r rs ind => simp [acceptAll, ind, Nat.add_assoc]

theorem scanFrom_stream (h : Record.Chain (Record.Intact backend) s.expectedPrevLsn rs) :
    scanFrom backend mode verify offset (Record.stream rs ++ rest) s =
      scanFrom backend mode verify (offset + (Record.stream rs).length) rest (acceptAll backend offset rs s) := by
  induction rs generalizing offset s with
  | nil => simp [acceptAll]
  | cons r rs ind =>
    have ⟨hr, hrs⟩ := h
    rw [Record.stream_cons, append_assoc, scanFrom_record hr, ind (by simpa using hrs)]
    simp [acceptAll, Nat.add_assoc]

section

variable {start : Lsn} {header : WalHeader}

-- The LSNs that were reported, and the one kept for an entry whose last part is missing.
def lsns (s : Scanner) : List Lsn :=
  s.result.allEntries.map (·.lsn) ++ s.fragments.firstHeader.toList.map (·.lsn)

structure Ordered (start : Lsn) (s : Scanner) : Prop where
  start_le : start ≤ s.expectedPrevLsn
  once : ∀ lsn, s.lsns.count lsn ≤ 1
  range : ∀ lsn ∈ s.lsns, start < lsn ∧ lsn ≤ s.expectedPrevLsn

theorem count_lsns_accept (lsn : Lsn) :
    (s.accept offset header payload).lsns.count lsn ≤ (header.lsn :: s.lsns).count lsn := by
  unfold accept FragmentBuffer.addFragment
  cases header.recordType <;> cases hc : s.fragments.continues <;> cases hf : s.fragments.firstHeader <;>
    simp [lsns, push, RecoveryResult.pushEntry, FragmentBuffer.reset, count_cons, hc, hf] <;> omega

theorem Ordered.accept (h : Ordered start s) (hl : s.expectedPrevLsn < header.lsn) :
    Ordered start (s.accept offset header payload) where
  start_le := by
    rw [accept_expectedPrevLsn]
    exact h.start_le.trans hl.le
  once lsn := by
    have ho := h.once lsn
    have hz : header.lsn = lsn → s.lsns.count lsn = 0 := fun he => count_eq_zero.mpr fun hm => by
      have := (h.range lsn hm).2
      lia
    refine (count_lsns_accept lsn).trans ?_
    rw [count_cons]
    grind
  range lsn hm := by
    have hc := (count_pos_iff.mpr hm).trans_le (count_lsns_accept lsn)
    rw [accept_expectedPrevLsn]
    rcases mem_cons.mp (count_pos_iff.mp hc) with rfl | hm
    · exact ⟨h.start_le.trans_lt hl, le_rfl⟩
    · exact ⟨(h.range lsn hm).1, (h.range lsn hm).2.trans hl.le⟩

theorem turn_cases (h : turn backend mode verify s offset rest = .ok t) :
    (∃ n, t = .go n s.countCorrupted) ∨ t = .stop s ∨ t = .stop s.countCorrupted ∨
      ∃ n header payload, s.expectedPrevLsn < header.lsn ∧ t = .go n (s.accept offset header payload) := by
  have hreject {n : ℕ} {e : WalError} (h : s.reject mode n e = .ok t) : ∃ n, t = .go n s.countCorrupted := by
    rw [reject] at h
    split at h <;> cases h
    exact ⟨n, rfl⟩
  simp only [turn] at h
  split at h
  case h_1 => exact .inl (hreject h)
  case h_2 header _ =>
    split at h
    case isTrue => cases h; exact .inr (.inl rfl)
    case isFalse =>
      obtain ⟨_, hc, h⟩ := Except.bind_eq_ok.mp h
      obtain ⟨-, hp, hn⟩ := validateLsnChain_eq_ok_iff.mp hc
      split at h
      case isFalse => cases h; exact .inr (.inr (.inl rfl))
      case isTrue =>
        split at h
        case h_2 => exact .inl (hreject h)
        case h_1 payload _ =>
          cases h
          refine .inr (.inr (.inr ⟨_, header, payload, ?_, rfl⟩))
          rw [hn, nextLsn, hp, walHeaderSize]
          lia

theorem Ordered.scan (h : Ordered start s) (he : scan backend mode verify fuel offset rest s = .ok found) :
    ∃ s', s'.result = found ∧ Ordered start s' := by
  have hcorrupted {s : Scanner} (h : Ordered start s) : Ordered start s.countCorrupted :=
    ⟨h.start_le, h.once, h.range⟩
  induction fuel generalizing offset rest s with
  | zero => exact ⟨s, Except.ok.inj he, h⟩
  | succ fuel ind =>
    rw [Scanner.scan] at he
    split at he
    case isTrue => exact ⟨s, Except.ok.inj he, h⟩
    case isFalse =>
      cases ht : turn backend mode verify s offset rest with
      | error => simp [ht] at he
      | ok t =>
        rw [ht] at he
        obtain ⟨n, rfl⟩ | rfl | rfl | ⟨n, header, payload, hl, rfl⟩ := turn_cases ht
        · exact ind (hcorrupted h) he
        · exact ⟨s, Except.ok.inj he, h⟩
        · exact ⟨_, Except.ok.inj he, hcorrupted h⟩
        · exact ind (h.accept hl) he

end

end Scanner

-- Whatever bytes are parsed, and in whatever mode: no LSN is reported twice, and all lie behind the start.
theorem parseWalFileBytes_lsns {backend : WalBackend} {mode : WalRecoveryMode} {verify : Bool}
    {buffer : List UInt8} {start : Lsn} {result : RecoveryResult}
    (h : parseWalFileBytes backend mode verify buffer start = .ok result) :
    (result.allEntries.map (·.lsn)).Nodup ∧ ∀ e ∈ result.allEntries, start < e.lsn := by
  have hn : Scanner.Ordered start { expectedPrevLsn := start } := by
    constructor <;> simp [Scanner.lsns]
  obtain ⟨s, rfl, hs⟩ := hn.scan h
  refine ⟨(nodup_append.mp (nodup_iff_count.mpr hs.once)).1, fun e he => ?_⟩
  exact (hs.range e.lsn (mem_append_left _ (mem_map_of_mem he))).1

-- Records without a checksum, the second and the third of which are one entry.
theorem parseWalFileBytes_lsns_fragmented : ∃ result : RecoveryResult,
    result.allEntries.map (fun e => (e.lsn, e.payload)) = [(48, [1]), (89, [2, 3]), (170, [])] ∧
    (result.allEntries.map (·.lsn)).Nodup ∧ ∀ e ∈ result.allEntries, 7 < e.lsn := by
  let record (kind : RecordType) (prev : Lsn) (payload : List UInt8) : List UInt8 :=
    let header := WalHeader.new .compact 3 (.ofNat payload.length)
    ((header.withLsn (prev + walHeaderSize + payload.length) prev).withRecordType kind).asBytes ++ payload
  let parsed := parseWalFileBytes ⟨fun _ => 0, .ok, .ok⟩ .abortOnCorruption true
    (.replicate walFileHeaderSize 0 ++ record .full 7 [1] ++ record .first 48 [2] ++ record .last 89 [3] ++
      record .full 130 []) 7
  have h : parsed.toOption.map (·.allEntries.map fun e => (e.lsn, e.payload)) =
      some [(48, [1]), (89, [2, 3]), (170, [])] := by decide +kernel
  obtain ⟨result, hr, hl⟩ := Option.map_eq_some_iff.mp h
  have hp : parsed = .ok result := by
    cases he : parsed <;> simp_all [Except.toOption]
  exact ⟨result, hl, parseWalFileBytes_lsns hp⟩

end Linkrs
