import Linkrs.Lib.Crc32
import Linkrs.Lib.TrailingZeros
import Linkrs.Wal.Directory
import Linkrs.Wal.Layout

namespace Linkrs

open List Except Record Scanner

variable {backend : WalBackend} {config : WalConfig} {mode : WalRecoveryMode} {verify : Bool}

-- What `zstd` promises: a frame decompresses to what was compressed, and a truncated frame does not
-- decompress at all.
structure WalBackend.Lawful (backend : WalBackend) : Prop where
  roundTrip : ∀ {data frame}, backend.compress data = .ok frame → backend.decompress frame = .ok data
  truncated : ∀ {data frame} part, backend.compress data = .ok frame → part <+: frame → part ≠ [] →
    part ≠ frame → ∃ error, backend.decompress part = .error error

section

variable {payload stored : List UInt8}

theorem compress_eq_ok (h : compress backend config payload = .ok (stored, compression)) :
    match compression with
    | .none => stored = payload
    | .zstd => backend.compress payload = .ok stored ∧ stored.length < payload.length := by
  simp only [compress] at h
  split at h
  case h_1 => cases h; rfl
  case h_2 =>
    split at h
    case isTrue => cases h; rfl
    case isFalse =>
      have ⟨_, hc, h⟩ := bind_eq_ok.mp h
      split at h
      case isTrue hlt =>
        cases h
        exact ⟨mapError_eq_ok.mp hc, hlt⟩
      case isFalse => cases h; rfl

theorem compress_none (h : compress backend config payload = .ok (stored, .none)) : stored = payload :=
  compress_eq_ok h

theorem compress_zstd (h : compress backend config payload = .ok (stored, .zstd)) : backend.compress payload = .ok stored :=
  (compress_eq_ok h).1

theorem length_le_of_compress (h : compress backend config payload = .ok (stored, compression)) :
    stored.length ≤ payload.length := by
  have h := compress_eq_ok h
  cases compression with
  | none => exact (congrArg length h).le
  | zstd => exact h.2.le

end

namespace AppendCall

theorem storable_entry (h : e.2.2.length ≤ walMaxRecordSize) : (entry e).Storable backend config :=
  fun _ hc => Nat.le_trans (length_le_of_compress hc) h

theorem storable_batch (h : ∀ e ∈ es, e.2.2.length ≤ maxPayloadLength) : (batch es).Storable backend config := by
  intro e he stored compression hc
  simp only [appended] at he
  split at he
  case isTrue => exact Nat.le_trans (length_le_of_compress hc) (h e he)
  case isFalse => cases he

end AppendCall

section

variable {op : WalOpType} {timestamp : Timestamp} {compression : WalCompression} {prev : Lsn}
variable {r : Record}

theorem Built.decode (h : Built backend config op timestamp compression prev r) :
    decodeRecordPayload backend r.header r.payload = decompressPayload backend r.payload compression := by
  cases compression <;>
    simp [decodeRecordPayload, WalHeader.isCompressed, h.header_compression, decompressPayload]

theorem content_eq {content : List UInt8}
    (h : decodeRecordPayload backend r.header r.payload = .ok content) : r.content backend = content := by
  simp [Record.content, h, Except.toOption]

end

namespace Stored

variable {prev : Lsn} {e : WalEntry} {stored : List UInt8} {compression : WalCompression}
variable {g : RecordGroup}

theorem decode (h : Stored backend config prev e stored compression g)
    (hr : r ∈ g.records) : decodeRecordPayload backend r.header r.payload =
      decompressPayload backend r.payload compression :=
  have ⟨_, hb⟩ := h.built.of_mem hr
  hb.decode

theorem final_payload (h : Stored backend config prev e stored compression g) (hf : g.front = []) :
    g.final.payload = stored := by
  simpa [RecordGroup.records, hf] using h.payload

theorem decompress (h : Stored backend config prev e stored compression g)
    (hb : compression = .none ∨ backend.Lawful) : decompressPayload backend stored compression = .ok e.2.2 := by
  have hc := h.compressed
  cases compression with
  | none => simp [decompressPayload, compress_none hc]
  | zstd =>
    have hb := hb.resolve_left (by simp)
    simp [decompressPayload, hb.roundTrip (compress_zstd hc), Except.mapError]

theorem intact (h : Stored backend config prev e stored compression g)
    (hb : compression = .none ∨ backend.Lawful) (hr : Readable backend config (e, g))
    (hl : Record.Chain (Record.Logged backend) prev g.records) :
    Record.Chain (Record.Intact backend) prev g.records ∧ g.content backend = e.2.2 := by
  have hr := hr _ _ h.compressed
  by_cases hf : g.front = []
  case pos =>
    rw [if_pos hf] at hr
    have hg : g.records = [g.final] := by simp [RecordGroup.records, hf]
    have hp := h.final_payload hf
    have hd : decodeRecordPayload backend g.final.header g.final.payload = .ok e.2.2 := by
      rw [h.decode (by simp [hg]), hp, h.decompress hb]
    have hc := content_eq hd
    rw [hg] at hl ⊢
    exact ⟨⟨⟨hl.1, hp ▸ hr, hc ▸ hd⟩, trivial⟩, by simp [RecordGroup.content, hg, hc]⟩
  case neg =>
    rw [if_neg hf] at hr
    subst hr
    have hd (r : Record) (hr : r ∈ g.records) :
        decodeRecordPayload backend r.header r.payload = .ok r.payload := by
      rw [h.decode hr, decompressPayload]
    refine ⟨hl.imp fun r hr prev hlog => ⟨hlog, ?_, ?_⟩, ?_⟩
    · exact Nat.le_trans (h.chunked hf r hr).1 (by decide)
    · rw [content_eq (hd r hr), hd r hr]
    · rw [RecordGroup.content, flatMap_congr fun r hr => content_eq (hd r hr), h.payload,
        compress_none h.compressed]

theorem not_readable (h : Stored backend config prev e stored compression g)
    (hr : ¬ Readable backend config (e, g)) :
    if g.front = [] then maxPayloadLength < stored.length else compression = .zstd := by
  have hr : ¬ if g.front = [] then stored.length ≤ maxPayloadLength else compression = .none := by
    intro hc
    apply hr
    intro stored' compression' hs
    cases Except.ok.inj (h.compressed.symm.trans hs)
    exact hc
  split
  case isTrue hf => simpa [hf] using hr
  case isFalse hf =>
    cases compression with
    | none => simp [hf] at hr
    | zstd => rfl

section

variable {s : Scanner} {offset : ℕ} {rest : List UInt8}

-- The first fragment of a compressed payload does not decompress, and when it is passed over the
-- second one no longer continues the log.
theorem scanFrom_compressed (h : Stored backend config prev e stored .zstd g) (hb : backend.Lawful)
    (hf : g.front ≠ []) (hl : Record.Chain (Record.Logged backend) prev g.records)
    (hs : s.expectedPrevLsn = prev) :
    ∃ error, s.scanFrom backend mode verify offset (stream g.records ++ rest) = .error error := by
  obtain ⟨r₁, r₂, rs, hg⟩ : ∃ r₁ r₂ rs, g.records = r₁ :: r₂ :: rs := by
    obtain ⟨r, rs, hr⟩ := exists_cons_of_ne_nil hf
    cases rs <;> simp [RecordGroup.records, hr]
  obtain ⟨hsmall, hne⟩ := h.chunked hf r₁ (by simp [hg])
  obtain ⟨_, hne₂⟩ := h.chunked hf r₂ (by simp [hg])
  have hp := h.payload
  obtain ⟨error, hd⟩ := hb.truncated r₁.payload (compress_zstd h.compressed)
    (by simp [← hp, hg]) hne (by simp [← hp, hg, hne₂])
  have hdec : decodeRecordPayload backend r₁.header r₁.payload =
      .error (.deserializationError error) := by
    rw [h.decode (by simp [hg])]
    simp [decompressPayload, hd, Except.mapError]
  rw [hg] at hl ⊢
  subst hs
  rw [stream_cons, append_assoc, scanFrom_undecodable hl.1 (Nat.le_trans hsmall (by decide)) hdec]
  split
  case isTrue => exact ⟨_, rfl⟩
  case isFalse =>
    have h₂ := hl.2.1
    apply scanFrom_unchained h₂.fits (isZeroPadding_eq_false h₂) (by simp)
    intro he
    rw [h₂.prevLsn, hl.1.lsn] at he
    have : walHeaderSize = 40 := rfl
    simp [Record.size, countCorrupted] at he
    omega

theorem scanFrom_oversized (h : Stored backend config prev e stored compression g)
    (hf : g.front = []) (hm : maxPayloadLength < stored.length)
    (hl : Record.Chain (Record.Logged backend) prev g.records) (hs : s.expectedPrevLsn = prev) :
    (∃ error, s.scanFrom backend mode verify offset (stream g.records ++ rest) =
      .error error) ∨ s.scanFrom backend mode verify offset (stream g.records ++ rest) =
      .ok s.countCorrupted.result := by
  have hg : g.records = [g.final] := by simp [RecordGroup.records, hf]
  rw [hg] at hl ⊢
  rw [← h.final_payload hf] at hm
  subst hs
  by_cases hw : 2 ^ 32 ≤ g.final.payload.length
  case pos => exact .inl (scanFrom_wrapped hl.1 (by simp) hw)
  case neg => exact .inr (scanFrom_cut hl.1 (by simp) (by omega) (.inl hm))

theorem scanFrom_unreadable (h : Stored backend config prev e stored compression g)
    (hb : backend.Lawful) (hr : ¬ Readable backend config (e, g))
    (hl : Record.Chain (Record.Logged backend) prev g.records) (hs : s.expectedPrevLsn = prev) :
    (∃ error, s.scanFrom backend mode verify offset (stream g.records ++ rest) =
      .error error) ∨ s.scanFrom backend mode verify offset (stream g.records ++ rest) =
      .ok s.countCorrupted.result := by
  have hn := h.not_readable hr
  by_cases hf : g.front = []
  case pos => exact h.scanFrom_oversized hf (by simpa [hf] using hn) hl hs
  case neg =>
    rw [if_neg hf] at hn
    subst hn
    exact .inl (h.scanFrom_compressed hb hf hl hs)

end
end Stored
def WalEntry.contents (e : WalEntry) : UInt8 × Timestamp × List UInt8 :=
  (e.1.toByte, e.2.1, e.2.2)

def ParsedWalEntry.contents (e : ParsedWalEntry) : UInt8 × Timestamp × List UInt8 :=
  (e.header.opType, e.header.timestamp, e.payload)

namespace StoredAll

variable {prev : Lsn} {items : List (WalEntry × RecordGroup)} {s : Scanner} {offset : ℕ}

theorem intact (h : StoredAll backend config prev items) (hb : backend.Lawful)
    (hr : ∀ i ∈ items, Readable backend config i)
    (hl : Record.Chain (Record.Logged backend) prev (itemRecords items)) :
    Record.Chain (Record.Intact backend) prev (itemRecords items) := by
  induction items generalizing prev with
  | nil => trivial
  | cons i items ind =>
    have ⟨⟨_, _, hs⟩, hi⟩ := h
    have ⟨hri, hr⟩ := forall_mem_cons.mp hr
    rw [itemRecords, flatMap_cons, chain_append] at hl ⊢
    exact ⟨(hs.intact (.inr hb) hri hl.1).1, ind hi hr hl.2⟩

theorem contents_entries (h : StoredAll backend config prev items) (hb : backend.Lawful)
    (hr : ∀ i ∈ items, Readable backend config i)
    (hl : Record.Chain (Record.Logged backend) prev (itemRecords items)) :
    (RecordGroup.entries backend offset (items.map Prod.snd)).map (·.contents) = items.map (·.1.contents) := by
  induction items generalizing prev offset with
  | nil => rfl
  | cons i items ind =>
    obtain ⟨⟨_, _, hs⟩, hi⟩ := h
    obtain ⟨hri, hr⟩ := forall_mem_cons.mp hr
    rw [itemRecords, flatMap_cons, chain_append] at hl
    obtain ⟨_, hc⟩ := hs.intact (.inr hb) hri hl.1
    obtain ⟨_, hh⟩ := hs.built.of_mem i.2.head_mem
    rw [map_cons, RecordGroup.entries, map_cons, map_cons, ind hi hr hl.2]
    simp [ParsedWalEntry.contents, RecordGroup.entry, hc, hh.opType, hh.header_timestamp, WalEntry.contents]

theorem scanFrom_readable (h : StoredAll backend config s.expectedPrevLsn items)
    (hb : backend.Lawful) (hr : ∀ i ∈ items, Readable backend config i)
    (hl : Record.Chain (Record.Logged backend) s.expectedPrevLsn (itemRecords items))
    (hs : s.fragments = {}) (k : ℕ) : s.scanFrom backend mode verify offset
        (stream (itemRecords items) ++ List.replicate k 0) =
      .ok (s.result.pushAll (RecordGroup.entries backend offset (items.map Prod.snd))) := by
  have hc := h.intact hb hr hl
  have hi : itemRecords items = (items.map Prod.snd).flatMap RecordGroup.records ++ [] := by
    rw [append_nil, flatMap_map]
    rfl
  have hn : Record.Fragmentary [] := trivial
  rw [hi] at hc ⊢
  rw [scanFrom_groups hs hn hc, scanFrom_zeros]

theorem scanFrom_unreadable (h : StoredAll backend config s.expectedPrevLsn items)
    (hb : backend.Lawful) (hr : ¬ ∀ i ∈ items, Readable backend config i)
    (hl : Record.Chain (Record.Logged backend) s.expectedPrevLsn (itemRecords items))
    (hs : s.fragments = {}) {result : RecoveryResult}
    (ho : s.scanFrom backend mode verify offset (stream (itemRecords items) ++ rest) =
      .ok result) : result.allEntries.length < s.result.allEntries.length + items.length := by
  induction items generalizing s offset with
  | nil => simp at hr
  | cons i items ind =>
    have ⟨⟨_, _, hst⟩, hi⟩ := h
    rw [itemRecords, flatMap_cons, chain_append] at hl
    rw [itemRecords, flatMap_cons, stream_append, append_assoc] at ho
    by_cases hri : Readable backend config i
    case pos =>
      have hc := (hst.intact (.inr hb) hri hl.1).1
      rw [scanFrom_stream hc, acceptAll_group i.2 hs] at ho
      have := ind hi (by simpa [hri] using hr) hl.2 (by simpa using hs) ho
      simp only [RecoveryResult.pushEntry, length_append, length_cons, length_nil] at this ⊢
      omega
    case neg =>
      rcases hst.scanFrom_unreadable hb hri hl.1 rfl with ⟨error, he⟩ | he
      · rw [he] at ho
        cases ho
      · rw [he] at ho
        cases ho
        simp [countCorrupted]

end StoredAll
section

variable (backend mode verify)

def readEntries (bytes : List UInt8) : WalResult (List ParsedWalEntry) := do
  match ← readWalFile bytes with
  | none => return []
  | some header =>
    let result ← parseWalFileBytes backend mode verify bytes header.startLsn
    return result.allEntries

def readInOrder : List (List UInt8) → WalResult (List ParsedWalEntry)
  | [] => return []
  | bytes :: files => do
    let entries ← readEntries backend mode verify bytes
    return entries ++ (← readInOrder files)

end

namespace WalSegment

variable (backend config) in
-- A segment whose positions and timestamps fit their fields.
structure Fits (segment : WalSegment) : Prop where
  valid : segment.header.isValid
  startLsn : segment.header.startLsn < 2 ^ 64
  endLsn : Record.endLsn segment.header.startLsn (segment.records backend config) < 2 ^ 64
  timestamps : ∀ call ∈ segment.calls, ∀ e ∈ call.appended backend config, e.2.1 < 2 ^ 64

variable {segment : WalSegment}

variable (backend config) in
def appended (segment : WalSegment) : List WalEntry :=
  segment.calls.flatMap (·.appended backend config)

theorem readEntries_eq (h : segment.Fits backend config) :
    readEntries backend mode verify (segment.bytes backend config) =
      (scanFrom backend mode verify walFileHeaderSize
        (stream (segment.records backend config) ++ List.replicate segment.padding 0)
        { expectedPrevLsn := segment.header.startLsn }).map (·.allEntries) := by
  rw [readEntries, bytes, append_assoc, readWalFile_eq h.valid h.startLsn]
  simp only [ok_bind, parseWalFileBytes]
  rw [← segment.header.length_asBytes, drop_left]
  rfl

theorem Fits.exists_items (h : segment.Fits backend config) :
    ∃ items, segment.layout backend config = items.map (fun i => (i.1, i.2.records)) ∧
      itemRecords items = segment.records backend config ∧ items.map Prod.fst = segment.appended backend config ∧
      StoredAll backend config segment.header.startLsn items ∧
      Record.Chain (Record.Logged backend) segment.header.startLsn (itemRecords items) ∧
      ((∀ call ∈ segment.calls, call.Storable backend config) ↔ ∀ i ∈ items, Readable backend config i) := by
  obtain ⟨items, hl, he, hs, hr⟩ :=
    Linkrs.exists_items backend config segment.calls segment.header.startLsn
  have hi : itemRecords items = segment.records backend config := by
    rw [records, layout, hl, flatMap_map_records]
  refine ⟨items, hl, hi, he, hs, hs.logged (fun i hm => ?_) (hi ▸ h.endLsn), hr⟩
  obtain ⟨call, hc, hm⟩ := mem_flatMap.mp (he ▸ mem_map_of_mem hm)
  exact h.timestamps call hc _ hm

variable (h : segment.Fits backend config) (hb : backend.Lawful)

include h hb

variable (mode verify) in
theorem readEntries_storable (hs : ∀ call ∈ segment.calls, call.Storable backend config) :
    ∃ es, readEntries backend mode verify (segment.bytes backend config) = .ok es ∧
      es.map (·.contents) = (segment.appended backend config).map (·.contents) := by
  have ⟨items, _, hi, he, hst, hl, hr⟩ := h.exists_items
  have hr := hr.mp hs
  rw [readEntries_eq h, ← hi, hst.scanFrom_readable hb hr hl rfl]
  refine ⟨_, rfl, ?_⟩
  simp only [RecoveryResult.pushAll_allEntries, nil_append]
  rw [hst.contents_entries hb hr hl, ← he, map_map]
  rfl

theorem readEntries_unstorable (hs : ¬ ∀ call ∈ segment.calls, call.Storable backend config)
    (ho : readEntries backend mode verify (segment.bytes backend config) = .ok es) :
    es.length < (segment.appended backend config).length := by
  have ⟨items, _, hi, he, hst, hl, hr⟩ := h.exists_items
  rw [readEntries_eq h, ← hi] at ho
  have ⟨result, ho, hes⟩ := map_eq_ok.mp ho
  have := hst.scanFrom_unreadable hb (mt hr.mpr hs) hl rfl ho
  rw [← he, length_map, ← hes]
  simpa using this

end WalSegment

section

variable {segments : List WalSegment} {es : List ParsedWalEntry} (hb : backend.Lawful)
variable (hf : ∀ segment ∈ segments, segment.Fits backend config)

include hb hf

variable (mode verify) in
theorem readInOrder_storable (hs : ∀ segment ∈ segments, ∀ call ∈ segment.calls, call.Storable backend config) :
    ∃ es, readInOrder backend mode verify (segments.map (·.bytes backend config)) = .ok es ∧
      es.map (·.contents) = (segments.flatMap (·.appended backend config)).map (·.contents) := by
  induction segments with
  | nil => exact ⟨[], rfl, rfl⟩
  | cons segment segments ind =>
    have ⟨hf₁, hf⟩ := forall_mem_cons.mp hf
    have ⟨hs₁, hs⟩ := forall_mem_cons.mp hs
    have ⟨es₁, ho₁, hc₁⟩ := WalSegment.readEntries_storable mode verify hf₁ hb hs₁
    have ⟨es, ho, hc⟩ := ind hf hs
    refine ⟨es₁ ++ es, ?_, by simp [hc₁, hc]⟩
    rw [map_cons, readInOrder, ho₁, ho]
    rfl

theorem readInOrder_length
    (ho : readInOrder backend mode verify (segments.map (·.bytes backend config)) = .ok es) :
    es.length ≤ (segments.flatMap (·.appended backend config)).length ∧
    ((¬ ∀ segment ∈ segments, ∀ call ∈ segment.calls, call.Storable backend config) →
      es.length < (segments.flatMap (·.appended backend config)).length) := by
  induction segments generalizing es with
  | nil =>
    cases ho
    simp
  | cons segment segments ind =>
    have ⟨hf₁, hf⟩ := forall_mem_cons.mp hf
    have ⟨es₁, ho₁, ho⟩ := bind_eq_ok.mp ho
    have ⟨es', ho', he⟩ := bind_eq_ok.mp ho
    cases he
    have ⟨hle, hlt⟩ := ind hf ho'
    rw [flatMap_cons, length_append, length_append, forall_mem_cons]
    by_cases hs₁ : ∀ call ∈ segment.calls, call.Storable backend config
    case pos =>
      have ⟨es₂, ho₂, hc₂⟩ := WalSegment.readEntries_storable mode verify hf₁ hb hs₁
      cases Except.ok.inj (ho₁.symm.trans ho₂)
      have := congrArg List.length hc₂
      simp only [length_map] at this
      exact ⟨by omega, fun hn => by have := hlt (fun h => hn ⟨hs₁, h⟩); omega⟩
    case neg =>
      have := WalSegment.readEntries_unstorable hf₁ hb hs₁ ho₁
      exact ⟨by omega, fun _ => by omega⟩

end

section

open LocalWalWriter

variable {lsn : Lsn} {stamp : FileStamp} {calls : List WalCall} {w : LocalWalWriter}
variable (hb : backend.Lawful)
variable (hw : calls.foldl (LocalWalWriter.perform backend) (newFile config [] lsn stamp) = w)
variable (hl : w.currentLsn < 2 ^ 64)
variable (ht : ∀ call ∈ appendCalls calls, ∀ e ∈ call.appended backend config, e.2.1 < 2 ^ 64)

include hw hl ht

theorem exists_fitting_segments : ∃ segments : List WalSegment, w.files = segments.map (·.bytes backend config) ∧
      (∀ segment ∈ segments, segment.Fits backend config) ∧ segments.flatMap (·.calls) = appendCalls calls := by
  have ⟨past, current, h, hc⟩ := exists_segments backend config lsn stamp calls
  rw [hw] at h
  refine ⟨past ++ [current], by simp [files, h.closed, h.file], fun segment hs => ?_, hc⟩
  have ⟨hv, hst, he⟩ := h.bounded segment hs
  exact ⟨hv, Nat.lt_of_le_of_lt hst hl, Nat.lt_of_le_of_lt he hl,
    fun call hm => ht call (hc ▸ mem_flatMap.mpr ⟨segment, hs, hm⟩)⟩

include hb

theorem read_back (hs : ∀ call ∈ appendCalls calls, call.Storable backend config) :
    ∃ es, readInOrder backend mode verify w.files = .ok es ∧ es.map (·.contents) =
        ((appendCalls calls).flatMap (·.appended backend config)).map (·.contents) := by
  have ⟨segments, hfiles, hf, hc⟩ := exists_fitting_segments hw hl ht
  rw [← hc] at hs ⊢
  rw [hfiles, flatMap_assoc]
  exact readInOrder_storable mode verify hb hf fun segment hm call hcall =>
    hs call (mem_flatMap.mpr ⟨segment, hm, hcall⟩)

theorem not_read_back (hs : ¬ ∀ call ∈ appendCalls calls, call.Storable backend config)
    (ho : readInOrder backend mode verify w.files = .ok es) : es.map (·.contents) ≠
      ((appendCalls calls).flatMap (·.appended backend config)).map (·.contents) := by
  have ⟨segments, hfiles, hf, hc⟩ := exists_fitting_segments hw hl ht
  rw [← hc] at hs ⊢
  rw [hfiles] at ho
  rw [flatMap_assoc]
  intro he
  have hlt := (readInOrder_length hb hf ho).2 fun hall => hs fun call hm =>
    have ⟨segment, hseg, hm⟩ := mem_flatMap.mp hm
    hall segment hseg call hm
  have := congrArg List.length he
  simp only [length_map] at this
  exact absurd this (Nat.ne_of_lt hlt)

-- A log is read back, entry by entry in the order of the calls, exactly when every call is storable.
-- Positions and timestamps are `u64` in the log.
theorem read_back_iff_storable : (∃ es, readInOrder backend mode verify w.files = .ok es ∧
      es.map (·.contents) = ((appendCalls calls).flatMap (·.appended backend config)).map (·.contents)) ↔
      ∀ call ∈ appendCalls calls, call.Storable backend config := by
  constructor
  · rintro ⟨es, ho, he⟩
    by_contra hs
    exact not_read_back hb hw hl ht hs ho he
  · exact read_back hb hw hl ht

end

section

open LocalWalWriter

-- The CRC of the log, with a compressor that leaves out the zeros at the end of the data.
def trimmingBackend : WalBackend where
  crc := Crc32.checksum
  compress data := .ok (TrailingZeros.compress data)
  decompress := TrailingZeros.decompress

theorem trimmingBackend_lawful : trimmingBackend.Lawful where
  roundTrip := by
    rintro data _ ⟨⟩
    exact TrailingZeros.decompress_compress data
  truncated := by
    rintro data _ part ⟨⟩ hp _ hn
    exact ⟨_, TrailingZeros.decompress_truncated hp hn⟩

def zstdConfig : WalConfig where
  compression := .zstd
  checksumEnabled := true
  truncateSize := 4096
  truncateSize_pos := by decide

def plainConfig : WalConfig where
  compression := .none
  checksumEnabled := true
  truncateSize := 4096
  truncateSize_pos := by decide

def someStamp : FileStamp := ⟨0, 1, 2, 3, 4⟩

def someCalls : List WalCall :=
  [.append (.entry (.insertVertex, 7, [1, 2, 3])), .rotate someStamp,
    .append (.batch [(.insertEdge, 8, []), (.deleteEdge, 8, List.replicate 100 0)])]

theorem read_back_iff_storable_across_a_rotation : ∃ es, readInOrder trimmingBackend .abortOnCorruption true
        (someCalls.foldl (LocalWalWriter.perform trimmingBackend) (newFile zstdConfig [] 0 someStamp)).files =
          .ok es ∧ es.map (·.contents) =
        ((appendCalls someCalls).flatMap (·.appended trimmingBackend zstdConfig)).map
          (·.contents) := by
  apply (read_back_iff_storable trimmingBackend_lawful rfl (by decide +kernel) (by decide +kernel)).mpr
  simp only [appendCalls, someCalls, filterMap_cons, filterMap_nil, forall_mem_cons]
  exact ⟨AppendCall.storable_entry (by decide), AppendCall.storable_batch (by decide), by simp⟩

-- Bytes without much structure, and zeros behind them.
@[irreducible]
def blob : List UInt8 :=
  (List.range 33000).map (fun i => UInt8.ofNat (i * 2654435761 / 65536)) ++ [1] ++
    List.replicate 40000 0

theorem compress_padded (hn : noise.length = 33000) (hk : k = 40000) :
    ∃ frame, compress trimmingBackend zstdConfig (noise ++ [1] ++ List.replicate k 0) =
      .ok (frame, .zstd) ∧ frame.length = 33007 := by
  have hb := TrailingZeros.body_eq noise (b := 1) (by decide) k
  have hl : (noise ++ [1] ++ List.replicate k 0).length = 73001 := by
    simp only [length_append, length_replicate, length_singleton, hn, hk]
  generalize noise ++ [1] ++ List.replicate k 0 = data at *
  have hf : (TrailingZeros.compress data).length = 33007 := by
    simp only [TrailingZeros.compress, length_append, hb, hl, hn, length_singleton]
    decide
  simp [compress, zstdConfig, hl, compressionMinSize, trimmingBackend, hf, Except.mapError]

theorem compress_blob : ∃ frame, compress trimmingBackend zstdConfig blob = .ok (frame, .zstd) ∧
      frame.length = 33007 := by
  unfold blob
  exact compress_padded (by rw [length_map, length_range]) rfl

def blobCalls : List WalCall :=
  [.append (.entry (.insertVertex, 7, blob))]

theorem blobCalls_currentLsn : (blobCalls.foldl (LocalWalWriter.perform trimmingBackend)
      (newFile zstdConfig [] 0 someStamp)).currentLsn < 2 ^ 64 := by
  have ⟨frame, hc, hf⟩ := compress_blob
  rw [blobCalls, foldl_cons, foldl_nil, LocalWalWriter.perform]
  apply Nat.lt_of_le_of_lt (append_entry_currentLsn_le hc)
  rw [hf]
  decide

-- A compressed payload that takes more than one record cannot be read back.
theorem read_back_iff_storable_violated : ¬ ∃ es, readInOrder trimmingBackend .abortOnCorruption true
        (blobCalls.foldl (LocalWalWriter.perform trimmingBackend) (newFile zstdConfig [] 0 someStamp)).files =
          .ok es ∧ es.map (·.contents) =
        ((appendCalls blobCalls).flatMap (·.appended trimmingBackend zstdConfig)).map
          (·.contents) := by
  obtain ⟨frame, hc, hf⟩ := compress_blob
  have hcalls : appendCalls blobCalls = [.entry (.insertVertex, 7, blob)] := by
    simp only [appendCalls, blobCalls, filterMap_cons, filterMap_nil]
  rintro ⟨es, ho, he⟩
  refine not_read_back trimmingBackend_lawful rfl blobCalls_currentLsn ?_ ?_ ho he
  · rw [hcalls, forall_mem_singleton, AppendCall.appended, hc, isOk_ok, if_pos rfl, forall_mem_singleton]
    decide
  · rw [hcalls, forall_mem_singleton]
    intro hs
    have := hs frame hc
    rw [hf] at this
    exact absurd this (by decide)

end
end Linkrs
