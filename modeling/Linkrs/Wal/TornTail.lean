import Linkrs.Wal.RoundTrip

namespace Linkrs

open List Record Scanner

variable {backend : WalBackend} {config : WalConfig} {mode : WalRecoveryMode} {verify : Bool}

-- The entries all of whose records lie within the first `room` bytes of the log.
def completeWithin : ℕ → List (WalEntry × List Record) → List WalEntry
  | _, [] => []
  | room, (e, records) :: rest =>
    let size := (stream records).length
    if size ≤ room then e :: completeWithin (room - size) rest else []

-- Of the records that begin at `offset`, those that lie completely before `cut` are not too long for
-- a reader, and those whose header does are not too long for the length field.
def Legible (cut : ℕ) : ℕ → List Record → Prop
  | _, [] => True
  | offset, r :: rs =>
    (offset + r.size ≤ cut → r.payload.length ≤ maxPayloadLength) ∧
    (offset + walHeaderSize ≤ cut → r.payload.length < 2 ^ 32) ∧
    Legible cut (offset + r.size) rs

section

variable {cut offset : ℕ} {r : Record} {rs rs' : List Record}

theorem legible_append : Legible cut offset (rs ++ rs') ↔
      Legible cut offset rs ∧ Legible cut (offset + (stream rs).length) rs' := by
  induction rs generalizing offset with
  | nil => simp [Legible]
  | cons r rs ind => simp [Legible, ind, and_assoc, Nat.add_assoc]

theorem legible_of_small (h : ∀ r ∈ rs, r.payload.length ≤ maxPayloadLength) : Legible cut offset rs := by
  induction rs generalizing offset with
  | nil => trivial
  | cons r rs ind =>
    have ⟨hr, hrs⟩ := forall_mem_cons.mp h
    exact ⟨fun _ => hr, fun _ => Nat.lt_of_le_of_lt hr (by decide), ind hrs⟩

theorem legible_of_lt (h : cut < offset) : Legible cut offset rs := by
  induction rs generalizing offset with
  | nil => trivial
  | cons r rs ind =>
    exact ⟨fun _ => by omega, fun _ => by omega, ind (by omega)⟩

end

-- The bytes of records, cut off, are whole records and a part of one.
theorem take_stream (h : n < (stream rs).length) :
    ∃ rs₁ r rs₂ part, rs = rs₁ ++ r :: rs₂ ∧ part < r.size ∧ n = (stream rs₁).length + part ∧
      (stream rs).take n = stream rs₁ ++ r.bytes.take part := by
  induction rs generalizing n with
  | nil => simp at h
  | cons r rs ind =>
    rw [stream_cons, length_append, length_bytes] at h
    by_cases hn : n < r.size
    case pos =>
      refine ⟨[], r, rs, n, rfl, hn, by simp, ?_⟩
      rw [stream_cons, take_append_of_le_length (by simp; omega)]
      rfl
    case neg =>
      have ⟨rs₁, r', rs₂, part, hrs, hp, hn', ht⟩ := @ind (n - r.size) (by omega)
      refine ⟨r :: rs₁, r', rs₂, part, by simp [hrs], hp, ?_, ?_⟩
      · simp only [stream_cons, length_append, length_bytes]
        omega
      · rw [stream_cons, take_append, take_of_length_le (by simp; omega),
          length_bytes, ht, stream_cons, append_assoc]

section

variable {s : Scanner} {offset n : ℕ} {prev : Lsn}

-- A part of a record ends the scan, without an error unless its length field has wrapped.
theorem scanFrom_part {r : Record} (h : r.Logged backend s.expectedPrevLsn) (hn : n < r.size) :
    (∃ result, s.scanFrom backend mode verify offset (r.bytes.take n) = .ok result ∧
      result.allEntries.map (·.contents) = s.result.allEntries.map (·.contents)) ↔
      (walHeaderSize ≤ n → r.payload.length < 2 ^ 32) := by
  have hl : (r.bytes.take n).length = n := by
    rw [length_take, length_bytes]
    omega
  by_cases hh : walHeaderSize ≤ n
  case neg =>
    rw [scanFrom_short (by omega)]
    exact iff_of_true ⟨_, rfl, rfl⟩ fun h => absurd h hh
  case pos =>
    have hb : (r.bytes.take n).take walHeaderSize = r.header.asBytes := by
      rw [take_take, Nat.min_eq_left hh, Record.bytes]
      simp
    by_cases hw : r.payload.length < 2 ^ 32
    case pos =>
      rw [scanFrom_cut h hb hw (.inr (by omega))]
      exact iff_of_true ⟨_, rfl, rfl⟩ fun _ => hw
    case neg =>
      have he := @scanFrom_wrapped backend mode verify s offset _ _ h hb (by omega)
      obtain ⟨error, he⟩ := he
      rw [he]
      exact iff_of_false (by simp) fun hc => hw (hc hh)

variable {e : WalEntry} {stored : List UInt8} {g : RecordGroup}

theorem Stored.intact_of_small (h : Stored backend config prev e stored .none g)
    (hl : Record.Chain (Record.Logged backend) prev g.records)
    (hg : g.records = rs ++ rs') (hs : ∀ r ∈ rs, r.payload.length ≤ maxPayloadLength) :
    Record.Chain (Record.Intact backend) prev rs := by
  rw [hg, chain_append] at hl
  refine hl.1.imp fun r hr prev hlog => ⟨hlog, hs r hr, ?_⟩
  have hd : decodeRecordPayload backend r.header r.payload = .ok r.payload := by
    rw [h.decode (by simp [hg, hr]), decompressPayload]
  rw [content_eq hd, hd]

theorem Stored.scanFrom_torn (h : Stored backend config s.expectedPrevLsn e stored .none g)
    (hl : Record.Chain (Record.Logged backend) s.expectedPrevLsn g.records)
    (hs : s.fragments = {}) (hn : n < (stream g.records).length) :
    (∃ result, s.scanFrom backend mode verify offset ((stream g.records).take n) =
        .ok result ∧ result.allEntries.map (·.contents) = s.result.allEntries.map (·.contents)) ↔
      Legible (offset + n) offset g.records := by
  have ⟨rs₁, r, rs₂, part, hg, hp, hn', ht⟩ := take_stream hn
  -- Whole records in front of the one that is cut are fragments, and so they are short.
  have hsmall : ∀ r ∈ rs₁, r.payload.length ≤ maxPayloadLength := by
    intro r hr
    have hf : g.front ≠ [] := by
      intro hf
      have := congrArg List.length hg
      cases rs₁ <;> simp [RecordGroup.records, hf] at this hr
    exact Nat.le_trans (h.chunked hf r (by simp [hg, hr])).1 (by decide)
  have hfrag : Record.Fragmentary rs₁ := by
    have := g.fragmentary_take (k := rs₁.length) (by simp [hg])
    simpa [hg] using this
  have hc := h.intact_of_small hl hg hsmall
  rw [ht, scanFrom_stream hc, acceptAll_fragmentary hfrag hs]
  rw [hg, chain_append] at hl
  rw [scanFrom_part hl.2.1 hp, hg, legible_append]
  have hrest : Legible (offset + n) (offset + (stream rs₁).length + r.size) rs₂ :=
    legible_of_lt (by omega)
  constructor
  · intro hw
    exact ⟨legible_of_small hsmall, fun _ => by omega, fun _ => hw (by omega), hrest⟩
  · intro hleg hh
    exact hleg.2.2.1 (by omega)

theorem Stored.scanFrom_whole (h : Stored backend config s.expectedPrevLsn e stored .none g)
    (hl : Record.Chain (Record.Logged backend) s.expectedPrevLsn g.records)
    (hs : s.fragments = {}) (hr : ∀ r ∈ g.records, r.payload.length ≤ maxPayloadLength)
    (rest : List UInt8) : ∃ entry : ParsedWalEntry, entry.contents = e.contents ∧
      s.scanFrom backend mode verify offset (stream g.records ++ rest) =
        scanFrom backend mode verify (offset + (stream g.records).length) rest
          { s with
            expectedPrevLsn := endLsn s.expectedPrevLsn g.records
            result := s.result.pushEntry entry } := by
  have hread : Readable backend config (e, g) := by
    intro stored' compression hc
    cases Except.ok.inj (h.compressed.symm.trans hc)
    split
    case isTrue hf => exact h.final_payload hf ▸ hr g.final (by simp [RecordGroup.records])
    case isFalse hf => rfl
  obtain ⟨hc, hcontent⟩ := h.intact (.inl rfl) hread hl
  obtain ⟨_, hh⟩ := h.built.of_mem g.head_mem
  refine ⟨g.entry backend _, ?_, by rw [scanFrom_stream hc, acceptAll_group g hs]⟩
  simp [ParsedWalEntry.contents, RecordGroup.entry, hcontent, hh.opType, hh.header_timestamp, WalEntry.contents]

theorem Stored.front_eq_nil (h : Stored backend config prev e stored .none g)
    (hr : ¬ ∀ r ∈ g.records, r.payload.length ≤ maxPayloadLength) :
    g.front = [] ∧ maxPayloadLength < stored.length := by
  have hf : g.front = [] := by
    by_contra hf
    exact hr fun r hm => Nat.le_trans (h.chunked hf r hm).1 (by decide)
  rw [← h.final_payload hf]
  simpa [RecordGroup.records, hf] using hr

end

theorem StoredAll.scanFrom_torn {cut offset k : ℕ} {s : Scanner}
    {items : List (WalEntry × RecordGroup)} (hu : config.compression = .none)
    (h : StoredAll backend config s.expectedPrevLsn items)
    (hl : Record.Chain (Record.Logged backend) s.expectedPrevLsn (itemRecords items))
    (hs : s.fragments = {}) (ho : offset ≤ cut) : (∃ result, s.scanFrom backend mode verify offset
        ((stream (itemRecords items) ++ List.replicate k 0).take (cut - offset)) =
          .ok result ∧ result.allEntries.map (·.contents) = s.result.allEntries.map (·.contents) ++
          (completeWithin (cut - offset) (items.map fun i => (i.1, i.2.records))).map
            (·.contents)) ↔ Legible cut offset (itemRecords items) := by
  induction items generalizing s offset with
  | nil =>
    simp only [itemRecords, flatMap_nil, stream_nil, nil_append, take_replicate, scanFrom_zeros, Legible, iff_true]
    exact ⟨_, rfl, by simp [completeWithin]⟩
  | cons i items ind =>
    obtain ⟨e, g⟩ := i
    obtain ⟨⟨stored, compression, hst⟩, hi⟩ := h
    have hnone : compression = .none := by
      have := hst.compressed
      simp only [compress, hu] at this
      cases this
      rfl
    subst hnone
    rw [itemRecords, flatMap_cons, chain_append] at hl
    rw [itemRecords, flatMap_cons, legible_append, stream_append, append_assoc]
    simp only [map_cons, completeWithin]
    by_cases hn : (stream g.records).length ≤ cut - offset
    case pos =>
      rw [if_pos hn, take_append, take_of_length_le hn]
      by_cases hsmall : ∀ r ∈ g.records, r.payload.length ≤ maxPayloadLength
      case pos =>
        obtain ⟨entry, he, hscan⟩ := @Stored.scanFrom_whole backend config mode verify s offset e
          stored g hst hl.1 hs hsmall (List.take (cut - offset - (stream g.records).length)
            (stream (itemRecords items) ++ List.replicate k 0))
        rw [itemRecords] at hscan
        rw [hscan]
        have hind := @ind (offset + (stream g.records).length)
          { s with
            expectedPrevLsn := endLsn s.expectedPrevLsn g.records
            result := s.result.pushEntry entry } hi hl.2 hs (by omega)
        rw [Nat.sub_add_eq, itemRecords] at hind
        simp only [legible_of_small hsmall, true_and, ← hind, RecoveryResult.pushEntry, map_append,
          map_cons, map_nil, he, append_assoc, singleton_append]
      case neg =>
        obtain ⟨hf, hm⟩ := hst.front_eq_nil hsmall
        apply iff_of_false
        · rintro ⟨result, hok, hc⟩
          rcases hst.scanFrom_oversized hf hm hl.1 rfl with ⟨error, he⟩ | he
          · rw [he] at hok
            cases hok
          · rw [he] at hok
            cases hok
            have := congrArg List.length hc
            simp [countCorrupted] at this
        · rw [← hst.final_payload hf] at hm
          simp only [RecordGroup.records, hf, nil_append, stream_cons, stream_nil, append_nil, length_bytes] at hn
          rintro ⟨hg, -⟩
          simp only [RecordGroup.records, hf, nil_append, Legible] at hg
          omega
    case neg =>
      rw [if_neg hn, take_append_of_le_length (by omega), map_nil, append_nil,
        hst.scanFrom_torn hl.1 hs (by omega), Nat.add_sub_cancel' ho]
      exact (and_iff_left (legible_of_lt (by omega))).symm

-- A segment without compression that is cut off anywhere behind its header is read up to its last
-- complete entry, exactly when its records are legible up to the cut.
theorem WalSegment.parse_cut_iff {segment : WalSegment} (hu : config.compression = .none)
    (hf : segment.Fits backend config) (hc : walFileHeaderSize ≤ cut) :
    (∃ result, parseWalFileBytes backend mode verify ((segment.bytes backend config).take cut)
        segment.header.startLsn = .ok result ∧ result.allEntries.map (·.contents) =
        (completeWithin (cut - walFileHeaderSize) (segment.layout backend config)).map
          (·.contents)) ↔ Legible cut walFileHeaderSize (segment.records backend config) := by
  have ⟨items, hlay, hi, _, hst, hl, _⟩ := hf.exists_items
  have hscan := @StoredAll.scanFrom_torn backend config mode verify cut walFileHeaderSize
    segment.padding { expectedPrevLsn := segment.header.startLsn } items hu hst hl rfl hc
  rw [parseWalFileBytes, bytes, append_assoc, drop_take, hlay, ← hi, ← hscan]
  simp

section

open LocalWalWriter

-- The same for every file that a writer without compression leaves behind, wherever it is cut off.
theorem torn_tail_iff_legible {lsn : Lsn} {stamp : FileStamp} {calls : List WalCall}
    {w : LocalWalWriter} (hu : config.compression = .none)
    (hw : calls.foldl (LocalWalWriter.perform backend) (newFile config [] lsn stamp) = w)
    (hl : w.currentLsn < 2 ^ 64)
    (ht : ∀ call ∈ appendCalls calls, ∀ e ∈ call.appended backend config, e.2.1 < 2 ^ 64) :
    ∃ segments : List WalSegment, w.files = segments.map (·.bytes backend config) ∧
      segments.flatMap (·.calls) = appendCalls calls ∧ ∀ segment ∈ segments, ∀ cut, walFileHeaderSize ≤ cut →
        ((∃ result, parseWalFileBytes backend mode verify
            ((segment.bytes backend config).take cut) segment.header.startLsn = .ok result ∧
          result.allEntries.map (·.contents) =
            (completeWithin (cut - walFileHeaderSize) (segment.layout backend config)).map
              (·.contents)) ↔
          Legible cut walFileHeaderSize (segment.records backend config)) := by
  have ⟨segments, hfiles, hf, hc⟩ := exists_fitting_segments hw hl ht
  exact ⟨segments, hfiles, hc, fun segment hs cut hcut => segment.parse_cut_iff hu (hf _ hs) hcut⟩

theorem torn_tail_iff_legible_small_records : ∃ segments : List WalSegment,
      (someCalls.foldl (LocalWalWriter.perform trimmingBackend)
        (newFile plainConfig [] 0 someStamp)).files = segments.map (·.bytes trimmingBackend plainConfig) ∧
      segments.flatMap (·.calls) = appendCalls someCalls ∧ ∀ segment ∈ segments, ∀ cut, walFileHeaderSize ≤ cut →
        ((∃ result, parseWalFileBytes trimmingBackend .abortOnCorruption true
            ((segment.bytes trimmingBackend plainConfig).take cut) segment.header.startLsn =
              .ok result ∧
          result.allEntries.map (·.contents) =
            (completeWithin (cut - walFileHeaderSize)
              (segment.layout trimmingBackend plainConfig)).map (·.contents)) ↔
          Legible cut walFileHeaderSize (segment.records trimmingBackend plainConfig)) :=
  torn_tail_iff_legible rfl rfl (by decide +kernel) (by decide +kernel)

def batchSegment (payload : List UInt8) : WalSegment where
  header := .new someStamp 0 true
  calls := [.batch [(.insertVertex, 7, payload)]]
  padding := 0

section

variable {payload : List UInt8}

theorem batchSegment_appended : (batchSegment payload).calls.flatMap (·.appended trimmingBackend plainConfig) =
      [(.insertVertex, 7, payload)] := by
  simp [batchSegment, AppendCall.appended, compress, plainConfig]

theorem batchSegment_records : (batchSegment payload).records trimmingBackend plainConfig =
      [buildRecord trimmingBackend plainConfig .insertVertex 7 .none .full 0 payload] := by
  simp [WalSegment.records, WalSegment.layout, batchSegment, layoutFrom, AppendCall.layout,
    batchRecords, compress, plainConfig, WalFileHeader.new, pure, Except.pure]

-- A batch entry of one byte more than a reader takes is complete in its file, and not read.
theorem batchSegment_not_read (hp : payload.length = maxPayloadLength + 1) :
    ¬ ∃ result, parseWalFileBytes trimmingBackend .abortOnCorruption true
        (((batchSegment payload).bytes trimmingBackend plainConfig).take (maxPayloadLength + 105))
        (batchSegment payload).header.startLsn = .ok result ∧ result.allEntries.map (·.contents) =
        (completeWithin (maxPayloadLength + 105 - walFileHeaderSize)
          ((batchSegment payload).layout trimmingBackend plainConfig)).map (·.contents) := by
  have hm : maxPayloadLength = 268435456 := rfl
  have hf : (batchSegment payload).Fits trimmingBackend plainConfig := by
    refine ⟨WalFileHeader.isValid_new _ _ _, Nat.two_pow_pos 64, ?_, fun call hc e he => ?_⟩
    · rw [batchSegment_records, endLsn, endLsn, buildRecord_lsn, hp, hm, walHeaderSize]
      lia
    · have he : e ∈ [(WalOpType.insertVertex, 7, payload)] :=
        batchSegment_appended ▸ mem_flatMap.mpr ⟨call, hc, he⟩
      cases mem_singleton.mp he
      simp
  rw [WalSegment.parse_cut_iff rfl hf (by rw [hm, walFileHeaderSize]; omega), batchSegment_records]
  intro h
  have := h.1 (by rw [Record.size, buildRecord, hp, hm, walHeaderSize, walFileHeaderSize])
  rw [buildRecord, hp, hm] at this
  omega

end

theorem torn_tail_iff_legible_violated : ∃ payload : List UInt8,
      ¬ ∃ result, parseWalFileBytes trimmingBackend .abortOnCorruption true
          (((batchSegment payload).bytes trimmingBackend plainConfig).take (maxPayloadLength + 105))
          (batchSegment payload).header.startLsn = .ok result ∧ result.allEntries.map (·.contents) =
          (completeWithin (maxPayloadLength + 105 - walFileHeaderSize)
            ((batchSegment payload).layout trimmingBackend plainConfig)).map (·.contents) :=
  ⟨List.replicate (maxPayloadLength + 1) 0, batchSegment_not_read length_replicate⟩

end
end Linkrs
