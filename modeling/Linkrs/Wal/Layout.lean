import Linkrs.Wal.Writer

namespace Linkrs

open List Record

variable {backend : WalBackend} {config : WalConfig}

section

variable {op : WalOpType} {timestamp : Timestamp} {compression : WalCompression}
variable {totalChunks index : ℕ} {prev : Lsn} {chunks : List (List UInt8)}

theorem buildRecord_recordType {payload : List UInt8} :
    (buildRecord backend config op timestamp compression recordType prev payload).header.recordType =
      recordType := by
  simp only [buildRecord, buildWalHeader]
  split <;> rfl

theorem buildRecord_lsn {payload : List UInt8} :
    (buildRecord backend config op timestamp compression recordType prev payload).header.lsn =
      prev + (walHeaderSize + payload.length) := by
  simp [buildRecord]

theorem fragmentRecords_built : Record.Chain (Built backend config op timestamp compression) prev
      (fragmentRecords backend config op timestamp compression totalChunks index prev chunks) := by
  induction chunks generalizing index prev with
  | nil => trivial
  | cons chunk chunks ind => exact ⟨⟨_, _, rfl⟩, ind⟩

theorem fragmentRecords_payload :
    (fragmentRecords backend config op timestamp compression totalChunks index prev chunks).map
      (·.payload) = chunks := by
  induction chunks generalizing index prev with
  | nil => rfl
  | cons chunk chunks ind => simp [fragmentRecords, ind, buildRecord]

variable (backend config op timestamp compression) in
theorem fragmentRecords_shaped (prev : Lsn) (hc : chunks ≠ []) (hi : index ≠ 0)
    (ht : index + chunks.length = totalChunks) : ∃ (middles : List Record) (last : Record),
      fragmentRecords backend config op timestamp compression totalChunks index prev chunks = middles ++ [last] ∧
      (∀ r ∈ middles, r.header.recordType = .middle) ∧ last.header.recordType = .last := by
  induction chunks generalizing index prev with
  | nil => contradiction
  | cons chunk chunks ind =>
    cases chunks with
    | nil =>
      simp only [length_cons, length_nil] at ht
      refine ⟨[], _, rfl, by simp, ?_⟩
      rw [buildRecord_recordType, chunkRecordType, if_neg (by omega), if_neg hi, if_pos (by omega)]
    | cons chunk' chunks =>
      simp only [length_cons] at ht
      have ⟨middles, last, he, hm, hl⟩ := ind (prev + (walHeaderSize + chunk.length))
        (cons_ne_nil _ _) (Nat.succ_ne_zero index) (by simp only [length_cons]; omega)
      rw [fragmentRecords]
      simp only [buildRecord_lsn, he]
      refine ⟨_ :: middles, last, rfl, forall_mem_cons.mpr ⟨?_, hm⟩, hl⟩
      rw [buildRecord_recordType, chunkRecordType, if_neg (by omega), if_neg hi, if_neg (by omega)]

variable (backend config op timestamp compression) in
theorem fragmentRecords_group (prev : Lsn) (hc : 1 < chunks.length) : ∃ g : RecordGroup, g.front ≠ [] ∧
      fragmentRecords backend config op timestamp compression chunks.length 0 prev chunks =
        g.records := by
  cases chunks with
  | nil => contradiction
  | cons chunk chunks =>
    simp only [length_cons] at hc ⊢
    have ⟨middles, last, he, hm, hl⟩ :=
      fragmentRecords_shaped backend config op timestamp compression
        (prev + (walHeaderSize + chunk.length)) (ne_nil_of_length_pos (by omega))
        Nat.one_ne_zero (Nat.add_comm 1 chunks.length)
    rw [fragmentRecords]
    simp only [buildRecord_lsn, Nat.zero_add, he]
    refine ⟨⟨_ :: middles, last, ⟨?_, hm⟩, by simpa using hl⟩, by simp, rfl⟩
    rw [buildRecord_recordType, chunkRecordType, if_neg (by omega), if_pos rfl]

end

-- The records of one entry behind the position `prev`, and what they carry.
structure Stored (backend : WalBackend) (config : WalConfig) (prev : Lsn) (entry : WalEntry)
    (stored : List UInt8) (compression : WalCompression) (g : RecordGroup) : Prop where
  built : Record.Chain (Built backend config entry.1 entry.2.1 compression) prev g.records
  payload : g.records.flatMap (·.payload) = stored
  compressed : compress backend config entry.2.2 = .ok (stored, compression)
  chunked : g.front ≠ [] → ∀ r ∈ g.records, r.payload.length ≤ walMaxRecordSize ∧ r.payload ≠ []

def fullGroup (backend : WalBackend) (config : WalConfig) (op : WalOpType) (timestamp : Timestamp)
    (compression : WalCompression) (prev : Lsn) (stored : List UInt8) : RecordGroup where
  front := []
  final := buildRecord backend config op timestamp compression .full prev stored
  shaped := ⟨trivial, buildRecord_recordType⟩

variable {prev : Lsn} {rs : List Record}

theorem stored_fullGroup {payload stored : List UInt8}
    (hc : compress backend config payload = .ok (stored, compression)) :
    Stored backend config prev (op, timestamp, payload) stored compression
      (fullGroup backend config op timestamp compression prev stored) where
  built := ⟨⟨_, _, rfl⟩, trivial⟩
  payload := by simp [fullGroup, RecordGroup.records, buildRecord]
  compressed := hc
  chunked h := absurd rfl h

theorem entryRecords_stored {entry : WalEntry} (h : entryRecords backend config prev entry = .ok rs) :
    ∃ g stored compression, rs = g.records ∧ Stored backend config prev entry stored compression g ∧
      (g.front = [] ↔ stored.length ≤ walMaxRecordSize) := by
  have ⟨op, timestamp, payload⟩ := entry
  have ⟨(stored, compression), hc, h⟩ := Except.bind_eq_ok.mp h
  simp only at h
  split at h
  case isFalse hl =>
    cases h
    refine ⟨_, stored, compression, rfl, stored_fullGroup hc, ?_⟩
    simpa [fullGroup] using hl
  case isTrue hl =>
    cases h
    have hn : walMaxRecordSize ≠ 0 := by decide
    have hp : 1 < (stored.pieces walMaxRecordSize).length := by
      rw [List.length_pieces hn, Nat.ceilDiv_eq_add_pred_div, Nat.lt_div_iff_mul_lt (by decide)]
      omega
    rw [← List.length_pieces hn]
    have ⟨g, hf, hg⟩ := fragmentRecords_group backend config op timestamp compression prev hp
    have hpay : g.records.map (·.payload) = stored.pieces walMaxRecordSize :=
      hg ▸ fragmentRecords_payload
    refine ⟨g, stored, compression, hg, ⟨hg ▸ fragmentRecords_built, ?_, hc, fun _ r hr => ?_⟩, ?_⟩
    · rw [flatMap_def, hpay, List.flatten_pieces hn]
    · have hr := hpay ▸ mem_map_of_mem hr
      exact ⟨List.length_le_of_mem_pieces hr, List.ne_nil_of_mem_pieces hr⟩
    · simp [hf, hl]

-- Entries with their records, as they follow one another from `prev` on.
def StoredAll (backend : WalBackend) (config : WalConfig) : Lsn → List (WalEntry × RecordGroup) → Prop
  | _, [] => True
  | prev, (e, g) :: items =>
    (∃ stored compression, Stored backend config prev e stored compression g) ∧
      StoredAll backend config (endLsn prev g.records) items

def itemRecords (items : List (WalEntry × RecordGroup)) : List Record :=
  items.flatMap (·.2.records)

theorem storedAll_append : StoredAll backend config prev (items ++ items') ↔ StoredAll backend config prev items ∧
      StoredAll backend config (endLsn prev (itemRecords items)) items' := by
  induction items generalizing prev with
  | nil => simp [StoredAll, itemRecords, endLsn]
  | cons i items ind => simp [StoredAll, itemRecords, ind, and_assoc]

theorem batchRecords_stored {entries : List WalEntry}
    (h : batchRecords backend config prev entries = .ok rs) : ∃ items : List (WalEntry × RecordGroup),
      entries.zip (rs.map ([·])) = items.map (fun i => (i.1, i.2.records)) ∧
      items.map Prod.fst = entries ∧ itemRecords items = rs ∧ (∀ i ∈ items, i.2.front = []) ∧
      StoredAll backend config prev items := by
  induction entries generalizing prev rs with
  | nil =>
    cases h
    exact ⟨[], by simp [StoredAll, itemRecords]⟩
  | cons entry entries ind =>
    have ⟨op, timestamp, payload⟩ := entry
    have ⟨(stored, compression), hc, h⟩ := Except.bind_eq_ok.mp h
    have ⟨rs, hrs, h⟩ := Except.bind_eq_ok.mp h
    cases h
    have ⟨items, hz, he, hr, hf, hs⟩ := ind hrs
    let g := fullGroup backend config op timestamp compression prev stored
    refine ⟨((op, timestamp, payload), g) :: items, ?_, ?_, ?_, ?_, ⟨_, _, stored_fullGroup hc⟩, hs⟩
    · simp [hz, g, RecordGroup.records, fullGroup]
    · simp [he]
    · simpa [itemRecords, g, RecordGroup.records, fullGroup] using hr
    · simpa [g, fullGroup] using hf

-- A record that this writer builds behind the position `prev` for some entry.
def Written (backend : WalBackend) (config : WalConfig) (prev : Lsn) (r : Record) : Prop :=
  ∃ op timestamp compression, timestamp < 2 ^ 64 ∧
    Built backend config op timestamp compression prev r

theorem chain_logged (h : Record.Chain (Written backend config) prev rs)
    (hl : prev + (stream rs).length < 2 ^ 64) : Record.Chain (Record.Logged backend) prev rs := by
  induction rs generalizing prev with
  | nil => trivial
  | cons r rs ind =>
    have ⟨⟨op, timestamp, compression, ht, hb⟩, hrs⟩ := h
    rw [stream_cons, length_append, length_bytes] at hl
    refine ⟨hb.logged ht (by lia), ind hrs ?_⟩
    rw [hb.lsn]
    lia

namespace StoredAll

variable {prev : Lsn} {items : List (WalEntry × RecordGroup)}

theorem written (h : StoredAll backend config prev items) (ht : ∀ i ∈ items, i.1.2.1 < 2 ^ 64) :
    Record.Chain (Written backend config) prev (itemRecords items) := by
  induction items generalizing prev with
  | nil => trivial
  | cons i items ind =>
    have ⟨⟨_, _, hs⟩, hi⟩ := h
    have ⟨hti, ht⟩ := forall_mem_cons.mp ht
    rw [itemRecords, flatMap_cons, chain_append]
    exact ⟨hs.built.imp fun r _ prev hb => ⟨_, _, _, hti, hb⟩, ind hi ht⟩

theorem follows (h : StoredAll backend config prev items) :
    Record.Chain (fun prev r => r.header.lsn = prev + r.size) prev (itemRecords items) := by
  induction items generalizing prev with
  | nil => trivial
  | cons i items ind =>
    have ⟨⟨_, _, hs⟩, hi⟩ := h
    rw [itemRecords, flatMap_cons, chain_append]
    exact ⟨hs.built.imp fun r _ prev hb => hb.lsn, ind hi⟩

theorem endLsn_eq (h : StoredAll backend config prev items) :
    endLsn prev (itemRecords items) = prev + (stream (itemRecords items)).length :=
  Record.endLsn_eq h.follows

theorem logged (h : StoredAll backend config prev items) (ht : ∀ i ∈ items, i.1.2.1 < 2 ^ 64)
    (hl : endLsn prev (itemRecords items) < 2 ^ 64) :
    Record.Chain (Record.Logged backend) prev (itemRecords items) :=
  chain_logged (h.written ht) (h.endLsn_eq ▸ hl)

end StoredAll

theorem length_stream (rs : List Record) :
    (stream rs).length = walHeaderSize * rs.length + (rs.flatMap (·.payload)).length := by
  induction rs with
  | nil => rfl
  | cons r rs ind =>
    simp only [stream_cons, length_append, length_bytes, Record.size, ind, length_cons, flatMap_cons, Nat.mul_succ]
    omega

theorem Stored.length_stream_le {prev : Lsn} (h : Stored backend config prev e stored compression g) :
    (stream g.records).length ≤ walHeaderSize * (stored.length + 1) + stored.length := by
  have hn : g.records.length ≤ stored.length + 1 := by
    by_cases hf : g.front = []
    case pos => simp [RecordGroup.records, hf]
    case neg =>
      rw [← h.payload]
      have hp := h.chunked hf
      generalize g.records = rs at hp
      induction rs with
      | nil => simp
      | cons r rs ind =>
        obtain ⟨hr, hrs⟩ := forall_mem_cons.mp hp
        have := length_pos_iff.mpr hr.2
        simp only [length_cons, flatMap_cons, length_append]
        have := ind hrs
        omega
  rw [length_stream, h.payload]
  exact Nat.add_le_add_right (Nat.mul_le_mul_left _ hn) _

-- The entries that a call adds to the log: none when one of them cannot be compressed.
def AppendCall.appended (backend : WalBackend) (config : WalConfig) : AppendCall → List WalEntry
  | .entry e => if (compress backend config e.2.2).isOk then [e] else []
  | .batch es => if (es.all fun e => (compress backend config e.2.2).isOk) then es else []

-- A single entry is not both compressed and fragmented, and no entry of a batch is longer than what
-- a reader takes.
def AppendCall.Storable (backend : WalBackend) (config : WalConfig) : AppendCall → Prop
  | .entry e => ∀ stored, compress backend config e.2.2 = .ok (stored, .zstd) →
    stored.length ≤ walMaxRecordSize
  | .batch es => ∀ e ∈ (AppendCall.batch es).appended backend config, ∀ stored compression,
    compress backend config e.2.2 = .ok (stored, compression) → stored.length ≤ maxPayloadLength

-- The same for the records of an entry.
def Readable (backend : WalBackend) (config : WalConfig) (i : WalEntry × RecordGroup) : Prop :=
  ∀ stored compression, compress backend config i.1.2.2 = .ok (stored, compression) →
    if i.2.front = [] then stored.length ≤ maxPayloadLength else compression = .none

variable (backend config) in
theorem entryRecords_isOk (prev : Lsn) (e : WalEntry) :
    (entryRecords backend config prev e).isOk = (compress backend config e.2.2).isOk := by
  have ⟨op, timestamp, payload⟩ := e
  simp only [entryRecords]
  cases compress backend config payload with
  | error => rfl
  | ok p =>
    simp only [Except.ok_bind]
    split <;> rfl

variable (backend config) in
theorem batchRecords_isOk (prev : Lsn) (es : List WalEntry) : (batchRecords backend config prev es).isOk =
      es.all fun e => (compress backend config e.2.2).isOk := by
  induction es generalizing prev with
  | nil => rfl
  | cons e es ind =>
    have ⟨op, timestamp, payload⟩ := e
    simp only [batchRecords, all_cons]
    cases compress backend config payload with
    | error => rfl
    | ok p =>
      simp only [Except.ok_bind, Except.isOk_ok, Bool.true_and]
      rw [← ind (buildRecord backend config op timestamp p.2 .full prev p.1).header.lsn]
      cases batchRecords backend config _ es <;> rfl

theorem readable_iff_of_fragmented (hc : compress backend config e.2.2 = .ok (stored, compression))
    (hf : g.front = [] ↔ stored.length ≤ walMaxRecordSize) :
    Readable backend config (e, g) ↔ (AppendCall.entry e).Storable backend config := by
  by_cases hg : g.front = []
  case pos =>
    have hl := hf.mp hg
    have hm : stored.length ≤ maxPayloadLength := Nat.le_trans hl (by decide)
    simp [Readable, AppendCall.Storable, hc, hg, hm, hl]
  case neg =>
    have hl := mt hf.mpr hg
    cases compression <;> simp [Readable, AppendCall.Storable, hc, hg, hl]

variable (backend config) in
theorem AppendCall.exists_items (call : AppendCall) (prev : Lsn) :
    ∃ items, call.layout backend config prev = items.map (fun i => (i.1, i.2.records)) ∧
      items.map Prod.fst = call.appended backend config ∧ StoredAll backend config prev items ∧
      (call.Storable backend config ↔ ∀ i ∈ items, Readable backend config i) := by
  cases call with
  | entry e =>
    have ho := entryRecords_isOk backend config prev e
    simp only [layout, appended, ← ho]
    cases hr : entryRecords backend config prev e with
    | error error =>
      refine ⟨[], rfl, rfl, trivial, ?_⟩
      rw [hr] at ho
      simp only [Storable, not_mem_nil, false_imp_iff, implies_true, iff_true]
      intro stored hs
      simp [hs] at ho
    | ok rs =>
      obtain ⟨g, stored, compression, hg, hs, hf⟩ := entryRecords_stored hr
      refine ⟨[(e, g)], by simp [hg], rfl, ⟨⟨_, _, hs⟩, trivial⟩, ?_⟩
      simp [readable_iff_of_fragmented hs.compressed hf]
  | batch es =>
    have ho := batchRecords_isOk backend config prev es
    simp only [layout, appended, Storable, ← ho]
    cases hr : batchRecords backend config prev es with
    | error error => exact ⟨[], rfl, rfl, trivial, by simp⟩
    | ok rs =>
      obtain ⟨items, hz, he, _, hf, hs⟩ := batchRecords_stored hr
      refine ⟨items, hz, he, hs, ?_⟩
      simp only [Except.isOk_ok, if_true, ← he, forall_mem_map]
      exact forall₂_congr fun i hi => by simp [Readable, hf i hi]

theorem flatMap_map_records (items : List (WalEntry × RecordGroup)) :
    (items.map fun i => (i.1, i.2.records)).flatMap Prod.snd = itemRecords items := by
  rw [flatMap_map]
  rfl

variable (backend config) in
theorem exists_items (calls : List AppendCall) (prev : Lsn) :
    ∃ items, layoutFrom backend config prev calls = items.map (fun i => (i.1, i.2.records)) ∧
      items.map Prod.fst = calls.flatMap (·.appended backend config) ∧
      StoredAll backend config prev items ∧ ((∀ call ∈ calls, call.Storable backend config) ↔
        ∀ i ∈ items, Readable backend config i) := by
  induction calls generalizing prev with
  | nil => exact ⟨[], rfl, rfl, trivial, by simp⟩
  | cons call calls ind =>
    have ⟨items, hl, he, hs, hr⟩ := call.exists_items backend config prev
    have ⟨items', hl', he', hs', hr'⟩ := ind (endLsn prev (itemRecords items))
    refine ⟨items ++ items', ?_, by simp [he, he'], storedAll_append.mpr ⟨hs, hs'⟩, ?_⟩
    · rw [layoutFrom, hl, flatMap_map_records]
      simp only [hl', map_append]
    · simp only [forall_mem_cons, forall_mem_append, hr, hr']

variable (backend config) in
theorem le_endLsn_layout (call : AppendCall) (prev : Lsn) :
    prev ≤ endLsn prev ((call.layout backend config prev).flatMap Prod.snd) := by
  have ⟨items, hl, _, hs, _⟩ := call.exists_items backend config prev
  rw [hl, flatMap_map_records, hs.endLsn_eq]
  exact Nat.le_add_right _ _

variable (backend config) in
theorem layoutFrom_append (calls : List AppendCall) (call : AppendCall) (prev : Lsn) :
    layoutFrom backend config prev (calls ++ [call]) =
      layoutFrom backend config prev calls ++ call.layout backend config
        (endLsn prev ((layoutFrom backend config prev calls).flatMap Prod.snd)) := by
  induction calls generalizing prev with
  | nil => simp [layoutFrom, endLsn]
  | cons call calls ind => simp [layoutFrom, ind]

namespace LocalWalWriter

variable {w : LocalWalWriter} {used data : List UInt8}

-- The file holds `used`, and zeros behind it.
structure Holds (w : LocalWalWriter) (used : List UInt8) : Prop where
  fileUsed : w.fileUsed = used.length
  file : ∃ k, w.file = used ++ List.replicate k 0

theorem Holds.write (h : w.Holds used) (data : List UInt8) : (w.write data).Holds (used ++ data) := by
  have ⟨k, hk⟩ := h.file
  refine ⟨by simp [LocalWalWriter.write, h.fileUsed], ?_⟩
  simp only [LocalWalWriter.write, h.fileUsed]
  split
  case isTrue =>
    have hn : used.length ≤ ((used.length + data.length) / w.config.truncateSize + 1) *
        w.config.truncateSize := by
      have := Nat.lt_div_mul_add (a := used.length + data.length) w.config.truncateSize_pos
      rw [Nat.add_mul]
      omega
    rw [hk, Bytes.setLen_append_zeros used hn, Bytes.writeAt_append_zeros]
    exact ⟨_, rfl⟩
  case isFalse =>
    rw [hk, Bytes.writeAt_append_zeros]
    exact ⟨_, rfl⟩

theorem Holds.writeEntries (h : w.Holds used) (rs : List Record) :
    (rs.foldl writeEntry w).Holds (used ++ stream rs) := by
  induction rs generalizing w used with
  | nil => simpa using h
  | cons r rs ind =>
    have hw : (w.writeEntry r).Holds (used ++ r.bytes) := ⟨(h.write r.bytes).1, (h.write r.bytes).2⟩
    simpa using ind hw

theorem foldl_writeEntry_currentLsn (rs : List Record) :
    (rs.foldl writeEntry w).currentLsn = endLsn w.currentLsn rs := by
  induction rs generalizing w with
  | nil => rfl
  | cons r rs ind =>
    rw [foldl_cons, ind]
    rfl

@[simp]
theorem write_frame : (w.write data).config = w.config ∧ (w.write data).closed = w.closed := by
  simp only [write]
  split <;> exact ⟨rfl, rfl⟩

@[simp]
theorem writeEntry_frame {r : Record} :
    (w.writeEntry r).config = w.config ∧ (w.writeEntry r).closed = w.closed := by
  have := @write_frame w r.bytes
  simpa only [writeEntry] using this

theorem foldl_writeEntry_frame (rs : List Record) :
    (rs.foldl writeEntry w).config = w.config ∧ (rs.foldl writeEntry w).closed = w.closed := by
  induction rs generalizing w with
  | nil => exact ⟨rfl, rfl⟩
  | cons r rs ind =>
    rw [foldl_cons, ind.1, ind.2]
    exact writeEntry_frame

-- What appending the records `rs` does to a writer.
structure Appends (w : LocalWalWriter) (rs : List Record) (w' : LocalWalWriter) : Prop where
  config : w'.config = w.config
  closed : w'.closed = w.closed
  currentLsn : w'.currentLsn = endLsn w.currentLsn rs
  holds : ∀ used, w.Holds used → w'.Holds (used ++ stream rs)

theorem Appends.refl : w.Appends [] w :=
  ⟨rfl, rfl, rfl, fun used h => by simpa using h⟩

variable (backend w) in
theorem append_appends (call : AppendCall) :
    w.Appends ((call.layout backend w.config w.currentLsn).flatMap Prod.snd) (w.append backend call) := by
  cases call with
  | entry e =>
    simp only [append, appendEntry, AppendCall.layout]
    cases entryRecords backend w.config w.currentLsn e with
    | error => exact .refl
    | ok rs =>
      have ⟨hc, hd⟩ := foldl_writeEntry_frame (w := w) rs
      simp only [flatMap_singleton]
      exact ⟨hc, hd, foldl_writeEntry_currentLsn rs, fun used h => h.writeEntries rs⟩
  | batch es =>
    simp only [append, appendBatch, AppendCall.layout]
    cases hr : batchRecords backend w.config w.currentLsn es with
    | error => exact .refl
    | ok rs =>
      have ⟨items, hz, _, hi, _, hs⟩ := batchRecords_stored hr
      simp only [hz, flatMap_map_records, hi]
      refine ⟨write_frame.1, write_frame.2, hi ▸ hs.endLsn_eq.symm, fun used h => ?_⟩
      exact ⟨(h.write _).1, (h.write _).2⟩

theorem append_entry_currentLsn_le (hc : compress backend w.config e.2.2 = .ok (stored, compression)) :
    (w.append backend (.entry e)).currentLsn ≤
      w.currentLsn + (walHeaderSize * (stored.length + 1) + stored.length) := by
  rw [(append_appends backend w (.entry e)).currentLsn, AppendCall.layout]
  cases hr : entryRecords backend w.config w.currentLsn e with
  | error => exact Nat.le_add_right _ _
  | ok rs =>
    have ⟨g, stored', compression', hg, hs, _⟩ := entryRecords_stored hr
    cases Except.ok.inj (hs.compressed.symm.trans hc)
    have hl : StoredAll backend w.config w.currentLsn [(e, g)] := ⟨⟨_, _, hs⟩, trivial⟩
    have := hl.endLsn_eq
    simp only [itemRecords, flatMap_singleton] at this ⊢
    rw [hg, this]
    exact Nat.add_le_add_left hs.length_stream_le _

-- The files of the writer are those of the segments `past` and, at the end, `current`.
structure Represents (backend : WalBackend) (config : WalConfig) (w : LocalWalWriter)
    (past : List WalSegment) (current : WalSegment) : Prop where
  config_eq : w.config = config
  closed : w.closed = past.map (·.bytes backend config)
  fileUsed : w.fileUsed =
    (current.header.asBytes ++ stream (current.records backend config)).length
  file : w.file = current.bytes backend config
  currentLsn : w.currentLsn =
    endLsn current.header.startLsn (current.records backend config)
  bounded : ∀ segment ∈ past ++ [current], segment.header.isValid ∧
    segment.header.startLsn ≤ w.currentLsn ∧
    endLsn segment.header.startLsn (segment.records backend config) ≤ w.currentLsn

def freshSegment (config : WalConfig) (lsn : Lsn) (stamp : FileStamp) : WalSegment where
  header := WalFileHeader.new stamp lsn config.checksumEnabled
  calls := []
  padding := config.truncateSize - walFileHeaderSize

theorem represents_newFile {closed : List (List UInt8)} (hc : closed = past.map (·.bytes backend config))
    (hb : ∀ segment ∈ past, segment.header.isValid ∧ segment.header.startLsn ≤ lsn ∧
      endLsn segment.header.startLsn (segment.records backend config) ≤ lsn) :
    (newFile config closed lsn stamp).Represents backend config past
      (freshSegment config lsn stamp) where
  config_eq := rfl
  closed := hc
  fileUsed := by simp [newFile, freshSegment, WalSegment.records, WalSegment.layout, layoutFrom]
  file := by
    rw [newFile, Bytes.writeAt_setLen_nil]
    simp [freshSegment, WalSegment.bytes, WalSegment.records, WalSegment.layout, layoutFrom]
  currentLsn := rfl
  bounded := forall_mem_append.mpr ⟨hb, forall_mem_singleton.mpr
    ⟨WalFileHeader.isValid_new _ _ _, Nat.le_refl _, Nat.le_refl _⟩⟩

namespace Represents

variable {past : List WalSegment} {current : WalSegment}
variable (h : w.Represents backend config past current)

include h

theorem append (call : AppendCall) : ∃ padding, (w.append backend call).Represents backend config past
      { current with calls := current.calls ++ [call], padding := padding } := by
  have ha := append_appends backend w call
  rw [h.config_eq] at ha
  have hl := le_endLsn_layout backend config call w.currentLsn
  have hu : w.Holds (current.header.asBytes ++ stream (current.records backend config)) :=
    ⟨h.fileUsed, current.padding, h.file⟩
  have ⟨hu, padding, hf⟩ := ha.holds _ hu
  generalize hrs : (call.layout backend config w.currentLsn).flatMap Prod.snd = rs at *
  -- The records of the call stand behind those that the segment already had.
  have hr : WalSegment.records backend config
      { current with calls := current.calls ++ [call], padding := padding } =
        current.records backend config ++ rs := by
    rw [← hrs, h.currentLsn]
    simp [WalSegment.records, WalSegment.layout, layoutFrom_append]
  refine ⟨padding, ha.config.trans h.config_eq, ha.closed.trans h.closed, ?_, ?_, ?_, ?_⟩
  · rw [hr, stream_append, ← append_assoc, hu]
  · rw [WalSegment.bytes, hr, stream_append, ← append_assoc, hf]
  · rw [hr, endLsn_append, ← h.currentLsn, ha.currentLsn]
  · have ⟨hp, hc⟩ := forall_mem_append.mp h.bounded
    have ⟨hv, hs, _⟩ := forall_mem_singleton.mp hc
    rw [← ha.currentLsn] at hl
    refine forall_mem_append.mpr ⟨fun segment hm => ?_, forall_mem_singleton.mpr ?_⟩
    · have ⟨hv, hs, he⟩ := hp segment hm
      exact ⟨hv, Nat.le_trans hs hl, Nat.le_trans he hl⟩
    · refine ⟨hv, Nat.le_trans hs hl, Nat.le_of_eq ?_⟩
      rw [hr, endLsn_append, ← h.currentLsn, ha.currentLsn]

theorem rotate (stamp : FileStamp) : (w.rotate stamp).Represents backend config (past ++ [current])
      (freshSegment config w.currentLsn stamp) := by
  rw [LocalWalWriter.rotate, h.config_eq]
  exact represents_newFile (by simp [h.closed, h.file]) h.bounded

end Represents

def appendCalls (calls : List WalCall) : List AppendCall :=
  calls.filterMap fun
    | .append call => some call
    | .rotate _ => none

variable (backend) in
-- After any calls on a new log its files are those of segments that share the calls out.
theorem exists_segments (config : WalConfig) (lsn : Lsn) (stamp : FileStamp)
    (calls : List WalCall) : ∃ past current,
      (calls.foldl (perform backend) (newFile config [] lsn stamp)).Represents backend config past
        current ∧ (past ++ [current]).flatMap (·.calls) = appendCalls calls := by
  induction calls using List.reverseRecOn with
  | nil => exact ⟨[], _, represents_newFile rfl (by simp), rfl⟩
  | append_singleton calls call ind =>
    have ⟨past, current, h, hc⟩ := ind
    rw [foldl_append, appendCalls, filterMap_append, ← appendCalls, ← hc]
    cases call with
    | append call =>
      have ⟨padding, h'⟩ := h.append call
      exact ⟨past, _, h', by simp⟩
    | rotate stamp => exact ⟨past ++ [current], _, h.rotate stamp, by simp [freshSegment]⟩

end LocalWalWriter
end Linkrs
