import Mathlib.Data.List.Sort
import Linkrs.Lib.Bytes
import Linkrs.Lib.Crc32
import Linkrs.Lib.Except
import Linkrs.Wal.Types

namespace Linkrs

open List Bytes Except

def walSyncWireVersion : UInt16 := 1

def validateWireVersion (version : UInt16) : Except String Unit :=
  if version = walSyncWireVersion then
    .ok ()
  else
    .error s!"Unsupported WAL sync wire version: expected {walSyncWireVersion}, got {version}"

-- `body` stands for the serialized form of the fields that nothing here looks into.
structure IndexMutation where
  wireVersion : UInt16
  body : List UInt8
  deriving DecidableEq, Repr

def IndexMutation.validate (mutation : IndexMutation) : Except String Unit :=
  validateWireVersion mutation.wireVersion

structure OutboxIntent where
  wireVersion : UInt16
  transactionId : TransactionId
  intentSequence : UInt32
  mutation : IndexMutation
  deriving DecidableEq, Repr

def OutboxIntent.validate (intent : OutboxIntent) : Except String Unit := do
  validateWireVersion intent.wireVersion
  intent.mutation.validate

structure TransactionCommit where
  wireVersion : UInt16
  transactionId : TransactionId
  intentCount : UInt32
  batchChecksum : UInt32
  firstSequence : ℕ
  entryCount : UInt32
  deriving DecidableEq, Repr

structure TransactionAbort where
  wireVersion : UInt16
  transactionId : TransactionId
  deriving DecidableEq, Repr

structure CommittedWalTransaction where
  transactionId : TransactionId
  commitLsn : Lsn
  redoEntries : List ParsedWalEntry
  intents : List OutboxIntent
  deriving DecidableEq, Repr

-- What the log takes from other crates: the CRC of `crc32fast` and the serialization of `postcard`.
structure WalCodec where
  crc : List UInt8 → UInt32
  encodeIntent : OutboxIntent → List UInt8
  decodeIntent : List UInt8 → Except String OutboxIntent
  encodeCommit : TransactionCommit → List UInt8
  decodeCommit : List UInt8 → Except String TransactionCommit
  decodeAbort : List UInt8 → Except String TransactionAbort

-- Serialized values can be read back.
structure WalCodec.Lawful (codec : WalCodec) : Prop where
  intent : ∀ intent, codec.decodeIntent (codec.encodeIntent intent) = .ok intent
  commit : ∀ commit, codec.decodeCommit (codec.encodeCommit commit) = .ok commit

section

variable (codec : WalCodec)

def checksumEntry (op : WalOpType) (timestamp : Timestamp) (payload : List UInt8) : List UInt8 :=
  op.toByte :: Bytes.le 8 timestamp ++ Bytes.le 8 payload.length ++ payload

def batchChecksum (entries : List TransactionWalEntry) : UInt32 :=
  codec.crc (entries.flatMap fun e => checksumEntry e.opType e.timestamp e.payload)

def parsedBatchChecksum (entries : List ParsedWalEntry) : WalResult UInt32 := do
  let bytes ← entries.mapM fun e => do
    let op ← WalOpType.parse e.header.opType
    return checksumEntry op e.header.timestamp e.payload
  return codec.crc bytes.flatten

def intentMismatch (kind : String) (intent : OutboxIntent) (transactionId : TransactionId) : WalError :=
  .invalidOperation (s!"Intent transaction txn{intent.transactionId} does not match {kind} " ++
    s!"transaction txn{transactionId}")

def intentNotContiguous (expected : ℕ) (intent : OutboxIntent) : WalError :=
  .invalidOperation (s!"Intent sequence is not contiguous: expected {expected}, " ++
    s!"got {intent.intentSequence}")

def invalid {α : Type} (result : Except String α) : WalResult α :=
  result.mapError .invalidOperation

def postcard {α : Type} (result : Except String α) : WalResult α :=
  result.mapError .serializationError

-- The loop over the intents of `build_transaction_entries`, from the index `expected` on.
def intentRecords (transactionId : TransactionId) : ℕ → List OutboxIntent → WalResult (List TransactionWalEntry)
  | _, [] => return []
  | expected, intent :: intents => do
    invalid intent.validate
    ensure (intent.transactionId = transactionId) (intentMismatch "batch" intent transactionId)
    ensure (intent.intentSequence.toNat = expected) (intentNotContiguous expected intent)
    let records ← intentRecords transactionId (expected + 1) intents
    return ⟨.outboxIntent, 0, codec.encodeIntent intent, none⟩ :: records

def buildTransactionEntries (poisonReason : Option String) (transactionId : TransactionId)
    (entries : List TransactionWalEntry) (intents : List OutboxIntent) :
    WalResult (List TransactionWalEntry) := do
  ensure poisonReason.isNone (.poisoned (poisonReason.getD ""))
  let redoCount := UInt32.ofNat entries.length
  let firstSequence := (entries.filterMap (·.mutationSequence)).min?.getD 0
  let entries := entries ++ (← intentRecords codec transactionId 0 intents)
  ensure (intents.length < 2 ^ 32) (.invalidOperation "Intent count exceeds u32 range")
  let commit : TransactionCommit := {
    wireVersion := walSyncWireVersion
    transactionId := transactionId
    intentCount := UInt32.ofNat intents.length
    batchChecksum := batchChecksum codec entries
    firstSequence := firstSequence
    entryCount := redoCount
  }
  return entries ++ [⟨.transactionCommit, 0, codec.encodeCommit commit, none⟩]

-- The loop over the pending entries of `collect_committed_transactions`: redo entries and intents.
def splitBatch (transactionId : TransactionId) :
    List ParsedWalEntry → WalResult (List ParsedWalEntry × List OutboxIntent)
  | [] => return ([], [])
  | entry :: entries => do
    let op ← WalOpType.parse entry.header.opType
    if op = .outboxIntent then
      let intent ← postcard (codec.decodeIntent entry.payload)
      invalid intent.validate
      ensure (intent.transactionId = transactionId) (intentMismatch "commit" intent transactionId)
      let (redo, intents) ← splitBatch transactionId entries
      return (redo, intent :: intents)
    else
      let (redo, intents) ← splitBatch transactionId entries
      return (entry :: redo, intents)

def checkContiguous : ℕ → List OutboxIntent → WalResult Unit
  | _, [] => return ()
  | expected, intent :: intents => do
    ensure (intent.intentSequence.toNat = expected) (intentNotContiguous expected intent)
    checkContiguous (expected + 1) intents

-- What a commit record makes of the entries that are pending when it is read.
def closeBatch (commitLsn : Lsn) (commit : TransactionCommit) (pending : List ParsedWalEntry) :
    WalResult CommittedWalTransaction := do
  let actual := (parsedBatchChecksum codec pending).toOption.getD 0
  ensure (actual = commit.batchChecksum) (.checksumMismatch commit.batchChecksum actual)
  let (redo, intents) ← splitBatch codec commit.transactionId pending
  let intents := intents.insertionSort (·.intentSequence ≤ ·.intentSequence)
  ensure (intents.length = commit.intentCount.toNat) (.invalidOperation
    s!"Commit expected {commit.intentCount} intents, recovered {intents.length}")
  checkContiguous 0 intents
  ensure (UInt32.ofNat redo.length = commit.entryCount) (.invalidOperation
    s!"Commit expected {commit.entryCount} redo entries, recovered {redo.length}")
  return ⟨commit.transactionId, commitLsn, redo, intents⟩

structure Collector where
  committed : List CommittedWalTransaction
  pending : List ParsedWalEntry

def collectEntry (c : Collector) (entry : ParsedWalEntry) : WalResult Collector := do
  match ← WalOpType.parse entry.header.opType with
  | .transactionAbort =>
    let abort ← postcard (codec.decodeAbort entry.payload)
    invalid (validateWireVersion abort.wireVersion)
    return { c with pending := [] }
  | .transactionCommit =>
    let commit ← postcard (codec.decodeCommit entry.payload)
    invalid (validateWireVersion commit.wireVersion)
    let transaction ← closeBatch codec entry.lsn commit c.pending
    return ⟨c.committed ++ [transaction], []⟩
  | _ => return { c with pending := c.pending ++ [entry] }

def collectCommittedTransactions (entries : List ParsedWalEntry) :
    WalResult (List CommittedWalTransaction) := do
  let c ← entries.foldlM (collectEntry codec) ⟨[], []⟩
  return c.committed

-- The parser gives back the operation, the timestamp and the payload of a written entry.
structure Parses (e : ParsedWalEntry) (t : TransactionWalEntry) : Prop where
  opType : e.header.opType = t.opType.toByte
  timestamp : e.header.timestamp = t.timestamp
  payload : e.payload = t.payload

-- A batch as `build_transaction_entries` produces it for a transaction.
structure Batch where
  transactionId : TransactionId
  redo : List RedoEntry
  intents : List OutboxIntent
  entries : List TransactionWalEntry
  built : buildTransactionEntries codec none transactionId
    (redo.map RedoEntry.toTransactionWalEntry) intents = .ok entries

-- A batch that is complete in the log, with what the parser makes of its entries.
structure LoggedBatch extends Batch codec where
  redoEntries : List ParsedWalEntry
  intentEntries : List ParsedWalEntry
  commitEntry : ParsedWalEntry
  redo_length : redoEntries.length = redo.length
  parsed : List.Forall₂ Parses (redoEntries ++ intentEntries ++ [commitEntry]) entries

-- What one run of the writer leaves behind: complete batches, and the entries of a batch that a
-- crash has cut short.
structure Segment where
  batches : List (LoggedBatch codec)
  torn : List ParsedWalEntry
  is_torn : ∃ (batch : Batch codec) (written : List TransactionWalEntry),
    written <+: batch.entries ∧ written ≠ batch.entries ∧ List.Forall₂ Parses torn written

end

-- The intents of a batch, from the index `k` on, as the writer accepts them.
def Numbered (transactionId : TransactionId) : ℕ → List OutboxIntent → Prop
  | _, [] => True
  | k, i :: is =>
    (i.validate = .ok () ∧ i.transactionId = transactionId ∧ i.intentSequence.toNat = k) ∧
      Numbered transactionId (k + 1) is

section

variable {codec : WalCodec} {transactionId : TransactionId} {k : ℕ} {intents : List OutboxIntent}

def intentRecord (codec : WalCodec) (intent : OutboxIntent) : TransactionWalEntry :=
  ⟨.outboxIntent, 0, codec.encodeIntent intent, none⟩

theorem intentRecords_ok (h : intentRecords codec transactionId k intents = .ok records) :
    Numbered transactionId k intents ∧ records = intents.map (intentRecord codec) := by
  induction intents generalizing k records with
  | nil =>
    cases h
    exact ⟨trivial, rfl⟩
  | cons i is ind =>
    simp only [intentRecords, invalid, bind_eq_ok, mapError_eq_ok, ensure_eq_ok] at h
    obtain ⟨_, hv, _, ht, _, hk, rs, hr, h⟩ := h
    obtain ⟨hn, he⟩ := ind hr
    cases h
    exact ⟨⟨⟨hv, ht, hk⟩, hn⟩, by simp [he, intentRecord]⟩

theorem Numbered.le_of_mem (h : Numbered transactionId k intents)
    (hi : i ∈ intents) : k ≤ i.intentSequence.toNat := by
  induction intents generalizing k with
  | nil => contradiction
  | cons j _ ind =>
    rcases mem_cons.mp hi with rfl | hi
    · exact h.1.2.2.ge
    · have := ind h.2 hi
      omega

theorem Numbered.sorted (h : Numbered transactionId k intents) :
    intents.Pairwise (·.intentSequence ≤ ·.intentSequence) := by
  induction intents generalizing k with
  | nil => exact .nil
  | cons i is ind =>
    refine .cons (fun j hj => ?_) (ind h.2)
    have hk := h.2.le_of_mem hj
    rw [UInt32.le_iff_toNat_le, h.1.2.2]
    omega

theorem Numbered.contiguous (h : Numbered transactionId k intents) : checkContiguous k intents = .ok () := by
  induction intents generalizing k with
  | nil => rfl
  | cons i is ind =>
    simp only [checkContiguous, bind_eq_ok, ensure_eq_ok]
    exact ⟨(), h.1.2.2, ind h.2⟩

end

theorem forall₂_append_inj {α β : Type} {R : α → β → Prop} {a b : List α} {c d : List β}
    (h : List.Forall₂ R (a ++ b) (c ++ d)) (hl : a.length = c.length) :
    List.Forall₂ R a c ∧ List.Forall₂ R b d := by
  have ht := forall₂_take_append _ _ _ h
  have hd := forall₂_drop_append _ _ _ h
  rw [← hl] at ht hd
  exact ⟨by simpa using ht, by simpa using hd⟩

namespace Batch

variable {codec : WalCodec} (b : Batch codec)

def body : List TransactionWalEntry :=
  b.redo.map RedoEntry.toTransactionWalEntry ++ b.intents.map (intentRecord codec)

def commit : TransactionCommit where
  wireVersion := walSyncWireVersion
  transactionId := b.transactionId
  intentCount := UInt32.ofNat b.intents.length
  batchChecksum := batchChecksum codec b.body
  firstSequence := ((b.redo.map RedoEntry.toTransactionWalEntry).filterMap (·.mutationSequence)).min?.getD 0
  entryCount := UInt32.ofNat b.redo.length

theorem spec : Numbered b.transactionId 0 b.intents ∧ b.intents.length < 2 ^ 32 ∧
    b.entries = b.body ++ [⟨.transactionCommit, 0, codec.encodeCommit b.commit, none⟩] := by
  have h := b.built
  simp only [buildTransactionEntries, bind_eq_ok, ensure_eq_ok] at h
  obtain ⟨_, _, records, hr, _, hl, h⟩ := h
  obtain ⟨hn, he⟩ := intentRecords_ok hr
  subst he
  refine ⟨hn, hl, (Except.ok.inj h).symm.trans ?_⟩
  simp [body, commit]

end Batch

namespace LoggedBatch

variable {codec : WalCodec} (b : LoggedBatch codec)

def parsedEntries : List ParsedWalEntry :=
  b.redoEntries ++ b.intentEntries ++ [b.commitEntry]

def committed : CommittedWalTransaction where
  transactionId := b.transactionId
  commitLsn := b.commitEntry.lsn
  redoEntries := b.redoEntries
  intents := b.intents

theorem parses : List.Forall₂ Parses b.redoEntries (b.redo.map RedoEntry.toTransactionWalEntry) ∧
    List.Forall₂ Parses b.intentEntries (b.intents.map (intentRecord codec)) ∧
    Parses b.commitEntry ⟨.transactionCommit, 0, codec.encodeCommit b.commit, none⟩ := by
  have h := b.parsed
  have hl := h.length_eq
  rw [b.spec.2.2, Batch.body] at h hl
  have hr := b.redo_length
  simp only [length_append, length_map, length_singleton] at hl
  have ⟨hb, hc⟩ := forall₂_append_inj h (by simp; omega)
  have ⟨hr, hi⟩ := forall₂_append_inj hb (by simpa using hr)
  cases hc with
  | cons hc _ => exact ⟨hr, hi, hc⟩

end LoggedBatch

section

variable {codec : WalCodec} {es : List ParsedWalEntry} {intents : List OutboxIntent}
  {transactionId : TransactionId}

theorem parsedBatchChecksum_of_parses
    (h : List.Forall₂ Parses es ts) : parsedBatchChecksum codec es = .ok (batchChecksum codec ts) := by
  have hm : (es.mapM fun e => do
      let op ← WalOpType.parse e.header.opType
      return checksumEntry op e.header.timestamp e.payload : WalResult (List (List UInt8))) =
      .ok (ts.map fun t => checksumEntry t.opType t.timestamp t.payload) := by
    induction h with
    | nil => rfl
    | cons hp _ ind =>
      rw [mapM_cons, ind, hp.opType, WalOpType.parse_toByte, hp.timestamp, hp.payload]
      rfl
  rw [parsedBatchChecksum, hm, batchChecksum, flatMap_def]
  rfl

theorem splitBatch_intents (hc : codec.Lawful) (h : List.Forall₂ Parses es (intents.map (intentRecord codec)))
    (hn : Numbered transactionId k intents) : splitBatch codec transactionId es = .ok ([], intents) := by
  induction intents generalizing k es with
  | nil =>
    cases h
    rfl
  | cons i is ind =>
    obtain ⟨e, es, hp, hes, rfl⟩ := forall₂_cons_right_iff.mp h
    have ⟨⟨hv, ht, _⟩, hn⟩ := hn
    simp [splitBatch, hp.opType, hp.payload, intentRecord, hc.intent, postcard, invalid, hv, ht,
      ind hes hn, ensure]

theorem splitBatch_redo {redo : List RedoEntry}
    (h : List.Forall₂ Parses es (redo.map RedoEntry.toTransactionWalEntry))
    (hi : splitBatch codec transactionId es' = .ok ([], intents)) :
    splitBatch codec transactionId (es ++ es') = .ok (es, intents) := by
  induction redo generalizing es with
  | nil =>
    cases h
    exact hi
  | cons r rs ind =>
    obtain ⟨e, es, hp, hes, rfl⟩ := forall₂_cons_right_iff.mp h
    simp [splitBatch, hp.opType, r.is_redo.1, ind hes]

theorem splitBatch_eq_ok {es redo : List ParsedWalEntry}
    (h : splitBatch codec transactionId es = .ok (redo, intents)) :
    redo ⊆ es ∧ redo.length + intents.length = es.length := by
  induction es generalizing redo intents with
  | nil =>
    cases h
    exact ⟨List.Subset.refl _, rfl⟩
  | cons e es ind =>
    simp only [splitBatch, bind_eq_ok] at h
    obtain ⟨op, _, h⟩ := h
    split at h <;> simp only [bind_eq_ok] at h
    · obtain ⟨_, _, _, _, _, _, ⟨r, i⟩, hs, h⟩ := h
      cases h
      have ⟨hsub, hlen⟩ := ind hs
      exact ⟨List.Subset.trans hsub (subset_cons_self ..), by grind⟩
    · obtain ⟨⟨r, i⟩, hs, h⟩ := h
      cases h
      have ⟨hsub, hlen⟩ := ind hs
      exact ⟨cons_subset_cons e hsub, by grind⟩

theorem closeBatch_eq_ok {commit : TransactionCommit} (h : closeBatch codec lsn commit pending = .ok t) :
    t.commitLsn = lsn ∧ t.redoEntries ⊆ pending ∧
      t.redoEntries.length + t.intents.length = pending.length := by
  simp only [closeBatch, bind_eq_ok] at h
  obtain ⟨_, _, ⟨redo, intents⟩, hs, _, _, _, _, _, _, h⟩ := h
  cases h
  simpa using splitBatch_eq_ok hs

theorem closeBatch_own (hc : codec.Lawful) (b : LoggedBatch codec) :
    closeBatch codec b.commitEntry.lsn b.commit (b.redoEntries ++ b.intentEntries) = .ok b.committed := by
  have ⟨hn, hl, _⟩ := b.spec
  have ⟨hr, hi, _⟩ := b.parses
  have hs := splitBatch_redo hr (splitBatch_intents hc hi hn)
  have hp : parsedBatchChecksum codec (b.redoEntries ++ b.intentEntries) =
      .ok b.commit.batchChecksum :=
    parsedBatchChecksum_of_parses (rel_append hr hi)
  have hk : (UInt32.ofNat b.intents.length).toNat = b.intents.length := by
    simpa using Nat.mod_eq_of_lt hl
  have hi : b.intents.insertionSort (·.intentSequence ≤ ·.intentSequence) = b.intents :=
    hn.sorted.insertionSort_eq
  simp only [closeBatch, bind_eq_ok, ensure_eq_ok]
  refine ⟨(), ?_, (b.redoEntries, b.intents), hs, (), ?_, (), ?_, (), ?_, ?_⟩
  · rw [hp]
    rfl
  · rw [hi]
    exact hk.symm
  · rw [hi]
    exact hn.contiguous
  · rw [b.redo_length]
    rfl
  · rw [hi]
    rfl

-- Entries that a collection only puts aside.
def IsOpen (e : ParsedWalEntry) : Prop :=
  ∃ op, WalOpType.parse e.header.opType = .ok op ∧ op ≠ .transactionCommit ∧ op ≠ .transactionAbort

theorem collect_open (h : ∀ e ∈ es, IsOpen e) :
    es.foldlM (collectEntry codec) c = .ok ⟨c.committed, c.pending ++ es⟩ := by
  induction es generalizing c with
  | nil =>
    rw [append_nil]
    rfl
  | cons e es ind =>
    have ⟨op, hp, hc, ha⟩ := h e mem_cons_self
    have he : collectEntry codec c e = .ok ⟨c.committed, c.pending ++ [e]⟩ := by
      simp only [collectEntry, hp, ok_bind]
      rfl
    rw [foldlM_cons, he, ok_bind, ind fun e he => h e (mem_cons_of_mem _ he)]
    simp

theorem collectEntry_extends (h : collectEntry codec c e = .ok c') : c.committed <+: c'.committed := by
  simp only [collectEntry, bind_eq_ok] at h
  obtain ⟨op, _, h⟩ := h
  split at h
  · obtain ⟨_, _, h⟩ := bind_eq_ok.mp h
    obtain ⟨_, _, h⟩ := bind_eq_ok.mp h
    cases h
    exact prefix_rfl
  · obtain ⟨_, _, h⟩ := bind_eq_ok.mp h
    obtain ⟨_, _, h⟩ := bind_eq_ok.mp h
    obtain ⟨_, _, h⟩ := bind_eq_ok.mp h
    cases h
    exact prefix_append ..
  · cases h
    exact prefix_rfl

theorem collect_extends (h : es.foldlM (collectEntry codec) c = .ok c') : c.committed <+: c'.committed := by
  induction es generalizing c with
  | nil =>
    cases h
    exact prefix_rfl
  | cons e es ind =>
    rw [foldlM_cons, bind_eq_ok] at h
    obtain ⟨c₁, he, h⟩ := h
    exact (collectEntry_extends he).trans (ind h)

theorem isOpen_of_parses (h : List.Forall₂ Parses es ts)
    (ht : ∀ t ∈ ts, t.opType ≠ .transactionCommit ∧ t.opType ≠ .transactionAbort) : ∀ e ∈ es, IsOpen e := by
  induction h with
  | nil => simp
  | cons hp _ ind =>
    have hop := ht _ mem_cons_self
    have hes := ind fun t hm => ht t (mem_cons_of_mem _ hm)
    rw [forall_mem_cons]
    exact ⟨⟨_, by rw [hp.opType, WalOpType.parse_toByte], hop⟩, hes⟩

theorem Batch.op_body (b : Batch codec) :
    ∀ t ∈ b.body, t.opType ≠ .transactionCommit ∧ t.opType ≠ .transactionAbort := by
  intro t ht
  rcases mem_append.mp ht with ht | ht
  · obtain ⟨r, _, rfl⟩ := mem_map.mp ht
    exact r.is_redo.2
  · obtain ⟨i, _, rfl⟩ := mem_map.mp ht
    exact ⟨by simp [intentRecord], by simp [intentRecord]⟩

theorem Segment.isOpen_torn (s : Segment codec) : ∀ e ∈ s.torn, IsOpen e := by
  have ⟨b, written, hw, hn, hp⟩ := s.is_torn
  rw [b.spec.2.2] at hw hn
  have hb : written <+: b.body := (prefix_concat_iff.mp hw).resolve_left hn
  exact isOpen_of_parses hp fun t ht => b.op_body t (hb.subset ht)

theorem LoggedBatch.isOpen (b : LoggedBatch codec) : ∀ e ∈ b.redoEntries ++ b.intentEntries, IsOpen e :=
  isOpen_of_parses (rel_append b.parses.1 b.parses.2.1) b.op_body

theorem collect_batch (hc : codec.Lawful) (b : LoggedBatch codec) (c : Collector) :
    b.parsedEntries.foldlM (collectEntry codec) c = (do
      let t ← closeBatch codec b.commitEntry.lsn b.commit
        (c.pending ++ (b.redoEntries ++ b.intentEntries)) return ⟨c.committed ++ [t], []⟩) := by
  have hp := b.parses.2.2
  rw [LoggedBatch.parsedEntries, foldlM_append, collect_open b.isOpen]
  simp only [ok_bind, foldlM_cons, foldlM_nil, collectEntry, hp.opType,
    WalOpType.parse_toByte, hp.payload, hc.commit, postcard, invalid]
  have hv : validateWireVersion b.commit.wireVersion = .ok () := by
    simp [validateWireVersion, Batch.commit]
  simp [hv]

theorem collect_batches (hc : codec.Lawful) (bs : List (LoggedBatch codec))
    (committed : List CommittedWalTransaction) :
    (bs.flatMap LoggedBatch.parsedEntries).foldlM (collectEntry codec) ⟨committed, []⟩ =
      .ok ⟨committed ++ bs.map LoggedBatch.committed, []⟩ := by
  induction bs generalizing committed with
  | nil =>
    rw [map_nil, append_nil]
    rfl
  | cons b bs ind =>
    rw [flatMap_cons, foldlM_append, collect_batch hc, nil_append, closeBatch_own hc]
    exact (ind _).trans (by simp)

end

namespace Segment

variable {codec : WalCodec}

def parsedEntries (s : Segment codec) : List ParsedWalEntry :=
  s.batches.flatMap LoggedBatch.parsedEntries ++ s.torn

def committed (s : Segment codec) : List CommittedWalTransaction :=
  s.batches.map LoggedBatch.committed

-- A batch that was cut short leaves entries behind that the next complete batch takes for its own.
def Clean (segments : List (Segment codec)) : Prop :=
  segments.Pairwise fun s s' => s.torn = [] ∨ s'.batches = []

-- A commit record that finds foreign entries pending cannot give back exactly its own batch.
theorem collect_foreign (hc : codec.Lawful) (b : LoggedBatch codec) (hp : c.pending ≠ [])
    (h : (b.parsedEntries ++ es).foldlM (collectEntry codec) c = .ok c') :
    c'.committed ≠ c.committed ++ b.committed :: rest := by
  intro he
  rw [foldlM_append, collect_batch hc, bind_eq_ok] at h
  obtain ⟨c₁, hb, h⟩ := h
  obtain ⟨t, ht, hb⟩ := bind_eq_ok.mp hb
  cases hb
  obtain ⟨more, hm⟩ := collect_extends h
  rw [he, append_assoc, append_cancel_left_eq, singleton_append, List.cons.injEq] at hm
  have ⟨_, _, hl⟩ := closeBatch_eq_ok ht
  have hi := b.parses.2.1.length_eq
  have : c.pending.length ≠ 0 := by simpa using hp
  rw [hm.1] at hl
  simp only [LoggedBatch.committed, length_append, length_map] at hl hi
  omega

theorem collect_iff (hc : codec.Lawful) (segments : List (Segment codec)) (c : Collector) :
    (∃ c', (segments.flatMap parsedEntries).foldlM (collectEntry codec) c = .ok c' ∧
      c'.committed = c.committed ++ segments.flatMap committed) ↔
    (c.pending = [] ∨ ∀ s ∈ segments, s.batches = []) ∧ Clean segments := by
  induction segments generalizing c with
  | nil =>
    simp only [flatMap_nil, foldlM_nil, append_nil, not_mem_nil, Clean]
    exact ⟨fun _ => ⟨.inr (by simp), .nil⟩, fun _ => ⟨c, rfl, rfl⟩⟩
  | cons s segments ind =>
    rw [Clean, pairwise_cons, flatMap_cons, flatMap_cons]
    cases hb : s.batches with
    | nil =>
      -- What is pending stays pending, together with the torn entries.
      have hs := ind ⟨c.committed, c.pending ++ s.torn⟩
      simp only [parsedEntries, committed, hb, flatMap_nil, nil_append, map_nil,
        foldlM_append, collect_open s.isOpen_torn, ok_bind, append_eq_nil_iff,
        forall_mem_cons] at hs ⊢
      rw [hs, Clean]
      constructor
      · rintro ⟨⟨hp, ht⟩ | hn, hcl⟩
        · exact ⟨.inl hp, fun _ _ => .inl ht, hcl⟩
        · exact ⟨.inr ⟨trivial, hn⟩, fun s' hs' => .inr (hn s' hs'), hcl⟩
      · rintro ⟨hp | ⟨-, hn⟩, ht, hcl⟩
        · by_cases he : s.torn = []
          · exact ⟨.inl ⟨hp, he⟩, hcl⟩
          · exact ⟨.inr fun s' hs' => (ht s' hs').resolve_left he, hcl⟩
        · exact ⟨.inr hn, hcl⟩
    | cons b bs =>
      by_cases hp : c.pending = []
      · -- The batches of the segment are complete, and its torn entries stay pending.
        have hs := ind ⟨c.committed ++ s.committed, s.torn⟩
        have hf : s.parsedEntries.foldlM (collectEntry codec) c =
            .ok ⟨c.committed ++ s.committed, s.torn⟩ := by
          obtain ⟨_, pending⟩ := c
          cases hp
          rw [parsedEntries, foldlM_append, collect_batches hc, ok_bind, collect_open s.isOpen_torn]
          rfl
        rw [foldlM_append, hf, ok_bind]
        simp only [append_assoc] at hs
        rw [hs, Clean]
        simp only [hp, true_or, true_and, and_congr_left_iff]
        intro _
        constructor
        · rintro (ht | hn) s' hs'
          · exact .inl ht
          · exact .inr (hn s' hs')
        · intro ht
          by_cases he : s.torn = []
          · exact .inl he
          · exact .inr fun s' hs' => (ht s' hs').resolve_left he
      · constructor
        · rintro ⟨c', h, he⟩
          have hs : s.parsedEntries = b.parsedEntries ++
              (bs.flatMap LoggedBatch.parsedEntries ++ s.torn) := by
            simp [parsedEntries, hb]
          rw [hs, append_assoc] at h
          rw [committed, hb, map_cons, cons_append] at he
          exact absurd he (collect_foreign hc b hp h)
        · rintro ⟨hn | hn, -⟩
          · exact absurd hn hp
          · have := hn s mem_cons_self
            rw [hb] at this
            contradiction

theorem collects_complete_batches_iff (hc : codec.Lawful) (segments : List (Segment codec)) :
    collectCommittedTransactions codec (segments.flatMap parsedEntries) =
      .ok (segments.flatMap committed) ↔ Clean segments := by
  have h := collect_iff hc segments ⟨[], []⟩
  simp only [nil_append, true_or, true_and] at h
  rw [← h, collectCommittedTransactions, bind_eq_ok]
  constructor
  · rintro ⟨c, hf, he⟩
    exact ⟨c, hf, Except.ok.inj he⟩
  · rintro ⟨c, hf, he⟩
    exact ⟨c, hf, congrArg Except.ok he⟩

end Segment

-- The wire format of `postcard`: integers are varints and a record is its fields one after another.
-- The fields of a mutation behind its version are kept as they stand.
def postcardCodec : WalCodec where
  crc := Crc32.checksum
  encodeIntent i :=
    varint i.wireVersion.toNat ++ (varint i.transactionId ++
      (varint i.intentSequence.toNat ++ (varint i.mutation.wireVersion.toNat ++ i.mutation.body)))
  decodeIntent bytes := (do
    let (version, bytes) ← takeVarint bytes
    let (transactionId, bytes) ← takeVarint bytes
    let (sequence, bytes) ← takeVarint bytes
    let (mutationVersion, body) ← takeVarint bytes
    return ⟨.ofNat version, transactionId, .ofNat sequence, ⟨.ofNat mutationVersion, body⟩⟩
    : Option OutboxIntent).elim (.error "Hit the end of buffer") .ok
  encodeCommit c :=
    varint c.wireVersion.toNat ++ (varint c.transactionId ++
      (varint c.intentCount.toNat ++ (varint c.batchChecksum.toNat ++
        (varint c.firstSequence ++ varint c.entryCount.toNat))))
  decodeCommit bytes := (do
    let (version, bytes) ← takeVarint bytes
    let (transactionId, bytes) ← takeVarint bytes
    let (intentCount, bytes) ← takeVarint bytes
    let (checksum, bytes) ← takeVarint bytes
    let (firstSequence, bytes) ← takeVarint bytes
    let (entryCount, _) ← takeVarint bytes
    return ⟨.ofNat version, transactionId, .ofNat intentCount, .ofNat checksum, firstSequence, .ofNat entryCount⟩
    : Option TransactionCommit).elim (.error "Hit the end of buffer") .ok
  decodeAbort bytes := (do
    let (version, bytes) ← takeVarint bytes
    let (transactionId, _) ← takeVarint bytes
    return ⟨.ofNat version, transactionId⟩
    : Option TransactionAbort).elim (.error "Hit the end of buffer") .ok

theorem postcardCodec_lawful : postcardCodec.Lawful where
  intent i := by
    simp [postcardCodec, takeVarint_varint]
  commit c := by
    have h : takeVarint (varint c.entryCount.toNat) = some (c.entryCount.toNat, []) := by
      simpa using takeVarint_varint c.entryCount.toNat []
    simp [postcardCodec, takeVarint_varint, h]

-- What the parser makes of plain records, the first of which follows `lsn`.
def parseRecord (lsn : Lsn) (t : TransactionWalEntry) : ParsedWalEntry :=
  let newLsn := lsn + 40 + t.payload.length
  ⟨⟨.ofNat t.payload.length, t.opType.toByte, false, .full, 0, t.timestamp, newLsn, lsn, 0⟩,
    t.payload, 64 + lsn, newLsn, lsn⟩

def parseRecords : Lsn → List TransactionWalEntry → List ParsedWalEntry
  | _, [] => []
  | lsn, t :: ts => parseRecord lsn t :: parseRecords (lsn + 40 + t.payload.length) ts

theorem parses_parseRecords (lsn : Lsn) (ts : List TransactionWalEntry) :
    List.Forall₂ Parses (parseRecords lsn ts) ts := by
  induction ts generalizing lsn with
  | nil => exact .nil
  | cons t ts ind => exact .cons ⟨rfl, rfl, rfl⟩ (ind _)

def recordBytes (ts : List TransactionWalEntry) : ℕ :=
  (ts.map fun t => 40 + t.payload.length).sum

def Batch.logged {codec : WalCodec} (b : Batch codec) (lsn : Lsn) : LoggedBatch codec where
  toBatch := b
  redoEntries := parseRecords lsn (b.redo.map RedoEntry.toTransactionWalEntry)
  intentEntries := parseRecords
    (lsn + recordBytes (b.redo.map RedoEntry.toTransactionWalEntry))
    (b.intents.map (intentRecord codec))
  commitEntry := parseRecord (lsn + recordBytes b.body)
    ⟨.transactionCommit, 0, codec.encodeCommit b.commit, none⟩
  redo_length := by rw [(parses_parseRecords ..).length_eq, length_map]
  parsed := by
    rw [b.spec.2.2, Batch.body]
    exact rel_append (rel_append (parses_parseRecords ..) (parses_parseRecords ..))
      (.cons ⟨rfl, rfl, rfl⟩ .nil)

-- A run of the writer that completes some batches and is cut short after `k` entries of another.
def Segment.cut {codec : WalCodec} (batches : List (LoggedBatch codec)) (b : Batch codec) (k : ℕ)
    (lsn : Lsn) (hk : k < b.entries.length) : Segment codec where
  batches := batches
  torn := parseRecords lsn (b.entries.take k)
  is_torn := by
    refine ⟨b, b.entries.take k, take_prefix .., fun he => ?_, parses_parseRecords ..⟩
    have := congrArg List.length he
    simp only [length_take] at this
    omega

-- A transaction that inserts a vertex and has one intent for an external index.
def insertBatch (transactionId : TransactionId) : Batch postcardCodec where
  transactionId := transactionId
  redo := [⟨⟨.insertVertex, 7, [1, 2, 3], none⟩, by decide⟩]
  intents := [⟨1, transactionId, 0, ⟨1, [9]⟩⟩]
  entries := (buildTransactionEntries postcardCodec none transactionId
    [⟨.insertVertex, 7, [1, 2, 3], none⟩] [⟨1, transactionId, 0, ⟨1, [9]⟩⟩]).toOption.getD []
  built := by
    simp [buildTransactionEntries, intentRecords, ensure, invalid, Except.toOption, OutboxIntent.validate,
      IndexMutation.validate, validateWireVersion, walSyncWireVersion]

namespace Segment

-- Two runs. Only the last one is cut short.
def cutAtTheEnd : List (Segment postcardCodec) :=
  [cut [(insertBatch 1).logged 0, (insertBatch 2).logged 138] (insertBatch 3) 0 276 (by decide +kernel),
   cut [(insertBatch 4).logged 276] (insertBatch 5) 2 414 (by decide +kernel)]

theorem collects_complete_batches_cut_at_the_end : postcardCodec.Lawful ∧
    collectCommittedTransactions postcardCodec (cutAtTheEnd.flatMap parsedEntries) =
      .ok (cutAtTheEnd.flatMap committed) := by
  refine ⟨postcardCodec_lawful, ?_⟩
  apply (collects_complete_batches_iff postcardCodec_lawful cutAtTheEnd).mpr
  refine .cons (fun s _ => .inl ?_) (.cons (by simp) .nil)
  rfl

-- A run is cut short after the first entry of a batch. The next run completes a batch.
def cutInTheMiddle : List (Segment postcardCodec) :=
  [cut [] (insertBatch 1) 1 0 (by decide +kernel),
   cut [(insertBatch 2).logged 43] (insertBatch 3) 0 181 (by decide +kernel)]

def isChecksumMismatch {α : Type} : WalResult α → Bool
  | .error (.checksumMismatch ..) => true
  | _ => false

theorem exists_of_isChecksumMismatch {r : WalResult α} (h : isChecksumMismatch r) :
    ∃ expected actual, r = .error (.checksumMismatch expected actual) := by
  simp only [isChecksumMismatch] at h
  split at h
  · exact ⟨_, _, rfl⟩
  · contradiction

theorem collects_complete_batches_violated : (cutInTheMiddle.flatMap committed).length = 1 ∧
    ∃ expected actual, collectCommittedTransactions postcardCodec
      (cutInTheMiddle.flatMap parsedEntries) = .error (.checksumMismatch expected actual) :=
  ⟨by decide +kernel, exists_of_isChecksumMismatch (by decide +kernel)⟩

end Segment

end Linkrs
