import Linkrs.Context.UndoLog
import Linkrs.Lib.Bytes
import Linkrs.Lib.Except
import Linkrs.Lib.Trace

namespace Linkrs

open List Bytes

-- The serialization of undo entries by `postcard`, which reads back what it wrote.
structure UndoCodec (ε : Type) where
  toBytes : ε → List UInt8
  fromBytes : List UInt8 → Except String ε
  from_bytes : ∀ entry, fromBytes (toBytes entry) = .ok entry

namespace FileBackedUndoLog

-- The log with the bytes of its file. Entries are listed with the oldest first.
structure OnDisk (ε : Type) where
  buffer : List ε
  file : Option (List UInt8)
  blockOffsets : List ℕ
  totalEntries : ℕ
  threshold : ℕ

-- File positions are of type `u64`.
def maxFileLen : ℕ := 2 ^ 64

namespace OnDisk

variable {ε σ : Type} (codec : UndoCodec ε)

def new (memoryOverflowThreshold : ℕ) : OnDisk ε where
  buffer := []
  file := none
  blockOffsets := []
  totalEntries := 0
  threshold := max memoryOverflowThreshold 1

def serializeEntry (entry : ε) : List UInt8 :=
  Bytes.le 8 (codec.toBytes entry).length ++ codec.toBytes entry

def serializeBlock (entries : List ε) : List UInt8 :=
  Bytes.le 8 entries.length ++ entries.flatMap (serializeEntry codec)

section

variable (log : OnDisk ε)

def len : ℕ :=
  log.totalEntries

def isEmpty : Bool :=
  log.totalEntries = 0

def push (entry : ε) : OnDisk ε :=
  { log with
    buffer := log.buffer ++ [entry]
    totalEntries := log.totalEntries + 1 }

-- What the file will be after the buffer has been written to its end.
def appended : List UInt8 :=
  log.file.getD [] ++ serializeBlock codec log.buffer

def spillToFile : UndoLogResult Unit × OnDisk ε :=
  if (log.appended codec).length < maxFileLen then
    (.ok (), { log with
      buffer := []
      file := some (log.appended codec)
      blockOffsets := log.blockOffsets ++ [(log.file.getD []).length] })
  else
    (.error (.undoFailed "Failed to write undo spill block: File too large"),
      { log with file := some (log.file.getD []) })

def add (entry : ε) : UndoLogResult Unit × OnDisk ε :=
  if log.threshold ≤ (log.push entry).buffer.length then (log.push entry).spillToFile codec
  else (.ok (), log.push entry)

def clear : OnDisk ε :=
  { log with
    buffer := []
    file := log.file.map fun _ => []
    blockOffsets := []
    totalEntries := 0 }

end

section

variable (file : List UInt8)

def readExact (position count : ℕ) : Except String (List UInt8) :=
  if position + count ≤ file.length then .ok ((file.drop position).take count)
  else .error "failed to fill whole buffer"

def failed {α : Type} (what : String) (result : Except String α) : UndoLogResult α :=
  result.mapError fun error => .undoFailed s!"{what}: {error}"

theorem failed_ok {a : α} : failed what (.ok a) = .ok a :=
  rfl

-- The entries from a position on, with the position behind them.
def readEntries : ℕ → ℕ → UndoLogResult (List ε × ℕ)
  | 0, position => .ok ([], position)
  | count + 1, position => do
    let len := ofLe (← failed "Failed to read undo entry length" (readExact file position 8))
    let position := position + 8
    Except.ensure (len ≤ file.length - position) (.undoFailed "Undo spill entry exceeds the file boundary")
    let bytes ← failed "Failed to read undo entry" (readExact file position len)
    let entry ← failed "Failed to deserialize undo entry" (codec.fromBytes bytes)
    let (entries, position) ← readEntries count (position + len)
    return (entry :: entries, position)

def readBlock (offset : ℕ) : UndoLogResult (List ε) := do
  let count := ofLe (← failed "Failed to read undo spill block header" (readExact file offset 8))
  Except.ensure (count ≠ 0) (.undoFailed "Undo spill block contains no entries")
  Except.ensure (count ≤ (file.length - (offset + 8)) / 8)
    (.undoFailed "Undo spill block has an invalid entry count")
  let (entries, blockEnd) ← readEntries codec file count (offset + 8)
  Except.ensure (blockEnd = file.length) (.undoFailed "Undo spill block contains trailing data")
  return entries

end

section

variable (log : OnDisk ε)

def popFromFile : UndoLogResult (Option ε) × OnDisk ε :=
  match log.file, log.blockOffsets.getLast? with
  | none, _ => (.ok none, log)
  | some _, none => (.ok none, log)
  | some file, some offset =>
    if log.totalEntries = 0 then
      (.error (.undoFailed "Undo log has a file block but no entries"), log)
    else
      match readBlock codec file offset with
      | .error e => (.error e, log)
      | .ok entries =>
        match entries.getLast? with
        | none => (.error (.undoFailed "Undo spill block contains no decoded entries"), log)
        | some newest =>
          (.ok (some newest), { log with
            buffer := entries.dropLast
            file := some (file.take offset)
            blockOffsets := log.blockOffsets.dropLast
            totalEntries := log.totalEntries - 1 })

def pop : UndoLogResult (Option ε) × OnDisk ε :=
  match log.buffer.getLast? with
  | some entry =>
    (.ok (some entry), { log with
      buffer := log.buffer.dropLast
      totalEntries := log.totalEntries - 1 })
  | none => log.popFromFile codec

end

variable (undo : ε → Timestamp → σ → UndoLogResult Unit × σ)

def executeNext (ts : Timestamp) (log : OnDisk ε) (s : σ) : UndoLogResult Bool × OnDisk ε × σ :=
  match log.pop codec with
  | (.error e, log) => (.error e, log, s)
  | (.ok none, log) => (.ok false, log, s)
  | (.ok (some entry), log) =>
    match undo entry ts s with
    | (.ok (), s) => (.ok true, log, s)
    | (.error e, s) => (.error e, log.push entry, s)

theorem pop_decreases {log log' : OnDisk ε} (h : log.pop codec = (.ok (some entry), log')) :
    Prod.Lex (· < ·) (· < ·) (log'.blockOffsets.length, log'.buffer.length)
      (log.blockOffsets.length, log.buffer.length) := by
  unfold pop at h
  split at h
  case h_1 hlast =>
    cases h
    refine .right _ ?_
    have hne : log.buffer ≠ [] := fun hnil => by simp [hnil] at hlast
    simpa using length_pos_iff.mpr hne
  case h_2 =>
    unfold popFromFile at h
    split at h
    case h_1 | h_2 => cases h
    case h_3 hoffset =>
      split at h
      · cases h
      split at h
      · cases h
      split at h
      · cases h
      cases h
      refine .left _ _ ?_
      have hne : log.blockOffsets ≠ [] := fun hnil => by simp [hnil] at hoffset
      simpa using length_pos_iff.mpr hne

theorem executeNext_decreases (h : executeNext codec undo ts log s = (.ok true, log', s')) :
    Prod.Lex (· < ·) (· < ·) (log'.blockOffsets.length, log'.buffer.length)
      (log.blockOffsets.length, log.buffer.length) := by
  unfold executeNext at h
  split at h
  case h_1 | h_2 => cases h
  case h_3 hpop =>
    split at h
    · cases h
      exact pop_decreases codec hpop
    · cases h

def executeUndo (ts : Timestamp) (log : OnDisk ε) (s : σ) : UndoLogResult Unit × OnDisk ε × σ :=
  match _ : executeNext codec undo ts log s with
  | (.error e, log, s) => (.error e, log, s)
  | (.ok false, log, s) => (.ok (), log, s)
  | (.ok true, log, s) => executeUndo ts log s
termination_by (log.blockOffsets.length, log.buffer.length)
decreasing_by exact executeNext_decreases codec undo ‹_›

def executeTimes (ts : Timestamp) : ℕ → OnDisk ε → σ → UndoLogResult Unit × OnDisk ε × σ
  | 0, log, s => (.ok (), log, s)
  | count + 1, log, s =>
    match executeNext codec undo ts log s with
    | (.error e, log, s) => (.error e, log, s)
    | (.ok false, log, s) => (.error (.undoFailed "Unexpected: not enough entries during undo"), log, s)
    | (.ok true, log, s) => executeTimes ts count log s

def executeUndoFromIndex (ts : Timestamp) (startIndex : ℕ) (log : OnDisk ε) (s : σ) :
    UndoLogResult Unit × OnDisk ε × σ :=
  if log.totalEntries < startIndex then (.error (invalidIndex startIndex log.totalEntries), log, s)
  else executeTimes codec undo ts (log.totalEntries - startIndex) log s

end OnDisk

inductive UndoOp (ε : Type)
  | add (entry : ε)
  | pop
  | executeUndo (ts : Timestamp)
  | executeUndoFromIndex (ts : Timestamp) (startIndex : ℕ)
  | clear

section

variable {ε σ : Type} (codec : UndoCodec ε) (undo : ε → Timestamp → σ → UndoLogResult Unit × σ)

def done (result : UndoLogResult Unit) : UndoLogResult (Option ε) :=
  result.map fun _ => none

def OnDisk.step (state : OnDisk ε × σ) : UndoOp ε → UndoLogResult (Option ε) × OnDisk ε × σ
  | .add entry =>
    let (result, log) := state.1.add codec entry
    (done result, log, state.2)
  | .pop =>
    let (result, log) := state.1.pop codec
    (result, log, state.2)
  | .executeUndo ts =>
    let (result, state) := state.1.executeUndo codec undo ts state.2
    (done result, state)
  | .executeUndoFromIndex ts startIndex =>
    let (result, state) := state.1.executeUndoFromIndex codec undo ts startIndex state.2
    (done result, state)
  | .clear => (.ok none, state.1.clear, state.2)

-- A stack of entries with the newest first. Entries are undone up to the first that cannot be.
def undoAll (ts : Timestamp) : List ε → σ → UndoLogResult Unit × List ε × σ
  | [], s => (.ok (), [], s)
  | entry :: stack, s =>
    match undo entry ts s with
    | (.ok (), s) => undoAll ts stack s
    | (.error e, s) => (.error e, entry :: stack, s)

def stackStep (state : List ε × σ) : UndoOp ε → UndoLogResult (Option ε) × List ε × σ
  | .add entry => (.ok none, entry :: state.1, state.2)
  | .pop => (.ok state.1.head?, state.1.tail, state.2)
  | .executeUndo ts =>
    let (result, state) := undoAll undo ts state.1 state.2
    (done result, state)
  | .executeUndoFromIndex ts startIndex =>
    if state.1.length < startIndex then (.error (invalidIndex startIndex state.1.length), state)
    else
      let count := state.1.length - startIndex
      let (result, left, s) := undoAll undo ts (state.1.take count) state.2
      (done result, left ++ state.1.drop count, s)
  | .clear => (.ok none, [], state.2)

-- The file takes what is written to it.
def WriteFits (state : OnDisk ε × σ) : UndoOp ε → Prop
  | .add entry =>
    state.1.threshold ≤ (state.1.push entry).buffer.length →
      ((state.1.push entry).appended codec).length < maxFileLen
  | _ => True

end

namespace OnDisk

variable {ε σ : Type} {codec : UndoCodec ε} {undo : ε → Timestamp → σ → UndoLogResult Unit × σ}
  {file : List UInt8} {offsets : List ℕ} {block : List ε}

-- The blocks of a file one after the other, with their positions.
inductive Spilled (codec : UndoCodec ε) : List UInt8 → List ℕ → List (List ε) → Prop
  | empty : Spilled codec [] [] []
  | block {file offsets blocks block} : Spilled codec file offsets blocks →
    Spilled codec (file ++ serializeBlock codec block.reverse) (offsets ++ [file.length]) (block :: blocks)

theorem readExact_append (front middle rest : List UInt8) :
    readExact (front ++ (middle ++ rest)) front.length middle.length = .ok middle := by
  simp [readExact]

theorem ofLe_le_of_fits (h : n < maxFileLen) : ofLe (Bytes.le 8 n) = n :=
  ofLe_le (by simpa [maxFileLen] using h)

theorem readEntries_succ {count position : ℕ} (hspan : (codec.toBytes entry).length < maxFileLen)
    (hlength : readExact file position 8 = .ok (Bytes.le 8 (codec.toBytes entry).length))
    (hbytes : readExact file (position + 8) (codec.toBytes entry).length = .ok (codec.toBytes entry)) :
    readEntries codec file (count + 1) position = do
      let (entries, position) ← readEntries codec file count (position + 8 + (codec.toBytes entry).length)
      return (entry :: entries, position) := by
  have hwithin : (codec.toBytes entry).length ≤ file.length - (position + 8) := by
    unfold readExact at hbytes
    split at hbytes
    · omega
    · cases hbytes
  simp only [readEntries, failed_ok, hlength, Except.ok_bind, ofLe_le_of_fits hspan,
    Except.ensure_of hwithin, hbytes, codec.from_bytes]

theorem readEntries_append (front : List UInt8) (block : List ε) (rest : List UInt8)
    (hlen : (front ++ (block.flatMap (serializeEntry codec) ++ rest)).length < maxFileLen) :
    readEntries codec (front ++ (block.flatMap (serializeEntry codec) ++ rest)) block.length front.length =
      .ok (block, (front ++ block.flatMap (serializeEntry codec)).length) := by
  induction block generalizing front with
  | nil => simp [readEntries]
  | cons entry block ind =>
    have hspan : (codec.toBytes entry).length < maxFileLen := by
      refine lt_of_le_of_lt ?_ hlen
      simp [serializeEntry]
      omega
    have hlength := readExact_append front (Bytes.le 8 (codec.toBytes entry).length)
      (codec.toBytes entry ++ (block.flatMap (serializeEntry codec) ++ rest))
    have hbytes := readExact_append (front ++ Bytes.le 8 (codec.toBytes entry).length) (codec.toBytes entry)
      (block.flatMap (serializeEntry codec) ++ rest)
    have hnext := ind (front ++ serializeEntry codec entry) (by simpa using hlen)
    simp only [serializeEntry, flatMap_cons, append_assoc, length_append, length_le]
      at hlength hbytes hnext ⊢
    rw [← Nat.add_assoc] at hnext
    rw [length_cons, readEntries_succ hspan hlength hbytes, hnext]
    simp

theorem length_le_flatMap (codec : UndoCodec ε) (block : List ε) :
    block.length * 8 ≤ (block.flatMap (serializeEntry codec)).length := by
  induction block with
  | nil => simp
  | cons entry block ind =>
    rw [flatMap_cons, length_append, length_cons, serializeEntry, length_append, length_le]
    omega

theorem readBlock_append (front : List UInt8) (hblock : block ≠ [])
    (hlen : (front ++ serializeBlock codec block).length < maxFileLen) :
    readBlock codec (front ++ serializeBlock codec block) front.length = .ok block := by
  have hcount := length_le_flatMap codec block
  have hheader := readExact_append front (Bytes.le 8 block.length) (block.flatMap (serializeEntry codec))
  have hentries := readEntries_append (front ++ Bytes.le 8 block.length) block [] (by simpa [serializeBlock] using hlen)
  simp only [append_nil, append_assoc, length_append, length_le] at hheader hentries
  simp only [serializeBlock, length_append, length_le] at hlen
  have hfits : block.length < maxFileLen := by omega
  have hremaining : block.length ≤
      ((front ++ serializeBlock codec block).length - (front.length + 8)) / 8 := by
    rw [serializeBlock, length_append, length_append, length_le]
    omega
  have hpos : block.length ≠ 0 := by simpa using hblock
  have hend : front.length + (8 + (block.flatMap (serializeEntry codec)).length) =
      (front ++ serializeBlock codec block).length := by
    rw [serializeBlock, length_append, length_append, length_le]
  have hheader : readExact (front ++ serializeBlock codec block) front.length 8 = .ok _ := hheader
  have hentries : readEntries codec (front ++ serializeBlock codec block) block.length (front.length + 8) = .ok _ :=
    hentries
  simp only [readBlock, failed_ok, hheader, Except.ok_bind, ofLe_le_of_fits hfits,
    Except.ensure_of hpos, Except.ensure_of hremaining, hentries, Except.ensure_of hend]
  rfl

variable {log log' : OnDisk ε} {blocks blocks' : FileBackedUndoLog ε} {stack : List ε} {entry : ε} {s s' : σ} {ts : Timestamp}

-- The log of blocks that is kept in the buffer and in the file.
structure Represents (codec : UndoCodec ε) (log : OnDisk ε) (blocks : FileBackedUndoLog ε) : Prop where
  buffer : log.buffer = blocks.buffer.reverse
  spilled : Spilled codec (log.file.getD []) log.blockOffsets blocks.blocks
  fits : (log.file.getD []).length < maxFileLen
  totalEntries : log.totalEntries = blocks.totalEntries
  threshold : log.threshold = blocks.threshold

-- What the log of blocks works with: the target of the log, and the bytes of its file.
def withFile (codec : UndoCodec ε) (undo : ε → Timestamp → σ → UndoLogResult Unit × σ)
    (rollback : TransactionId → StagedWriteMark → σ → UndoLogResult Unit × σ) : UndoTarget ε (σ × List UInt8) where
  undo entry ts s := ((undo entry ts s.1).1, (undo entry ts s.1).2, s.2)
  rollbackStagedWrites id mark s := ((rollback id mark s.1).1, (rollback id mark s.1).2, s.2)
  writeBlock block s :=
    let file := s.2 ++ serializeBlock codec block.reverse
    if file.length < maxFileLen then (.ok (), s.1, file)
    else (.error (.undoFailed "Failed to write undo spill block: File too large"), s)
  readBlock block s := (.ok (), s.1, s.2.take (s.2.length - (serializeBlock codec block.reverse).length))

namespace Represents

theorem new (memoryOverflowThreshold : ℕ) :
    Represents codec (.new memoryOverflowThreshold) (.new memoryOverflowThreshold) :=
  ⟨rfl, .empty, by simp [OnDisk.new, maxFileLen], rfl, rfl⟩

theorem push (h : Represents codec log blocks) (entry : ε) : Represents codec (log.push entry) (blocks.push entry) where
  buffer := by simp [OnDisk.push, FileBackedUndoLog.push, h.buffer]
  spilled := h.spilled
  fits := h.fits
  totalEntries := congrArg (· + 1) h.totalEntries
  threshold := h.threshold

variable {rollback : TransactionId → StagedWriteMark → σ → UndoLogResult Unit × σ} {t : σ × List UInt8}

theorem add (h : Represents codec log blocks)
    (ha : blocks.add (withFile codec undo rollback) entry (s, log.file.getD []) = (r, blocks', t)) :
    ∃ log', log.add codec entry = (r, log') ∧ Represents codec log' blocks' ∧ t = (s, log'.file.getD []) := by
  have hp := h.push entry
  have happended : log.file.getD [] ++ serializeBlock codec (blocks.push entry).buffer.reverse =
      (log.push entry).appended codec := by
    rw [← hp.buffer]
    rfl
  unfold OnDisk.add
  unfold FileBackedUndoLog.add at ha
  rw [hp.buffer, length_reverse, h.threshold]
  split at ha
  case isFalse hfull =>
    cases ha
    exact ⟨_, if_neg hfull, hp, rfl⟩
  case isTrue hfull =>
    rw [if_pos hfull]
    by_cases hlen : ((log.push entry).appended codec).length < maxFileLen
    · simp only [withFile, happended, if_pos hlen] at ha
      cases ha
      refine ⟨_, if_pos hlen, ⟨rfl, ?_, hlen, hp.totalEntries, hp.threshold⟩, rfl⟩
      rw [← happended]
      exact h.spilled.block
    · simp only [withFile, happended, if_neg hlen] at ha
      cases ha
      exact ⟨_, if_neg hlen, ⟨hp.buffer, h.spilled, h.fits, hp.totalEntries, hp.threshold⟩, rfl⟩

-- With an empty buffer the newest entry is the last one of the last block, and the others of that block
-- become the buffer.
theorem pop (h : Represents codec log blocks)
    (hp : blocks.pop (withFile codec undo rollback) (s, log.file.getD []) = (r, blocks', t)) :
    ∃ log', log.pop codec = (r, log') ∧ Represents codec log' blocks' ∧ t = (s, log'.file.getD []) := by
  have hspilled := h.spilled
  have hbuffer := h.buffer
  simp only [FileBackedUndoLog.pop] at hp
  split at hp
  case h_1 entry buffer hb =>
    cases hp
    rw [hb, reverse_cons] at hbuffer
    exact ⟨{ log with buffer := buffer.reverse, totalEntries := log.totalEntries - 1 }, by simp [OnDisk.pop, hbuffer],
      ⟨rfl, h.spilled, h.fits, congrArg (· - 1) h.totalEntries, h.threshold⟩, rfl⟩
  case h_2 hb hk =>
    cases hp
    rw [hb] at hbuffer
    rw [hk] at hspilled
    have hoffsets : log.blockOffsets = [] := by
      generalize log.file.getD [] = file, log.blockOffsets = offsets at hspilled ⊢
      cases hspilled
      rfl
    refine ⟨log, ?_, h, rfl⟩
    cases hf : log.file <;> simp [OnDisk.pop, OnDisk.popFromFile, hbuffer, hf, hoffsets]
  case h_3 hk => exact absurd blocks.filled (by simp [hk])
  case h_4 entry buffer rest hb hk =>
    simp only [withFile] at hp
    cases hp
    rw [hb] at hbuffer
    rw [hk] at hspilled
    generalize hfile : log.file.getD [] = file, hoffsets : log.blockOffsets = offsets at hspilled
    cases hspilled with
    | @block file offsets _ _ hspilled =>
      have hsome : log.file = some (file ++ serializeBlock codec (buffer.reverse ++ [entry])) := by
        cases hf : log.file with
        | some bytes => simpa [hf] using hfile
        | none =>
          have hlen := congrArg List.length hfile
          simp [hf, serializeBlock] at hlen
          omega
      have hpos : log.totalEntries ≠ 0 := by simp [h.totalEntries, blocks.counted, hk]
      have hlen := h.fits
      rw [hfile] at hlen
      have hread := readBlock_append file (by simp) hlen
      rw [reverse_cons] at hread
      rw [length_append] at hlen
      refine ⟨⟨buffer.reverse, some file, offsets, log.totalEntries - 1, log.threshold⟩, ?_,
        ⟨rfl, hspilled, (Nat.le_add_right ..).trans_lt hlen, congrArg (· - 1) h.totalEntries, h.threshold⟩, by simp⟩
      simp [OnDisk.pop, OnDisk.popFromFile, hbuffer, hsome, hoffsets, hpos, hread]

theorem executeNext (h : Represents codec log blocks)
    (hx : blocks.executeNext (withFile codec undo rollback) ts (s, log.file.getD []) = (r, blocks', t)) :
    ∃ log', OnDisk.executeNext codec undo ts log s = (r, log', t.1) ∧ Represents codec log' blocks' ∧
      t.2 = log'.file.getD [] := by
  unfold FileBackedUndoLog.executeNext at hx
  unfold OnDisk.executeNext
  split at hx
  case h_1 hp | h_2 hp =>
    cases hx
    obtain ⟨log', hlog, hr, rfl⟩ := h.pop hp
    exact ⟨log', by rw [hlog], hr, rfl⟩
  case h_3 entry _ _ hp =>
    obtain ⟨log', hlog, hr, rfl⟩ := h.pop hp
    simp only [withFile] at hx
    rw [hlog]
    rcases hu : undo entry ts s with ⟨_ | _, s'⟩
    · simp only [hu] at hx ⊢
      cases hx
      exact ⟨_, rfl, hr.push entry, rfl⟩
    · simp only [hu] at hx ⊢
      cases hx
      exact ⟨_, rfl, hr, rfl⟩

theorem executeTimes (h : Represents codec log blocks)
    (hx : FileBackedUndoLog.executeTimes (withFile codec undo rollback) ts n blocks (s, log.file.getD []) = (r, blocks', t)) :
    ∃ log', OnDisk.executeTimes codec undo ts n log s = (r, log', t.1) ∧ Represents codec log' blocks' ∧
      t.2 = log'.file.getD [] := by
  induction n generalizing log blocks s with
  | zero =>
    cases hx
    exact ⟨log, rfl, h, rfl⟩
  | succ n ind =>
    rw [FileBackedUndoLog.executeTimes] at hx
    rw [OnDisk.executeTimes]
    split at hx
    case h_1 hn | h_2 hn =>
      cases hx
      obtain ⟨log', hlog, hr, ht⟩ := h.executeNext hn
      exact ⟨log', by rw [hlog], hr, ht⟩
    case h_3 t' hn =>
      obtain ⟨log', hlog, hr, ht⟩ := h.executeNext hn
      rw [hlog]
      refine ind hr ?_
      rwa [← ht]

-- The log that the savepoints are about is the one in the file: a call answers the same on both.
theorem executeUndoFromIndex (h : Represents codec log blocks)
    (hx : blocks.executeUndoFromIndex (withFile codec undo rollback) ts start (s, log.file.getD []) = (r, blocks', t)) :
    ∃ log', OnDisk.executeUndoFromIndex codec undo ts start log s = (r, log', t.1) ∧ Represents codec log' blocks' ∧
      t.2 = log'.file.getD [] := by
  unfold FileBackedUndoLog.executeUndoFromIndex at hx
  unfold OnDisk.executeUndoFromIndex
  rw [h.totalEntries]
  split at hx
  case isTrue hlt =>
    cases hx
    exact ⟨log, if_pos hlt, h, rfl⟩
  case isFalse hlt =>
    rw [if_neg hlt]
    exact h.executeTimes hx

end Represents

-- The log keeps the entries of a stack, in the file and in the buffer.
def Holds (codec : UndoCodec ε) (log : OnDisk ε) (stack : List ε) : Prop :=
  ∃ blocks : FileBackedUndoLog ε, Represents codec log blocks ∧ blocks.entries = stack

theorem Holds.counted (h : Holds codec log stack) : log.totalEntries = stack.length := by
  obtain ⟨blocks, h, rfl⟩ := h
  rw [h.totalEntries, blocks.counted, entries]

theorem Holds.new (memoryOverflowThreshold : ℕ) : Holds codec (.new memoryOverflowThreshold) [] :=
  ⟨.new memoryOverflowThreshold, .new memoryOverflowThreshold, rfl⟩

theorem Holds.clear (log : OnDisk ε) : Holds codec log.clear [] := by
  have hnil : log.clear.file.getD [] = [] := by
    cases hfile : log.file <;> simp [OnDisk.clear, hfile]
  refine ⟨⟨[], [], 0, log.threshold, rfl, by simp⟩, ⟨rfl, ?_, by simp [hnil, maxFileLen], rfl, rfl⟩, rfl⟩
  rw [hnil]
  exact .empty

theorem Holds.push (h : Holds codec log stack) (entry : ε) : Holds codec (log.push entry) (entry :: stack) := by
  obtain ⟨blocks, h, rfl⟩ := h
  exact ⟨blocks.push entry, h.push entry, rfl⟩

def faultless (codec : UndoCodec ε) : UndoTarget ε (Unit × List UInt8) :=
  withFile codec (fun _ _ _ => (.ok (), ())) fun _ _ _ => (.ok (), ())

theorem Holds.add (h : Holds codec log stack) (entry : ε) (hfits : log.threshold ≤ (log.push entry).buffer.length →
      ((log.push entry).appended codec).length < maxFileLen) :
    ∃ log', log.add codec entry = (.ok (), log') ∧ Holds codec log' (entry :: stack) := by
  obtain ⟨blocks, h, rfl⟩ := h
  have hentries : (blocks.add (faultless codec) entry ((), log.file.getD [])).2.1.entries = _ := entries_add
  rcases ha : blocks.add (faultless codec) entry ((), log.file.getD []) with ⟨r, blocks', t⟩
  rw [ha] at hentries
  have ⟨log', hadd, hr, _⟩ := h.add ha
  have hok : (log.add codec entry).1 = .ok () := by
    unfold OnDisk.add
    split
    case isTrue hfull => rw [OnDisk.spillToFile, if_pos (hfits hfull)]
    case isFalse => rfl
  rw [hadd] at hok ⊢
  exact ⟨log', by rw [← hok], blocks', hr, hentries⟩

theorem Holds.pop (h : Holds codec log stack) :
    ∃ log', log.pop codec = (.ok stack.head?, log') ∧ Holds codec log' stack.tail := by
  obtain ⟨blocks, h, rfl⟩ := h
  rcases hp : blocks.pop (faultless codec) ((), log.file.getD []) with ⟨r, blocks', t⟩
  have ⟨log', hpop, hr, _⟩ := h.pop hp
  rcases pop_spec hp with ⟨entry, rfl, he⟩ | ⟨rfl, rfl, he⟩ | ⟨_, _, _, hf⟩
  · exact ⟨log', by rw [hpop, he, head?_cons], blocks', hr, by rw [he, tail_cons]⟩
  · exact ⟨log', by rw [hpop, he, head?_nil], blocks', hr, by rw [he, tail_nil]⟩
  · exact absurd ⟨fun _ _ _ => rfl, fun _ _ _ => rfl, fun _ _ => rfl⟩ hf

section

variable (undo : ε → Timestamp → σ → UndoLogResult Unit × σ) (ts : Timestamp)

theorem Holds.executeNext_ok (h : Holds codec log (entry :: stack)) (hundo : undo entry ts s = (.ok (), s')) :
    ∃ log', OnDisk.executeNext codec undo ts log s = (.ok true, log', s') ∧ Holds codec log' stack := by
  have ⟨log', hpop, hholds⟩ := h.pop
  exact ⟨log', by simp [OnDisk.executeNext, hpop, hundo], hholds⟩

theorem Holds.executeNext_error (h : Holds codec log (entry :: stack)) (hundo : undo entry ts s = (.error e, s')) :
    ∃ log', OnDisk.executeNext codec undo ts log s = (.error e, log', s') ∧ Holds codec log' (entry :: stack) := by
  have ⟨log', hpop, hholds⟩ := h.pop
  exact ⟨log'.push entry, by simp [OnDisk.executeNext, hpop, hundo], hholds.push entry⟩

theorem Holds.executeNext_nil (h : Holds codec log []) (s : σ) :
    ∃ log', OnDisk.executeNext codec undo ts log s = (.ok false, log', s) ∧ Holds codec log' [] := by
  have ⟨log', hpop, hholds⟩ := h.pop
  refine ⟨log', ?_, hholds⟩
  rw [OnDisk.executeNext, hpop]
  rfl

theorem Holds.executeUndo (h : Holds codec log stack) (s : σ) : ∃ log', OnDisk.executeUndo codec undo ts log s =
        ((undoAll undo ts stack s).1, log', (undoAll undo ts stack s).2.2) ∧
      Holds codec log' (undoAll undo ts stack s).2.1 := by
  induction stack generalizing log s with
  | nil =>
    have ⟨log', hnext, hholds⟩ := h.executeNext_nil undo ts s
    refine ⟨log', ?_, hholds⟩
    rw [OnDisk.executeUndo, hnext]
    rfl
  | cons entry stack ind =>
    rw [OnDisk.executeUndo, undoAll]
    rcases hundo : undo entry ts s with ⟨_ | _, s'⟩
    · have ⟨log', hnext, hholds⟩ := h.executeNext_error undo ts hundo
      rw [hnext]
      exact ⟨log', rfl, hholds⟩
    · have ⟨log', hnext, hholds⟩ := h.executeNext_ok undo ts hundo
      rw [hnext]
      exact ind hholds s'

-- A given number of entries is undone, and those below them stay.
theorem Holds.executeTimes {count : ℕ} (h : Holds codec log stack) (hcount : count ≤ stack.length) (s : σ) :
    let (result, left, s') := undoAll undo ts (stack.take count) s
    ∃ log', OnDisk.executeTimes codec undo ts count log s = (result, log', s') ∧
      Holds codec log' (left ++ stack.drop count) := by
  induction count generalizing log stack s with
  | zero => exact ⟨log, rfl, h⟩
  | succ count ind =>
    cases stack with
    | nil => simp at hcount
    | cons entry stack =>
      rw [OnDisk.executeTimes, take_succ_cons, drop_succ_cons, undoAll]
      rcases hundo : undo entry ts s with ⟨_ | _, s'⟩
      · have ⟨log', hnext, hholds⟩ := h.executeNext_error undo ts hundo
        rw [hnext]
        exact ⟨log', rfl, by simpa using hholds⟩
      · have ⟨log', hnext, hholds⟩ := h.executeNext_ok undo ts hundo
        rw [hnext]
        exact ind hholds (by simpa using hcount) s'

end

theorem Holds.step (h : Holds codec state.1 stack) (hfits : WriteFits codec state op) :
    (OnDisk.step codec undo state op).1 = (stackStep undo (stack, state.2) op).1 ∧
      Holds codec (OnDisk.step codec undo state op).2.1 (stackStep undo (stack, state.2) op).2.1 ∧
      (OnDisk.step codec undo state op).2.2 = (stackStep undo (stack, state.2) op).2.2 := by
  cases op with
  | add entry =>
    have ⟨log', hadd, hholds⟩ := h.add entry hfits
    simp only [OnDisk.step, hadd]
    exact ⟨rfl, hholds, rfl⟩
  | pop =>
    have ⟨log', hpop, hholds⟩ := h.pop
    simp only [OnDisk.step, hpop]
    exact ⟨rfl, hholds, rfl⟩
  | executeUndo ts =>
    have ⟨log', hundo, hholds⟩ := h.executeUndo undo ts state.2
    simp only [OnDisk.step, hundo]
    exact ⟨rfl, hholds, rfl⟩
  | executeUndoFromIndex ts startIndex =>
    simp only [OnDisk.step, OnDisk.executeUndoFromIndex, stackStep, h.counted]
    split
    case isTrue => exact ⟨rfl, h, rfl⟩
    case isFalse =>
      have ⟨log', hundo, hholds⟩ := h.executeTimes undo ts (Nat.sub_le stack.length startIndex) state.2
      rw [hundo]
      exact ⟨rfl, hholds, rfl⟩
  | clear => exact ⟨rfl, .clear state.1, rfl⟩

-- The log answers as the stack does, its target is left in the same state, and the entries that remain
-- are those of the stack.
theorem refines_stack (codec : UndoCodec ε) (undo : ε → Timestamp → σ → UndoLogResult Unit × σ)
    (memoryOverflowThreshold : ℕ) (s : σ) {ops : List (UndoOp ε)}
    (hio : Trace.Meets (OnDisk.step codec undo) (WriteFits codec) (.new memoryOverflowThreshold, s) ops) :
    let disk := Trace.trace (OnDisk.step codec undo) (.new memoryOverflowThreshold, s) ops
    let stack := Trace.trace (stackStep undo) ([], s) ops
    disk.1 = stack.1 ∧ disk.2.2 = stack.2.2 ∧ Holds codec disk.2.1 stack.2.1 ∧
      disk.2.1.len = stack.2.1.length ∧ disk.2.1.isEmpty = stack.2.1.isEmpty := by
  let R (a : OnDisk ε × σ) (b : List ε × σ) : Prop := Holds codec a.1 b.1 ∧ a.2 = b.2
  have hstep {a b op} (h : R a b) (hfits : WriteFits codec a op) :
      (OnDisk.step codec undo a op).1 = (stackStep undo b op).1 ∧
        R (OnDisk.step codec undo a op).2 (stackStep undo b op).2 := by
    rcases a with ⟨log, s⟩
    rcases b with ⟨stack, s'⟩
    obtain ⟨hholds, rfl⟩ : Holds codec log stack ∧ s = s' := h
    exact hholds.step hfits
  have hnew : R (.new memoryOverflowThreshold, s) ([], s) := ⟨.new memoryOverflowThreshold, rfl⟩
  have ⟨hanswers, hholds, htarget⟩ := Trace.trace_eq hstep hnew hio
  refine ⟨hanswers, htarget, hholds, hholds.counted, ?_⟩
  rw [isEmpty, hholds.counted, Bool.eq_iff_iff, decide_eq_true_eq, length_eq_zero_iff, List.isEmpty_iff]

def byteCodec : UndoCodec UInt8 where
  toBytes entry := [entry]
  fromBytes
    | [entry] => .ok entry
    | _ => .error "Hit the end of buffer, expected more data"
  from_bytes _ := rfl

-- Three entries of which every second one is spilled. The newest one is popped, and of the others one
-- cannot be undone.
theorem refines_stack_bytes :
    let undo (entry : UInt8) (_ : Timestamp) (undone : List UInt8) : UndoLogResult Unit × List UInt8 :=
      if entry = 1 then (.error (.undoFailed "missing vertex"), undone) else (.ok (), undone ++ [entry])
    let ops := [.add 1, .add 2, .add 3, .pop, .executeUndo 7]
    let disk := Trace.trace (OnDisk.step byteCodec undo) (.new 2, []) ops
    disk.1 = [.ok none, .ok none, .ok none, .ok (some 3), .error (.undoFailed "missing vertex")] ∧
      disk.2.2 = [2] ∧ disk.2.1.len = 1 := by
  intro undo ops disk
  have hio : Trace.Meets (OnDisk.step byteCodec undo) (WriteFits byteCodec) (.new 2, []) ops :=
    ⟨nofun, fun _ => by decide, nofun, trivial, trivial, trivial⟩
  have ⟨hanswers, hundone, _, hlen, _⟩ := refines_stack byteCodec undo 2 [] hio
  exact ⟨hanswers.trans rfl, hundone.trans rfl, hlen.trans rfl⟩

end OnDisk

end FileBackedUndoLog

end Linkrs
