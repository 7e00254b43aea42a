import Mathlib.Data.List.Basic
import Mathlib.Tactic.Linarith
import Linkrs.Core.Ids

namespace Linkrs

-- An error of the undo log by its displayed text.
structure UndoLogError where
  message : String
  deriving DecidableEq, Repr

def UndoLogError.undoFailed (reason : String) : UndoLogError :=
  ⟨s!"Undo operation failed: {reason}"⟩

abbrev UndoLogResult := Except UndoLogError

-- The position of the storage's staging buffer at a savepoint.
structure StagedWriteMark where
  stagingJournalLen : ℕ
  stagingIndexLen : ℕ
  stagedWalLen : ℕ
  deriving DecidableEq, Repr

-- What an undo log works with: the target that undoes its entries, and the file that its blocks are
-- spilled to. Each of them may fail.
structure UndoTarget (ε σ : Type) where
  undo : ε → Timestamp → σ → UndoLogResult Unit × σ
  rollbackStagedWrites : TransactionId → StagedWriteMark → σ → UndoLogResult Unit × σ
  writeBlock : List ε → σ → UndoLogResult Unit × σ
  readBlock : List ε → σ → UndoLogResult Unit × σ

structure UndoTarget.Faultless {ε σ : Type} (target : UndoTarget ε σ) : Prop where
  undo : ∀ entry ts s, (target.undo entry ts s).1 = .ok ()
  rollbackStagedWrites : ∀ id mark s, (target.rollbackStagedWrites id mark s).1 = .ok ()
  readBlock : ∀ block s, (target.readBlock block s).1 = .ok ()

-- Entries and blocks are listed with the newest first.
structure FileBackedUndoLog (ε : Type) where
  buffer : List ε
  blocks : List (List ε)
  totalEntries : ℕ
  threshold : ℕ
  counted : totalEntries = (buffer ++ blocks.flatten).length
  filled : [] ∉ blocks

namespace FileBackedUndoLog

variable {ε σ : Type} (target : UndoTarget ε σ) (log : FileBackedUndoLog ε)

def new (memoryOverflowThreshold : ℕ) : FileBackedUndoLog ε where
  buffer := []
  blocks := []
  totalEntries := 0
  threshold := max memoryOverflowThreshold 1
  counted := rfl
  filled := by simp

def len : ℕ :=
  log.totalEntries

def entries : List ε :=
  log.buffer ++ log.blocks.flatten

def push (entry : ε) : FileBackedUndoLog ε :=
  { log with
    buffer := entry :: log.buffer
    totalEntries := log.totalEntries + 1
    counted := by simp [log.counted] }

def spilled (h : log.buffer ≠ []) : FileBackedUndoLog ε :=
  { log with
    buffer := []
    blocks := log.buffer :: log.blocks
    counted := by simp [log.counted]
    filled := by simpa [Ne.symm h] using log.filled }

-- An entry whose block cannot be spilled stays in the buffer.
def add (entry : ε) (s : σ) : UndoLogResult Unit × FileBackedUndoLog ε × σ :=
  if log.threshold ≤ (log.push entry).buffer.length then
    match target.writeBlock (log.push entry).buffer s with
    | (.error e, s) => (.error e, log.push entry, s)
    | (.ok (), s) => (.ok (), (log.push entry).spilled (by simp [push]), s)
  else
    (.ok (), log.push entry, s)

-- The newest entry comes from the buffer, or from the last block, whose other entries then become
-- the buffer.
def pop (s : σ) : UndoLogResult (Option ε) × FileBackedUndoLog ε × σ :=
  match hb : log.buffer, hk : log.blocks with
  | entry :: buffer, _ =>
    (.ok (some entry), { log with
      buffer := buffer
      totalEntries := log.totalEntries - 1
      counted := by simp [log.counted, hb] }, s)
  | [], [] => (.ok none, log, s)
  | [], [] :: _ => (.error (.undoFailed "Undo spill block contains no entries"), log, s)
  | [], (entry :: buffer) :: blocks =>
    match target.readBlock (entry :: buffer) s with
    | (.error e, s) => (.error e, log, s)
    | (.ok (), s) =>
      (.ok (some entry), { log with
        buffer := buffer
        blocks := blocks
        totalEntries := log.totalEntries - 1
        counted := by simp [log.counted, hb, hk]
        filled := by have := log.filled; simp_all }, s)

-- An entry that cannot be undone is kept.
def executeNext (ts : Timestamp) (s : σ) : UndoLogResult Bool × FileBackedUndoLog ε × σ :=
  match log.pop target s with
  | (.error e, log, s) => (.error e, log, s)
  | (.ok none, log, s) => (.ok false, log, s)
  | (.ok (some entry), log, s) =>
    match target.undo entry ts s with
    | (.ok (), s) => (.ok true, log, s)
    | (.error e, s) => (.error e, log.push entry, s)

def executeTimes (ts : Timestamp) : ℕ → FileBackedUndoLog ε → σ → UndoLogResult Unit × FileBackedUndoLog ε × σ
  | 0, log, s => (.ok (), log, s)
  | n + 1, log, s =>
    match log.executeNext target ts s with
    | (.error e, log, s) => (.error e, log, s)
    | (.ok false, log, s) =>
      (.error (.undoFailed "Unexpected: not enough entries during undo"), log, s)
    | (.ok true, log, s) => executeTimes ts n log s

def invalidIndex (startIndex len : ℕ) : UndoLogError :=
  .undoFailed s!"Invalid undo log rollback index: {startIndex}, undo log length: {len}"

def executeUndoFromIndex (ts : Timestamp) (startIndex : ℕ) (s : σ) :
    UndoLogResult Unit × FileBackedUndoLog ε × σ :=
  if log.totalEntries < startIndex then
    (.error (invalidIndex startIndex log.totalEntries), log, s)
  else
    executeTimes target ts (log.totalEntries - startIndex) log s

variable {target log} {log' : FileBackedUndoLog ε} {s s' : σ} {ts : Timestamp}

theorem len_eq : log.len = log.entries.length :=
  log.counted

@[simp]
theorem entries_push {entry : ε} : (log.push entry).entries = entry :: log.entries :=
  rfl

@[simp]
theorem entries_spilled (h : log.buffer ≠ []) : (log.spilled h).entries = log.entries := by
  simp [entries, spilled]

theorem entries_add : (log.add target entry s).2.1.entries = entry :: log.entries := by
  simp only [add]
  split
  case isFalse => rfl
  case isTrue =>
    split
    case h_1 => rfl
    case h_2 => exact entries_spilled (List.cons_ne_nil entry log.buffer)

-- What `pop` does: it takes the newest entry, or finds none, or fails and changes nothing.
theorem pop_spec (h : log.pop target s = (r, log', s')) :
    (∃ entry, r = .ok (some entry) ∧ log.entries = entry :: log'.entries) ∨
    (r = .ok none ∧ log' = log ∧ log.entries = []) ∨ (∃ e, r = .error e ∧ log' = log ∧ ¬target.Faultless) := by
  simp only [pop] at h
  split at h
  case h_1 entry buffer hb =>
    cases h
    exact .inl ⟨entry, rfl, by simp [entries, hb]⟩
  case h_2 hb hk =>
    cases h
    exact .inr (.inl ⟨rfl, rfl, by simp [entries, hb, hk]⟩)
  case h_3 blocks _ hk =>
    exact absurd log.filled (by simp [hk])
  case h_4 entry buffer blocks hb hk =>
    split at h
    case h_1 e _ hr =>
      cases h
      refine .inr (.inr ⟨e, rfl, rfl, fun hf => ?_⟩)
      have := hf.readBlock (entry :: buffer) s
      simp [hr] at this
    case h_2 =>
      cases h
      exact .inl ⟨entry, rfl, by simp [entries, hb, hk]⟩

theorem executeNext_spec (h : log.executeNext target ts s = (r, log', s')) :
    (∃ entry, r = .ok true ∧ log.entries = entry :: log'.entries) ∨
    (r = .ok false ∧ log'.entries = log.entries ∧ log.entries = []) ∨
    (∃ e, r = .error e ∧ log'.entries = log.entries ∧ ¬target.Faultless) := by
  simp only [executeNext] at h
  split at h
  case h_1 e log₁ s₁ hp =>
    cases h
    rcases pop_spec hp with ⟨_, hr, _⟩ | ⟨hr, _⟩ | ⟨_, _, rfl, hf⟩
    · cases hr
    · cases hr
    · exact .inr (.inr ⟨e, rfl, rfl, hf⟩)
  case h_2 log₁ s₁ hp =>
    cases h
    rcases pop_spec hp with ⟨_, hr, _⟩ | ⟨_, rfl, he⟩ | ⟨_, hr, _⟩
    · cases hr
    · exact .inr (.inl ⟨rfl, rfl, he⟩)
    · cases hr
  case h_3 entry log₁ s₁ hp =>
    have he : log.entries = entry :: log₁.entries := by
      rcases pop_spec hp with ⟨_, hr, he⟩ | ⟨hr, _⟩ | ⟨_, hr, _⟩
      · cases hr; exact he
      · cases hr
      · cases hr
    split at h
    case h_1 =>
      cases h
      exact .inl ⟨entry, rfl, he⟩
    case h_2 e _ hu =>
      cases h
      refine .inr (.inr ⟨e, rfl, by simp [he], fun hf => ?_⟩)
      have := hf.undo entry ts s₁
      simp [hu] at this

theorem executeTimes_spec (hn : n ≤ log.entries.length) (h : executeTimes target ts n log s = (r, log', s')) :
    log.entries.drop n <:+ log'.entries ∧ log'.entries <:+ log.entries ∧
      (r = .ok () → log'.entries = log.entries.drop n) ∧ (target.Faultless → r = .ok ()) := by
  induction n generalizing log s with
  | zero =>
    cases h
    simp
  | succ n ind =>
    simp only [executeTimes] at h
    split at h
    case h_1 e log₁ s₁ hx =>
      cases h
      rcases executeNext_spec hx with ⟨_, hr, _⟩ | ⟨hr, _⟩ | ⟨_, _, he, hf⟩
      · cases hr
      · cases hr
      · rw [he]
        exact ⟨List.drop_suffix .., List.suffix_rfl, nofun, fun h => absurd h hf⟩
    case h_2 log₁ s₁ hx =>
      rcases executeNext_spec hx with ⟨_, hr, _⟩ | ⟨_, _, he⟩ | ⟨_, hr, _⟩
      · cases hr
      · simp [he] at hn
      · cases hr
    case h_3 log₁ s₁ hx =>
      rcases executeNext_spec hx with ⟨entry, _, he⟩ | ⟨hr, _⟩ | ⟨_, hr, _⟩
      · rw [he] at hn ⊢
        have ⟨h₁, h₂, h₃, h₄⟩ := ind (Nat.le_of_succ_le_succ hn) h
        exact ⟨h₁, h₂.trans (List.suffix_cons ..), h₃, h₄⟩
      · cases hr
      · cases hr

-- Undoing down to an index leaves the entries that were there before it. A failure leaves some more.
theorem executeUndoFromIndex_spec (hk : kept <:+ log.entries) (hs : kept.length = start)
    (h : log.executeUndoFromIndex target ts start s = (r, log', s')) :
    kept <:+ log'.entries ∧ log'.entries <:+ log.entries ∧
      (r = .ok () → log'.entries = kept) ∧ (target.Faultless → r = .ok ()) := by
  have hl : log.totalEntries = log.entries.length := log.counted
  have hle := hk.length_le
  rw [executeUndoFromIndex, if_neg (by omega)] at h
  have hd : log.entries.drop (log.totalEntries - start) = kept := by
    rw [hl, ← hs]
    exact (List.suffix_iff_eq_drop.mp hk).symm
  have := executeTimes_spec (by omega) h
  rwa [hd] at this

end FileBackedUndoLog
end Linkrs
