import Mathlib.Data.List.DropRight
import Linkrs.Core.Error
import Linkrs.Wal.Commit
import Linkrs.Wal.Directory

namespace Linkrs

-- `{:#018x}`: sixteen hexadecimal digits after `0x`.
def Lsn.display (lsn : Lsn) : String :=
  "LSN(0x" ++ String.ofList ((Nat.toDigits 16 lsn).leftpad 16 '0') ++ ")"

namespace ParsedWalEntry

def isCommit (entry : ParsedWalEntry) : Bool :=
  WalOpType.tryFrom entry.header.opType = some .transactionCommit

-- An entry that only a log with transaction envelopes has.
def isSyncEnvelope (entry : ParsedWalEntry) : Bool :=
  match WalOpType.tryFrom entry.header.opType with
  | some .outboxIntent | some .transactionCommit | some .transactionAbort => true
  | _ => false

end ParsedWalEntry

def RecoveryResult.hasSyncEnvelope (result : RecoveryResult) : Bool :=
  result.allEntries.any (·.isSyncEnvelope)

-- Without the fields that are only reported.
structure DryReplayResult where
  consistentEntries : List ParsedWalEntry := []
  lastConsistentLsn : Lsn := 0
  lastConsistentTimestamp : Timestamp := 0
  truncatedTail : ℕ := 0
  corruptedCount : ℕ := 0

-- Dropping from the right up to the last commit record leaves it at the end.
def scanForLastCommitFallback (result : RecoveryResult) : DryReplayResult :=
  let entries := result.allEntries.rdropWhile (!·.isCommit)
  match entries.getLast? with
  | some commit => {
      consistentEntries := entries
      lastConsistentLsn := commit.lsn
      lastConsistentTimestamp := commit.header.timestamp
      truncatedTail := result.allEntries.length - entries.length
      corruptedCount := result.corruptedCount }
  | none => {
      truncatedTail := result.allEntries.length
      corruptedCount := result.corruptedCount }

-- The result for a log whose last complete transaction is `last`.
def cutAfterCommit (result : RecoveryResult) (last : CommittedWalTransaction) : DryReplayResult :=
  let cutoff := match result.allEntries.findIdx? (·.lsn = last.commitLsn) with
    | some position => position + 1
    | none => result.allEntries.length
  { consistentEntries := result.allEntries.take cutoff
    lastConsistentLsn := last.commitLsn
    lastConsistentTimestamp := (last.redoEntries.head?.map (·.header.timestamp)).getD 0
    truncatedTail := result.allEntries.length - cutoff
    corruptedCount := result.corruptedCount }

def findLastConsistentCommit (codec : WalCodec) (result : RecoveryResult)
    (throwOnCorruption : Bool) : DryReplayResult :=
  if result.allEntries = [] || (throwOnCorruption && 0 < result.corruptedCount) then
    { corruptedCount := result.corruptedCount }
  else if !result.hasSyncEnvelope then
    { consistentEntries := result.allEntries
      lastConsistentLsn := result.lastLsn
      lastConsistentTimestamp := result.lastTimestamp
      corruptedCount := result.corruptedCount }
  else
    match collectCommittedTransactions codec result.allEntries with
    | .error _ => scanForLastCommitFallback result
    | .ok committed =>
      match committed.getLast? with
      | some last => cutAfterCommit result last
      | none =>
        if !throwOnCorruption && !result.allEntries.any (·.isCommit) then
          { truncatedTail := result.allEntries.length
            corruptedCount := result.corruptedCount }
        else
          scanForLastCommitFallback result

structure RecoveryConfig where
  startLsn : Option Lsn := none
  throwOnWalReplayFailure : Bool := false

-- Without the counters that recovery never sets or only reports.
structure RecoveryStats where
  walEntriesReplayed : ℕ := 0
  errorsEncountered : ℕ := 0
  lastLsn : Lsn := 0
  maxTimestamp : Timestamp := 0
  maxTransactionId : TransactionId := 0
  deriving DecidableEq, Repr

-- The storage side of recovery. It decodes a redo entry and applies it at the entry's timestamp.
structure RecoveryApplier where
  replay : WalOpType → ParsedWalEntry → StorageResult Unit
  replayDeferredEdges : StorageResult Unit

namespace RecoveryManager

variable (codec : WalCodec) (config : RecoveryConfig) (applier : RecoveryApplier)

def applyDryReplayFilter (result : RecoveryResult) : RecoveryResult :=
  if config.throwOnWalReplayFailure then
    result
  else
    let dry := findLastConsistentCommit codec result config.throwOnWalReplayFailure
    { allEntries := dry.consistentEntries
      lastTimestamp := dry.lastConsistentTimestamp
      lastLsn := dry.lastConsistentLsn
      corruptedCount := dry.corruptedCount
      skippedCount := dry.truncatedTail }

def transactionId? (entry : ParsedWalEntry) : Option TransactionId :=
  match WalOpType.tryFrom entry.header.opType with
  | some .outboxIntent => (codec.decodeIntent entry.payload).toOption.map (·.transactionId)
  | some .transactionCommit => (codec.decodeCommit entry.payload).toOption.map (·.transactionId)
  | some .transactionAbort => (codec.decodeAbort entry.payload).toOption.map (·.transactionId)
  | _ => none

def maxTransactionId (result : RecoveryResult) : TransactionId :=
  (result.allEntries.filterMap (transactionId? codec)).max?.getD 0

-- The checkpoint that recovery starts from covers the entry.
def skips (entry : ParsedWalEntry) : Bool :=
  config.startLsn.any (entry.lsn ≤ ·)

def replayEntry (stats : RecoveryStats) (entry : ParsedWalEntry) : StorageResult RecoveryStats :=
  if skips config entry then
    return stats
  else do
    let op ← (WalOpType.parse entry.header.opType).mapError fun error =>
      let lsn := Lsn.display entry.lsn
      let reason := error.message
      ⟨.walError, s!"Invalid WAL operation at {lsn}: {reason}"⟩
    let stats := { stats with maxTimestamp := max stats.maxTimestamp entry.header.timestamp }
    match op with
    | .outboxIntent | .transactionCommit | .transactionAbort => return stats
    | .compact =>
      applier.replay op entry
      return { stats with walEntriesReplayed := stats.walEntriesReplayed + 1 }
    | _ =>
      applier.replay op entry
      return { stats with
        walEntriesReplayed := stats.walEntriesReplayed + 1
        lastLsn := entry.lsn }

def replayParsedEntries (stats : RecoveryStats) (entries : List ParsedWalEntry) : StorageResult RecoveryStats :=
  entries.foldlM (replayEntry config applier) stats

def replayTransaction (stats : RecoveryStats) (transaction : CommittedWalTransaction) :
    StorageResult RecoveryStats := do
  let stats ← replayParsedEntries config applier stats transaction.redoEntries
  return { stats with lastLsn := transaction.commitLsn }

def committedTransactions (result : RecoveryResult) : StorageResult (List CommittedWalTransaction) :=
  (collectCommittedTransactions codec result.allEntries).mapError fun error =>
    let reason := error.message
    ⟨.walError, s!"Failed to validate committed WAL batches: {reason}"⟩

def replayWalEntries (stats : RecoveryStats) (result : RecoveryResult) : StorageResult RecoveryStats :=
  if !result.hasSyncEnvelope then do
    let stats ← replayParsedEntries config applier stats result.allEntries
    return { stats with lastLsn := result.lastLsn }
  else do
    let transactions ← committedTransactions codec result
    transactions.foldlM (replayTransaction config applier) stats

-- `parsed` is what `parse_parallel` makes of the log directory.
def recoverWithApplier (parsed : WalResult RecoveryResult) : StorageResult RecoveryStats := do
  let result ← parsed.mapError fun error =>
    let reason := error.message
    ⟨.dbError, s!"WAL parse error: {reason}"⟩
  let result := applyDryReplayFilter codec config result
  let stats : RecoveryStats := {
    lastLsn := config.startLsn.getD 0
    maxTimestamp := result.lastTimestamp
    maxTransactionId := maxTransactionId codec result
    errorsEncountered := result.corruptedCount + result.skippedCount }
  replayWalEntries codec config applier stats result

-- What replay takes as a unit: a committed transaction, or a single entry of a log without
-- envelopes.
def batches (result : RecoveryResult) : List (List ParsedWalEntry) :=
  if !result.hasSyncEnvelope then
    result.allEntries.map ([·])
  else
    match collectCommittedTransactions codec result.allEntries with
    | .ok transactions => transactions.map (·.redoEntries)
    | .error _ => []

-- The units of which at least one entry is replayed.
def replayedBatches (result : RecoveryResult) : List (List ParsedWalEntry) :=
  (batches codec result).filter (·.any (!skips config ·))

section

variable {codec : WalCodec} {config : RecoveryConfig} {applier : RecoveryApplier}
variable {stats stats' : RecoveryStats} {result : RecoveryResult} (ts : Timestamp)

-- The largest timestamp covers `ts` if it did before, or if a replayed entry does.
def Reaches (config : RecoveryConfig) (stats : RecoveryStats) (entries : List ParsedWalEntry)
    (ts : Timestamp) : Prop :=
  ts ≤ stats.maxTimestamp ∨ ∃ e ∈ entries, skips config e = false ∧ ts ≤ e.header.timestamp

theorem le_maxTimestamp_replayEntry (h : replayEntry config applier stats entry = .ok stats') :
    ts ≤ stats'.maxTimestamp ↔ Reaches config stats [entry] ts := by
  simp only [replayEntry] at h
  split at h
  case isTrue hs =>
    cases h
    simp [Reaches, hs]
  case isFalse hs =>
    have hm : stats'.maxTimestamp = max stats.maxTimestamp entry.header.timestamp := by
      have ⟨op, _, h⟩ := Except.bind_eq_ok.mp h
      split at h
      case h_1 | h_2 | h_3 => cases h; rfl
      case h_4 | h_5 =>
        have ⟨_, _, h⟩ := Except.bind_eq_ok.mp h
        cases h
        rfl
    simp [Reaches, hm, hs]

theorem le_maxTimestamp_replayParsedEntries (h : replayParsedEntries config applier stats entries = .ok stats') :
    ts ≤ stats'.maxTimestamp ↔ Reaches config stats entries ts := by
  induction entries generalizing stats with
  | nil => cases h; simp [Reaches]
  | cons e es ih =>
    have ⟨_, he, hs⟩ := Except.bind_eq_ok.mp h
    have := le_maxTimestamp_replayEntry ts he
    simp only [Reaches, List.mem_singleton, exists_eq_left] at this
    simp only [ih hs, Reaches, List.exists_mem_cons_iff, this, or_assoc]

theorem le_maxTimestamp_replayTransactions {transactions : List CommittedWalTransaction}
    (h : transactions.foldlM (replayTransaction config applier) stats = .ok stats') :
    ts ≤ stats'.maxTimestamp ↔ Reaches config stats (transactions.map (·.redoEntries)).flatten ts := by
  induction transactions generalizing stats with
  | nil => cases h; simp [Reaches]
  | cons t ts' ih =>
    have ⟨_, ht, hs⟩ := Except.bind_eq_ok.mp h
    have ⟨_, hr, he⟩ := Except.bind_eq_ok.mp ht
    cases he
    have := le_maxTimestamp_replayParsedEntries ts hr
    simp only [ih hs, Reaches, this, List.map_cons, List.flatten_cons, List.mem_append, or_and_right,
      exists_or, or_assoc]

theorem le_maxTimestamp_replayWalEntries (h : replayWalEntries codec config applier stats result = .ok stats') :
    ts ≤ stats'.maxTimestamp ↔ Reaches config stats (batches codec result).flatten ts := by
  simp only [replayWalEntries] at h
  split at h
  case isTrue hl =>
    have ⟨_, hr, he⟩ := Except.bind_eq_ok.mp h
    cases he
    have := le_maxTimestamp_replayParsedEntries ts hr
    simp [this, batches, hl, Reaches]
  case isFalse hl =>
    have ⟨transactions, hc, hr⟩ := Except.bind_eq_ok.mp h
    have hc := Except.mapError_eq_ok.mp hc
    simp [le_maxTimestamp_replayTransactions ts hr, batches, hl, hc]

theorem le_maxTimestamp_recoverWithApplier
    (h : recoverWithApplier codec config applier parsed = .ok stats) : ∃ result, parsed = .ok result ∧
      let result := applyDryReplayFilter codec config result
      ∀ ts, ts ≤ stats.maxTimestamp ↔ ts ≤ result.lastTimestamp ∨
        ∃ e ∈ (batches codec result).flatten, skips config e = false ∧ ts ≤ e.header.timestamp := by
  have ⟨result, hp, hr⟩ := Except.bind_eq_ok.mp h
  exact ⟨result, Except.mapError_eq_ok.mp hp, fun ts => le_maxTimestamp_replayWalEntries ts hr⟩

end

end RecoveryManager

end Linkrs
