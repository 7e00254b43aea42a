import Linkrs.Mvcc.VersionManager
import Linkrs.Wal.Recovery

namespace Linkrs

open List

-- A row's creation stamp, and its deletion stamp if it has been deleted.
structure RowStamps where
  createTs : Timestamp
  deleteTs : Option Timestamp

def RowStamps.stamps (row : RowStamps) : List Timestamp :=
  row.createTs :: row.deleteTs.toList

-- The latest published checkpoint with the tables that it restores.
structure Checkpoint where
  lsn : Lsn
  timestamp : Timestamp
  rows : List RowStamps

-- What the startup finds on disk. `rows` are the tables in the main data directory, `versionMeta`
-- is the mark that a save writes next to them and `wal` is the outcome of parsing the log
-- directory, if there is one.
structure WorkDir where
  checkpoint : Option Checkpoint
  rows : List RowStamps
  versionMeta : Option Timestamp
  wal : Option (WalResult RecoveryResult)
  durableOutbox : Bool

-- `checkpointing` is the outcome of writing a checkpoint. Without a persistence coordinator there
-- is nothing to write one.
structure StorageContext where
  checkpointing : Option (StorageResult Unit)
  applier : RecoveryApplier
  now : Instant

structure Started where
  stats : Option RecoveryStats
  rows : List RowStamps
  versionManager : VersionManager

def VersionManagerError.message : VersionManagerError → String
  | .invalidTimestamp ts => s!"Invalid timestamp: {ts}"
  | .timestampExhausted  => "Timestamp space exhausted"

def commitWriteTimestampOrdered (vm : VersionManager) (start : Timestamp) (now : Instant) :
    StorageResult (Timestamp × VersionManager) :=
  match vm.commitOrdered start now with
  | .ok committed => .ok committed
  | .error (.invalidTimestamp _) => .ok (start, vm)
  | .error error => .error ⟨.dbError, error.message⟩

section

variable (codec : WalCodec) (ctx : StorageContext) (disk : WorkDir)

-- A failure aborts the timestamp and is passed on, so no caller sees the clock after it.
def createCheckpoint (vm : VersionManager) : StorageResult VersionManager :=
  match ctx.checkpointing with
  | none => return vm
  | some outcome => do
    let (ts, vm) ← (vm.tryNextWriteTimestamp ctx.now).mapError (⟨.dbError, ·.message⟩)
    outcome
    let (_, vm) ← commitWriteTimestampOrdered vm ts ctx.now
    return vm

namespace WorkDir

def restoreFullStateFromDisk (vm : VersionManager) : List RowStamps × VersionManager :=
  (disk.rows, vm.initTs (max (disk.versionMeta.getD 1) 1))

def loadLatestCheckpoint : Option Checkpoint :=
  if ctx.checkpointing.isSome then disk.checkpoint else none

def bootstrapFromDisk (vm : VersionManager) : List RowStamps × VersionManager :=
  match disk.loadLatestCheckpoint ctx with
  | some info => (info.rows, vm.initTs info.timestamp)
  | none =>
    let (rows, vm) := disk.restoreFullStateFromDisk vm
    (rows, vm.initTs 1)

def needsRecovery : Bool :=
  match disk.wal with
  | none => false
  | some (.ok result) => (disk.checkpoint.map (·.lsn)).getD 0 < result.lastLsn
  | some (.error _) => true

def recoveryConfig : RecoveryConfig where
  startLsn := disk.checkpoint.map (·.lsn)

-- A log directory that is not there is created and has no files.
def parseWalFiles : WalResult RecoveryResult :=
  disk.wal.getD (.ok {})

def finishRecovery (vm : VersionManager) : StorageResult (RecoveryStats × VersionManager) := do
  let stats ←
    RecoveryManager.recoverWithApplier codec disk.recoveryConfig ctx.applier disk.parseWalFiles
  ctx.applier.replayDeferredEdges
  let vm := if vm.writeTs ≤ stats.maxTimestamp then vm.initTs stats.maxTimestamp else vm
  let vm ← (if disk.durableOutbox then .ok vm else createCheckpoint ctx vm)
  return (stats, vm.initTs vm.readTs)

def initializeWithRecovery (vm : VersionManager) : StorageResult Started :=
  let (rows, vm) := disk.bootstrapFromDisk ctx vm
  if !disk.needsRecovery then
    return ⟨none, rows, vm⟩
  else do
    let (stats, vm) ← disk.finishRecovery codec ctx vm
    return ⟨stats, rows, vm⟩

end WorkDir

end

namespace VersionManager

variable {vm vm' : VersionManager} {ts start : Timestamp} {now : Instant}

theorem tryNextWriteTimestamp_ok (h : vm.tryNextWriteTimestamp now = .ok (ts, vm')) :
    ts = vm.writeTs + 1 ∧ vm' = { vm with writeTs := ts }.openSlot ts now :=
  acquireInsertTimestamp_ok h

-- Slots above the frontier: two settled ones and then none. The frontier moves over the two.
theorem readTs_advanceReadFrontier_two (h₁ : vm.Settled (vm.readTs + 1))
    (h₂ : vm.Settled (vm.readTs + 2)) (h₃ : ¬vm.Settled (vm.readTs + 3)) :
    vm.advanceReadFrontier.readTs = vm.readTs + 2 := by
  have hn := vm.not_settled_advanceReadFrontier
  have hl := vm.readTs_le_advanceReadFrontier
  have ne₀ : vm.advanceReadFrontier.readTs ≠ vm.readTs := fun he => hn (he ▸ h₁)
  have ne₁ : vm.advanceReadFrontier.readTs ≠ vm.readTs + 1 := fun he => hn (he ▸ h₂)
  have hu : vm.advanceReadFrontier.readTs < vm.readTs + 3 := by
    by_contra hc
    exact h₃ <| settled_of_advanceReadFrontier (by lia) (by lia)
  lia

theorem reserveTimestamp_error (h : vm.reserveTimestamp = .error error) : error = .timestampExhausted := by
  simp only [reserveTimestamp] at h
  grind

theorem commitOrdered_ne_invalidTimestamp (h : vm.slot start = some .pending) :
    vm.commitOrdered start now ≠ .error (.invalidTimestamp ts) := by
  intro he
  cases hr : vm.reserveTimestamp with
  | error e =>
    simp [commitOrdered, reserveCommitTimestamp, h, hr, reserveTimestamp_error hr] at he
  | ok p =>
    simp [commitOrdered, reserveCommitTimestamp, h, hr] at he

theorem slot_settleCommit_of_pending (h : vm.slot commit = some .pending) :
    (vm.settleCommit commit now).slot t = if t = commit then some .committed else vm.slot t := by
  have ⟨_, ha⟩ := slot_pending_iff.mp h
  simp [settleCommit, ha]

theorem commitOrdered_single (hr : start = vm.readTs + 1)
    (hw : vm.writeTs = start) (hs : ∀ t, vm.slot t = if t = start then some .pending else none)
    (h : vm.commitOrdered start now = .ok (commit, vm')) : vm'.readTs = start + 1 := by
  have ⟨⟨_, vm₁⟩, ho, hc⟩ := Except.bind_eq_ok.mp h
  have ⟨_, ht, hvm⟩ := reserveCommitTimestamp_ok ho
  cases hc
  have hs₁ (t : Timestamp) : vm₁.slot t =
      if t = start + 1 then some .pending else if t = start then some .pending else none := by
    rw [hvm, slot_insertSlot, ht, hw, ← hs t]
    rfl
  have hs₂ (t : Timestamp) :
      ((vm₁.settleSlot start .committed).settleCommit commit now).slot t =
        if t = start + 1 ∨ t = start then some .committed else none := by
    rw [slot_settleCommit_of_pending (by simp [hs₁, ht, hw])]
    simp only [slot_settleSlot, hs₁, ht, hw]
    grind
  have hr₁ : vm₁.readTs = vm.readTs := by rw [hvm]; rfl
  have := @readTs_advanceReadFrontier_two
    ((vm₁.settleSlot start .committed).settleCommit commit now)
  simp only [readTs_settleCommit, readTs_settleSlot, hr₁, Settled, hs₂] at this
  rw [publishReservedCommit, this] <;> simp [hr]

end VersionManager

open VersionManager in
theorem createCheckpoint_initTs {vm vm' : VersionManager} (h : createCheckpoint ctx (vm.initTs c) = .ok vm') :
    vm'.readTs = if ctx.checkpointing.isSome then c + 2 else c := by
  simp only [createCheckpoint] at h
  split at h
  case h_1 hp => cases h; simp [hp, initTs]
  case h_2 hp =>
    have ⟨⟨ts, vm₁⟩, h₁, h⟩ := Except.bind_eq_ok.mp h
    have ⟨_, _, h⟩ := Except.bind_eq_ok.mp h
    have ⟨⟨_, vm₂⟩, h₂, h⟩ := Except.bind_eq_ok.mp h
    cases h
    have ⟨hts, hvm⟩ := tryNextWriteTimestamp_ok <| Except.mapError_eq_ok.mp h₁
    subst hvm hts
    simp only [commitWriteTimestampOrdered] at h₂
    split at h₂
    case h_1 hc =>
      cases h₂
      simp only [hp, Option.isSome_some, if_true]
      exact commitOrdered_single rfl rfl (slot_openSlot _ _ · _) hc
    case h_2 hc => exact absurd hc <| commitOrdered_ne_invalidTimestamp (by simp)
    case h_3 => contradiction

namespace WorkDir

open RecoveryManager (batches replayedBatches skips applyDryReplayFilter)

section

variable (codec : WalCodec) (ctx : StorageContext) (disk : WorkDir)

-- The part of the log that recovery works on. It is empty when there is nothing to recover.
def recoveredLog : RecoveryResult :=
  match disk.needsRecovery, disk.wal with
  | true, some (.ok result) => applyDryReplayFilter codec disk.recoveryConfig result
  | _, _ => {}

def baseTimestamp : Timestamp :=
  ((disk.loadLatestCheckpoint ctx).map (·.timestamp)).getD 1

-- The timestamps on disk that the clock is set from: the checkpoint's, or 1 without a checkpoint,
-- and those of the log that recovery replays.
def anchors : List Timestamp :=
  disk.baseTimestamp ctx :: (disk.recoveredLog codec).lastTimestamp ::
    ((batches codec (disk.recoveredLog codec)).flatten.filter (!skips disk.recoveryConfig ·)).map
      (·.header.timestamp)

-- The checkpoint at the end of recovery takes two timestamps.
def ticks : ℕ :=
  if disk.needsRecovery && !disk.durableOutbox && ctx.checkpointing.isSome then 2 else 0

def Reached (ts : Timestamp) : Prop :=
  ∃ anchor ∈ disk.anchors codec ctx, ts ≤ anchor + disk.ticks ctx

def restoredRows : List RowStamps :=
  match disk.loadLatestCheckpoint ctx with
  | some info => info.rows
  | none => disk.rows

-- No restored row is later than every anchor, and neither is an entry that recovery leaves out of a
-- transaction that it replays.
structure Anchored : Prop where
  rows : ∀ row ∈ disk.restoredRows ctx, ∀ ts ∈ row.stamps, disk.Reached codec ctx ts
  skipped : ∀ batch ∈ replayedBatches codec disk.recoveryConfig (disk.recoveredLog codec),
    ∀ e ∈ batch, skips disk.recoveryConfig e → disk.Reached codec ctx e.header.timestamp

end

variable {codec : WalCodec} {ctx : StorageContext} {disk : WorkDir} {vm vm' : VersionManager}

theorem bootstrapFromDisk_eq :
    disk.bootstrapFromDisk ctx vm = (disk.restoredRows ctx, vm.initTs (disk.baseTimestamp ctx)) := by
  simp only [bootstrapFromDisk, restoredRows, baseTimestamp]
  split
  case h_1 h => simp [h]
  case h_2 h => simp [h, restoreFullStateFromDisk, VersionManager.initTs]

-- A bound that holds for the same numbers as some member of a list is its maximum.
theorem le_add_iff_exists {marks : List ℕ} (h : ∀ n, n ≤ c ↔ ∃ m ∈ marks, n ≤ m) (k n : ℕ) :
    n ≤ c + k ↔ ∃ m ∈ marks, n ≤ m + k := by
  constructor
  case mp =>
    intro hn
    have ⟨m, hm, hc⟩ := (h c).mp le_rfl
    exact ⟨m, hm, by lia⟩
  case mpr =>
    intro ⟨m, hm, hn⟩
    have := (h m).mpr ⟨m, hm, le_rfl⟩
    lia

theorem recoveredLog_eq (hn : disk.needsRecovery) (hp : disk.parseWalFiles = .ok result) :
    disk.recoveredLog codec = applyDryReplayFilter codec disk.recoveryConfig result := by
  cases hw : disk.wal with
  | none => simp [needsRecovery, hw] at hn
  | some p =>
    have hp : p = .ok result := by simpa [parseWalFiles, hw] using hp
    simp [recoveredLog, hn, hw, hp]

theorem initTs_of_le (base ts : Timestamp) :
    (if (vm.initTs base).writeTs ≤ ts then (vm.initTs base).initTs ts else vm.initTs base) =
      vm.initTs (max base ts) := by
  split
  case isTrue h => exact congrArg vm.initTs (max_eq_right h).symm
  case isFalse h => exact congrArg vm.initTs (max_eq_left <| le_of_not_ge h).symm

theorem finishRecovery_clock (hn : disk.needsRecovery)
    (h : disk.finishRecovery codec ctx (vm.initTs (disk.baseTimestamp ctx)) = .ok (stats, vm')) :
    vm'.writeTs = vm'.readTs ∧ ∀ ts, ts ≤ vm'.readTs ↔ disk.Reached codec ctx ts := by
  have ⟨stats, hr, h⟩ := Except.bind_eq_ok.mp h
  have ⟨_, _, h⟩ := Except.bind_eq_ok.mp h
  rw [initTs_of_le] at h
  have ⟨vm₁, hv, h⟩ := Except.bind_eq_ok.mp h
  cases h
  refine ⟨rfl, ?_⟩
  -- Before the last checkpoint the clock stands at the latest anchor.
  have ⟨result, hp, hm⟩ := RecoveryManager.le_maxTimestamp_recoverWithApplier hr
  have hc (ts : Timestamp) : ts ≤ max (disk.baseTimestamp ctx) stats.maxTimestamp ↔
      ∃ anchor ∈ disk.anchors codec ctx, ts ≤ anchor := by
    simp only [le_sup_iff, hm, anchors, recoveredLog_eq hn hp, exists_mem_cons_iff,
      mem_map, exists_exists_and_eq_and]
    simp only [mem_filter, Bool.not_eq_true', and_assoc]
  have hv : vm₁.readTs = max (disk.baseTimestamp ctx) stats.maxTimestamp + disk.ticks ctx := by
    cases ho : disk.durableOutbox with
    | true =>
      simp only [ho, if_true, Except.ok.injEq] at hv
      simp [← hv, ticks, ho, VersionManager.initTs]
    | false =>
      rw [createCheckpoint_initTs (by simpa [ho] using hv)]
      cases hp : ctx.checkpointing <;> simp [ticks, hn, ho, hp]
  intro ts
  simp only [VersionManager.initTs, hv]
  exact le_add_iff_exists hc _ ts

theorem initializeWithRecovery_clock
    (h : disk.initializeWithRecovery codec ctx vm = .ok started) : started.rows = disk.restoredRows ctx ∧
    started.versionManager.writeTs = started.versionManager.readTs ∧
    ∀ ts, ts ≤ started.versionManager.readTs ↔ disk.Reached codec ctx ts := by
  simp only [initializeWithRecovery, bootstrapFromDisk_eq] at h
  split at h
  case isTrue hn =>
    cases h
    simp_all [Reached, anchors, ticks, recoveredLog, batches, RecoveryResult.hasSyncEnvelope,
      VersionManager.initTs]
  case isFalse hn =>
    obtain ⟨⟨_, _⟩, hf, h⟩ := Except.bind_eq_ok.mp h
    cases h
    exact ⟨rfl, finishRecovery_clock (by simpa using hn) hf⟩

theorem clock_reaches_stamps_iff {started : Started}
    (h : disk.initializeWithRecovery codec ctx vm = .ok started) : ((∀ row ∈ started.rows, ∀ ts ∈ row.stamps,
        ts ≤ started.versionManager.writeTs ∧ ts ≤ started.versionManager.readTs) ∧
      ∀ batch ∈ replayedBatches codec disk.recoveryConfig (disk.recoveredLog codec), ∀ e ∈ batch,
        e.header.timestamp ≤ started.versionManager.writeTs ∧
        e.header.timestamp ≤ started.versionManager.readTs) ↔ disk.Anchored codec ctx := by
  have ⟨hr, hw, hc⟩ := initializeWithRecovery_clock h
  simp only [hr, hw, hc, and_self]
  constructor
  case mp => exact fun ⟨hr, hb⟩ => ⟨hr, fun batch hm e he _ => hb batch hm e he⟩
  case mpr =>
    intro ha
    refine ⟨ha.rows, fun batch hm e he => ?_⟩
    cases hs : skips disk.recoveryConfig e with
    | true => exact ha.skipped batch hm e he hs
    | false =>
      have hf : e ∈ (batches codec (disk.recoveredLog codec)).flatten :=
        mem_flatten.mpr ⟨batch, mem_of_mem_filter hm, he⟩
      refine ⟨e.header.timestamp, ?_, Nat.le_add_right ..⟩
      simp only [anchors, mem_cons, mem_map, mem_filter]
      exact .inr <| .inr ⟨e, ⟨hf, by simp [hs]⟩, rfl⟩

instance {ts : Timestamp} : Decidable (disk.Reached codec ctx ts) :=
  inferInstanceAs <| Decidable <| ∃ anchor ∈ disk.anchors codec ctx, ts ≤ anchor + disk.ticks ctx

-- Every redo entry can be applied and a checkpoint can be written.
def healthy : StorageContext where
  checkpointing := some (.ok ())
  applier := { replay := fun _ _ => .ok (), replayDeferredEdges := .ok () }
  now := 0

-- A checkpoint between two transactions, of which the second one is only in the log.
def withCheckpoint : WorkDir where
  checkpoint := some { lsn := 138, timestamp := 5, rows := [⟨2, some 4⟩, ⟨3, none⟩] }
  rows := []
  versionMeta := none
  wal := some <| .ok {
    allEntries := ((insertBatch 1).logged 0).parsedEntries ++
      ((insertBatch 2).logged 138).parsedEntries
    lastTimestamp := 7
    lastLsn := 276 }
  durableOutbox := false

theorem clock_reaches_stamps_with_checkpoint :
    ∃ started, withCheckpoint.initializeWithRecovery postcardCodec healthy .new = .ok started ∧
    (∀ row ∈ started.rows, ∀ ts ∈ row.stamps,
      ts ≤ started.versionManager.writeTs ∧ ts ≤ started.versionManager.readTs) ∧
    ∀ batch ∈ replayedBatches postcardCodec withCheckpoint.recoveryConfig
        (withCheckpoint.recoveredLog postcardCodec),
      ∀ e ∈ batch, e.header.timestamp ≤ started.versionManager.writeTs ∧
        e.header.timestamp ≤ started.versionManager.readTs := by
  have ⟨started, h⟩ : ∃ started, withCheckpoint.initializeWithRecovery postcardCodec healthy .new =
      .ok started := Except.isOk_iff.mp (by decide +kernel)
  exact ⟨started, h, (clock_reaches_stamps_iff h).mpr ⟨by decide +kernel, by decide +kernel⟩⟩

-- Tables that were saved without a checkpoint, next to the mark that their save wrote. There is no
-- log.
def savedTables : WorkDir where
  checkpoint := none
  rows := [⟨5, none⟩]
  versionMeta := some 5
  wal := none
  durableOutbox := false

theorem clock_reaches_stamps_violated :
    ∃ started, savedTables.initializeWithRecovery postcardCodec healthy .new = .ok started ∧
    ∃ row ∈ started.rows, ∃ ts ∈ row.stamps,
      started.versionManager.writeTs < ts ∧ started.versionManager.readTs < ts :=
  ⟨_, rfl, _, mem_singleton_self _, 5, by decide, by decide, by decide⟩

end WorkDir

end Linkrs
