import Linkrs.Lib.Program
import Linkrs.Manager.State

namespace Linkrs

-- The critical sections of the manager: every access to shared data is one of these. Some name the
-- transaction on whose behalf they are performed although the data they touch does not depend on it.
inductive Action where
  -- Begin
  | activeCount
  | nextId
  | acquireInsertTimestamp (t : TransactionId) (isolation : IsolationLevel)
  | loadReadTimestamp
  | addSnapshot (t : TransactionId) (ts : Timestamp) (isolation : IsolationLevel)
  | claimWriteExclusion (t : TransactionId)
  | insertActive (t : TransactionId)
  -- Recording
  | recordMutation (t : TransactionId) (mutation : MutationResult)
  | recordWrite (t : TransactionId) (access : WriteAccess)
  | recordRead (t : TransactionId) (access : ReadAccess)
  | stageWrite (t : TransactionId) (redo : List RedoEntry) (row : Bool)
  | markRollbackOnly (t : TransactionId)
  -- Contexts
  | isActive (t : TransactionId)
  | readContext (t : TransactionId)
  | checkTimeouts (t : TransactionId)
  | transitionTo (t : TransactionId) (state : TransactionState)
  | buildCommitDescriptor (t : TransactionId)
  | markCommitPublished (t : TransactionId)
  | setCommitTimestamp (t : TransactionId) (commit : Timestamp)
  | releaseWriteLease (t : TransactionId)
  | removeActive (t : TransactionId)
  -- Certification
  | checkWriteSetConflict (t : TransactionId)
  | evalCommitVetoes (t : TransactionId)
  | publish (t : TransactionId) (commit start : Timestamp) (ws : WriteSet)
  | forcePublish (t : TransactionId) (commit : Timestamp) (ws : WriteSet)
  | unregisterReads (t : TransactionId)
  | prune (oldestActiveTs : Timestamp)
  -- Timestamps
  | getSafeGcTimestamp
  | reserveCommitTimestamp (t : TransactionId) (start : Timestamp)
  | publishReservedCommit (t : TransactionId) (start commit : Timestamp)
  | allocateCommitTimestamp (t : TransactionId) (start : Timestamp)
  | abortWriteTimestamp (t : TransactionId) (ts : Timestamp)
  | releaseReadTimestampAt (ts : Timestamp)
  -- Storage
  | applyTxnStaging (t : TransactionId)
  | appendTransaction (t : TransactionId)
  | awaitDurable (t : TransactionId)
  | undoAppliedStaging (t : TransactionId)
  | abortStagedWrites (t : TransactionId)
  | finalizeCommit (t : TransactionId)
  | executeUndoLogs (t : TransactionId)
  | clearUndoLogs (t : TransactionId)
  -- Recovery queue
  | recordPending (p : PendingFinalization)
  | takePending (t : TransactionId)

@[reducible]
def Action.Answer : Action → Type
  | activeCount => ℕ
  | nextId => TransactionId
  | acquireInsertTimestamp .. => Except VersionManagerError Timestamp
  | loadReadTimestamp => Timestamp
  | claimWriteExclusion _ => Bool
  | recordMutation .. => Except TransactionError Unit
  | stageWrite .. => Except TransactionError Unit
  | isActive _ => Bool
  | readContext _ => TransactionContext
  | checkTimeouts _ => Bool
  | transitionTo .. => Except TransactionError Unit
  | buildCommitDescriptor _ => WriteSet
  | checkWriteSetConflict _ => Except TransactionError Unit
  | evalCommitVetoes _ => Bool
  | publish .. => Except TransactionError Unit
  | getSafeGcTimestamp => Timestamp
  | reserveCommitTimestamp .. => Except VersionManagerError Timestamp
  | allocateCommitTimestamp .. => Except VersionManagerError Timestamp
  | applyTxnStaging _ => Bool
  | appendTransaction _ => Bool
  | awaitDurable _ => Bool
  | finalizeCommit _ => Bool
  | executeUndoLogs _ => Bool
  | clearUndoLogs _ => Bool
  | takePending _ => Option PendingFinalization
  | _ => Unit

-- What a step takes from outside: the clock, and whether the external operation it performs, if
-- any, succeeds.
structure Env where
  now : Instant
  ok : Bool

namespace TransactionManager

variable (config : ManagerConfig)

def allocate (m : TransactionManager) : Except VersionManagerError (Timestamp × VersionManager) →
    Except VersionManagerError Timestamp × TransactionManager
  | .ok (ts, versionManager) => (.ok ts, { m with versionManager })
  | .error e => (.error e, m)

def acquireInsertTimestamp (t : TransactionId) (isolation : IsolationLevel) (now : Instant)
    (m : TransactionManager) : Except VersionManagerError Timestamp × TransactionManager :=
  match m.allocate (m.versionManager.acquireInsertTimestamp now) with
  | (.ok ts, m) => (.ok ts, m.setContext t (.new .write ts isolation config.txnConfig))
  | (.error e, m) => (.error e, m)

theorem acquireInsertTimestamp_cases (t : TransactionId) (isolation : IsolationLevel)
    (now : Instant) (m : TransactionManager) :
    (∃ ts vm, m.versionManager.acquireInsertTimestamp now = .ok (ts, vm) ∧
      m.acquireInsertTimestamp config t isolation now =
        (.ok ts, { m with versionManager := vm }.setContext t
          (.new .write ts isolation config.txnConfig))) ∨
    (∃ e, m.acquireInsertTimestamp config t isolation now = (.error e, m)) := by
  unfold acquireInsertTimestamp
  cases h : m.versionManager.acquireInsertTimestamp now with
  | error e => exact .inr ⟨e, rfl⟩
  | ok r => exact .inl ⟨r.1, r.2, rfl, rfl⟩

def claimWriteExclusion (t : TransactionId) (m : TransactionManager) : Bool × TransactionManager :=
  if m.writeExclusionOwner = none then
    (true, { m.setContext t { m.contexts t with pessimisticLockHeld := true } with
      writeExclusionOwner := some t })
  else (false, m)

def perform (env : Env) (m : TransactionManager) : (a : Action) → a.Answer × TransactionManager
  | .activeCount => (m.activeTransactions.length, m)
  | .nextId => (m.idGenerator, { m with idGenerator := m.idGenerator + 1 })
  | .acquireInsertTimestamp t isolation => m.acquireInsertTimestamp config t isolation env.now
  | .loadReadTimestamp =>
    let vm := m.versionManager
    (vm.readTs, { m with versionManager := { vm with readPending := vm.readPending + 1 } })
  | .addSnapshot t ts isolation =>
    let vm := m.versionManager
    ((), { m.setContext t (.new .readOnly ts isolation config.txnConfig) with
      versionManager := { vm with snapshotTracker := vm.snapshotTracker.addSnapshot ts } })
  | .claimWriteExclusion t => m.claimWriteExclusion t
  | .insertActive t => ((), { m with activeTransactions := t :: m.activeTransactions })
  | .recordMutation t mutation =>
    let (r, ctx) := (m.contexts t).recordMutation mutation (!env.ok)
    (r, m.setContext t ctx)
  | .recordWrite t access => ((), m.setContext t ((m.contexts t).recordWrite access))
  | .recordRead t access => ((), m.setContext t ((m.contexts t).recordRead access))
  | .stageWrite t redo row => m.stageWrite t redo row
  | .markRollbackOnly t => ((), m.setContext t { m.contexts t with rollbackOnly := true })
  | .isActive t => (decide (t ∈ m.activeTransactions), m)
  | .readContext t => (m.contexts t, m)
  | .checkTimeouts _ => (env.ok, m)
  | .transitionTo t state => m.transitionTo t state
  | .buildCommitDescriptor t => ((m.contexts t).writeSet, m)
  | .markCommitPublished t => ((), m.setContext t { m.contexts t with commitPublished := true })
  | .setCommitTimestamp t commit =>
    ((), m.setContext t { m.contexts t with commitTimestamp := commit })
  | .releaseWriteLease t => ((), m.releaseWriteLease t)
  | .removeActive t =>
    ((), { m with activeTransactions := m.activeTransactions.filter (· ≠ t) })
  | .checkWriteSetConflict t => m.checkWriteSetConflict t
  | .evalCommitVetoes _ => (env.ok, m)
  | .publish t commit start ws => m.publish t commit start ws
  | .forcePublish t commit ws =>
    ((), { m with certifier := m.certifier.forcePublish t commit ws })
  | .unregisterReads t => ((), { m with certifier := m.certifier.unregisterReads t })
  | .prune oldestActiveTs =>
    ((), { m with certifier := m.certifier.prune oldestActiveTs })
  | .getSafeGcTimestamp => (m.versionManager.getSafeGcTimestamp, m)
  | .reserveCommitTimestamp _ start =>
    m.allocate (m.versionManager.reserveCommitTimestamp start env.now)
  | .publishReservedCommit _ start commit =>
    ((), { m with
      versionManager := m.versionManager.publishReservedCommit start commit env.now })
  | .allocateCommitTimestamp _ start =>
    m.allocate (m.versionManager.allocateCommitTimestamp start env.now)
  | .abortWriteTimestamp _ ts =>
    ((), { m with versionManager := m.versionManager.abortWriteTimestamp ts })
  | .releaseReadTimestampAt ts =>
    ((), { m with versionManager := m.versionManager.releaseReadTimestampAt ts })
  | .applyTxnStaging t => m.applyTxnStaging t env.ok
  | .appendTransaction t => m.appendTransaction t env.ok
  | .awaitDurable t =>
    (env.ok, if env.ok then m.setStorage t { m.storage t with stagedWal := [] } else m)
  | .undoAppliedStaging t => ((), m.undoAppliedStaging t)
  | .abortStagedWrites t => ((), m.abortStagedWrites t)
  | .finalizeCommit _ => (env.ok, m)
  | .executeUndoLogs _ => (env.ok, m)
  | .clearUndoLogs _ => (env.ok, m)
  | .recordPending p => ((), m.recordPending p)
  | .takePending t => m.takePending t

end TransactionManager
end Linkrs
