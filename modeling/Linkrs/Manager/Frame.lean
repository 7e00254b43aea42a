import Linkrs.Manager.Action

namespace Linkrs

-- Which parts of the manager an action may change.
namespace Action

def changesIds : Action → Bool
  | nextId => true
  | _ => false

def changesActive : Action → Bool
  | insertActive _ | removeActive _ => true
  | _ => false

def changesRecovery : Action → Bool
  | recordPending _ | takePending _ => true
  | _ => false

def changesLog : Action → Bool
  | appendTransaction _ => true
  | _ => false

def changesTimestamps : Action → Bool
  | acquireInsertTimestamp .. | loadReadTimestamp | addSnapshot .. | reserveCommitTimestamp ..
  | publishReservedCommit .. | allocateCommitTimestamp .. | abortWriteTimestamp ..
  | releaseReadTimestampAt _ => true
  | _ => false

def changesCertifier : Action → Bool
  | checkWriteSetConflict _ | publish .. | forcePublish .. | unregisterReads _ | prune _ => true
  | _ => false

def changesStorage : Action → Bool
  | stageWrite .. | applyTxnStaging _ | awaitDurable _ | undoAppliedStaging _
  | abortStagedWrites _ => true
  | _ => false

end Action

-- The action leaves alone what it may not change.
structure Action.Keeps (a : Action) (m m' : TransactionManager) : Prop where
  ids : a.changesIds = false → m'.idGenerator = m.idGenerator
  active : a.changesActive = false → m'.activeTransactions = m.activeTransactions
  recovery : a.changesRecovery = false → m'.recovery = m.recovery
  log : a.changesLog = false → m'.wal = m.wal
  timestamps : a.changesTimestamps = false → m'.versionManager = m.versionManager
  certifier : a.changesCertifier = false → m'.certifier = m.certifier
  storage : a.changesStorage = false → m'.storage = m.storage

namespace TransactionManager

variable {config : ManagerConfig} {env : Env} {m : TransactionManager}

theorem perform_keeps (a : Action) : a.Keeps m (m.perform config env a).2 := by
  cases a
  case' acquireInsertTimestamp =>
    simp only [perform, acquireInsertTimestamp]
    cases m.versionManager.acquireInsertTimestamp env.now
  case' claimWriteExclusion => simp only [perform, claimWriteExclusion]; split
  case' stageWrite => simp only [perform, stageWrite]; split
  case' transitionTo t state => obtain ⟨_, h⟩ | ⟨_, h⟩ := m.transitionTo_cases t state
  case' transitionTo.inl => simp only [perform, h]
  case' transitionTo.inr => simp only [perform, h]
  case' releaseWriteLease => simp only [perform, releaseWriteLease]; repeat' split
  case' checkWriteSetConflict => simp only [perform, checkWriteSetConflict]; split
  case' publish => simp only [perform, publish]; split
  case' reserveCommitTimestamp t start =>
    simp only [perform]
    cases m.versionManager.reserveCommitTimestamp start env.now
  case' allocateCommitTimestamp t start =>
    simp only [perform]
    cases m.versionManager.allocateCommitTimestamp start env.now
  case' applyTxnStaging => simp only [perform, applyTxnStaging]; repeat' split
  case' appendTransaction => simp only [perform, appendTransaction]; split
  case' awaitDurable => simp only [perform]; split
  case' takePending => simp only [perform, takePending]; split
  all_goals constructor <;> intro h <;> first | rfl | cases h

end TransactionManager
end Linkrs
