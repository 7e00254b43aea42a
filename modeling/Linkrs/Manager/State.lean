import Linkrs.Mvcc.VersionManager
import Linkrs.Certify.Certifier
import Linkrs.Wal.Types

namespace Linkrs

structure ManagerConfig where
  inMemory : Bool
  -- Whether a storage engine is attached as the commit sink.
  commitSink : Bool
  commitRetryAttempts : ℕ
  abortRetryAttempts : ℕ
  maxConcurrentTransactions : ℕ
  txnConfig : TransactionConfig

def ManagerConfig.default (commitSink : Bool) : ManagerConfig where
  inMemory := false
  commitSink := commitSink
  commitRetryAttempts := 3
  abortRetryAttempts := 3
  maxConcurrentTransactions := 1000
  txnConfig := .default

def ManagerConfig.persistent (config : ManagerConfig) : Bool :=
  !config.inMemory && config.commitSink

-- What one `append_transaction_batch_no_wait` leaves in the log.
structure CommitBatch where
  transactionId : TransactionId
  redo : List RedoEntry

-- What the storage engine holds for one transaction: a buffer of staged rows, the staged redo, and
-- the rows that were installed under the transaction's start timestamp and have not been undone.
structure TxnStorage where
  staging : Bool
  stagedWal : List RedoEntry
  rows : Bool

def TxnStorage.new : TxnStorage where
  staging := false
  stagedWal := []
  rows := false

-- The write set stands for the stored commit descriptor.
structure PendingFinalization where
  txnId : TransactionId
  commitTimestamp : Timestamp
  writeSet : WriteSet

-- Contexts are shared by reference and outlive their entry in the active table, so they are kept by
-- identifier. The context of an identifier that has not been handed out is never looked at.
structure TransactionManager where
  versionManager : VersionManager
  certifier : Certifier
  idGenerator : TransactionId
  activeTransactions : List TransactionId
  contexts : TransactionId → TransactionContext
  writeExclusionOwner : Option TransactionId
  recovery : List PendingFinalization
  storage : TransactionId → TxnStorage
  wal : List CommitBatch

namespace TransactionManager

def new (config : ManagerConfig) : TransactionManager where
  versionManager := .new
  certifier := .new
  idGenerator := 1
  activeTransactions := []
  contexts := fun _ => .new .readOnly 0 .readCommitted config.txnConfig
  writeExclusionOwner := none
  recovery := []
  storage := fun _ => .new
  wal := []

variable (m : TransactionManager) (t t' : TransactionId)

def active : ActiveTransactions :=
  m.activeTransactions.map fun t => (t, m.contexts t)

def setContext (ctx : TransactionContext) : TransactionManager :=
  { m with contexts := fun t' => if t' = t then ctx else m.contexts t' }

def setStorage (st : TxnStorage) : TransactionManager :=
  { m with storage := fun t' => if t' = t then st else m.storage t' }

@[simp]
theorem contexts_setContext (ctx : TransactionContext) :
    (m.setContext t ctx).contexts t' = if t' = t then ctx else m.contexts t' :=
  rfl

@[simp]
theorem storage_setStorage (st : TxnStorage) :
    (m.setStorage t st).storage t' = if t' = t then st else m.storage t' :=
  rfl

-- Replaces an older record of the same transaction.
def recordPending (p : PendingFinalization) : TransactionManager :=
  { m with recovery := m.recovery.filter (·.txnId ≠ p.txnId) ++ [p] }

def takePending : Option PendingFinalization × TransactionManager :=
  match m.recovery.find? (·.txnId = t) with
  | none => (none, m)
  | some p => (some p, { m with recovery := m.recovery.eraseP (·.txnId = t) })

-- The lease is given back once, by whoever comes first.
def releaseWriteLease : TransactionManager :=
  let ctx := m.contexts t
  if ctx.resourcesReleased then m else
  let m := m.setContext t { ctx with resourcesReleased := true }
  if ctx.txnType = .write ∧ ctx.pessimisticLockHeld then { m with writeExclusionOwner := none }
  else m

def checkWriteSetConflict : Except TransactionError Unit × TransactionManager :=
  if t ∈ m.activeTransactions then
    let (certifier, ctx, verdict) :=
      m.certifier.checkWriteSetConflict t (m.contexts t) m.active
    (verdict, { m.setContext t ctx with certifier })
  else (.error (.transactionNotFound t), m)

def transitionTo (state : TransactionState) : Except TransactionError Unit × TransactionManager :=
  match (m.contexts t).transitionTo state with
  | .ok ctx => (.ok (), m.setContext t ctx)
  | .error e => (.error e, m)

def publish (commit start : Timestamp) (ws : WriteSet) : Except TransactionError Unit × TransactionManager :=
  match m.certifier.publish t commit start ws m.active with
  | .ok certifier => (.ok (), { m with certifier })
  | .error e => (.error e, m)

-- A read-only transaction has no write timestamp to stage anything under.
def stageWrite (redo : List RedoEntry) (row : Bool) : Except TransactionError Unit × TransactionManager :=
  let st := m.storage t
  match (m.contexts t).txnType with
  | .readOnly => (.error .readOnlyTransaction, m)
  | .write =>
    (.ok (), m.setStorage t { st with staging := st.staging || row, stagedWal := st.stagedWal ++ redo })

-- Installs the staged rows, all of them or none.
def applyTxnStaging (ok : Bool) : Bool × TransactionManager :=
  let st := m.storage t
  if !st.staging then (true, m)
  else if ok then (true, m.setStorage t { st with staging := false, rows := true })
  else (false, m)

def undoAppliedStaging : TransactionManager :=
  m.setStorage t { m.storage t with rows := false }

def abortStagedWrites : TransactionManager :=
  m.setStorage t { m.storage t with staging := false, stagedWal := [] }

def appendTransaction (ok : Bool) : Bool × TransactionManager :=
  if ok then (true, { m with wal := m.wal ++ [⟨t, (m.storage t).stagedWal⟩] })
  else (false, m)

theorem core_setContext (h : ctx.core = (m.contexts t).core) :
    ((m.setContext t ctx).contexts t').core = (m.contexts t').core := by
  by_cases ht : t' = t
  case pos => subst ht; simpa using h
  case neg => simp [ht]

theorem core_releaseWriteLease : ((m.releaseWriteLease t).contexts t').core = (m.contexts t').core := by
  simp only [releaseWriteLease]
  split
  case isTrue => rfl
  case isFalse => split <;> exact core_setContext m t t' rfl

theorem core_checkWriteSetConflict : ((m.checkWriteSetConflict t).2.contexts t').core = (m.contexts t').core := by
  simp only [checkWriteSetConflict]
  split
  case isTrue => exact core_setContext m t t' (Certifier.core_checkWriteSetConflict ..)
  case isFalse => rfl

theorem transitionTo_cases (state : TransactionState) : ((m.contexts t).state.canTransition state ∧
      m.transitionTo t state = (.ok (), m.setContext t { m.contexts t with state })) ∨
    ((m.contexts t).state.canTransition state = false ∧ m.transitionTo t state =
        (.error (.invalidStateTransition (m.contexts t).state state), m)) := by
  unfold transitionTo TransactionContext.transitionTo
  cases h : (m.contexts t).state.canTransition state <;> simp

end TransactionManager
end Linkrs
