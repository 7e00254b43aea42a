import Linkrs.Manager.Action

namespace Linkrs

abbrev Routine (α : Type) := Concurrent.Program Action.Answer α

def perform (a : Action) : Routine a.Answer :=
  .perform a

variable (config : ManagerConfig)

section

def admitWriter (t : TransactionId) : Routine Bool :=
  if config.txnConfig.concurrencyMode = .singleWriter then perform (.claimWriteExclusion t)
  else return true

def beginInsertTransaction (isolation : IsolationLevel) :
    Routine (Except TransactionError TransactionId) := do
  if config.maxConcurrentTransactions ≤ (← perform .activeCount) then
    return .error .tooManyTransactions
  let t ← perform .nextId
  match ← perform (.acquireInsertTimestamp t isolation) with
  | .error _ => return .error .internal
  | .ok ts =>
    if ← admitWriter config t then
      perform (.insertActive t)
      return .ok t
    else
      perform (.abortWriteTimestamp t ts)
      return .error .writeTransactionConflict

-- The frontier is read and pinned in two steps.
def beginReadTransaction (isolation : IsolationLevel) :
    Routine (Except TransactionError TransactionId) := do
  if config.maxConcurrentTransactions ≤ (← perform .activeCount) then
    return .error .tooManyTransactions
  let t ← perform .nextId
  let ts ← perform .loadReadTimestamp
  perform (.addSnapshot t ts isolation)
  perform (.insertActive t)
  return .ok t

end

section

def runLocalUndo (t : TransactionId) : Routine Bool := do
  if !(← perform (.executeUndoLogs t)) then return false
  perform (.clearUndoLogs t)

def abortTransactionWithDescriptor (t : TransactionId) : Routine Bool := do
  if !(← runLocalUndo t) then return false
  perform (.abortStagedWrites t)
  return true

def discardPersistenceState (t : TransactionId) : Routine Bool :=
  if config.persistent then (abortTransactionWithDescriptor t).retry config.abortRetryAttempts
  else return true

def rollbackContextTimestamp (t : TransactionId) : Routine Unit := do
  let ctx ← perform (.readContext t)
  match ctx.txnType with
  | .readOnly => perform (.releaseReadTimestampAt ctx.startTimestamp)
  | .write => perform (.abortWriteTimestamp t ctx.startTimestamp)

def finalizeAbortResources (t : TransactionId) : Routine Unit := do
  rollbackContextTimestamp t
  perform (.releaseWriteLease t)
  perform (.unregisterReads t)
  perform (.removeActive t)
  let _ ← perform (.clearUndoLogs t)
  let _ ← perform (.transitionTo t .aborted)

-- The watermark is read after the pin of the aborted transaction is gone, and used in a later step.
def executeAbortInternal (t : TransactionId) : Routine (Except TransactionError Unit) := do
  let discarded ← discardPersistenceState config t
  finalizeAbortResources t
  if !discarded then return .error .rollbackFailed
  let safeTs ← perform .getSafeGcTimestamp
  perform (.prune safeTs)
  return .ok ()

-- `target` tells whether the caller brought a storage target to run the undo log against.
def abortCommon (t : TransactionId) (target : Bool) : Routine (Except TransactionError Unit) := do
  if (← perform (.readContext t)).commitPublished then return .error .commitFailed
  match ← perform (.transitionTo t .aborting) with
  | .error e => return .error e
  | .ok () =>
    if target && !config.commitSink then
      if ← runLocalUndo t then executeAbortInternal config t
      else
        let _ ← executeAbortInternal config t
        return .error .rollbackFailed
    else executeAbortInternal config t

def abortTransaction (t : TransactionId) (target : Bool) :
    Routine (Except TransactionError Unit) := do
  if !(← perform (.isActive t)) then return .error (.transactionNotFound t)
  let state := (← perform (.readContext t)).state
  if !state.canAbort then return .error (.invalidStateForAbort state)
  if (← perform (.readContext t)).commitPublished then return .error .commitFailed
  abortCommon config t target

end

section

-- Waiting is needed for synchronous durability only.
def appendTransactionWithDurability (t : TransactionId) : Routine Bool := do
  if !(← perform (.appendTransaction t)) then return false
  perform (.awaitDurable t)

-- The commit of the commit sink. After a failure a retry finds nothing staged.
def commitTransactionWithDescriptor (t : TransactionId) : Routine Bool := do
  if !(← perform (.applyTxnStaging t)) then
    perform (.abortStagedWrites t)
    return false
  if ← appendTransactionWithDurability t then return true
  perform (.undoAppliedStaging t)
  perform (.abortStagedWrites t)
  return false

def persist (t : TransactionId) : Routine Bool :=
  if config.persistent then (commitTransactionWithDescriptor t).retry config.commitRetryAttempts
  else return true

def finalizeCommit (t : TransactionId) : Routine Bool :=
  if config.persistent then (perform (.finalizeCommit t)).retry config.commitRetryAttempts
  else return true

def certify (t : TransactionId) (start commit : Timestamp) (ws : WriteSet) :
    Routine (Except TransactionError Unit) := do
  if ws.isEmpty then
    perform (.unregisterReads t)
    return .ok ()
  else perform (.publish t commit start ws)

def completeCommit (t : TransactionId) (commit : Timestamp) (ws : WriteSet) :
    Routine (Except TransactionError Unit) := do
  if ← (perform (.clearUndoLogs t)).retry 1 then
    match ← perform (.transitionTo t .committed) with
    | .error e => return .error e
    | .ok () =>
      perform (.removeActive t)
      return .ok ()
  else
    perform (.recordPending ⟨t, commit, ws⟩)
    perform (.removeActive t)
    return .ok ()

-- The commit cannot be finished now: both timestamps are retired and recovery is left to do it.
def parkCommit (t : TransactionId) (start commit : Timestamp) (ws : WriteSet) :
    Routine (Except TransactionError Unit) := do
  perform (.recordPending ⟨t, 0, ws⟩)
  perform (.abortWriteTimestamp t start)
  if commit = 0 then
    perform (.unregisterReads t)
    return .error .commitFailed
  else
    perform (.abortWriteTimestamp t commit)
    perform (.unregisterReads t)
    return .error .commitFailed

-- From here on the commit is durable. `commit` is zero for a reader.
def publishCommit (t : TransactionId) (start commit : Timestamp) (ws : WriteSet) :
    Routine (Except TransactionError Unit) := do
  perform (.markCommitPublished t)
  if ← finalizeCommit config t then
    if commit = 0 then completeCommit t commit ws
    else
      perform (.publishReservedCommit t start commit)
      perform (.setCommitTimestamp t commit)
      completeCommit t commit ws
  else parkCommit t start commit ws

def commitWrite (t : TransactionId) (start : Timestamp) (ws : WriteSet) :
    Routine (Except TransactionError Unit) := do
  let safeTs ← perform .getSafeGcTimestamp
  perform (.prune safeTs)
  perform (.releaseWriteLease t)
  match ← perform (.reserveCommitTimestamp t start) with
  | .error _ =>
    perform (.recordPending ⟨t, 0, ws⟩)
    return .error .commitFailed
  | .ok commit =>
    match ← certify t start commit ws with
    | .ok () => publishCommit config t start commit ws
    | .error conflict =>
      perform (.abortWriteTimestamp t commit)
      let _ ← abortCommon config t false
      return .error conflict

-- The part of `commit_transaction` after the transition to `Committing`.
def commitPersistent (t : TransactionId) : Routine (Except TransactionError Unit) := do
  let ws ← perform (.buildCommitDescriptor t)
  if ← persist config t then
    let ctx ← perform (.readContext t)
    match ctx.txnType with
    | .readOnly =>
      perform (.releaseReadTimestampAt ctx.startTimestamp)
      publishCommit config t ctx.startTimestamp 0 ws
    | .write => commitWrite config t ctx.startTimestamp ws
  else
    let _ ← abortCommon config t false
    return .error .commitFailed

def commitTransaction (t : TransactionId) : Routine (Except TransactionError Unit) := do
  if !(← perform (.isActive t)) then return .error (.transactionNotFound t)
  let state := (← perform (.readContext t)).state
  if !state.canCommit then return .error (.invalidStateForCommit state)
  if (← perform (.readContext t)).rollbackOnly then return .error (.invalidStateForCommit state)
  if !(← perform (.checkTimeouts t)) then
    let _ ← abortCommon config t false
    return .error .transactionTimeout
  match ← perform (.checkWriteSetConflict t) with
  | .error conflict =>
    let _ ← abortCommon config t false
    return .error conflict
  | .ok () =>
    if !(← perform (.evalCommitVetoes t)) then return .error .commitVetoed
    match ← perform (.transitionTo t .committing) with
    | .error e => return .error e
    | .ok () => commitPersistent config t

end

section

-- The commit timestamp of a re-driven commit, or nothing if none can be allocated.
def recoverCommitTimestamp (t : TransactionId) (p : PendingFinalization) :
    Routine (Option Timestamp) := do
  let ctx ← perform (.readContext t)
  if p.commitTimestamp = 0 ∧ ctx.commitTimestamp = 0 then
    match ← perform (.allocateCommitTimestamp t ctx.startTimestamp) with
    | .error _ => return none
    | .ok commit =>
      perform (.setCommitTimestamp t commit)
      return some commit
  else
    let commit := max ctx.commitTimestamp p.commitTimestamp
    if ctx.commitTimestamp = 0 ∧ commit ≠ 0 then
      perform (.setCommitTimestamp t commit)
      return some commit
    else return some commit

def republish (t : TransactionId) (commit : Timestamp) (ws : WriteSet) : Routine Unit :=
  if commit ≠ 0 ∧ !ws.isEmpty then perform (.forcePublish t commit ws)
  else return ()

def requeue (p : PendingFinalization) (e : TransactionError) :
    Routine (Except TransactionError Unit) := do
  perform (.recordPending p)
  return .error e

-- Finalization is repeated once, without looking at the outcome, if the context is gone.
def finalizeOrphan (t : TransactionId) : Routine Bool :=
  if config.persistent then perform (.finalizeCommit t) else return true

def redrive (t : TransactionId) (p : PendingFinalization) :
    Routine (Except TransactionError Unit) := do
  if !(← finalizeCommit config t) then requeue p .commitFailed
  else match ← recoverCommitTimestamp t p with
    | none => requeue p .commitFailed
    | some commit =>
      republish t commit p.writeSet
      if !(← perform (.clearUndoLogs t)) then requeue p .rollbackFailed
      else match ← perform (.transitionTo t .committed) with
        | .error e => return .error e
        | .ok () =>
          perform (.removeActive t)
          perform (.unregisterReads t)
          return .ok ()

def recoverPendingFinalization (t : TransactionId) : Routine (Except TransactionError Unit) := do
  match ← perform (.takePending t) with
  | none => return .error (.transactionNotFound t)
  | some p =>
    if ← perform (.isActive t) then
      let state := (← perform (.readContext t)).state
      if state ≠ .committing then requeue p (.invalidStateForCommit state)
      else if !(← perform (.readContext t)).commitPublished then
        requeue p (.invalidStateForCommit state)
      else redrive config t p
    else
      let _ ← finalizeOrphan config t
      republish t p.commitTimestamp p.writeSet
      return .ok ()

end

-- What the users of the manager can ask for.
inductive Request where
  | beginInsert (isolation : IsolationLevel)
  | beginRead (isolation : IsolationLevel)
  | recordMutation (t : TransactionId) (mutation : MutationResult)
  | recordWrite (t : TransactionId) (access : WriteAccess)
  | recordRead (t : TransactionId) (access : ReadAccess)
  | stageWrite (t : TransactionId) (redo : List RedoEntry) (row : Bool)
  | markRollbackOnly (t : TransactionId)
  | commit (t : TransactionId)
  | abort (t : TransactionId) (target : Bool)
  | recover (t : TransactionId)

-- A request is answered with the transaction it has begun or worked on.
abbrev Response := Except TransactionError TransactionId

-- The users hold the context of a transaction they work on, so it has been in the active table.
def onActive (t : TransactionId) (a : Action) (answer : a.Answer → Except TransactionError Unit) :
    Routine (Except TransactionError Unit) := do
  if !(← perform (.isActive t)) then return .error (.transactionNotFound t)
  return answer (← perform a)

def routine : Request → Routine Response
  | .beginInsert isolation => beginInsertTransaction config isolation
  | .beginRead isolation => beginReadTransaction config isolation
  | .recordMutation t mutation =>
    (·.map fun _ => t) <$> onActive t (.recordMutation t mutation) id
  | .recordWrite t access =>
    (·.map fun _ => t) <$> onActive t (.recordWrite t access) fun _ => .ok ()
  | .recordRead t access =>
    (·.map fun _ => t) <$> onActive t (.recordRead t access) fun _ => .ok ()
  | .stageWrite t redo row =>
    (·.map fun _ => t) <$> onActive t (.stageWrite t redo row) id
  | .markRollbackOnly t =>
    (·.map fun _ => t) <$> onActive t (.markRollbackOnly t) fun _ => .ok ()
  | .commit t => (·.map fun _ => t) <$> commitTransaction config t
  | .abort t target => (·.map fun _ => t) <$> abortTransaction config t target
  | .recover t => (·.map fun _ => t) <$> recoverPendingFinalization config t

end Linkrs
