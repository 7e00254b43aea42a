import Linkrs.Manager.History

namespace Linkrs

open Concurrent (Protocol)

namespace World

variable (w : World) (c : CallId) (t : TransactionId)

def Listed : Prop :=
  (w.txn t).birth = .listed

-- The call `c` created `t` and is the only one that knows it.
def Creates (birth : Birth) : Prop :=
  (w.txn t).creator = some c ∧ (w.txn t).birth = birth

-- The call `c` is committing `t` and has come to the given stage.
def Holds (stage : Stage) : Prop :=
  (w.txn t).owner = some c ∧ (w.txn t).stage = stage

def Aborts : Prop :=
  (w.txn t).aborter = some c

def Recovers (stage : Stage) : Prop :=
  (w.txn t).recoverer = some c ∧ (w.txn t).stage = stage

-- Type and start timestamp of `t` are those of the context that was read.
def Reads (ctx : TransactionContext) : Prop :=
  w.Listed t ∧ (w.ctx t).txnType = ctx.txnType ∧ (w.ctx t).startTimestamp = ctx.startTimestamp

def Logged : Prop :=
  ∃ b ∈ w.manager.wal, b.transactionId = t

end World

-- The record fits the stage at which the commit was left to recovery.
def PendingFinalization.Fits (p : PendingFinalization) : Stage → Prop
  | .parked ws | .unfinalized ws _ => p.commitTimestamp = 0 ∧ p.writeSet = ws
  | .leftover ws commit => p.commitTimestamp = commit ∧ p.writeSet = ws
  | _ => False

theorem PendingFinalization.Fits.isFinal {p : PendingFinalization} (h : p.Fits stage) : stage.isFinal := by
  cases stage <;> first | rfl | exact h.elim

-- The rules by which calls act. They say which call may perform an action, and when.
inductive Rule (config : ManagerConfig) (c : CallId) (w : World) : Action → Prop
  -- Looking around needs no permission, and neither do the external operations.
  | activeCount : Rule config c w .activeCount
  | isActive {t} : Rule config c w (.isActive t)
  | readContext {t} : Rule config c w (.readContext t)
  | checkTimeouts {t} : Rule config c w (.checkTimeouts t)
  | evalCommitVetoes {t} : Rule config c w (.evalCommitVetoes t)
  | getSafeGcTimestamp : Rule config c w .getSafeGcTimestamp
  | finalizeCommit {t} : Rule config c w (.finalizeCommit t)
  | clearUndoLogs {t} : Rule config c w (.clearUndoLogs t)
  | unregisterReads {t} : Rule config c w (.unregisterReads t)
  | prune {ts} : w.history.watermark c = some ts → Rule config c w (.prune ts)
  -- Begin
  | nextId : Rule config c w .nextId
  | loadReadTimestamp : Rule config c w .loadReadTimestamp
  | acquireInsertTimestamp {t isolation} :
    w.Creates c t .named → Rule config c w (.acquireInsertTimestamp t isolation)
  | addSnapshot {t ts isolation} :
    w.Creates c t .named → w.history.loaded c = some ts →
    Rule config c w (.addSnapshot t ts isolation)
  | claimWriteExclusion {t} : w.Creates c t .begun → Rule config c w (.claimWriteExclusion t)
  | insertActive {t} : w.Creates c t .begun → Rule config c w (.insertActive t)
  | rejectWriter {t} :
    w.Creates c t .begun →
    Rule config c w (.abortWriteTimestamp t (w.ctx t).startTimestamp)
  -- Use
  | recordMutation {t mutation} : w.Listed t → Rule config c w (.recordMutation t mutation)
  | recordWrite {t access} : w.Listed t → Rule config c w (.recordWrite t access)
  | recordRead {t access} : w.Listed t → Rule config c w (.recordRead t access)
  | stageWrite {t redo row} : w.Listed t → Rule config c w (.stageWrite t redo row)
  | markRollbackOnly {t} : w.Listed t → Rule config c w (.markRollbackOnly t)
  -- Commit
  | checkWriteSetConflict {t} : w.Listed t → Rule config c w (.checkWriteSetConflict t)
  | startCommit {t} : w.Listed t → Rule config c w (.transitionTo t .committing)
  | buildCommitDescriptor {t} :
    w.Holds c t .sealed → Rule config c w (.buildCommitDescriptor t)
  | applyTxnStaging {t ws} : w.Holds c t (.described ws) → Rule config c w (.applyTxnStaging t)
  | appendTransaction {t ws} :
    w.Holds c t (.described ws) → Rule config c w (.appendTransaction t)
  | awaitDurable {t ws} :
    w.Holds c t (.described ws) → w.Logged t → Rule config c w (.awaitDurable t)
  | undoAppliedStaging {t ws} :
    w.Holds c t (.described ws) → Rule config c w (.undoAppliedStaging t)
  | dropStaged {t ws} : w.Holds c t (.described ws) → Rule config c w (.abortStagedWrites t)
  | releaseReader {t} :
    w.Listed t → (w.ctx t).txnType = .readOnly →
    Rule config c w (.releaseReadTimestampAt (w.ctx t).startTimestamp)
  | releaseWriteLease {t} : w.Listed t → Rule config c w (.releaseWriteLease t)
  | reserveCommitTimestamp {t ws} :
    w.Holds c t (.described ws) → (w.ctx t).txnType = .write → (config.persistent → w.Logged t) →
    Rule config c w (.reserveCommitTimestamp t (w.ctx t).startTimestamp)
  | publish {t ws commit} :
    w.Holds c t (.reserved ws commit) → ws.isEmpty = false →
    Rule config c w (.publish t commit (w.ctx t).startTimestamp ws)
  | retireRefused {t ws commit} :
    w.Holds c t (.refused ws commit) → Rule config c w (.abortWriteTimestamp t commit)
  | markReader {t ws} :
    w.Holds c t (.described ws) → (w.ctx t).txnType = .readOnly →
    (config.persistent → w.Logged t) → Rule config c w (.markCommitPublished t)
  | markEmpty {t ws commit} :
    w.Holds c t (.reserved ws commit) → ws.isEmpty → Rule config c w (.markCommitPublished t)
  | markCertified {t ws commit} :
    w.Holds c t (.certified ws commit) → Rule config c w (.markCommitPublished t)
  | publishReservedCommit {t ws commit} :
    w.Holds c t (.marked ws commit) → commit ≠ 0 →
    Rule config c w (.publishReservedCommit t (w.ctx t).startTimestamp commit)
  | setCommitTimestamp {t ws commit} :
    w.Holds c t (.settled ws commit) → Rule config c w (.setCommitTimestamp t commit)
  | completeWriter {t ws commit} :
    w.Holds c t (.settled ws commit) → (w.ctx t).commitTimestamp = commit →
    Rule config c w (.transitionTo t .committed)
  | completeReader {t ws} :
    w.Holds c t (.marked ws 0) → Rule config c w (.transitionTo t .committed)
  | removeWriter {t ws commit} :
    w.Holds c t (.settled ws commit) ∨ w.Holds c t (.leftover ws commit) →
    (w.ctx t).commitTimestamp = commit → Rule config c w (.removeActive t)
  | removeReader {t ws} :
    w.Holds c t (.marked ws 0) ∨ w.Holds c t (.unfinalized ws 0) →
    Rule config c w (.removeActive t)
  -- Leaving a commit to recovery
  | parkUnreserved {t ws} :
    w.Holds c t (.described ws) → Rule config c w (.recordPending ⟨t, 0, ws⟩)
  | parkUnfinalized {t ws commit} :
    w.Holds c t (.marked ws commit) → Rule config c w (.recordPending ⟨t, 0, ws⟩)
  | parkLeftover {t ws commit} :
    w.Holds c t (.settled ws commit) → (w.ctx t).commitTimestamp = commit →
    Rule config c w (.recordPending ⟨t, commit, ws⟩)
  | retireStart {t ws commit} :
    w.Holds c t (.unfinalized ws commit) →
    Rule config c w (.abortWriteTimestamp t (w.ctx t).startTimestamp)
  | retireCommit {t ws commit} :
    w.Holds c t (.unfinalized ws commit) → commit ≠ 0 →
    Rule config c w (.abortWriteTimestamp t commit)
  -- Abort
  | abortForeign {t} :
    w.Listed t → (w.txn t).owner ≠ some c → Rule config c w (.transitionTo t .aborting)
  | abortUnpersisted {t ws} :
    w.Holds c t (.described ws) → (w.Logged t → (w.txn t).awaitFailed) →
    Rule config c w (.transitionTo t .aborting)
  | abortRefused {t ws commit} :
    w.Holds c t (.refused ws commit) → Rule config c w (.transitionTo t .aborting)
  | executeUndoLogs {t} : w.Aborts c t → Rule config c w (.executeUndoLogs t)
  | abortStagedWrites {t} : w.Aborts c t → Rule config c w (.abortStagedWrites t)
  | retireAborted {t} :
    w.Aborts c t → (w.ctx t).txnType = .write →
    Rule config c w (.abortWriteTimestamp t (w.ctx t).startTimestamp)
  | removeAborted {t} : w.Aborts c t → Rule config c w (.removeActive t)
  | finishAbort {t} : w.Aborts c t → Rule config c w (.transitionTo t .aborted)
  -- Recovery
  | takePending {t} : (w.txn t).owner ≠ some c → Rule config c w (.takePending t)
  | requeue {p stage} :
    w.Recovers c p.txnId stage → p.Fits stage → Rule config c w (.recordPending p)
  | allocateCommitTimestamp {t ws commit} :
    w.Recovers c t (.unfinalized ws commit) → (w.ctx t).commitTimestamp = 0 →
    Rule config c w (.allocateCommitTimestamp t (w.ctx t).startTimestamp)
  | stampRecovered {t ws commit ts} :
    w.Recovers c t (.unfinalized ws commit) → (w.ctx t).commitTimestamp = 0 →
    Rule config c w (.setCommitTimestamp t ts)
  | republishRecovered {t ws commit} :
    w.Recovers c t (.unfinalized ws commit) →
    Rule config c w (.forcePublish t (w.ctx t).commitTimestamp ws)
  | republishLeftover {t ws commit} :
    w.Recovers c t (.leftover ws commit) → Rule config c w (.forcePublish t commit ws)
  | completeRecovered {t stage} :
    w.Recovers c t stage → stage.isMarked → Rule config c w (.transitionTo t .committed)
  | removeRecovered {t stage} :
    w.Recovers c t stage → stage.isMarked → Rule config c w (.removeActive t)

end Linkrs
