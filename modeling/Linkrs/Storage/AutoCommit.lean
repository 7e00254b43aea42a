import Linkrs.Certify.Certifier
import Linkrs.Mvcc.VersionManager

namespace Linkrs

def committedWriteSetCapacity : ℕ := 512

def maxPublishedWriteSetSize : ℕ := 8192

-- Oldest entry first.
structure CommittedWriteSetWindow where
  entries : List (Timestamp × WriteSet)

namespace CommittedWriteSetWindow

def new : CommittedWriteSetWindow where
  entries := []

def hasConflict (w : CommittedWriteSetWindow) (local' : WriteSet) (readTs : Timestamp) : Bool :=
  !local'.isEmpty && w.entries.any fun (ts, ws) => readTs < ts && local'.hasConflictWith ws

-- The last entry stays, whatever its timestamp.
def dropExpired (horizon : Timestamp) : List (Timestamp × WriteSet) → List (Timestamp × WriteSet)
  | e :: e' :: es =>
    if e.1 ≤ horizon ∧ horizon ≠ invalidTimestamp then dropExpired horizon (e' :: es)
    else e :: e' :: es
  | es => es

def publish (w : CommittedWriteSetWindow) (commitTs : Timestamp) (ws : WriteSet)
    (horizon : Timestamp) : CommittedWriteSetWindow :=
  if ws.isEmpty || maxPublishedWriteSetSize < ws.size then w
  else
    let entries := w.entries ++ [(commitTs, ws)]
    ⟨dropExpired horizon (entries.drop (entries.length - committedWriteSetCapacity))⟩

end CommittedWriteSetWindow

-- The write set that a group publishes for its statements.
def WriteSet.merge (ws other : WriteSet) : WriteSet where
  vertices := ws.vertices ∪ other.vertices
  edges := ws.edges ∪ other.edges
  edgeEndpoints := ws.edgeEndpoints ∪ other.edgeEndpoints
  deletedVertices := ws.deletedVertices ∪ other.deletedVertices
  schemaResources := ws.schemaResources ∪ other.schemaResources
  indexResources := ws.indexResources ∪ other.indexResources
  readRanges := ws.readRanges ++ other.readRanges
  endpoints_eq := by
    simp only [ws.endpoints_eq, other.endpoints_eq, Finset.image_union]
    ext v
    simp only [Finset.mem_union]
    tauto
  deleted_sub := Finset.union_subset_union ws.deleted_sub other.deleted_sub

abbrev ThreadId := ℕ

-- The holder and the depth of its lease.
structure AutoCommitWriteGate where
  state : Option (ThreadId × ℕ)
  deriving DecidableEq, Repr

namespace AutoCommitWriteGate

def new : AutoCommitWriteGate where
  state := none

-- A thread other than the holder waits.
def acquire (gate : AutoCommitWriteGate) (thread : ThreadId) : Option AutoCommitWriteGate :=
  match gate.state with
  | none => some ⟨some (thread, 1)⟩
  | some (holder, depth) => if holder = thread then some ⟨some (holder, depth + 1)⟩ else none

def release (gate : AutoCommitWriteGate) : AutoCommitWriteGate :=
  match gate.state with
  | some (holder, depth) => if 1 < depth then ⟨some (holder, depth - 1)⟩ else ⟨none⟩
  | none => gate

end AutoCommitWriteGate

namespace TwoPath

-- How far an explicit write transaction has got. `refused` has to abort; `parked` waits in the
-- recovery queue.
inductive TxnPhase where
  | unborn
  | active
  | validated
  | committing (ws : WriteSet)
  | persisted (ws : WriteSet)
  | pruning (ws : WriteSet) (safe : Timestamp)
  | pruned (ws : WriteSet)
  | reserved (ws : WriteSet) (commit : Timestamp)
  | reviewed (ws : WriteSet) (commit : Timestamp)
  | finalized (ws : WriteSet) (commit : Timestamp)
  | visible (ws : WriteSet) (commit : Timestamp)
  | committed (ws : WriteSet) (commit : Timestamp)
  | refused
  | parked
  | aborted

namespace TxnPhase

-- The transaction is in the table of active transactions.
def isListed : TxnPhase → Bool
  | unborn | committed .. | aborted => false
  | _ => true

-- The write set and the commit timestamp, once the latter is visible.
def commit : TxnPhase → Option (WriteSet × Timestamp)
  | visible ws commit | committed ws commit => some (ws, commit)
  | _ => none

end TxnPhase

structure Txn where
  context : TransactionContext
  phase : TxnPhase

namespace Txn

def start (x : Txn) : Timestamp :=
  x.context.startTimestamp

def goto (x : Txn) (phase : TxnPhase) : Txn :=
  { x with phase := phase }

end Txn

-- Where a statement gets its timestamp and the write gate from: it has both for itself, or it is
-- bound to a window, which holds the gate and, if it is a group, the timestamp as well.
inductive Home (k : ℕ) where
  | own
  | batch (w : Fin k)
  | group (w : Fin k)
  deriving DecidableEq

-- How far an auto-commit statement has got. `grouped` is certified and left to its group, and
-- `orphaned` was certified when its group was already closing.
inductive StatementPhase where
  | unborn
  | executing
  | certified
  | applied
  | reserved (commit : Timestamp)
  | settled (commit : Timestamp)
  | published (commit : Timestamp)
  | committed (commit : Timestamp)
  | grouped
  | orphaned
  | failed
  deriving DecidableEq

namespace StatementPhase

def commit : StatementPhase → Option Timestamp
  | settled c | published c | committed c => some c
  | _ => none

end StatementPhase

structure Statement (k : ℕ) where
  home : Home k
  start : Timestamp
  writeSet : WriteSet
  phase : StatementPhase

namespace Statement

variable {k : ℕ}

def goto (x : Statement k) (phase : StatementPhase) : Statement k :=
  { x with phase := phase }

end Statement

-- How far a window has got in `finalize_group`.
inductive WindowPhase where
  | unborn
  | opened
  | applied
  | appended
  | synced
  | reserved (commit : Timestamp)
  | settled (commit : Timestamp)
  | published (commit : Timestamp)
  | closed (commit : Option Timestamp)
  deriving DecidableEq

namespace WindowPhase

def commit : WindowPhase → Option Timestamp
  | settled c | published c | closed (some c) => some c
  | _ => none

end WindowPhase

structure Window where
  grouped : Bool
  firstTs : Option Timestamp
  writeSets : List WriteSet
  phase : WindowPhase

namespace Window

def goto (x : Window) (phase : WindowPhase) : Window :=
  { x with phase := phase }

end Window

-- The version manager with the two ways to write: explicit transactions, certified by the
-- certifier of the transaction manager, and auto-commit statements, certified by the window of
-- committed write sets.
structure System (n m k : ℕ) where
  versionManager : VersionManager
  certifier : Certifier
  txns : Fin n → Txn
  committedWriteSets : CommittedWriteSetWindow
  gate : AutoCommitWriteGate
  statements : Fin m → Statement k
  windows : Fin k → Window

variable {n m k : ℕ}

-- `ok` is the result of the call of the storage or of the log that the step completes.
inductive TxnCall where
  | begin (isolation : IsolationLevel)
  | write (access : WriteAccess)
  | read (access : ReadAccess)
  | check
  | seal
  | persist (ok : Bool)
  | watermark
  | prune
  | reserve
  | publish
  | finalize (ok : Bool)
  | settle
  | leave
  | abort

inductive StatementCall (k : ℕ) where
  | begin (thread : ThreadId)
  | bind (w : Fin k)
  | write (access : WriteAccess)
  | certify
  | apply (ok : Bool)
  | reserve
  | settle
  | publish
  | release
  | fail

inductive WindowCall where
  | begin (thread : ThreadId) (grouped : Bool)
  | apply (ok : Bool)
  | append (ok : Bool)
  | sync (ok : Bool)
  | reserve
  | settle
  | publish
  | release
  | rollback
  | finalize

inductive Call (n m k : ℕ) where
  | txn (t : Fin n) (call : TxnCall)
  | statement (u : Fin m) (call : StatementCall k)
  | window (w : Fin k) (call : WindowCall)
  | reap (timeout : Duration)

structure Event (n m k : ℕ) where
  now : Instant
  call : Call n m k

namespace System

def new : System n m k where
  versionManager := .new
  certifier := .new
  txns := fun _ => ⟨.new .write 0 .repeatableRead .default, .unborn⟩
  committedWriteSets := .new
  gate := .new
  statements := fun _ => ⟨.own, 0, .new, .unborn⟩
  windows := fun _ => ⟨false, none, [], .unborn⟩

def setTxn (s : System n m k) (t : Fin n) (x : Txn) : System n m k :=
  { s with txns := Function.update s.txns t x }

def setStatement (s : System n m k) (u : Fin m) (x : Statement k) : System n m k :=
  { s with statements := Function.update s.statements u x }

def setWindow (s : System n m k) (w : Fin k) (x : Window) : System n m k :=
  { s with windows := Function.update s.windows w x }

def setVersions (s : System n m k) (vm : VersionManager) : System n m k :=
  { s with versionManager := vm }

def setCertifier (s : System n m k) (c : Certifier) : System n m k :=
  { s with certifier := c }

def setGate (s : System n m k) (gate : AutoCommitWriteGate) : System n m k :=
  { s with gate := gate }

def activeTransactions (s : System n m k) : ActiveTransactions :=
  (List.finRange n).filterMap fun t =>
    if (s.txns t).phase.isListed then some (t, (s.txns t).context) else none

-- `abort_transaction_internal`, as far as timestamps and certification go.
def abortTxn (s : System n m k) (t : Fin n) : System n m k :=
  s.setVersions (s.versionManager.abortWriteTimestamp (s.txns t).start)
    |>.setCertifier (s.certifier.unregisterReads t)
    |>.setTxn t ((s.txns t).goto .aborted)

def txnStep (s : System n m k) (now : Instant) (t : Fin n) (call : TxnCall) : Option (System n m k) :=
  let x := s.txns t
  match x.phase, call with
  | .unborn, .begin isolation =>
    match s.versionManager.acquireInsertTimestamp now with
    | .ok (ts, vm) =>
      (s.setVersions vm).setTxn t ⟨.new .write ts isolation .default, .active⟩
    | .error _ => none
  | .active, .write access | .validated, .write access =>
    s.setTxn t { x with context := x.context.recordWrite access }
  | .active, .read access | .validated, .read access =>
    s.setTxn t { x with context := x.context.recordRead access }
  | .active, .check =>
    match s.certifier.checkWriteSetConflict t x.context s.activeTransactions with
    | (c, context, .ok ()) => (s.setCertifier c).setTxn t ⟨context, .validated⟩
    | (c, context, .error _) => (s.setCertifier c).setTxn t ⟨context, .refused⟩
  | .validated, .seal =>
    s.setTxn t ⟨{ x.context with state := .committing }, .committing x.context.writeSet⟩
  | .committing ws, .persist true => s.setTxn t (x.goto (.persisted ws))
  | .committing _, .persist false => s.setTxn t (x.goto .refused)
  | .persisted ws, .watermark =>
    s.setTxn t (x.goto (.pruning ws s.versionManager.getSafeGcTimestamp))
  | .pruning ws safe, .prune =>
    (s.setCertifier (s.certifier.prune safe)).setTxn t (x.goto (.pruned ws))
  | .pruned ws, .reserve =>
    match s.versionManager.reserveCommitTimestamp x.start now with
    | .ok (commit, vm) => (s.setVersions vm).setTxn t (x.goto (.reserved ws commit))
    | .error _ => s.setTxn t (x.goto .parked)
  | .reserved ws commit, .publish =>
    match s.certifier.publish t commit x.start ws s.activeTransactions with
    | .ok c => (s.setCertifier c).setTxn t (x.goto (.reviewed ws commit))
    | .error _ =>
      (s.setVersions (s.versionManager.abortWriteTimestamp commit)).setTxn t (x.goto .refused)
  | .reviewed ws commit, .finalize true => s.setTxn t (x.goto (.finalized ws commit))
  | .reviewed _ commit, .finalize false =>
    s.setVersions ((s.versionManager.abortWriteTimestamp x.start).abortWriteTimestamp commit)
      |>.setCertifier (s.certifier.unregisterReads t)
      |>.setTxn t (x.goto .parked)
  | .finalized ws commit, .settle =>
    (s.setVersions (s.versionManager.publishReservedCommit x.start commit now)).setTxn t
      ⟨{ x.context with commitTimestamp := commit }, .visible ws commit⟩
  | .visible ws commit, .leave => s.setTxn t (x.goto (.committed ws commit))
  | .active, .abort | .validated, .abort | .refused, .abort => s.abortTxn t
  | _, _ => none

-- Undoes a statement that has failed or that was dropped. A statement of a group leaves the
-- timestamp and the gate to its window.
def dropStatement (s : System n m k) (u : Fin m) : System n m k :=
  let x := s.statements u
  match x.home with
  | .own =>
    (s.setVersions (s.versionManager.abortWriteTimestamp x.start)).setGate s.gate.release
      |>.setStatement u (x.goto .failed)
  | .batch _ =>
    (s.setVersions (s.versionManager.abortWriteTimestamp x.start)).setStatement u (x.goto .failed)
  | .group _ => s.setStatement u (x.goto .failed)

-- `bind_statement`: the statements of a group share the timestamp of the first one.
def bindStatement (s : System n m k) (now : Instant) (u : Fin m) (w : Fin k) : Option (System n m k) :=
  let x := s.windows w
  match x.grouped, x.firstTs with
  | true, some ts => s.setStatement u ⟨.group w, ts, .new, .executing⟩
  | grouped, firstTs =>
    match s.versionManager.tryNextWriteTimestamp now with
    | .error _ => none
    | .ok (ts, vm) =>
      (s.setVersions vm).setWindow w { x with firstTs := some (firstTs.getD ts) }
        |>.setStatement u ⟨if grouped then .group w else .batch w, ts, .new, .executing⟩

-- `commit_ordered` for a timestamp: the reserved commit timestamp, or the timestamp itself if its
-- slot is settled already.
def reserveOrdered (vm : VersionManager) (now : Instant) (start : Timestamp) :
    Except VersionManagerError (Timestamp × VersionManager) :=
  match vm.reserveCommitTimestamp start now with
  | .error (.invalidTimestamp _) => .ok (start, vm)
  | r => r

def publishSettled (vm : VersionManager) (now : Instant) (start commit : Timestamp) : VersionManager :=
  if commit = start then vm else vm.publishReservedCommit start commit now

def publishCommittedWriteSet (s : System n m k) (commit : Timestamp) (ws : WriteSet) : System n m k :=
  { s with
    committedWriteSets :=
      s.committedWriteSets.publish commit ws s.versionManager.snapshotTracker.minActiveSnapshot }

def certify (s : System n m k) (u : Fin m) : System n m k :=
  let x := s.statements u
  if s.committedWriteSets.hasConflict x.writeSet x.start then
    s.dropStatement u
  else match x.home with
    | .group w =>
      let window := s.windows w
      let writeSets :=
        if x.writeSet.isEmpty then window.writeSets else window.writeSets ++ [x.writeSet]
      (s.setWindow w { window with writeSets := writeSets }).setStatement u
        (x.goto (if window.phase = .opened then .grouped else .orphaned))
    | _ => s.setStatement u (x.goto .certified)

def statementStep (s : System n m k) (now : Instant) (u : Fin m) (call : StatementCall k) :
    Option (System n m k) :=
  let x := s.statements u
  match x.phase, call with
  | .unborn, .begin thread =>
    match s.gate.acquire thread, s.versionManager.tryNextWriteTimestamp now with
    | some gate, .ok (ts, vm) =>
      ((s.setGate gate).setVersions vm).setStatement u ⟨.own, ts, .new, .executing⟩
    | _, _ => none
  | .unborn, .bind w => if (s.windows w).phase = .opened then s.bindStatement now u w else none
  | .executing, .write access =>
    s.setStatement u { x with writeSet := x.writeSet.recordWrite access }
  | .executing, .certify => s.certify u
  | .executing, .fail => s.dropStatement u
  | .certified, .apply true => s.setStatement u (x.goto .applied)
  | .certified, .apply false => s.dropStatement u
  | .applied, .reserve =>
    match reserveOrdered s.versionManager now x.start with
    | .ok (commit, vm) => (s.setVersions vm).setStatement u (x.goto (.reserved commit))
    | .error _ => s.dropStatement u
  | .reserved commit, .settle =>
    (s.setVersions (publishSettled s.versionManager now x.start commit)).setStatement u
      (x.goto (.settled commit))
  | .settled commit, .publish =>
    (s.publishCommittedWriteSet commit x.writeSet).setStatement u (x.goto (.published commit))
  | .published commit, .release =>
    (if x.home = .own then s.setGate s.gate.release else s).setStatement u
      (x.goto (.committed commit))
  | _, _ => none

-- `rollback_group`. The lease that a group would abort through is gone, so its timestamp is aborted
-- directly.
def rollbackGroup (s : System n m k) (w : Fin k) : System n m k :=
  let x := s.windows w
  let vm := match x.firstTs with
    | some ts => s.versionManager.abortWriteTimestamp ts
    | none => s.versionManager
  (s.setVersions vm).setGate s.gate.release
    |>.setWindow w { x with writeSets := [], phase := .closed none }

-- A failed sync or reservation returns without rolling back, and the window stays open.
def windowStep (s : System n m k) (now : Instant) (w : Fin k) (call : WindowCall) : Option (System n m k) :=
  let x := s.windows w
  match x.phase, call with
  | .unborn, .begin thread grouped =>
    match s.gate.acquire thread with
    | some gate => (s.setGate gate).setWindow w ⟨grouped, none, [], .opened⟩
    | none => none
  -- `finalize`, or the drop of the window
  | .opened, .finalize =>
    (s.setGate s.gate.release).setWindow w (x.goto (.closed none))
  | .opened, .rollback => if x.grouped then s.rollbackGroup w else none
  | .opened, .apply ok =>
    if x.grouped then
      if ok then s.setWindow w (x.goto .applied) else s.rollbackGroup w
    else none
  | .applied, .append ok =>
    if ok then s.setWindow w (x.goto .appended) else s.rollbackGroup w
  | .appended, .sync ok => s.setWindow w (x.goto (if ok then .synced else .opened))
  | .synced, .reserve =>
    match x.firstTs with
    | none => (s.setGate s.gate.release).setWindow w (x.goto (.closed none))
    | some ts =>
      match reserveOrdered s.versionManager now ts with
      | .ok (commit, vm) => (s.setVersions vm).setWindow w (x.goto (.reserved commit))
      | .error _ => s.setWindow w (x.goto .opened)
  | .reserved commit, .settle =>
    (s.setVersions (publishSettled s.versionManager now (x.firstTs.getD 0) commit)).setWindow w
      (x.goto (.settled commit))
  | .settled commit, .publish =>
    (s.publishCommittedWriteSet commit (x.writeSets.foldl .merge .new)).setWindow w
      { x with writeSets := [], phase := .published commit }
  | .published commit, .release =>
    (s.setGate s.gate.release).setWindow w (x.goto (.closed commit))
  | _, _ => none

-- The reaper spares the timestamps of the transactions that are still listed.
def reap (s : System n m k) (now : Instant) (timeout : Duration) : System n m k :=
  let owned := s.activeTransactions.map (·.2.startTimestamp)
  s.setVersions (s.versionManager.reapExpiredWriteTimestamps timeout owned now).2

def step (s : System n m k) (e : Event n m k) : Option (System n m k) :=
  match e.call with
  | .txn t call => s.txnStep e.now t call
  | .statement u call => s.statementStep e.now u call
  | .window w call => s.windowStep e.now w call
  | .reap timeout => s.reap e.now timeout

end System
end TwoPath
end Linkrs
