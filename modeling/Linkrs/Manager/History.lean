import Linkrs.Manager.Routines

namespace Linkrs

abbrev CallId := ℕ

-- How a transaction comes into the world: its identifier is handed out, its context is built, and
-- it is put into the active table or turned away by the single-writer exclusion.
inductive Birth where
  | unborn
  | named
  | begun
  | listed
  | rejected
  deriving DecidableEq, Repr

-- How far the commit call has come that moved a transaction to `Committing`. The write set is the
-- one of its descriptor; the commit timestamp of a reader is zero.
inductive Stage where
  | idle
  | sealed
  | described (ws : WriteSet)
  | reserved (ws : WriteSet) (commit : Timestamp)
  | certified (ws : WriteSet) (commit : Timestamp)
  | refused (ws : WriteSet) (commit : Timestamp)
  | marked (ws : WriteSet) (commit : Timestamp)
  | settled (ws : WriteSet) (commit : Timestamp)
  -- Left to recovery: without a commit timestamp, not finalized, or visible but not cleaned up.
  | parked (ws : WriteSet)
  | unfinalized (ws : WriteSet) (commit : Timestamp)
  | leftover (ws : WriteSet) (commit : Timestamp)
  -- Given up by the commit call itself.
  | withdrawn
  deriving DecidableEq

namespace Stage

def reserve (commit : Timestamp) : Stage → Stage
  | described ws => reserved ws commit
  | s => s

def certify (passed : Bool) : Stage → Stage
  | reserved ws commit => if passed then certified ws commit else refused ws commit
  | s => s

def mark : Stage → Stage
  | described ws => marked ws 0
  | reserved ws commit => marked ws commit
  | certified ws commit => marked ws commit
  | s => s

def settle : Stage → Stage
  | marked ws commit => settled ws commit
  | s => s

def park : Stage → Stage
  | described ws => parked ws
  | marked ws commit => unfinalized ws commit
  | settled ws commit => leftover ws commit
  | s => s

-- Past the snapshot of the write set.
def isDescribed : Stage → Bool
  | idle | sealed => false
  | _ => true

-- Past `mark_commit_published`.
def isMarked : Stage → Bool
  | marked .. | settled .. | unfinalized .. | leftover .. => true
  | _ => false

def isFinal : Stage → Bool
  | parked _ | unfinalized .. | leftover .. => true
  | _ => false

-- The commit timestamp that was reserved.
def commitTimestamp : Stage → Option Timestamp
  | reserved _ commit | certified _ commit | refused _ commit | marked _ commit
  | settled _ commit | unfinalized _ commit | leftover _ commit => some commit
  | _ => none

-- The commit timestamp with which `publish_reserved_commit` was executed.
def published : Stage → Option Timestamp
  | settled _ commit | leftover _ commit => some commit
  | _ => none

theorem isMarked_park (s : Stage) : s.park.isMarked = s.isMarked := by
  cases s <;> rfl

theorem isDescribed_park (s : Stage) : s.park.isDescribed = s.isDescribed := by
  cases s <;> rfl

theorem published_park (s : Stage) : s.park.published = s.published := by
  cases s <;> rfl

theorem commitTimestamp_park (s : Stage) : s.park.commitTimestamp = s.commitTimestamp := by
  cases s <;> rfl

theorem park_eq_idle : s.park = idle ↔ s = idle := by
  cases s <;> simp [park]

theorem park_of_isFinal {s : Stage} (h : s.isFinal) : s.park = s := by
  cases s <;> first | rfl | contradiction

end Stage

structure TxnHistory where
  creator : Option CallId
  birth : Birth
  -- The commit call that moved the transaction to `Committing` and how far it has come.
  owner : Option CallId
  stage : Stage
  -- The call that moved the transaction to `Aborting`, and the one that took its recovery record.
  aborter : Option CallId
  recoverer : Option CallId
  -- Whether the undo log has been run.
  undone : Bool
  -- Whether a batch was appended whose durability could not be confirmed.
  awaitFailed : Bool
  -- The number of the last successful check, as long as nothing has been recorded since.
  checkedAt : Option ℕ

def TxnHistory.new : TxnHistory where
  creator := none
  birth := .unborn
  owner := none
  stage := .idle
  aborter := none
  recoverer := none
  undone := false
  awaitFailed := false
  checkedAt := none

-- What an observer of all critical sections remembers. The manager never looks at it.
structure History where
  txns : TransactionId → TxnHistory
  -- The watermark a call has read, and the read timestamp it has loaded but not pinned yet.
  watermark : CallId → Option Timestamp
  loaded : CallId → Option Timestamp
  -- The number of successful checks.
  checks : ℕ
  -- Every write set that was ever entered among the committed ones.
  inserted : List (Timestamp × WriteSet)

namespace History

def new : History where
  txns := fun _ => .new
  watermark := fun _ => none
  loaded := fun _ => none
  checks := 0
  inserted := []

def modify (h : History) (t : TransactionId) (f : TxnHistory → TxnHistory) : History :=
  { h with txns := fun t' => if t' = t then f (h.txns t) else h.txns t' }

@[simp]
theorem txns_modify (h : History) (t t' : TransactionId) (f : TxnHistory → TxnHistory) :
    (h.modify t f).txns t' = if t' = t then f (h.txns t) else h.txns t' :=
  rfl

def setLoaded (h : History) (c : CallId) (ts : Option Timestamp) : History :=
  { h with loaded := fun c' => if c' = c then ts else h.loaded c' }

@[simp]
theorem txns_setLoaded (h : History) (c : CallId) (ts : Option Timestamp) : (h.setLoaded c ts).txns = h.txns :=
  rfl

-- Notes the step in which the call `c` performed `a` in `m` and was answered `r`.
def observe (h : History) (c : CallId) (m : TransactionManager) : (a : Action) → a.Answer → History
  | .nextId, t => h.modify t ({ · with creator := some c, birth := .named })
  | .acquireInsertTimestamp t _, .ok _ => h.modify t ({ · with birth := .begun })
  | .loadReadTimestamp, ts => h.setLoaded c (some ts)
  | .addSnapshot t _ _, _ => h.setLoaded c none |>.modify t ({ · with birth := .begun })
  | .insertActive t, _ => h.modify t ({ · with birth := .listed })
  | .abortWriteTimestamp t _, _ => h.modify t fun x =>
      { x with birth := if x.birth = .begun then .rejected else x.birth }
  | .recordMutation t _, _ | .recordWrite t _, _ | .recordRead t _, _ =>
    h.modify t ({ · with checkedAt := none })
  | .checkWriteSetConflict t, .ok () =>
    -- A check that comes after the transition to `Committing` decides nothing.
    { h.modify t fun x =>
        if (m.contexts t).state = .active then { x with checkedAt := some h.checks } else x with
      checks := h.checks + 1 }
  | .transitionTo t .committing, .ok () =>
    h.modify t ({ · with owner := some c, stage := .sealed })
  | .transitionTo t .aborting, .ok () => h.modify t fun x =>
      { x with
        stage := if x.owner = some c then .withdrawn else x.stage
        aborter := some c }
  | .buildCommitDescriptor t, ws => h.modify t ({ · with stage := .described ws })
  | .awaitDurable t, false => h.modify t ({ · with awaitFailed := true })
  | .getSafeGcTimestamp, ts =>
    { h with watermark := fun c' => if c' = c then some ts else h.watermark c' }
  | .reserveCommitTimestamp t _, .ok commit =>
    h.modify t fun x => { x with stage := x.stage.reserve commit }
  | .publish t commit _ ws, .ok () =>
    { h.modify t fun x => { x with stage := x.stage.certify true } with
      inserted := (commit, ws) :: h.inserted }
  | .publish t _ _ _, .error _ => h.modify t fun x => { x with stage := x.stage.certify false }
  | .forcePublish _ commit ws, _ => { h with inserted := (commit, ws) :: h.inserted }
  | .markCommitPublished t, _ => h.modify t fun x => { x with stage := x.stage.mark }
  | .recordPending p, _ => h.modify p.txnId fun x =>
      { x with
        stage := if x.owner = some c then x.stage.park else x.stage
        recoverer := if x.recoverer = some c then none else x.recoverer }
  | .takePending t, some _ => h.modify t ({ · with recoverer := some c })
  | .publishReservedCommit t _ _, _ => h.modify t fun x => { x with stage := x.stage.settle }
  | .executeUndoLogs t, _ => h.modify t ({ · with undone := true })
  | _, _ => h

end History

-- The manager together with its observer.
structure World where
  manager : TransactionManager
  history : History

namespace World

def new (config : ManagerConfig) : World where
  manager := .new config
  history := .new

def exec (config : ManagerConfig) (c : CallId) (a : Action) (env : Env) (w : World) : a.Answer × World :=
  let (r, m) := w.manager.perform config env a
  (r, { manager := m, history := w.history.observe c w.manager a r })

theorem history_exec {w : World} :
    (w.exec config c a env).2.history = w.history.observe c w.manager a (w.exec config c a env).1 :=
  rfl

variable (w : World) (t : TransactionId)

abbrev ctx : TransactionContext := w.manager.contexts t
abbrev vm : VersionManager := w.manager.versionManager
abbrev txn : TxnHistory := w.history.txns t

def published : Option Timestamp :=
  (w.txn t).stage.published

end World

-- The manager as a machine whose calls interleave at the critical sections.
def machine (config : ManagerConfig) :
    Concurrent.Machine CallId Request Env World Response Action.Answer where
  exec := World.exec config
  routine := routine config

-- A step with nothing remarkable about its environment.
def fine : Env where
  now := 0
  ok := true

def beginWriter (c : CallId) (t : TransactionId) (access : WriteAccess) :
    List (Concurrent.Event CallId Request Env) :=
  [.call c (Request.beginInsert .readCommitted)] ++ Concurrent.Event.ticks c fine 4 ++
  [.call (c + 1) (Request.recordWrite t access)] ++ Concurrent.Event.ticks (c + 1) fine 2

end Linkrs
