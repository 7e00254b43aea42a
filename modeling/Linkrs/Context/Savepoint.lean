import Linkrs.Context.Journal

namespace Linkrs

open List SavepointManager FileBackedUndoLog

-- A transaction context with its journal, its undo log and its savepoints.
structure JournaledContext (ε : Type) extends TransactionContext where
  id : TransactionId
  mutationJournal : MutationJournal ε
  undoLogs : FileBackedUndoLog ε
  modifiedTables : List String
  localWal : LocalWalBuffer
  savepointManager : SavepointManager

namespace JournaledContext

variable {ε σ : Type}

def new (ctx : TransactionContext) (id : TransactionId) (memoryOverflowThreshold : ℕ) :
    JournaledContext ε where
  toTransactionContext := ctx
  id := id
  mutationJournal := .new
  undoLogs := .new memoryOverflowThreshold
  modifiedTables := []
  localWal := .new
  savepointManager := .new

variable (orderingKey : IndexMutation → String) (target : UndoTarget ε σ)
variable (ctx : JournaledContext ε)

-- Intents that are not valid are left out.
def rebuildDerivedLogs : JournaledContext ε :=
  let cleared := ctx.mutationJournal.redoEntries.foldl LocalWalBuffer.appendFullEntry .new
  { ctx with
    localWal := ctx.mutationJournal.walIntents.foldl
      (fun buffer intent => (buffer.appendIntent intent).toOption.getD buffer) cleared }

def recordTableModification (table : String) : JournaledContext ε :=
  if table ∈ ctx.modifiedTables then ctx
  else { ctx with modifiedTables := ctx.modifiedTables ++ [table] }

def addUndoLog (entry : ε) (s : σ) : Except TransactionError Unit × JournaledContext ε × σ :=
  let (added, log, s) := ctx.undoLogs.add target entry s
  (added.mapError fun _ => .internal, { ctx with undoLogs := log }, s)

def mutationRecord (mutation : Mutation ε) : TransactionMutationRecord ε where
  sequence := ctx.mutationJournal.len
  transactionId := ctx.id
  entityKeys := mutation.entityKeys
  resource := mutation.inferredResource
  undo := mutation.undoEntry
  redo := mutation.redoEntry.map fun redo =>
    { redo with mutationSequence := some ctx.mutationJournal.nextSequence }
  indexIntents := mutation.indexIntents
  modifiedTable := mutation.modifiedTable
  writeTimestamp := ctx.startTimestamp
  commitTimestamp := none

-- The journal record and the write set stay even if the undo entry cannot be added.
def recordMutation (mutation : Mutation ε) (expired : Bool) (s : σ) :
    Except TransactionError Unit × JournaledContext ε × σ :=
  match ctx.toTransactionContext.recordMutation (mutation.result orderingKey) expired with
  | (.error e, base) => (.error e, { ctx with toTransactionContext := base }, s)
  | (.ok (), base) =>
    let recorded : JournaledContext ε :=
      { ctx with
        toTransactionContext := base
        mutationJournal := ctx.mutationJournal.push (ctx.mutationRecord mutation) }
    let (added, recorded, s) := match mutation.undoEntry with
      | some entry => recorded.addUndoLog target entry s
      | none => (.ok (), recorded, s)
    match added with
    | .error e => (.error e, { recorded with writeValidated := ctx.writeValidated }, s)
    | .ok () => (.ok (), mutation.modifiedTable.elim recorded recorded.recordTableModification, s)

def createSavepoint (name : Option String) (syncSequence : ℕ) : ℕ × JournaledContext ε :=
  let (id, manager) := ctx.savepointManager.createSavepoint
    { name := name
      sequence := 0
      undoLogIndex := ctx.undoLogs.len
      syncSequence := syncSequence
      writeSet := ctx.writeSet
      readSet := ctx.readSet
      modifiedTables := ctx.modifiedTables
      journalLen := ctx.mutationJournal.len
      journalNextSequence := ctx.mutationJournal.nextSequence
      stagedWriteMark := none }
  (id, { ctx with savepointManager := manager })

def getSavepoint (id : ℕ) : Option SavepointInfo :=
  ctx.savepointManager.savepoints id

def setSavepointStagingMark (id : ℕ) (mark : Option StagedWriteMark) :
    Except SavepointError Unit × JournaledContext ε :=
  match ctx.getSavepoint id with
  | none => (.error (.savepointNotFound id), ctx)
  | some _ =>
    (.ok (), { ctx with savepointManager := ctx.savepointManager.setStagingMark id mark })

def releaseSavepoint (id : ℕ) : Except SavepointError Unit × JournaledContext ε :=
  match ctx.getSavepoint id with
  | none => (.error (.savepointNotFound id), ctx)
  | some _ =>
    (.ok (), { ctx with savepointManager := ctx.savepointManager.removeSavepoint id })

-- Everything that is restored once undo log and staging buffer have been rolled back.
def restore (info : SavepointInfo) : Except SavepointError Unit × JournaledContext ε :=
  let ctx := { ctx with
    writeSet := info.writeSet
    writeValidated := false
    readSet := info.readSet
    modifiedTables := info.modifiedTables }
  if ctx.mutationJournal.len < info.journalLen then
    (.error (.rollbackFailed "savepoint journal length exceeds current journal"), ctx)
  else
    let ctx := rebuildDerivedLogs
      { ctx with mutationJournal := ctx.mutationJournal.truncate info.journalLen }
    (.ok (), { ctx with
      mutationCount := ctx.mutationJournal.len
      undoBytes := ctx.mutationJournal.len * 64 })

def rollbackStagedWrites (mark : Option StagedWriteMark) (s : σ) : UndoLogResult Unit × σ :=
  mark.elim (.ok (), s) fun mark => target.rollbackStagedWrites ctx.id mark s

-- A rollback that fails has dropped the later savepoints, and it may have undone some of the entries.
def rollbackToSavepoint (id : ℕ) (expired : Bool) (s : σ) : Except SavepointError Unit × JournaledContext ε × σ :=
  if !ctx.state.canExecute then (.error (.invalidStateForAbort ctx.state), ctx, s)
  else if expired then (.error .transactionExpired, ctx, s)
  else match ctx.getSavepoint id with
    | none => (.error (.savepointNotFound id), ctx, s)
    | some info =>
      match info.validateAgainst ctx.mutationJournal with
      | .error e =>
        (.error (.rollbackFailed s!"savepoint journal invariant violated: {e}"), ctx, s)
      | .ok () =>
        let ctx := { ctx with savepointManager := ctx.savepointManager.removeAfter info.sequence }
        match ctx.undoLogs.executeUndoFromIndex target ctx.startTimestamp info.undoLogIndex s with
        | (.error e, log, s) =>
          (.error (.rollbackFailed (SavepointError.rollbackFailedText e.message)), { ctx with undoLogs := log }, s)
        | (.ok (), log, s) =>
          let ctx := { ctx with undoLogs := log }
          match ctx.rollbackStagedWrites target info.stagedWriteMark s with
          | (.error e, s) => (.error (.rollbackFailed e.message), ctx, s)
          | (.ok (), s) => let (restored, ctx) := ctx.restore info; (restored, ctx, s)

end JournaledContext

-- The calls that change what a savepoint stands for.
inductive ContextCall (ε : Type) where
  | recordMutation (mutation : Mutation ε) (expired : Bool)
  | recordRead (access : ReadAccess)
  | recordWrite (access : WriteAccess)
  | recordTableModification (table : String)
  | addUndoLog (entry : ε)
  | createSavepoint (name : Option String) (syncSequence : ℕ)
  | setSavepointStagingMark (id : ℕ) (mark : Option StagedWriteMark)
  | releaseSavepoint (id : ℕ)
  | rollbackToSavepoint (id : ℕ) (expired : Bool)

namespace JournaledContext

variable {ε σ : Type} (orderingKey : IndexMutation → String) (target : UndoTarget ε σ)

def call (w : JournaledContext ε × σ) : ContextCall ε → JournaledContext ε × σ
  | .recordMutation mutation expired =>
    (w.1.recordMutation orderingKey target mutation expired w.2).2
  | .recordRead access =>
    ({ w.1 with toTransactionContext := w.1.toTransactionContext.recordRead access }, w.2)
  | .recordWrite access =>
    ({ w.1 with toTransactionContext := w.1.toTransactionContext.recordWrite access }, w.2)
  | .recordTableModification table => (w.1.recordTableModification table, w.2)
  | .addUndoLog entry => (w.1.addUndoLog target entry w.2).2
  | .createSavepoint name syncSequence => ((w.1.createSavepoint name syncSequence).2, w.2)
  | .setSavepointStagingMark id mark => ((w.1.setSavepointStagingMark id mark).2, w.2)
  | .releaseSavepoint id => ((w.1.releaseSavepoint id).2, w.2)
  | .rollbackToSavepoint id expired => (w.1.rollbackToSavepoint target id expired w.2).2

def run (w : JournaledContext ε × σ) (calls : List (ContextCall ε)) : JournaledContext ε × σ :=
  calls.foldl (call orderingKey target) w

variable {orderingKey target} {ctx ctx' a : JournaledContext ε} {s s' : σ} {id : ℕ}
variable {info : SavepointInfo} {c : ContextCall ε}

-- The context is as it was in `a`, and the derived log mirrors the journal.
structure Restores (ctx a : JournaledContext ε) : Prop where
  mutationJournal : ctx.mutationJournal = a.mutationJournal
  writeSet : ctx.writeSet = a.writeSet
  readSet : ctx.readSet = a.readSet
  modifiedTables : ctx.modifiedTables = a.modifiedTables
  undoEntries : ctx.undoLogs.entries = a.undoLogs.entries
  undoLogLen : ctx.undoLogs.len = a.undoLogs.len
  walEntries : ctx.localWal.entries = ctx.mutationJournal.redoEntries
  walIntents : ctx.localWal.intents =
    ctx.mutationJournal.walIntents.filter (·.validate.isOk)

-- The savepoints lie within the logs, and in the order in which they were created.
structure Ordered (ctx : JournaledContext ε) : Prop where
  numbered : ctx.mutationJournal.Numbered
  fresh : ∀ {id info}, ctx.getSavepoint id = some info →
    id < ctx.savepointManager.nextId ∧ info.sequence < ctx.savepointManager.nextSequence
  valid : ∀ {id info}, ctx.getSavepoint id = some info →
    info.journalLen ≤ ctx.mutationJournal.len ∧ info.journalNextSequence = info.journalLen ∧
      info.undoLogIndex ≤ ctx.undoLogs.len
  sorted : ∀ {id id' info info'}, ctx.getSavepoint id = some info →
    ctx.getSavepoint id' = some info' → info.sequence ≤ info'.sequence →
      info.journalLen ≤ info'.journalLen ∧ info.undoLogIndex ≤ info'.undoLogIndex

-- What a call does to savepoints and logs: it only adds to the logs, or creates a savepoint, or goes
-- back towards one.
inductive Moves (ctx : JournaledContext ε) (c : ContextCall ε) (ctx' : JournaledContext ε) : Prop
  | extend :
    ctx'.savepointManager.nextId = ctx.savepointManager.nextId →
    ctx'.savepointManager.nextSequence = ctx.savepointManager.nextSequence →
    (∀ id info, ctx'.getSavepoint id = some info →
      ∃ mark, ctx.getSavepoint id = some { info with stagedWriteMark := mark }) →
    ctx.mutationJournal.records <+: ctx'.mutationJournal.records →
    ctx'.mutationJournal.Numbered → ctx.undoLogs.entries <:+ ctx'.undoLogs.entries → Moves ctx c ctx'
  | create {name : Option String} {syncSequence : ℕ} :
    c = .createSavepoint name syncSequence → ctx' = (ctx.createSavepoint name syncSequence).2 →
    Moves ctx c ctx'
  | rewind {id : ℕ} {info : SavepointInfo} :
    ctx'.savepointManager.nextId = ctx.savepointManager.nextId →
    ctx'.savepointManager.nextSequence = ctx.savepointManager.nextSequence →
    ctx.getSavepoint id = some info →
    (∀ id' info', ctx'.getSavepoint id' = some info' →
      ctx.getSavepoint id' = some info' ∧ info'.sequence ≤ info.sequence) →
    info.journalLen ≤ ctx'.mutationJournal.len →
    ctx'.mutationJournal.records <+: ctx.mutationJournal.records →
    ctx'.mutationJournal.Numbered → info.undoLogIndex ≤ ctx'.undoLogs.len →
    ctx'.undoLogs.entries <:+ ctx.undoLogs.entries → Moves ctx c ctx'

section

theorem rebuildDerivedLogs_eq :
    ctx.rebuildDerivedLogs = { ctx with localWal :=
      ⟨ctx.mutationJournal.redoEntries, ctx.mutationJournal.walIntents.filter (·.validate.isOk)⟩ } := by
  have he (entries : List TransactionWalEntry) (buffer : LocalWalBuffer) :
      entries.foldl LocalWalBuffer.appendFullEntry buffer =
        ⟨buffer.entries ++ entries, buffer.intents⟩ := by
    induction entries generalizing buffer with
    | nil => simp
    | cons _ _ ind => simp [ind, LocalWalBuffer.appendFullEntry]
  have hi (intents : List OutboxIntent) (buffer : LocalWalBuffer) :
      intents.foldl (fun b intent => (b.appendIntent intent).toOption.getD b) buffer =
        ⟨buffer.entries, buffer.intents ++ intents.filter (·.validate.isOk)⟩ := by
    induction intents generalizing buffer with
    | nil => simp
    | cons i intents ind =>
      rw [foldl_cons, LocalWalBuffer.getD_appendIntent, ind, append_assoc, ← filter_append, singleton_append]
  simp [rebuildDerivedLogs, he, hi, LocalWalBuffer.new]

-- The context matches the savepoint, as far as its positions say.
structure Matches (ctx before : JournaledContext ε) (info : SavepointInfo) : Prop where
  state : ctx.state = before.state
  mutationJournal : ctx.mutationJournal =
    ⟨before.mutationJournal.records.take info.journalLen, info.journalLen⟩
  writeSet : ctx.writeSet = info.writeSet
  readSet : ctx.readSet = info.readSet
  modifiedTables : ctx.modifiedTables = info.modifiedTables
  undoLogs : ctx.undoLogs.len = info.undoLogIndex
  walEntries : ctx.localWal.entries = ctx.mutationJournal.redoEntries
  walIntents : ctx.localWal.intents =
    ctx.mutationJournal.walIntents.filter (·.validate.isOk)

theorem restore_spec (ctx : JournaledContext ε) (hj : ctx.mutationJournal.Numbered)
    (hl : info.journalLen ≤ ctx.mutationJournal.len) :
    ∃ ctx', ctx.restore info = (.ok (), ctx') ∧ ctx'.savepointManager = ctx.savepointManager ∧
      ctx'.undoLogs = ctx.undoLogs ∧ (ctx.undoLogs.len = info.undoLogIndex → ctx'.Matches ctx info) := by
  simp only [restore, if_neg (not_lt.mpr hl), hj.truncate hl, rebuildDerivedLogs_eq]
  exact ⟨_, rfl, rfl, rfl, fun hu => ⟨rfl, rfl, rfl, rfl, rfl, hu, rfl, rfl⟩⟩

theorem validateAgainst_eq_ok (h : ctx.Ordered) (hi : ctx.getSavepoint id = some info) :
    info.validateAgainst ctx.mutationJournal = .ok () := by
  have ⟨hl, hn, _⟩ := h.valid hi
  simp [SavepointInfo.validateAgainst, not_lt.mpr hl, hn]

theorem getSavepoint_removeAfter (h : (ctx.savepointManager.removeAfter n).savepoints id' = some info') :
    ctx.getSavepoint id' = some info' ∧ info'.sequence ≤ n := by
  simpa [getSavepoint, removeAfter, Option.filter_eq_some_iff] using h

-- Dropping later savepoints and undoing entries moves towards the savepoint.
theorem Ordered.rewind (h : ctx.Ordered) (hi : ctx.getSavepoint id = some info)
    (hm : ctx'.savepointManager = ctx.savepointManager.removeAfter info.sequence)
    (hj : ctx'.mutationJournal = ctx.mutationJournal ∨ ctx'.mutationJournal =
      ⟨ctx.mutationJournal.records.take info.journalLen, info.journalLen⟩)
    (hu : info.undoLogIndex ≤ ctx'.undoLogs.len)
    (hs : ctx'.undoLogs.entries <:+ ctx.undoLogs.entries) : Moves ctx c ctx' := by
  have hv := (h.valid hi).1
  refine .rewind (by simp [hm, removeAfter])
    (by simp [hm, removeAfter]) hi (fun id' info' hi' => ?_) ?_ ?_ ?_ hu hs
  · rw [getSavepoint, hm] at hi'
    exact getSavepoint_removeAfter hi'
  all_goals rcases hj with hj | hj <;> rw [hj]
  · exact hv
  · simpa [MutationJournal.len] using hv
  · exact take_prefix ..
  · exact h.numbered
  · simpa [MutationJournal.Numbered, MutationJournal.len] using hv

-- A rollback is refused, or it moves towards the savepoint, and reaches it unless something fails.
theorem rollbackToSavepoint_spec
    (h : ctx.Ordered) (he : ctx.rollbackToSavepoint target id expired s = (r, ctx', s')) :
    (∃ e, r = .error e ∧ ctx' = ctx ∧
      (ctx.state.canExecute = false ∨ expired = true ∨ ctx.getSavepoint id = none)) ∨
    ∃ info, ctx.getSavepoint id = some info ∧ ctx.state.canExecute = true ∧ Moves ctx c ctx' ∧
      (r = .ok () → ctx'.Matches ctx info ∧ ctx'.undoLogs.entries <:+ ctx.undoLogs.entries) ∧
      (target.Faultless → r = .ok ()) := by
  simp only [rollbackToSavepoint] at he
  split at he
  case isTrue hc => cases he; exact .inl ⟨_, rfl, rfl, .inl (by simpa using hc)⟩
  case isFalse hc =>
  split at he
  case isTrue hx => cases he; exact .inl ⟨_, rfl, rfl, .inr (.inl hx)⟩
  case isFalse =>
  split at he
  case h_1 hn => cases he; exact .inl ⟨_, rfl, rfl, .inr (.inr hn)⟩
  case h_2 info hi =>
  simp only [validateAgainst_eq_ok h hi] at he
  have ⟨hl, _, hu⟩ := h.valid hi
  rw [len_eq] at hu
  have hk : ctx.undoLogs.entries.drop (ctx.undoLogs.entries.length - info.undoLogIndex) <:+
      ctx.undoLogs.entries := drop_suffix ..
  have hs : (ctx.undoLogs.entries.drop
      (ctx.undoLogs.entries.length - info.undoLogIndex)).length = info.undoLogIndex := by
    rw [length_drop]
    omega
  refine .inr ⟨info, hi, by simpa using hc, ?_⟩
  split at he
  case h_1 e log s₁ hx =>
    have ⟨h₁, h₂, _, h₄⟩ := executeUndoFromIndex_spec hk hs hx
    cases he
    refine ⟨h.rewind hi rfl (.inl rfl) ?_ h₂, nofun, fun hf => nomatch h₄ hf⟩
    rw [len_eq, ← hs]
    exact h₁.length_le
  case h_2 log s₁ hx =>
    have ⟨_, h₂, h₃, _⟩ := executeUndoFromIndex_spec hk hs hx
    have hlen : log.len = info.undoLogIndex := by
      rw [len_eq, h₃ rfl, hs]
    split at he
    case h_1 e s₂ hx' =>
      cases he
      refine ⟨h.rewind hi rfl (.inl rfl) hlen.ge h₂, nofun, fun hf => ?_⟩
      cases hm : info.stagedWriteMark with
      | none => simp [rollbackStagedWrites, hm] at hx'
      | some mark =>
        have := hf.rollbackStagedWrites ctx.id mark s₁
        simp [rollbackStagedWrites, hm] at hx'
        simp [hx'] at this
    case h_2 s₂ hx' =>
      have ⟨ctx₁, hr, hm, hu₁, hM⟩ := restore_spec
        { ctx with
          savepointManager := ctx.savepointManager.removeAfter info.sequence
          undoLogs := log } h.numbered hl
      rw [hr] at he
      cases he
      have hM := hM hlen
      refine ⟨h.rewind hi hm (.inr hM.mutationJournal) (by rw [hu₁]; exact hlen.ge) ?_,
        fun _ => ⟨⟨hM.state, hM.mutationJournal, hM.writeSet, hM.readSet, hM.modifiedTables, hM.undoLogs,
          hM.walEntries, hM.walIntents⟩, ?_⟩, fun _ => rfl⟩
      · rw [hu₁]; exact h₂
      · rw [hu₁]; exact h₂

end

section

theorem Ordered.new {base : TransactionContext} {txn threshold : ℕ} :
    (JournaledContext.new base txn threshold : JournaledContext ε).Ordered := by
  constructor <;>
    simp [JournaledContext.new, getSavepoint, SavepointManager.new, MutationJournal.Numbered,
      MutationJournal.new, MutationJournal.len]

theorem Moves.of_logs (hm : ctx'.savepointManager = ctx.savepointManager)
    (hj : ctx.mutationJournal.records <+: ctx'.mutationJournal.records)
    (hn : ctx'.mutationJournal.Numbered) (hu : ctx.undoLogs.entries <:+ ctx'.undoLogs.entries) :
    Moves ctx c ctx' := by
  refine .extend (by rw [hm]) (by rw [hm]) (fun id info hi => ?_) hj hn hu
  rw [getSavepoint, hm] at hi
  exact ⟨info.stagedWriteMark, hi⟩

theorem Ordered.keep (h : ctx.Ordered) (hm : ∀ id info, ctx'.getSavepoint id = some info →
      ∃ mark, ctx.getSavepoint id = some { info with stagedWriteMark := mark })
    (hi : ctx'.savepointManager.nextId = ctx.savepointManager.nextId)
    (hs : ctx'.savepointManager.nextSequence = ctx.savepointManager.nextSequence)
    (hj : ctx'.mutationJournal = ctx.mutationJournal) (hu : ctx'.undoLogs = ctx.undoLogs) : Moves ctx c ctx' :=
  .extend hi hs hm (by rw [hj]) (by rw [hj]; exact h.numbered) (by rw [hu])

theorem Ordered.refl (h : ctx.Ordered) : Moves ctx c ctx :=
  .of_logs rfl prefix_rfl h.numbered suffix_rfl

theorem Moves.recordTableModification (hm : ctx'.savepointManager = ctx.savepointManager)
    (hj : ctx.mutationJournal.records <+: ctx'.mutationJournal.records)
    (hn : ctx'.mutationJournal.Numbered) (hu : ctx.undoLogs.entries <:+ ctx'.undoLogs.entries)
    (table : Option String) : Moves ctx c (table.elim ctx' ctx'.recordTableModification) := by
  cases table with
  | none => exact .of_logs hm hj hn hu
  | some table =>
    simp only [Option.elim_some, JournaledContext.recordTableModification]
    split
    case isTrue => exact .of_logs hm hj hn hu
    case isFalse => exact .of_logs hm hj hn hu

theorem Ordered.recordMutation (h : ctx.Ordered) (mutation : Mutation ε) (expired : Bool) :
    Moves ctx c (ctx.recordMutation orderingKey target mutation expired s).2.1 := by
  have hj : ctx.mutationJournal.records <+:
      (ctx.mutationJournal.push (ctx.mutationRecord mutation)).records :=
    prefix_append ..
  have hn := h.numbered.push (ctx.mutationRecord mutation)
  simp only [JournaledContext.recordMutation]
  split
  case h_1 => exact .of_logs rfl prefix_rfl h.numbered suffix_rfl
  case h_2 base hb =>
    cases mutation.undoEntry with
    | none =>
      apply Moves.recordTableModification
      · rfl
      · exact hj
      · exact hn
      · exact suffix_rfl
    | some entry =>
      have hu : ctx.undoLogs.entries <:+ (ctx.undoLogs.add target entry s).2.1.entries := by
        rw [entries_add]
        exact suffix_cons ..
      split
      case h_1 => exact .of_logs rfl hj hn hu
      case h_2 =>
        apply Moves.recordTableModification
        · rfl
        · exact hj
        · exact hn
        · exact hu

variable (orderingKey target s) in
theorem call_moves (h : ctx.Ordered) (c : ContextCall ε) : Moves ctx c (call orderingKey target (ctx, s) c).1 := by
  cases c with
  | recordMutation mutation expired => exact h.recordMutation mutation expired
  | recordRead access | recordWrite access => exact h.keep (fun _ _ hi => ⟨_, hi⟩) rfl rfl rfl rfl
  | recordTableModification table =>
    exact .recordTableModification rfl prefix_rfl h.numbered suffix_rfl (some table)
  | addUndoLog entry =>
    refine .of_logs rfl prefix_rfl h.numbered ?_
    simp only [call, addUndoLog, entries_add]
    exact suffix_cons ..
  | createSavepoint name sync => exact .create rfl rfl
  | setSavepointStagingMark id mark =>
    simp only [call, setSavepointStagingMark]
    split
    case h_1 => exact h.refl
    case h_2 =>
      refine h.keep (fun id' info hi => ?_) rfl rfl rfl rfl
      simp only [getSavepoint, setStagingMark, Function.update_apply] at hi ⊢
      split at hi
      case isTrue he =>
        obtain ⟨info', hi', rfl⟩ := Option.map_eq_some_iff.mp hi
        exact ⟨info'.stagedWriteMark, he ▸ hi'⟩
      case isFalse => exact ⟨_, hi⟩
  | releaseSavepoint id =>
    simp only [call, releaseSavepoint]
    split
    case h_1 => exact h.refl
    case h_2 =>
      refine h.keep (fun id' info hi => ?_) rfl rfl rfl rfl
      simp only [getSavepoint, removeSavepoint, Function.update_apply] at hi ⊢
      split at hi
      case isTrue => cases hi
      case isFalse => exact ⟨_, hi⟩
  | rollbackToSavepoint id expired =>
    rcases hr : ctx.rollbackToSavepoint target id expired s with ⟨r, ctx', s'⟩
    simp only [call, hr]
    rcases rollbackToSavepoint_spec h hr with ⟨_, _, rfl, _⟩ | ⟨_, _, _, hm, _⟩
    · exact h.refl
    · exact hm

end

section

theorem getSavepoint_createSavepoint {info : SavepointInfo}
    (h : (ctx.createSavepoint name sync).2.getSavepoint id = some info) :
    (id ≠ ctx.savepointManager.nextId ∧ ctx.getSavepoint id = some info) ∨
    (id = ctx.savepointManager.nextId ∧ info.sequence = ctx.savepointManager.nextSequence ∧
      info.journalLen = ctx.mutationJournal.len ∧ info.journalNextSequence = ctx.mutationJournal.nextSequence ∧
      info.undoLogIndex = ctx.undoLogs.len ∧ info.writeSet = ctx.writeSet ∧
      info.readSet = ctx.readSet ∧ info.modifiedTables = ctx.modifiedTables) := by
  simp only [getSavepoint, createSavepoint, SavepointManager.createSavepoint, Function.update_apply] at h
  split at h
  case isTrue hid => cases h; exact .inr ⟨hid, rfl, rfl, rfl, rfl, rfl, rfl, rfl⟩
  case isFalse hid => exact .inl ⟨hid, h⟩

theorem len_le_of_suffix (h : ctx.undoLogs.entries <:+ ctx'.undoLogs.entries) :
    ctx.undoLogs.len ≤ ctx'.undoLogs.len := by
  rw [len_eq, len_eq]
  exact h.length_le

theorem Ordered.moves (h : ctx.Ordered) (hm : Moves ctx c ctx') : ctx'.Ordered := by
  cases hm with
  | extend hid hseq hget hj hn hu =>
    have hu := len_le_of_suffix hu
    have hj := hj.length_le
    refine ⟨hn, fun hi => ?_, fun hi => ?_, fun hi hi' hs => ?_⟩
    · have ⟨_, hi⟩ := hget _ _ hi
      have := h.fresh hi
      rwa [hid, hseq]
    · have ⟨_, hi⟩ := hget _ _ hi
      have ⟨h₁, h₂, h₃⟩ := h.valid hi
      exact ⟨h₁.trans hj, h₂, h₃.trans hu⟩
    · have ⟨_, hi⟩ := hget _ _ hi
      have ⟨_, hi'⟩ := hget _ _ hi'
      have := h.sorted hi hi' hs
      exact this
  | create _ he =>
    subst he
    refine ⟨h.numbered, fun hi => ?_, fun hi => ?_, fun hi hi' hs => ?_⟩
    · rcases getSavepoint_createSavepoint hi with ⟨_, hi⟩ | ⟨hid, hseq, _⟩
      · have ⟨h₁, h₂⟩ := h.fresh hi
        exact ⟨h₁.trans (Nat.lt_succ_self _), h₂.trans (Nat.lt_succ_self _)⟩
      · rw [hid, hseq]
        exact ⟨Nat.lt_succ_self _, Nat.lt_succ_self _⟩
    · rcases getSavepoint_createSavepoint hi with ⟨_, hi⟩ | ⟨_, _, hl, hn, hu, _⟩
      · exact h.valid hi
      · exact ⟨hl.le, by rw [hn, hl]; exact h.numbered, hu.le⟩
    · rcases getSavepoint_createSavepoint hi with ⟨_, hi⟩ | ⟨_, hseq, hl, _, hu, _⟩ <;>
        rcases getSavepoint_createSavepoint hi' with ⟨_, hi'⟩ | ⟨_, hseq', hl', _, hu', _⟩
      · exact h.sorted hi hi' hs
      · have ⟨h₁, _, h₃⟩ := h.valid hi
        exact ⟨hl' ▸ h₁, hu' ▸ h₃⟩
      · have := (h.fresh hi').2
        omega
      · omega
  | rewind hid hseq hi₀ hget hl hj hn hu hs₀ =>
    refine ⟨hn, fun hi => ?_, fun hi => ?_, fun hi hi' hs => ?_⟩
    · rw [hid, hseq]
      exact h.fresh (hget _ _ hi).1
    · have ⟨hi, hs⟩ := hget _ _ hi
      have ⟨h₁, h₂⟩ := h.sorted hi hi₀ hs
      exact ⟨h₁.trans hl, (h.valid hi).2.1, h₂.trans hu⟩
    · exact h.sorted (hget _ _ hi).1 (hget _ _ hi').1 hs

-- The savepoint `id` was taken in `a`, and the logs still have what they had there.
structure Tracks (a : JournaledContext ε) (id : ℕ) (ctx : JournaledContext ε) : Prop where
  created : id < ctx.savepointManager.nextId
  records : ∀ info, ctx.getSavepoint id = some info →
    a.mutationJournal.records <+: ctx.mutationJournal.records
  entries : ∀ info, ctx.getSavepoint id = some info →
    a.undoLogs.entries <:+ ctx.undoLogs.entries
  info : ∀ info, ctx.getSavepoint id = some info →
    info.journalLen = a.mutationJournal.len ∧ info.undoLogIndex = a.undoLogs.len ∧
      info.writeSet = a.writeSet ∧ info.readSet = a.readSet ∧
      info.modifiedTables = a.modifiedTables

theorem Tracks.create : Tracks a (a.createSavepoint name sync).1 (a.createSavepoint name sync).2 := by
  refine ⟨Nat.lt_succ_self _, fun _ _ => prefix_rfl, fun _ _ => suffix_rfl, fun info hi => ?_⟩
  rcases getSavepoint_createSavepoint hi with ⟨hne, _⟩ | ⟨_, _, hl, _, hu, hw, hr, ht⟩
  · exact absurd rfl hne
  · exact ⟨hl, hu, hw, hr, ht⟩

theorem Tracks.moves (h : Tracks a id ctx) (ho : ctx.Ordered) (hm : Moves ctx c ctx') : Tracks a id ctx' := by
  cases hm with
  | extend hid _ hget hj _ hu =>
    refine ⟨hid ▸ h.created, fun info hi => ?_, fun info hi => ?_, fun info hi => ?_⟩
    all_goals have ⟨_, hi⟩ := hget _ _ hi
    · exact (h.records _ hi).trans hj
    · exact (h.entries _ hi).trans hu
    · have := h.info _ hi
      exact this
  | @create name sync _ he =>
    subst he
    have hget {info : SavepointInfo}
        (hi : (ctx.createSavepoint name sync).2.getSavepoint id = some info) :
        ctx.getSavepoint id = some info := by
      rcases getSavepoint_createSavepoint hi with ⟨_, hi⟩ | ⟨hid, _⟩
      · exact hi
      · exact absurd hid h.created.ne
    exact ⟨h.created.trans (Nat.lt_succ_self _), fun info hi => h.records _ (hget hi),
      fun info hi => h.entries _ (hget hi), fun info hi => h.info _ (hget hi)⟩
  | @rewind id₀ info₀ hid _ hi₀ hget hl hj _ hu hs₀ =>
    refine ⟨hid ▸ h.created, fun info hi => ?_, fun info hi => ?_, fun info hi => ?_⟩
    all_goals
      have ⟨hi, hs⟩ := hget _ _ hi
      have ⟨h₁, h₂⟩ := ho.sorted hi hi₀ hs
      have ⟨hl', hu', _⟩ := h.info _ hi
    · refine prefix_of_prefix_length_le (h.records _ hi) hj ?_
      have : a.mutationJournal.len ≤ ctx'.mutationJournal.len := hl' ▸ h₁.trans hl
      exact this
    · refine suffix_of_suffix_length_le (h.entries _ hi) hs₀ ?_
      rw [← len_eq, ← len_eq]
      exact hu' ▸ h₂.trans hu
    · exact h.info _ hi

variable {calls : List (ContextCall ε)}

theorem run_append :
    run orderingKey target w (pre ++ post) = run orderingKey target (run orderingKey target w pre) post :=
  foldl_append

theorem Ordered.run (h : ctx.Ordered) : (run orderingKey target (ctx, s) calls).1.Ordered := by
  induction calls generalizing ctx s with
  | nil => exact h
  | cons c cs ind => exact ind (h.moves (call_moves orderingKey target s h c))

theorem Tracks.run (h : Tracks a id ctx) (ho : ctx.Ordered) :
    Tracks a id (run orderingKey target (ctx, s) calls).1 := by
  induction calls generalizing ctx s with
  | nil => exact h
  | cons c cs ind =>
    have hm := call_moves orderingKey target s ho c
    exact ind (h.moves ho hm) (ho.moves hm)

-- A context that matches the savepoint is as it was when the savepoint was taken.
theorem Tracks.restores (h : Tracks a id ctx) (ha : a.mutationJournal.Numbered)
    (hi : ctx.getSavepoint id = some info) (hm : ctx'.Matches ctx info)
    (hu : ctx'.undoLogs.entries <:+ ctx.undoLogs.entries) : ctx'.Restores a := by
  have ⟨hl, hul, hw, hr, ht⟩ := h.info _ hi
  have hj := h.records _ hi
  have hlen : ctx'.undoLogs.len = a.undoLogs.len := hm.undoLogs.trans hul
  refine ⟨?_, hm.writeSet.trans hw, hm.readSet.trans hr, hm.modifiedTables.trans ht, ?_, hlen,
    hm.walEntries, hm.walIntents⟩
  · rw [hm.mutationJournal, hl, MutationJournal.len, ← prefix_iff_eq_take.mp hj]
    exact congrArg (MutationJournal.mk _) ha.symm
  · rw [len_eq, len_eq] at hlen
    have hs := suffix_of_suffix_length_le hu (h.entries _ hi) hlen.le
    exact hs.eq_of_length hlen

-- Only `createSavepoint` makes savepoints.
theorem getSavepoint_call (h : ctx.Ordered)
    (hi : (call orderingKey target (ctx, s) c).1.getSavepoint id = some info) :
    (∃ info', ctx.getSavepoint id = some info') ∨
    ∃ name sync, c = .createSavepoint name sync ∧ id = (ctx.createSavepoint name sync).1 := by
  cases call_moves orderingKey target s h c with
  | extend _ _ hget _ _ _ =>
    have ⟨_, hi⟩ := hget _ _ hi
    exact .inl ⟨_, hi⟩
  | @create name sync hc he =>
    rw [he] at hi
    rcases getSavepoint_createSavepoint hi with ⟨_, hi⟩ | ⟨hid, _⟩
    · exact .inl ⟨info, hi⟩
    · exact .inr ⟨name, sync, hc, hid⟩
  | rewind _ _ _ hget _ _ _ _ _ => exact .inl ⟨info, (hget _ _ hi).1⟩

variable (orderingKey target s) in
theorem exists_created (h : ctx.Ordered) (calls : List (ContextCall ε))
    (hi : (run orderingKey target (ctx, s) calls).1.getSavepoint id = some info) :
    (∃ info', ctx.getSavepoint id = some info') ∨
    ∃ pre name sync post, calls = pre ++ .createSavepoint name sync :: post ∧
      id = ((run orderingKey target (ctx, s) pre).1.createSavepoint name sync).1 := by
  induction calls generalizing ctx s with
  | nil => exact .inl ⟨info, hi⟩
  | cons c cs ind =>
    rcases ind _ (h.moves (call_moves orderingKey target s h c)) hi with
      ⟨info', hi'⟩ | ⟨pre, name, sync, post, rfl, he⟩
    · rcases getSavepoint_call h hi' with ho | ⟨name, sync, rfl, he⟩
      · exact .inl ho
      · exact .inr ⟨[], name, sync, cs, rfl, he⟩
    · exact .inr ⟨c :: pre, name, sync, post, rfl, he⟩

end

section

-- In a faultless environment every savepoint can be rolled back to.
theorem Ordered.exists_rollback (h : ctx.Ordered) (hx : ctx.state.canExecute = true)
    (hi : ctx.getSavepoint id = some info) (hf : target.Faultless) (s : σ) :
    ∃ ctx' s', ctx.rollbackToSavepoint target id false s = (.ok (), ctx', s') ∧
      ctx'.Matches ctx info ∧ ctx'.undoLogs.entries <:+ ctx.undoLogs.entries := by
  rcases hr : ctx.rollbackToSavepoint target id false s with ⟨r, ctx', s'⟩
  rcases rollbackToSavepoint_spec (c := .rollbackToSavepoint id false) h hr with
    ⟨_, _, _, hn | hn | hn⟩ | ⟨info', hi', _, _, hM, hok⟩
  · simp [hx] at hn
  · cases hn
  · simp [hi] at hn
  · cases hi.symm.trans hi'
    have hok := hok hf
    exact ⟨ctx', s', by rw [hok], hM hok⟩

variable (orderingKey target s) in
theorem tracks_created (h : ctx.Ordered) (pre post : List (ContextCall ε)) (name : Option String)
    (sync : ℕ) : Tracks (run orderingKey target (ctx, s) pre).1
      ((run orderingKey target (ctx, s) pre).1.createSavepoint name sync).1
      (run orderingKey target (ctx, s) (pre ++ .createSavepoint name sync :: post)).1 := by
  rw [run_append]
  have ho : (run orderingKey target (ctx, s) pre).1.Ordered := h.run
  exact Tracks.create.run (ho.moves (.create (c := .createSavepoint name sync) rfl rfl))

theorem getSavepoint_of_rollback
    (h : ctx.Ordered) (hr : ctx.rollbackToSavepoint target id' expired s = (r, ctx', s'))
    (hi : ctx'.getSavepoint id = some info) : ∃ info, ctx.getSavepoint id = some info := by
  have he : ctx' = (call (fun _ => "") target (ctx, s) (.rollbackToSavepoint id' expired)).1 := by
    simp only [call, hr]
  rcases getSavepoint_call h (he ▸ hi) with hi | ⟨_, _, hc, _⟩
  · exact hi
  · cases hc

-- Rolling back to a savepoint restores the context in which it was taken, and all savepoints that are
-- left can still be rolled back to.
theorem rollback_restores_savepoint {base : TransactionContext} {txn threshold sync : ℕ} {s₀ : σ}
    {pre post : List (ContextCall ε)} {name : Option String} {a b c : JournaledContext ε}
    {sa sb sc : σ} {expired : Bool} (ha : run orderingKey target (.new base txn threshold, s₀) pre = (a, sa))
    (hb : run orderingKey target ((a.createSavepoint name sync).2, sa) post = (b, sb))
    (hc : b.rollbackToSavepoint target (a.createSavepoint name sync).1 expired sb =
      (.ok (), c, sc)) : c.Restores a ∧ ∀ id info, c.getSavepoint id = some info →
      ∃ pre' name' sync' post', pre ++ .createSavepoint name sync :: post =
          pre' ++ .createSavepoint name' sync' :: post' ∧
        id = ((run orderingKey target (.new base txn threshold, s₀) pre').1.createSavepoint
          name' sync').1 ∧ ∀ (target' : UndoTarget ε σ) (s : σ), target'.Faultless →
          ∃ c' s', c.rollbackToSavepoint target' id false s = (.ok (), c', s') ∧
            c'.Restores (run orderingKey target (.new base txn threshold, s₀) pre').1 := by
  have hnew : (.new base txn threshold : JournaledContext ε).Ordered := .new
  have hrun : run orderingKey target (.new base txn threshold, s₀)
      (pre ++ .createSavepoint name sync :: post) = (b, sb) := by
    rw [run_append, ha]
    exact hb
  have ho (calls : List (ContextCall ε)) :
      (run orderingKey target (.new base txn threshold, s₀) calls).1.Ordered := hnew.run
  have hob : b.Ordered := by simpa [hrun] using ho (pre ++ .createSavepoint name sync :: post)
  have ht : Tracks a (a.createSavepoint name sync).1 b := by
    simpa [ha, hrun] using tracks_created orderingKey target s₀ hnew pre post name sync
  rcases rollbackToSavepoint_spec (c := .rollbackToSavepoint 0 expired) hob hc with
    ⟨_, hr, _⟩ | ⟨info, hi, hx, hm, hM, _⟩
  · cases hr
  have ⟨hM, hu⟩ := hM rfl
  refine ⟨ht.restores (by simpa [ha] using (ho pre).numbered) hi hM hu, fun id info' hi' => ?_⟩
  have ⟨info₀, hi₀⟩ := getSavepoint_of_rollback hob hc hi'
  rcases exists_created orderingKey target s₀ hnew (pre ++ .createSavepoint name sync :: post)
    (by rw [hrun]; exact hi₀) with ⟨_, hn⟩ | ⟨pre', name', sync', post', hs, he⟩
  · simp [getSavepoint, JournaledContext.new, SavepointManager.new] at hn
  refine ⟨pre', name', sync', post', hs, he, fun target' s hf => ?_⟩
  have htc := tracks_created orderingKey target s₀ hnew pre' post' name' sync'
  rw [← hs, hrun, ← he] at htc
  have ⟨c', s', hr, hM', hu'⟩ := (hob.moves hm).exists_rollback (hM.state ▸ hx) hi' hf s
  exact ⟨c', s', hr, (htc.moves hob hm).restores (ho pre').numbered hi' hM' hu'⟩

-- A target that undoes everything it is given.
def obedient : UndoTarget ℕ Unit where
  undo _ _ _ := (.ok (), ())
  rollbackStagedWrites _ _ _ := (.ok (), ())
  writeBlock _ _ := (.ok (), ())
  readBlock _ _ := (.ok (), ())

def someMutation (entry : ℕ) : Mutation ℕ where
  entityKeys := []
  undoEntry := some entry
  redoEntry := some ⟨.insertVertex, 7, [], none⟩
  modifiedTable := some "vertex"
  indexIntents := []
  resource := .unknown

def someContext : TransactionContext :=
  .new .write 7 .repeatableRead .default

def atSavepoint : JournaledContext ℕ × Unit :=
  run (fun _ => "") obedient (.new someContext 1 1, ())
    [.createSavepoint none 0, .recordMutation (someMutation 1) false]

def afterSavepoint : JournaledContext ℕ × Unit :=
  run (fun _ => "") obedient ((atSavepoint.1.createSavepoint (some "sp") 0).2, ())
    [.recordMutation (someMutation 2) false, .createSavepoint none 0, .recordMutation (someMutation 3) false]

-- There is one savepoint before and one after the one that is rolled back to, and every undo entry
-- has been spilled.
theorem rollback_restores_savepoint_nested : (afterSavepoint.1.rollbackToSavepoint obedient
      (atSavepoint.1.createSavepoint (some "sp") 0).1 false ()).1 = .ok () ∧
    (afterSavepoint.1.rollbackToSavepoint obedient
      (atSavepoint.1.createSavepoint (some "sp") 0).1 false ()).2.1.Restores atSavepoint.1 := by
  have hr : (afterSavepoint.1.rollbackToSavepoint obedient
      (atSavepoint.1.createSavepoint (some "sp") 0).1 false ()).1 = .ok () := by
    decide +kernel
  have ha : run (fun _ => "") obedient (.new someContext 1 1, ())
      [.createSavepoint none 0, .recordMutation (someMutation 1) false] =
        (atSavepoint.1, ()) := rfl
  exact ⟨hr, (rollback_restores_savepoint ha rfl (Prod.ext hr rfl)).1⟩

end

end JournaledContext
end Linkrs
