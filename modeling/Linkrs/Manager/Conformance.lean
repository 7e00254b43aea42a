import Linkrs.Manager.Stability

namespace Linkrs

open Concurrent Protocol History TransactionManager

variable {config : ManagerConfig} {c : CallId} {t : TransactionId} {p : World → Prop} {β : Type}
  {post : β → World → Prop}

abbrev Conforms (config : ManagerConfig) (c : CallId) (pre : World → Prop) (prog : Routine β)
    (post : β → World → Prop) : Prop :=
  (protocol config).Triple c pre prog post

namespace Conforms

section

variable {a : Action} {f : a.Answer → Routine β}

theorem act {q : a.Answer → World → Prop} (hs : (protocol config).Stable c p)
    (hr : ∀ w, Coherent w → p w → Rule config c w a)
    (hx : ∀ w e, Coherent w → p w → q (w.exec config c a e).1 (w.exec config c a e).2)
    (hf : ∀ r, Conforms config c (q r) (f r) post) : Conforms config c p (perform a >>= f) post :=
  Triple.act hs hr hx hf

theorem keep (hs : (protocol config).Stable c p) (hr : ∀ w, Coherent w → p w → Rule config c w a)
    (hx : ∀ (w : World) e, Coherent w → p w → p (w.exec config c a e).2)
    (hf : ∀ r, Conforms config c p (f r) post) : Conforms config c p (perform a >>= f) post :=
  act (q := fun _ => p) hs hr hx hf

theorem look (hs : (protocol config).Stable c p) (hr : ∀ w, Rule config c w a)
    (hx : ∀ (w : World) e, (w.exec config c a e).2 = w)
    (hf : ∀ r, Conforms config c p (f r) post) : Conforms config c p (perform a >>= f) post :=
  keep hs (fun w _ _ => hr w) (fun w e _ h => (hx w e).symm ▸ h) hf

theorem last {post : a.Answer → World → Prop} (hs : (protocol config).Stable c p)
    (hp : ∀ r, (protocol config).Stable c (post r)) (hr : ∀ w, Coherent w → p w → Rule config c w a)
    (hx : ∀ w e, Coherent w → p w → post (w.exec config c a e).1 (w.exec config c a e).2) :
    Conforms config c p (perform a) post :=
  Triple.perform hs hp hr hx

end

theorem find {f : Bool → Routine β} (hs : (protocol config).Stable c p)
    (ht : Conforms config c (fun w => p w ∧ w.Listed t) (f true) post)
    (hf : Conforms config c p (f false) post) : Conforms config c p (perform (.isActive t) >>= f) post := by
  refine act (q := fun r w => p w ∧ (r = true → w.Listed t)) hs (fun _ _ _ => .isActive)
    (fun w e hi h => ⟨h, fun hr => hi.active t (of_decide_eq_true hr)⟩) fun r => ?_
  cases r with
  | true => exact ht.weaken fun _ _ h => ⟨h.1, h.2 rfl⟩
  | false => exact hf.weaken fun _ _ h => h.1

theorem inspect {f : TransactionContext → Routine β} (hs : (protocol config).Stable c p)
    (hl : ∀ w, Coherent w → p w → w.Listed t)
    (hf : ∀ ctx, Conforms config c (fun w => p w ∧ w.Reads t ctx) (f ctx) post) :
    Conforms config c p (perform (.readContext t) >>= f) post :=
  act hs (fun _ _ _ => .readContext) (fun w _ hi h => ⟨h, hl w hi h, rfl, rfl⟩) hf

end Conforms

open Conforms

section

theorem runLocalUndo_conforms :
    Conforms config c (·.Aborts c t) (runLocalUndo t) fun _ w => w.Aborts c t := by
  refine keep stable_aborts (fun _ _ h => .executeUndoLogs h) (fun w e _ h => ?_) fun r => ?_
  · simpa [World.Aborts, World.txn, World.exec, observe] using h
  · refine .ite (fun _ => .pure stable_aborts fun _ _ h => h) fun _ => ?_
    exact last stable_aborts (fun _ => stable_aborts) (fun _ _ _ => .clearUndoLogs)
      fun _ _ _ h => h

theorem abortTransactionWithDescriptor_conforms :
    Conforms config c (·.Aborts c t) (abortTransactionWithDescriptor t)
      fun _ w => w.Aborts c t := by
  refine .seq runLocalUndo_conforms fun r => ?_
  refine .ite (fun _ => .pure stable_aborts fun _ _ h => h) fun _ => ?_
  refine keep stable_aborts (fun _ _ h => .abortStagedWrites h) (fun _ _ _ h => h) fun _ => ?_
  exact .pure stable_aborts fun _ _ h => h

theorem discardPersistenceState_conforms : Conforms config c (·.Aborts c t) (discardPersistenceState config t)
      fun _ w => w.Aborts c t := by
  refine .ite (fun _ => ?_) fun _ => .pure stable_aborts fun _ _ h => h
  exact .retry (q := fun _ (w : World) => w.Aborts c t) stable_aborts
    abortTransactionWithDescriptor_conforms _

theorem rollbackContextTimestamp_conforms : Conforms config c (·.Aborts c t) (rollbackContextTimestamp t)
      fun _ w => w.Aborts c t := by
  refine inspect stable_aborts (fun w hi h => (hi.life t).listed_of_aborter h) fun ctx => ?_
  have hs : (protocol config).Stable c fun w => w.Aborts c t ∧ w.Reads t ctx :=
    stable_aborts.and stable_reads
  cases ht : ctx.txnType with
  | readOnly =>
    refine last hs (fun _ => stable_aborts) (fun w _ h => ?_) fun _ _ _ h => h.1
    rw [← h.2.2.2]
    exact .releaseReader h.2.1 (h.2.2.1.trans ht)
  | write =>
    refine last hs (fun _ => stable_aborts) (fun w _ h => ?_) fun w e _ h => ?_
    · rw [← h.2.2.2]
      exact .retireAborted h.1 (h.2.2.1.trans ht)
    · simpa [World.Aborts, World.txn, World.exec, observe] using h.1

theorem finalizeAbortResources_conforms :
    Conforms config c (·.Aborts c t) (finalizeAbortResources t) fun _ _ => True := by
  refine .seq rollbackContextTimestamp_conforms fun _ => ?_
  refine keep stable_aborts (fun w hi h => .releaseWriteLease ?_) (fun _ _ _ h => h) fun _ => ?_
  · exact (hi.life t).listed_of_aborter h
  refine keep stable_aborts (fun _ _ _ => .unregisterReads) (fun _ _ _ h => h) fun _ => ?_
  refine keep stable_aborts (fun _ _ h => .removeAborted h) (fun _ _ _ h => h) fun _ => ?_
  refine look stable_aborts (fun _ => .clearUndoLogs) (fun _ _ => rfl) fun _ => ?_
  exact act (q := fun _ _ => True) stable_aborts (fun _ _ h => .finishAbort h)
    (fun _ _ _ _ => trivial) fun _ => .trivial

theorem prune_conforms :
    Conforms config c (fun w => w.history.watermark c = some ts) (perform (.prune ts))
      fun _ _ => True :=
  last stable_watermark (fun _ => stable_const) (fun _ _ h => .prune h) fun _ _ _ _ => trivial

theorem executeAbortInternal_conforms :
    Conforms config c (·.Aborts c t) (executeAbortInternal config t) fun _ _ => True := by
  refine .seq discardPersistenceState_conforms fun discarded => ?_
  refine .seq finalizeAbortResources_conforms fun _ => ?_
  refine .ite (fun _ => .trivial) fun _ => ?_
  refine act (q := fun ts w => w.history.watermark c = some ts) stable_const
    (fun _ _ _ => .getSafeGcTimestamp) (fun w _ _ _ => ?_) fun ts => ?_
  · simp [World.exec, observe]
  · exact .seq prune_conforms fun _ => .trivial

variable {target : Bool}

-- Whoever may move the transaction to `Aborting` may also abort it.
theorem abortCommon_conforms (hs : (protocol config).Stable c p)
    (hl : ∀ w, Coherent w → p w → Rule config c w (.transitionTo t .aborting)) :
    Conforms config c p (abortCommon config t target) fun _ _ => True := by
  refine look hs (fun _ => .readContext) (fun _ _ => rfl) fun ctx => ?_
  refine .ite (fun _ => .trivial) fun _ => ?_
  refine act (q := fun r w => r = .ok () → w.Aborts c t) hs hl (fun w e _ _ hr => ?_) fun r => ?_
  · simp [World.Aborts, World.txn, World.history_exec, hr, observe]
  · cases r with
    | error e => exact .trivial
    | ok =>
      refine .weaken (fun w _ h => h rfl) (.ite (fun _ => ?_) fun _ => executeAbortInternal_conforms)
      refine .seq runLocalUndo_conforms fun r => ?_
      refine .ite (fun _ => executeAbortInternal_conforms) fun _ => ?_
      exact .seq executeAbortInternal_conforms fun _ => .trivial

theorem abortForeign_conforms :
    Conforms config c (fun w => (w.txn t).owner ≠ some c ∧ w.Listed t) (abortCommon config t target)
      fun _ _ => True :=
  abortCommon_conforms (stable_not_owner.and stable_listed) fun _ _ h => .abortForeign h.2 h.1

theorem abortTransaction_conforms :
    Conforms config c (fun w => (w.txn t).owner ≠ some c) (abortTransaction config t target)
      fun _ _ => True := by
  refine find stable_not_owner ?_ .trivial
  have hs : (protocol config).Stable c fun w => (w.txn t).owner ≠ some c ∧ w.Listed t :=
    stable_not_owner.and stable_listed
  refine look hs (fun _ => .readContext) (fun _ _ => rfl) fun ctx => ?_
  refine .ite (fun _ => .trivial) fun _ => ?_
  refine look hs (fun _ => .readContext) (fun _ _ => rfl) fun ctx => ?_
  exact .ite (fun _ => .trivial) fun _ => abortForeign_conforms

end

section

theorem nextId_conforms {f : TransactionId → Routine β}
    (hf : ∀ t, Conforms config c (·.Creates c t .named) (f t) post) :
    Conforms config c (fun _ => True) (perform .nextId >>= f) post := by
  refine act stable_const (fun _ _ _ => .nextId) (fun w e hi _ => ?_) hf
  simp [World.Creates, World.txn, World.exec, observe]

theorem insertActive_conforms {r : Response} : Conforms config c (·.Creates c t .begun)
      (do perform (.insertActive t)
          return r) fun _ _ => True :=
  act (q := fun _ _ => True) (stable_creates (by simp)) (fun _ _ h => .insertActive h)
    (fun _ _ _ _ => trivial) fun _ => .trivial

theorem admitWriter_conforms :
    Conforms config c (fun w => w.Creates c t .begun ∧ (w.ctx t).startTimestamp = ts)
      (admitWriter config t)
      fun _ w => w.Creates c t .begun ∧ (w.ctx t).startTimestamp = ts := by
  refine .ite (fun _ => ?_) fun _ => .pure stable_begun fun _ _ h => h
  refine last stable_begun (fun _ => stable_begun) (fun _ _ h => .claimWriteExclusion h.1) ?_
  intro w e _ h
  simp only [World.exec, TransactionManager.perform, claimWriteExclusion]
  split
  case isTrue =>
    have hc : ((w.manager.setContext t { w.ctx t with pessimisticLockHeld := true }).contexts t).core =
        (w.ctx t).core :=
      w.manager.core_setContext t t rfl
    exact ⟨h.1, (congrArg ContextCore.startTimestamp hc).trans h.2⟩
  case isFalse => exact h

theorem beginInsertTransaction_conforms :
    Conforms config c (fun _ => True) (beginInsertTransaction config isolation)
      fun _ _ => True := by
  refine look stable_const (fun _ => .activeCount) (fun _ _ => rfl) fun n => ?_
  refine .ite (fun _ => .trivial) fun _ => nextId_conforms fun t => ?_
  refine act (q := fun r w => ∀ ts, r = .ok ts → w.Creates c t .begun ∧
    (w.ctx t).startTimestamp = ts) (stable_creates (by simp)) (fun _ _ h => .acquireInsertTimestamp h)
    (fun w e hi h ts hr => ?_) fun r => ?_
  · simp only [World.Creates, World.txn, World.ctx, World.exec, TransactionManager.perform] at hr ⊢
    obtain ⟨ts', vm, _, ha⟩ | ⟨_, ha⟩ := w.manager.acquireInsertTimestamp_cases config t isolation e.now
    case inl =>
      rw [ha] at hr ⊢
      cases hr
      simpa [observe, TransactionContext.new] using h.1
    case inr => simp [ha] at hr
  · cases r with
    | error => exact .trivial
    | ok ts =>
      refine .weaken (fun _ _ h => h ts rfl) (.seq admitWriter_conforms fun r => ?_)
      refine .ite (fun _ => ?_) fun _ => ?_
      · exact insertActive_conforms.weaken fun _ _ h => h.1
      · refine act (q := fun _ _ => True) stable_begun (fun w hi h => ?_) (fun _ _ _ _ => trivial)
          fun _ => .trivial
        rw [← h.2]
        exact .rejectWriter h.1

theorem beginReadTransaction_conforms :
    Conforms config c (fun _ => True) (beginReadTransaction config isolation)
      fun _ _ => True := by
  refine look stable_const (fun _ => .activeCount) (fun _ _ => rfl) fun n => ?_
  refine .ite (fun _ => .trivial) fun _ => nextId_conforms fun t => ?_
  have hs : (protocol config).Stable c (·.Creates c t .named) := stable_creates (by simp)
  refine act (q := fun ts w => w.Creates c t .named ∧ w.history.loaded c = some ts) hs
    (fun _ _ _ => .loadReadTimestamp) (fun w e hi h => ⟨h, ?_⟩) fun ts => ?_
  · simp [World.exec, observe, setLoaded]
  · refine act (q := fun _ w => w.Creates c t .begun) (hs.and stable_loaded)
      (fun w hi h => .addSnapshot h.1 h.2) (fun w e hi h => ⟨?_, ?_⟩) fun _ => insertActive_conforms
    · simpa [World.txn, World.exec, observe] using h.1.1
    · simp [World.txn, World.exec, observe]

end

section

variable {ws : WriteSet}

-- How an attempt to bring the transaction into the log ends.
def World.Persisted (c : CallId) (t : TransactionId) (ws : WriteSet) (w : World) : Bool → Prop
  | true => w.Holds c t (.described ws) ∧ w.Logged t
  | false => w.Holds c t (.described ws) ∧ (w.Logged t → (w.txn t).awaitFailed)

theorem stable_persisted : ∀ r, (protocol config).Stable c fun w => w.Persisted c t ws r
  | true => stable_holds.and stable_logged
  | false => stable_unlogged

theorem appendTransactionWithDurability_conforms :
    Conforms config c (fun w => w.Persisted c t ws false) (appendTransactionWithDurability t)
      fun r w => w.Persisted c t ws r := by
  refine act (q := fun r w => w.Persisted c t ws r) (stable_persisted false)
    (fun _ _ h => .appendTransaction h.1) (fun w e _ h => ?_) fun r => ?_
  · simp only [World.exec, TransactionManager.perform, appendTransaction]
    cases e.ok with
    | false => exact h
    | true => exact ⟨h.1, _, List.mem_append_right _ (List.mem_singleton_self _), rfl⟩
  · cases r with
    | false => exact .pure (stable_persisted false) fun _ _ h => h
    | true =>
      refine last (stable_persisted true) stable_persisted (fun _ _ h => .awaitDurable h.1 h.2) ?_
      intro w e _ h
      simp only [World.exec, TransactionManager.perform]
      cases e.ok with
      | false => simpa [World.Persisted, World.Holds, World.txn, observe] using h.1
      | true => exact h

theorem commitTransactionWithDescriptor_conforms :
    Conforms config c (fun w => w.Persisted c t ws false) (commitTransactionWithDescriptor t)
      fun r w => w.Persisted c t ws r := by
  have drop : Conforms config c (fun w => w.Persisted c t ws false)
      (do perform (.abortStagedWrites t)
          return false) fun r w => w.Persisted c t ws r :=
    keep (stable_persisted false) (fun _ _ h => .dropStaged h.1) (fun _ _ _ h => h) fun _ =>
      .pure (stable_persisted false) fun _ _ h => h
  refine keep (stable_persisted false) (fun _ _ h => .applyTxnStaging h.1) (fun w e _ h => ?_)
    fun r => .ite (fun _ => drop) fun _ => ?_
  · exact ⟨h.1, fun hl => h.2 ((World.logged_exec hl).resolve_right nofun)⟩
  refine .seq appendTransactionWithDurability_conforms fun r => ?_
  cases r with
  | true => exact .pure (stable_persisted true) fun _ _ h => h
  | false =>
    exact keep (stable_persisted false) (fun _ _ h => .undoAppliedStaging h.1) (fun _ _ _ h => h)
      fun _ => drop

theorem persist_conforms :
    Conforms config c (fun w => w.Persisted c t ws false) (persist config t)
      fun r w => w.Holds c t (.described ws) ∧
        if r then config.persistent → w.Logged t else w.Logged t → (w.txn t).awaitFailed := by
  refine .ite (fun _ => ?_) fun hp => ?_
  · refine .mono (.retry (q := fun r (w : World) => w.Persisted c t ws r) (stable_persisted true)
      commitTransactionWithDescriptor_conforms _) ?_
    intro r w _ h
    cases r with
    | true => exact ⟨h.1, fun _ => h.2⟩
    | false => exact h
  · exact .pure (stable_persisted false) fun _ _ h => ⟨h.1, fun h => absurd h hp⟩

end

section

variable {ws : WriteSet} {commit : Timestamp} {ctx : TransactionContext} {e : Env} {w : World}

-- A commit is reported to have succeeded only if it is in the log.
def Succeeds (config : ManagerConfig) (t : TransactionId) (r : Except TransactionError Unit) (w : World) : Prop :=
  r = .ok () → config.persistent → w.Logged t

theorem fail {e : TransactionError} : Conforms config c p (pure (.error e)) (Succeeds config t) :=
  fun _ _ _ _ _ _ => nofun

theorem stable_durable : (protocol config).Stable c fun w => config.persistent → w.Logged t :=
  stable_logged.imp

-- The commit is durable and visible, or it is one of a reader, which has nothing to make visible.
def World.Settled (c : CallId) (t : TransactionId) (ws : WriteSet) (commit : Timestamp) (w : World) :
    Prop :=
  (w.Holds c t (.settled ws commit) ∧ (w.ctx t).commitTimestamp = commit) ∨
  (w.Holds c t (.marked ws 0) ∧ commit = 0)

-- The same for a commit whose clean-up is left to recovery.
def World.Left (c : CallId) (t : TransactionId) (ws : WriteSet) (commit : Timestamp) (w : World) : Prop :=
  (w.Holds c t (.leftover ws commit) ∧ (w.ctx t).commitTimestamp = commit) ∨
  (w.Holds c t (.unfinalized ws 0) ∧ commit = 0)

theorem stable_settled : (protocol config).Stable c (·.Settled c t ws commit) :=
  (stable_stamped (.inl rfl)).or (stable_holds.and stable_const)

theorem stable_left : (protocol config).Stable c (·.Left c t ws commit) :=
  (stable_stamped (.inr rfl)).or (stable_holds.and stable_const)

theorem holds_recordPending (h : w.Holds c t s) (hs : s.park = s') :
    (w.exec config c (.recordPending ⟨t, ts, ws⟩) e).2.Holds c t s' := by
  rw [← hs]
  simpa [World.Holds, World.txn, World.exec, observe, h.1] using congrArg Stage.park h.2

theorem settled_recordPending (h : w.Settled c t ws commit) :
    (w.exec config c (.recordPending ⟨t, commit, ws⟩) e).2.Left c t ws commit := by
  obtain ⟨hh, hc⟩ | ⟨hh, hc⟩ := h
  case inl => exact .inl ⟨holds_recordPending hh rfl, hc⟩
  case inr => exact .inr ⟨holds_recordPending hh rfl, hc⟩

theorem settled_complete (h : w.Settled c t ws commit) :
    (w.exec config c (.transitionTo t .committed) e).2.Settled c t ws commit := by
  refine h.imp (fun h => ⟨h.1, ?_⟩) id
  simp only [World.ctx, World.exec, TransactionManager.perform]
  obtain ⟨_, ht⟩ | ⟨_, ht⟩ := w.manager.transitionTo_cases t .committed <;> simpa [ht] using h.2

theorem completeCommit_conforms :
    Conforms config c (fun w => w.Settled c t ws commit ∧ (config.persistent → w.Logged t))
      (completeCommit t commit ws) (Succeeds config t) := by
  have hs : (protocol config).Stable c
      fun w => w.Settled c t ws commit ∧ (config.persistent → w.Logged t) :=
    stable_settled.and stable_durable
  refine .seq (.retry (q := fun _ => _) hs ?_ 1) fun r => .ite (fun _ => ?_) fun _ => ?_
  · exact last hs (fun _ => hs) (fun _ _ _ => .clearUndoLogs) fun _ _ _ h => h
  · refine keep hs (fun w _ h => ?_) (fun _ _ _ h => ⟨settled_complete h.1, fun hp => (h.2 hp).exec⟩)
      fun r => ?_
    · obtain ⟨hh, hc⟩ | ⟨hh, rfl⟩ := h.1
      case inl => exact .completeWriter hh hc
      case inr => exact .completeReader hh
    · cases r with
      | error => exact fail
      | ok =>
        refine act (q := fun _ w => config.persistent → w.Logged t) hs (fun w _ h => ?_)
          (fun _ _ _ h => h.2) fun _ => .pure stable_durable fun _ _ h _ => h
        obtain ⟨hh, hc⟩ | ⟨hh, rfl⟩ := h.1
        case inl => exact .removeWriter (.inl hh) hc
        case inr => exact .removeReader (.inl hh)
  · refine act (q := fun _ w => w.Left c t ws commit ∧ (config.persistent → w.Logged t)) hs
      (fun w _ h => ?_) (fun _ _ _ h => ⟨settled_recordPending h.1, h.2⟩) fun _ => ?_
    · obtain ⟨hh, hc⟩ | ⟨hh, rfl⟩ := h.1
      case inl => exact .parkLeftover hh hc
      case inr => exact .parkUnfinalized hh
    · refine act (q := fun _ w => config.persistent → w.Logged t) (stable_left.and stable_durable)
        (fun w _ h => ?_) (fun _ _ _ h => h.2) fun _ => .pure stable_durable fun _ _ h _ => h
      obtain ⟨hh, hc⟩ | ⟨hh, rfl⟩ := h.1
      case inl => exact .removeWriter (.inr hh) hc
      case inr => exact .removeReader (.inr hh)

theorem holds_abortWriteTimestamp
    (h : w.Holds c t s) : (w.exec config c (.abortWriteTimestamp t ts) e).2.Holds c t s := by
  simpa [World.Holds, World.txn, World.exec, observe] using h

theorem parkCommit_conforms :
    Conforms config c (fun w => w.Holds c t (.marked ws commit) ∧ w.Reads t ctx)
      (parkCommit t ctx.startTimestamp commit ws) (Succeeds config t) := by
  have hs : (protocol config).Stable c
      fun w => w.Holds c t (.unfinalized ws commit) ∧ w.Reads t ctx :=
    stable_holds.and stable_reads
  have exit : Conforms config c (fun _ => True)
      (do perform (.unregisterReads t)
          return .error .commitFailed) (Succeeds config t) :=
    keep stable_const (fun _ _ _ => .unregisterReads) (fun _ _ _ h => h) fun _ => fail
  refine act (q := fun _ w => w.Holds c t (.unfinalized ws commit) ∧ w.Reads t ctx)
    (stable_holds.and stable_reads) (fun w _ h => .parkUnfinalized h.1)
    (fun w e hi h => ⟨holds_recordPending h.1 rfl, h.2.exec hi (.parkUnfinalized h.1)⟩) fun _ => ?_
  refine act (q := fun _ w => w.Holds c t (.unfinalized ws commit)) hs (fun w _ h => ?_)
    (fun _ _ _ h => holds_abortWriteTimestamp h.1) fun _ => .ite (fun _ => ?_) fun hn => ?_
  · rw [← h.2.2.2]
    exact .retireStart h.1
  · exact exit.weaken fun _ _ _ => trivial
  · exact act (q := fun _ _ => True) stable_holds (fun _ _ h => .retireCommit h hn)
      (fun _ _ _ _ => trivial) fun _ => exit

-- The context has been read and the commit is in the log, if there is one.
def World.Ready (config : ManagerConfig) (t : TransactionId) (ctx : TransactionContext) (w : World) : Prop :=
  w.Reads t ctx ∧ (config.persistent → w.Logged t)

theorem stable_ready : (protocol config).Stable c (·.Ready config t ctx) :=
  stable_reads.and stable_durable

theorem World.Ready.exec (h : w.Ready config t ctx)
    (hi : Coherent w) (hr : Rule config c w a) : (w.exec config c a e).2.Ready config t ctx :=
  ⟨h.1.exec hi hr, fun hp => (h.2 hp).exec⟩

theorem finalizeCommit_conforms (hs : (protocol config).Stable c p) :
    Conforms config c p (finalizeCommit config t) fun _ => p := by
  refine .ite (fun _ => ?_) fun _ => .pure hs fun _ _ h => h
  exact .retry (q := fun _ => p) hs
    (last hs (fun _ => hs) (fun _ _ _ => .finalizeCommit) fun _ _ _ h => h) _

-- The commit may be marked as published in every state with `p`.
theorem publishCommit_conforms (hs : (protocol config).Stable c p)
    (hr : ∀ w, Coherent w → p w → Rule config c w (.markCommitPublished t))
    (hp : ∀ w, p w → ∃ s, w.Holds c t s ∧ s.mark = .marked ws commit) (hw : ∀ w, p w → w.Ready config t ctx) :
    Conforms config c p (publishCommit config t ctx.startTimestamp commit ws) (Succeeds config t) := by
  have hm : (protocol config).Stable c fun w =>
      w.Holds c t (.marked ws commit) ∧ w.Ready config t ctx :=
    stable_holds.and stable_ready
  have hc : (protocol config).Stable c fun w =>
      w.Holds c t (.settled ws commit) ∧ (config.persistent → w.Logged t) :=
    stable_holds.and stable_durable
  refine act (q := fun _ w => w.Holds c t (.marked ws commit) ∧ w.Ready config t ctx) hs hr
    (fun w e hi h => ⟨?_, (hw w h).exec hi (hr w hi h)⟩) fun _ => ?_
  · obtain ⟨s, hh, hm⟩ := hp w h
    simpa [World.Holds, World.txn, World.exec, observe, hh.2, hm] using hh.1
  refine .seq (finalizeCommit_conforms hm) fun r =>
    .ite (fun _ => .ite (fun hz => ?_) fun hn => ?_) fun _ => ?_
  · subst hz
    exact completeCommit_conforms.weaken fun _ _ h => ⟨.inr ⟨h.1, rfl⟩, h.2.2⟩
  · refine act (q := fun _ w => w.Holds c t (.settled ws commit) ∧
      (config.persistent → w.Logged t)) hm (fun w _ h => ?_) (fun w e _ h => ?_) fun _ => ?_
    · rw [← h.2.1.2.2]
      exact .publishReservedCommit h.1 hn
    · refine ⟨?_, h.2.2⟩
      simpa [World.Holds, World.txn, World.exec, observe, h.1.2, Stage.settle] using h.1.1
    refine act hc (fun _ _ h => .setCommitTimestamp h.1) (fun w e _ h => ?_)
      fun _ => completeCommit_conforms
    refine ⟨.inl ⟨h.1, ?_⟩, h.2⟩
    simp [World.ctx, World.exec, TransactionManager.perform]
  · exact parkCommit_conforms.weaken fun _ _ h => ⟨h.1, h.2.1⟩

-- What `certify` has found out about the reserved timestamp.
def World.Certified (c : CallId) (t : TransactionId) (ws : WriteSet) (commit : Timestamp)
    (w : World) : Except TransactionError Unit → Prop
  | .ok () => (w.Holds c t (.reserved ws commit) ∧ ws.isEmpty) ∨ w.Holds c t (.certified ws commit)
  | .error _ => w.Holds c t (.refused ws commit)

theorem stable_certified : ∀ r, (protocol config).Stable c fun w => w.Certified c t ws commit r
  | .ok () => (stable_holds.and stable_const).or stable_holds
  | .error _ => stable_holds

theorem certify_conforms :
    Conforms config c (fun w => w.Holds c t (.reserved ws commit) ∧ w.Ready config t ctx)
      (certify t ctx.startTimestamp commit ws)
      fun r w => w.Certified c t ws commit r ∧ w.Ready config t ctx := by
  have hs : (protocol config).Stable c
      fun w => w.Holds c t (.reserved ws commit) ∧ w.Ready config t ctx :=
    stable_holds.and stable_ready
  refine .ite (fun he => ?_) fun hn => ?_
  · exact keep hs (fun _ _ _ => .unregisterReads) (fun _ _ _ h => h) fun _ =>
      .pure hs fun _ _ h => ⟨.inl ⟨h.1, he⟩, h.2⟩
  · have rule : ∀ w, w.Holds c t (.reserved ws commit) ∧ w.Ready config t ctx →
        Rule config c w (.publish t commit ctx.startTimestamp ws) := by
      intro w h
      rw [← h.2.1.2.2]
      exact .publish h.1 (by simpa using hn)
    refine last hs (fun r => (stable_certified r).and stable_ready) (fun w _ h => rule w h)
      fun w e hi h => ⟨?_, h.2.exec hi (rule w h)⟩
    simp only [World.exec, TransactionManager.perform, publish]
    cases w.manager.certifier.publish t commit ctx.startTimestamp ws w.manager.active with
    | error =>
      simpa [World.Certified, World.Holds, World.txn, observe, h.1.2, Stage.certify]
        using h.1.1
    | ok =>
      refine .inr ?_
      simpa [World.Holds, World.txn, observe, h.1.2, Stage.certify] using h.1.1

theorem reserveCommitTimestamp_conforms {f : Except VersionManagerError Timestamp → Routine β}
    (ht : ctx.txnType = .write) (he : ∀ e, Conforms config c (·.Holds c t (.described ws)) (f (.error e)) post)
    (hf : ∀ commit, Conforms config c
      (fun w => w.Holds c t (.reserved ws commit) ∧ w.Ready config t ctx) (f (.ok commit)) post) :
    Conforms config c (fun w => w.Holds c t (.described ws) ∧ w.Ready config t ctx)
      (perform (.reserveCommitTimestamp t ctx.startTimestamp) >>= f) post := by
  have rule : ∀ w, w.Holds c t (.described ws) ∧ w.Ready config t ctx →
      Rule config c w (.reserveCommitTimestamp t ctx.startTimestamp) := by
    intro w h
    rw [← h.2.1.2.2]
    exact .reserveCommitTimestamp h.1 (h.2.1.2.1.trans ht) h.2.2
  refine act (q := fun r w => match r with
    | .error _ => w.Holds c t (.described ws)
    | .ok commit => w.Holds c t (.reserved ws commit) ∧ w.Ready config t ctx)
    (stable_holds.and stable_ready) (fun w _ h => rule w h) (fun w e hi h => ?_) fun r => ?_
  · have hd := h.2.exec (e := e) hi (rule w h)
    simp only [World.exec, TransactionManager.perform] at hd ⊢
    cases hr : w.vm.reserveCommitTimestamp ctx.startTimestamp e.now with
    | error => exact h.1
    | ok r =>
      rw [hr] at hd
      refine ⟨?_, hd⟩
      simpa [World.Holds, World.txn, allocate, observe, h.1.2, Stage.reserve] using h.1.1
  · cases r with
    | error e => exact he e
    | ok ts => exact hf ts

theorem commitWrite_conforms (ht : ctx.txnType = .write) :
    Conforms config c (fun w => w.Holds c t (.described ws) ∧ w.Ready config t ctx)
      (commitWrite config t ctx.startTimestamp ws) (Succeeds config t) := by
  have hs : (protocol config).Stable c
      fun w => w.Holds c t (.described ws) ∧ w.Ready config t ctx :=
    stable_holds.and stable_ready
  refine act (q := fun ts w => (w.Holds c t (.described ws) ∧ w.Ready config t ctx) ∧
    w.history.watermark c = some ts) hs (fun _ _ _ => .getSafeGcTimestamp)
    (fun _ _ _ h => ⟨h, if_pos rfl⟩) fun ts => ?_
  refine act (q := fun _ w => w.Holds c t (.described ws) ∧ w.Ready config t ctx)
    (hs.and stable_watermark) (fun _ _ h => .prune h.2) (fun _ _ _ h => h.1) fun _ => ?_
  refine keep hs (fun _ _ h => .releaseWriteLease h.2.1.1)
    (fun _ _ hi h => ⟨h.1, h.2.exec hi (.releaseWriteLease h.2.1.1)⟩) fun _ => ?_
  refine reserveCommitTimestamp_conforms ht (fun _ => ?_) fun commit => ?_
  · exact act (q := fun _ _ => True) stable_holds (fun _ _ h => .parkUnreserved h)
      (fun _ _ _ _ => trivial) fun _ => fail
  refine .seq certify_conforms fun r => ?_
  cases r with
  | ok =>
    refine publishCommit_conforms ((stable_certified (.ok ())).and stable_ready) (fun w _ h => ?_)
      (fun w h => ?_) fun _ h => h.2
    · obtain ⟨hh, he⟩ | hh := h.1
      case inl => exact .markEmpty hh he
      case inr => exact .markCertified hh
    · obtain ⟨hh, _⟩ | hh := h.1
      case inl => exact ⟨_, hh, rfl⟩
      case inr => exact ⟨_, hh, rfl⟩
  | error =>
    refine act (q := fun _ w => w.Holds c t (.refused ws commit)) (stable_holds.and stable_ready)
      (fun _ _ h => .retireRefused h.1) (fun _ _ _ h => holds_abortWriteTimestamp h.1) fun _ => ?_
    exact .seq (abortCommon_conforms stable_holds fun _ _ h => .abortRefused h) fun _ => fail

theorem commitPersistent_conforms :
    Conforms config c (·.Holds c t .sealed) (commitPersistent config t) (Succeeds config t) := by
  refine act (q := fun ws w => w.Persisted c t ws false) stable_holds
    (fun _ _ h => .buildCommitDescriptor h) (fun w e hi h => ⟨?_, fun hl => ?_⟩) fun ws => ?_
  · simpa [World.Holds, World.txn, World.exec, observe] using h.1
  · have := hi.log t hl
    simp [h.2, Stage.isDescribed] at this
  refine .seq persist_conforms fun r => ?_
  cases r with
  | true =>
    have hs : (protocol config).Stable c fun w =>
        w.Holds c t (.described ws) ∧ (config.persistent → w.Logged t) :=
      stable_holds.and stable_durable
    refine inspect hs (fun w hi h => (hi.life t).listed_of_owner h.1.1) fun ctx => ?_
    cases ht : ctx.txnType with
    | readOnly =>
      have hr : (protocol config).Stable c fun w =>
          (w.Holds c t (.described ws) ∧ (config.persistent → w.Logged t)) ∧ w.Reads t ctx :=
        hs.and stable_reads
      refine keep hr (fun w _ h => ?_) (fun _ _ _ h => h) fun _ => ?_
      · rw [← h.2.2.2]
        exact .releaseReader h.2.1 (h.2.2.1.trans ht)
      · exact publishCommit_conforms hr (fun _ _ h => .markReader h.1.1 (h.2.2.1.trans ht) h.1.2)
          (fun _ h => ⟨_, h.1.1, rfl⟩) fun _ h => ⟨h.2, h.1.2⟩
    | write => exact (commitWrite_conforms ht).weaken fun _ _ h => ⟨h.1.1, h.2, h.1.2⟩
  | false =>
    exact .seq (abortCommon_conforms stable_unlogged fun _ _ h => .abortUnpersisted h.1 h.2)
      fun _ => fail

theorem not_owner_check (h : (w.txn t).owner ≠ some c ∧ w.Listed t) :
    ((w.exec config c (.checkWriteSetConflict t) e).2.txn t).owner ≠ some c ∧
    (w.exec config c (.checkWriteSetConflict t) e).2.Listed t := by
  simp only [World.Listed, World.txn, World.exec, TransactionManager.perform]
  cases (w.manager.checkWriteSetConflict t).1 with
  | error => exact h
  | ok => simp only [observe, txns_modify, if_true]; split <;> exact h

theorem commitTransaction_conforms :
    Conforms config c (fun w => (w.txn t).owner ≠ some c) (commitTransaction config t)
      (Succeeds config t) := by
  have hs : (protocol config).Stable c fun w => (w.txn t).owner ≠ some c ∧ w.Listed t :=
    stable_not_owner.and stable_listed
  refine find stable_not_owner ?_ fail
  refine look hs (fun _ => .readContext) (fun _ _ => rfl) fun ctx => ?_
  refine .ite (fun _ => fail) fun _ => ?_
  refine look hs (fun _ => .readContext) (fun _ _ => rfl) fun ctx => ?_
  refine .ite (fun _ => fail) fun _ => ?_
  refine look hs (fun _ => .checkTimeouts) (fun _ _ => rfl) fun r => ?_
  refine .ite (fun _ => .seq abortForeign_conforms fun _ => fail) fun _ => ?_
  refine keep hs (fun _ _ h => .checkWriteSetConflict h.2) (fun _ _ _ h => not_owner_check h)
    fun r => ?_
  cases r with
  | error => exact .seq abortForeign_conforms fun _ => fail
  | ok =>
    refine look hs (fun _ => .evalCommitVetoes) (fun _ _ => rfl) fun r => ?_
    refine .ite (fun _ => fail) fun _ => ?_
    refine act (q := fun r w => r = .ok () → w.Holds c t .sealed) hs (fun _ _ h => .startCommit h.2)
      (fun w e _ _ hr => ?_) fun r => ?_
    · simp [World.Holds, World.txn, World.history_exec, hr, observe]
    · cases r with
      | error => exact fail
      | ok => exact commitPersistent_conforms.weaken fun _ _ h => h rfl

end

section

variable {q : PendingFinalization} {stage : Stage} {ts : Timestamp}

theorem requeue_conforms (hf : q.Fits stage) :
    Conforms config c (·.Recovers c q.txnId stage) (requeue q e) fun _ _ => True :=
  act (q := fun _ _ => True) stable_recovers (fun _ _ h => .requeue h hf)
    (fun _ _ _ _ => trivial) fun _ => .trivial

-- The timestamp with which the write set may be published again, or zero.
def World.Stamped (t : TransactionId) (ts : Timestamp) (w : World) : Stage → Prop
  | .unfinalized .. => ts ≠ 0 → (w.ctx t).commitTimestamp = ts
  | .leftover _ commit => commit = ts
  | _ => ts = 0

theorem stable_redrives :
    (protocol config).Stable c fun w => w.Recovers c t stage ∧ w.Stamped t ts stage := by
  cases stage with
  | unfinalized =>
    intro c' a e w hc hi hr h
    exact ⟨stable_recovers hc hi hr h.1, fun hn => (stable_recovers_stamp hc hi hr ⟨h.1, h.2 hn⟩).2⟩
  | _ => exact stable_recovers.and stable_const

theorem republish_conforms (hf : q.Fits stage) :
    Conforms config c (fun w => w.Recovers c q.txnId stage ∧ w.Stamped q.txnId ts stage)
      (republish q.txnId ts q.writeSet) fun _ w => w.Recovers c q.txnId stage := by
  refine .ite (fun hn => ?_) fun _ => .pure stable_redrives fun _ _ h => h.1
  refine last stable_redrives (fun _ => stable_recovers) (fun w _ h => ?_) fun _ _ _ h => h.1
  have ⟨hr, hs⟩ := h
  cases stage with
  | unfinalized ws commit =>
    rw [hf.2, ← hs hn.1]
    exact .republishRecovered hr
  | leftover ws commit =>
    rw [hf.2, ← (hs : commit = ts)]
    exact .republishLeftover hr
  | _ => exact absurd hs hn.1

theorem listed_of_recovers (hi : Coherent w) (h : w.Recovers c t stage) : w.Listed t :=
  (hi.life t).listed_of_isFinal <| (hi.life t).recoverer fun hn =>
    Option.some_ne_none c (h.1.symm.trans hn)

-- A commit timestamp is allocated only if the commit has none.
theorem recoverCommitTimestamp_conforms (hf : q.Fits stage) (hm : stage.isMarked) :
    Conforms config c (·.Recovers c q.txnId stage) (recoverCommitTimestamp q.txnId q)
      fun r w => w.Recovers c q.txnId stage ∧ ∀ ts, r = some ts → w.Stamped q.txnId ts stage := by
  refine act (q := fun ctx w => ((w.Recovers c q.txnId stage ∧
      (w.ctx q.txnId).commitTimestamp = ctx.commitTimestamp) ∧ w.Reads q.txnId ctx) ∧
      ∀ ws commit, stage = .leftover ws commit → ctx.commitTimestamp = commit ∧ commit ≠ 0)
    stable_recovers (fun _ _ _ => .readContext) (fun w _ hi h => ?_) fun ctx => .pure_pre fun hl => ?_
  · refine ⟨⟨⟨h, rfl⟩, listed_of_recovers hi h, rfl, rfl⟩, fun ws commit hs => ?_⟩
    have hs := h.2.trans hs
    refine ⟨(hi.life q.txnId).leftover ws commit hs, fun hz => (hi.life q.txnId).published ?_⟩
    rw [← hz]
    exact congrArg Stage.published hs
  have hs : (protocol config).Stable c fun w => (w.Recovers c q.txnId stage ∧
      (w.ctx q.txnId).commitTimestamp = ctx.commitTimestamp) ∧ w.Reads q.txnId ctx :=
    stable_recovers_stamp.and stable_reads
  cases stage with
  | unfinalized ws commit =>
    refine .ite (fun hz => ?_) fun hn => .ite (fun hz => ?_) fun _ => ?_
    · refine act (q := fun _ w => w.Recovers c q.txnId (.unfinalized ws commit) ∧
        (w.ctx q.txnId).commitTimestamp = 0) hs (fun w _ h => ?_) (fun w e _ h => ?_) fun r => ?_
      · rw [← h.2.2.2]
        exact .allocateCommitTimestamp h.1.1 (h.1.2.trans hz.2)
      · simp only [World.exec, TransactionManager.perform]
        cases w.vm.allocateCommitTimestamp ctx.startTimestamp e.now <;>
          exact ⟨h.1.1, h.1.2.trans hz.2⟩
      cases r with
      | error => exact .pure stable_recovers_stamp fun _ _ h => ⟨h.1, by simp⟩
      | ok ts =>
        refine act (q := fun _ w => w.Recovers c q.txnId (.unfinalized ws commit) ∧
          (w.ctx q.txnId).commitTimestamp = ts) stable_recovers_stamp
          (fun _ _ h => .stampRecovered h.1 h.2) (fun _ _ _ h => ⟨h.1, ?_⟩) fun _ => ?_
        · simp [World.ctx, World.exec, TransactionManager.perform]
        · exact .pure stable_recovers_stamp fun _ _ h => ⟨h.1, fun _ hts _ => by cases hts; exact h.2⟩
    · have := hf.1
      grind
    · refine .pure hs fun w _ h => ⟨h.1.1, fun ts hts => ?_⟩
      have := hf.1
      show _ → (w.ctx q.txnId).commitTimestamp = _
      grind
  | leftover ws commit =>
    obtain ⟨hc, hz⟩ := hl ws commit rfl
    refine .ite (fun h => absurd (hc.symm.trans h.2) hz) fun _ =>
      .ite (fun h => absurd (hc.symm.trans h.1) hz) fun _ => ?_
    refine .pure hs fun w _ h => ⟨h.1.1, fun ts hts => ?_⟩
    cases hts
    show commit = _
    rw [hc, hf.1, max_self]
  | _ => first | exact hf.elim | contradiction

theorem redrive_conforms (hf : q.Fits stage) (hm : stage.isMarked) :
    Conforms config c (·.Recovers c q.txnId stage) (redrive config q.txnId q) fun _ _ => True := by
  refine .seq (finalizeCommit_conforms stable_recovers) fun r =>
    .ite (fun _ => requeue_conforms hf) fun _ => ?_
  refine .seq (recoverCommitTimestamp_conforms hf hm) fun r => ?_
  cases r with
  | none => exact (requeue_conforms hf).weaken fun _ _ h => h.1
  | some ts =>
    refine .weaken (fun _ _ h => ⟨h.1, h.2 ts rfl⟩) (.seq (republish_conforms hf) fun _ => ?_)
    refine look stable_recovers (fun _ => .clearUndoLogs) (fun _ _ => rfl) fun r =>
      .ite (fun _ => requeue_conforms hf) fun _ => ?_
    refine keep stable_recovers (fun _ _ h => .completeRecovered h hm) (fun _ _ _ h => h) fun r => ?_
    cases r with
    | error => exact .trivial
    | ok =>
      refine keep stable_recovers (fun _ _ h => .removeRecovered h hm) (fun _ _ _ h => h) fun _ => ?_
      exact keep stable_recovers (fun _ _ _ => .unregisterReads) (fun _ _ _ h => h) fun _ => .trivial

theorem takePending_exec (hi : Coherent w) (hq : (w.exec config c (.takePending t) e).1 = some q) : q.txnId = t ∧
      ∃ stage, (w.exec config c (.takePending t) e).2.Recovers c q.txnId stage ∧ q.Fits stage := by
  simp only [World.exec, TransactionManager.perform, takePending] at hq ⊢
  cases hf : w.manager.recovery.find? (·.txnId = t) with
  | none => simp [hf] at hq
  | some p =>
    rw [hf] at hq
    cases hq
    have hp := List.mem_of_find?_eq_some hf
    have ht : q.txnId = t := by simpa using List.find?_some hf
    subst ht
    refine ⟨rfl, (w.txn q.txnId).stage, ⟨?_, ?_⟩, hi.fits q hp⟩ <;>
      simp [World.txn, observe]

theorem finalizeOrphan_conforms (hs : (protocol config).Stable c p) :
    Conforms config c p (finalizeOrphan config t) fun _ => p :=
  .ite (fun _ => last hs (fun _ => hs) (fun _ _ _ => .finalizeCommit) fun _ _ _ h => h)
    fun _ => .pure hs fun _ _ h => h

theorem recoverPendingFinalization_conforms :
    Conforms config c (fun w => (w.txn t).owner ≠ some c) (recoverPendingFinalization config t)
      fun _ _ => True := by
  refine act (q := fun r w => ∀ p, r = some p → p.txnId = t ∧
    ∃ stage, w.Recovers c p.txnId stage ∧ p.Fits stage) stable_not_owner
    (fun _ _ h => .takePending h) (fun _ _ hi _ _ hp => takePending_exec hi hp) fun r => ?_
  cases r with
  | none => exact .trivial
  | some q =>
    refine .weaken (fun _ _ h => (h q rfl).symm) (.pure_pre fun ht => .exists_pre fun stage =>
      .pure_pre fun hf => ?_)
    subst ht
    refine find stable_recovers ?_ ?_
    · have hs : (protocol config).Stable c
          fun w => w.Recovers c q.txnId stage ∧ w.Listed q.txnId :=
        stable_recovers.and stable_listed
      refine look hs (fun _ => .readContext) (fun _ _ => rfl) fun ctx => .ite (fun _ => ?_) fun _ => ?_
      · exact (requeue_conforms hf).weaken fun _ _ h => h.1
      refine act (q := fun ctx w => w.Recovers c q.txnId stage ∧
        ctx.commitPublished = stage.isMarked) hs (fun _ _ _ => .readContext)
        (fun w e hi h => ⟨h.1, h.1.2 ▸ (hi.life q.txnId).marked⟩) fun ctx => .pure_pre fun hc => ?_
      refine .ite (fun _ => requeue_conforms hf) fun hm => redrive_conforms hf ?_
      simpa [hc] using hm
    · refine .seq (finalizeOrphan_conforms stable_recovers) fun _ => ?_
      refine .weaken (fun _ _ h => ⟨h, ?_⟩) (.seq (republish_conforms hf) fun _ => .trivial)
      cases stage with
      | parked => exact hf.1
      | unfinalized => exact fun hn => absurd hf.1 hn
      | leftover => exact hf.1.symm
      | _ => exact hf.elim

end

-- The users of a transaction have found it in the active table.
theorem onActive_conforms (hr : ∀ w, w.Listed t → Rule config c w a) :
    Conforms config c (fun _ => True) (onActive t a answer) fun _ _ => True :=
  find stable_const
    (act (q := fun _ _ => True) (stable_const.and stable_listed) (fun w _ h => hr w h.2)
      (fun _ _ _ _ => trivial) fun _ => .trivial)
    .trivial

theorem routine_conforms (q : Request) :
    Conforms config c ((protocol config).fresh c) (routine config q) (Answered config q) := by
  have free {β : Type} {prog : Routine β} {post : β → World → Prop}
      (h : Conforms config c (fun _ => True) prog post) :
      Conforms config c ((protocol config).fresh c) prog post :=
    h.weaken fun _ _ _ => trivial
  have own {β : Type} {t : TransactionId} {prog : Routine β} {post : β → World → Prop}
      (h : Conforms config c (fun w => (w.txn t).owner ≠ some c) prog post) :
      Conforms config c ((protocol config).fresh c) prog post :=
    h.weaken fun _ _ h => h t
  cases q with
  | beginInsert => exact free beginInsertTransaction_conforms
  | beginRead => exact free beginReadTransaction_conforms
  | recordMutation => exact .map (free (onActive_conforms fun _ => .recordMutation)) fun _ _ h => h
  | recordWrite => exact .map (free (onActive_conforms fun _ => .recordWrite)) fun _ _ h => h
  | recordRead => exact .map (free (onActive_conforms fun _ => .recordRead)) fun _ _ h => h
  | stageWrite => exact .map (free (onActive_conforms fun _ => .stageWrite)) fun _ _ h => h
  | markRollbackOnly =>
    exact .map (free (onActive_conforms fun _ => .markRollbackOnly)) fun _ _ h => h
  | abort => exact .map (own abortTransaction_conforms) fun _ _ h => h
  | recover => exact .map (own recoverPendingFinalization_conforms) fun _ _ h => h
  | commit t =>
    refine .map (own commitTransaction_conforms) fun r w h => ?_
    cases r with
    | error => trivial
    | ok => exact h rfl

-- What holds throughout every run of the manager in which each critical section meets a condition.
theorem manager_invariant {cond : CallId → Action → Env → World → Prop} {I : World → Prop}
    (hI : ∀ {c a e w}, Coherent w → I w → Rule config c w a → cond c a e w → I (w.exec config c a e).2)
    (r : Transition.Run (machine config).step (Machine.Admits cond) (.init (.new config)) es s)
    (hi : I (.new config)) : Coherent s.shared ∧ I s.shared ∧
      ∀ c q r, s.Returned c q r → Answered config q r s.shared :=
  (protocol config).invariant (fun _ q => routine_conforms q) hI r (.new config)
    (fun _ _ => nofun) hi

end Linkrs
