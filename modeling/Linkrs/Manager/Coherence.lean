import Linkrs.Manager.Frame
import Linkrs.Manager.Life

namespace Linkrs

open List TransactionState Stage

variable {config : ManagerConfig} {c : CallId} {a : Action} {e : Env} {w w' : World}
  {t t' : TransactionId}

structure Coherent (w : World) : Prop where
  life : ∀ t, (w.life t).Coherent
  ids : ∀ t, w.manager.idGenerator ≤ t → (w.txn t).birth = .unborn
  active : ∀ t ∈ w.manager.activeTransactions, w.Listed t
  fits : ∀ p ∈ w.manager.recovery, p.Fits (w.txn p.txnId).stage
  taken : ∀ p ∈ w.manager.recovery, (w.txn p.txnId).recoverer = none
  nodup : (w.manager.recovery.map (·.txnId)).Nodup
  log : ∀ t, w.Logged t → (w.txn t).stage.isDescribed

-- Every life takes a step by the action, or stays as it is.
def LivesStep (c : CallId) (a : Action) (w w' : World) : Prop :=
  ∀ t, Life.Step c t (w.life t) a (w'.life t)

section

variable {x : TxnHistory} {ctx : TransactionContext}

theorem LivesStep.of_one (hl : ∀ t', w'.life t' = if t' = t then l else w.life t')
    (hs : Life.Step c t (w.life t) a l) : LivesStep c a w w' := by
  intro t'
  rw [hl]
  split
  case isTrue h => exact h ▸ hs
  case isFalse => exact .stay

-- An action that changes the history and the context of one transaction.
theorem subject_step (t : TransactionId)
    (hx : w'.history.txns = fun t' => if t' = t then x else w.history.txns t')
    (hc : w'.manager.contexts = fun t' => if t' = t then ctx else w.manager.contexts t')
    (hs : Life.Step c t (w.life t) a (.of x ctx.core)) : LivesStep c a w w' := by
  refine .of_one (fun t' => ?_) hs
  simp only [World.life, World.txn, World.ctx, hx, hc]
  split <;> rfl

theorem history_step (t : TransactionId)
    (hx : w'.history.txns = fun t' => if t' = t then x else w.history.txns t')
    (hc : ∀ t', (w'.ctx t').core = (w.ctx t').core)
    (hs : Life.Step c t (w.life t) a (.of x (w.ctx t).core)) : LivesStep c a w w' := by
  refine .of_one (fun t' => ?_) hs
  simp only [World.life, hc, World.txn, hx]
  split
  case isTrue h => rw [h]
  case isFalse => rfl

theorem txns_eq_ite (t : TransactionId) :
    w.history.txns = fun t' => if t' = t then w.txn t else w.history.txns t' := by
  funext t'
  split
  case isTrue h => rw [h, World.txn]
  case isFalse => rfl

theorem context_step (t : TransactionId) (hx : w'.history.txns = w.history.txns)
    (hc : w'.manager.contexts = fun t' => if t' = t then ctx else w.manager.contexts t')
    (hs : Life.Step c t (w.life t) a (.of (w.txn t) ctx.core)) : LivesStep c a w w' :=
  subject_step t (hx.trans (txns_eq_ite t)) hc hs

theorem quiet_step (hx : w'.history.txns = w.history.txns)
    (hc : ∀ t, (w'.ctx t).core = (w.ctx t).core) : LivesStep c a w w' := by
  intro t
  have hl : w'.life t = w.life t := by simp only [World.life, hc, World.txn, hx]
  rw [hl]
  exact .stay

end

-- A transition either fails and changes nothing or moves the state along an edge of the lifecycle.
theorem transition_step (t : TransactionId)
    (hx : (w.history.observe c w.manager (.transitionTo t state) (.ok ())).txns =
      fun t' => if t' = t then x else w.history.txns t')
    (hs : (w.ctx t).state.canTransition state →
      Life.Step c t (w.life t) (.transitionTo t state) (.of x { w.ctx t with state }.core)) :
    LivesStep c (.transitionTo t state) w (w.exec config c (.transitionTo t state) e).2 := by
  simp only [World.exec, TransactionManager.perform]
  obtain ⟨hc, h⟩ | ⟨hc, h⟩ := w.manager.transitionTo_cases t state
  case inl => rw [h]; exact subject_step t hx rfl (hs hc)
  case inr => rw [h]; cases state <;> exact fun _ => .stay

theorem retire_step (t : TransactionId) (hb : (w.txn t).birth = .listed) :
    LivesStep c (.abortWriteTimestamp t ts) w (w.exec config c (.abortWriteTimestamp t ts) e).2 := by
  refine history_step t rfl (fun _ => rfl) ?_
  rw [if_neg (by rw [← World.txn, hb]; simp)]
  exact .stay

theorem last_step (t : TransactionId)
    (hx : w.history.observe c w.manager (.transitionTo t state) (.ok ()) = w.history)
    (hs : (w.ctx t).state.canTransition state → Life.Step c t (w.life t) (.transitionTo t state)
        (.of (w.txn t) { w.ctx t with state }.core)) :
    LivesStep c (.transitionTo t state) w (w.exec config c (.transitionTo t state) e).2 :=
  transition_step t ((congrArg History.txns hx).trans (txns_eq_ite t)) hs

theorem complete_step (t : TransactionId) (hm : (w.txn t).stage.isMarked) :
    LivesStep c (.transitionTo t .committed) w (w.exec config c (.transitionTo t .committed) e).2 := by
  refine last_step t rfl fun hc => ?_
  have hs : (w.ctx t).state = .committing := by
    cases hs : (w.ctx t).state <;> simp_all [canTransition]
  exact .complete hs hm

theorem abort_step (t : TransactionId) (hl : w.Listed t) (ho : (w.txn t).owner ≠ some c) :
    LivesStep c (.transitionTo t .aborting) w (w.exec config c (.transitionTo t .aborting) e).2 := by
  refine transition_step t rfl fun hc => ?_
  have hs : (w.ctx t).state = .active ∨ (w.ctx t).state = .committing := by
    cases hs : (w.ctx t).state <;> simp_all [canTransition]
  rw [if_neg ho]
  exact .abort hl hs ho

theorem withdraw_step (t : TransactionId) (h : Coherent w) (ho : (w.txn t).owner = some c)
    (hs : (∃ ws, (w.txn t).stage = .described ws) ∨ ∃ ws commit, (w.txn t).stage = .refused ws commit) :
    LivesStep c (.transitionTo t .aborting) w (w.exec config c (.transitionTo t .aborting) e).2 := by
  refine transition_step t rfl fun hc => ?_
  have ha : (w.ctx t).state ≠ .active := (h.life t).sealed (by simp [World.life, Life.of, ho])
  have : (w.ctx t).state = .committing := by
    cases hs : (w.ctx t).state <;> simp_all [canTransition]
  rw [if_pos ho]
  exact .withdraw ho this hs

theorem park_step (h : Coherent w) (ho : (w.txn p.txnId).owner = some c) (hp : p.Fits (w.txn p.txnId).stage.park)
    (hn : (w.txn p.txnId).stage.isFinal = false)
    (hc : ∀ commit, (w.txn p.txnId).stage.published = some commit → (w.ctx p.txnId).commitTimestamp = commit) :
    LivesStep c (.recordPending p) w (w.exec config c (.recordPending p) e).2 := by
  have hr : (w.txn p.txnId).recoverer = none := by
    by_contra hr
    have := (h.life p.txnId).recoverer hr
    simp_all [World.life, Life.of]
  refine history_step p.txnId (x := { w.txn p.txnId with stage := (w.txn p.txnId).stage.park })
    ?_ (fun _ => rfl) (.park rfl ho hp hn hc)
  funext t'
  simp_all [World.exec, History.observe]

theorem life_step (h : Coherent w) (hr : Rule config c w a) : LivesStep c a w (w.exec config c a e).2 := by
  cases hr
  all_goals try exact fun _ => .stay
  case nextId =>
    refine history_step _ rfl (fun _ => rfl) ?_
    exact .name (h.ids _ le_rfl)
  case acquireInsertTimestamp t isolation hc =>
    simp only [World.exec, TransactionManager.perform, TransactionManager.acquireInsertTimestamp]
    cases w.vm.acquireInsertTimestamp e.now with
    | error => exact fun _ => .stay
    | ok r =>
      refine subject_step t rfl rfl ?_
      exact .beginWrite hc.1 hc.2
  case addSnapshot t ts isolation hc hl =>
    refine subject_step t rfl rfl ?_
    exact .beginRead hc.1 hc.2
  case claimWriteExclusion t hc =>
    simp only [World.exec, TransactionManager.perform, TransactionManager.claimWriteExclusion]
    split
    case isTrue => exact quiet_step rfl fun t' => w.manager.core_setContext t t' rfl
    case isFalse => exact fun _ => .stay
  case insertActive hc =>
    refine history_step _ rfl (fun _ => rfl) ?_
    exact .list hc.1 hc.2
  case rejectWriter t hc =>
    refine history_step t rfl (fun _ => rfl) ?_
    rw [if_pos hc.2]
    exact .reject hc.1 hc.2
  case recordMutation t mutation _ =>
    refine history_step t rfl (fun t' => ?_) .stay
    exact w.manager.core_setContext t t' (TransactionContext.core_recordMutation ..)
  case recordWrite t access _ =>
    exact history_step t rfl (fun t' => w.manager.core_setContext t t' rfl) .stay
  case recordRead t access _ =>
    refine history_step t rfl (fun t' => ?_) .stay
    exact w.manager.core_setContext t t' (TransactionContext.core_recordRead ..)
  case stageWrite t redo row _ =>
    simp only [World.exec, TransactionManager.perform, TransactionManager.stageWrite]
    split <;> exact fun _ => .stay
  case markRollbackOnly t _ =>
    exact quiet_step rfl fun t' => w.manager.core_setContext t t' rfl
  case checkWriteSetConflict t _ =>
    have hc := w.manager.core_checkWriteSetConflict t
    simp only [World.exec, TransactionManager.perform]
    cases hv : (w.manager.checkWriteSetConflict t).1 with
    | error => exact quiet_step rfl hc
    | ok =>
      refine history_step t rfl hc ?_
      split <;> exact .stay
  case startCommit t hl =>
    refine transition_step t rfl fun hc => ?_
    have hs : (w.ctx t).state = .active := by
      cases hs : (w.ctx t).state <;> simp_all [canTransition]
    exact .startCommit hl hs
  case buildCommitDescriptor t hh =>
    refine history_step t rfl (fun _ => rfl) ?_
    exact .describe hh.1 hh.2
  case applyTxnStaging t ws hh =>
    simp only [World.exec, TransactionManager.perform, TransactionManager.applyTxnStaging]
    split
    case isTrue => exact fun _ => .stay
    case isFalse => split <;> exact fun _ => .stay
  case appendTransaction t ws hh =>
    simp only [World.exec, TransactionManager.perform, TransactionManager.appendTransaction]
    split <;> exact fun _ => .stay
  case awaitDurable t ws hh _ =>
    simp only [World.exec, TransactionManager.perform]
    cases e.ok with
    | false => exact history_step t rfl (fun _ => rfl) .stay
    | true => exact fun _ => .stay
  case releaseWriteLease t hl =>
    exact quiet_step rfl fun t' => w.manager.core_releaseWriteLease t t'
  case reserveCommitTimestamp t ws hh ht _ => 
    simp only [World.exec, TransactionManager.perform]
    cases w.vm.reserveCommitTimestamp (w.ctx t).startTimestamp e.now with
    | error => exact fun _ => .stay
    | ok r =>
      refine history_step t rfl (fun _ => rfl) ?_
      rw [hh.2]
      exact .reserve hh.1 hh.2 ht
  case publish t ws commit hh hn =>
    simp only [World.exec, TransactionManager.perform, TransactionManager.publish]
    cases w.manager.certifier.publish t commit (w.ctx t).startTimestamp ws w.manager.active with
    | error =>
      refine history_step t rfl (fun _ => rfl) ?_
      rw [hh.2]
      exact .refuse hh.1 hh.2
    | ok r =>
      refine history_step t rfl (fun _ => rfl) ?_
      rw [hh.2]
      exact .certify hh.1 hh.2
  case markReader t ws hh ht _ =>
    refine subject_step t rfl rfl ?_
    rw [hh.2]
    exact .mark hh.1 (.inl ⟨hh.2, rfl, ht⟩)
  case markEmpty t ws commit hh he =>
    refine subject_step t rfl rfl ?_
    rw [hh.2]
    exact .mark hh.1 (.inr (.inl ⟨hh.2, he⟩))
  case markCertified t ws commit hh =>
    refine subject_step t rfl rfl ?_
    rw [hh.2]
    exact .mark hh.1 (.inr (.inr hh.2))
  case publishReservedCommit t ws commit hh hn =>
    refine history_step t rfl (fun _ => rfl) ?_
    rw [hh.2]
    exact .settle hh.1 hh.2 hn
  case setCommitTimestamp t ws commit hh =>
    refine context_step t rfl rfl ?_
    exact .stamp (.inl ⟨hh.1, hh.2, rfl⟩)
  case completeWriter t ws _ hh _ | completeReader t ws hh =>
    refine complete_step t ?_
    rw [hh.2]
    rfl
  case parkUnreserved t ws hh | parkUnfinalized t ws _ hh =>
    refine park_step h hh.1 ?_ ?_ ?_
    all_goals simp [hh.2, Stage.park, PendingFinalization.Fits, isFinal, published]
  case parkLeftover t ws commit hh hc =>
    refine park_step h hh.1 ?_ ?_ ?_
    all_goals simp [hh.2, hc, Stage.park, PendingFinalization.Fits, isFinal, published]
  case retireRefused t ws commit hh | retireStart t ws commit hh | retireCommit t ws commit hh _ =>
    exact retire_step t ((h.life t).listed_of_owner hh.1)
  case abortForeign t hl ho => exact abort_step t hl ho
  case abortUnpersisted t ws hh _ => exact withdraw_step t h hh.1 (.inl ⟨ws, hh.2⟩)
  case abortRefused t ws commit hh => exact withdraw_step t h hh.1 (.inr ⟨ws, commit, hh.2⟩)
  case executeUndoLogs t ha =>
    refine history_step t rfl (fun _ => rfl) ?_
    exact .undo ha
  case retireAborted t ha _ => exact retire_step t ((h.life t).listed_of_aborter ha)
  case finishAbort t ha =>
    refine last_step t rfl fun hc => ?_
    have hs : (w.ctx t).state = .aborting := by
      have := (h.life t).state_of_aborter ha
      cases hs : (w.ctx t).state <;>
        simp_all [canTransition, World.life, Life.of, TransactionContext.core]
    exact .finishAbort ha hs
  case takePending t ho =>
    simp only [World.exec, TransactionManager.perform, TransactionManager.takePending]
    cases hf : w.manager.recovery.find? (·.txnId = t) with
    | none => exact fun _ => .stay
    | some p =>
      have hp := mem_of_find?_eq_some hf
      have ht : p.txnId = t := by simpa using find?_some hf
      subst ht
      refine history_step p.txnId rfl (fun _ => rfl) ?_
      exact .take (h.taken p hp) (h.fits p hp).isFinal ho
  case requeue p stage hh hf =>
    refine history_step p.txnId (x := { w.txn p.txnId with recoverer := none }) ?_ (fun _ => rfl)
      (.requeue rfl hh.1)
    have hs := park_of_isFinal hf.isFinal
    funext t'
    simp_all [World.exec, History.observe, World.Recovers]
  case allocateCommitTimestamp t ws commit hh _ =>
    simp only [World.exec, TransactionManager.perform]
    cases w.vm.allocateCommitTimestamp (w.ctx t).startTimestamp e.now <;> exact fun _ => .stay
  case stampRecovered t ws commit ts hh hz =>
    refine context_step t rfl rfl ?_
    exact .stamp (.inr ⟨hh.1, hh.2, hz⟩)
  case completeRecovered t stage hh hm =>
    refine complete_step t ?_
    rw [hh.2]
    exact hm

theorem World.exec_keeps : a.Keeps w.manager (w.exec config c a e).2.manager :=
  TransactionManager.perform_keeps a

theorem sublist_takePending {m : TransactionManager} : (m.takePending t).2.recovery.Sublist m.recovery := by
  unfold TransactionManager.takePending
  split
  case h_1 => exact .refl _
  case h_2 => exact eraseP_sublist

theorem mem_takePending {m : TransactionManager}
    (hn : (m.recovery.map (·.txnId)).Nodup) (hp : p ∈ (m.takePending t).2.recovery) :
    p ∈ m.recovery ∧ p.txnId ≠ t := by
  refine ⟨sublist_takePending.subset hp, fun ht => ?_⟩
  unfold TransactionManager.takePending at hp
  split at hp
  case h_1 hf => simpa [ht] using find?_eq_none.mp hf p hp
  case h_2 hf =>
    generalize m.recovery = queue at hn hp
    induction queue with
    | nil => simp at hp
    | cons q queue hind =>
      have ⟨hq, hn⟩ := nodup_cons.mp hn
      simp only [eraseP_cons] at hp
      cases hqt : decide (q.txnId = t) with
      | false =>
        rw [hqt, cond_false] at hp
        obtain rfl | hp := mem_cons.mp hp
        case inl => simp [ht] at hqt
        case inr => exact hind hn hp
      | true =>
        rw [hqt, cond_true] at hp
        exact hq (mem_map.mpr ⟨p, hp, by simp_all⟩)

-- The log only grows, and only by the batch of the transaction that is appended.
theorem World.logged_exec : (w.exec config c a e).2.Logged t → w.Logged t ∨ a = .appendTransaction t := by
  cases ha : a.changesLog with
  | false =>
    intro h
    rw [Logged, exec_keeps.log ha] at h
    exact .inl h
  | true =>
    cases a with
    | appendTransaction t' =>
      simp only [Logged, exec, TransactionManager.perform, TransactionManager.appendTransaction]
      split
      case isTrue =>
        rintro ⟨b, hb, ht⟩
        obtain hb | hb := mem_append.mp hb
        case inl => exact .inl ⟨b, hb, ht⟩
        case inr => cases mem_singleton.mp hb; exact .inr (ht ▸ rfl)
      case isFalse => exact .inl
    | _ => contradiction

theorem World.Logged.exec (h : w.Logged t) : (w.exec config c a e).2.Logged t := by
  cases ha : a.changesLog with
  | false => rw [Logged, exec_keeps.log ha]; exact h
  | true =>
    cases a with
    | appendTransaction t' =>
      have ⟨b, hb, ht⟩ := h
      simp only [Logged, World.exec, TransactionManager.perform, TransactionManager.appendTransaction]
      split
      case isTrue => exact ⟨b, mem_append_left _ hb, ht⟩
      case isFalse => exact h
    | _ => contradiction

namespace Coherent

theorem new (config : ManagerConfig) : Coherent (.new config) where
  life _ := by constructor <;> simp [World.life, Life.of, World.new, History.new, TxnHistory.new,
    TransactionManager.new, TransactionContext.new, TransactionContext.core, isMarked,
    published]
  ids _ _ := rfl
  active := by simp [World.new, TransactionManager.new]
  fits := by simp [World.new, TransactionManager.new]
  taken := by simp [World.new, TransactionManager.new]
  nodup := by simp [World.new, TransactionManager.new]
  log := by simp [World.Logged, World.new, TransactionManager.new]

theorem exec_ids (h : Coherent w) (hr : Rule config c w a) (t : TransactionId)
    (ht : (w.exec config c a e).2.manager.idGenerator ≤ t) : ((w.exec config c a e).2.txn t).birth = .unborn := by
  by_cases ha : a = .nextId
  case pos =>
    subst ha
    have ht : w.manager.idGenerator + 1 ≤ t := ht
    have hb : ((w.exec config c .nextId e).2.txn t) = w.txn t :=
      if_neg (by lia)
    rw [hb]
    exact h.ids t (by lia)
  case neg =>
    have hi : a.changesIds = false := by cases a <;> first | rfl | contradiction
    rw [World.exec_keeps.ids hi] at ht
    exact (life_step h hr t).unborn ha (h.ids t ht)

theorem exec_active (h : Coherent w) (hr : Rule config c w a) (t : TransactionId)
    (ht : t ∈ (w.exec config c a e).2.manager.activeTransactions) : (w.exec config c a e).2.Listed t := by
  have hold : t ∈ w.manager.activeTransactions → (w.exec config c a e).2.Listed t :=
    fun ht => (life_step h hr t).listed (h.active t ht)
  cases ha : a.changesActive with
  | false => exact hold (World.exec_keeps.active ha ▸ ht)
  | true =>
    cases a with
    | insertActive t' =>
      obtain rfl | ht := mem_cons.mp ht
      case inl => exact congrArg TxnHistory.birth (if_pos rfl)
      case inr => exact hold ht
    | removeActive t' => exact hold (mem_of_mem_filter ht)
    | _ => contradiction

theorem exec_record (h : Coherent w) (hr : Rule config c w a)
    (hp : p ∈ w.manager.recovery) (ha : a ≠ .takePending p.txnId) :
    p.Fits ((w.exec config c a e).2.txn p.txnId).stage ∧
    ((w.exec config c a e).2.txn p.txnId).recoverer = none := by
  have hs := life_step (e := e) h hr p.txnId
  have hf := h.fits p hp
  have hst : ((w.exec config c a e).2.txn p.txnId).stage = (w.txn p.txnId).stage :=
    hs.stage_of_isFinal (h.life _) hf.isFinal
  exact ⟨hst ▸ hf, hs.recoverer_eq_none ha (h.taken p hp)⟩

theorem exec_recordPending (h : Coherent w) (hr : Rule config c w (.recordPending p)) :
    p.Fits ((w.exec config c (.recordPending p) e).2.txn p.txnId).stage ∧
    ((w.exec config c (.recordPending p) e).2.txn p.txnId).recoverer = none := by
  have hx : (w.exec config c (.recordPending p) e).2.txn p.txnId =
      { w.txn p.txnId with
        stage := if (w.txn p.txnId).owner = some c then (w.txn p.txnId).stage.park
          else (w.txn p.txnId).stage
        recoverer := if (w.txn p.txnId).recoverer = some c then none
          else (w.txn p.txnId).recoverer } := if_pos rfl
  have hn : (w.txn p.txnId).stage.isFinal = false → (w.txn p.txnId).recoverer = none := by
    intro hf
    by_contra hn
    have := (h.life p.txnId).recoverer hn
    simp_all [World.life, Life.of]
  cases hr with
  | parkUnreserved hh | parkUnfinalized hh | parkLeftover hh _ =>
    obtain ⟨ho, hs⟩ := hh
    simp_all [Stage.park, isFinal, PendingFinalization.Fits]
  | requeue hh hf =>
    obtain ⟨hr, hs⟩ := hh
    have := park_of_isFinal hf.isFinal
    simp_all

theorem exec_fits (h : Coherent w) (hr : Rule config c w a)
    (hp : p ∈ (w.exec config c a e).2.manager.recovery) : p.Fits ((w.exec config c a e).2.txn p.txnId).stage ∧
    ((w.exec config c a e).2.txn p.txnId).recoverer = none := by
  cases ha : a.changesRecovery with
  | false =>
    rw [World.exec_keeps.recovery ha] at hp
    exact h.exec_record hr hp fun h => by simp [h, Action.changesRecovery] at ha
  | true =>
    cases a with
    | recordPending q =>
      obtain hp | hp := mem_append.mp hp
      case inl => exact h.exec_record hr (mem_of_mem_filter hp) (by simp)
      case inr => cases mem_singleton.mp hp; exact h.exec_recordPending hr
    | takePending t =>
      have ⟨hp, ht⟩ := mem_takePending h.nodup hp
      exact h.exec_record hr hp fun h => ht (by cases h; rfl)
    | _ => contradiction

theorem exec_nodup (h : Coherent w) : ((w.exec config c a e).2.manager.recovery.map (·.txnId)).Nodup := by
  cases ha : a.changesRecovery with
  | false => rw [World.exec_keeps.recovery ha]; exact h.nodup
  | true =>
    cases a with
    | recordPending q =>
      have hf := (filter_sublist (p := (·.txnId ≠ q.txnId)) (l := w.manager.recovery)).map
        PendingFinalization.txnId
      refine (map_append ▸ (h.nodup.sublist hf).append (by simp) ?_)
      simp only [List.Disjoint, mem_map, mem_filter, map_singleton, mem_singleton]
      grind
    | takePending t => exact h.nodup.sublist (sublist_takePending.map _)
    | _ => contradiction

theorem exec_log (h : Coherent w) (hr : Rule config c w a) (t : TransactionId)
    (ht : (w.exec config c a e).2.Logged t) : ((w.exec config c a e).2.txn t).stage.isDescribed := by
  refine (life_step h hr t).isDescribed (h.life t) ?_
  obtain ht | rfl := World.logged_exec ht
  case inl => exact h.log t ht
  case inr =>
    cases hr with
    | appendTransaction hh => exact congrArg isDescribed hh.2

theorem exec (h : Coherent w) (hr : Rule config c w a) : Coherent (w.exec config c a e).2 where
  life t := (life_step h hr t).coherent (h.life t)
  ids := h.exec_ids hr
  active := h.exec_active hr
  fits _ hp := (h.exec_fits hr hp).1
  taken _ hp := (h.exec_fits hr hp).2
  nodup := h.exec_nodup
  log := h.exec_log hr

end Coherent
end Linkrs
