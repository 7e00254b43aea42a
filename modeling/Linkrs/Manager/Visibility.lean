import Linkrs.Mvcc.PendingGate
import Linkrs.Manager.Timestamps
import Linkrs.Manager.Outcome

namespace Linkrs

open Concurrent Transition PendingGate

variable {config : ManagerConfig} {c : CallId} {a : Action} {e : Env} {w : World}
  {t : TransactionId}

abbrev World.rows (w : World) (t : TransactionId) : Bool :=
  (w.manager.storage t).rows

-- A transaction whose rows are installed is neither aborted nor given up for recovery. Commit calls
-- are left alone as well, so no rows are installed behind the back of an abort.
def KeepsRows (c : CallId) (a : Action) (_ : Env) (w : World) : Prop :=
  (∀ t, a = .transitionTo t .aborting → (w.ctx t).state = .committing →
    w.rows t = false ∧ ((w.txn t).owner = some c ∨ ∃ ws, (w.txn t).stage = .parked ws)) ∧
  (∀ p ws commit, a = .recordPending p → (w.txn p.txnId).stage = .marked ws commit → w.rows p.txnId = false)

theorem KeepsRows.leavesCommitAlone (h : KeepsRows c a e w) : LeavesCommitAlone c a e w :=
  fun t ha hs => (h.1 t ha hs).2

theorem storage_exec : ((w.exec config c a e).2.rows t →
      w.rows t ∨ (a = .applyTxnStaging t ∧ (w.manager.storage t).staging)) ∧
    (((w.exec config c a e).2.manager.storage t).staging → (w.manager.storage t).staging ∨
      ((∃ redo row, a = .stageWrite t redo row) ∧ (w.ctx t).txnType = .write)) := by
  cases hc : a.changesStorage with
  | false =>
    rw [World.rows, World.exec_keeps.storage hc]
    exact ⟨.inl, .inl⟩
  | true =>
    cases a with
    | stageWrite t' redo row =>
      simp only [World.rows, World.exec, TransactionManager.perform, TransactionManager.stageWrite]
      split
      case h_1 => exact ⟨.inl, .inl⟩
      case h_2 => by_cases ht : t = t' <;> simp_all
    | applyTxnStaging t' =>
      simp only [World.rows, World.exec, TransactionManager.perform, TransactionManager.applyTxnStaging]
      by_cases ht : t = t' <;> split_ifs <;> simp_all
    | awaitDurable t' =>
      simp only [World.rows, World.exec, TransactionManager.perform]
      by_cases ht : t = t' <;> split_ifs <;> simp_all
    | undoAppliedStaging t' =>
      simp only [World.rows, World.exec, TransactionManager.perform, TransactionManager.undoAppliedStaging]
      by_cases ht : t = t' <;> simp_all
    | abortStagedWrites t' =>
      simp only [World.rows, World.exec, TransactionManager.perform, TransactionManager.abortStagedWrites]
      by_cases ht : t = t' <;> simp_all
    | _ => contradiction

theorem Life.Step.published (s : Step c t l a l')
    (hc : l.Coherent) (h : l.stage.published = some commit) : l'.stage.published = some commit := by
  cases s with
  | startCommit _ ha => simp [hc.idle_of_active ha, Stage.published] at h
  | park => exact l.stage.published_park.trans h
  | mark _ hs => obtain ⟨hs, _⟩ | ⟨hs, _⟩ | hs := hs <;> simp [hs, Stage.published] at h
  | withdraw _ _ hs => obtain ⟨_, hs⟩ | ⟨_, _, hs⟩ := hs <;> simp [hs, Stage.published] at h
  | _ => simp_all [Stage.published]

-- A writer that is being committed stays open until it is made visible, aborted or given up.
theorem Life.Open.step (ho : l.Open) (s : Step c t l a l') (hc : l.Coherent)
    (hd : l.stage.isDescribed) (hn : l'.stage.published = none)
    (ha : a = .transitionTo t .aborting → l.state ≠ .committing)
    (hp : ∀ p, a = .recordPending p → p.txnId = t → ∀ ws commit, l.stage ≠ .marked ws commit) : l'.Open := by
  have hact : l.state ≠ .active := fun hs => by simp [hc.idle_of_active hs, Stage.isDescribed] at hd
  obtain ⟨h₁, h₂, h₃, h₄, h₅⟩ := ho
  cases s with
  | stay => exact ⟨h₁, h₂, h₃, h₄, h₅⟩
  | name hb => simp [hb] at h₂
  | beginWrite _ hb => simp [hb] at h₂
  | beginRead _ hb => simp [hb] at h₂
  | reject _ hb => exact absurd (hc.unlisted (by simp [hb])) hact
  | abort _ hs => exact absurd (hs.resolve_left hact) (ha rfl)
  | withdraw _ hs => exact absurd hs (ha rfl)
  | park he ho hf hnf =>
    refine ⟨h₁, h₂, h₃, fun ws commit hs => ?_, hn⟩
    cases hs' : l.stage with
    | marked ws commit => exact hp _ rfl he ws commit hs'
    | _ => simp_all [Stage.park, Stage.isFinal]
  | settle => simp [Stage.published] at hn
  | _ => constructor <;> first | assumption | simp_all

-- Whose rows can be installed: the ones of a writer that was described and that is still open, or
-- that has been made visible since.
structure Hidden (w : World) : Prop where
  exclusive : ∀ t, (w.life t).Exclusive
  staging : ∀ t, (w.manager.storage t).staging → w.Listed t ∧ (w.ctx t).txnType = .write
  described : ∀ t, w.rows t → (w.txn t).stage.isDescribed
  rows : ∀ t, w.rows t → (w.txn t).stage.published = none → (w.life t).Open

namespace Hidden

theorem new (config : ManagerConfig) : Hidden (.new config) where
  exclusive := fun _ => ⟨fun _ => .inl rfl, nofun⟩
  staging := nofun
  described := nofun
  rows := nofun

theorem exec_staging (h : Hidden w) (hi : Coherent w) (hr : Rule config c w a) (t : TransactionId)
    (hs : ((w.exec config c a e).2.manager.storage t).staging) :
    (w.exec config c a e).2.Listed t ∧ ((w.exec config c a e).2.ctx t).txnType = .write := by
  have hw : w.Listed t ∧ (w.ctx t).txnType = .write := by
    obtain hs | ⟨⟨redo, row, rfl⟩, ht⟩ := storage_exec.2 hs
    case inl => exact h.staging t hs
    case inr =>
      cases hr with
      | stageWrite hl => exact ⟨hl, ht⟩
  have s := life_step (e := e) hi hr t
  exact ⟨s.listed hw.1, (s.fixed hw.1).1.trans hw.2⟩

theorem exec_described (h : Hidden w) (hi : Coherent w) (hr : Rule config c w a) (t : TransactionId)
    (hx : (w.exec config c a e).2.rows t) : ((w.exec config c a e).2.txn t).stage.isDescribed := by
  refine (life_step (e := e) hi hr t).isDescribed (hi.life t) ?_
  obtain hx | ⟨rfl, _⟩ := storage_exec.1 hx
  case inl => exact h.described t hx
  case inr =>
    cases hr with
    | applyTxnStaging hh => exact congrArg Stage.isDescribed hh.2

theorem exec_rows (h : Hidden w) (hi : Coherent w) (hr : Rule config c w a)
    (hk : KeepsRows c a e w) (t : TransactionId) (hx : (w.exec config c a e).2.rows t)
    (hn : ((w.exec config c a e).2.txn t).stage.published = none) : ((w.exec config c a e).2.life t).Open := by
  have s := life_step (e := e) hi hr t
  have hn₀ : (w.txn t).stage.published = none := by
    by_contra hp
    obtain ⟨commit, hp⟩ := Option.ne_none_iff_exists'.mp hp
    have : ((w.exec config c a e).2.txn t).stage.published = some commit := s.published (hi.life t) hp
    simp [hn] at this
  obtain hx | ⟨rfl, hst⟩ := storage_exec.1 hx
  case inl =>
    refine (h.rows t hx hn₀).step s (hi.life t) (h.described t hx) hn (fun ha hs => ?_) ?_
    · simp [(hk.1 t ha hs).1] at hx
    · rintro p ha rfl ws commit hs
      simp [hk.2 p ws commit ha hs] at hx
  case inr =>
    obtain ⟨hl, ht⟩ := h.staging t hst
    cases hr with
    | applyTxnStaging hh =>
      have ha : (w.txn t).aborter = none := by
        by_contra ha
        have := (h.exclusive t).stage ((hi.life t).aborter.mp ha)
        simp [World.life, Life.of, hh.2] at this
      have ho : (w.life t).Open := ⟨ht, .inr hl, ha, by simp [World.life, Life.of, hh.2], hn₀⟩
      exact ho.step s (hi.life t) (congrArg Stage.isDescribed hh.2) hn (by simp) (by simp)

theorem exec (h : Hidden w) (hi : Coherent w) (hr : Rule config c w a) (hk : KeepsRows c a e w) :
    Hidden (w.exec config c a e).2 where
  exclusive t := (life_step hi hr t).exclusive (hi.life t) (h.exclusive t) (hk.leavesCommitAlone t)
  staging := h.exec_staging hi hr
  described := h.exec_described hi hr
  rows := h.exec_rows hi hr hk

theorem not_visible (h : Hidden w) (ht : Timed w) (hx : w.rows t) (hn : w.published t = none) :
    isCreateVisible ⟨w.vm, none⟩ w.vm.readTs (w.start t) = false := by
  have hp := ht.pending t (h.rows t hx hn)
  exact isCreateVisible_of_pending (ht.sound.pending _ hp) nofun hp

end Hidden

-- What a fresh reader accepts of the installed rows has been published.
theorem unpublished_writes_invisible (config : ManagerConfig) (es : List (Event CallId Request Env))
    (s : State CallId Request World Response Action.Answer)
    (r : Run (machine config).step (Machine.Admits KeepsRows) (.init (.new config)) es s)
    (t : TransactionId) (hx : s.shared.rows t)
    (hv : isCreateVisible ⟨s.shared.vm, none⟩ s.shared.vm.readTs (s.shared.start t)) :
    s.shared.published t ≠ none := by
  have ⟨_, ⟨ht, hh⟩, _⟩ := manager_invariant (I := fun w => Timed w ∧ Hidden w)
    (fun hi h hr hk => ⟨h.1.exec hi hr, h.2.exec hi hr hk⟩) r ⟨.new config, .new config⟩
  intro hn
  simp [hh.not_visible ht hx hn] at hv

theorem unpublished_writes_invisible_commit : ∃ es s, Run (machine (.default true)).step (Machine.Admits KeepsRows)
        (.init (.new (.default true))) es s ∧
      (s.shared.rows 1 ∧ isCreateVisible ⟨s.shared.vm, none⟩ s.shared.vm.readTs
        (s.shared.start 1)) ∧ s.shared.published 1 ≠ none := by
  have ⟨s, r, h⟩ := Run.exists_of_checked
    (machine (.default true)).step (.init (.new (.default true)))
    (beginWriter 0 1 (.schema "person") ++ [.call 2 (.stageWrite 1 [] true)] ++ Event.ticks 2 fine 2 ++
      [.call 3 (.commit 1)] ++ Event.ticks 3 fine 24)
    (fun s => s.shared.rows 1 ∧ isCreateVisible ⟨s.shared.vm, none⟩ s.shared.vm.readTs (s.shared.start 1))
    (Machine.admits_sound KeepsRows (fun _ a _ w => match a with
      | .transitionTo t .aborting => (w.ctx t).state ≠ .committing
      | .recordPending _ => false
      | _ => true) ?_)
    (by decide +kernel)
  · have h := of_decide_eq_true h
    exact ⟨_, s, r, h, unpublished_writes_invisible _ _ s r 1 h.1 h.2⟩
  · intro c a e w h
    constructor
    · rintro t rfl hs
      simp [hs] at h
    · rintro p _ _ rfl
      contradiction

-- Finalization fails four times. The rows stay where they are, but their timestamp is retired and
-- the frontier passes it.
theorem unpublished_writes_invisible_violated :
    ∃ es s, FreeRun (machine (.default true)).step (.init (.new (.default true))) es s ∧ s.shared.rows 1 ∧
      isCreateVisible ⟨s.shared.vm, none⟩ s.shared.vm.readTs (s.shared.start 1) ∧ s.shared.published 1 = none := by
  have ⟨s, r, h⟩ := Run.exists_of_any
    (machine (.default true)).step (.init (.new (.default true)))
    (beginWriter 0 1 (.schema "person") ++ [.call 2 (.stageWrite 1 [] true)] ++ Event.ticks 2 fine 2 ++
      [.call 3 (.commit 1)] ++ Event.ticks 3 fine 18 ++ Event.ticks 3 ⟨0, false⟩ 4 ++
      Event.ticks 3 fine 3)
    (fun s => s.shared.rows 1 ∧ isCreateVisible ⟨s.shared.vm, none⟩ s.shared.vm.readTs (s.shared.start 1) ∧
      s.shared.published 1 = none)
    (by decide +kernel)
  exact ⟨_, s, r, of_decide_eq_true h⟩

end Linkrs
