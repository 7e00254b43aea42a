import Linkrs.Manager.Conformance

namespace Linkrs

open Concurrent Transition

-- A transaction that is being committed is aborted by its own commit call only. Once that call has
-- left it to recovery without a commit timestamp, anybody may abort it.
def LeavesCommitAlone (c : CallId) (a : Action) (_ : Env) (w : World) : Prop :=
  ∀ t, a = .transitionTo t .aborting → (w.ctx t).state = .committing →
    (w.txn t).owner = some c ∨ ∃ ws, (w.txn t).stage = .parked ws

namespace Life

-- A transaction that is aborted is not on its way to commit, and only an abort runs the undo log.
structure Exclusive (l : Life) : Prop where
  stage : l.state = .aborting ∨ l.state = .aborted →
    l.stage = .idle ∨ l.stage = .withdrawn ∨ ∃ ws, l.stage = .parked ws
  undone : l.undone → l.aborter ≠ none

variable {c : CallId} {t : TransactionId} {l l' : Life} {a : Action}

theorem Step.exclusive (s : Step c t l a l') (hc : l.Coherent) (h : l.Exclusive)
    (ha : a = .transitionTo t .aborting → l.state = .committing →
      l.owner = some c ∨ ∃ ws, l.stage = .parked ws) : l'.Exclusive := by
  have ⟨hs, hu⟩ := h
  cases s with
  | stay => exact h
  | abort _ hst ho =>
    -- An active transaction has not been touched by a commit call.
    refine ⟨fun _ => ?_, fun _ => by simp⟩
    obtain hst | hst := hst
    case inl => exact .inl (hc.idle_of_active hst)
    case inr => exact .inr (.inr ((ha rfl hst).resolve_left ho))
  | park _ _ hf hn =>
    refine ⟨fun hst => ?_, hu⟩
    obtain hs | hs | ⟨ws, hs⟩ := hs hst <;> simp_all [Stage.park, PendingFinalization.Fits]
  | mark _ hm =>
    obtain ⟨hm, _⟩ | ⟨hm, _⟩ | hm := hm <;>
      exact ⟨fun hst => absurd (hs hst) (by simp [hm]), hu⟩
  | _ => constructor <;> first | assumption | simp_all

theorem Exclusive.not_published (h : l.Exclusive) (hc : l.Coherent) (hp : l.stage.published ≠ none) :
    l.undone = false ∧ l.state ≠ .aborted := by
  have hn : ¬(l.state = .aborting ∨ l.state = .aborted) := by
    intro hs
    obtain hs | hs | ⟨ws, hs⟩ := h.stage hs <;> simp [hs, Stage.published] at hp
  refine ⟨?_, fun hs => hn (.inr hs)⟩
  by_contra hu
  exact hn (hc.aborter.mp (h.undone (by simpa using hu)))

end Life

theorem exclusive_of_run
    (r : Run (machine config).step (Machine.Admits LeavesCommitAlone) (.init (.new config)) es s) :
    ∀ t, (s.shared.life t).Coherent ∧ (s.shared.life t).Exclusive := by
  have ⟨hc, hi, _⟩ := manager_invariant (I := fun w => ∀ t, (w.life t).Exclusive)
    (fun hc hi hr hl t => (life_step hc hr t).exclusive (hc.life t) (hi t) (hl t)) r
    fun _ => ⟨fun _ => .inl rfl, nofun⟩
  exact fun t => ⟨hc.life t, hi t⟩

-- If commit calls are left alone, no transaction is both made visible and undone or aborted.
theorem exclusive_outcome (config : ManagerConfig) (es : List (Event CallId Request Env))
    (s : State CallId Request World Response Action.Answer)
    (r : Run (machine config).step (Machine.Admits LeavesCommitAlone) (.init (.new config)) es s)
    (t : TransactionId) : ¬(s.shared.published t ≠ none ∧
      ((s.shared.txn t).undone ∨ (s.shared.ctx t).state = .aborted)) := by
  intro ⟨hp, h⟩
  have ⟨hc, he⟩ := exclusive_of_run r t
  have ⟨hu, ha⟩ := he.not_published hc hp
  obtain h | h := h
  case inl => exact Bool.noConfusion (hu.symm.trans h)
  case inr => exact ha h

theorem exclusive_outcome_commit_and_abort :
    ∃ es s, Run (machine (.default true)).step (Machine.Admits LeavesCommitAlone)
        (.init (.new (.default true))) es s ∧ (s.shared.published 1 = some 4 ∧ (s.shared.ctx 2).state = .aborted) ∧
      ¬(s.shared.published 1 ≠ none ∧ ((s.shared.txn 1).undone ∨ (s.shared.ctx 1).state = .aborted)) := by
  have ⟨s, r, h⟩ := Run.exists_of_checked
    (machine (.default true)).step (.init (.new (.default true)))
    (beginWriter 0 1 (.schema "person") ++ beginWriter 2 2 (.schema "city") ++
      [.call 4 (.commit 1)] ++ Event.ticks 4 fine 23 ++
      [.call 5 (.abort 2 false)] ++ Event.ticks 5 fine 15)
    (fun s => s.shared.published 1 = some 4 ∧ (s.shared.ctx 2).state = .aborted)
    (Machine.admits_sound LeavesCommitAlone (fun _ a _ w => match a with
      | .transitionTo t .aborting => (w.ctx t).state ≠ .committing
      | _ => true) ?_)
    (by decide +kernel)
  · exact ⟨_, s, r, of_decide_eq_true h, exclusive_outcome _ _ s r 1⟩
  · rintro c a e w h t rfl hs
    simp [hs] at h

-- An abort that has seen the commit unpublished goes on after the commit was made visible.
theorem exclusive_outcome_violated :
    ∃ es s, FreeRun (machine (.default true)).step (.init (.new (.default true))) es s ∧
      s.shared.published 1 = some 3 ∧ (s.shared.txn 1).undone ∧ (s.shared.ctx 1).state = .aborted := by
  have ⟨s, r, h⟩ := Run.exists_of_any
    (machine (.default true)).step (.init (.new (.default true)))
    (beginWriter 0 1 (.schema "person") ++ [.call 2 (.abort 1 false)] ++ Event.ticks 2 fine 4 ++
      [.call 3 (.commit 1)] ++ Event.ticks 3 fine 20 ++ Event.ticks 2 fine 11)
    (fun s => s.shared.published 1 = some 3 ∧ (s.shared.txn 1).undone ∧ (s.shared.ctx 1).state = .aborted)
    (by decide +kernel)
  exact ⟨_, s, r, of_decide_eq_true h⟩

end Linkrs
