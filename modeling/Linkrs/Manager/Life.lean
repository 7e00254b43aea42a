import Linkrs.Manager.Protocol

namespace Linkrs

open Stage

-- The part of a transaction's context and history that its way to commit or abort depends on.
structure Life extends ContextCore where
  creator : Option CallId
  birth : Birth
  owner : Option CallId
  stage : Stage
  aborter : Option CallId
  recoverer : Option CallId
  undone : Bool

def Life.of (x : TxnHistory) (core : ContextCore) : Life :=
  { core with
    creator := x.creator
    birth := x.birth
    owner := x.owner
    stage := x.stage
    aborter := x.aborter
    recoverer := x.recoverer
    undone := x.undone }

def World.life (w : World) (t : TransactionId) : Life :=
  .of (w.txn t) (w.ctx t).core

namespace Life

-- What the actions of the call `c` can do to the transaction `t`.
inductive Step (c : CallId) (t : TransactionId) (l : Life) : Action → Life → Prop
  | stay {a} : Step c t l a l
  -- Begin
  | name : l.birth = .unborn → Step c t l .nextId { l with creator := some c, birth := .named }
  | beginWrite {isolation ts mode} :
    l.creator = some c → l.birth = .named →
    Step c t l (.acquireInsertTimestamp t isolation)
      { l with
        birth := .begun
        txnType := .write
        startTimestamp := ts
        isolationLevel := isolation
        concurrencyMode := mode
        state := .active
        commitPublished := false
        commitTimestamp := 0 }
  | beginRead {isolation ts mode} :
    l.creator = some c → l.birth = .named →
    Step c t l (.addSnapshot t ts isolation)
      { l with
        birth := .begun
        txnType := .readOnly
        startTimestamp := ts
        isolationLevel := isolation
        concurrencyMode := mode
        state := .active
        commitPublished := false
        commitTimestamp := 0 }
  | list :
    l.creator = some c → l.birth = .begun → Step c t l (.insertActive t) { l with birth := .listed }
  | reject :
    l.creator = some c → l.birth = .begun →
    Step c t l (.abortWriteTimestamp t l.startTimestamp) { l with birth := .rejected }
  -- Commit
  | startCommit :
    l.birth = .listed → l.state = .active →
    Step c t l (.transitionTo t .committing)
      { l with state := .committing, owner := some c, stage := .sealed }
  | describe {ws} :
    l.owner = some c → l.stage = .sealed →
    Step c t l (.buildCommitDescriptor t) { l with stage := .described ws }
  | reserve {ws commit} :
    l.owner = some c → l.stage = .described ws → l.txnType = .write →
    Step c t l (.reserveCommitTimestamp t l.startTimestamp)
      { l with stage := .reserved ws commit }
  | certify {ws commit} :
    l.owner = some c → l.stage = .reserved ws commit →
    Step c t l (.publish t commit l.startTimestamp ws) { l with stage := .certified ws commit }
  | refuse {ws commit} :
    l.owner = some c → l.stage = .reserved ws commit →
    Step c t l (.publish t commit l.startTimestamp ws) { l with stage := .refused ws commit }
  | mark {ws commit} :
    l.owner = some c →
    (l.stage = .described ws ∧ commit = 0 ∧ l.txnType = .readOnly) ∨
      (l.stage = .reserved ws commit ∧ ws.isEmpty) ∨ l.stage = .certified ws commit →
    Step c t l (.markCommitPublished t)
      { l with stage := .marked ws commit, commitPublished := true }
  | settle {ws commit} :
    l.owner = some c → l.stage = .marked ws commit → commit ≠ 0 →
    Step c t l (.publishReservedCommit t l.startTimestamp commit)
      { l with stage := .settled ws commit }
  | complete :
    l.state = .committing → l.stage.isMarked →
    Step c t l (.transitionTo t .committed) { l with state := .committed }
  | park {p} :
    p.txnId = t → l.owner = some c → p.Fits l.stage.park → l.stage.isFinal = false →
    (∀ commit, l.stage.published = some commit → l.commitTimestamp = commit) →
    Step c t l (.recordPending p) { l with stage := l.stage.park }
  -- Abort
  | abort :
    l.birth = .listed → l.state = .active ∨ l.state = .committing → l.owner ≠ some c →
    Step c t l (.transitionTo t .aborting) { l with state := .aborting, aborter := some c }
  | withdraw :
    l.owner = some c → l.state = .committing →
    (∃ ws, l.stage = .described ws) ∨ (∃ ws commit, l.stage = .refused ws commit) →
    Step c t l (.transitionTo t .aborting)
      { l with state := .aborting, stage := .withdrawn, aborter := some c }
  | undo : l.aborter = some c → Step c t l (.executeUndoLogs t) { l with undone := true }
  | finishAbort :
    l.aborter = some c → l.state = .aborting →
    Step c t l (.transitionTo t .aborted) { l with state := .aborted }
  -- Recovery
  | take :
    l.recoverer = none → l.stage.isFinal → l.owner ≠ some c →
    Step c t l (.takePending t) { l with recoverer := some c }
  | requeue {p} :
    p.txnId = t → l.recoverer = some c → Step c t l (.recordPending p) { l with recoverer := none }
  | stamp {ts ws commit} :
    (l.owner = some c ∧ l.stage = .settled ws commit ∧ ts = commit) ∨
      (l.recoverer = some c ∧ l.stage = .unfinalized ws commit ∧ l.commitTimestamp = 0) →
    Step c t l (.setCommitTimestamp t ts) { l with commitTimestamp := ts }

structure Coherent (l : Life) : Prop where
  unlisted : l.birth ≠ .listed → l.state = .active
  aborter : l.aborter ≠ none ↔ l.state = .aborting ∨ l.state = .aborted
  owner : l.owner = none ↔ l.stage = .idle
  sealed : l.owner ≠ none → l.state ≠ .active
  committing : l.state = .committing ∨ l.state = .committed → l.owner ≠ none
  marked : l.commitPublished = l.stage.isMarked
  recoverer : l.recoverer ≠ none → l.stage.isFinal
  published : l.stage.published ≠ some 0
  leftover : ∀ ws commit, l.stage = .leftover ws commit → l.commitTimestamp = commit

namespace Coherent

variable {l : Life} {c : CallId}

theorem idle_of_active (h : l.Coherent) (ha : l.state = .active) : l.stage = .idle := by
  refine h.owner.mp ?_
  by_contra ho
  exact h.sealed ho ha

theorem listed_of_owner (h : l.Coherent) (ho : l.owner = some c) : l.birth = .listed := by
  by_contra hb
  exact h.sealed (by simp [ho]) (h.unlisted hb)

theorem listed_of_isFinal (h : l.Coherent) (hs : l.stage.isFinal) : l.birth = .listed := by
  by_contra hb
  simp [h.idle_of_active (h.unlisted hb), isFinal] at hs

theorem listed_of_aborter (h : l.Coherent) (ha : l.aborter = some c) : l.birth = .listed := by
  by_contra hb
  have := h.aborter.mp (by simp [ha])
  simp [h.unlisted hb] at this

theorem state_of_aborter (h : l.Coherent) (ha : l.aborter = some c) : l.state = .aborting ∨ l.state = .aborted :=
  h.aborter.mp (by simp [ha])

end Coherent

namespace Step

variable {c : CallId} {t : TransactionId} {l l' : Life} {a : Action}

theorem coherent (s : Step c t l a l') (h : l.Coherent) : l'.Coherent := by
  obtain ⟨h₁, h₂, h₃, h₄, h₅, h₆, h₇, h₈, h₉⟩ := h
  cases s with
  | stay => constructor <;> assumption
  | park _ ho hf _ hp =>
    refine ⟨h₁, h₂, ?_, h₄, h₅, ?_, fun _ => hf.isFinal, ?_, fun ws commit hs => ?_⟩
    case refine_1 => rw [h₃, park_eq_idle]
    case refine_2 => rw [h₆, isMarked_park]
    case refine_3 => rwa [published_park]
    case refine_4 =>
      refine hp commit ?_
      exact l.stage.published_park.symm.trans (congrArg Stage.published hs)
  | mark _ hs =>
    obtain ⟨hs, _⟩ | ⟨hs, _⟩ | hs := hs <;> constructor <;>
      simp_all [isMarked, isFinal, Stage.published]
  | withdraw _ _ hs =>
    obtain ⟨_, hs⟩ | ⟨_, _, hs⟩ := hs <;> constructor <;>
      simp_all [isMarked, isFinal, Stage.published]
  | stamp hs =>
    obtain ⟨_, hs, _⟩ | ⟨_, hs, _⟩ := hs <;> constructor <;>
      simp_all [isMarked, isFinal, Stage.published]
  | _ =>
    constructor <;> first
      | assumption
      | simp_all [isMarked, isFinal, Stage.published]

theorem unborn (s : Step c t l a l') (ha : a ≠ .nextId) (h : l.birth = .unborn) : l'.birth = .unborn := by
  cases s <;> simp_all

theorem listed (s : Step c t l a l') (h : l.birth = .listed) : l'.birth = .listed := by
  cases s <;> simp_all

-- Type and start timestamp of a transaction never change once it can be found.
theorem fixed (s : Step c t l a l') (h : l.birth = .listed) :
    l'.txnType = l.txnType ∧ l'.startTimestamp = l.startTimestamp := by
  cases s <;> simp_all

-- Nobody but recovery goes on with a commit that was left to it.
theorem stage_of_isFinal (s : Step c t l a l') (hc : l.Coherent) (h : l.stage.isFinal) : l'.stage = l.stage := by
  cases s with
  | startCommit _ ha => simp [hc.idle_of_active ha, isFinal] at h
  | mark _ hs =>
    obtain ⟨hs, _⟩ | ⟨hs, _⟩ | hs := hs <;> simp [hs, isFinal] at h
  | withdraw _ _ hs =>
    obtain ⟨_, hs⟩ | ⟨_, _, hs⟩ := hs <;> simp [hs, isFinal] at h
  | _ => simp_all [isFinal]

theorem isDescribed (s : Step c t l a l') (hc : l.Coherent) (h : l.stage.isDescribed) : l'.stage.isDescribed := by
  cases s with
  | startCommit _ ha => simp [hc.idle_of_active ha, Stage.isDescribed] at h
  | park => exact l.stage.isDescribed_park.trans h
  | _ => simp_all [Stage.isDescribed]

theorem owner_ne (s : Step c' t l a l') (hc : c' ≠ c) (h : l.owner ≠ some c) : l'.owner ≠ some c := by
  cases s <;> simp_all

theorem recoverer_eq_none (s : Step c t l a l') (ha : a ≠ .takePending t)
    (h : l.recoverer = none) : l'.recoverer = none := by
  cases s <;> simp_all

end Step
end Life
end Linkrs
