import Linkrs.Manager.Conformance

namespace Linkrs

open History

namespace VersionManager

-- All slots are within the range handed out, and the pending ones are above the frontier.
structure Sound (vm : VersionManager) : Prop where
  frontier : vm.readTs ≤ vm.writeTs
  bound : ∀ ts, vm.slot ts ≠ none → ts ≤ vm.writeTs
  pending : ∀ ts, vm.slot ts = some .pending → vm.readTs < ts

namespace Sound

variable {vm vm' : VersionManager} {ts start commit : Timestamp} {now : Instant}
  {st : WriteTimestampState}

theorem new : Sound .new where
  frontier := le_refl _
  bound := by simp [slot, VersionManager.new]
  pending := by simp [slot, VersionManager.new]

theorem congr (h : Sound vm) (hw : vm'.writeTs = vm.writeTs) (hr : vm'.readTs = vm.readTs)
    (hs : vm'.writeStates = vm.writeStates) : Sound vm' := by
  have hs : vm'.slot = vm.slot := by
    funext ts
    simp only [slot, hs]
  constructor
  case frontier => rw [hw, hr]; exact h.frontier
  case bound => rw [hw, hs]; exact h.bound
  case pending => rw [hr, hs]; exact h.pending

theorem settleSlot (h : Sound vm) : Sound (vm.settleSlot ts st) where
  frontier := by simpa using h.frontier
  bound t ht := by
    have hb := h.bound t
    simp only [slot_settleSlot, writeTs_settleSlot] at ht ⊢
    grind
  pending t ht := by
    have hp := h.pending t
    simp only [slot_settleSlot, readTs_settleSlot] at ht ⊢
    grind

theorem insertSlot (h : Sound vm) :
    Sound ({ vm with writeTs := vm.writeTs + 1 }.insertSlot (vm.writeTs + 1) now st) where
  frontier := by
    have := h.frontier
    simp only [VersionManager.insertSlot]
    lia
  bound t ht := by
    have hb := h.bound t
    simp only [slot_insertSlot] at ht
    simp only [VersionManager.insertSlot]
    grind [slot]
  pending t ht := by
    have hp := h.pending t
    have hf := h.frontier
    simp only [slot_insertSlot] at ht
    simp only [VersionManager.insertSlot]
    grind [slot]

theorem settleCommit (h : Sound vm) (hc : commit ≤ vm.writeTs) : Sound (vm.settleCommit commit now) := by
  have keep {now : Instant} : Sound (vm.insertSlot commit now .committed) := by
    constructor
    case frontier => exact h.frontier
    case bound =>
      intro t ht
      have hb := h.bound t
      simp only [slot_insertSlot] at ht
      simp only [VersionManager.insertSlot]
      grind
    case pending =>
      intro t ht
      have hp := h.pending t
      simp only [slot_insertSlot] at ht
      simp only [VersionManager.insertSlot]
      grind
  unfold VersionManager.settleCommit
  split
  case h_1 => exact keep
  case h_2 => exact h
  case h_3 => exact keep

theorem advanceReadFrontier (h : Sound vm) : Sound vm.advanceReadFrontier where
  frontier := by
    by_contra hn
    have hlt : vm.writeTs < vm.advanceReadFrontier.readTs := by simpa using hn
    have hs := settled_of_advanceReadFrontier (lt_of_le_of_lt h.frontier hlt) (le_refl _)
    have hn : vm.slot vm.advanceReadFrontier.readTs ≠ none := by obtain hs | hs := hs <;> simp [hs]
    exact absurd (h.bound _ hn) (not_le.mpr hlt)
  bound t ht := by
    rw [slot_advanceReadFrontier] at ht
    exact h.bound t (by grind)
  pending t ht := by
    have hp := (slot_advanceReadFrontier_pending vm t).mp ht
    have hr := h.pending t hp
    by_contra hn
    have hle : t ≤ vm.advanceReadFrontier.readTs := by simpa using hn
    exact not_settled_of_pending hp (settled_of_advanceReadFrontier hr hle)

end Sound

-- The pending slots that an operation ends.
section

variable {vm : VersionManager} {ts t start commit : Timestamp} {now : Instant}

theorem pending_abortWriteTimestamp :
    (vm.abortWriteTimestamp ts).slot t = some .pending ↔ vm.slot t = some .pending ∧ t ≠ ts := by
  rw [abortWriteTimestamp, finishWriteTimestamp, slot_advanceReadFrontier_pending, slot_settleSlot]
  grind

theorem pending_publishReservedCommit : (vm.publishReservedCommit start commit now).slot t = some .pending ↔
      vm.slot t = some .pending ∧ t ≠ start ∧ t ≠ commit := by
  rw [publishReservedCommit, slot_advanceReadFrontier_pending]
  unfold settleCommit
  split
  case h_1 => rw [slot_insertSlot, slot_settleSlot]; grind
  case h_2 e hn he =>
    have hc : (vm.settleSlot start .committed).slot commit ≠ some .pending := by
      intro hp
      have ⟨acquired, ha⟩ := slot_pending_iff.mp hp
      exact hn acquired (Option.some.inj (he.symm.trans ha))
    rw [slot_settleSlot] at hc ⊢
    grind
  case h_3 => rw [slot_insertSlot, slot_settleSlot]; grind

theorem pending_allocateCommitTimestamp (h : vm.Sound)
    (ha : vm.allocateCommitTimestamp start now = .ok (ts, vm')) :
    vm'.slot t = some .pending ↔ vm.slot t = some .pending ∧ t ≠ start := by
  have ⟨hts, hvm⟩ := allocateCommitTimestamp_ok ha
  have hb := h.bound t
  subst hts hvm
  rw [slot_advanceReadFrontier_pending, slot_insertSlot, settleSlot_setWriteTs]
  have : ({ vm.settleSlot start .committed with writeTs := vm.writeTs + 1 } : VersionManager).slot t =
    (vm.settleSlot start .committed).slot t := rfl
  rw [this, slot_settleSlot]
  grind

theorem pending_acquireInsertTimestamp (ha : vm.acquireInsertTimestamp now = .ok (ts, vm')) :
    vm'.slot t = some .pending ↔ vm.slot t = some .pending ∨ t = ts := by
  have ⟨_, hvm⟩ := acquireInsertTimestamp_ok ha
  rw [hvm, slot_openSlot]
  grind [slot]

theorem pending_reserveCommitTimestamp (ha : vm.reserveCommitTimestamp start now = .ok (ts, vm')) :
    vm'.slot t = some .pending ↔ vm.slot t = some .pending ∨ t = ts := by
  have ⟨_, _, hvm⟩ := reserveCommitTimestamp_ok ha
  rw [hvm, slot_insertSlot]
  grind [slot]

end
section

variable {vm vm' : VersionManager} {ts t start commit : Timestamp} {now : Instant}

theorem refCount_abortWriteTimestamp (h : t ≠ ts) :
    (vm.abortWriteTimestamp ts).snapshotTracker.refCount t = vm.snapshotTracker.refCount t := by
  simp [abortWriteTimestamp, finishWriteTimestamp, h]

theorem refCount_publishReservedCommit (h : t ≠ start) :
    (vm.publishReservedCommit start commit now).snapshotTracker.refCount t = vm.snapshotTracker.refCount t := by
  have hc (vm : VersionManager) : (vm.settleCommit commit now).snapshotTracker = vm.snapshotTracker := by
    unfold settleCommit
    split <;> rfl
  simp [publishReservedCommit, hc, h]

theorem refCount_allocateCommitTimestamp (h : t ≠ start)
    (ha : vm.allocateCommitTimestamp start now = .ok (ts, vm')) :
    vm'.snapshotTracker.refCount t = vm.snapshotTracker.refCount t := by
  have ⟨_, hvm⟩ := allocateCommitTimestamp_ok ha
  rw [hvm, snapshotTracker_advanceReadFrontier]
  simp [insertSlot, h]

end
end VersionManager

-- The timestamps whose slots an action settles.
def Action.Retires : Action → Timestamp → Prop
  | .abortWriteTimestamp _ ts', ts => ts = ts'
  | .publishReservedCommit _ start commit, ts => ts = start ∨ ts = commit
  | .allocateCommitTimestamp _ start, ts => ts = start
  | _, _ => False

-- What an action does to the timestamps.
structure Action.Moves (a : Action) (vm vm' : VersionManager) : Prop where
  sound : vm'.Sound
  writeTs : vm.writeTs ≤ vm'.writeTs
  readTs : vm.readTs ≤ vm'.readTs
  keeps : ∀ ts, vm.slot ts = some .pending → ¬a.Retires ts → vm'.slot ts = some .pending
  pending : ∀ ts, vm'.slot ts = some .pending → vm.slot ts = some .pending ∨ ts = vm.writeTs + 1
  pins : ∀ ts, vm'.slot ts = some .pending → a ≠ .releaseReadTimestampAt ts →
    vm.snapshotTracker.refCount ts ≤ vm'.snapshotTracker.refCount ts

namespace VersionManager

variable {a : Action} {vm vm' : VersionManager} {t : TransactionId} {ts start commit : Timestamp}
  {now : Instant}

theorem moves_of_eq (hs : vm.Sound) (hp : ∀ ts, a ≠ .releaseReadTimestampAt ts →
      vm.snapshotTracker.refCount ts ≤ vm'.snapshotTracker.refCount ts)
    (hw : vm'.writeTs = vm.writeTs) (hr : vm'.readTs = vm.readTs)
    (he : vm'.writeStates = vm.writeStates) : a.Moves vm vm' := by
  have hsl : vm'.slot = vm.slot := by
    funext ts
    simp only [slot, he]
  constructor
  case sound => exact hs.congr hw hr he
  case writeTs => exact hw.ge
  case readTs => exact hr.ge
  case keeps => intro ts h _; rw [hsl]; exact h
  case pending => intro ts h; rw [hsl] at h; exact .inl h
  case pins => exact fun ts _ => hp ts

theorem moves_acquireInsertTimestamp (hs : vm.Sound)
    (h : vm.acquireInsertTimestamp now = .ok (ts, vm')) : a.Moves vm vm' := by
  have ⟨hts, hvm⟩ := acquireInsertTimestamp_ok h
  subst hts
  constructor
  case sound => rw [hvm]; exact hs.insertSlot.congr rfl rfl rfl
  case writeTs => rw [hvm]; exact Nat.le_succ _
  case readTs => rw [hvm]; exact le_refl _
  case keeps => exact fun ts hp _ => (pending_acquireInsertTimestamp h).mpr (.inl hp)
  case pending => exact fun ts hp => (pending_acquireInsertTimestamp h).mp hp
  case pins =>
    intro ts _ _
    rw [hvm, refCount_openSlot]
    exact Nat.le_add_right ..

theorem moves_reserveCommitTimestamp (hs : vm.Sound)
    (h : vm.reserveCommitTimestamp start now = .ok (ts, vm')) : a.Moves vm vm' := by
  have ⟨_, hts, hvm⟩ := reserveCommitTimestamp_ok h
  subst hts
  constructor
  case sound => rw [hvm]; exact hs.insertSlot
  case writeTs => rw [hvm]; exact Nat.le_succ _
  case readTs => rw [hvm]; exact le_refl _
  case keeps => exact fun ts hp _ => (pending_reserveCommitTimestamp h).mpr (.inl hp)
  case pending => exact fun ts hp => (pending_reserveCommitTimestamp h).mp hp
  case pins => intro ts _ _; rw [hvm]; exact le_refl _

theorem moves_allocateCommitTimestamp (hs : vm.Sound) (h : vm.allocateCommitTimestamp start now = .ok (ts, vm')) :
    (Action.allocateCommitTimestamp t start).Moves vm vm' := by
  have ⟨hts, hvm⟩ := allocateCommitTimestamp_ok h
  subst hts
  constructor
  case sound =>
    rw [hvm, settleSlot_setWriteTs]
    have h₁ : (vm.settleSlot start .committed).Sound := hs.settleSlot
    have h₂ := @Sound.insertSlot _ now .committed h₁
    simp only [writeTs_settleSlot] at h₂
    exact h₂.advanceReadFrontier
  case writeTs =>
    rw [hvm, writeTs_advanceReadFrontier]
    simp [insertSlot]
  case readTs =>
    rw [hvm]
    refine le_trans ?_ (readTs_le_advanceReadFrontier _)
    simp [insertSlot]
  case keeps => exact fun ts hp ha => (pending_allocateCommitTimestamp hs h).mpr ⟨hp, ha⟩
  case pending => exact fun ts hp => .inl ((pending_allocateCommitTimestamp hs h).mp hp).1
  case pins =>
    intro ts hp _
    have hn := ((pending_allocateCommitTimestamp hs h).mp hp).2
    exact (refCount_allocateCommitTimestamp hn h).ge

theorem moves_publishReservedCommit (hs : vm.Sound) (hc : commit ≤ vm.writeTs) :
    (Action.publishReservedCommit t start commit).Moves vm (vm.publishReservedCommit start commit now) := by
  constructor
  case sound => exact (hs.settleSlot.settleCommit (by simpa using hc)).advanceReadFrontier
  case writeTs => simp [publishReservedCommit]
  case readTs =>
    refine le_trans ?_ (readTs_le_advanceReadFrontier _)
    simp
  case keeps => exact fun ts hp ha => pending_publishReservedCommit.mpr ⟨hp, not_or.mp ha⟩
  case pending => exact fun ts hp => .inl (pending_publishReservedCommit.mp hp).1
  case pins =>
    intro ts hp _
    exact (refCount_publishReservedCommit (pending_publishReservedCommit.mp hp).2.1).ge

theorem moves_abortWriteTimestamp (hs : vm.Sound) :
    (Action.abortWriteTimestamp t ts).Moves vm (vm.abortWriteTimestamp ts) := by
  constructor
  case sound => exact hs.settleSlot.advanceReadFrontier
  case writeTs => simp [abortWriteTimestamp, finishWriteTimestamp]
  case readTs =>
    refine le_trans ?_ (readTs_le_advanceReadFrontier _)
    simp
  case keeps => exact fun ts hp ha => pending_abortWriteTimestamp.mpr ⟨hp, ha⟩
  case pending => exact fun ts hp => .inl (pending_abortWriteTimestamp.mp hp).1
  case pins =>
    intro ts hp _
    exact (refCount_abortWriteTimestamp (pending_abortWriteTimestamp.mp hp).2).ge

end VersionManager

namespace TransactionManager

variable {config : ManagerConfig} {env : Env} {m : TransactionManager} {a : Action}

-- A commit timestamp that is published must have been handed out before.
theorem perform_moves (hs : m.versionManager.Sound)
    (hc : ∀ t start commit, a = .publishReservedCommit t start commit → commit ≤ m.versionManager.writeTs) :
    a.Moves m.versionManager (m.perform config env a).2.versionManager := by
  have stay (a : Action) : a.Moves m.versionManager m.versionManager :=
    VersionManager.moves_of_eq hs (fun _ _ => le_refl _) rfl rfl rfl
  cases hv : a.changesTimestamps with
  | false =>
    rw [(perform_keeps a).timestamps hv]
    exact stay a
  | true =>
    cases a with
    | acquireInsertTimestamp t isolation =>
      obtain ⟨_, _, hr, h⟩ | ⟨_, h⟩ := m.acquireInsertTimestamp_cases config t isolation env.now
      case inl =>
        simp only [perform, h]
        exact VersionManager.moves_acquireInsertTimestamp hs hr
      case inr => simp only [perform, h]; exact stay _
    | reserveCommitTimestamp t start =>
      simp only [perform]
      cases hr : m.versionManager.reserveCommitTimestamp start env.now with
      | error => exact stay _
      | ok => exact VersionManager.moves_reserveCommitTimestamp hs hr
    | allocateCommitTimestamp t start =>
      simp only [perform]
      cases hr : m.versionManager.allocateCommitTimestamp start env.now with
      | error => exact stay _
      | ok => exact VersionManager.moves_allocateCommitTimestamp hs hr
    | publishReservedCommit t start commit =>
      exact VersionManager.moves_publishReservedCommit hs (hc _ _ _ rfl)
    | abortWriteTimestamp t ts => exact VersionManager.moves_abortWriteTimestamp hs
    | loadReadTimestamp =>
      exact VersionManager.moves_of_eq hs (fun _ _ => le_refl _) rfl rfl rfl
    | addSnapshot t ts isolation =>
      refine VersionManager.moves_of_eq hs (fun ts' _ => ?_) rfl rfl rfl
      simp only [perform, ActiveSnapshots.toSnapshotTracker_addSnapshot, SnapshotTracker.refCount_addSnapshot]
      exact Nat.le_add_right ..
    | releaseReadTimestampAt ts =>
      refine VersionManager.moves_of_eq hs (fun ts' hn => ?_) rfl rfl rfl
      simp only [perform, VersionManager.releaseReadTimestampAt, ActiveSnapshots.toSnapshotTracker_release,
        SnapshotTracker.refCount_release]
      have : ts' ≠ ts := fun h => hn (h ▸ rfl)
      simp [this]
    | _ => contradiction

end TransactionManager
namespace Life

variable {c : CallId} {t : TransactionId} {l l' : Life} {a : Action}

structure Open (l : Life) : Prop where
  write : l.txnType = .write
  begun : l.birth = .begun ∨ l.birth = .listed
  aborter : l.aborter = none
  unfinalized : ∀ ws commit, l.stage ≠ .unfinalized ws commit
  published : l.stage.published = none

namespace Step

theorem writer (s : Step c t l a l') (h : l'.txnType = .write) :
    (l.txnType = .write ∧ l'.startTimestamp = l.startTimestamp) ∨
    ∃ isolation, a = .acquireInsertTimestamp t isolation := by
  cases s <;> simp_all

theorem reader (s : Step c t l a l') (h : l'.txnType = .readOnly) :
    (l.txnType = .readOnly ∧ l'.startTimestamp = l.startTimestamp) ∨
    ∃ ts isolation, a = .addSnapshot t ts isolation ∧ l'.startTimestamp = ts := by
  cases s <;> simp_all

theorem commitTimestamp (s : Step c t l a l')
    (h : l'.stage.commitTimestamp = some ts) : l.stage.commitTimestamp = some ts ∨ ts = 0 ∨
    ∃ start, a = .reserveCommitTimestamp t start := by
  cases s with
  | mark _ hs =>
    obtain ⟨hs, rfl, _⟩ | ⟨hs, _⟩ | hs := hs <;> simp_all [Stage.commitTimestamp]
  | park => exact .inl (l.stage.commitTimestamp_park ▸ h)
  | _ => simp_all [Stage.commitTimestamp]

theorem isOpen (s : Step c t l a l') (hc : l.Coherent) (h : l'.Open) :
    (l.Open ∧ l'.startTimestamp = l.startTimestamp) ∨ ∃ isolation, a = .acquireInsertTimestamp t isolation := by
  have ⟨h₁, h₂, h₃, h₄, h₅⟩ := h
  cases s with
  | beginWrite => exact .inr ⟨_, rfl⟩
  | park _ _ hf =>
    refine .inl ⟨⟨h₁, h₂, h₃, ?_, l.stage.published_park ▸ h₅⟩, rfl⟩
    intro ws commit hs
    simp [hs, Stage.park] at h₄
  | startCommit _ ha =>
    have hs := hc.idle_of_active ha
    exact .inl ⟨⟨h₁, h₂, h₃, by simp [hs], by simp [hs, Stage.published]⟩, rfl⟩
  | mark _ hs =>
    refine .inl ⟨⟨h₁, h₂, h₃, ?_, ?_⟩, rfl⟩ <;>
      obtain ⟨hs, _⟩ | ⟨hs, _⟩ | hs := hs <;> simp [hs, Stage.published]
  | withdraw => simp at h₃
  | _ =>
    refine .inl ⟨⟨?_, ?_, ?_, ?_, ?_⟩, ?_⟩ <;> first
      | assumption
      | rfl
      | simp_all [Stage.published]

end Step
end Life
variable {config : ManagerConfig} {c : CallId} {a : Action} {e : Env} {w : World}
  {t t' : TransactionId} {ts : Timestamp}

abbrev World.start (w : World) (t : TransactionId) : Timestamp :=
  (w.ctx t).startTimestamp

-- How the timestamps of the transactions relate to the version manager. Nothing here is assumed
-- about what the calls do beyond the rules.
structure Timed (w : World) : Prop where
  sound : w.vm.Sound
  starts : ∀ t, (w.ctx t).txnType = .write → 0 < w.start t ∧ w.start t ≤ w.vm.writeTs
  distinct : ∀ t t', (w.ctx t).txnType = .write → (w.ctx t').txnType = .write →
    w.start t = w.start t' → t = t'
  commits : ∀ t commit, (w.txn t).stage.commitTimestamp = some commit →
    commit ≤ w.vm.writeTs ∧ ∀ t', (w.ctx t').txnType = .write → w.start t' ≠ commit
  readers : ∀ t, (w.ctx t).txnType = .readOnly → w.start t ≤ w.vm.readTs
  loaded : ∀ c ts, w.history.loaded c = some ts → ts ≤ w.vm.readTs
  pending : ∀ t, (w.life t).Open → w.vm.slot (w.start t) = some .pending
  pinned : ∀ t, (w.ctx t).txnType = .write → w.vm.slot (w.start t) = some .pending →
    0 < w.vm.snapshotTracker.refCount (w.start t)

-- What is known about a writer that has just been given its timestamp.
structure World.Fresh (w w' : World) (t : TransactionId) : Prop where
  start : w'.start t = w.vm.writeTs + 1
  writeTs : w'.vm.writeTs = w.vm.writeTs + 1
  pending : w'.vm.slot (w'.start t) = some .pending
  pinned : 0 < w'.vm.snapshotTracker.refCount (w'.start t)

theorem acquireInsertTimestamp_exec : w.Fresh (w.exec config c (.acquireInsertTimestamp t isolation) e).2 t ∨
    (w.exec config c (.acquireInsertTimestamp t isolation) e).2 = w := by
  simp only [World.exec, TransactionManager.perform]
  obtain ⟨ts, vm, hr, h⟩ | ⟨_, h⟩ := w.manager.acquireInsertTimestamp_cases config t isolation e.now
  case inr => rw [h]; exact .inr rfl
  case inl =>
    obtain ⟨hts, hvm⟩ := VersionManager.acquireInsertTimestamp_ok hr
    rw [h]
    have hc : (({ w.manager with versionManager := vm }.setContext t
        (.new .write ts isolation config.txnConfig)).contexts t).startTimestamp = ts := by
      simp [TransactionContext.new]
    left
    constructor
    case start => exact hc.trans hts
    case writeTs => exact (congrArg VersionManager.writeTs hvm).trans hts
    case pending =>
      rw [World.start, World.ctx, hc, World.vm]
      exact (VersionManager.pending_acquireInsertTimestamp hr).mpr (.inr rfl)
    case pinned =>
      rw [World.start, World.ctx, hc, World.vm]
      show 0 < vm.snapshotTracker.refCount ts
      simp [hvm]

theorem reserveCommitTimestamp_exec
    (h : ((w.exec config c (.reserveCommitTimestamp t start) e).2.txn t).stage.commitTimestamp =
      some ts) : (w.txn t).stage.commitTimestamp = some ts ∨ (ts = w.vm.writeTs + 1 ∧
      (w.exec config c (.reserveCommitTimestamp t start) e).2.vm.writeTs = ts) := by
  simp only [World.exec, TransactionManager.perform] at h ⊢
  cases hr : w.vm.reserveCommitTimestamp start e.now with
  | error => rw [hr] at h; exact .inl h
  | ok r =>
    obtain ⟨_, hts, hvm⟩ := VersionManager.reserveCommitTimestamp_ok hr
    rw [hr] at h
    simp only [World.txn, TransactionManager.allocate, observe, txns_modify, if_true]
      at h
    cases hst : (w.txn t).stage with
    | described ws =>
      simp only [hst, Stage.reserve, Stage.commitTimestamp, Option.some.injEq] at h
      subst h
      exact .inr ⟨hts, congrArg VersionManager.writeTs hvm⟩
    | _ =>
      simp only [hst, Stage.reserve] at h
      exact .inl h

theorem writer_exec (hi : Coherent w) (hr : Rule config c w a)
    (h : ((w.exec config c a e).2.ctx t).txnType = .write) :
    ((w.ctx t).txnType = .write ∧ (w.exec config c a e).2.start t = w.start t) ∨
    (w.Fresh (w.exec config c a e).2 t ∧ ∃ isolation, a = .acquireInsertTimestamp t isolation) := by
  obtain h' | ⟨isolation, rfl⟩ := (life_step (e := e) hi hr t).writer h
  case inl => exact .inl h'
  case inr =>
    obtain hf | he := acquireInsertTimestamp_exec
    case inl => exact .inr ⟨hf, isolation, rfl⟩
    case inr => rw [he] at h ⊢; exact .inl ⟨h, rfl⟩

theorem loaded_exec (h : (w.exec config c a e).2.history.loaded c' = some ts) :
    w.history.loaded c' = some ts ∨ ts = w.vm.readTs := by
  by_cases ha : a = .loadReadTimestamp
  case pos =>
    subst ha
    simp only [World.exec, TransactionManager.perform, observe, setLoaded] at h
    grind
  case neg =>
    left
    simp only [World.exec, observe] at h
    split at h
    case h_3 => contradiction
    case h_4 => simp only [setLoaded, History.modify] at h; grind
    all_goals exact h

namespace Timed

theorem new (config : ManagerConfig) : Timed (.new config) where
  sound := .new
  starts := by simp [World.new, TransactionManager.new, TransactionContext.new]
  distinct := by simp [World.new, TransactionManager.new, TransactionContext.new]
  commits := by simp [World.new, History.new, TxnHistory.new, Stage.commitTimestamp]
  readers := fun _ _ => Nat.zero_le _
  loaded := by simp [World.new, History.new]
  pending := fun _ h => absurd h.write (by simp [World.life, Life.of, World.new,
    TransactionManager.new, TransactionContext.new, TransactionContext.core])
  pinned := by simp [World.new, TransactionManager.new, TransactionContext.new]

theorem moves (h : Timed w) (hr : Rule config c w a) : a.Moves w.vm (w.exec config c a e).2.vm := by
  refine TransactionManager.perform_moves h.sound fun t start commit ha => ?_
  subst ha
  cases hr with
  | publishReservedCommit hh => exact (h.commits t commit (by simp [hh.2, Stage.commitTimestamp])).1

theorem eq_of_start (h : Timed w) (ho : (w.life t).Open) (hs : w.start t = w.start t') : t = t' := by
  cases ht : (w.ctx t').txnType with
  | write => exact h.distinct t t' ho.write ht hs
  | readOnly =>
    have hp := h.sound.pending _ (h.pending t ho)
    have hr := h.readers t' ht
    lia

theorem exec_starts (h : Timed w) (hi : Coherent w) (hr : Rule config c w a)
    (t : TransactionId) (ht : ((w.exec config c a e).2.ctx t).txnType = .write) :
    0 < (w.exec config c a e).2.start t ∧
    (w.exec config c a e).2.start t ≤ (w.exec config c a e).2.vm.writeTs := by
  obtain ⟨ht, hs⟩ | ⟨hf, _⟩ := writer_exec hi hr ht
  case inl =>
    have ⟨hz, hb⟩ := h.starts t ht
    rw [hs]
    exact ⟨hz, hb.trans (h.moves hr).writeTs⟩
  case inr =>
    rw [hf.start, hf.writeTs]
    exact ⟨Nat.succ_pos _, le_refl _⟩

theorem exec_distinct (h : Timed w) (hi : Coherent w) (hr : Rule config c w a)
    (t t' : TransactionId) (ht : ((w.exec config c a e).2.ctx t).txnType = .write)
    (ht' : ((w.exec config c a e).2.ctx t').txnType = .write)
    (hs : (w.exec config c a e).2.start t = (w.exec config c a e).2.start t') : t = t' := by
  obtain ⟨ht, he⟩ | ⟨hf, _, ha⟩ := writer_exec hi hr ht <;>
    obtain ⟨ht', he'⟩ | ⟨hf', _, ha'⟩ := writer_exec hi hr ht'
  case inl.inl => exact h.distinct t t' ht ht' (he ▸ he' ▸ hs)
  case inl.inr =>
    have := (h.starts t ht).2
    have := hf'.start
    lia
  case inr.inl =>
    have := (h.starts t' ht').2
    have := hf.start
    lia
  case inr.inr => cases ha.symm.trans ha'; rfl

theorem exec_commits (h : Timed w) (hi : Coherent w) (hr : Rule config c w a)
    (t : TransactionId) (commit : Timestamp)
    (hc : ((w.exec config c a e).2.txn t).stage.commitTimestamp = some commit) :
    commit ≤ (w.exec config c a e).2.vm.writeTs ∧ ∀ t', ((w.exec config c a e).2.ctx t').txnType = .write →
      (w.exec config c a e).2.start t' ≠ commit := by
  have hm := h.moves (e := e) hr
  -- A commit timestamp that was there before is not the start of a writer that begins now.
  have old (hc : (w.txn t).stage.commitTimestamp = some commit) :
      commit ≤ (w.exec config c a e).2.vm.writeTs ∧
      ∀ t', ((w.exec config c a e).2.ctx t').txnType = .write →
        (w.exec config c a e).2.start t' ≠ commit := by
    have ⟨hb, hs⟩ := h.commits t commit hc
    refine ⟨hb.trans hm.writeTs, fun t' ht' => ?_⟩
    obtain ⟨ht', he⟩ | ⟨hf, _⟩ := writer_exec hi hr ht'
    case inl => rw [he]; exact hs t' ht'
    case inr =>
      have := hf.start
      lia
  obtain hc' | rfl | ⟨start, rfl⟩ := (life_step (e := e) hi hr t).commitTimestamp hc
  case inl => exact old hc'
  case inr.inl =>
    exact ⟨Nat.zero_le _, fun t' ht' => (h.exec_starts hi hr t' ht').1.ne'⟩
  case inr.inr =>
    obtain hc | ⟨hts, hw⟩ := reserveCommitTimestamp_exec hc
    case inl => exact old hc
    case inr =>
      refine ⟨hw.ge, fun t' ht' => ?_⟩
      obtain ⟨ht', he⟩ | ⟨_, _, ha⟩ := writer_exec hi hr ht'
      case inl =>
        have := (h.starts t' ht').2
        lia
      case inr => cases ha

theorem exec_readers (h : Timed w) (hi : Coherent w) (hr : Rule config c w a) (t : TransactionId)
    (ht : ((w.exec config c a e).2.ctx t).txnType = .readOnly) :
    (w.exec config c a e).2.start t ≤ (w.exec config c a e).2.vm.readTs := by
  refine le_trans ?_ (h.moves (e := e) hr).readTs
  obtain ⟨ht, hs⟩ | ⟨ts, isolation, rfl, hs⟩ := (life_step (e := e) hi hr t).reader ht
  case inl => exact hs.trans_le (h.readers t ht)
  case inr =>
    cases hr with
    | addSnapshot _ hl => exact hs.trans_le (h.loaded c ts hl)

theorem exec_loaded (h : Timed w) (hr : Rule config c w a) (c' : CallId) (ts : Timestamp)
    (hl : (w.exec config c a e).2.history.loaded c' = some ts) : ts ≤ (w.exec config c a e).2.vm.readTs := by
  refine le_trans ?_ (h.moves (e := e) hr).readTs
  obtain hl | rfl := loaded_exec hl
  case inl => exact h.loaded c' ts hl
  case inr => exact le_refl _

theorem not_retires (h : Timed w) (hr : Rule config c w a) (ho : (w.life t).Open)
    (ho' : ((w.exec config c a e).2.life t).Open) : ¬a.Retires (w.start t) := by
  intro hx
  cases hr
  all_goals try exact False.elim hx
  case rejectWriter t' hc =>
    cases h.eq_of_start ho hx
    have hb : (w.history.txns t).birth = .begun := hc.2
    have := ho'.begun
    simp [World.life, Life.of, World.txn, World.exec, observe, hb] at this
  case publishReservedCommit t' ws commit hh hn =>
    obtain hx | hx := hx
    case inl =>
      cases h.eq_of_start ho hx
      have hs : (w.history.txns t).stage = .marked ws commit := hh.2
      have := ho'.published
      simp [World.life, Life.of, World.txn, World.exec, observe, hs, Stage.settle, Stage.published] at this
    case inr => exact (h.commits t' commit (by simp [hh.2, Stage.commitTimestamp])).2 t ho.write hx
  case retireRefused t' ws commit hh | retireCommit t' ws commit hh _ =>
    exact (h.commits t' commit (by simp [hh.2, Stage.commitTimestamp])).2 t ho.write hx
  case retireAborted t' ha _ =>
    cases h.eq_of_start ho hx
    exact Option.some_ne_none c (ha.symm.trans ho.aborter)
  case retireStart t' ws commit hh | allocateCommitTimestamp t' ws commit hh _ =>
    cases h.eq_of_start ho hx
    exact ho.unfinalized ws commit hh.2

theorem exec_pending (h : Timed w) (hi : Coherent w) (hr : Rule config c w a) (t : TransactionId)
    (ho : ((w.exec config c a e).2.life t).Open) :
    (w.exec config c a e).2.vm.slot ((w.exec config c a e).2.start t) = some .pending := by
  obtain ⟨ho₀, hs⟩ | ⟨isolation, rfl⟩ := (life_step (e := e) hi hr t).isOpen (hi.life t) ho
  case inl =>
    have hs : (w.exec config c a e).2.start t = w.start t := hs
    rw [hs]
    exact (h.moves hr).keeps _ (h.pending t ho₀) (h.not_retires hr ho₀ ho)
  case inr =>
    obtain hf | he := acquireInsertTimestamp_exec
    case inl => exact hf.pending
    case inr => rw [he] at ho ⊢; exact h.pending t ho

-- The pin of a pending start is released only together with its slot.
theorem exec_pinned (h : Timed w) (hi : Coherent w) (hr : Rule config c w a) (t : TransactionId)
    (ht : ((w.exec config c a e).2.ctx t).txnType = .write)
    (hp : (w.exec config c a e).2.vm.slot ((w.exec config c a e).2.start t) = some .pending) :
    0 < (w.exec config c a e).2.vm.snapshotTracker.refCount ((w.exec config c a e).2.start t) := by
  have hm := h.moves (e := e) hr
  obtain ⟨ht, hs⟩ | ⟨hf, _⟩ := writer_exec hi hr ht
  case inr => exact hf.pinned
  case inl =>
    rw [hs] at hp ⊢
    have hp₀ : w.vm.slot (w.start t) = some .pending := by
      obtain hp | hn := hm.pending _ hp
      case inl => exact hp
      case inr =>
        have := (h.starts t ht).2
        lia
    refine lt_of_lt_of_le (h.pinned t ht hp₀) (hm.pins _ hp fun ha => ?_)
    subst ha
    generalize hx : w.start t = x at hr
    cases hr with
    | releaseReader _ hro =>
      have := h.sound.pending _ hp₀
      have := h.readers _ hro
      lia

theorem exec (h : Timed w) (hi : Coherent w) (hr : Rule config c w a) :
    Timed (w.exec config c a e).2 where
  sound := (h.moves hr).sound
  starts := h.exec_starts hi hr
  distinct := h.exec_distinct hi hr
  commits := h.exec_commits hi hr
  readers := h.exec_readers hi hr
  loaded := h.exec_loaded hr
  pending := h.exec_pending hi hr
  pinned := h.exec_pinned hi hr

end Timed

end Linkrs
