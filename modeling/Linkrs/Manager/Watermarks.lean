import Linkrs.Manager.Timestamps
import Linkrs.Vertex.ColumnRuns

namespace Linkrs

open Concurrent Transition VersionChain

-- The frontiers that a pass of garbage collection goes by.
structure MvccWatermarks where
  oldestActiveSnapshot : Timestamp
  lastPublishedCommit : Timestamp

namespace MvccWatermarks

def capture (vm : VersionManager) : MvccWatermarks where
  oldestActiveSnapshot := vm.snapshotTracker.minActiveSnapshot
  lastPublishedCommit := vm.readTs

def safeGcTimestamp (m : MvccWatermarks) : Timestamp :=
  if m.oldestActiveSnapshot = invalidTimestamp then m.lastPublishedCommit else m.oldestActiveSnapshot

def safeGcTimestampWithMargin (m : MvccWatermarks) (margin : Timestamp) : Timestamp :=
  m.safeGcTimestamp - margin

end MvccWatermarks

variable {config : ManagerConfig} {es : List (Event CallId Request Env)} {t : TransactionId}
  {s : State CallId Request World Response Action.Answer}

theorem timed_of_run (r : FreeRun (machine config).step (.init (.new config)) es s) : Timed s.shared := by
  have r : Run _ (Machine.Admits fun _ _ _ _ => True) _ _ _ := r.mono fun _ i _ => by
    cases i with
    | call => trivial
    | tick => exact fun _ _ _ _ => trivial
  exact (manager_invariant (fun hi h hr _ => h.exec hi hr) r (.new config)).2.1

-- Its own timestamp pins the history that an open transaction may read.
theorem Timed.safeGcTimestamp_le (h : Timed w) (ho : (w.life t).Open) :
    (MvccWatermarks.capture w.vm).safeGcTimestamp ≤ w.start t := by
  have hp := h.pending t ho
  rw [MvccWatermarks.safeGcTimestamp]
  split
  case isTrue => exact (h.sound.pending _ hp).le
  case isFalse => exact w.vm.snapshotTracker.consistent.minActive_le (h.pinned t ho.write hp)

-- Two writers, the first of which has committed.
theorem exists_open : ∃ es s, FreeRun (machine (.default true)).step (.init (.new (.default true))) es s ∧
    (s.shared.life 2).Open ∧ s.shared.published 1 ≠ none := by
  obtain ⟨s, r, h⟩ := Run.exists_of_any (machine (.default true)).step (.init (.new (.default true)))
    (beginWriter 0 1 (.schema "person") ++ beginWriter 2 2 (.schema "city") ++
      [.call 4 (.commit 1)] ++ Event.ticks 4 fine 23)
    (fun s => (s.shared.ctx 2).txnType = .write ∧ (s.shared.txn 2).birth = .listed ∧
      (s.shared.txn 2).aborter = none ∧ (s.shared.txn 2).stage = .idle ∧ s.shared.published 1 ≠ none)
    (by decide +kernel)
  obtain ⟨hw, hb, ha, hs, hp⟩ := of_decide_eq_true h
  refine ⟨_, s, r, ⟨hw, .inr hb, ha, ?_, ?_⟩, hp⟩
  all_goals simp [World.life, Life.of, hs, Stage.published]

-- Whatever the calls of a manager do, no collection at its watermark is seen by an open transaction.
theorem gc_unseen_by_open (r : FreeRun (machine config).step (.init (.new config)) es s) (ho : (s.shared.life t).Open)
    (margin : Timestamp) (bs : BinarySearch) (spec : ColumnSpec α) (ops : List (ColumnOp α)) :
    let column := Column.run spec ops
    let safe := (MvccWatermarks.capture s.shared.vm).safeGcTimestampWithMargin margin
    ∀ row queryTs, s.shared.start t ≤ queryTs →
      (column.gcVersions safe).2.getAtTs bs row queryTs = column.getAtTs bs row queryTs := by
  intro column safe row queryTs hq
  have hs : column.Sound := Column.sound_run spec ops
  have hl : safe ≤ queryTs :=
    (Nat.sub_le ..).trans (((timed_of_run r).safeGcTimestamp_le ho).trans hq)
  rw [hs.getAtTs_eq, (hs.gc safe).getAtTs_eq, hs.read_gc hl]

theorem gc_unseen_by_second_writer : ∃ s : State CallId Request World Response Action.Answer,
    (s.shared.life 2).Open ∧ ∀ bs (spec : ColumnSpec Empty) ops row,
      let safe := (MvccWatermarks.capture s.shared.vm).safeGcTimestampWithMargin 1
      ((Column.run spec ops).gcVersions safe).2.getAtTs bs row (s.shared.start 2) =
        (Column.run spec ops).getAtTs bs row (s.shared.start 2) := by
  obtain ⟨es, s, r, ho, -⟩ := exists_open
  exact ⟨s, ho, fun bs spec ops row => gc_unseen_by_open r ho 1 bs spec ops row _ le_rfl⟩

end Linkrs
