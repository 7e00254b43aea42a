import Linkrs.Lib.Transition
import Linkrs.Vertex.ColumnVersions

namespace Linkrs

open VersionChain Entry List

-- What is undone here is not lost to an overlay.
inductive ColumnOp (α : Type)
  | set (w : ColumnWrite α)
  | undo (row : ℕ) (ts : Timestamp)
  | gc (safe : Timestamp)
  | recode (chunk : ℕ) (kind : Recode)

namespace Column

variable {α : Type}

def apply (column : Column α) : ColumnOp α → Column α
  | .set w => (column.setVersioned w).2
  | .undo row ts => (column.undoLastVersionedWrite row ts false).2
  | .gc safe => (column.gcVersions safe).2
  | .recode chunk kind => column.recodeChunk chunk kind

def run (spec : ColumnSpec α) (ops : List (ColumnOp α)) : Column α :=
  ops.foldl apply (new spec)

def step (column : Column α) (op : ColumnOp α) : Option (Column α) :=
  some (column.apply op)

theorem Sound.apply {column : Column α} (h : column.Sound) : ∀ op, (column.apply op).Sound
  | .set w => h.setVersioned w
  | .undo .. => h.undo
  | .gc safe => h.gc safe
  | .recode _ kind => h.recodeRows _ kind

theorem Sound.new (spec : ColumnSpec α) : (new spec).Sound :=
  fun _ => .blankCell

theorem sound_run (spec : ColumnSpec α) (ops : List (ColumnOp α)) : (run spec ops).Sound := by
  unfold run
  have hnew := Sound.new spec
  generalize Column.new spec = column at hnew ⊢
  induction ops generalizing column with
  | nil => exact hnew
  | cons op ops ind => exact ind (column.apply op) (hnew.apply op)

-- Collecting old versions is not seen by reads at or after the cutoff, and it leaves at most one entry
-- before it.
theorem gcVersions_invisible (bs : BinarySearch) (spec : ColumnSpec α) (ops : List (ColumnOp α)) (safe : Timestamp) :
    let column := run spec ops
    let collected := (column.gcVersions safe).2
    (∀ row queryTs, safe ≤ queryTs → collected.getAtTs bs row queryTs = column.getAtTs bs row queryTs) ∧
    ∀ cell ∈ collected.cells, (cell.chain.filter (·.stop ≤ safe)).length ≤ 1 := by
  intro column collected
  have hsound : column.Sound := sound_run spec ops
  constructor
  · intro row queryTs hq
    rw [hsound.getAtTs_eq, (hsound.gc safe).getAtTs_eq, hsound.read_gc hq]
  · intro cell hcell
    have ⟨row, hrow⟩ := mem_iff_getElem?.mp hcell
    have heq : collected.cell row = _ := cell_gc safe row
    rw [← cell_of_getElem? hrow, heq]
    exact ColumnCell.length_eligible_gcChain (hsound row).linked safe

section

variable {column : Column α} {row : ℕ} {ts : Timestamp} {op : ColumnOp α}

-- Values are of the column's type, the writes of the row that are done are all at this time, and what
-- was recorded is left alone.
def Latest (row : ℕ) (ts : Timestamp) (column : Column α) : ColumnOp α → Prop
  | .set w => column.spec.Typed w.value ∧ (w.row = row → (column.setVersioned w).1 = .ok () → w.ts = ts)
  | .undo row' _ => row' ≠ row
  | .gc _ => False
  | .recode .. => True

variable {K : List (VersionEntry α)}

-- A row after its first write at this time.
structure After (row : ℕ) (ts : Timestamp) (K : List (VersionEntry α)) (column : Column α) : Prop where
  sound : column.Sound
  covered : row < column.cells.length
  created : (column.cell row).createTs = ts
  chain : (column.cell row).chain = K

theorem After.put {cell : ColumnCell α} (h : After row ts K column) (hc : cell.Sound column.spec)
    (hrow : row' = row → cell.createTs = ts ∧ cell.chain = K) : After row ts K (column.put row' cell) := by
  have hcovered := h.covered
  refine ⟨h.sound.put hc, by rw [length_put]; omega, ?_, ?_⟩
  all_goals by_cases hr : row' = row
  · rw [hr, cell_put_self, (hrow hr).1]
  · rw [(alike_put (Ne.symm hr)).created, h.created]
  · rw [hr, cell_put_self, (hrow hr).2]
  · rw [(alike_put (Ne.symm hr)).chain, h.chain]

-- A further write at this time records nothing.
theorem After.apply (h : After row ts K column) (hl : Latest row ts column op) : After row ts K (column.apply op) := by
  cases op with
  | gc => cases hl
  | undo row' ts' => exact h.put ((h.sound row').undo ts') fun hr => absurd hr hl
  | recode chunk kind =>
    have halike := column.alike_recodeRows (fun i => i / column.spec.chunkCapacity = chunk) kind row
    exact ⟨h.sound.recodeRows _ kind, (length_recodeRows ..).symm ▸ h.covered, halike.created.trans h.created,
      halike.chain.trans h.chain⟩
  | set w =>
    have ⟨htyped, hts⟩ := hl
    obtain ⟨e, heq⟩ | ⟨result, cell, hset, hn, heq⟩ := column.setVersioned_cases w
    · rwa [Column.apply, heq]
    · have hcell := (h.sound w.row).setVersioned (w.row < column.cells.length) w
      rw [hset] at hcell
      rw [Column.apply, heq]
      refine h.put hcell fun hr => ?_
      subst hr
      obtain ⟨e, heq', _⟩ | ⟨_, ⟨e, _, hnot⟩ | ⟨_, heq'⟩⟩ :=
        ColumnCell.setVersioned_eq (h.sound w.row) (w.row < column.cells.length) w
      · cases heq'.symm.trans hset
        exact ⟨h.created, h.chain⟩
      · exact absurd ⟨htyped, ColumnSpec.checkNull_eq_ok.mp hn⟩ hnot
      · cases heq'.symm.trans hset
        have hr : ¬(column.cell w.row).records (w.row < column.cells.length) w.ts := by
          simp [ColumnCell.records_iff, h.created, hts rfl (by rw [heq])]
        refine ⟨hts rfl (by rw [heq]), ?_⟩
        rw [ColumnCell.keepCurrent, if_neg hr]
        exact h.chain

-- Whether the first write at this time records what it replaces.
def recordsAt (column : Column α) (row : ℕ) (ts : Timestamp) : Bool :=
  (column.cell row).records (row < column.cells.length) ts

theorem chain_keepCurrent (column : Column α) (row : ℕ) (ts : Timestamp) :
    ((column.cell row).keepCurrent (row < column.cells.length) ts).chain = if column.recordsAt row ts then
      (column.cell row).chain ++ [⟨(column.cell row).createTs, ts, (column.cell row).payload.current⟩]
    else (column.cell row).chain := by
  unfold ColumnCell.keepCurrent recordsAt
  split <;> rfl

theorem read_of_covered (h : row < column.cells.length) (queryTs : Timestamp) :
    column.read row queryTs = (column.cell row).read queryTs :=
  if_pos h

theorem getAtTs_undo (bs : BinarySearch) {cell : ColumnCell α} {result : StorageResult Unit}
    (h : (column.cell row).undoLastVersionedWrite column.spec ts inPlace = (result, cell)) (hl : Linked cell.chain)
    (queryTs : Timestamp) :
    (column.undoLastVersionedWrite row ts inPlace).2.getAtTs bs row queryTs = cell.read queryTs := by
  rw [undoLastVersionedWrite, h]
  rw [getAtTs_eq bs (by rwa [cell_put_self]), read_put_self]

end

section

def intColumn : ColumnSpec Empty where
  name := "age"
  nullable := true
  blank := none
  store _ := .ok ()
  overflows _ := false
  chunkCapacity := 4096
  blank_none _ := rfl
  blank_stored := nofun

def aged (n : Int32) : Option (Value Empty) :=
  some (.scalar (.int n))

def setAge (n : Int32) (ts : Timestamp) (inPlace : Bool) : ColumnWrite Empty where
  row := 0
  value := aged n
  ts := ts
  inPlace := inPlace
  present v hv := by
    cases hv
    rfl

-- The encoding takes the old value back, but the overlay still has the new one.
example :
    let after := run intColumn [.set (setAge 30 5 false), .recode 0 .encode, .set (setAge 31 7 false)]
    (after.undoLastVersionedWrite 0 7 true).2.getAtTs .linear 0 7 = aged 31 := rfl

end

end Column

-- A column with the writes of each row that were done, in their order.
structure LoggedColumn (α : Type) where
  column : Column α
  history : ℕ → List (Timestamp × Option (Value α))

-- The value of the last write up to a time.
def lastAt {α : Type} (history : List (Timestamp × Option (Value α))) (queryTs : Timestamp) : Option (Value α) :=
  (history.filter (·.1 ≤ queryTs)).getLast?.bind (·.2)

theorem lastAt_concat (history : List (Timestamp × Option (Value α))) (ts : Timestamp)
    (value : Option (Value α)) (queryTs : Timestamp) :
    lastAt (history ++ [(ts, value)]) queryTs = if ts ≤ queryTs then value else lastAt history queryTs := by
  by_cases h : ts ≤ queryTs <;> simp [lastAt, h]

namespace LoggedColumn

variable {α : Type}

def new (spec : ColumnSpec α) : LoggedColumn α where
  column := .new spec
  history _ := []

def apply (s : LoggedColumn α) (op : ColumnOp α) : LoggedColumn α where
  column := s.column.apply op
  history :=
    match op with
    | .set w =>
      match (s.column.setVersioned w).1 with
      | .error _ => s.history
      | .ok () => Function.update s.history w.row (s.history w.row ++ [(w.ts, w.value)])
    | _ => s.history

def step (s : LoggedColumn α) (op : ColumnOp α) : Option (LoggedColumn α) :=
  some (s.apply op)

-- The value is of the column's type, it does not come under an older one in the overlay, and no row is
-- passed over that would read as zeros. Where the newest before-image ends before the current value
-- starts, or there is none, the write is not before that value: it would not be refused.
structure OrderlyWrite (s : LoggedColumn α) (w : ColumnWrite α) : Prop where
  typed : s.column.spec.Typed w.value
  shows : ¬(s.column.cell w.row).payload.Shadows s.column.spec w.value w.inPlace
  fits : s.column.spec.checkNull w.value = .ok () → s.column.spec.blank = none ∨ w.row ≤ s.column.cells.length
  inOrder : s.column.spec.checkNull w.value = .ok () →
    (∀ e ∈ (s.column.cell w.row).chain.getLast?, e.stop < (s.column.cell w.row).createTs) →
    (s.column.cell w.row).createTs ≤ w.ts

def Orderly (s : LoggedColumn α) : ColumnOp α → Prop
  | .set w => OrderlyWrite s w
  | .recode .. => True
  | .undo .. | .gc _ => False

variable {s : LoggedColumn α} {w : ColumnWrite α}

theorem OrderlyWrite.createTs_le (h : OrderlyWrite s w) (hs : s.column.Sound)
    (hok : (s.column.setVersioned w).1 = .ok ()) : (s.column.cell w.row).createTs ≤ w.ts := by
  have ⟨hstop, _⟩ := hs.setVersioned_ok hok
  obtain ⟨e, heq⟩ | ⟨_, _, _, hn, _⟩ := s.column.setVersioned_cases w
  · simp [heq] at hok
  by_contra hlt
  refine hlt (h.inOrder hn fun e he => ?_)
  exact (hstop e (mem_of_getLast? he)).trans_lt (not_le.mp hlt)

-- A write that is refused for its time finds its row covered.
theorem OrderlyWrite.read_of_error (h : OrderlyWrite s w) (hs : s.column.Sound)
    (he : (s.column.setVersioned w).1 = .error e) (queryTs : Timestamp) :
    (s.column.setVersioned w).2.read w.row queryTs = s.column.read w.row queryTs := by
  obtain ⟨e, heq⟩ | ⟨result, cell, hset, hn, heq⟩ := s.column.setVersioned_cases w
  · rw [heq]
  refine hs.read_setVersioned_error (lt_of_not_ge fun hlen => ?_) he queryTs
  have hchain : (s.column.cell w.row).chain = [] := by rw [Column.cell_of_uncovered hlen]; rfl
  obtain rfl : result = .error e := by simpa [heq] using he
  obtain ⟨_, _, tail, htail, _⟩ | ⟨_, ⟨_, _, hnot⟩ | ⟨_, heq'⟩⟩ :=
    ColumnCell.setVersioned_eq (hs w.row) (w.row < s.column.cells.length) w
  · simp [hchain] at htail
  · exact hnot ⟨h.typed, ColumnSpec.checkNull_eq_ok.mp hn⟩
  · cases heq'.symm.trans hset

-- The column reads as the history says.
structure Registers (s : LoggedColumn α) : Prop where
  sound : s.column.Sound
  reads : ∀ row queryTs, s.column.read row queryTs = lastAt (s.history row) queryTs
  upTo : ∀ row, ∀ e ∈ s.history row, e.1 ≤ (s.column.cell row).createTs

theorem Registers.new (spec : ColumnSpec α) : Registers (.new spec) where
  sound := .new spec
  reads _ _ := rfl
  upTo _ := nofun

theorem Registers.set_error (h : Registers s) (ho : OrderlyWrite s w)
    (he : (s.column.setVersioned w).1 = .error e) : Registers (s.apply (.set w)) := by
  have hsame : (s.apply (.set w)).history = s.history := by simp only [LoggedColumn.apply, he]
  refine ⟨h.sound.setVersioned w, fun row queryTs => ?_, fun row => ?_⟩ <;> rw [hsame]
  · rw [← h.reads]
    by_cases hrow : row = w.row
    · exact hrow ▸ ho.read_of_error h.sound he queryTs
    · exact Column.read_setVersioned_of_ne ho.fits hrow queryTs
  · have hcreated : ((s.column.setVersioned w).2.cell row).createTs = (s.column.cell row).createTs :=
      h.sound.createTs_of_error he
    exact hcreated ▸ h.upTo row

theorem Registers.set_ok (h : Registers s) (ho : OrderlyWrite s w)
    (hok : (s.column.setVersioned w).1 = .ok ()) : Registers (s.apply (.set w)) := by
  have hhistory : (s.apply (.set w)).history =
      Function.update s.history w.row (s.history w.row ++ [(w.ts, w.value)]) := by simp only [LoggedColumn.apply, hok]
  have ⟨_, hput⟩ := h.sound.setVersioned_ok hok
  refine ⟨h.sound.setVersioned w, fun row queryTs => ?_, fun row => ?_⟩ <;> rw [hhistory]
  all_goals by_cases hrow : row = w.row
  · subst hrow
    rw [Function.update_self, lastAt_concat, ← h.reads]
    exact h.sound.read_setVersioned_ok hok ho.shows queryTs
  · rw [Function.update_of_ne hrow, ← h.reads]
    exact Column.read_setVersioned_of_ne ho.fits hrow queryTs
  · subst hrow
    have hcreated : ((s.column.setVersioned w).2.cell w.row).createTs = w.ts := by rw [hput, Column.cell_put_self]
    have hle (e) (he : e ∈ s.history w.row) : e.1 ≤ w.ts :=
      (h.upTo w.row e he).trans (ho.createTs_le h.sound hok)
    rw [Function.update_self, LoggedColumn.apply, Column.apply, hcreated]
    exact forall_mem_append.mpr ⟨hle, forall_mem_singleton.mpr le_rfl⟩
  · have hcreated : ((s.column.setVersioned w).2.cell row).createTs = (s.column.cell row).createTs := by
      rw [hput, (Column.alike_put hrow).created]
    rw [Function.update_of_ne hrow]
    exact hcreated ▸ h.upTo row

theorem Registers.apply (h : Registers s) (ho : Orderly s op) : Registers (s.apply op) := by
  cases op with
  | undo | gc => cases ho
  | set w =>
    cases hresult : (s.column.setVersioned w).1 with
    | error e => exact h.set_error ho hresult
    | ok u => exact h.set_ok ho hresult
  | recode chunk kind =>
    have halike := s.column.alike_recodeRows (fun i => i / s.column.spec.chunkCapacity = chunk) kind
    refine ⟨h.sound.recodeRows _ kind, fun row queryTs => ?_, fun row => ?_⟩
    · exact (s.column.read_recodeRows ..).trans (h.reads row queryTs)
    · exact (halike row).created ▸ h.upTo row

open Column (intColumn aged setAge)

end LoggedColumn

end Linkrs
