import Mathlib.Data.List.Basic
import Linkrs.Core.Ids

namespace Linkrs

open List

inductive EntityRef where
  | vertex (vid : VertexId)
  | edge (src dst : VertexId) (edgeType : UInt32) (ranking : Int64)

-- `β` are the values of the columns.
inductive IndexRow (β : Type) where
  | rowId (entityRef : EntityRef)
  | covering (entityRef : EntityRef) (columns : List (String × β))

-- An entry that a shard iterator yields. The key is given by what its vertex id is parsed to.
structure CursorEntry (β : Type) where
  parsed : Option EntityRef
  entityRef : Option EntityRef
  includedColumns : Option (List (String × β))

structure CursorPlan where
  offset : ℕ
  limit : Option ℕ
  projection : Option (List String)
  partitionIdRange : Option (Int64 × Int64)
  staleChecker : Option (EntityRef → Bool)

-- `ranges` are the iterators from the current one on, with what they have left.
structure VertexIndexCursor (β : Type) where
  ranges : List (List (CursorEntry β))
  exhausted : Bool
  offsetRemaining : ℕ
  emitted : ℕ

section

variable {β : Type}

def projectVertexRow (entityRef : EntityRef) (includedColumns : Option (List (String × β))) :
    Option (List String) → IndexRow β
  | none => .rowId entityRef
  | some projection =>
    let columns := includedColumns.getD []
    if projection ≠ [] ∧ ¬projection.all fun name => columns.any (·.1 = name) then .rowId entityRef
    else .covering entityRef (projection.filterMap fun name => columns.find? (·.1 = name))

def tryVertexIdToI64 (vid : VertexId) : Option Int64 :=
  if vid.bytes.length = 8 then some (.ofNat (vid.bytes.foldl (fun n b => n * 256 + b.toNat) 0)) else none

-- Ids that are not numbers are in every partition.
def inPartition (range : Int64 × Int64) : EntityRef → Bool
  | .vertex vid => (tryVertexIdToI64 vid).all fun id => range.1 ≤ id ∧ id < range.2
  | .edge .. => false

namespace CursorPlan

def accept (plan : CursorPlan) (entry : CursorEntry β) : Option (IndexRow β) :=
  (entry.entityRef.or entry.parsed).bind fun entityRef =>
    if plan.staleChecker.any fun checker => ¬checker entityRef then none
    else if plan.partitionIdRange.all (inPartition · entityRef) then
      some (projectVertexRow entityRef entry.includedColumns plan.projection)
    else none

def reached (plan : CursorPlan) (emitted : ℕ) : Bool :=
  plan.limit.any (· ≤ emitted)

end CursorPlan

end

namespace VertexIndexCursor

variable {β : Type} (plan : CursorPlan)

def new (ranges : List (List (CursorEntry β))) : VertexIndexCursor β where
  ranges := ranges
  exhausted := false
  offsetRemaining := plan.offset
  emitted := 0

-- The limit ends the scan in the last range only. In another one it ends the batch.
def fill (batchLimit : ℕ) (rows : List (IndexRow β)) (offset emitted : ℕ) :
    List (List (CursorEntry β)) → List (IndexRow β) × VertexIndexCursor β
  | [] => (rows, ⟨[], true, offset, emitted⟩)
  | [] :: ranges =>
    if rows.length < batchLimit then fill batchLimit rows offset emitted ranges
    else (rows, ⟨[] :: ranges, false, offset, emitted⟩)
  | (entry :: entries) :: ranges =>
    if rows.length < batchLimit then
      match plan.accept entry with
      | none => fill batchLimit rows offset emitted (entries :: ranges)
      | some row =>
        if 0 < offset then fill batchLimit rows (offset - 1) emitted (entries :: ranges)
        else if plan.reached (emitted + 1) then
          (rows ++ [row], ⟨entries :: ranges, ranges = [], offset, emitted + 1⟩)
        else fill batchLimit (rows ++ [row]) offset (emitted + 1) (entries :: ranges)
    else (rows, ⟨(entry :: entries) :: ranges, false, offset, emitted⟩)
termination_by ranges => ranges.flatten.length + ranges.length

def nextBatch (c : VertexIndexCursor β) (batchSize : ℕ) : List (IndexRow β) × VertexIndexCursor β :=
  if c.exhausted || c.ranges.isEmpty then ([], { c with exhausted := true })
  else fill plan (max batchSize 1) [] c.offsetRemaining c.emitted c.ranges

-- The rows of all ranges, and how many of them are not in the last one.
def accepted (ranges : List (List (CursorEntry β))) : List (IndexRow β) :=
  ranges.flatMap (·.filterMap plan.accept)

def early (ranges : List (List (CursorEntry β))) : ℕ :=
  (accepted plan ranges.dropLast).length

-- What the cursor still returns: all rows that are not in the last range, and then one at least.
def due (offset emitted : ℕ) (ranges : List (List (CursorEntry β))) : List (IndexRow β) :=
  let rows := (accepted plan ranges).drop offset
  match plan.limit with
  | none => rows
  | some limit => rows.take (max (limit - emitted) (early plan ranges - offset + 1))

def left (c : VertexIndexCursor β) : List (IndexRow β) :=
  if c.exhausted then [] else due plan c.offsetRemaining c.emitted c.ranges

section

variable {entry : CursorEntry β} {entries : List (CursorEntry β)} {ranges : List (List (CursorEntry β))}
variable {offset emitted : ℕ} {row : IndexRow β}

theorem due_nil : due plan offset emitted ([] : List (List (CursorEntry β))) = [] := by
  unfold due
  cases plan.limit <;> simp [accepted]

theorem due_range : due plan offset emitted ([] :: ranges) = due plan offset emitted ranges := by
  cases ranges <;> simp [due, accepted, early]

theorem due_reject (h : plan.accept entry = none) :
    due plan offset emitted ((entry :: entries) :: ranges) = due plan offset emitted (entries :: ranges) := by
  cases ranges <;> simp [due, accepted, early, h]

theorem due_offset (h : plan.accept entry = some row) (ho : 0 < offset) :
    due plan offset emitted ((entry :: entries) :: ranges) =
      due plan (offset - 1) emitted (entries :: ranges) := by
  obtain ⟨offset, rfl⟩ := Nat.exists_eq_add_of_lt ho
  cases ranges <;> simp [due, accepted, early, h]

theorem due_emit (h : plan.accept entry = some row) : due plan 0 emitted ((entry :: entries) :: ranges) =
      row :: left plan ⟨entries :: ranges, plan.reached (emitted + 1) && ranges = [], 0, emitted + 1⟩ := by
  unfold due left CursorPlan.reached
  cases hl : plan.limit with
  | none => simp [due, accepted, h, hl]
  | some limit =>
    cases ranges with
    | nil =>
      by_cases hr : limit ≤ emitted + 1
      · have hm : max (limit - emitted) 1 = 1 := by omega
        simp [accepted, early, h, hr, hm]
      · have hm : max (limit - emitted) 1 = max (limit - (emitted + 1)) 1 + 1 := by omega
        simp [due, accepted, early, h, hl, hr, hm]
    | cons range ranges =>
      have hm (n : ℕ) : max (limit - emitted) (n + 1 + 1) = max (limit - (emitted + 1)) (n + 1) + 1 := by omega
      simp [due, accepted, early, h, hl, hm]

end

theorem fill_due (batchLimit : ℕ) (rows : List (IndexRow β)) (offset emitted : ℕ)
    (ranges : List (List (CursorEntry β))) :
    let (rows', c) := fill plan batchLimit rows offset emitted ranges
    rows' ++ left plan c = rows ++ due plan offset emitted ranges := by
  fun_induction fill with
  | case1 rows offset emitted => simp [left, due_nil]
  | case2 rows offset emitted ranges _ ind => rw [due_range]; exact ind
  | case3 => simp [left]
  | case4 rows offset emitted entry entries ranges _ h ind => rw [due_reject plan h]; exact ind
  | case5 rows offset emitted entry entries ranges _ row h ho ind => rw [due_offset plan h ho]; exact ind
  | case6 rows offset emitted entry entries ranges _ row h ho hr =>
    obtain rfl : offset = 0 := by omega
    simp [due_emit plan h, hr]
  | case7 rows offset emitted entry entries ranges _ row h ho hr ind =>
    obtain rfl : offset = 0 := by omega
    rw [due_emit plan h]
    simpa [hr, left] using ind
  | case8 => simp [left]

def size (ranges : List (List (CursorEntry β))) : ℕ :=
  ranges.flatten.length + ranges.length

-- A batch that has room takes something off the ranges.
theorem fill_shrinks (batchLimit : ℕ) (rows : List (IndexRow β)) (offset emitted : ℕ)
    (ranges : List (List (CursorEntry β))) :
    let (_, c) := fill plan batchLimit rows offset emitted ranges
    size c.ranges ≤ size ranges ∧ (rows.length < batchLimit → c.exhausted ∨ size c.ranges < size ranges) := by
  fun_induction fill with
  | case1 => exact ⟨Nat.le_refl _, fun _ => .inl rfl⟩
  | case2 rows offset emitted ranges hb ind | case4 rows offset emitted entry entries ranges hb h ind
  | case5 rows offset emitted entry entries ranges hb row h ho ind
  | case7 rows offset emitted entry entries ranges hb row h ho hr ind =>
    have hle := ind.1
    simp only [size, flatten_cons, length_append, length_cons, nil_append] at hle ⊢
    exact ⟨by omega, fun _ => .inr (by omega)⟩
  | case6 rows offset emitted entry entries ranges =>
    simp only [size, flatten_cons, length_append, length_cons]
    exact ⟨by omega, fun _ => .inr (by omega)⟩
  | case3 rows offset emitted ranges hb | case8 rows offset emitted entry entries ranges hb =>
    exact ⟨Nat.le_refl _, fun h => absurd h hb⟩

-- The batches of a sequence of calls, one behind the other.
def batches (sizes : ℕ → ℕ) (c : VertexIndexCursor β) : ℕ → List (IndexRow β) × VertexIndexCursor β
  | 0 => ([], c)
  | n + 1 =>
    let (rows, c) := batches sizes c n
    let (batch, c) := nextBatch plan c (sizes n)
    (rows ++ batch, c)

variable {plan} {c : VertexIndexCursor β} {sizes : ℕ → ℕ} {n : ℕ}

theorem nextBatch_left (batchSize : ℕ) :
    (nextBatch plan c batchSize).1 ++ left plan (nextBatch plan c batchSize).2 = left plan c := by
  unfold nextBatch
  split
  case isTrue h =>
    cases hx : c.exhausted with
    | true => simp [left, hx]
    | false =>
      simp only [hx, Bool.false_or, List.isEmpty_iff] at h
      simp [left, hx, h, due_nil]
  case isFalse h =>
    simp only [Bool.or_eq_true, not_or, Bool.not_eq_true] at h
    have hf := fill_due plan (max batchSize 1) [] c.offsetRemaining c.emitted c.ranges
    simpa [left, h.1] using hf

theorem batches_left : (batches plan sizes c n).1 ++ left plan (batches plan sizes c n).2 = left plan c := by
  induction n with
  | zero => rfl
  | succ n ind =>
    simp only [batches, append_assoc]
    rw [nextBatch_left, ind]

theorem nextBatch_shrinks (batchSize : ℕ) (h : ¬(nextBatch plan c batchSize).2.exhausted) :
    ¬c.exhausted ∧ size (nextBatch plan c batchSize).2.ranges < size c.ranges := by
  unfold nextBatch at h ⊢
  split at h
  case isTrue => exact absurd rfl h
  case isFalse hc =>
    simp only [Bool.or_eq_true, not_or] at hc
    rw [if_neg (by simp [hc])]
    have hs := (fill_shrinks plan (max batchSize 1) [] c.offsetRemaining c.emitted c.ranges).2
      (Nat.lt_of_lt_of_le Nat.one_pos (Nat.le_max_right _ _))
    exact ⟨hc.1, hs.resolve_left h⟩

theorem batches_shrink (h : ¬(batches plan sizes c n).2.exhausted) :
    size (batches plan sizes c n).2.ranges + n ≤ size c.ranges := by
  induction n with
  | zero => exact Nat.le_refl _
  | succ n ind =>
    have ⟨hn, hs⟩ := nextBatch_shrinks (sizes n) h
    have := ind hn
    simp only [batches]
    omega

-- The accepted rows of the plan's page, and when the limit is found out in the last range.
def page (plan : CursorPlan) (ranges : List (List (CursorEntry β))) : List (IndexRow β) :=
  let rows := (accepted plan ranges).drop plan.offset
  (plan.limit.map rows.take).getD rows

def EndsLast (plan : CursorPlan) (ranges : List (List (CursorEntry β))) : Prop :=
  ∀ limit ∈ plan.limit, (accepted plan ranges).length - plan.offset ≤ limit ∨
    early plan ranges - plan.offset < limit

theorem batches_eq_page_iff (plan : CursorPlan) (ranges : List (List (CursorEntry β))) (sizes : ℕ → ℕ) :
    (∃ n, (batches plan sizes (new plan ranges) n).2.exhausted) ∧
    ∀ n, (batches plan sizes (new plan ranges) n).2.exhausted →
      ((batches plan sizes (new plan ranges) n).1 = page plan ranges ↔ EndsLast plan ranges) := by
  constructor
  · by_contra hn
    have := batches_shrink fun h => hn ⟨size ranges + 1, h⟩
    exact absurd (Nat.le_of_add_left_le this) (Nat.not_succ_le_self _)
  · intro n hx
    have hb : (batches plan sizes (new plan ranges) n).1 ++ _ = due plan plan.offset 0 ranges := batches_left
    rw [left, if_pos hx, append_nil] at hb
    rw [hb, due, page, EndsLast]
    cases plan.limit with
    | none => simp
    | some limit =>
      simp only [Option.map_some, Option.getD_some, Option.mem_some_iff, forall_eq', Nat.sub_zero]
      rw [← length_drop]
      constructor
      · intro he
        have hl := congrArg List.length he
        simp only [length_take] at hl
        omega
      · rintro (hl | hl)
        · rw [take_of_length_le hl, take_of_length_le (Nat.le_trans hl (Nat.le_max_left _ _))]
        · rw [Nat.max_eq_left hl]

-- Two ranges with one vertex each, of which the plan wants one.
theorem batches_exceed_limit : ∃ (plan : CursorPlan) (ranges : List (List (CursorEntry Empty))) (n : ℕ),
    (batches plan (fun _ => 10) (new plan ranges) n).2.exhausted ∧ plan.limit = some 1 ∧
    (batches plan (fun _ => 10) (new plan ranges) n).1.length = 2 := by
  let entry : CursorEntry Empty := ⟨none, some (.vertex ⟨.text, [97], by decide⟩), none⟩
  refine ⟨⟨0, some 1, none, none, none⟩, [[entry], [entry]], 2, ?_⟩
  simp [batches, nextBatch, new, fill, CursorPlan.accept, CursorPlan.reached, entry]

end VertexIndexCursor
end Linkrs
