import Linkrs.Lib.Drain
import Linkrs.Query.JoinKeys

namespace Linkrs

open List

variable {α : Type}

inductive FullOuterJoinPhase where
  | buildingRight
  | probeLeft
  | emitUnmatchedRight

-- With what is left of both inputs. The chunks of the right one come with their column names.
structure FullOuterJoinState (α : Type) where
  leftRows : List (Tuple α)
  rightRows : List (Tuple α)
  matchedRightIndices : List ℕ
  resultIter : Option (List (Tuple α))
  phase : FullOuterJoinPhase
  tracker : MemoryTracker
  rightColNames : List String
  left : List (List (Tuple α))
  right : List (List String × List (Tuple α))

def FullOuterJoinState.unmatchedRight (s : FullOuterJoinState α) : List (Tuple α) :=
  (s.rightRows.zipIdx.filter fun right => !s.matchedRightIndices.contains right.2).map (·.1)

def FullOuterJoinState.new (left : List (List (Tuple α))) (right : List (List String × List (Tuple α))) :
    FullOuterJoinState α :=
  ⟨[], [], [], none, .buildingRight, .new, [], left, right⟩

structure FullOuterJoin (α : Type) where
  evaluate : Evaluator α
  joinCondition : Option (Expr α)
  outputWidth : ℕ
  budget : MemoryBudget
  rowMemory : Tuple α → ℕ

namespace FullOuterJoin

def buildCombinedNames (leftColNames rightColNames : List String) (fallbackRightWidth : ℕ) : List String :=
  leftColNames ++
    if rightColNames.isEmpty then (range fallbackRightWidth).map fun i => "right_" ++ toString i else rightColNames

-- The names of the first chunk that has any.
def capturedNames (right : List (List String × List (Tuple α))) : List String :=
  (right.find? fun chunk => !chunk.1.isEmpty).elim [] (·.1)

def rows (right : List (List String × List (Tuple α))) : List (Tuple α) :=
  right.flatMap (·.2)

section

variable (j : FullOuterJoin α) (s : FullOuterJoinState α)

-- A condition that cannot be evaluated, or not to a truth value, does not hold.
def satisfied (names : List String) (left right : Tuple α) : Bool :=
  match j.joinCondition with
  | none => true
  | some condition =>
    let leftNames := (range left.length).map fun i => "col_" ++ toString i
    match j.evaluate condition (buildCombinedNames leftNames names right.length) (left ++ right) with
    | .ok (.bool b) => b
    | _ => false

def nulls (row : Tuple α) : Tuple α :=
  replicate (j.outputWidth - row.length) (.null .null)

-- What stands for the other side of a row that has no partner.
def missing (side : String) (row : Tuple α) : QueryResult (Tuple α) := do
  Except.ensure (row.length ≤ j.outputWidth)
    ⟨"FullOuterJoin planned output layout is narrower than its " ++ side ++ " input"⟩
  return j.nulls row

def reserveRows (t : MemoryTracker) (rows : List (Tuple α)) : QueryResult MemoryTracker :=
  rows.foldlM (fun t row => t.reserve j.budget (j.rowMemory row)) t

def buildRight : QueryResult (FullOuterJoinState α) := do
  let tracker ← j.reserveRows s.tracker s.left.flatten
  let tracker ← j.reserveRows tracker (rows s.right)
  return ⟨s.leftRows ++ s.left.flatten, s.rightRows ++ rows s.right, s.matchedRightIndices, s.resultIter,
    .probeLeft, tracker, capturedNames s.right, [], []⟩

-- The rows that a left row gives, and the right rows that it is joined with.
def probeRow (left : Tuple α) : QueryResult (List (Tuple α) × List ℕ) :=
  let found := s.rightRows.zipIdx.filter fun right => j.satisfied s.rightColNames left right.1
  if found.isEmpty then do return ([left ++ (← j.missing "left" left)], [])
  else return (found.map (left ++ ·.1), found.map (·.2))

def emitUnmatchedRight : QueryResult (Option (List (Tuple α)) × FullOuterJoinState α) :=
  match s.resultIter with
  | some (r :: rs) => .ok (some (r :: rs), { s with resultIter := some [] })
  | _ => do
    let unmatched ← s.unmatchedRight.mapM fun row => return (← j.missing "right" row) ++ row
    return (if unmatched.isEmpty then none else some unmatched, { s with resultIter := none })

def probeLeft : QueryResult (Option (List (Tuple α)) × FullOuterJoinState α) := do
  let probed ← s.leftRows.mapM (j.probeRow s)
  let results := probed.flatMap (·.1)
  let s := { s with
    phase := .emitUnmatchedRight
    matchedRightIndices := s.matchedRightIndices ++ probed.flatMap (·.2) }
  -- The rows are taken from the iterator at once.
  if results.isEmpty then j.emitUnmatchedRight s else return (some results, { s with resultIter := some [] })

def next : QueryResult (Option (List (Tuple α)) × FullOuterJoinState α) :=
  match s.phase with
  | .buildingRight => j.buildRight s >>= j.probeLeft
  | .probeLeft => j.probeLeft s
  | .emitUnmatchedRight => j.emitUnmatchedRight s

variable (left : List (List (Tuple α))) (right : List (List String × List (Tuple α)))

def joins (l r : Tuple α) : Bool :=
  j.satisfied (capturedNames right) l r

-- What a left row is to give.
def keeping (l : Tuple α) : List (Tuple α) :=
  let found := (rows right).filter (j.joins right l)
  if found.isEmpty then [l ++ j.nulls l] else found.map (l ++ ·)

def outer : List (Tuple α) :=
  left.flatten.flatMap (j.keeping right) ++
    ((rows right).filter fun r => !left.flatten.any (j.joins right · r)).map fun r => j.nulls r ++ r

def Matched : Prop :=
  ∀ r ∈ rows right, ∃ l ∈ left.flatten, j.joins right l r

-- The state of a join that is given all memory, after the left rows were probed.
def probed (iter : Option (List (Tuple α))) (t : MemoryTracker) : FullOuterJoinState α where
  leftRows := left.flatten
  rightRows := rows right
  matchedRightIndices := left.flatten.flatMap fun l => ((rows right).zipIdx.filter (j.joins right l ·.1)).map (·.2)
  resultIter := iter
  phase := .emitUnmatchedRight
  tracker := t
  rightColNames := capturedNames right
  left := []
  right := []

structure Grants : Prop where
  budget : ∀ n bytes, j.budget n bytes = .ok ()
  left : ∀ l ∈ left.flatten, l.length ≤ j.outputWidth
  right : ∀ r ∈ rows right, r.length ≤ j.outputWidth

end

variable {j : FullOuterJoin α} {left : List (List (Tuple α))} {right : List (List String × List (Tuple α))}
  {t : MemoryTracker} {iter : Option (List (Tuple α))} {out : List (Tuple α)}

theorem reserveRows_granted (h : j.Grants left right) (rs : List (Tuple α)) : ∃ t', j.reserveRows t rs = .ok t' := by
  induction rs generalizing t with
  | nil => exact ⟨t, rfl⟩
  | cons row rs ind =>
    rw [reserveRows, foldlM_cons, MemoryTracker.reserve, MemoryTracker.tryReserve, h.budget]
    exact ind

theorem probeRow_eq (h : l.length ≤ j.outputWidth) (hr : s.rightRows = rows right)
    (hn : s.rightColNames = capturedNames right) :
    j.probeRow s l = .ok (j.keeping right l, ((rows right).zipIdx.filter (j.joins right l ·.1)).map (·.2)) := by
  have hf : (rows right).filter (j.joins right l) = ((rows right).zipIdx.filter (j.joins right l ·.1)).map (·.1) := by
    conv_lhs => rw [← zipIdx_map_fst 0 (rows right), filter_map]
    rfl
  simp only [probeRow, hr, hn, keeping, hf, missing, Except.ensure_of h, isEmpty_map, List.map_map, joins]
  split
  case isTrue he => simp [isEmpty_iff.mp he]
  case isFalse => rfl

theorem mem_matchedRightIndices (h : r ∈ (rows right).zipIdx) :
    r.2 ∈ (j.probed left right iter t).matchedRightIndices ↔ ∃ l ∈ left.flatten, j.joins right l r.1 := by
  simp only [probed, mem_flatMap, mem_map, mem_filter]
  constructor
  · rintro ⟨l, hl, r', ⟨hr, hs⟩, he⟩
    rw [mem_zipIdx_iff_getElem?] at h hr
    rw [he, h] at hr
    exact ⟨l, hl, Option.some.inj hr ▸ hs⟩
  · rintro ⟨l, hl, hs⟩
    exact ⟨l, hl, r, ⟨h, hs⟩, rfl⟩

theorem unmatchedRight_eq_nil : (j.probed left right iter t).unmatchedRight = [] ↔ j.Matched left right := by
  simp only [FullOuterJoinState.unmatchedRight, map_eq_nil_iff, filter_eq_nil_iff, Bool.not_eq_true', Bool.not_eq_false,
    contains_iff_mem]
  constructor
  · intro h r hr
    have ⟨i, hi⟩ := getElem?_of_mem hr
    have hz : (r, i) ∈ (rows right).zipIdx := mem_zipIdx_iff_getElem?.mpr hi
    exact (mem_matchedRightIndices hz).mp (h _ hz)
  · intro h r hr
    exact (mem_matchedRightIndices hr).mpr (h r.1 (fst_mem_of_mem_zipIdx hr))

-- The phase is the same after the call as before it.
theorem next_probed (h : j.Grants left right) (hi : ∀ rs ∈ iter, rs = []) :
    ∃ answer, j.next (j.probed left right iter t) = .ok (answer, j.probed left right none t) ∧
      (answer = none ↔ j.Matched left right) := by
  have hm : (j.probed left right none t).unmatchedRight.mapM (fun r => return (← j.missing "right" r) ++ r) =
      Except.ok _ := Except.mapM_eq_ok (g := fun r => j.nulls r ++ r) fun r hr => by
    have ⟨_, hf, he⟩ := mem_map.mp hr
    rw [missing, Except.ensure_of (h.right r (he ▸ fst_mem_of_mem_zipIdx (mem_of_mem_filter hf)))]
    rfl
  have hnext : j.next (j.probed left right iter t) = j.emitUnmatchedRight (j.probed left right none t) := by
    cases iter with
    | none => rfl
    | some rs =>
      obtain rfl := hi rs rfl
      rfl
  have hemit : j.emitUnmatchedRight (j.probed left right none t) = Except.bind _ _ := rfl
  rw [hnext, hemit, hm]
  refine ⟨_, rfl, ?_⟩
  have hu : (j.probed left right none t).unmatchedRight = [] ↔ _ := unmatchedRight_eq_nil
  simp [← hu]

theorem next_new (h : j.Grants left right) : ∃ t, j.next (.new left right) =
      if (left.flatten.flatMap (j.keeping right)).isEmpty then j.next (j.probed left right none t)
      else .ok (some (left.flatten.flatMap (j.keeping right)), j.probed left right (some []) t) := by
  have ⟨t, ht⟩ := reserveRows_granted (t := .new) h left.flatten
  have ⟨t', ht'⟩ := reserveRows_granted (t := t) h (rows right)
  refine ⟨t', ?_⟩
  simp only [next, FullOuterJoinState.new, buildRight, ht, ht', Except.ok_bind, nil_append]
  change j.probeLeft _ = _
  rw [probeLeft, Except.mapM_eq_ok fun l hl => probeRow_eq (h.left l hl) rfl rfl]
  simp only [Except.ok_bind, flatMap_map, nil_append]
  rfl

theorem drains_of_matched (h : j.Grants left right) (hm : j.Matched left right) :
    Drains j.next (.new left right) (j.outer left right) := by
  have ⟨t, ht⟩ := next_new h
  have hdone (iter : Option (List (Tuple α))) (hi : ∀ rs ∈ iter, rs = []) :
      Drains j.next (j.probed left right iter t) [] := by
    have ⟨answer, hnext, hn⟩ := next_probed (t := t) h hi
    exact .done (hn.mpr hm ▸ hnext)
  have hu : (rows right).filter (fun r => !left.flatten.any (j.joins right · r)) = [] :=
    filter_eq_nil_iff.mpr fun r hr => by simpa only [Bool.not_eq_true', Bool.not_eq_false, any_eq_true] using hm r hr
  rw [outer, hu, map_nil]
  split at ht
  case isTrue he =>
    rw [isEmpty_iff.mp he]
    exact .of_next_eq ht (hdone none (by simp))
  case isFalse => exact .more ht (hdone (some []) (by simp))

theorem not_drains (h : j.Grants left right) (hm : ¬j.Matched left right) : ¬Drains j.next (.new left right) out := by
  have ⟨t, ht⟩ := next_new h
  have hmore (iter : Option (List (Tuple α))) (hi : ∀ rs ∈ iter, rs = []) (out : List (Tuple α)) :
      ¬Drains j.next (j.probed left right iter t) out := by
    refine Drains.not_of_more (P := fun s => ∃ iter, (∀ rs ∈ iter, rs = []) ∧ s = j.probed left right iter t) ?_
      ⟨iter, hi, rfl⟩
    rintro _ ⟨iter, hi, rfl⟩
    have ⟨answer, hnext, hn⟩ := next_probed (t := t) h hi
    obtain ⟨rs, rfl⟩ := Option.ne_none_iff_exists'.mp (mt hn.mp hm)
    exact ⟨rs, _, hnext, none, by simp, rfl⟩
  intro d
  split at ht
  case isTrue => exact hmore none (by simp) out (.of_next_eq ht.symm d)
  case isFalse =>
    cases d with
    | done hd => simp [ht] at hd
    | more hd d =>
      simp only [ht, Except.ok.injEq, Prod.mk.injEq] at hd
      exact hmore (some []) (by simp) _ (hd.2 ▸ d)

theorem full_outer_join_exact_iff (h : j.Grants left right) :
    (∃ out, Drains j.next (.new left right) out ∧ out.Perm (j.outer left right)) ↔ j.Matched left right := by
  constructor
  · rintro ⟨out, d, -⟩
    by_contra hm
    exact not_drains h hm d
  · intro hm
    exact ⟨_, drains_of_matched h hm, .rfl⟩

-- Rows of one number each, joined where the numbers are the same.
def matching : FullOuterJoin Empty where
  evaluate _ _ row := match row with
    | [.int a, .int b] => .ok (.bool (a == b))
    | _ => .error "not a pair of numbers"
  joinCondition := some (.binary (.variable "col_0") .equal (.variable "b"))
  outputWidth := 2
  budget _ _ := .ok ()
  rowMemory _ := 0

-- The first left row has two partners, the second none and the third one.
theorem full_outer_join_exact_matching :
    ∃ out, Drains matching.next (.new [[[.int 1], [.int 2]], [[.int 3]]] [([], [[.int 3], [.int 1]]), (["b"], [[.int 1]])]) out ∧
      out.Perm [[.int 1, .int 1], [.int 1, .int 1], [.int 2, .null .null], [.int 3, .int 3]] := by
  have h : matching.Grants [[[.int 1], [.int 2]], [[.int 3]]] [([], [[.int 3], [.int 1]]), (["b"], [[.int 1]])] :=
    ⟨fun _ _ => rfl, by decide, by decide⟩
  exact (full_outer_join_exact_iff h).mpr (by unfold Matched; decide +kernel)

-- All pairs of rows, of one column each.
def crossed : FullOuterJoin Empty :=
  ⟨fun _ _ _ => .error "no condition", none, 2, fun _ _ => .ok (), fun _ => 0⟩

-- The one right row has no partner, and is given without end.
theorem full_outer_join_endless :
    ¬∃ out, Drains crossed.next (.new [] [(["b"], [[.int 2]])]) out ∧ out.Perm [[.null .null, .int 2]] := by
  rintro ⟨out, d, -⟩
  have h : crossed.Grants [] [(["b"], [[.int 2]])] := ⟨fun _ _ => rfl, by decide, by decide⟩
  refine not_drains h (fun hm => ?_) d
  obtain ⟨l, hl, -⟩ := hm [.int 2] (by simp [rows])
  simp at hl

end FullOuterJoin
end Linkrs
