import Linkrs.Query.EquiJoin
import Mathlib.Algebra.Order.BigOperators.Group.List

namespace Linkrs.HashJoin

open List
open HashJoinBuildSide (keyOf)

variable {α : Type} [Serialized α]

section

variable (j : HashJoin α) (build : List (Tuple α)) (row : Tuple α)

-- The rows with the key of a row.
def sharing : List (Tuple α) :=
  build.filter fun b => (keyOf j.buildKey b).same (keyOf j.probeKey row)

-- Those of them that the remaining condition admits.
def partners : List (Tuple α) :=
  (j.sharing build row).filter fun b => (j.satisfied row b).getD false

def padded : Tuple α :=
  row ++ List.replicate (j.outputWidth - row.length) (.null .null)

-- What a left join is to give for a row.
def keeping : List (Tuple α) :=
  if j.partners build row = [] then [j.padded row] else (j.partners build row).map (row ++ ·)

-- Every left row with a right row of the same key has one that the condition admits.
def Decided (probe : List (Tuple α)) : Prop :=
  ∀ row ∈ probe, j.sharing build row ≠ [] → j.partners build row ≠ []

-- The inputs fit the plan: keys and conditions can be evaluated, and rows fit the output.
structure Planned (w : ℕ) (probe : List (Tuple α)) : Prop where
  leftJoin : j.leftJoin = true
  width : ∀ b ∈ build, b.length = w
  buildKeys : ∀ b ∈ build, (j.buildKey b).isOk
  probeKeys : ∀ row ∈ probe, (j.probeKey row).isOk
  fits : ∀ row ∈ probe, row.length ≤ j.outputWidth
  condition : ∀ c, j.joinCondition = some c → ∀ row ∈ probe, ∀ b ∈ build,
    ∃ v, j.evaluate c (j.probeNames ++ j.buildNames) (row ++ b) = .ok (.bool v)

end

variable {j : HashJoin α} {env : JoinEnvironment α} {w : ℕ} {build probe : List (Tuple α)} {row : Tuple α}

omit [Serialized α] in
theorem joinMatches_eq_ok (h : ∀ b ∈ builds, (j.satisfied row b).isOk) : j.joinMatches row builds =
      .ok ((builds.filter fun b => (j.satisfied row b).getD false).map (row ++ ·)) := by
  induction builds with
  | nil => rfl
  | cons b builds ind =>
    have ⟨hb, hbs⟩ := forall_mem_cons.mp h
    obtain ⟨keep, hb⟩ := Except.isOk_iff.mp hb
    rw [joinMatches, hb, ind hbs, filter_cons, hb, Except.getD_ok]
    cases keep <;> rfl

omit [Serialized α] in
theorem Planned.satisfied (h : Planned j build w probe) (hr : row ∈ probe) (hb : b ∈ build) :
    (j.satisfied row b).isOk := by
  rw [HashJoin.satisfied]
  cases hc : j.joinCondition with
  | none => rfl
  | some c =>
    obtain ⟨v, hv⟩ := h.condition c hc row hr b hb
    simp only [hv]
    rfl

theorem Planned.answer (h : Planned j build w probe) (hr : row ∈ probe) : j.answer build row =
    .ok (if j.sharing build row = [] then [j.padded row] else (j.partners build row).map (row ++ ·)) := by
  have hk : j.probeKey row = .ok (keyOf j.probeKey row) := Except.eq_ok_getD (h.probeKeys row hr)
  rw [HashJoin.answer, hk, Except.ok_bind, joined]
  change (if (j.sharing build row).isEmpty then _ else j.joinMatches row (j.sharing build row)) = _
  simp only [List.isEmpty_iff]
  split
  case isTrue => simp [unmatched, h.leftJoin, Except.ensure_of (h.fits row hr), padded, pure, Except.pure]
  case isFalse => exact joinMatches_eq_ok fun b hb => h.satisfied hr (mem_of_mem_filter hb)

theorem Planned.getD_answer (h : Planned j build w probe) (hr : row ∈ probe) : (j.answer build row).getD [] =
      if j.sharing build row ≠ [] ∧ j.partners build row = [] then [] else j.keeping build row := by
  rw [h.answer hr, Except.getD_ok, keeping]
  by_cases hs : j.sharing build row = []
  · simp [hs, partners]
  · by_cases hp : j.partners build row = [] <;> simp [hs, hp]

theorem length_keeping : 0 < (j.keeping build row).length := by
  rw [keeping]
  split
  case isTrue => simp
  case isFalse hp => simpa using length_pos_of_ne_nil hp

section

variable {build probe : List (List (Tuple α))}

theorem Planned.drains (h : Planned j build.flatten w probe.flatten) (hg : env.Grants) :
    Drains (j.next env w) (.new build probe) (j.answers build.flatten probe.flatten) :=
  drains_granted hg h.width h.buildKeys fun row hr => by rw [h.answer hr]; rfl

theorem Planned.decided (h : Planned j build.flatten w probe.flatten) (hg : env.Grants)
    (d : Drains (j.next env w) (.new build probe) out)
    (hp : out.Perm (probe.flatten.flatMap (j.keeping build.flatten))) : j.Decided build.flatten probe.flatten := by
  intro row hr hs hn
  obtain rfl := (h.drains hg).unique d
  have hlt : (j.answers build.flatten probe.flatten).length <
      (probe.flatten.flatMap (j.keeping build.flatten)).length := by
    rw [answers, length_flatMap, length_flatMap]
    refine sum_lt_sum _ _ (fun row hr => ?_) ⟨row, hr, ?_⟩
    · rw [h.getD_answer hr]
      split <;> simp
    · rw [h.getD_answer hr, if_pos ⟨hs, hn⟩]
      exact length_keeping
  exact hlt.ne hp.length_eq

theorem keeps_left_rows_iff (hg : env.Grants) (h : Planned j build.flatten w probe.flatten) :
    (∃ out, Drains (j.next env w) (.new build probe) out ∧
        out.Perm (probe.flatten.flatMap (j.keeping build.flatten))) ↔ j.Decided build.flatten probe.flatten := by
  constructor
  · rintro ⟨out, d, hp⟩
    exact h.decided hg d hp
  · intro hd
    refine ⟨_, h.drains hg, .of_eq (flatMap_congr fun row hr => ?_)⟩
    rw [h.getD_answer hr, if_neg fun hn => hd row hr hn.1 hn.2]

end

omit [Serialized α] in
theorem rowsAcross_columns {rows : List (Tuple α)} (hw : ∀ row ∈ rows, row.length = w) :
    HashJoinBuildSide.rowsAcross rows.length ((List.range w).map fun c => rows.map (·.getD c (.null .null))) = rows := by
  refine ext_getElem (by simp [HashJoinBuildSide.rowsAcross]) fun i _ hi => ext_getElem ?_ fun c _ hc => ?_
  · simp [HashJoinBuildSide.rowsAcross, hw _ (getElem_mem hi)]
  · simp [HashJoinBuildSide.rowsAcross, hi, hc]

-- Each chunk comes with typed columns.
def columnar (w : ℕ) : JoinEnvironment α where
  budget _ _ := .ok ()
  rowMemory _ := 0
  spillRequested _ := false
  typedColumns rows := some ((List.range w).map fun c => rows.map (·.getD c (.null .null)))
  typed rows _ h hw := by
    cases h
    exact rowsAcross_columns (by simpa using hw)

-- Rows are joined by their first column, if the second column of the right one is true.
def adults : HashJoin Empty where
  evaluate := EquiJoin.evaluateVariable
  joinCondition := some (.variable "adult")
  hashKeys := [.variable "key"]
  probeKeys := [.variable "id"]
  buildNames := ["key", "adult"]
  probeNames := ["id"]
  leftJoin := true
  outputWidth := 3

theorem adults_planned (build : List (Int32 × Bool)) (probe : List Int32) :
    adults.Planned (build.map fun b => [.int b.1, .bool b.2]) 2 (probe.map fun i => [.int i]) where
  leftJoin := rfl
  width b hb := by
    obtain ⟨b, -, rfl⟩ := mem_map.mp hb
    rfl
  buildKeys b hb := by
    obtain ⟨b, -, rfl⟩ := mem_map.mp hb
    rfl
  probeKeys row hr := by
    obtain ⟨i, -, rfl⟩ := mem_map.mp hr
    rfl
  fits row hr := by
    obtain ⟨i, -, rfl⟩ := mem_map.mp hr
    simp [adults]
  condition c hc row hr b hb := by
    obtain ⟨i, -, rfl⟩ := mem_map.mp hr
    obtain ⟨b, -, rfl⟩ := mem_map.mp hb
    cases hc
    exact ⟨b.2, rfl⟩

-- The first row has one of its two partners, the second its only one, and the third has none.
theorem keeps_left_rows_of_adults :
    ∃ out, Drains (adults.next (columnar 2) 2)
        (.new [[[.int 1, .bool false], [.int 1, .bool true]], [[.int 2, .bool true]]] [[[.int 1], [.int 2]], [[.int 3]]]) out ∧
      out.Perm [[.int 1, .int 1, .bool true], [.int 2, .int 2, .bool true], [.int 3, .null .null, .null .null]] := by
  have h : adults.Planned (List.flatten [[[.int 1, .bool false], [.int 1, .bool true]], [[.int 2, .bool true]]]) 2
      (List.flatten [[[.int 1], [.int 2]], [[.int 3]]]) := adults_planned [(1, false), (1, true), (2, true)] [1, 2, 3]
  exact (keeps_left_rows_iff (JoinEnvironment.grants_granting (columnar 2)) h).mpr (by unfold Decided; decide +kernel)

-- The key is found, the condition fails, and the row is gone.
theorem loses_left_row :
    ¬∃ out, Drains (adults.next (columnar 2) 2) (.new [[[.int 1, .bool false]]] [[[.int 1]]]) out ∧
      out.Perm [[.int 1, .null .null, .null .null]] := by
  rintro ⟨out, d, hp⟩
  have h : adults.Planned (List.flatten [[[.int 1, .bool false]]]) 2 (List.flatten [[[.int 1]]]) :=
    adults_planned [(1, false)] [1]
  have hd := h.decided (JoinEnvironment.grants_granting (columnar 2)) d hp
  exact hd [.int 1] (by simp) (by decide +kernel) (by decide +kernel)

end Linkrs.HashJoin
