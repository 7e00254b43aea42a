import Mathlib.Algebra.Order.Floor.Div
import Mathlib.Tactic.Linarith

namespace List

variable {α : Type} {n : ℕ} {xs : List α}

-- The pieces of `xs` that a loop reads off its front, `n` elements at a time.
def pieces (n : ℕ) (xs : List α) : List (List α) :=
  if _h : xs = [] ∨ n = 0 then
    []
  else
    xs.take n :: pieces n (xs.drop n)
termination_by xs.length
decreasing_by
  have ⟨hx, hn⟩ := not_or.mp _h
  have := List.length_pos_iff.mpr hx
  simp only [List.length_drop]
  omega

theorem flatten_pieces (hn : n ≠ 0) (xs : List α) : (pieces n xs).flatten = xs := by
  fun_induction pieces n xs with
  | case1 xs h => simp_all
  | case2 xs h ind => simp [ind]

theorem length_le_of_mem_pieces (h : x ∈ pieces n xs) : x.length ≤ n := by
  fun_induction pieces n xs with
  | case1 => simp at h
  | case2 xs _ ind =>
    rcases List.mem_cons.mp h with rfl | h
    · exact List.length_take_le n xs
    · exact ind h

theorem ne_nil_of_mem_pieces (h : x ∈ pieces n xs) : x ≠ [] := by
  fun_induction pieces n xs with
  | case1 => simp at h
  | case2 xs hc ind =>
    rcases List.mem_cons.mp h with rfl | h
    · simpa [not_or, and_comm] using hc
    · exact ind h

theorem length_pieces (hn : n ≠ 0) (xs : List α) : (pieces n xs).length = xs.length ⌈/⌉ n := by
  fun_induction pieces n xs with
  | case1 xs h =>
    have : xs = [] := h.resolve_right hn
    simp [this]
  | case2 xs h ind =>
    have hx := List.length_pos_iff.mpr (not_or.mp h).1
    rw [List.length_cons, ind, List.length_drop, Nat.ceilDiv_eq_add_pred_div,
      Nat.ceilDiv_eq_add_pred_div, ← Nat.add_div_right _ (Nat.pos_of_ne_zero hn)]
    by_cases hl : n ≤ xs.length
    case pos => congr 1; omega
    case neg =>
      -- The last piece: one more whole piece, however little of it is filled.
      have h₁ : (xs.length - n + n - 1 + n) / n = 1 := Nat.div_eq_of_lt_le (by omega) (by omega)
      have h₂ : (xs.length + n - 1) / n = 1 := Nat.div_eq_of_lt_le (by omega) (by omega)
      rw [h₁, h₂]

end List
