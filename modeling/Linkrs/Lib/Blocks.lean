import Mathlib.Data.List.Basic
import Mathlib.Tactic.Linarith

-- Rows of different lengths that share one array.
namespace Blocks

open List

variable {α : Type} {xs ys zs : List α} {start stop len : ℕ}

-- The elements from `start` on, as far as the array goes.
def window (xs : List α) (start len : ℕ) : List α :=
  (xs.drop start).take len

-- Overwrites the elements from `start` on.
def splice (xs : List α) (start : ℕ) (ys : List α) : List α :=
  xs.take start ++ ys ++ xs.drop (start + ys.length)

theorem length_window (h : start + len ≤ xs.length) : (window xs start len).length = len := by
  rw [window, length_take, length_drop]
  omega

@[simp]
theorem window_zero : window xs start 0 = [] := by
  simp [window]

theorem take_window (h : k ≤ len) : (window xs start len).take k = window xs start k := by
  rw [window, window, take_take, Nat.min_eq_left h]

@[simp]
theorem splice_nil : splice xs start [] = xs := by
  simp [splice]

theorem length_splice (h : start + ys.length ≤ xs.length) : (splice xs start ys).length = xs.length := by
  simp only [splice, length_append, length_take, length_drop]
  omega

theorem getElem?_splice (h : start + ys.length ≤ xs.length) (i : ℕ) : (splice xs start ys)[i]? =
      if i < start then xs[i]? else if i < start + ys.length then ys[i - start]? else xs[i]? := by
  have ht : (xs.take start).length = start := by
    rw [length_take]
    omega
  rw [splice, append_assoc]
  by_cases h₁ : i < start
  case pos => rw [if_pos h₁, getElem?_append_left (by omega), getElem?_take_of_lt h₁]
  case neg =>
    rw [if_neg h₁, getElem?_append_right (by omega), ht]
    by_cases h₂ : i < start + ys.length
    case pos => rw [if_pos h₂, getElem?_append_left (by omega)]
    case neg =>
      rw [if_neg h₂, getElem?_append_right (by omega), getElem?_drop]
      congr 1
      omega

theorem getElem?_window (i : ℕ) :
    (window xs start len)[i]? = if i < len then xs[start + i]? else none := by
  rw [window, getElem?_take, getElem?_drop]

theorem window_congr (h : ∀ i, start ≤ i → i < start + len → xs[i]? = ys[i]?) :
    window xs start len = window ys start len := by
  apply ext_getElem?
  intro i
  rw [getElem?_window, getElem?_window]
  by_cases hi : i < len
  case pos => rw [if_pos hi, if_pos hi, h _ (by omega) (by omega)]
  case neg => rw [if_neg hi, if_neg hi]

theorem window_splice_self (h : start + ys.length ≤ xs.length) (hl : len ≤ ys.length) :
    window (splice xs start ys) start len = ys.take len := by
  apply ext_getElem?
  intro i
  rw [getElem?_window, getElem?_splice h, getElem?_take]
  by_cases hi : i < len
  case pos =>
    rw [if_pos hi, if_pos hi, if_neg (by omega), if_pos (by omega), Nat.add_sub_cancel_left]
  case neg => rw [if_neg hi, if_neg hi]

theorem window_splice_of_disjoint (h : start + ys.length ≤ xs.length)
    (hd : start + ys.length ≤ stop ∨ stop + len ≤ start) :
    window (splice xs start ys) stop len = window xs stop len := by
  apply window_congr
  intro i h₁ h₂
  rw [getElem?_splice h]
  by_cases hi : i < start
  case pos => rw [if_pos hi]
  case neg => rw [if_neg hi, if_neg (by omega)]

theorem window_append_left (h : start + len ≤ xs.length) : window (xs ++ ys) start len = window xs start len := by
  apply window_congr
  intro i _ hi
  rw [getElem?_append_left (by omega)]

theorem window_append_mid (h : len ≤ ys.length) : window (xs ++ ys ++ zs) xs.length len = ys.take len := by
  rw [window, append_assoc, drop_left, take_append_of_le_length h]

end Blocks
