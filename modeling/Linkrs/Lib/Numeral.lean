import Linkrs.Lib.KeyOrder
import Mathlib.Algebra.Order.Field.Basic
import Mathlib.Data.Nat.Digits.Lemmas
import Mathlib.Tactic.FieldSimp

-- Numbers as decimal digits in ASCII.
namespace Numeral

open KeyOrder List

def isDigit (b : UInt8) : Bool :=
  48 ≤ b && b ≤ 57

def digit (b : UInt8) : ℕ :=
  b.toNat - 48

def digitsOf (n : ℕ) : List UInt8 :=
  if n = 0 then [48] else ((Nat.digits 10 n).map fun d => UInt8.ofNat (48 + d)).reverse

def ofDigits : List UInt8 → ℕ
  | [] => 0
  | b :: bs => digit b * 10 ^ bs.length + ofDigits bs

variable {b : UInt8} {bs : List UInt8}

theorem isDigit_iff : isDigit b ↔ 48 ≤ b.toNat ∧ b.toNat ≤ 57 := by
  simp [isDigit, UInt8.le_iff_toNat_le]

theorem toNat_of_isDigit (h : isDigit b) : b.toNat = 48 + digit b := by
  have := isDigit_iff.mp h
  unfold digit
  omega

theorem digit_lt (h : isDigit b) : digit b < 10 := by
  have := isDigit_iff.mp h
  unfold digit
  omega

theorem digit_eq_zero (h : isDigit b) : digit b = 0 ↔ b = 48 := by
  have := toNat_of_isDigit h
  rw [← UInt8.toNat_inj, this]
  simp

theorem compare_digit (hb : isDigit b) (hc : isDigit c) : compare b c = compare (digit b) (digit c) := by
  rw [UInt8.compare_eq_toNat_compare_toNat, toNat_of_isDigit hb, toNat_of_isDigit hc]
  exact compare_congr (by omega) (by omega) (by omega)

theorem isDigit_of_mem_digitsOf (h : b ∈ digitsOf n) : isDigit b := by
  unfold digitsOf at h
  split at h
  case isTrue => simp_all [isDigit]
  case isFalse =>
    simp only [mem_reverse, mem_map] at h
    obtain ⟨d, hd, rfl⟩ := h
    have := Nat.digits_lt_base (by decide) hd
    rw [isDigit_iff, UInt8.toNat_ofNat']
    omega

theorem digitsOf_ne_nil (n : ℕ) : digitsOf n ≠ [] := by
  unfold digitsOf
  split <;> simp_all [Nat.digits_eq_nil_iff_eq_zero]

theorem ofDigits_append (xs ys : List UInt8) : ofDigits (xs ++ ys) = ofDigits xs * 10 ^ ys.length + ofDigits ys := by
  induction xs with
  | nil => simp [ofDigits]
  | cons x xs ind =>
    rw [cons_append, ofDigits, ofDigits, ind, length_append, Nat.pow_add]
    ring

theorem ofDigits_lt (h : ∀ b ∈ bs, isDigit b) : ofDigits bs < 10 ^ bs.length := by
  induction bs with
  | nil => simp [ofDigits]
  | cons b bs ind =>
    have ⟨hb, hbs⟩ := forall_mem_cons.mp h
    have := digit_lt hb
    have := ind hbs
    rw [ofDigits, length_cons, Nat.pow_succ]
    nlinarith

theorem ofDigits_zeros (k : ℕ) : ofDigits (List.replicate k 48) = 0 := by
  induction k with
  | zero => rfl
  | succ k ind => simp [replicate_succ, ofDigits, ind, digit]

theorem ofDigits_digitsOf (n : ℕ) : ofDigits (digitsOf n) = n := by
  have hrev (ds : List ℕ) (h : ∀ d ∈ ds, d < 10) :
      ofDigits ((ds.map fun d => UInt8.ofNat (48 + d)).reverse) = Nat.ofDigits 10 ds := by
    induction ds with
    | nil => rfl
    | cons d ds ind =>
      have ⟨hd, hds⟩ := forall_mem_cons.mp h
      have hdigit : digit (UInt8.ofNat (48 + d)) = d := by
        rw [digit, UInt8.toNat_ofNat']
        omega
      rw [map_cons, reverse_cons, ofDigits_append, ind hds, Nat.ofDigits_cons, ofDigits, hdigit]
      simp [ofDigits]
      ring
  unfold digitsOf
  split
  case isTrue h => simp [h, ofDigits, digit]
  case isFalse => rw [hrev _ fun d hd => Nat.digits_lt_base (by decide) hd, Nat.ofDigits_digits]

theorem head_digitsOf (h : n ≠ 0) : (digitsOf n).head? ≠ some 48 := by
  rw [digitsOf, if_neg h, head?_reverse, getLast?_map]
  intro heq
  obtain ⟨d, hd, heq⟩ := Option.map_eq_some_iff.mp heq
  have hlast := Nat.getLast_digit_ne_zero 10 h
  rw [getLast?_eq_some_getLast (Nat.digits_ne_nil_iff_ne_zero.mpr h)] at hd
  obtain rfl := Option.some.inj hd
  have hlt := Nat.digits_lt_base (show 1 < 10 by decide) (getLast_mem (Nat.digits_ne_nil_iff_ne_zero.mpr h))
  have := congrArg UInt8.toNat heq
  simp at this
  omega

def fraction (bs : List UInt8) : ℚ :=
  ofDigits bs / 10 ^ bs.length

theorem fraction_cons (b : UInt8) (bs : List UInt8) : fraction (b :: bs) = (digit b + fraction bs) / 10 := by
  unfold fraction
  rw [ofDigits, length_cons, pow_succ]
  push_cast
  field_simp

theorem fraction_nonneg (bs : List UInt8) : 0 ≤ fraction bs := by
  unfold fraction
  positivity

theorem fraction_lt_one (h : ∀ b ∈ bs, isDigit b) : fraction bs < 1 := by
  unfold fraction
  rw [div_lt_one (by positivity)]
  exact_mod_cast ofDigits_lt h

theorem fraction_pos (h : ∀ b ∈ bs, isDigit b) (hne : bs ≠ []) (hlast : bs.getLast? ≠ some 48) :
    0 < fraction bs := by
  induction bs with
  | nil => exact (hne rfl).elim
  | cons b bs ind =>
    have ⟨hb, hbs⟩ := forall_mem_cons.mp h
    have hfrac := fraction_nonneg bs
    rw [fraction_cons]
    by_cases hnil : bs = []
    · have : digit b ≠ 0 := by
        rw [Ne, digit_eq_zero hb]
        rintro rfl
        simp [hnil] at hlast
      positivity
    · have := ind hbs hnil fun heq => hlast (by rw [getLast?_cons, heq]; rfl)
      positivity

theorem compare_add_fraction {a b : ℕ} {x y : ℚ} (hx : 0 ≤ x) (hx' : x < 1) (hy : 0 ≤ y) (hy' : y < 1) :
    compare ((a + x) / 10) ((b + y) / 10) = (compare a b).then (compare x y) := by
  have hlt {a b : ℕ} {x y : ℚ} (hx : x < 1) (hy : 0 ≤ y) (h : a < b) : (a + x) / 10 < (b + y) / 10 := by
    have : (a : ℚ) + 1 ≤ b := by exact_mod_cast h
    linarith
  refine compare_lex (hlt hx' hy) (hlt hy' hx) fun h => ?_
  rw [h]
  exact compare_congr (fun h => by linarith) (fun h => by linarith) (fun h => by rw [h])

-- Without zeros at the end, fractions are ordered like their digits.
theorem compare_fraction (hx : ∀ b ∈ xs, isDigit b) (hy : ∀ b ∈ ys, isDigit b)
    (hx' : xs.getLast? ≠ some 48) (hy' : ys.getLast? ≠ some 48) : compare (fraction xs) (fraction ys) = compare xs ys := by
  induction xs generalizing ys with
  | nil =>
    cases ys with
    | nil => rw [compare_eq_iff_eq.mpr rfl, compare_nil]
    | cons y ys =>
      rw [compare_nil_cons, compare_lt_iff_lt]
      simpa [fraction, ofDigits] using fraction_pos hy (by simp) hy'
  | cons x xs ind =>
    have ⟨hx₁, hxs⟩ := forall_mem_cons.mp hx
    cases ys with
    | nil =>
      rw [compare_cons_nil, compare_gt_iff_gt]
      simpa [fraction, ofDigits] using fraction_pos hx (by simp) hx'
    | cons y ys =>
      have ⟨hy₁, hys⟩ := forall_mem_cons.mp hy
      rw [fraction_cons, fraction_cons, compare_cons, compare_digit hx₁ hy₁,
        compare_add_fraction (fraction_nonneg xs) (fraction_lt_one hxs) (fraction_nonneg ys) (fraction_lt_one hys),
        ind hxs hys (fun h => hx' (by rw [getLast?_cons, h]; rfl)) fun h => hy' (by rw [getLast?_cons, h]; rfl)]

end Numeral
