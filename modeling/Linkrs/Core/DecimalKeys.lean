import Linkrs.Core.PrefixBounds
import Mathlib.Algebra.Order.Field.Power

namespace Linkrs

open Numeral List

namespace FiniteDecimal

theorem length_digitsOf_le (d : FiniteDecimal) : (digitsOf d.coefficient).length ≤ 34 := by
  unfold digitsOf
  split
  case isTrue => simp
  case isFalse =>
    rw [length_reverse, length_map, Nat.digits_length_le_iff (by decide)]
    exact d.coefficient_lt

-- The digits of a decimal without the zeros at the end, and the power of ten that they are multiplied
-- by when they are read as a fraction.
def trimmed (d : FiniteDecimal) : List UInt8 :=
  (digitsOf d.coefficient).rdropWhile (· = '0'.toUInt8)

def magnitude (d : FiniteDecimal) : ℤ :=
  (digitsOf d.coefficient).length + d.exponent

theorem magnitude_bounds (d : FiniteDecimal) : -6176 ≤ d.magnitude ∧ d.magnitude ≤ 6145 := by
  have := d.length_digitsOf_le
  have := d.le_exponent
  have := d.exponent_le
  unfold magnitude
  omega

theorem digits_eq (d : FiniteDecimal) : ∃ t, digitsOf d.coefficient = d.trimmed ++ List.replicate t '0'.toUInt8 := by
  refine ⟨((digitsOf d.coefficient).rtakeWhile (· = '0'.toUInt8)).length, ?_⟩
  have hzeros : (digitsOf d.coefficient).rtakeWhile (· = '0'.toUInt8) =
      List.replicate ((digitsOf d.coefficient).rtakeWhile (· = '0'.toUInt8)).length '0'.toUInt8 :=
    eq_replicate_of_mem fun b hb => by simpa using mem_rtakeWhile_imp hb
  rw [trimmed, ← hzeros, rdropWhile_append_rtakeWhile]

variable {d : FiniteDecimal}

theorem isDigit_of_mem_trimmed (h : b ∈ d.trimmed) : isDigit b :=
  isDigit_of_mem_digitsOf (( rdropWhile_prefix _ _).subset h)

theorem getLast_trimmed (d : FiniteDecimal) : d.trimmed.getLast? ≠ some '0'.toUInt8 := by
  intro h
  have hne : d.trimmed ≠ [] := by
    intro hnil
    simp [hnil] at h
  rw [getLast?_eq_some_getLast hne] at h
  have := rdropWhile_last_not (· = '0'.toUInt8) (digitsOf d.coefficient) hne
  exact this (decide_eq_true (Option.some.inj h))

theorem head_trimmed (h : d.coefficient ≠ 0) : ∃ b bs, d.trimmed = b :: bs ∧ b ≠ '0'.toUInt8 := by
  have hhead := head_digitsOf h
  obtain ⟨t, ht⟩ := d.digits_eq
  cases htrim : d.trimmed with
  | nil =>
    rw [htrim, nil_append] at ht
    cases t with
    | zero => exact (digitsOf_ne_nil _ ht).elim
    | succ t => exact (hhead (by rw [ht]; rfl)).elim
  | cons b bs =>
    refine ⟨b, bs, rfl, ?_⟩
    rintro rfl
    exact hhead (by rw [ht, htrim]; rfl)

theorem coefficient_eq (d : FiniteDecimal) :
    ∃ t, d.coefficient = ofDigits d.trimmed * 10 ^ t ∧ (digitsOf d.coefficient).length = d.trimmed.length + t := by
  obtain ⟨t, ht⟩ := d.digits_eq
  refine ⟨t, ?_, by simp [ht]⟩
  have h := ofDigits_append d.trimmed (List.replicate t '0'.toUInt8)
  rwa [← ht, ofDigits_digitsOf, length_replicate, show '0'.toUInt8 = 48 from rfl, ofDigits_zeros, Nat.add_zero] at h

theorem fraction_trimmed (d : FiniteDecimal) :
    fraction d.trimmed * 10 ^ d.magnitude = d.coefficient * 10 ^ d.exponent := by
  obtain ⟨t, hcoefficient, hlen⟩ := d.coefficient_eq
  rw [fraction, magnitude, hlen, zpow_add₀ (by norm_num), zpow_natCast, pow_add, hcoefficient]
  push_cast
  field_simp

theorem fraction_trimmed_bounds (h : d.coefficient ≠ 0) :
    1 / 10 ≤ fraction d.trimmed ∧ fraction d.trimmed < 1 := by
  refine ⟨?_, fraction_lt_one fun b hb => isDigit_of_mem_trimmed hb⟩
  obtain ⟨b, bs, htrim, hb⟩ := head_trimmed h
  have hdigit : isDigit b := isDigit_of_mem_trimmed (by rw [htrim]; exact mem_cons_self)
  have hpos : 1 ≤ digit b := Nat.one_le_iff_ne_zero.mpr fun h0 => hb ((digit_eq_zero hdigit).mp h0)
  have hone : (1 : ℚ) ≤ digit b := by exact_mod_cast hpos
  have := fraction_nonneg bs
  rw [htrim, fraction_cons]
  linarith

theorem value_trimmed (d : FiniteDecimal) :
    d.value = (if d.negative then -1 else 1) * ofDigits d.trimmed * 10 ^ (d.magnitude - d.trimmed.length) := by
  rw [value, mul_assoc, ← d.fraction_trimmed, fraction, zpow_sub₀ (by norm_num), zpow_natCast]
  ring

end FiniteDecimal

theorem compare_scaled {x y : ℚ} {i j : ℤ} (hx : 1 / 10 ≤ x) (hx' : x < 1) (hy : 1 / 10 ≤ y) (hy' : y < 1) :
    compare (x * 10 ^ i) (y * 10 ^ j) = (compare i j).then (compare x y) := by
  have hlt {x y : ℚ} {i j : ℤ} (hx : x < 1) (hy : 1 / 10 ≤ y) (h : i < j) : x * 10 ^ i < y * 10 ^ j := by
    have hpow : (10 : ℚ) ^ i * 10 ≤ 10 ^ j := by
      rw [← zpow_add_one₀ (by norm_num)]
      exact zpow_le_zpow_right₀ (by norm_num) h
    have hpos : (0 : ℚ) < 10 ^ i := by positivity
    nlinarith
  refine KeyOrder.compare_lex (hlt hx' hy) (hlt hy' hx) fun h => ?_
  have hpos : (0 : ℚ) < 10 ^ j := by positivity
  rw [h]
  exact KeyOrder.compare_congr (mul_lt_mul_of_pos_right · hpos) (mul_lt_mul_of_pos_right · hpos) (by rw [·])

theorem compare_neg (x y : ℚ) : compare (-x) (-y) = (compare x y).swap := by
  rw [KeyOrder.compare_swap]
  exact KeyOrder.compare_congr neg_lt_neg neg_lt_neg (by rw [·])

namespace OrderedCodec

open KeyOrder Bytes

theorem inI32_of_bounds (hl : -10000 ≤ i) (hu : i ≤ 10000) : Text.inI32 i = true := by
  simp only [Text.inI32, Bool.and_eq_true, decide_eq_true_eq]
  omega

theorem decimalParts_toText [DecimalLib] (d : FiniteDecimal) :
    ∃ k whole fractional exponent, decimalParts (DecimalLib.toText (.finite d)) = .ok (whole, fractional, exponent) ∧
      (DecimalLib.toText (.finite d)).startsWith '-'.toUInt8 = d.negative ∧
      whole ++ fractional = List.replicate k '0'.toUInt8 ++ digitsOf d.coefficient ∧
      digitExponent whole.length k exponent = .ok d.magnitude := by
  obtain ⟨k, whole, fractional, exponent, ⟨hstart, mantissa, exponentPart, hsplit, hparse, hpoint⟩, happend, hexp, hk⟩ :=
    DecimalLib.toText_finite d
  have hdigits := d.length_digitsOf_le
  have hlow := d.le_exponent
  have hhigh := d.exponent_le
  have hlen : whole.length + fractional.length = k + (digitsOf d.coefficient).length := by
    simpa using congrArg List.length happend
  have hi32 : Text.parseI32 exponentPart = .ok exponent := by
    rw [Text.parseI32, hparse, Except.ok_bind, if_pos (inI32_of_bounds (by omega) (by omega))]
  have hbad : ¬(whole ++ fractional = [] ∨ (whole ++ fractional).any (!isDigit ·)) := by
    rw [happend]
    simp only [append_eq_nil_iff, digitsOf_ne_nil, and_false, any_eq_true, mem_append, false_or, not_exists,
      not_and, Bool.not_eq_true', Bool.not_eq_false]
    rintro b (hb | hb)
    · rw [eq_of_mem_replicate hb]
      rfl
    · exact isDigit_of_mem_digitsOf hb
  refine ⟨k, whole, fractional, exponent, ?_, hstart, happend, ?_⟩
  · rw [decimalParts, hsplit]
    dsimp only
    rw [hi32]
    dsimp only
    rw [hpoint, if_neg hbad]
  · rw [digitExponent, inI32_of_bounds (by omega) (by omega), inI32_of_bounds (by omega) (by omega),
      inI32_of_bounds (by omega) (by omega), inI32_of_bounds (by omega) (by omega), FiniteDecimal.magnitude]
    simp only [Bool.not_true, Bool.false_eq_true, if_false, Bool.or_self, Except.ok.injEq]
    omega

-- Of a decimal: whether it is negative, where the point stands, and the digits.
def sortKey (d : FiniteDecimal) : Bool × ℤ × List UInt8 :=
  if d.coefficient = 0 then (false, -2 ^ 31, ['0'.toUInt8]) else (d.negative, d.magnitude, d.trimmed)

theorem significand_eq [DecimalLib] (d : FiniteDecimal) : significand (.finite d) = .ok (sortKey d) := by
  obtain ⟨k, whole, fractional, exponent, hparts, hstart, happend, hexp⟩ := decimalParts_toText d
  rw [significand, hparts, Except.ok_bind]
  dsimp only
  rw [happend, hstart, sortKey]
  by_cases h : d.coefficient = 0
  · rw [if_pos h, if_pos]
    rw [h]
    simp [digitsOf]
    rfl
  · obtain ⟨b, bs, htrim, hb⟩ := FiniteDecimal.head_trimmed h
    obtain ⟨t, ht⟩ := d.digits_eq
    have hall : ¬(List.replicate k '0'.toUInt8 ++ digitsOf d.coefficient).all (· = '0'.toUInt8) := by
      rw [ht, htrim]
      simp [hb]
    have hcount : ((List.replicate k '0'.toUInt8 ++ digitsOf d.coefficient).takeWhile (· = '0'.toUInt8)).length = k := by
      rw [takeWhile_append_of_pos (by simp), ht, htrim]
      simp [hb]
    rw [if_neg hall, if_neg h, hcount, hexp, Except.ok_bind, drop_left' (by simp)]
    rfl

variable {d : FiniteDecimal}

theorem value_of_negative (h : (sortKey d).1 = true) :
    d.value = -(fraction d.trimmed * 10 ^ d.magnitude) ∧ d.coefficient ≠ 0 ∧ sortKey d = (true, d.magnitude, d.trimmed) := by
  unfold sortKey at h ⊢
  split at h
  case isTrue => simp at h
  case isFalse hc =>
    have h : d.negative = true := h
    refine ⟨?_, hc, by rw [if_neg hc, h]⟩
    rw [d.fraction_trimmed, FiniteDecimal.value, if_pos h]
    ring

theorem value_of_nonnegative (h : (sortKey d).1 = false) :
    d.coefficient = 0 ∧ d.value = 0 ∧ sortKey d = (false, -2 ^ 31, ['0'.toUInt8]) ∨
      d.coefficient ≠ 0 ∧ d.value = fraction d.trimmed * 10 ^ d.magnitude ∧ sortKey d = (false, d.magnitude, d.trimmed) := by
  unfold sortKey at h ⊢
  split at h
  case isTrue hc => exact .inl ⟨hc, by simp [FiniteDecimal.value, hc], if_pos hc⟩
  case isFalse hc =>
    have h : d.negative = false := h
    refine .inr ⟨hc, ?_, by rw [if_neg hc, h]⟩
    rw [d.fraction_trimmed, FiniteDecimal.value, h]
    simp

theorem compare_trimmed {a b : FiniteDecimal} (ha : a.coefficient ≠ 0) (hb : b.coefficient ≠ 0) :
    compare (fraction a.trimmed * 10 ^ a.magnitude) (fraction b.trimmed * 10 ^ b.magnitude) =
      (compare a.magnitude b.magnitude).then (compare a.trimmed b.trimmed) := by
  have ⟨ha₁, ha₂⟩ := FiniteDecimal.fraction_trimmed_bounds ha
  have ⟨hb₁, hb₂⟩ := FiniteDecimal.fraction_trimmed_bounds hb
  rw [compare_scaled ha₁ ha₂ hb₁ hb₂, compare_fraction (fun _ h => FiniteDecimal.isDigit_of_mem_trimmed h)
    (fun _ h => FiniteDecimal.isDigit_of_mem_trimmed h) a.getLast_trimmed b.getLast_trimmed]

theorem trimmed_pos (h : d.coefficient ≠ 0) : 0 < fraction d.trimmed * 10 ^ d.magnitude := by
  have := (FiniteDecimal.fraction_trimmed_bounds h).1
  positivity

-- Decimals are ordered like their keys, negative ones the other way around.
theorem compare_value (a b : FiniteDecimal) : compare a.value b.value =
      match (sortKey a).1, (sortKey b).1 with
      | false, false => (compare (sortKey a).2.1 (sortKey b).2.1).then (compare (sortKey a).2.2 (sortKey b).2.2)
      | true, true => ((compare (sortKey a).2.1 (sortKey b).2.1).then (compare (sortKey a).2.2 (sortKey b).2.2)).swap
      | true, false => .lt
      | false, true => .gt := by
  cases ha : (sortKey a).1 <;> cases hb : (sortKey b).1 <;> dsimp only
  case true.true =>
    have ⟨hva, hca, hka⟩ := value_of_negative ha
    have ⟨hvb, hcb, hkb⟩ := value_of_negative hb
    rw [hva, hvb, hka, hkb, ← compare_trimmed hca hcb, compare_neg]
  case true.false =>
    have ⟨hva, hca, _⟩ := value_of_negative ha
    have := trimmed_pos hca
    rw [compare_lt_iff_lt, hva]
    obtain ⟨_, hvb, _⟩ | ⟨hcb, hvb, _⟩ := value_of_nonnegative hb
    · rw [hvb]
      linarith
    · have := trimmed_pos hcb
      linarith
  case false.true =>
    have ⟨hvb, hcb, _⟩ := value_of_negative hb
    have := trimmed_pos hcb
    rw [compare_gt_iff_gt, hvb]
    obtain ⟨_, hva, _⟩ | ⟨hca, hva, _⟩ := value_of_nonnegative ha
    · rw [hva]
      linarith
    · have := trimmed_pos hca
      linarith
  case false.false =>
    have hlow (d : FiniteDecimal) : (-2 ^ 31 : ℤ) < d.magnitude := by have := d.magnitude_bounds; omega
    obtain ⟨_, hva, hka⟩ | ⟨hca, hva, hka⟩ := value_of_nonnegative ha <;>
      obtain ⟨_, hvb, hkb⟩ | ⟨hcb, hvb, hkb⟩ := value_of_nonnegative hb <;> rw [hva, hvb, hka, hkb]
    · rw [compare_eq_iff_eq.mpr rfl, compare_eq_iff_eq.mpr rfl, Std.compare_self]
      rfl
    · rw [compare_lt_iff_lt.mpr (trimmed_pos hcb), compare_lt_iff_lt.mpr (hlow b)]
      rfl
    · rw [compare_gt_iff_gt.mpr (trimmed_pos hca), compare_gt_iff_gt.mpr (hlow a)]
      rfl
    · exact compare_trimmed hca hcb

def encodeKey : Bool × ℤ × List UInt8 → List UInt8
  | (true, exponent, digits) => tagDecimal :: 0 :: be 4 (2 ^ 32 - 1 - flipSign 31 exponent) ++ digits.map (~~~ ·) ++ [0xFF]
  | (false, exponent, digits) => tagDecimal :: 1 :: be 4 (flipSign 31 exponent) ++ digits ++ [0x00]

theorem encodeDecimal_finite [DecimalLib] (d : FiniteDecimal) : encodeDecimal (.finite d) = .ok (encodeKey (sortKey d)) := by
  rw [encodeDecimal, significand_eq, Except.ok_bind]
  obtain ⟨negative, exponent, digits⟩ := sortKey d
  cases negative <;> rfl

theorem sortKey_bounds (d : FiniteDecimal) :
    -2 ^ 31 ≤ (sortKey d).2.1 ∧ (sortKey d).2.1 < 2 ^ 31 ∧ ∀ b ∈ (sortKey d).2.2, isDigit b := by
  unfold sortKey
  split
  · refine ⟨by decide, by decide, by simp [Text.isDigit_zero]⟩
  · have := d.magnitude_bounds
    exact ⟨by dsimp only; omega, by dsimp only; omega, fun b hb => FiniteDecimal.isDigit_of_mem_trimmed hb⟩

theorem compare_complement (a b : UInt8) : compare (~~~a) (~~~b) = (compare a b).swap := by
  have ha : a.toNat ≤ UInt8.size - 1 := Nat.le_pred_of_lt a.toNat_lt
  have hb : b.toNat ≤ UInt8.size - 1 := Nat.le_pred_of_lt b.toNat_lt
  simp only [UInt8.compare_eq_toNat_compare_toNat, UInt8.toNat_not]
  exact compare_sub ha hb

-- The terminator comes before all digits, and after their complements.
theorem compare_digit_terminator (h : isDigit b) :
    compare 0x00 b = .lt ∧ compare b 0x00 = .gt ∧ compare 0xFF (~~~b) = .gt ∧ compare (~~~b) 0xFF = .lt := by
  have hb := isDigit_iff.mp h
  have hzero : b ≠ 0 := by rintro rfl; simp at hb
  have hnot : (~~~b).toNat < (0xFF : UInt8).toNat := by
    simp
    omega
  exact ⟨(compare_zero hzero).1, (compare_zero hzero).2, (compare_of_toNat_lt hnot).2, (compare_of_toNat_lt hnot).1⟩

theorem settles_digits (hx : ∀ b ∈ xs, isDigit b) (hy : ∀ b ∈ ys, isDigit b) :
    Settles (compare xs ys) (xs ++ [0x00]) (ys ++ [0x00]) ∧
      Settles (compare xs ys).swap (xs.map (~~~ ·) ++ [0xFF]) (ys.map (~~~ ·) ++ [0xFF]) := by
  constructor
  · have h := Settles.terminated (f := fun b : UInt8 => [b]) (e := [0x00]) (.inl rfl) (fun a _ b _ => .singleton a b)
      (p := xs) (q := ys) (fun b hb s t => ?_) (fun a ha s t => ?_) (.of_compare rfl rfl)
    · simpa using h
    · simp [(compare_digit_terminator (hy b hb)).1]
    · simp [(compare_digit_terminator (hx a ha)).2.1]
  · have h := Settles.terminated (f := fun b : UInt8 => [~~~b]) (e := [0xFF]) (.inr rfl)
      (fun a _ b _ => compare_complement a b ▸ .singleton (~~~a) (~~~b)) (p := xs) (q := ys) (fun b hb s t => ?_)
      (fun a ha s t => ?_) (.of_compare rfl rfl)
    · simpa [map_eq_flatMap] using h
    · simp [(compare_digit_terminator (hy b hb)).2.2.1]
    · simp [(compare_digit_terminator (hx a ha)).2.2.2]

theorem settles_decimal (a b : FiniteDecimal) :
    Settles (compare a.value b.value) (encodeKey (sortKey a)) (encodeKey (sortKey b)) := by
  rw [compare_value]
  have ⟨ha₁, ha₂, ha₃⟩ := sortKey_bounds a
  have ⟨hb₁, hb₂, hb₃⟩ := sortKey_bounds b
  generalize sortKey a = x at *
  generalize sortKey b = y at *
  obtain ⟨negative, i, ds⟩ := x
  obtain ⟨negative', j, es⟩ := y
  have hi : flipSign 31 i < 256 ^ 4 := flipSign_lt ha₁ ha₂
  have hj : flipSign 31 j < 256 ^ 4 := flipSign_lt hb₁ hb₂
  have hcmp := compare_flipSign ha₁ ha₂ hb₁ hb₂
  have hhead (s : UInt8) : Settles .eq [tagDecimal, s] [tagDecimal, s] := .of_compare rfl (Std.compare_self)
  cases negative <;> cases negative' <;> dsimp only
  case false.false =>
    have h := (hhead 1).append ((settles_be hi hj).append (settles_digits ha₃ hb₃).1)
    rw [hcmp, Ordering.eq_then] at h
    simpa [encodeKey] using h
  case true.true =>
    have h := (hhead 0).append ((settles_be (m := 2 ^ 32 - 1 - flipSign 31 i) (n := 2 ^ 32 - 1 - flipSign 31 j) (w := 4)
      (by omega) (by omega)).append (settles_digits ha₃ hb₃).2)
    rw [compare_sub (by omega) (by omega), hcmp, Ordering.eq_then, ← Ordering.swap_then] at h
    simpa [encodeKey] using h
  case true.false => exact fun _ _ => rfl
  case false.true => exact fun _ _ => rfl

theorem decodeDigits_append (negative : Bool) (rest : List UInt8) (h : ∀ b ∈ digits, isDigit b) :
    decodeDigits negative (if negative then 0xFF else 0x00)
      ((if negative then digits.map (~~~ ·) ++ [0xFF] else digits ++ [0x00]) ++ rest) = .ok digits := by
  induction digits with
  | nil => cases negative <;> simp [decodeDigits]
  | cons b bs ind =>
    have ⟨hb, hbs⟩ := forall_mem_cons.mp h
    have hne : b ≠ 0x00 := by rintro rfl; simp [isDigit] at hb
    have hne' : ~~~b ≠ 0xFF := fun heq => hne (by rw [← UInt8.not_not (a := b), heq]; rfl)
    have ind := ind hbs
    cases negative
    · simp only [Bool.false_eq_true, if_false, cons_append, decodeDigits] at ind ⊢
      rw [if_neg hne, hb, ind]
      rfl
    · simp only [if_true, map_cons, cons_append, decodeDigits] at ind ⊢
      rw [if_neg hne', UInt8.not_not, hb, ind]
      rfl

theorem decimalOf_sortKey [DecimalLib] (d : FiniteDecimal) :
    ∃ d', decimalOf (sortKey d).1 (sortKey d).2.1 (sortKey d).2.2 = .ok (.finite d') ∧ d'.value = d.value := by
  by_cases h : d.coefficient = 0
  · rw [sortKey, if_pos h, decimalOf]
    have hreads : Text.Reads ['0'.toUInt8] false ['0'.toUInt8] [] 0 := ⟨rfl, _, _, rfl, rfl, rfl⟩
    obtain ⟨d', hparse, hvalue⟩ := DecimalLib.fromStr_exact d hreads (by simp) (by simp [Text.isDigit_zero])
      (by simp [FiniteDecimal.value, h, show ofDigits ['0'.toUInt8] = 0 from rfl])
    exact ⟨d', by simp [parseDecimal, hparse], hvalue⟩
  · obtain ⟨b, bs, htrim, hb⟩ := FiniteDecimal.head_trimmed h
    have hmag := d.magnitude_bounds
    have hlen : d.trimmed.length ≤ 34 := ( rdropWhile_prefix _ _).length_le.trans d.length_digitsOf_le
    have hdigit : ∀ b ∈ d.trimmed, isDigit b := fun b hb => FiniteDecimal.isDigit_of_mem_trimmed hb
    have hall : ¬d.trimmed.all (· = '0'.toUInt8) := by simp [htrim, hb]
    have hany : d.trimmed.any (· ≠ '0'.toUInt8) = true := by simp [htrim, hb]
    have hne : d.trimmed ≠ [] := by simp [htrim]
    have htail : (if d.magnitude - d.trimmed.length ≠ 0 then
          'e'.toUInt8 :: Text.ofInt (d.magnitude - d.trimmed.length) else []) = [] ∧ d.magnitude - d.trimmed.length = 0 ∨
        ∃ e text, (if d.magnitude - d.trimmed.length ≠ 0 then
          'e'.toUInt8 :: Text.ofInt (d.magnitude - d.trimmed.length) else []) = e :: text ∧ Text.isExponentSign e ∧
            Text.parseInt text = .ok (d.magnitude - d.trimmed.length) := by
      split
      case isTrue => exact .inr ⟨_, _, rfl, rfl, Text.parseInt_ofInt _⟩
      case isFalse => exact .inl ⟨rfl, by omega⟩
    obtain ⟨d', hparse, hvalue⟩ := DecimalLib.fromStr_exact d
      (.of_digits d.negative hne hdigit htail) hne hdigit d.value_trimmed
    refine ⟨d', ?_, hvalue⟩
    rw [sortKey, if_neg h, decimalOf]
    dsimp only
    rw [if_neg hall, inI32_of_bounds (by omega) (by omega), inI32_of_bounds (by omega) (by omega), hany, Bool.and_true,
      parseDecimal, hparse]
    rfl

theorem decodeDecimal_encodeKey [DecimalLib] (d : FiniteDecimal) (rest : List UInt8) :
    ∃ d', decodeDecimal (encodeKey (sortKey d) ++ rest) = .ok (.finite d', (encodeKey (sortKey d)).length) ∧
      d'.value = d.value := by
  obtain ⟨d', hdecimal, hvalue⟩ := decimalOf_sortKey d
  refine ⟨d', ?_, hvalue⟩
  have hne : (sortKey d).2.2 ≠ [] := by
    unfold sortKey
    split
    case isTrue => simp
    case isFalse h =>
      obtain ⟨b, bs, htrim, -⟩ := FiniteDecimal.head_trimmed h
      simp [htrim]
  obtain ⟨hl, hu, hdigit⟩ := sortKey_bounds d
  generalize sortKey d = key at *
  obtain ⟨negative, exponent, digits⟩ := key
  dsimp only at *
  have hflip : flipSign 31 exponent < 256 ^ 4 := flipSign_lt hl hu
  -- The sign, the exponent, the digits with their terminator.
  have hform : encodeKey (negative, exponent, digits) ++ rest =
      tagDecimal :: (if negative then 0 else 1) ::
        (be 4 (if negative then 2 ^ 32 - 1 - flipSign 31 exponent else flipSign 31 exponent) ++
        ((if negative then digits.map (~~~ ·) ++ [0xFF] else digits ++ [0x00]) ++ rest)) := by
    cases negative <;> simp [encodeKey]
  have hlen : (encodeKey (negative, exponent, digits)).length = 6 + digits.length + 1 := by
    cases negative <;> simp [encodeKey] <;> omega
  have hdigits := decodeDigits_append negative rest hdigit
  have hlong : (encodeKey (negative, exponent, digits) ++ rest).length = 6 + digits.length + 1 + rest.length := by
    rw [length_append, hlen]
  unfold decodeDecimal
  rw [hlong, hform, hlen, getD_cons_succ, getD_cons_zero, drop_succ_cons, drop_succ_cons, drop_zero,
    take_left' (length_be 4 _), ofBe_be (by split <;> omega)]
  have hdrop : (tagDecimal :: (if negative then 0 else 1) ::
      (be 4 (if negative then 2 ^ 32 - 1 - flipSign 31 exponent else flipSign 31 exponent) ++
        ((if negative then digits.map (~~~ ·) ++ [0xFF] else digits ++ [0x00]) ++ rest))).drop 6 =
      (if negative then digits.map (~~~ ·) ++ [0xFF] else digits ++ [0x00]) ++ rest := by
    rw [drop_succ_cons, drop_succ_cons, drop_left' (length_be 4 _)]
  have hsign : ((if negative then 0 else 1 : UInt8) = 0) ↔ negative = true := by cases negative <;> simp
  have hbits : (if negative = true then 2 ^ 32 - 1 - (if negative then 2 ^ 32 - 1 - flipSign 31 exponent else
      flipSign 31 exponent) else if negative then 2 ^ 32 - 1 - flipSign 31 exponent else flipSign 31 exponent) =
        flipSign 31 exponent := by
    cases negative
    · rfl
    · simp only [if_true]
      omega
  rw [if_neg (by omega), if_neg (by cases negative <;> decide), hdrop]
  simp only [hsign, Bool.decide_eq_true]
  rw [hdigits, Except.ok_bind, if_neg (not_or.mpr ⟨hne, by omega⟩), hbits, ofFlipped_flipSign hl hu, hdecimal, Except.ok_bind]
  rfl

end OrderedCodec

end Linkrs
