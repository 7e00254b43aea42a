import Linkrs.Lib.Except
import Linkrs.Lib.Numeral
import Mathlib.Data.List.DropRight

namespace Linkrs

open Numeral List

-- A finite decimal of the interchange format with 34 digits.
structure FiniteDecimal where
  negative : Bool
  coefficient : ℕ
  exponent : ℤ
  coefficient_lt : coefficient < 10 ^ 34
  le_exponent : -6176 ≤ exponent
  exponent_le : exponent ≤ 6111
  deriving DecidableEq, Repr

inductive Decimal128 where
  | finite (d : FiniteDecimal)
  | infinity (negative : Bool)
  | nan
  deriving DecidableEq, Repr

-- The text of a number as its bytes, which are all ASCII.
abbrev Text := List UInt8

namespace Text

def sign (negative : Bool) : Text :=
  if negative then ['-'.toUInt8] else []

def ofInt (i : ℤ) : Text :=
  sign (i < 0) ++ digitsOf i.natAbs

def startsWith (text : Text) (b : UInt8) : Bool :=
  text.head? == some b

def stripSign : Text → Text
  | [] => []
  | b :: bytes => if b = '-'.toUInt8 ∨ b = '+'.toUInt8 then bytes else b :: bytes

def isExponentSign (b : UInt8) : Bool :=
  b = 'e'.toUInt8 || b = 'E'.toUInt8

def splitExponent (unsigned : Text) : Text × Text :=
  match unsigned.dropWhile (!isExponentSign ·) with
  | [] => (unsigned, ['0'.toUInt8])
  | _ :: exponent => (unsigned.takeWhile (!isExponentSign ·), exponent)

def splitPoint (mantissa : Text) : Text × Text :=
  (mantissa.takeWhile (· ≠ '.'.toUInt8), (mantissa.dropWhile (· ≠ '.'.toUInt8)).drop 1)

def parseInt (text : Text) : Except String ℤ :=
  let digits := stripSign text
  if text = [] then .error "cannot parse integer from empty string"
  else if digits = [] ∨ !digits.all isDigit then .error "invalid digit found in string"
  else .ok (if text.startsWith '-'.toUInt8 then -ofDigits digits else ofDigits digits)

def inI32 (i : ℤ) : Bool :=
  -2 ^ 31 ≤ i && i < 2 ^ 31

def parseI32 (text : Text) : Except String ℤ := do
  let i ← parseInt text
  if inI32 i then .ok i
  else if i < 0 then .error "number too small to fit in target type"
  else .error "number too large to fit in target type"

-- How a text is taken apart.
structure Reads (text : Text) (negative : Bool) (whole fractional : Text) (exponent : ℤ) : Prop where
  startsWith : text.startsWith '-'.toUInt8 = negative
  split : ∃ mantissa exponentPart, splitExponent (stripSign text) = (mantissa, exponentPart) ∧
    parseInt exponentPart = .ok exponent ∧ splitPoint mantissa = (whole, fractional)

end Text

namespace FiniteDecimal

def value (d : FiniteDecimal) : ℚ :=
  (if d.negative then -1 else 1) * d.coefficient * 10 ^ d.exponent

-- The texts that write a decimal out, with few zeros before its digits.
def WrittenAs (d : FiniteDecimal) (text : Text) : Prop :=
  ∃ k whole fractional exponent, text.Reads d.negative whole fractional exponent ∧
    whole ++ fractional = List.replicate k '0'.toUInt8 ++ digitsOf d.coefficient ∧
    exponent - fractional.length = d.exponent ∧ k ≤ 6

end FiniteDecimal

-- What is taken from the crate `dec`. The text of a finite decimal writes it out, and a numeral that is
-- the value of a decimal is read without rounding.
class DecimalLib where
  toText : Decimal128 → Text
  partialCmp : Decimal128 → Decimal128 → Option Ordering
  fromStr : Text → Except String Decimal128
  toText_finite : ∀ d : FiniteDecimal, d.WrittenAs (toText (.finite d))
  fromStr_exact : ∀ {text : Text} {negative : Bool} {whole : Text} {exponent : ℤ} (d : FiniteDecimal),
    text.Reads negative whole [] exponent → whole ≠ [] → (∀ b ∈ whole, isDigit b) →
      d.value = (if negative then -1 else 1) * ofDigits whole * 10 ^ exponent →
        ∃ d' : FiniteDecimal, fromStr text = .ok (.finite d') ∧ d'.value = d.value
  partialCmp_finite : ∀ a b : FiniteDecimal, partialCmp (.finite a) (.finite b) = some (compare a.value b.value)
  partialCmp_comm : ∀ {a b}, partialCmp a b = some .eq → partialCmp b a = some .eq
  partialCmp_trans : ∀ {a b c}, partialCmp a b = some .eq → partialCmp b c = some .eq → partialCmp a c = some .eq

namespace Decimal128

variable [DecimalLib]

def eq (a b : Decimal128) : Bool :=
  DecimalLib.partialCmp a b = some .eq

def cmp (a b : Decimal128) : Ordering :=
  if DecimalLib.partialCmp a b = some .lt then .lt
  else if DecimalLib.partialCmp a b = some .gt then .gt
  else .eq

theorem eq_comm (a b : Decimal128) : a.eq b = b.eq a := by
  rw [Bool.eq_iff_iff, eq, eq, decide_eq_true_iff, decide_eq_true_iff]
  exact ⟨DecimalLib.partialCmp_comm, DecimalLib.partialCmp_comm⟩

theorem eq_trans {a b c : Decimal128} (hab : a.eq b) (hbc : b.eq c) : a.eq c :=
  decide_eq_true (DecimalLib.partialCmp_trans (of_decide_eq_true hab) (of_decide_eq_true hbc))

theorem eq_finite {a b : FiniteDecimal} (h : a.value = b.value) : (finite a).eq (finite b) := by
  rw [eq, DecimalLib.partialCmp_finite, compare_eq_iff_eq.mpr h]
  rfl

theorem cmp_finite (a b : FiniteDecimal) : (finite a).cmp (finite b) = compare a.value b.value := by
  rw [cmp, DecimalLib.partialCmp_finite]
  cases compare a.value b.value <;> rfl

end Decimal128

namespace Text

theorem isDigit_zero : isDigit '0'.toUInt8 := rfl

theorem not_exponentSign_of_isDigit (h : isDigit b) : isExponentSign b = false := by
  have := isDigit_iff.mp h
  unfold isExponentSign
  rw [Bool.or_eq_false_iff, decide_eq_false_iff_not, decide_eq_false_iff_not]
  constructor <;> rintro rfl <;> revert this <;> decide

theorem ne_point_of_isDigit (h : isDigit b) : b ≠ '.'.toUInt8 := by
  rintro rfl
  revert h
  decide

theorem splitExponent_plain (h : ∀ b ∈ body, isExponentSign b = false) :
    splitExponent body = (body, ['0'.toUInt8]) := by
  have hdrop : body.dropWhile (!isExponentSign ·) = [] := dropWhile_eq_nil_iff.mpr (by simpa using h)
  rw [splitExponent, hdrop]

theorem splitExponent_scientific {mantissa exponent : Text} (h : ∀ b ∈ mantissa, isExponentSign b = false)
    (he : isExponentSign e) : splitExponent (mantissa ++ e :: exponent) = (mantissa, exponent) := by
  have hm : ∀ b ∈ mantissa, (!isExponentSign b) = true := by simpa using h
  rw [splitExponent, dropWhile_append_of_pos hm, takeWhile_append_of_pos hm]
  simp [he]

theorem splitPoint_whole (h : ∀ b ∈ whole, isDigit b) : splitPoint whole = (whole, []) := by
  have hw : ∀ b ∈ whole, decide (b ≠ '.'.toUInt8) = true := fun b hb => decide_eq_true (ne_point_of_isDigit (h b hb))
  rw [splitPoint, takeWhile_eq_self_iff.mpr hw, dropWhile_eq_nil_iff.mpr hw, drop_nil]

theorem strip_sign (negative : Bool) (body : Text) (h : isDigit b) :
    stripSign (sign negative ++ b :: body) = b :: body ∧ startsWith (sign negative ++ b :: body) '-'.toUInt8 = negative := by
  have hne : b ≠ '-'.toUInt8 ∧ b ≠ '+'.toUInt8 := by
    constructor <;> rintro rfl <;> revert h <;> decide
  cases negative <;> simp [sign, stripSign, startsWith, hne]

theorem parseInt_digits {digits : Text} (h : ∀ b ∈ digits, isDigit b) (hne : digits ≠ []) (negative : Bool) :
    parseInt (sign negative ++ digits) = .ok (if negative then -ofDigits digits else ofDigits digits) := by
  obtain ⟨b, bs, rfl⟩ := exists_cons_of_ne_nil hne
  have ⟨hstrip, hstart⟩ := strip_sign negative bs (h b mem_cons_self)
  have hall : (b :: bs).all isDigit := all_eq_true.mpr h
  unfold parseInt
  simp only [hstrip, hstart, hall]
  cases negative <;> simp [sign]

theorem parseInt_ofInt (i : ℤ) : parseInt (ofInt i) = .ok i := by
  rw [ofInt, parseInt_digits (fun _ hb => isDigit_of_mem_digitsOf hb) (digitsOf_ne_nil _), ofDigits_digitsOf]
  congr 1
  by_cases h : i < 0
  · rw [if_pos (by simpa using h)]
    omega
  · rw [if_neg (by simpa using h)]
    omega

theorem Reads.of_digits (negative : Bool) {whole tail : Text} {exponent : ℤ} (hne : whole ≠ [])
    (hw : ∀ b ∈ whole, isDigit b)
    (ht : tail = [] ∧ exponent = 0 ∨ ∃ e text, tail = e :: text ∧ isExponentSign e ∧ parseInt text = .ok exponent) :
    Reads (sign negative ++ (whole ++ tail)) negative whole [] exponent := by
  obtain ⟨b, bs, rfl⟩ := exists_cons_of_ne_nil hne
  have hmantissa : ∀ c ∈ b :: bs, isExponentSign c = false := fun c hc => not_exponentSign_of_isDigit (hw c hc)
  have ⟨hstrip, hstart⟩ := strip_sign negative (bs ++ tail) (hw b mem_cons_self)
  refine ⟨hstart, ?_⟩
  rw [cons_append, hstrip, ← cons_append]
  obtain ⟨rfl, rfl⟩ | ⟨e, text, rfl, he, htext⟩ := ht
  · exact ⟨_, _, by rw [append_nil, splitExponent_plain hmantissa], rfl, splitPoint_whole hw⟩
  · exact ⟨_, _, splitExponent_scientific hmantissa he, htext, splitPoint_whole hw⟩

theorem Reads.unique {text : Text} (h : text.Reads negative whole fractional exponent)
    (h' : text.Reads negative' whole' fractional' exponent') :
    negative = negative' ∧ whole = whole' ∧ exponent = exponent' := by
  obtain ⟨rfl, m, e, hs, he, hp⟩ := h
  obtain ⟨rfl, m', e', hs', he', hp'⟩ := h'
  obtain ⟨rfl, rfl⟩ := Prod.mk.inj (hs.symm.trans hs')
  exact ⟨rfl, (Prod.mk.inj (hp.symm.trans hp')).1, Except.ok.inj (he.symm.trans he')⟩

end Text

-- Where a number stands in the order. NaN stands nowhere.
def Decimal128.rank : Decimal128 → Option (ℤ × ℚ)
  | finite d => some (0, d.value)
  | infinity negative => some (if negative then -1 else 1, 0)
  | nan => none

def Decimal128.byRank (a b : Decimal128) : Option Ordering :=
  match a.rank, b.rank with
  | some (i, x), some (j, y) => some ((compare i j).then (compare x y))
  | _, _ => none

theorem Decimal128.byRank_comm {a b : Decimal128} (h : a.byRank b = some .eq) : b.byRank a = some .eq := by
  grind [byRank]

theorem Decimal128.byRank_trans {a b c : Decimal128} (h : a.byRank b = some .eq) (h' : b.byRank c = some .eq) :
    a.byRank c = some .eq := by
  grind [byRank]

open Classical in
-- Decimals as their digits with an exponent, and some way to read them back.
noncomputable instance : DecimalLib where
  toText
    | .finite d => Text.sign d.negative ++ (digitsOf d.coefficient ++ 'E'.toUInt8 :: Text.ofInt d.exponent)
    | .infinity negative => Text.sign negative ++ "Infinity".toUTF8.data.toList
    | .nan => "NaN".toUTF8.data.toList
  partialCmp := Decimal128.byRank
  fromStr text :=
    if h : ∃ d : FiniteDecimal, ∃ negative whole exponent, text.Reads negative whole [] exponent ∧
        d.value = (if negative then -1 else 1) * ofDigits whole * 10 ^ exponent then .ok (.finite h.choose)
    else .error "invalid decimal"
  toText_finite d := by
    refine ⟨0, digitsOf d.coefficient, [], d.exponent, ?_, by simp, by simp, by decide⟩
    exact .of_digits d.negative (digitsOf_ne_nil _) (fun _ hb => isDigit_of_mem_digitsOf hb)
      (.inr ⟨_, _, rfl, rfl, Text.parseInt_ofInt _⟩)
  fromStr_exact d hr _ _ hv := by
    have h : ∃ d : FiniteDecimal, ∃ negative whole exponent, Text.Reads _ negative whole [] exponent ∧
        d.value = (if negative then -1 else 1) * ofDigits whole * 10 ^ exponent := ⟨d, _, _, _, hr, hv⟩
    obtain ⟨negative, whole, exponent, hr', hv'⟩ := h.choose_spec
    obtain ⟨rfl, rfl, rfl⟩ := hr.unique hr'
    exact ⟨h.choose, dif_pos h, hv'.trans hv.symm⟩
  partialCmp_finite a b := by simp [Decimal128.byRank, Decimal128.rank]
  partialCmp_comm := Decimal128.byRank_comm
  partialCmp_trans := Decimal128.byRank_trans

end Linkrs
