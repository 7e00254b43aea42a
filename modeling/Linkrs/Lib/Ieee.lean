import Mathlib.Algebra.Order.Ring.Nat

namespace Ieee

-- A binary interchange format: a sign, `exponent` bits and `mantissa` bits, most significant first.
structure Format where
  mantissa : ℕ
  exponent : ℕ
  deriving DecidableEq, Repr

def binary32 : Format := ⟨23, 8⟩
def binary64 : Format := ⟨52, 11⟩

namespace Format

variable (f : Format)

def bias : ℕ :=
  2 ^ (f.exponent - 1) - 1

def magnitude (bits : ℕ) : ℕ :=
  bits % 2 ^ (f.mantissa + f.exponent)

def negative (bits : ℕ) : Bool :=
  bits.testBit (f.mantissa + f.exponent)

def infinity : ℕ :=
  (2 ^ f.exponent - 1) * 2 ^ f.mantissa

def isNaN (bits : ℕ) : Bool :=
  f.infinity < f.magnitude bits

-- Numbers other than NaN lie in the order of these keys, the two zeros on the same one.
def key (bits : ℕ) : ℤ :=
  if f.negative bits then -(f.magnitude bits : ℤ) else f.magnitude bits

def partialCmp (a b : ℕ) : Option Ordering :=
  if f.isNaN a || f.isNaN b then none else some (compare (f.key a) (f.key b))

def eq (a b : ℕ) : Bool :=
  f.partialCmp a b = some .eq

-- Equality under which NaN is equal to itself.
def same (a b : ℕ) : Bool :=
  f.eq a b || (f.isNaN a && f.isNaN b)

-- A positive number, as the leading one followed by the mantissa: rounded to the nearest such
-- number, a tie to the even one.
def significand (n : ℕ) : ℕ :=
  let e := n.log2
  if e ≤ f.mantissa then n * 2 ^ (f.mantissa - e)
  else
    let unit := 2 ^ (e - f.mantissa)
    let floor := n / unit
    if 2 * (n % unit) < unit ∨ 2 * (n % unit) = unit ∧ floor % 2 = 0 then floor else floor + 1

-- The addition carries a significand that was rounded up to a power of two into the exponent.
def ofNat (n : ℕ) : ℕ :=
  if n = 0 then 0 else (n.log2 + f.bias - 1) * 2 ^ f.mantissa + f.significand n

def ofInt (n : ℤ) : ℕ :=
  (if n < 0 then 2 ^ (f.mantissa + f.exponent) else 0) + f.ofNat n.natAbs

theorem eq_iff : f.eq a b ↔ !f.isNaN a ∧ !f.isNaN b ∧ f.key a = f.key b := by
  simp only [eq, partialCmp]
  split
  case isTrue h => grind
  case isFalse h => simp_all

theorem eq_comm (a b : ℕ) : f.eq a b = f.eq b a := by
  rw [Bool.eq_iff_iff, f.eq_iff, f.eq_iff]
  grind

theorem same_comm (a b : ℕ) : f.same a b = f.same b a := by
  rw [same, same, f.eq_comm, Bool.and_comm]

theorem same_trans (hab : f.same a b) (hbc : f.same b c) : f.same a c := by
  simp only [same, Bool.or_eq_true, Bool.and_eq_true, f.eq_iff] at hab hbc ⊢
  grind

end Format

def widen (bits : ℕ) : ℕ :=
  let sign := if binary32.negative bits then 2 ^ 63 else 0
  let exponent := binary32.magnitude bits / 2 ^ 23
  let mantissa : ℕ := bits % 2 ^ 23
  sign +
    if exponent = 255 then 2047 * 2 ^ 52 + mantissa * 2 ^ 29
    else if exponent ≠ 0 then (exponent + 1023 - 127) * 2 ^ 52 + mantissa * 2 ^ 29
    else if mantissa = 0 then 0
    -- a subnormal number has a leading one in the wide format
    else (mantissa.log2 + 1023 - 149 - 1) * 2 ^ 52 + mantissa * 2 ^ (52 - mantissa.log2)

end Ieee
