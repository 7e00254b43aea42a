import Mathlib.Algebra.Order.Ring.Nat
import Mathlib.Data.List.Basic

namespace Bytes

open List

-- The `w` low-order bytes of `n`, least significant first.
def le : ℕ → ℕ → List UInt8
  | 0, _ => []
  | w + 1, n => UInt8.ofNat n :: le w (n / 256)

def ofLe : List UInt8 → ℕ
  | [] => 0
  | b :: bs => b.toNat + 256 * ofLe bs

@[simp]
theorem length_le (w n : ℕ) : (le w n).length = w := by
  induction w generalizing n with
  | zero => rfl
  | succ w ind => simp [le, ind]

-- The bytes hold a number up to multiples of `256 ^ w`.
theorem ofLe_le_mod (w n : ℕ) : ofLe (le w n) = n % 256 ^ w := by
  induction w generalizing n with
  | zero => simp [le, ofLe, Nat.mod_one]
  | succ w ind =>
    rw [le, ofLe, ind, UInt8.toNat_ofNat', Nat.pow_succ (n := 256), Nat.mul_comm (256 ^ w), Nat.mod_mul]

theorem ofLe_le (h : n < 256 ^ w) : ofLe (le w n) = n := by
  rw [ofLe_le_mod, Nat.mod_eq_of_lt h]

-- What `set_len` makes of a file: cut off, or filled up with zeros.
def setLen (file : List UInt8) (n : ℕ) : List UInt8 :=
  file.take n ++ List.replicate (n - file.length) 0

def writeAt (file : List UInt8) (position : ℕ) (data : List UInt8) : List UInt8 :=
  file.take position ++ data ++ file.drop (position + data.length)

theorem setLen_append_zeros (xs : List UInt8) (h : xs.length ≤ n) :
    setLen (xs ++ List.replicate k 0) n = xs ++ List.replicate (n - xs.length) 0 := by
  have ht : (xs ++ List.replicate k 0).take n = xs ++ List.replicate (min (n - xs.length) k) 0 := by
    rw [take_append, take_of_length_le h, take_replicate]
  rw [setLen, ht, append_assoc, replicate_append_replicate]
  simp only [length_append, length_replicate]
  congr 2
  omega

-- Data written where the zeros begin takes their place.
theorem writeAt_append_zeros (xs data : List UInt8) (k : ℕ) :
    writeAt (xs ++ List.replicate k 0) xs.length data = xs ++ data ++ List.replicate (k - data.length) 0 := by
  simp [writeAt, drop_append]

theorem writeAt_setLen_nil (data : List UInt8) (n : ℕ) :
    writeAt (setLen [] n) 0 data = data ++ List.replicate (n - data.length) 0 := by
  simp [writeAt, setLen]

-- Seven bits a byte, least significant first, with the top bit set on all bytes but the last.
-- `fuel` bounds the number of further bytes.
def varintAux : ℕ → ℕ → List UInt8
  | 0, n => [UInt8.ofNat n]
  | fuel + 1, n =>
    if n < 128 then
      [UInt8.ofNat n]
    else
      UInt8.ofNat (n % 128 + 128) :: varintAux fuel (n / 128)

def varint (n : ℕ) : List UInt8 :=
  varintAux n n

-- The number at the front and the bytes behind it.
def takeVarint : List UInt8 → Option (ℕ × List UInt8)
  | [] => none
  | b :: bs =>
    if b.toNat < 128 then
      some (b.toNat, bs)
    else
      (takeVarint bs).map fun (n, rest) => (b.toNat - 128 + 128 * n, rest)

theorem takeVarint_varintAux (fuel n : ℕ) (bs : List UInt8) (h : n < 128 * 128 ^ fuel) :
    takeVarint (varintAux fuel n ++ bs) = some (n, bs) := by
  induction fuel generalizing n with
  | zero =>
    have hn : n % 256 = n := Nat.mod_eq_of_lt (by omega)
    simp [varintAux, takeVarint, hn]
    omega
  | succ fuel ind =>
    simp only [varintAux]
    split
    case isTrue hn =>
      have hm : n % 256 = n := Nat.mod_eq_of_lt (by omega)
      simp [takeVarint, hm, hn]
    case isFalse hn =>
      have hd : n / 128 < 128 * 128 ^ fuel := by
        omega
      have hm : (n % 128 + 128) % 256 = n % 128 + 128 := Nat.mod_eq_of_lt (by omega)
      simp only [cons_append, takeVarint, UInt8.toNat_ofNat', hm, ind _ hd, Option.map_some]
      rw [if_neg (by omega)]
      simp only [Option.some.injEq, Prod.mk.injEq, and_true]
      omega

theorem takeVarint_varint (n : ℕ) (bs : List UInt8) : takeVarint (varint n ++ bs) = some (n, bs) := by
  apply takeVarint_varintAux
  have h : n < 128 ^ n := Nat.lt_pow_self (by decide)
  omega

theorem takeVarint_varintAux_truncated
    (hp : part <+: varintAux fuel n) (hn : part ≠ varintAux fuel n) : takeVarint part = none := by
  induction fuel generalizing n part with
  | zero =>
    cases part with
    | nil => rfl
    | cons b bs =>
      simp_all [varintAux]
  | succ fuel ind =>
    simp only [varintAux] at hp hn
    cases part with
    | nil => rfl
    | cons b bs =>
      split at hp
      case isTrue hs =>
        simp_all
      case isFalse hs =>
        have ⟨hb, hp⟩ := cons_prefix_cons.mp hp
        have hm : (n % 128 + 128) % 256 = n % 128 + 128 := Nat.mod_eq_of_lt (by omega)
        have hlarge : ¬ b.toNat < 128 := by
          rw [hb, UInt8.toNat_ofNat', hm]
          omega
        simp only [if_neg hs, ne_eq, List.cons.injEq, hb, true_and] at hn
        simp [takeVarint, hlarge, ind hp hn]

theorem takeVarint_truncated (hp : part <+: varint n) (hn : part ≠ varint n) : takeVarint part = none :=
  takeVarint_varintAux_truncated hp hn

end Bytes
