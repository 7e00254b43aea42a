import Mathlib.Data.List.Forall2
import Mathlib.Tactic.Linarith
import Mathlib.Tactic.Ring

-- The lexicographic order of sequences that are put together from parts.
namespace KeyOrder

open List Ordering

variable {A β : Type} [Ord β]

@[simp]
theorem compare_cons (x y : β) (xs ys : List β) :
    compare (x :: xs) (y :: ys) = (compare x y).then (compare xs ys) :=
  List.compareLex_cons_cons

@[simp]
theorem compare_nil_cons (y : β) (ys : List β) : compare [] (y :: ys) = .lt := rfl

@[simp]
theorem compare_cons_nil (x : β) (xs : List β) : compare (x :: xs) [] = .gt := rfl

@[simp]
theorem compare_nil : compare ([] : List β) [] = .eq := rfl

-- The order of two sequences that start with these parts. What follows the parts decides only if
-- they do not.
def Settles (o : Ordering) (xs ys : List β) : Prop :=
  ∀ s t, compare (xs ++ s) (ys ++ t) = o.then (compare s t)

namespace Settles

variable {o o' : Ordering} {xs xs' ys ys' : List β}

theorem compare_eq (h : Settles o xs ys) : compare xs ys = o := by
  have h := h [] []
  rwa [append_nil, append_nil, compare_nil, then_eq] at h

theorem nil : Settles .eq ([] : List β) [] :=
  fun _ _ => rfl

theorem append (h : Settles o xs ys) (h' : Settles o' xs' ys') : Settles (o.then o') (xs ++ xs') (ys ++ ys') := by
  intro s t
  rw [append_assoc, append_assoc, h, h', then_assoc]

theorem of_length (h : xs.length = ys.length) : Settles (compare xs ys) xs ys := by
  induction xs generalizing ys with
  | nil =>
    obtain rfl := length_eq_zero_iff.mp h.symm
    exact nil
  | cons x xs ind =>
    cases ys with
    | nil => simp at h
    | cons y ys =>
      intro s t
      rw [cons_append, cons_append, compare_cons, compare_cons, ind (by simpa using h), then_assoc]

theorem of_compare (hl : xs.length = ys.length) (h : compare xs ys = o) : Settles o xs ys :=
  h ▸ of_length hl

theorem singleton (x y : β) : Settles (compare x y) [x] [y] := by
  intro s t
  rw [singleton_append, singleton_append, compare_cons]

theorem cons (x : β) [Std.ReflOrd β] (h : Settles o xs ys) : Settles o (x :: xs) (x :: ys) := by
  intro s t
  rw [cons_append, cons_append, compare_cons, Std.compare_self, eq_then, h]

-- Sequences of any length, each element under a code of its own and the end marked. The direction of
-- the order is kept or turned around.
theorem terminated [Ord A] {f : A → List β} {p q : List A}
    (hσ : σ = id ∨ σ = Ordering.swap) (hf : ∀ a ∈ p, ∀ b ∈ q, Settles (σ (compare a b)) (f a) (f b))
    (hlt : ∀ b ∈ q, ∀ s t, compare (e ++ s) (f b ++ t) = σ .lt)
    (hgt : ∀ a ∈ p, ∀ s t, compare (f a ++ s) (e ++ t) = σ .gt) (he : Settles .eq e e) :
    Settles (σ (compare p q)) (p.flatMap f ++ e) (q.flatMap f ++ e) := by
  have heq : σ .eq = .eq := by obtain rfl | rfl := hσ <;> rfl
  have hthen (o o' : Ordering) : σ (o.then o') = (σ o).then (σ o') := by
    obtain rfl | rfl := hσ
    · rfl
    · exact swap_then o o'
  have hdecided (o o' : Ordering) (ho : o ≠ .eq) : (σ o).then o' = σ o := by
    obtain rfl | rfl := hσ <;> cases o <;> simp_all
  induction p generalizing q with
  | nil =>
    cases q with
    | nil => simpa [heq] using he
    | cons b q =>
      intro s t
      rw [compare_nil_cons, flatMap_nil, nil_append, flatMap_cons, append_assoc, append_assoc,
        hlt b mem_cons_self, hdecided _ _ (by simp)]
  | cons a p ind =>
    have ⟨hga, hgp⟩ := forall_mem_cons.mp hgt
    cases q with
    | nil =>
      intro s t
      rw [compare_cons_nil, flatMap_nil, nil_append, flatMap_cons, append_assoc, append_assoc,
        hga, hdecided _ _ (by simp)]
    | cons b q =>
      have ⟨hlb, hlq⟩ := forall_mem_cons.mp hlt
      rw [compare_cons, hthen, flatMap_cons, flatMap_cons, append_assoc, append_assoc]
      refine (hf a mem_cons_self b mem_cons_self).append (ind (fun a' ha' b' hb' => ?_) hlq hgp)
      exact hf a' (mem_cons_of_mem a ha') b' (mem_cons_of_mem b hb')

-- Sequences of any length whose end is not marked. The end of the sequence is the end of all.
theorem compare_flatMap {f : A → List β} {cmp : A → A → Ordering} (hf : ∀ a b, Settles (cmp a b) (f a) (f b))
    (hne : ∀ a, f a ≠ []) (as bs : List A) : compare (as.flatMap f) (bs.flatMap f) = List.compareLex cmp as bs := by
  induction as generalizing bs with
  | nil =>
    cases bs with
    | nil => rfl
    | cons b bs =>
      obtain ⟨y, ys, hb⟩ := exists_cons_of_ne_nil (hne b)
      rw [flatMap_nil, flatMap_cons, hb, cons_append, compare_nil_cons, List.compareLex_nil_cons]
  | cons a as ind =>
    cases bs with
    | nil =>
      obtain ⟨x, xs, ha⟩ := exists_cons_of_ne_nil (hne a)
      rw [flatMap_nil, flatMap_cons, ha, cons_append, compare_cons_nil, List.compareLex_cons_nil]
    | cons b bs => rw [flatMap_cons, flatMap_cons, hf, ind, List.compareLex_cons_cons]

end Settles

section

variable {A B C : Type} [LinearOrder A] [LinearOrder B] [LinearOrder C] {a a' : A} {b b' : B} {x y : C}

-- A comparison that goes by the first parts, and by the second ones where these are the same.
theorem compare_lex (hlt : a < a' → x < y) (hgt : a' < a → y < x) (heq : a = a' → compare x y = compare b b') :
    compare x y = (compare a a').then (compare b b') := by
  obtain h | h | h := lt_trichotomy a a'
  · rw [compare_lt_iff_lt.mpr h, compare_lt_iff_lt.mpr (hlt h), lt_then]
  · rw [heq h, compare_eq_iff_eq.mpr h, eq_then]
  · rw [compare_gt_iff_gt.mpr h, compare_gt_iff_gt.mpr (hgt h), gt_then]

theorem compare_congr (hlt : a < a' → x < y) (hgt : a' < a → y < x) (heq : a = a' → x = y) :
    compare x y = compare a a' := by
  have heq (h : a = a') : compare x y = compare () () := compare_eq_iff_eq.mpr (heq h)
  rw [compare_lex hlt hgt heq]
  exact then_eq

theorem compare_swap : (compare a a').swap = compare a' a :=
  Std.OrientedOrd.eq_swap.symm

end

theorem compare_mul_add {k a b a' b' : ℕ} (hb : b < k) (hb' : b' < k) :
    compare (a * k + b) (a' * k + b') = (compare a a').then (compare b b') := by
  have hlt {a b a' b' : ℕ} (hb : b < k) (h : a < a') : a * k + b < a' * k + b' := by
    have := Nat.mul_le_mul_right k (show a + 1 ≤ a' from h)
    rw [Nat.add_mul] at this
    omega
  refine compare_lex (hlt hb) (hlt hb') fun h => ?_
  rw [h]
  exact compare_congr (by omega) (by omega) (by omega)

theorem compare_sub {k m n : ℕ} (hm : m ≤ k) (hn : n ≤ k) : compare (k - m) (k - n) = (compare m n).swap := by
  rw [compare_swap]
  exact compare_congr (by omega) (by omega) (by omega)

theorem compare_div_mod (hk : 0 < k) (m n : ℕ) :
    compare m n = (compare (m / k) (n / k)).then (compare (m % k) (n % k)) := by
  rw [← compare_mul_add (Nat.mod_lt m hk) (Nat.mod_lt n hk), Nat.div_add_mod', Nat.div_add_mod']

end KeyOrder

namespace Bytes

open KeyOrder

-- The `w` low-order bytes of `n`, most significant first.
def be : ℕ → ℕ → List UInt8
  | 0, _ => []
  | w + 1, n => UInt8.ofNat (n / 256 ^ w) :: be w n

def ofBe : List UInt8 → ℕ
  | [] => 0
  | b :: bs => b.toNat * 256 ^ bs.length + ofBe bs

@[simp]
theorem length_be (w n : ℕ) : (be w n).length = w := by
  induction w with
  | zero => rfl
  | succ w ind => simp [be, ind]

theorem ofBe_be_mod (w n : ℕ) : ofBe (be w n) = n % 256 ^ w := by
  induction w with
  | zero => simp [be, ofBe, Nat.mod_one]
  | succ w ind =>
    rw [be, ofBe, ind, length_be, UInt8.toNat_ofNat', Nat.pow_succ 256, Nat.mod_mul (x := n), Nat.mul_comm (256 ^ w), Nat.add_comm]

theorem ofBe_be (h : n < 256 ^ w) : ofBe (be w n) = n := by
  rw [ofBe_be_mod, Nat.mod_eq_of_lt h]

theorem ofBe_lt (bs : List UInt8) : ofBe bs < 256 ^ bs.length := by
  induction bs with
  | nil => simp [ofBe]
  | cons b bs ind =>
    have := b.toNat_lt
    rw [ofBe, List.length_cons, Nat.pow_succ]
    nlinarith

theorem compare_ofBe (h : xs.length = ys.length) : compare xs ys = compare (ofBe xs) (ofBe ys) := by
  induction xs generalizing ys with
  | nil =>
    obtain rfl := List.length_eq_zero_iff.mp h.symm
    rfl
  | cons x xs ind =>
    cases ys with
    | nil => simp at h
    | cons y ys =>
      have h : xs.length = ys.length := by simpa using h
      have hx := ofBe_lt xs
      have hy := ofBe_lt ys
      rw [← h] at hy
      rw [compare_cons, ind h, ofBe, ofBe, ← h, compare_mul_add hx hy, UInt8.compare_eq_toNat_compare_toNat]

theorem settles_be (hm : m < 256 ^ w) (hn : n < 256 ^ w) : Settles (compare m n) (be w m) (be w n) := by
  have hlen : (be w m).length = (be w n).length := by simp
  have h := Settles.of_length hlen
  rwa [compare_ofBe hlen, ofBe_be hm, ofBe_be hn] at h

-- The `w + 1` bits of a signed number with the top bit turned over.
def flipSign (w : ℕ) (i : ℤ) : ℕ :=
  (i % 2 ^ (w + 1)).toNat ^^^ 2 ^ w

def ofFlipped (w : ℕ) (n : ℕ) : ℤ :=
  let bits := n ^^^ 2 ^ w
  if bits < 2 ^ w then bits else bits - 2 ^ (w + 1)

theorem xor_two_pow (h : n < 2 ^ w) : n ^^^ 2 ^ w = n + 2 ^ w := by
  apply Nat.eq_of_testBit_eq
  intro i
  rw [Nat.testBit_xor, Nat.testBit_two_pow, Nat.add_comm]
  obtain hi | rfl | hi := lt_trichotomy i w
  · rw [Nat.testBit_two_pow_add_gt hi]
    simp [hi.ne']
  · rw [Nat.testBit_two_pow_add_eq]
    simp
  · have hn : n < 2 ^ i := h.trans (Nat.pow_lt_pow_right (by decide) hi)
    have hsum : 2 ^ w + n < 2 ^ i := by
      have := Nat.pow_le_pow_right (show 0 < 2 by decide) (show w + 1 ≤ i from hi)
      omega
    rw [Nat.testBit_lt_two_pow hn, Nat.testBit_lt_two_pow hsum]
    simp [hi.ne]

theorem flipSign_eq (hl : -2 ^ w ≤ i) (hu : i < 2 ^ w) : (flipSign w i : ℤ) = i + 2 ^ w := by
  unfold flipSign
  obtain hi | hi := lt_or_ge i 0
  · have hmod : (i % 2 ^ (w + 1)).toNat = (i + 2 ^ w).toNat + 2 ^ w := by
      have : i % 2 ^ (w + 1) = i + 2 ^ (w + 1) := by
        rw [Int.emod_eq_add_self_emod, Int.emod_eq_of_lt] <;> omega
      zify
      omega
    have hlt : (i + 2 ^ w).toNat < 2 ^ w := by
      zify
      omega
    rw [hmod, ← xor_two_pow hlt, Nat.xor_assoc, Nat.xor_self, Nat.xor_zero]
    omega
  · rw [Int.emod_eq_of_lt hi (by omega), xor_two_pow (by zify; omega)]
    push_cast
    omega

theorem flipSign_lt (hl : -2 ^ w ≤ i) (hu : i < 2 ^ w) : flipSign w i < 2 ^ (w + 1) := by
  have h := flipSign_eq hl hu
  zify
  omega

theorem ofFlipped_flipSign (hl : -2 ^ w ≤ i) (hu : i < 2 ^ w) : ofFlipped w (flipSign w i) = i := by
  have hcast : ((2 ^ w : ℕ) : ℤ) = 2 ^ w := by push_cast; rfl
  unfold ofFlipped flipSign
  rw [Nat.xor_assoc, Nat.xor_self, Nat.xor_zero]
  dsimp only
  obtain hi | hi := lt_or_ge i 0
  · have : i % 2 ^ (w + 1) = i + 2 ^ (w + 1) := by
      rw [Int.emod_eq_add_self_emod, Int.emod_eq_of_lt] <;> omega
    split <;> omega
  · rw [Int.emod_eq_of_lt hi (by omega)]
    split <;> omega

theorem compare_flipSign (hi : -2 ^ w ≤ i) (hi' : i < 2 ^ w) (hj : -2 ^ w ≤ j) (hj' : j < 2 ^ w) :
    compare (flipSign w i) (flipSign w j) = compare i j := by
  have hi := flipSign_eq hi hi'
  have hj := flipSign_eq hj hj'
  exact KeyOrder.compare_congr (by omega) (by omega) (by omega)

end Bytes
