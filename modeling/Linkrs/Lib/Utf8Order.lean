import Linkrs.Lib.KeyOrder
import Mathlib.Data.String.Basic

-- Texts are ordered like their bytes in UTF-8.
namespace KeyOrder

theorem compare_ofNat_add (hm : m + k < 256) (hn : n + k < 256) :
    compare (UInt8.ofNat (m + k)) (UInt8.ofNat (n + k)) = compare m n := by
  rw [UInt8.compare_eq_toNat_compare_toNat, UInt8.toNat_ofNat_of_lt' hm, UInt8.toNat_ofNat_of_lt' hn]
  exact compare_congr (by omega) (by omega) (by omega)

-- The range of characters that have as many bytes.
def utf8Class (v : ℕ) : ℕ :=
  if v ≤ 127 then 0 else if v ≤ 2047 then 1 else if v ≤ 65535 then 2 else 3

theorem compare_of_toNat_lt {x y : UInt8} (h : x.toNat < y.toNat) : compare x y = .lt ∧ compare y x = .gt := by
  rw [UInt8.compare_eq_toNat_compare_toNat, UInt8.compare_eq_toNat_compare_toNat, compare_lt_iff_lt, compare_gt_iff_gt]
  exact ⟨h, h⟩

theorem settles_of_head_lt {x y : UInt8} (h : x.toNat < y.toNat) :
    Settles .lt (x :: xs) (y :: ys) ∧ Settles .gt (y :: ys) (x :: xs) := by
  have ⟨hlt, hgt⟩ := compare_of_toNat_lt h
  constructor <;> intro s t <;> simp only [List.cons_append, compare_cons, hlt, hgt] <;> rfl

theorem compare_char (c d : Char) : compare c d = compare c.val.toNat d.val.toNat := by
  have hlt {c d : Char} (h : c < d) : c.val.toNat < d.val.toNat := h
  exact (compare_congr hlt hlt fun h => by rw [h]).symm

-- A character with more bytes has a larger first byte.
theorem settles_of_utf8Class_lt (h : utf8Class c.val.toNat < utf8Class d.val.toNat) :
    Settles .lt (String.utf8EncodeChar c) (String.utf8EncodeChar d) ∧ Settles .gt (String.utf8EncodeChar d) (String.utf8EncodeChar c) := by
  unfold utf8Class at h
  rw [String.utf8EncodeChar.eq_1 c, String.utf8EncodeChar.eq_1 d]
  split_ifs at h ⊢
  all_goals
    refine settles_of_head_lt ?_
    simp only [UInt8.toNat_ofNat', Nat.reducePow]
    omega

theorem settles_of_utf8Class_eq (h : utf8Class c.val.toNat = utf8Class d.val.toNat) :
    Settles (compare c d) (String.utf8EncodeChar c) (String.utf8EncodeChar d) := by
  have hc : c.val.toNat < 0x110000 := by obtain h | h := c.valid <;> omega
  have hd : d.val.toNat < 0x110000 := by obtain h | h := d.valid <;> omega
  unfold utf8Class at h
  rw [String.utf8EncodeChar.eq_1 c, String.utf8EncodeChar.eq_1 d, compare_char]
  generalize c.val.toNat = v at *
  generalize d.val.toNat = w at *
  -- The digits of a character to the base 64 are spread over its bytes.
  have h₁ := compare_div_mod (show 0 < 64 by decide) v w
  have h₂ := compare_div_mod (show 0 < 64 by decide) (v / 64) (w / 64)
  have h₃ := compare_div_mod (show 0 < 64 by decide) (v / 64 / 64) (w / 64 / 64)
  split_ifs at h ⊢
  all_goals try omega
  all_goals refine .of_compare (by simp only [List.length_cons, List.length_nil]) ?_
  all_goals simp only [compare_cons, compare_nil, Ordering.then_eq]
  · exact compare_ofNat_add (k := 0) (by omega) (by omega)
  · rw [compare_ofNat_add (by omega) (by omega), compare_ofNat_add (by omega) (by omega), h₁,
      Nat.mod_eq_of_lt (by omega), Nat.mod_eq_of_lt (by omega)]
  · rw [compare_ofNat_add (by omega) (by omega), compare_ofNat_add (by omega) (by omega),
      compare_ofNat_add (by omega) (by omega), h₁, h₂, Ordering.then_assoc, Nat.div_div_eq_div_mul, Nat.div_div_eq_div_mul,
      Nat.mod_eq_of_lt (b := 16) (by omega), Nat.mod_eq_of_lt (b := 16) (by omega)]
  · rw [compare_ofNat_add (by omega) (by omega), compare_ofNat_add (by omega) (by omega),
      compare_ofNat_add (by omega) (by omega), compare_ofNat_add (by omega) (by omega), h₁, h₂, h₃,
      Ordering.then_assoc, Ordering.then_assoc]
    simp only [Nat.div_div_eq_div_mul, Nat.reduceMul]
    rw [Nat.mod_eq_of_lt (b := 8) (by omega), Nat.mod_eq_of_lt (b := 8) (by omega)]

theorem settles_utf8EncodeChar (c d : Char) : Settles (compare c d) (String.utf8EncodeChar c) (String.utf8EncodeChar d) := by
  have hlt {v w : ℕ} (h : utf8Class v < utf8Class w) : v < w := by
    unfold utf8Class at h
    split_ifs at h <;> omega
  obtain h | h | h := lt_trichotomy (utf8Class c.val.toNat) (utf8Class d.val.toNat)
  · rw [compare_char, compare_lt_iff_lt.mpr (hlt h)]
    exact (settles_of_utf8Class_lt h).1
  · exact settles_of_utf8Class_eq h
  · rw [compare_char, compare_gt_iff_gt.mpr (hlt h)]
    exact (settles_of_utf8Class_lt h).2

theorem compare_eq_lt_of_lt {as bs : List Char} (h : as < bs) : compare as bs = .lt := by
  induction as generalizing bs with
  | nil =>
    cases bs with
    | nil => simp at h
    | cons b bs => rfl
  | cons a as ind =>
    cases bs with
    | nil => simp at h
    | cons b bs =>
      rw [compare_cons]
      obtain ha | ⟨rfl, has⟩ := List.cons_lt_cons_iff.mp h
      · rw [compare_lt_iff_lt.mpr ha]
        rfl
      · rw [Std.compare_self, ind has]
        rfl

theorem compare_toList (s t : String) : compare s t = compare s.toList t.toList := by
  obtain h | rfl | h := lt_trichotomy s t
  · rw [compare_lt_iff_lt.mpr h, compare_eq_lt_of_lt (String.lt_iff_toList_lt.mp h)]
  · rw [compare_eq_iff_eq.mpr rfl, Std.compare_self]
  · rw [compare_gt_iff_gt.mpr h, Std.OrientedOrd.eq_swap, compare_eq_lt_of_lt (String.lt_iff_toList_lt.mp h)]
    rfl

theorem toUTF8_eq_flatMap (s : String) : s.toUTF8.data.toList = s.toList.flatMap String.utf8EncodeChar := by
  have h : s.toByteArray = s.toList.utf8Encode := by rw [← String.toByteArray_ofList, String.ofList_toList]
  rw [String.toUTF8_eq_toByteArray, h, List.utf8Encode]
  simp

theorem compare_toUTF8 (s t : String) : compare s t = compare s.toUTF8.data.toList t.toUTF8.data.toList := by
  rw [toUTF8_eq_flatMap, toUTF8_eq_flatMap,
    Settles.compare_flatMap settles_utf8EncodeChar fun _ => String.utf8EncodeChar_ne_nil]
  exact compare_toList s t

end KeyOrder
