import Linkrs.Core.OrderedCodec
import Linkrs.Lib.Except

namespace Linkrs.OrderedCodec

open KeyOrder List

theorem compare_zero {a : UInt8} (h : a ≠ 0) : compare 0 a = .lt ∧ compare a 0 = .gt := by
  refine compare_of_toNat_lt (Nat.pos_of_ne_zero fun ha => h ?_)
  exact UInt8.toNat_inj.mp ha

theorem settles_escape (a b : UInt8) : Settles (compare a b) (escape a) (escape b) := by
  unfold escape
  split_ifs with ha hb hb
  · subst ha hb
    exact .of_compare rfl rfl
  · subst ha
    intro s t
    simp [(compare_zero hb).1]
  · subst hb
    intro s t
    simp [(compare_zero ha).2]
  · exact .singleton a b

theorem compare_terminator (a : UInt8) (s t : List UInt8) :
    compare ([0, 0] ++ s) (escape a ++ t) = .lt ∧ compare (escape a ++ t) ([0, 0] ++ s) = .gt := by
  have hlt : compare ([0, 0] ++ s) (escape a ++ t) = .lt := by
    unfold escape
    split_ifs with h
    · rfl
    · simp [(compare_zero h).1]
  exact ⟨hlt, by rw [Std.OrientedOrd.eq_swap, hlt]; rfl⟩

theorem settles_encodeEscapedBytes (xs ys : List UInt8) :
    Settles (compare xs ys) (encodeEscapedBytes xs) (encodeEscapedBytes ys) :=
  .terminated (.inl rfl) (fun a _ b _ => settles_escape a b) (fun b _ s t => (compare_terminator b s t).1)
    (fun a _ s t => (compare_terminator a t s).2) (.of_compare rfl rfl)

theorem encodeEscapedBytes_cons (x : UInt8) (xs : List UInt8) :
    encodeEscapedBytes (x :: xs) = escape x ++ encodeEscapedBytes xs := by
  rw [encodeEscapedBytes, flatMap_cons, append_assoc, encodeEscapedBytes]

theorem unescape_encodeEscapedBytes (data rest : List UInt8) :
    unescape (encodeEscapedBytes data ++ rest) = .ok (data, (encodeEscapedBytes data).length) := by
  induction data with
  | nil => simp [encodeEscapedBytes, unescape]
  | cons byte data ind =>
    rw [encodeEscapedBytes_cons, append_assoc]
    by_cases h : byte = 0
    · subst h
      simp only [escape, if_true, cons_append, nil_append, unescape, ind]
      simp [bind, Except.bind, pure, Except.pure]
    · rw [escape, if_neg h, singleton_append, singleton_append, unescape.eq_def]
      simp only [ne_eq, h, not_false_eq_true, if_true, ind]
      rfl

variable {x : UInt8} {k : ℕ} {key : List UInt8}

theorem prefixUpperBound_append (hx : x ≠ 0xFF) (xs : List UInt8) (k : ℕ) :
    prefixUpperBound (xs ++ x :: replicate k 0xFF) = xs ++ (x + 1) :: replicate k 0 := by
  have hinc (ys : List UInt8) : increment (replicate k 0xFF ++ x :: ys) = replicate k 0 ++ (x + 1) :: ys := by
    induction k with
    | zero => simp [increment, hx]
    | succ k ind => simp [replicate_succ, increment, ind]
  rw [prefixUpperBound, reverse_append, reverse_cons, reverse_replicate, append_assoc, singleton_append, hinc]
  simp

theorem prefixUpperBound_replicate (k : ℕ) : prefixUpperBound (replicate k 0xFF) = replicate k 0 := by
  have hinc : increment (replicate k 0xFF) = replicate k 0 := by
    induction k with
    | zero => rfl
    | succ k ind => simp [replicate_succ, increment, ind]
  rw [prefixUpperBound, reverse_replicate, hinc, reverse_replicate]

-- The bound for the data alone.
def Below (data bound key : List UInt8) : Prop :=
  (compare data key).isLE ∧ compare (encodeEscapedBytes key) bound = .lt

theorem below_cons : Below (x :: xs) (escape x ++ bound) key ↔ ∃ key', key = x :: key' ∧ Below xs bound key' := by
  unfold Below
  cases key with
  | nil => simp
  | cons y ys =>
    have hswap : compare x y = (compare y x).swap := Std.OrientedOrd.eq_swap
    rw [encodeEscapedBytes_cons, settles_escape y x, compare_cons, hswap]
    cases h : compare y x with
    | lt =>
      have hne : y ≠ x := by rintro rfl; simp at h
      simp [hne]
    | gt =>
      have hne : y ≠ x := by rintro rfl; simp at h
      simp [hne]
    | eq =>
      obtain rfl := Std.compare_eq_iff_eq.mp h
      simp

theorem replicate_le_iff {ys : List UInt8} : (compare (replicate k 0xFF) ys).isLE ↔ replicate k 0xFF <+: ys := by
  induction k generalizing ys with
  | zero => cases ys <;> simp
  | succ k ind =>
    cases ys with
    | nil => simp [replicate_succ]
    | cons y ys =>
      rw [replicate_succ, compare_cons, cons_prefix_cons, ← ind]
      by_cases h : (0xFF : UInt8) = y
      · simp [← h]
      · have hgt : compare (0xFF : UInt8) y = .gt := by
          have hy := y.toNat_lt
          have hne : y.toNat ≠ 255 := fun h' => h (UInt8.toNat_inj.mp h'.symm)
          rw [UInt8.compare_eq_toNat_compare_toNat, compare_gt_iff_gt]
          simp
          omega
        simp [h, hgt]

-- Only the terminator itself comes before zeros, if there are enough of them.
theorem compare_encodeEscapedBytes_zeros :
    compare (encodeEscapedBytes key) (replicate k 0) = .lt ↔ key = [] ∧ 3 ≤ k := by
  cases key with
  | nil =>
    match k with
    | 0 | 1 | 2 => decide
    | k + 3 => simp [replicate_succ, encodeEscapedBytes]
  | cons y ys =>
    have hgt : compare (encodeEscapedBytes (y :: ys)) (replicate k 0) = .gt := by
      rw [encodeEscapedBytes_cons]
      unfold escape
      split_ifs with hy
      · match k with
        | 0 => rfl
        | 1 => simp [encodeEscapedBytes]
        | k + 2 => rfl
      · match k with
        | 0 => rfl
        | k + 1 =>
          simp [replicate_succ, (compare_zero hy).2]
    simp [hgt]

-- The bound behind the escaped bytes before the last that is not the largest.
def incremented (x : UInt8) (k : ℕ) : List UInt8 :=
  if x = 0 then 0 :: 2 :: replicate k 0 else (x + 1) :: replicate k 0

theorem flatMap_escape_replicate (k : ℕ) : (replicate k (0xFF : UInt8)).flatMap escape = replicate k 0xFF := by
  induction k with
  | zero => rfl
  | succ k ind =>
    rw [replicate_succ, flatMap_cons, ind]
    rfl

theorem prefixUpperBound_escaped (hx : x ≠ 0xFF) (xs : List UInt8) (k : ℕ) :
    prefixUpperBound ((xs ++ x :: replicate k 0xFF).flatMap escape) = xs.flatMap escape ++ incremented x k := by
  rw [flatMap_append, flatMap_cons, flatMap_escape_replicate, incremented, escape]
  split_ifs
  · have h := prefixUpperBound_append (show (1 : UInt8) ≠ 0xFF by decide) (xs.flatMap escape ++ [0]) k
    simpa using h
  · simpa using prefixUpperBound_append hx (xs.flatMap escape) k

theorem below_append :
    Below (xs ++ ys) (xs.flatMap escape ++ bound) key ↔ ∃ key', key = xs ++ key' ∧ Below ys bound key' := by
  induction xs generalizing key with
  | nil => simp
  | cons x xs ind =>
    rw [cons_append, flatMap_cons, append_assoc, below_cons]
    simp only [ind]
    constructor
    · rintro ⟨_, rfl, key', rfl, h⟩
      exact ⟨key', rfl, h⟩
    · rintro ⟨key', rfl, h⟩
      exact ⟨_, rfl, key', rfl, h⟩

theorem below_last (hx : x ≠ 0xFF) : Below (x :: replicate k 0xFF) (incremented x k) key ↔
      x :: replicate k 0xFF <+: key ∨ x ≠ 0 ∧ 3 ≤ k ∧ key = [x + 1] := by
  cases key with
  | nil => simp [Below]
  | cons y ys =>
    have hx' : x.toNat ≠ 255 := fun h => hx (UInt8.toNat_inj.mp h)
    have hsucc : (x + 1).toNat = x.toNat + 1 := by
      have := x.toNat_lt
      simp
      omega
    rw [Below, compare_cons, encodeEscapedBytes_cons, cons_prefix_cons, ← replicate_le_iff]
    by_cases h0 : x = 0
    · subst h0
      by_cases hy : y = 0
      · have hlt : compare (1 : UInt8) 2 = .lt := rfl
        subst hy
        simp [incremented, escape, hlt]
      · simp [incremented, escape, hy, Ne.symm hy, (compare_zero hy).1, (compare_zero hy).2]
    · have hinc : incremented x k = [x + 1] ++ replicate k 0 := if_neg h0
      obtain h | h | h := lt_trichotomy y.toNat x.toNat
      -- A smaller byte is below the lower bound.
      · have hne : y ≠ x + 1 := by rintro rfl; omega
        have hne' : x ≠ y := by rintro rfl; omega
        simp [(compare_of_toNat_lt h).2, hne, hne']
      · obtain rfl := UInt8.toNat_inj.mp h
        have hlt := (compare_of_toNat_lt (x := y) (y := y + 1) (by omega)).1
        have hne : y ≠ y + 1 := fun h => by have := congrArg UInt8.toNat h; omega
        simp [hinc, escape, h0, hlt, hne]
      -- The next byte leaves it to the zeros, a larger one is above the upper bound.
      · have hy0 : y ≠ 0 := by rintro rfl; simp at h
        have hne : x ≠ y := by rintro rfl; omega
        rw [hinc, escape, if_neg hy0]
        by_cases hy : y = x + 1
        · subst hy
          simp [(compare_of_toNat_lt h).1, hne, h0, compare_encodeEscapedBytes_zeros, and_comm]
        · have hgt : (x + 1).toNat < y.toNat := by
            have : y.toNat ≠ (x + 1).toNat := fun h => hy (UInt8.toNat_inj.mp h)
            omega
          simp [(compare_of_toNat_lt hgt).2, hne, hy]

-- What lies between the bounds of a text: that which starts with it, and the text that comes next if
-- three or more of the largest bytes are at the end.
theorem below_iff (hx : x ≠ 0xFF) : Below (xs ++ x :: replicate k 0xFF)
        (prefixUpperBound ((xs ++ x :: replicate k 0xFF).flatMap escape)) key ↔
      xs ++ x :: replicate k 0xFF <+: key ∨ x ≠ 0 ∧ 3 ≤ k ∧ key = xs ++ [x + 1] := by
  rw [prefixUpperBound_escaped hx, below_append]
  simp only [below_last hx]
  constructor
  · rintro ⟨key', rfl, h | ⟨hx, hk, rfl⟩⟩
    · exact .inl ((prefix_append_right_inj xs).mpr h)
    · exact .inr ⟨hx, hk, rfl⟩
  · rintro (⟨rest, rfl⟩ | ⟨hx, hk, rfl⟩)
    · exact ⟨_, append_assoc _ _ _, .inl (prefix_append _ _)⟩
    · exact ⟨_, rfl, .inr ⟨hx, hk, rfl⟩⟩

theorem below_replicate :
    ¬Below (replicate (k + 1) 0xFF) (prefixUpperBound ((replicate (k + 1) 0xFF).flatMap escape)) key := by
  rintro ⟨hle, hlt⟩
  obtain ⟨rest, rfl⟩ := replicate_le_iff.mp hle
  rw [flatMap_escape_replicate, prefixUpperBound_replicate, replicate_succ, cons_append,
    encodeEscapedBytes_cons] at hlt
  cases hlt

-- The tag and the bytes of a text or of binary data.
def textOf : Value KeyContent → Option (UInt8 × List UInt8)
  | .scalar (.string s) => some (tagString, s.toUTF8.data.toList)
  | .scalar (.fixedString s) => some (tagFixedString, s.toUTF8.data.toList)
  | .scalar (.blob b) => some (tagBlob, b)
  | _ => none

def Within (lower upper key : List UInt8) : Prop :=
  (compare lower key).isLE ∧ compare key upper = .lt

-- The data does not end with the largest byte, or with few enough of them behind some other byte.
def tight (data : List UInt8) : Bool :=
  match data.reverse.dropWhile (· = 0xFF) with
  | [] => data = []
  | x :: _ => x = 0 || (data.reverse.takeWhile (· = 0xFF)).length < 3

theorem tight_append (hx : x ≠ 0xFF) (xs : List UInt8) (k : ℕ) :
    tight (xs ++ x :: replicate k 0xFF) ↔ x = 0 ∨ k < 3 := by
  unfold tight
  simp [hx]

theorem tight_replicate (k : ℕ) : tight (replicate k 0xFF) ↔ k = 0 := by
  unfold tight
  simp

theorem exists_last_smaller (data : List UInt8) :
    (∃ k, data = replicate k 0xFF) ∨ ∃ xs x k, x ≠ 0xFF ∧ data = xs ++ x :: replicate k 0xFF := by
  induction data using reverseRecOn with
  | nil => exact .inl ⟨0, rfl⟩
  | append_singleton xs y ind =>
    by_cases hy : y = 0xFF
    · subst hy
      obtain ⟨k, rfl⟩ | ⟨xs, x, k, hx, rfl⟩ := ind
      · exact .inl ⟨k + 1, by rw [replicate_succ']⟩
      · exact .inr ⟨xs, x, k + 1, hx, by rw [replicate_succ']; simp⟩
    · exact .inr ⟨xs, y, 0, hy, rfl⟩

section

variable {typeName debug : Value KeyContent → String} {data : List UInt8} {tag : UInt8}
  {v : Value KeyContent}

theorem encode_of_textOf [DecimalLib] (h : textOf v = some (tag, data)) :
    encode typeName v = .ok (tag :: encodeEscapedBytes data) := by
  unfold textOf at h
  split at h <;> cases h <;> rfl

theorem prefixBounds_of_textOf [DecimalLib] (h : textOf v = some (tag, data)) :
    prefixBounds typeName debug v = .ok (tag :: encodeEscapedBytes data,
      if data = [] then [tag + 1] else tag :: prefixUpperBound (data.flatMap escape)) := by
  have hdecode : decodeEscapedBytes (tag :: encodeEscapedBytes data) 1 =
      .ok (data, 1 + (encodeEscapedBytes data).length) := by
    have h := unescape_encodeEscapedBytes data []
    rw [append_nil] at h
    simp [decodeEscapedBytes, h, bind, Except.bind, pure, Except.pure]
  have hlen : 1 + (encodeEscapedBytes data).length - 2 = (data.flatMap escape).length + 1 := by
    simp [encodeEscapedBytes]
    omega
  have hdata : ((tag :: encodeEscapedBytes data).take (1 + (encodeEscapedBytes data).length - 2)).drop 1 =
      data.flatMap escape := by
    rw [hlen, take_succ_cons, drop_succ_cons, drop_zero, encodeEscapedBytes, take_left' rfl]
  have hne : data.flatMap escape = [] ↔ data = [] := by
    cases data with
    | nil => simp
    | cons x xs =>
      unfold escape
      simp only [flatMap_cons, append_eq_nil_iff]
      split_ifs <;> simp
  have hbound : prefixUpperBound [tag] = [tag + 1] := by
    unfold textOf at h
    split at h <;> cases h <;> rfl
  have hbounds : (do
      let lower ← encode typeName v
      let r ← decodeEscapedBytes lower 1
      let data := (lower.take (r.2 - 2)).drop 1
      return (lower, if data = [] then prefixUpperBound (lower.take 1) else lower.take 1 ++ prefixUpperBound data) :
        StorageResult (List UInt8 × List UInt8)) =
      .ok (tag :: encodeEscapedBytes data,
        if data = [] then [tag + 1] else tag :: prefixUpperBound (data.flatMap escape)) := by
    simp only [encode_of_textOf h, Except.ok_bind, hdecode, hdata, hne, take_succ_cons, take_zero, hbound]
    rfl
  unfold textOf at h
  split at h <;> first | exact hbounds | cases h

theorem within_iff :
    Within (tag :: encodeEscapedBytes data) (tag :: bound) (tag :: encodeEscapedBytes bytes) ↔ Below data bound bytes := by
  rw [Within, Below, compare_cons, compare_cons, Std.compare_self, Ordering.eq_then, Ordering.eq_then,
    (settles_encodeEscapedBytes data bytes).compare_eq]

theorem ne_largest_of_mem_toUTF8 {s : String} (h : b ∈ s.toUTF8.data.toList) : b ≠ 0xFF := by
  rw [toUTF8_eq_flatMap] at h
  obtain ⟨c, -, hb⟩ := mem_flatMap.mp h
  have hlt : b.toNat < 248 := by
    rw [String.utf8EncodeChar] at hb
    split_ifs at hb <;> simp only [mem_cons, not_mem_nil, or_false] at hb
    all_goals rcases hb with rfl | rfl | rfl | rfl <;> rw [UInt8.toNat_ofNat'] <;> omega
  rintro rfl
  simp at hlt

theorem blob_of_mem (h : textOf v = some (tag, data))
    (hmem : 0xFF ∈ data) : v = .scalar (.blob data) ∧ tag = tagBlob := by
  unfold textOf at h
  split at h <;> cases h
  · exact (ne_largest_of_mem_toUTF8 hmem rfl).elim
  · exact (ne_largest_of_mem_toUTF8 hmem rfl).elim
  · exact ⟨rfl, rfl⟩

theorem prefixBounds_exact_iff [DecimalLib] {P : Value KeyContent} {tag : UInt8} {data : List UInt8}
    (hP : textOf P = some (tag, data)) : ∃ lower upper, prefixBounds typeName debug P = .ok (lower, upper) ∧
      ((∀ v bytes key, textOf v = some (tag, bytes) → encode typeName v = .ok key →
        (Within lower upper key ↔ data <+: bytes)) ↔ tight data) := by
  refine ⟨_, _, prefixBounds_of_textOf hP, ?_⟩
  obtain ⟨k, rfl⟩ | ⟨xs, x, k, hx, rfl⟩ := exists_last_smaller data
  · rw [tight_replicate]
    cases k with
    | zero =>
      refine iff_of_true (fun v bytes key hv hkey => ?_) rfl
      have hlt : compare tag (tag + 1) = .lt := by
        unfold textOf at hP
        split at hP <;> simp only [Option.some.injEq, Prod.mk.injEq, reduceCtorEq] at hP <;> obtain ⟨rfl, -⟩ := hP <;> rfl
      rw [encode_of_textOf hv] at hkey
      cases hkey
      refine iff_of_true ⟨?_, ?_⟩ nil_prefix
      · rw [compare_cons, Std.compare_self, Ordering.eq_then, (settles_encodeEscapedBytes _ _).compare_eq]
        cases bytes <;> rfl
      · rw [replicate_zero, if_pos rfl, compare_cons, hlt, Ordering.lt_then]
    | succ k =>
      rw [if_neg (by simp)]
      refine iff_of_false (fun h => ?_) (by simp)
      have hself := h P _ _ hP (encode_of_textOf hP)
      rw [within_iff] at hself
      exact below_replicate (hself.mpr (prefix_refl _))
  · rw [tight_append hx, if_neg (by simp)]
    constructor
    · intro h
      by_contra hloose
      obtain ⟨hx0, hk⟩ := not_or.mp hloose
      have hmem : 0xFF ∈ xs ++ x :: replicate k 0xFF := by
        simp
        omega
      obtain ⟨rfl, rfl⟩ := blob_of_mem hP hmem
      have hnext := h (.scalar (.blob (xs ++ [x + 1]))) _ _ rfl (encode_of_textOf rfl)
      rw [within_iff, below_iff hx] at hnext
      have := (hnext.mp (.inr ⟨hx0, by omega, rfl⟩)).length_le
      simp at this
      omega
    · intro htight v bytes key hv hkey
      rw [encode_of_textOf hv] at hkey
      cases hkey
      rw [within_iff, below_iff hx]
      refine ⟨fun h => h.resolve_right ?_, .inl⟩
      rintro ⟨hx0, hk, -⟩
      obtain hx0' | hk' := htight
      · exact hx0 hx0'
      · omega

end

theorem prefixBounds_exact_ab :
    ∃ lower upper, prefixBounds (fun _ => "") (fun _ => "") (.string "ab") = .ok (lower, upper) ∧
      ∀ v bytes key, textOf v = some (tagString, bytes) → encode (fun _ => "") v = .ok key →
        (Within lower upper key ↔ "ab".toUTF8.data.toList <+: bytes) :=
  (prefixBounds_exact_iff rfl).imp fun _ h => h.imp fun _ h => ⟨h.1, h.2.mpr (by decide +kernel)⟩

-- The only byte of the prefix is the largest, and the upper bound lies below the lower one.
theorem prefixBounds_largest :
    prefixBounds (fun _ => "") (fun _ => "") (.scalar (.blob [0xFF])) = .ok ([tagBlob, 0xFF, 0, 0], [tagBlob, 0]) ∧
      encode (fun _ => "") (.scalar (.blob [0xFF])) = .ok [tagBlob, 0xFF, 0, 0] ∧
      ¬Within [tagBlob, 0xFF, 0, 0] [tagBlob, 0] [tagBlob, 0xFF, 0, 0] := by
  refine ⟨?_, rfl, ?_⟩
  · rw [prefixBounds_of_textOf rfl]
    rfl
  · rintro ⟨-, h⟩
    cases h

end Linkrs.OrderedCodec
