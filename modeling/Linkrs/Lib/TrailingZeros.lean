import Mathlib.Data.List.DropRight
import Linkrs.Lib.Bytes

namespace TrailingZeros

open List

-- A small compressor: the zeros at the end of the data are counted and left out.
def body (data : List UInt8) : List UInt8 :=
  data.rdropWhile (· = 0)

def compress (data : List UInt8) : List UInt8 :=
  Bytes.varint (body data).length ++ (Bytes.varint (data.length - (body data).length) ++ body data)

def readBody (n : ℕ) (frame : List UInt8) : Except String (List UInt8) :=
  match Bytes.takeVarint frame with
  | none => .error "incomplete frame"
  | some (zeros, rest) =>
    if rest.length = n then .ok (rest ++ List.replicate zeros 0) else .error "incomplete frame"

def decompress (frame : List UInt8) : Except String (List UInt8) :=
  match Bytes.takeVarint frame with
  | none => .error "incomplete frame"
  | some (n, rest) => readBody n rest

theorem body_append_zeros (data : List UInt8) :
    body data ++ List.replicate (data.length - (body data).length) 0 = data := by
  have h : body data ++ data.rtakeWhile (· = 0) = data := rdropWhile_append_rtakeWhile
  have hz : data.rtakeWhile (· = 0) = List.replicate (data.length - (body data).length) 0 := by
    refine eq_replicate_iff.mpr ⟨?_, fun b hb => by simpa using mem_rtakeWhile_imp hb⟩
    have := congrArg List.length h
    simp only [length_append] at this
    omega
  rw [← hz, h]

theorem decompress_compress (data : List UInt8) : decompress (compress data) = .ok data := by
  simp [decompress, readBody, compress, Bytes.takeVarint_varint, body_append_zeros]

-- A proper prefix of a number and what follows it cuts the number or what follows it.
theorem truncated_cases (hp : part <+: Bytes.varint n ++ rest)
    (hn : part ≠ Bytes.varint n ++ rest) : Bytes.takeVarint part = none ∨
      ∃ part', part' <+: rest ∧ part' ≠ rest ∧ Bytes.takeVarint part = some (n, part') := by
  by_cases hl : part.length < (Bytes.varint n).length
  case pos =>
    have hv := prefix_of_prefix_length_le hp (prefix_append _ _) (Nat.le_of_lt hl)
    exact .inl (Bytes.takeVarint_truncated hv (by rintro rfl; omega))
  case neg =>
    have ⟨part', he⟩ := prefix_of_prefix_length_le (prefix_append _ _) hp (by omega)
    subst he
    refine .inr ⟨part', (prefix_append_right_inj _).mp hp, ?_, Bytes.takeVarint_varint n part'⟩
    rintro rfl
    exact hn rfl

theorem decompress_truncated (hp : part <+: compress data)
    (hn : part ≠ compress data) : decompress part = .error "incomplete frame" := by
  rcases truncated_cases hp hn with h | ⟨part, hp, hn, h⟩
  · simp [decompress, h]
  · rcases truncated_cases hp hn with h' | ⟨part, hp, hn, h'⟩
    · simp [decompress, h, readBody, h']
    · have hl : part.length ≠ (body data).length := fun hl => hn (hp.eq_of_length hl)
      simp [decompress, h, readBody, h', hl]

theorem body_eq (xs : List UInt8) (hb : b ≠ 0) (k : ℕ) : body (xs ++ [b] ++ List.replicate k 0) = xs ++ [b] := by
  induction k with
  | zero => simp [body, hb]
  | succ k ind =>
    rw [replicate_succ', ← append_assoc, body, rdropWhile_concat_pos _ _ _ (by simp)]
    exact ind

end TrailingZeros
