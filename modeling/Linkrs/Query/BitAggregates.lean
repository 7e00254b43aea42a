import Linkrs.Core.Value

namespace Linkrs

open List Int64

variable {α β : Type}

-- The accumulators that keep one optional value: what their first value is combined with, by which
-- operation, and the values that they take.
structure Folding (α β : Type) where
  neutral : β
  op : β → β → β
  ofValue : Value α → Option β
  toValue : β → Value α

namespace Folding

def bigInt? : Value α → Option Int64
  | .bigInt n => some n
  | _ => none

def bool? : Value α → Option Bool
  | .bool b => some b
  | _ => none

def bitAnd : Folding α Int64 :=
  ⟨maxValue, (· &&& ·), bigInt?, .bigInt⟩

def bitOr : Folding α Int64 :=
  ⟨0, (· ||| ·), bigInt?, .bigInt⟩

def boolAnd : Folding α Bool :=
  ⟨true, (· && ·), bool?, .bool⟩

def boolOr : Folding α Bool :=
  ⟨false, (· || ·), bool?, .bool⟩

variable (f : Folding α β)

def accumulate (current : Option β) (value : Value α) : Option β :=
  match f.ofValue value with
  | some v => some (f.op (current.getD f.neutral) v)
  | none => current

def merge : Option β → Option β → Option β
  | some a, some b => some (f.op a b)
  | some a, none => some a
  | none, b => b

-- What `accumulator_to_value` hands on, and also the final result.
def finalize (current : Option β) : Value α :=
  current.elim (.null .null) f.toValue

def decodePartial (value : Value α) : Option β :=
  f.ofValue value

-- The state that one part of the input leaves, as it is read back.
def part (values : List (Value α)) : Option β :=
  f.decodePartial (f.finalize (values.foldl f.accumulate none))

def aggregate (parts : List (List (Value α))) : Value α :=
  f.finalize ((parts.map f.part).foldl f.merge none)

structure Lawful : Prop where
  assoc : ∀ a b c, f.op (f.op a b) c = f.op a (f.op b c)
  comm : ∀ a b, f.op a b = f.op b a
  neutral : f.op f.neutral f.neutral = f.neutral
  read : ∀ v, f.ofValue (f.toValue v) = some v
  skip : f.ofValue (.null .null) = none

-- Some numbers together, if there are any.
def gather (vs : List β) : Option β :=
  if vs = [] then none else some (vs.foldl f.op f.neutral)

variable {f} {values : List (Value α)} {vs : List β}

theorem foldl_accumulate (current : Option β) : values.foldl f.accumulate current =
    if values.filterMap f.ofValue = [] then current
    else some ((values.filterMap f.ofValue).foldl f.op (current.getD f.neutral)) := by
  induction values generalizing current with
  | nil => rfl
  | cons v values ind =>
    rw [foldl_cons, ind, accumulate, filterMap_cons]
    cases f.ofValue v with
    | none => rfl
    | some b => by_cases hn : values.filterMap f.ofValue = [] <;> simp [hn]

theorem Lawful.part (h : f.Lawful) : f.part values = f.gather (values.filterMap f.ofValue) := by
  rw [Folding.part, decodePartial, foldl_accumulate, Option.getD_none, ← gather]
  cases f.gather (values.filterMap f.ofValue) with
  | none => exact h.skip
  | some v => exact h.read v

-- A value that was accumulated apart and read back adds what it adds itself.
theorem Lawful.merge_single (h : f.Lawful) (hn : ∀ b, f.op f.neutral b = b) (current : Option β) (v : Value α) :
    f.merge current (f.decodePartial (f.finalize (f.accumulate none v))) = f.accumulate current v := by
  have hpart : f.decodePartial (f.finalize (f.accumulate none v)) = f.ofValue v := by
    rw [accumulate]
    cases f.ofValue v with
    | none => exact h.skip
    | some b => exact (h.read _).trans (congrArg some (hn b))
  rw [hpart, accumulate]
  cases f.ofValue v <;> cases current <;> simp [merge, hn]

theorem Lawful.foldl_op (h : f.Lawful) (a b : β) : vs.foldl f.op (f.op a b) = f.op a (vs.foldl f.op b) := by
  induction vs generalizing b with
  | nil => rfl
  | cons v vs ind => rw [foldl_cons, foldl_cons, h.assoc, ind]

theorem Lawful.op_neutral (h : f.Lawful) : f.op (vs.foldl f.op f.neutral) f.neutral = vs.foldl f.op f.neutral := by
  rw [h.comm, ← h.foldl_op, h.neutral]

-- The neutral value of a later part does no more than that of the first.
theorem Lawful.merge_gather (h : f.Lawful) (ws : List β) :
    f.merge (f.gather vs) (f.gather ws) = f.gather (vs ++ ws) := by
  by_cases hv : vs = []
  · simp [hv, gather, merge]
  · by_cases hw : ws = []
    · simp [hv, hw, gather, merge]
    · have hop : f.op (vs.foldl f.op f.neutral) (ws.foldl f.op f.neutral) =
          (vs ++ ws).foldl f.op f.neutral := by
        rw [← h.foldl_op, h.op_neutral, foldl_append]
      simp [gather, merge, hv, hw, hop]

theorem Lawful.aggregate (h : f.Lawful) (parts : List (List (Value α))) :
    f.aggregate parts = f.finalize (f.gather (parts.flatten.filterMap f.ofValue)) := by
  have hm (vs : List β) : (parts.map f.part).foldl f.merge (f.gather vs) =
      f.gather (vs ++ parts.flatten.filterMap f.ofValue) := by
    induction parts generalizing vs with
    | nil => simp
    | cons p parts ind =>
      rw [map_cons, foldl_cons, h.part, h.merge_gather, ind, flatten_cons, filterMap_append, append_assoc]
  exact congrArg f.finalize (hm [])

theorem Lawful.aggregate_of_ne_nil (h : f.Lawful) (hn : parts.flatten.filterMap f.ofValue ≠ []) :
    f.aggregate parts = f.toValue ((parts.flatten.filterMap f.ofValue).foldl f.op f.neutral) := by
  rw [h.aggregate, gather, if_neg hn]
  rfl

theorem lawful_bitAnd : (bitAnd : Folding α Int64).Lawful :=
  ⟨Int64.and_assoc, Int64.and_comm, Int64.and_self, fun _ => rfl, rfl⟩

theorem lawful_bitOr : (bitOr : Folding α Int64).Lawful :=
  ⟨Int64.or_assoc, Int64.or_comm, Int64.or_self, fun _ => rfl, rfl⟩

theorem lawful_boolAnd : (boolAnd : Folding α Bool).Lawful :=
  ⟨Bool.and_assoc, Bool.and_comm, rfl, fun _ => rfl, rfl⟩

theorem lawful_boolOr : (boolOr : Folding α Bool).Lawful :=
  ⟨Bool.or_assoc, Bool.or_comm, rfl, fun _ => rfl, rfl⟩

theorem nonneg_iff_msb (n : Int64) : 0 ≤ n ↔ n.toBitVec.msb = false := by
  rw [le_iff_toInt_le, BitVec.msb_eq_toInt]
  simp

theorem maxValue_and_eq_iff (n : Int64) : maxValue &&& n = n ↔ 0 ≤ n := by
  rw [nonneg_iff_msb, ← toBitVec_inj, Int64.toBitVec_and]
  constructor
  · intro h
    have hm := congrArg BitVec.msb h
    rw [BitVec.msb_and, show maxValue.toBitVec.msb = false by decide, Bool.false_and] at hm
    exact hm.symm
  · intro h
    have hlt : n.toBitVec.toNat < 2 ^ 63 := by
      rw [BitVec.msb_eq_decide] at h
      simpa using h
    apply BitVec.eq_of_toNat_eq
    rw [BitVec.toNat_and, Nat.and_comm, show maxValue.toBitVec.toNat = 2 ^ 63 - 1 by decide,
      Nat.and_two_pow_sub_one_of_lt_two_pow hlt]

theorem nonneg_foldl_and {ns : List Int64} (a : Int64) : 0 ≤ ns.foldl (· &&& ·) a ↔ 0 ≤ a ∨ ∃ n ∈ ns, 0 ≤ n := by
  induction ns generalizing a with
  | nil => simp
  | cons n ns ind =>
    have hand : 0 ≤ a &&& n ↔ 0 ≤ a ∨ 0 ≤ n := by
      simp only [nonneg_iff_msb, Int64.toBitVec_and, BitVec.msb_and, Bool.and_eq_false_iff]
    simp [ind, hand, or_assoc]

theorem foldl_maxValue_iff {ns : List Int64} :
    ns.foldl (· &&& ·) maxValue = ns.foldl (· &&& ·) (-1) ↔ ∃ n ∈ ns, 0 ≤ n := by
  have hmax : ns.foldl (· &&& ·) (maxValue &&& -1) = maxValue &&& ns.foldl (· &&& ·) (-1) :=
    (lawful_bitAnd (α := Empty)).foldl_op _ _
  rw [show maxValue &&& -1 = maxValue by decide] at hmax
  rw [hmax, maxValue_and_eq_iff, nonneg_foldl_and]
  simp

-- The aggregates over the numbers and over the truth values of an input.
theorem aggregates_exact_iff (parts : List (List (Value α))) {ns : List Int64} {bs : List Bool}
    (hns : parts.flatten.filterMap bigInt? = ns) (hbs : parts.flatten.filterMap bool? = bs) :
    (ns ≠ [] → (bitAnd.aggregate parts = .bigInt (ns.foldl (· &&& ·) (-1)) ↔ ∃ n ∈ ns, 0 ≤ n) ∧
        bitOr.aggregate parts = .bigInt (ns.foldl (· ||| ·) 0)) ∧
      (bs ≠ [] → boolAnd.aggregate parts = .bool (bs.foldl (· && ·) true) ∧
        boolOr.aggregate parts = .bool (bs.foldl (· || ·) false)) := by
  subst hns hbs
  refine ⟨fun hn => ⟨?_, lawful_bitOr.aggregate_of_ne_nil hn⟩, fun hn =>
    ⟨lawful_boolAnd.aggregate_of_ne_nil hn, lawful_boolOr.aggregate_of_ne_nil hn⟩⟩
  rw [lawful_bitAnd.aggregate_of_ne_nil hn, ← foldl_maxValue_iff]
  simp [bitAnd]

theorem aggregates_exact_positive :
    (bitAnd : Folding Empty Int64).aggregate [[.bigInt 6, .null .null], [], [.bigInt (-5)]] = .bigInt 2 :=
  (((aggregates_exact_iff _ rfl rfl).1 (by decide)).1).mpr ⟨6, by decide, by decide⟩

-- The sign is lost.
theorem bitAnd_of_negative : (bitAnd : Folding Empty Int64).aggregate [[.bigInt (-1)]] ≠ .bigInt (-1) :=
  fun h => absurd (congrArg bigInt? h) (by decide +kernel)

end Folding
end Linkrs
