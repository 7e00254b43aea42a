import Linkrs.Query.BitAggregates
import Linkrs.Query.JoinKeys
import Mathlib.Data.List.Induction

namespace Linkrs

open List

-- The functions that keep no floating-point numbers.
inductive AggregateFunction where
  | count
  | min
  | max
  | collect
  | collectSet
  | boolAnd
  | boolOr
  deriving DecidableEq, Repr

-- A hash set is given by its elements in the order in which they were added.
inductive AggregateAccumulator (α : Type) where
  | count (n : UInt64)
  | min (value : Option (Value α))
  | max (value : Option (Value α))
  | collect (values : List (Value α))
  | collectSet (values : List (Value α))
  | boolAnd (value : Option Bool)
  | boolOr (value : Option Bool)

-- The orders in which hash tables go through what they hold.
structure Iteration where
  order : ∀ {β : Type}, List β → List β
  perm : ∀ {β : Type} (xs : List β), (order xs).Perm xs

variable {α : Type}

-- The order of values for sorting, by the texts of values of different kinds.
def compareValues (text : Value α → String) : Value α → Value α → Ordering
  | .null _, .null _ => .eq
  | .null _, _ => .gt
  | _, .null _ => .lt
  | .bool a, .bool b => compare a b
  | .int a, .int b => compare a.toInt b.toInt
  | .bigInt a, .bigInt b => compare a.toInt b.toInt
  | .float a, .float b => (Ieee.binary32.partialCmp a.toNat b.toNat).getD .eq
  | .double a, .double b => (Ieee.binary64.partialCmp a.toNat b.toNat).getD .eq
  | .string a, .string b => compare a b
  | a, b => compare (text a) (text b)

namespace AggregateAccumulator

def forFunction : AggregateFunction → AggregateAccumulator α
  | .count => count 0
  | .min => min none
  | .max => max none
  | .collect => collect []
  | .collectSet => collectSet []
  | .boolAnd => boolAnd none
  | .boolOr => boolOr none

def function : AggregateAccumulator α → AggregateFunction
  | count _ => .count
  | min _ => .min
  | max _ => .max
  | collect _ => .collect
  | collectSet _ => .collectSet
  | boolAnd _ => .boolAnd
  | boolOr _ => .boolOr

-- The value is taken if it comes first or is on the wanted side of the one at hand.
def select (text : Value α → String) (side : Ordering) (value : Value α) : Option (Value α) → Option (Value α)
  | none => some value
  | some current => if compareValues text value current = side then some value else some current

def valueOf (value : Option (Value α)) : Value α :=
  value.getD (.null .null)

def listValue (values : List (Value α)) : Value α :=
  if values.isEmpty then .null .null else .list values

def finalize (it : Iteration) : AggregateAccumulator α → Value α
  | count n => .bigInt n.toInt64
  | min value => valueOf value
  | max value => valueOf value
  | collect values => listValue values
  | collectSet values => if values.isEmpty then .null .null else .set (it.order values)
  | boolAnd value => Folding.boolAnd.finalize value
  | boolOr value => Folding.boolOr.finalize value

-- The value by which an accumulator is handed on.
def toValue (it : Iteration) : AggregateAccumulator α → Value α
  | count n => .bigInt n.toInt64
  | min value => valueOf value
  | max value => valueOf value
  | collect values => listValue values
  | collectSet values => listValue (it.order values)
  | boolAnd value => Folding.boolAnd.finalize value
  | boolOr value => Folding.boolOr.finalize value

variable [Foreign α]

def insertValue (values : List (Value α)) (value : Value α) : List (Value α) :=
  if values.any (·.same value) then values else values ++ [value]

def accumulate (text : Value α → String) (value : Value α) : AggregateAccumulator α → AggregateAccumulator α
  | count n => if value.isNull then count n else count (n + 1)
  | min current => if value.isNull then min current else min (select text .lt value current)
  | max current => if value.isNull then max current else max (select text .gt value current)
  | collect values => if value.isNull then collect values else collect (values ++ [value])
  | collectSet values => if value.isNull then collectSet values else collectSet (insertValue values value)
  | boolAnd current => boolAnd (Folding.boolAnd.accumulate current value)
  | boolOr current => boolOr (Folding.boolOr.accumulate current value)

def merge (text : Value α → String) : AggregateAccumulator α → AggregateAccumulator α → AggregateAccumulator α
  | count a, count b => count (a + b)
  | min a, min (some b) => min (select text .lt b a)
  | max a, max (some b) => max (select text .gt b a)
  | collect a, collect b => collect (a ++ b)
  | collectSet a, collectSet b => collectSet (b.foldl insertValue a)
  | boolAnd a, boolAnd b => boolAnd ((Folding.boolAnd (α := α)).merge a b)
  | boolOr a, boolOr b => boolOr ((Folding.boolOr (α := α)).merge a b)
  | a, _ => a

-- What was handed on is read by the function that it is meant for.
def decodePartial (f : AggregateFunction) (value : Value α) : AggregateAccumulator α :=
  match (forFunction f : AggregateAccumulator α), value with
  | count _, .bigInt n => count n.toUInt64
  | min _, value => min (if value.isNull then none else some value)
  | max _, value => max (if value.isNull then none else some value)
  | collect _, .list values => collect values
  | collectSet _, .list values => collectSet (values.foldl insertValue [])
  | boolAnd _, value => boolAnd (Folding.boolAnd.decodePartial value)
  | boolOr _, value => boolOr (Folding.boolOr.decodePartial value)
  | acc, _ => acc

-- What accumulators that were reached by adding values are like.
def WellFormed : AggregateAccumulator α → Prop
  | min value => ∀ v ∈ value, v.isNull = false
  | max value => ∀ v ∈ value, v.isNull = false
  | collectSet values => values.Pairwise fun v w => ¬v.same w
  | _ => True

-- One accumulator, up to the order of the elements of a set.
def Alike : AggregateAccumulator α → AggregateAccumulator α → Prop
  | collectSet a, collectSet b => a.Perm b
  | a, b => a = b

variable {text : Value α → String} {it : Iteration} {acc acc' : AggregateAccumulator α}

omit [Foreign α] in
@[simp]
theorem function_forFunction (f : AggregateFunction) : (forFunction f : AggregateAccumulator α).function = f := by
  cases f <;> rfl

@[simp]
theorem function_accumulate (v : Value α) : (accumulate text v acc).function = acc.function := by
  cases acc
  case boolAnd | boolOr => rfl
  all_goals
    simp only [accumulate]
    split <;> rfl

theorem wellFormed_forFunction (f : AggregateFunction) : (forFunction f : AggregateAccumulator α).WellFormed := by
  cases f <;> simp [forFunction, WellFormed]

omit [Foreign α] in
theorem isNull_select (hv : v.isNull = false)
    (hc : ∀ w ∈ current, w.isNull = false) : ∀ w ∈ select text side v current, w.isNull = false := by
  cases current with
  | none => simpa [select] using hv
  | some w =>
    simp only [select]
    split
    · simpa using hv
    · exact hc

theorem pairwise_insertValue (v : Value α) (h : values.Pairwise fun v w => ¬v.same w) :
    (insertValue values v).Pairwise fun v w => ¬v.same w := by
  rw [insertValue]
  split
  case isTrue hs => exact h
  case isFalse hs => simp_all [pairwise_append]

theorem WellFormed.accumulate (h : acc.WellFormed) (v : Value α) : (accumulate text v acc).WellFormed := by
  cases acc with
  | min current | max current =>
    simp only [AggregateAccumulator.accumulate]
    split
    case isTrue hv => exact h
    case isFalse hv => exact isNull_select (by simpa using hv) h
  | collectSet values =>
    simp only [AggregateAccumulator.accumulate]
    split
    case isTrue hv => exact h
    case isFalse hv => exact pairwise_insertValue v h
  | boolAnd | boolOr => trivial
  | _ =>
    simp only [AggregateAccumulator.accumulate]
    split <;> trivial

omit [Foreign α] in
@[simp]
theorem order_nil {β : Type} : it.order ([] : List β) = [] :=
  perm_nil.mp (it.perm [])

omit [Foreign α] in
@[simp]
theorem order_singleton {β : Type} (x : β) : it.order [x] = [x] :=
  perm_singleton.mp (it.perm [x])

theorem foldl_insertValue {values : List (Value α)} (h : values.Pairwise fun v w => ¬v.same w) :
    values.foldl insertValue [] = values := by
  induction values using List.reverseRecOn with
  | nil => rfl
  | append_singleton values v ind =>
    have ⟨hvalues, _, hv⟩ := pairwise_append.mp h
    rw [foldl_append, ind hvalues, foldl_cons, foldl_nil, insertValue, if_neg]
    simpa using hv

omit [Foreign α] in
theorem isNull_valueOf {value : Option (Value α)} (h : ∀ v ∈ value, v.isNull = false) :
    (if (valueOf value).isNull then none else some (valueOf value)) = value := by
  cases value with
  | none => rfl
  | some v => simp [valueOf, h v rfl]

theorem merge_single (acc : AggregateAccumulator α) (v : Value α) :
    merge text acc (decodePartial acc.function (toValue it (accumulate text v (forFunction acc.function)))) =
      accumulate text v acc := by
  cases acc with
  | count n =>
    cases hv : v.isNull <;> simp [function, forFunction, accumulate, hv, toValue, decodePartial, merge] <;> decide
  | min current | max current =>
    cases hv : v.isNull <;> simp [function, forFunction, accumulate, hv, toValue, valueOf, select, decodePartial, merge]
    simp [Value.isNull]
  | collect values =>
    cases hv : v.isNull <;> simp [function, forFunction, accumulate, hv, toValue, listValue, decodePartial, merge]
  | collectSet values =>
    cases hv : v.isNull <;>
      simp [function, forFunction, accumulate, hv, toValue, listValue, decodePartial, merge, insertValue]
  | boolAnd current => exact congrArg boolAnd (Folding.lawful_boolAnd.merge_single Bool.true_and current v)
  | boolOr current => exact congrArg boolOr (Folding.lawful_boolOr.merge_single Bool.false_or current v)

theorem alike_merge_forFunction (h : acc.WellFormed) :
    Alike (merge text (forFunction acc.function) (decodePartial acc.function (toValue it acc))) acc := by
  cases acc with
  | count n => simp [function, forFunction, toValue, decodePartial, merge, Alike]
  | min value | max value =>
    simp only [function, forFunction, toValue, decodePartial, isNull_valueOf h]
    cases value <;> rfl
  | collect values => cases values <;> simp [function, forFunction, toValue, listValue, decodePartial, merge, Alike]
  | collectSet values =>
    have hp := it.perm values
    have hpair : (it.order values).Pairwise fun v w => ¬v.same w :=
      (hp.symm.pairwise_iff fun h h' => h (by rwa [Value.same_comm])).mp h
    by_cases he : it.order values = []
    · rw [he] at hp
      simp [function, forFunction, toValue, listValue, he, decodePartial, merge, Alike, hp]
    · simp only [function, forFunction, toValue, listValue, List.isEmpty_iff, he, if_false, decodePartial, merge,
        foldl_insertValue hpair]
      exact hp
  | boolAnd value => cases value <;> rfl
  | boolOr value => cases value <;> rfl

omit [Foreign α] in
theorem alike_refl (acc : AggregateAccumulator α) : Alike acc acc := by
  cases acc <;> simp [Alike]

omit [Foreign α] in
theorem Alike.function (h : Alike acc acc') : acc.function = acc'.function := by
  cases acc <;> cases acc' <;> simp_all [Alike, AggregateAccumulator.function]

theorem insertValue_perm (h : values.Perm values') (v : Value α) :
    (insertValue values v).Perm (insertValue values' v) := by
  have hany : values.any (·.same v) = values'.any (·.same v) := by
    rw [Bool.eq_iff_iff, any_eq_true, any_eq_true]
    simp only [h.mem_iff]
  rw [insertValue, insertValue, hany]
  split
  · exact h
  · exact h.append_right _

theorem Alike.accumulate (h : Alike acc acc') (v : Value α) :
    Alike (accumulate text v acc) (accumulate text v acc') := by
  cases acc with
  | collectSet values =>
    cases acc' with
    | collectSet values' =>
      simp only [AggregateAccumulator.accumulate]
      split
      · exact h
      · exact insertValue_perm h v
    | _ => simp [Alike] at h
  | _ =>
    subst h
    exact alike_refl _

end AggregateAccumulator
end Linkrs
