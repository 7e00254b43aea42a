import Linkrs.Query.HashJoinMemory

namespace Linkrs

open List Except

variable {α : Type} [Serialized α]

omit [Serialized α] in
theorem flatMap_sublist {β γ : Type} {f g : β → List γ} {xs : List β} (h : ∀ x ∈ xs, (f x).Sublist (g x)) :
    (xs.flatMap f).Sublist (xs.flatMap g) := by
  induction xs with
  | nil => simp
  | cons x xs ind =>
    have ⟨hx, hs⟩ := forall_mem_cons.mp h
    exact hx.append (ind hs)

omit [Serialized α] in
theorem flatMap_eq_of_sublist {β γ : Type} {f g : β → List γ} {xs : List β} (h : ∀ x ∈ xs, (f x).Sublist (g x))
    (hl : (xs.flatMap g).length ≤ (xs.flatMap f).length) : ∀ x ∈ xs, f x = g x := by
  induction xs with
  | nil => simp
  | cons x xs ind =>
    have ⟨hx, hs⟩ := forall_mem_cons.mp h
    have hrest := (flatMap_sublist hs).length_le
    have hhead := hx.length_le
    simp only [flatMap_cons, length_append] at hl
    refine forall_mem_cons.mpr ⟨hx.eq_of_length (by omega), ind hs (by omega)⟩

namespace JoinKeyValue

-- The key of the values of a row's key expressions.
def ofValues : List (Value α) → JoinKeyValue α
  | [v] => ofValue v
  | vs => multi vs

theorem same_multi_singleton {a b : Value α} : (multi [a]).same (multi [b]) ↔ a.same b := by
  simp [same, Value.same_list]

theorem same_ofValue {a b : Value α} : (ofValue a).same (ofValue b) ↔ a.same b := by
  cases a with
  | scalar s =>
    cases b with
    | scalar t =>
      cases s <;> cases t <;> simp only [ofValue, same_multi_singleton]
      case string.string s t =>
        simp only [same, Value.same_iff, Value.feed, Value.eq, Scalar.feed, Scalar.eq, beq_iff_eq]
        exact ⟨fun h => ⟨by rw [h], h⟩, fun h => h.2⟩
      all_goals simp [same, Value.same_iff, Value.feed, Value.eq, Scalar.feed, Scalar.eq, Scalar.number?,
        Number.eq, Int32.toInt_inj, Int64.toInt_inj]
    | _ => cases s <;> simp only [ofValue, same_multi_singleton] <;> simp [same, Value.same_iff, Value.eq]
  | _ =>
    cases b with
    | scalar t => cases t <;> simp only [ofValue, same_multi_singleton] <;> simp [same, Value.same_iff, Value.eq]
    | _ => simp only [ofValue, same_multi_singleton]

theorem same_ofValues {as bs : List (Value α)} (h : as.length = bs.length) :
    (ofValues as).same (ofValues bs) ↔ List.Forall₂ (Value.same · ·) as bs := by
  match as, bs, h with
  | [], [], _ => simp [ofValues, same, Value.same_list]
  | [a], [b], _ => simp [ofValues, same_ofValue]
  | a :: a' :: as, b :: b' :: bs, _ => simp [ofValues, same, Value.same_list]

end JoinKeyValue

omit [Serialized α] in
theorem evaluateJoinKey_eq_ok {evaluate : Evaluator α} {keys : List (Expr α)}
    (h : ∀ key ∈ keys, (evaluate key names row).isOk) : evaluateJoinKey evaluate names keys row =
      .ok (.ofValues (keys.map fun key => (evaluate key names row).getD .empty)) := by
  have hv : ∀ key ∈ keys, evalJoinExpr evaluate names row key = .ok ((evaluate key names row).getD .empty) := by
    intro key hk
    rw [evalJoinExpr, mapError_eq_ok]
    exact eq_ok_getD (h key hk)
  match keys with
  | [] => rfl
  | [e] => simp [evaluateJoinKey, hv e mem_cons_self, Except.map, JoinKeyValue.ofValues]
  | e :: e' :: es =>
    simp only [evaluateJoinKey, mapM_eq_ok hv]
    rfl

-- A filter over a join without keys all of whose conjuncts the rule makes into keys, with the rows of
-- the two inputs. The keys of all rows can be evaluated.
structure EquiJoin (α : Type) where
  evaluate : Evaluator α
  leftCols : List String
  rightCols : List String
  filter : Expr α
  keys : ExtractEquiJoinKeysRule.Rewritten α
  left : List (List (Tuple α))
  right : List (List (Tuple α))
  applies : ExtractEquiJoinKeysRule.apply leftCols rightCols filter = some keys
  residual : keys.residual = none
  width : ∀ row ∈ right.flatten, row.length = rightCols.length
  leftKeys : ∀ row ∈ left.flatten, ∀ key ∈ keys.probeKeys, (evaluate key leftCols row).isOk
  rightKeys : ∀ row ∈ right.flatten, ∀ key ∈ keys.hashKeys, (evaluate key rightCols row).isOk

namespace EquiJoin

variable (q : EquiJoin α)

def join : HashJoin α where
  evaluate := q.evaluate
  joinCondition := none
  hashKeys := q.keys.hashKeys
  probeKeys := q.keys.probeKeys
  buildNames := q.rightCols
  probeNames := q.leftCols
  leftJoin := false
  outputWidth := q.leftCols.length + q.rightCols.length

def leftValues (row : Tuple α) : List (Value α) :=
  q.keys.probeKeys.map fun key => (q.evaluate key q.leftCols row).getD .empty

def rightValues (row : Tuple α) : List (Value α) :=
  q.keys.hashKeys.map fun key => (q.evaluate key q.rightCols row).getD .empty

-- Whether the evaluator finds each key of the one row equal to that of the other.
def equal (l r : Tuple α) : Bool :=
  ((q.leftValues l).zip (q.rightValues r)).all fun v => (evalEqual v.1 v.2 matches .bool true)

def pairs : List (Tuple α) :=
  q.left.flatten.flatMap fun l => (q.right.flatten.filter (q.equal l)).map (l ++ ·)

-- Keys that are equal are also hashed alike.
def HashAlike : Prop :=
  ∀ l ∈ q.left.flatten, ∀ r ∈ q.right.flatten, q.equal l r →
    (q.leftValues l).map (·.feed) = (q.rightValues r).map (·.feed)

variable {q} {l r : Tuple α} {env : JoinEnvironment α}

omit [Serialized α] in
theorem length_keys : q.keys.probeKeys.length = q.keys.hashKeys.length := by
  have h := q.applies
  simp only [ExtractEquiJoinKeysRule.apply] at h
  split at h
  · simp at h
  · rw [← Option.some.inj h]
    simp

omit [Serialized α] in
theorem length_values : (q.leftValues l).length = (q.rightValues r).length := by
  simp [leftValues, rightValues, length_keys]

theorem all_equal {as bs : List (Value α)} (h : as.length = bs.length) :
    (as.zip bs).all (fun v => (evalEqual v.1 v.2 matches .bool true)) ↔ List.Forall₂ (Value.eq · ·) as bs := by
  induction as generalizing bs with
  | nil => cases bs <;> simp_all
  | cons a as ind =>
    cases bs with
    | nil => simp at h
    | cons b bs =>
      cases hab : a.eq b <;> simp_all [evalEqual]

theorem equal_iff : q.equal l r ↔ List.Forall₂ (Value.eq · ·) (q.leftValues l) (q.rightValues r) :=
  all_equal length_values

omit [Serialized α] in
theorem probeKey_eq (hl : l ∈ q.left.flatten) : q.join.probeKey l = .ok (.ofValues (q.leftValues l)) :=
  evaluateJoinKey_eq_ok (q.leftKeys l hl)

omit [Serialized α] in
theorem buildKey_eq (hr : r ∈ q.right.flatten) : q.join.buildKey r = .ok (.ofValues (q.rightValues r)) :=
  evaluateJoinKey_eq_ok (q.rightKeys r hr)

def alike (q : EquiJoin α) (l r : Tuple α) : Bool :=
  (JoinKeyValue.ofValues (q.rightValues r)).same (.ofValues (q.leftValues l))

theorem alike_iff : q.alike l r ↔ q.equal l r ∧ (q.leftValues l).map (·.feed) = (q.rightValues r).map (·.feed) := by
  rw [alike, JoinKeyValue.same_comm, JoinKeyValue.same_ofValues length_values, equal_iff, Value.forall₂_same,
    Value.eqAll_iff, and_comm]

theorem answer_eq (hl : l ∈ q.left.flatten) : q.join.answer q.right.flatten l =
    .ok ((q.right.flatten.filter (q.alike l)).map (l ++ ·)) := by
  have hfilter : q.right.flatten.filter (fun b => (HashJoinBuildSide.keyOf q.join.buildKey b).same
      (.ofValues (q.leftValues l))) = q.right.flatten.filter (q.alike l) := by
    apply filter_congr
    intro r hr
    rw [HashJoinBuildSide.keyOf, buildKey_eq hr]
    rfl
  rw [HashJoin.answer, probeKey_eq hl, ok_bind, hfilter, HashJoin.joined_of_none rfl rfl]

-- The hash join gives the pairs whose keys are one to the table.
theorem drains (env : JoinEnvironment α) :
    Drains (q.join.next env.granting q.rightCols.length) (.new q.right q.left)
      (q.left.flatten.flatMap fun l => (q.right.flatten.filter (q.alike l)).map (l ++ ·)) := by
  have hanswers : q.join.answers q.right.flatten q.left.flatten =
      q.left.flatten.flatMap fun l => (q.right.flatten.filter (q.alike l)).map (l ++ ·) := by
    apply flatMap_congr
    intro l hl
    rw [answer_eq hl, getD_ok]
  rw [← hanswers]
  apply HashJoin.drains_granted (JoinEnvironment.grants_granting env) q.width
  · intro r hr
    rw [buildKey_eq hr, isOk_ok]
  · intro l hl
    rw [answer_eq hl, isOk_ok]

theorem filter_alike_sublist : (q.right.flatten.filter (q.alike l)).Sublist (q.right.flatten.filter (q.equal l)) :=
  monotone_filter_right _ fun _ h => (alike_iff.mp h).1

theorem hashAlike_of_perm
    (d : Drains (q.join.next env.granting q.rightCols.length) (.new q.right q.left) out)
    (hp : out.Perm q.pairs) : q.HashAlike := by
  intro l hl r hr he
  rw [d.unique (drains env)] at hp
  have hmap := flatMap_eq_of_sublist (fun l _ => filter_alike_sublist.map (l ++ ·)) hp.length_eq.ge l hl
  have hfilter := map_injective_iff.mpr (append_right_injective l) hmap
  have hmem : r ∈ q.right.flatten.filter (q.alike l) := hfilter ▸ mem_filter.mpr ⟨hr, he⟩
  exact (alike_iff.mp (mem_filter.mp hmem).2).2

-- Draining the hash join without spilling gives the join that the filter asks for, each pair as often
-- as it occurs, exactly when equal keys are hashed alike.
theorem hash_join_perm_pairs_iff (q : EquiJoin α) (env : JoinEnvironment α) :
    (∃ out, Drains (q.join.next env.granting q.rightCols.length) (.new q.right q.left) out ∧
      out.Perm q.pairs) ↔ q.HashAlike := by
  constructor
  · rintro ⟨out, d, hp⟩
    exact hashAlike_of_perm d hp
  · intro h
    refine ⟨_, drains env, ?_⟩
    have hfilter : ∀ l ∈ q.left.flatten, q.right.flatten.filter (q.alike l) = q.right.flatten.filter (q.equal l) := by
      intro l hl
      apply filter_congr
      intro r hr
      rw [Bool.eq_iff_iff, alike_iff]
      exact ⟨fun h => h.1, fun he => ⟨he, h l hl r hr he⟩⟩
    rw [pairs, flatMap_congr fun l hl => by rw [hfilter l hl]]

-- Variables stand for the columns of their names.
def evaluateVariable : Evaluator α
  | .variable name, names, row => (row[names.idxOf name]?).elim (.error ("undefined variable " ++ name)) .ok
  | _,              _,     _ => .error "not a variable"

-- One key, of type `INT` on the left and `BIGINT` on the right.
def widened : EquiJoin Empty where
  evaluate := evaluateVariable
  leftCols := ["a"]
  rightCols := ["b"]
  filter := .binary (.variable "a") .equal (.variable "b")
  keys := ⟨[.variable "a"], [.variable "b"], none⟩
  left := [[[.int 1]]]
  right := [[[.bigInt 1]]]
  applies := by
    open ExtractEquiJoinKeysRule in
    simp [apply, flattenConjuncts, sides, referencedVariables, isLeftSide, combineResidual]
  residual := rfl
  width := by decide
  leftKeys := by decide
  rightKeys := by decide

-- The filter keeps the pair, since the two numbers are equal; the table does not find it.
theorem hash_join_misses_widened_key : widened.pairs.length = 1 ∧
      ∀ env : JoinEnvironment Empty, ¬∃ out,
        Drains (widened.join.next env.granting 1) (.new widened.right widened.left) out ∧ out.Perm widened.pairs := by
  refine ⟨by decide +kernel, fun env ⟨out, d, hp⟩ => ?_⟩
  have h : widened.HashAlike := hashAlike_of_perm d hp
  exact absurd (h [.int 1] (.head _) [.bigInt 1] (.head _) (by decide +kernel)) (by decide +kernel)

end EquiJoin
end Linkrs
