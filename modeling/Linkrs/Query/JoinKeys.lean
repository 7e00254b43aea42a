import Linkrs.Query.Expression
import Linkrs.Query.Memory

namespace Linkrs

abbrev Tuple (α : Type) := List (Value α)

-- The slot of a name in a layout. The last one counts.
def slotId (columns : List String) (name : String) : Option ℕ :=
  columns.zipIdx.foldl (fun slot c => if c.1 = name then some c.2 else slot) none

-- The evaluator, on a row with the given column names. Its errors are texts.
abbrev Evaluator (α : Type) := Expr α → List String → Tuple α → Except String (Value α)

def evalEqual {α : Type} [Foreign α] (left right : Value α) : Value α :=
  .bool (left.eq right)

namespace ExtractEquiJoinKeysRule

variable {α : Type}

def flattenConjuncts : Expr α → List (Expr α)
  | .binary left .and right => flattenConjuncts left ++ flattenConjuncts right
  | expr => [expr]

-- The collector of variables does not look at what a case tests.
def visited : Expr α → List (Expr α)
  | .case _ conditions default => (Expr.case none conditions default).children
  | e => e.children

theorem visited_subset (e : Expr α) : visited e ⊆ e.children := by
  intro c hc
  cases e <;> simp_all [visited, Expr.children]

-- The order and repetitions of the names are of no consequence.
def referencedVariables : Expr α → List String
  | .variable name => [name]
  | e => (visited e).attach.flatMap fun c => referencedVariables c.1
termination_by e => sizeOf e
decreasing_by exact Expr.sizeOf_lt_of_mem_children (visited_subset _ c.2)

def isLeftSide (vars leftCols rightCols : List String) : Option Bool :=
  if vars.isEmpty then none
  else
    match vars.all leftCols.contains, vars.all rightCols.contains with
    | true, false => some true
    | false, true => some false
    | _, _ => none

variable (leftCols rightCols : List String)

-- The probe side and the hash side of a conjunct that can be a key.
def sides : Expr α → Option (Expr α × Expr α)
  | .binary left .equal right =>
    match isLeftSide (referencedVariables left) leftCols rightCols,
      isLeftSide (referencedVariables right) leftCols rightCols with
    | some true, some false => some (left, right)
    | some false, some true => some (right, left)
    | _, _ => none
  | _ => none

def combineResidual : List (Expr α) → Option (Expr α)
  | [] => none
  | first :: rest => some (rest.foldl (.binary · .and ·) first)

-- What becomes of a filter over a join without keys.
structure Rewritten (α : Type) where
  probeKeys : List (Expr α)
  hashKeys : List (Expr α)
  residual : Option (Expr α)

def apply (filter : Expr α) : Option (Rewritten α) :=
  let conjuncts := flattenConjuncts filter
  let keys := conjuncts.filterMap (sides leftCols rightCols)
  if keys.isEmpty then none
  else some {
    probeKeys := keys.map (·.1)
    hashKeys := keys.map (·.2)
    residual := combineResidual (conjuncts.filter fun c => (sides leftCols rightCols c).isNone)
  }

end ExtractEquiJoinKeysRule

inductive JoinKeyValue (α : Type) where
  | i32 (i : Int32)
  | i64 (i : Int64)
  | string (s : String)
  | multi (values : List (Value α))

namespace JoinKeyValue

variable {α : Type}

-- A key whose parts are all null is pinned to the first partition.
def isNullish : JoinKeyValue α → Bool
  | multi values => !values.isEmpty && values.all (·.isNull)
  | _ => false

def ofValue : Value α → JoinKeyValue α
  | .int i => i32 i
  | .bigInt i => i64 i
  | .string s => string s
  | other => multi [other]

variable [Foreign α]

def same : JoinKeyValue α → JoinKeyValue α → Bool
  | i32 a, i32 b => a == b
  | i64 a, i64 b => a == b
  | string a, string b => a == b
  | multi as, multi bs => (Value.list as).same (.list bs)
  | _, _ => false

theorem same_comm (a b : JoinKeyValue α) : a.same b = b.same a := by
  cases a <;> cases b <;> simp [same, Bool.beq_comm, Value.same_comm]

theorem same_trans {a b c : JoinKeyValue α} (hab : a.same b) (hbc : b.same c) : a.same c := by
  cases a <;> cases b <;> simp only [same, Bool.false_eq_true] at hab <;>
  cases c <;> simp only [same, Bool.false_eq_true] at hbc ⊢
  case multi.multi.multi => exact Value.same_trans hab hbc
  all_goals simp_all

end JoinKeyValue

section

variable {α : Type} (evaluate : Evaluator α) (names : List String)

def evalJoinExpr (row : Tuple α) (expr : Expr α) : QueryResult (Value α) :=
  (evaluate expr names row).mapError fun e => ⟨"HashJoin key evaluation failed: " ++ e⟩

-- The key of a row. A single value has a key of its own kind.
def evaluateJoinKey (keys : List (Expr α)) (row : Tuple α) : QueryResult (JoinKeyValue α) :=
  match keys with
  | [] => .ok (.multi [])
  | [expr] => (evalJoinExpr evaluate names row expr).map .ofValue
  | exprs => (exprs.mapM (evalJoinExpr evaluate names row)).map .multi

end
end Linkrs
