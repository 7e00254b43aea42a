import Linkrs.Core.Value

namespace Linkrs

namespace Expr

inductive BinaryOperator where
  | add
  | subtract
  | multiply
  | divide
  | modulo
  | exponent
  | equal
  | notEqual
  | lessThan
  | lessThanOrEqual
  | greaterThan
  | greaterThanOrEqual
  | and
  | or
  | xor
  | stringConcat
  | like
  | in
  | notIn
  | contains
  | startsWith
  | endsWith
  | subscript
  | attribute
  | jsonGet
  | jsonGetText
  | jsonPathGet
  | jsonPathGetText
  | bitwiseOr
  | bitwiseAnd
  | shiftLeft
  | shiftRight
  | union
  | intersect
  | except
  deriving DecidableEq, Repr

inductive UnaryOperator where
  | plus
  | minus
  | not
  | bitNot
  | isNull
  | isNotNull
  | isEmpty
  | isNotEmpty
  deriving DecidableEq, Repr

end Expr

inductive AggregateFunctionKind where
  | count
  | sum
  | avg
  | min
  | max
  | collect
  | collectSet
  | percentile
  | std
  | stddevPop
  | stddevSamp
  | variance
  | product
  | percentileCont
  | median
  | mode
  | bitAnd
  | bitOr
  | boolAnd
  | boolOr
  | groupConcat
  | groupConcatWithOrder
  | vecSum
  | vecAvg
  deriving DecidableEq, Repr

-- The types to which a value can be cast. Casts to all others are refused.
inductive DataType where
  | bool
  | smallInt
  | int
  | bigInt
  | float
  | double
  | string
  | list
  | map
  | json
  | jsonB
  | other (name : String)
  deriving DecidableEq, Repr

-- A subquery is found by the number that the planner gave to it.
structure SubqueryBody where
  id : ℕ
  deriving DecidableEq, Repr

-- The numbers of a vector are given by their bits.
inductive Expr (α : Type) where
  | literal (value : Value α)
  | variable (name : String)
  | property (object : Expr α) (property : String)
  | structField (base : Expr α) (field : String)
  | binary (left : Expr α) (op : Expr.BinaryOperator) (right : Expr α)
  | unary (op : Expr.UnaryOperator) (operand : Expr α)
  | function (name : String) (args : List (Expr α))
  | aggregate (func : AggregateFunctionKind) (args : List (Expr α)) (distinct : Bool) (filter : Option (Expr α))
  | list (items : List (Expr α))
  | map (entries : List (String × Expr α))
  | case (test : Option (Expr α)) (conditions : List (Expr α × Expr α)) (default : Option (Expr α))
  | typeCast (expression : Expr α) (targetType : DataType)
  | subscript (collection index : Expr α)
  | range (collection : Expr α) (start stop : Option (Expr α))
  | path (items : List (Expr α))
  | label (name : String)
  | listComprehension (name : String) (source : Expr α) (filter map : Option (Expr α))
  | labelTagProperty (tag : Expr α) (property : String)
  | tagProperty (tagName property : String)
  | edgeProperty (edgeName property : String)
  | predicate (func : String) (args : List (Expr α))
  | reduce (accumulator : String) (initial : Expr α) (name : String) (source mapping : Expr α)
  | pathBuild (items : List (Expr α))
  | parameter (name : String)
  | sessionVariable (name : String)
  | vector (data : List UInt32)
  | windowFunction (name : String) (args : List (Expr α))
  | exists (body : SubqueryBody)
  | in (expr : Expr α) (subquery : SubqueryBody) (negated : Bool)
  | countSubquery (body : SubqueryBody)
  | scalarSubquery (body : SubqueryBody)
  | lambda (params : List String) (body : Expr α)

namespace Expr

open List Option

variable {α : Type} {c e : Expr α}

theorem sizeOf_pair_lt {A B : Type} [SizeOf A] [SizeOf B] {p : A × B} {ps : List (A × B)} (h : p ∈ ps) :
    sizeOf p.1 < sizeOf ps ∧ sizeOf p.2 < sizeOf ps := by
  have hp := List.sizeOf_lt_of_mem h
  obtain ⟨a, b⟩ := p
  simp only [Prod.mk.sizeOf_spec] at hp
  dsimp only
  omega

def children : Expr α → List (Expr α)
  | .property object _ => [object]
  | .structField base _ => [base]
  | .binary left _ right => [left, right]
  | .unary _ operand => [operand]
  | .function _ args => args
  | .aggregate _ args _ filter => args ++ filter.toList
  | .list items => items
  | .map entries => entries.map (·.2)
  | .case test conditions default =>
    test.toList ++ conditions.flatMap (fun c => [c.1, c.2]) ++ default.toList
  | .typeCast expression _ => [expression]
  | .subscript collection index => [collection, index]
  | .range collection start stop => collection :: start.toList ++ stop.toList
  | .path items => items
  | .listComprehension _ source filter mapping => source :: (filter.toList ++ mapping.toList)
  | .labelTagProperty tag _ => [tag]
  | .predicate _ args => args
  | .reduce _ initial _ source mapping => [initial, source, mapping]
  | .pathBuild items => items
  | .windowFunction _ args => args
  | .in expr _ _ => [expr]
  | .lambda _ body => [body]
  | _ => []

theorem sizeOf_toList_lt {A : Type} [SizeOf A] {a : A} {o : Option A} (h : a ∈ o.toList) : sizeOf a < sizeOf o := by
  obtain rfl := mem_toList.mp h
  simp

theorem sizeOf_lt_of_mem_children (h : c ∈ e.children) : sizeOf c < sizeOf e := by
  cases e <;> simp only [children, mem_cons, mem_append, List.mem_map, mem_flatMap, not_mem_nil, or_false] at h
  all_goals grind [→ sizeOf_lt_of_mem, → sizeOf_pair_lt, → sizeOf_toList_lt]

end Expr
end Linkrs
