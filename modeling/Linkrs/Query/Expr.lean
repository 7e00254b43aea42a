import Linkrs.Lib.Footprint
import Linkrs.Query.JoinKeys

namespace Linkrs

inductive ExpressionErrorType where
  | typeError
  | undefinedVariable
  | undefinedFunction
  | argumentCountError
  | runtimeError
  | pathError
  | other (name : String)
  deriving DecidableEq, Repr

structure ExpressionError where
  errorType : ExpressionErrorType
  message : String
  deriving DecidableEq, Repr

namespace ExpressionError

def ofType (message : String) : ExpressionError :=
  ⟨.typeError, message⟩

def undefinedVariable (name : String) : ExpressionError :=
  ⟨.undefinedVariable, s!"Undefined variable: {name}"⟩

def undefinedParameter (name : String) : ExpressionError :=
  ⟨.undefinedVariable, s!"Undefined parameter: {name}"⟩

def undefinedFunction (name : String) : ExpressionError :=
  ⟨.undefinedFunction, s!"Undefined function: {name}"⟩

def argumentCount (expected actual : ℕ) : ExpressionError :=
  ⟨.argumentCountError, s!"Argument count error: expected {expected}, got {actual}"⟩

def ofPath (message : String) : ExpressionError :=
  ⟨.pathError, message⟩

end ExpressionError

abbrev SequenceManager := String → Option ℤ

abbrev Fallible (A : Type) := Except ExpressionError A

-- Besides its arguments a function may look at the state of the world: the time, or a source of random
-- numbers.
inductive BuiltinFunction (ω α : Type) where
  | sequence (execute : Option SequenceManager → List (Value α) → Fallible (Value α))
  | other (isPure : Bool) (execute : ω → List (Value α) → Fallible (Value α))

namespace BuiltinFunction

variable {ω α : Type}

def isPure : BuiltinFunction ω α → Bool
  | sequence _ => false
  | other p _ => p

def isSequence : BuiltinFunction ω α → Bool
  | sequence _ => true
  | other _ _ => false

def execute (now : ω) (args : List (Value α)) : BuiltinFunction ω α → Fallible (Value α)
  | sequence run => run none args
  | other _ run => run now args

end BuiltinFunction

-- What the evaluators are built from: the operations on values, and the functions registered under a
-- name.
structure Runtime (ω α : Type) where
  binary : Value α → Expr.BinaryOperator → Value α → Fallible (Value α)
  unary : Expr.UnaryOperator → Value α → Fallible (Value α)
  typeCast : Value α → DataType → Fallible (Value α)
  aggregate : AggregateFunctionKind → List (Value α) → Bool → Fallible (Value α)
  subscript : Value α → Value α → Fallible (Value α)
  range : Value α → Option (Value α) → Option (Value α) → Fallible (Value α)
  property : Value α → String → Fallible (Value α)
  structField : Value α → String → Fallible (Value α)
  map : List (String × Value α) → Value α
  vector : List UInt32 → Value α
  newPath : Value α → Fallible (Value α)
  addStep : Value α → Value α → Value α → Fallible (Value α)
  typeName : Value α → String
  toUppercase : String → String
  builtin : String → Option (BuiltinFunction ω α)
  custom : String → Option (ω → List (Value α) → Fallible (Value α))

def Runtime.execute {ω α : Type} (rt : Runtime ω α) (now : ω) (name : String) (args : List (Value α)) :
    Fallible (Value α) :=
  match rt.builtin name, rt.custom name with
  | some f, _ => f.execute now args
  | none, some f => f now args
  | none, none => .error (.undefinedFunction name)

-- A function that is reported as pure sees its arguments only.
def Runtime.Pure {ω α : Type} (rt : Runtime ω α) : Prop :=
  ∀ name f, rt.builtin name = some f → f.isPure → ∀ now now' args, f.execute now args = f.execute now' args

-- A runtime without any functions, and without operations on values.
def Runtime.bare : Runtime Unit Empty where
  binary _ _ _ := .error (.ofType "unsupported")
  unary _ _ := .error (.ofType "unsupported")
  typeCast _ _ := .error (.ofType "unsupported")
  aggregate _ _ _ := .error (.ofType "unsupported")
  subscript _ _ := .error (.ofType "unsupported")
  range _ _ _ := .error (.ofType "unsupported")
  property _ _ := .error (.ofType "unsupported")
  structField _ _ := .error (.ofType "unsupported")
  map _ := .null .null
  vector _ := .null .null
  newPath _ := .error (.ofType "unsupported")
  addStep _ _ _ := .error (.ofType "unsupported")
  typeName _ := "unknown"
  toUppercase text := text.toUpper
  builtin _ := none
  custom _ := none

-- A function that gives the state of the world and says so, and one that sees its argument only.
def Runtime.clock : Runtime Int64 Empty :=
  { Runtime.bare with
    builtin name :=
      if name = "timestamp" then some (.other false fun now _ => .ok (.bigInt now))
      else if name = "abs" then
        some (.other true fun _ args =>
          match args with
          | [.scalar (.int n)] => .ok (.int (if n < 0 then -n else n))
          | _ => .error (.ofType "unsupported"))
      else none
    custom _ := none }

theorem Runtime.clock_pure : Runtime.clock.Pure := by
  intro name f hf hpure
  simp only [clock] at hf
  split at hf
  · cases hf
    cases hpure
  · split at hf
    · cases hf
      exact fun _ _ _ => rfl
    · cases hf

-- The context of an evaluation, but for the variables that are set during it.
structure Context (ω α : Type) where
  now : ω
  column : String → Option (Value α)
  parameter : String → Option (Value α)
  sessionVariable : String → Option (Value α)
  sequenceManager : Option SequenceManager
  executeExists : SubqueryBody → Fallible Bool
  executeScalar : SubqueryBody → Fallible (Value α)
  containsSubquery : SubqueryBody → Value α → Fallible Bool

structure SubqueryExecutor (α : Type) where
  executeExists : SubqueryBody → List String → Tuple α → Fallible Bool
  executeScalar : SubqueryBody → List String → Tuple α → Fallible (Value α)
  executeContains : SubqueryBody → List String → Tuple α → Value α → Fallible Bool

structure EvalEnv (α : Type) where
  params : Option (String → Option (Value α))
  sessionVariables : Option (String → Option (Value α))
  subqueryExecutor : Option (SubqueryExecutor α)
  sequenceManager : Option SequenceManager

namespace EvalEnv

variable {α : Type}

-- Without an environment there is nothing to look up in it.
def none : EvalEnv α := ⟨.none, .none, .none, .none⟩

variable (env : EvalEnv α)

def param (name : String) : Option (Value α) :=
  env.params.bind (· name)

def sessionVariable (name : String) : Option (Value α) :=
  env.sessionVariables.bind (· name)

def subquery (message : String) : Fallible (SubqueryExecutor α) :=
  match env.subqueryExecutor with
  | some executor => .ok executor
  | .none => .error (.ofType message)

end EvalEnv

namespace Context

variable {ω α : Type}

def borrowedRow (now : ω) (columns : List String) (row : Tuple α) (env : EvalEnv α) : Context ω α where
  now := now
  column name := (slotId columns name).bind (row[·]?)
  parameter := env.param
  sessionVariable := env.sessionVariable
  sequenceManager := env.sequenceManager
  executeExists body := do
    (← env.subquery "Subquery execution not supported in this context").executeExists body columns row
  executeScalar body := do
    (← env.subquery "Scalar subquery execution not supported in this context").executeScalar body columns row
  containsSubquery body value :=
    if value.isNull then return false
    else do
      (← env.subquery "Subquery execution not supported in this context").executeContains body columns row value

def default (now : ω) : Context ω α :=
  borrowedRow now [] [] .none

end Context

namespace Expr

variable {ω α : Type}

def isLambda : Expr α → Bool
  | lambda _ _ => true
  | _ => false

-- The functions that take a function as their second argument.
def isHigherOrder (name : String) : Bool :=
  ["list_filter", "list_transform", "list_any", "list_all", "list_single", "list_reduce"].contains name.toLower

abbrev Eval (α : Type) := Scoped String (Value α) ExpressionError

section

open Scoped ExpressionError

variable (rt : Runtime ω α) (ctx : Context ω α)

-- A variable that was set hides the column of its name.
def getVariable (name : String) : Eval α (Option (Value α)) := do
  match ← lookup name with
  | some value => return some value
  | none => return ctx.column name

def required (name : String) : Eval α (Value α) := do
  match ← getVariable ctx name with
  | some value => return value
  | none => throw (undefinedVariable name)

-- The property of what has a name, for which there may be a column.
def namedProperty (name property : String) (object : Eval α (Value α)) : Eval α (Value α) := do
  match ← getVariable ctx (name ++ "." ++ property) with
  | some value => return value
  | none => rt.property (← object) property

def callFunction (name : String) (args : List (Value α)) : Fallible (Value α) :=
  match rt.builtin name with
  | some (.sequence run) => run ctx.sequenceManager args
  | _ => rt.execute ctx.now name args

-- Whether an element is taken. Null takes none.
def truth (refusal : Value α → ExpressionError) : Value α → Fallible Bool
  | .bool b => .ok b
  | .null _ => .ok false
  | value => .error (refusal value)

def countMatches (name : String) (values : List (Value α)) (body : Eval α (Value α))
    (refusal : Value α → ExpressionError) : Eval α ℕ :=
  values.foldlM (fun matched value => do
    assign name value
    return if ← truth refusal (← body) then matched + 1 else matched) 0

def higherOrder (name : String) (source : Eval α (Value α)) (params : List String) (body : Eval α (Value α))
    (rest : List (Eval α (Value α))) : Eval α (Value α) := do
  let refusal name value := ofType (name ++ " lambda must return boolean, got " ++ rt.typeName value)
  match ← source with
  | .null _ => return .null .null
  | .list values =>
    if name.toLower = "list_reduce" then
      if 1 < rest.length then throw (ofType "list_reduce requires (source, lambda, initial)")
      else match params with
      | [acc, item] =>
        let initial ← rest.head?.getD (pure (.null .null))
        values.foldlM (fun value next => do
          assign acc value
          assign item next
          body) initial
      | _ => throw (ofType "list_reduce lambda requires two parameters (acc, item)")
    else
      if !rest.isEmpty then throw (ofType (name ++ " requires (source, lambda)"))
      else match params with
      | [] => throw (ofType (name ++ " lambda requires a parameter"))
      | param :: _ =>
        if name.toLower = "list_filter" then
          let kept ← values.foldlM (fun kept value => do
            assign param value
            return if ← truth (refusal "list_filter") (← body) then kept ++ [value] else kept) []
          return .list kept
        else if name.toLower = "list_transform" then
          let out ← values.foldlM (fun out value => do
            assign param value
            return out ++ [← body]) []
          return .list out
        else
          let matched ← countMatches param values body (refusal name)
          return .bool ( if name.toLower = "list_any" then 0 < matched
            else if name.toLower = "list_all" then matched = values.length
            else matched = 1)
  | _ => throw (ofType (name ++ " requires a list as first argument"))

def metBoolean : Value α → Fallible Bool
  | .bool b => .ok b
  | _ => .error (ofType "CASE conditions must be Boolean")

-- The value that belongs to the first condition that is met.
def firstMet {m : Type → Type} [Monad m] (met : Value α → m Bool) (default : m (Value α)) :
    List (m (Value α) × m (Value α)) → m (Value α)
  | [] => default
  | (condition, value) :: rest => do
    if ← met (← condition) then value else firstMet met default rest

def caseWhen [Foreign α] {m : Type → Type} [Monad m] [MonadLiftT (Except ExpressionError) m] (test : Option (m (Value α)))
    (conditions : List (m (Value α) × m (Value α))) (default : Option (m (Value α))) : m (Value α) :=
  let default := default.getD (pure (.null .null))
  match test with
  | none => firstMet (fun value => liftM (metBoolean value)) default conditions
  | some test => do
    let test ← test
    firstMet (fun value => pure (test.eq value)) default conditions

def optional {m : Type → Type} [Monad m] {A : Type} : Option (m A) → m (Option A)
  | none => return none
  | some x => return some (← x)

def keeps (refusal : Value α → ExpressionError) : Option (Eval α (Value α)) → Eval α Bool
  | none => return true
  | some filter => do truth refusal (← filter)

def mapped (name : String) : Option (Eval α (Value α)) → Eval α (Value α)
  | none => do return (← getVariable ctx name).getD (.null .null)
  | some mapping => mapping

def comprehension (name : String) (source : Eval α (Value α)) (filter mapping : Option (Eval α (Value α))) :
    Eval α (Value α) := do
  let refusal value := ofType ("List comprehension filter must evaluate to a boolean, got " ++ rt.typeName value)
  match ← source with
  | .null _ => return .null .null
  | .list values =>
    let results ← values.foldlM (fun (results : List (Value α)) value => do
      assign name value
      if ← keeps refusal filter then return results ++ [← mapped ctx name mapping]
      else return results) []
    return .list results
  | other => throw (ofType ("List comprehension source must be a list, got " ++ rt.typeName other))

def quantify (func name : String) (source body : Eval α (Value α)) : Eval α (Value α) := do
  let refusal value :=
    ofType ("Predicate `" ++ func ++ "` condition must evaluate to a boolean, got " ++ rt.typeName value)
  match ← source with
  | .null _ => return .null .null
  | .list values =>
    let matched ← countMatches name values body refusal
    match rt.toUppercase func with
    | "ALL" => return .bool (matched = values.length)
    | "ANY" => return .bool (0 < matched)
    | "SINGLE" => return .bool (matched = 1)
    | "NONE" => return .bool (matched = 0)
    | _ => throw (ofType ("Unknown predicate function: " ++ func))
  | other => throw (ofType ("Predicate `" ++ func ++ "` source must be a list, got " ++ rt.typeName other))

def reduction (accumulator name : String) (initial source mapping : Eval α (Value α)) : Eval α (Value α) := do
  let acc ← initial
  match ← source with
  | .null _ => return .null .null
  | .list values =>
    values.foldlM (fun acc value => do
      assign name value
      assign accumulator acc
      mapping) acc
  | other => throw (ofType ("REDUCE source must be a list, got " ++ rt.typeName other))

-- Edges and vertices in turn.
def addSteps (built : Value α) : List (Eval α (Value α)) → Eval α (Value α)
  | [] => return built
  | [_] => throw (ofPath "Path construction requires alternating edge/vertex elements")
  | edge :: vertex :: rest => do
    let edge ← edge
    let vertex ← vertex
    addSteps (← rt.addStep built edge vertex) rest

def buildPath : List (Eval α (Value α)) → Eval α (Value α)
  | [] => throw (ofPath "Path construction requires at least one vertex")
  | source :: rest => do addSteps rt (← rt.newPath (← source)) rest

end

open Scoped ExpressionError in
-- The form of evaluation that all contexts share. Each operand is evaluated after what stands before
-- it, with the variables that are set by then.
def eval [Foreign α] (rt : Runtime ω α) (ctx : Context ω α) : Expr α → Eval α (Value α)
  | .literal value => return value
  | .variable name => required ctx name
  | .binary left op right => do
    let left ← eval rt ctx left
    let right ← eval rt ctx right
    rt.binary left op right
  | .unary op operand => do rt.unary op (← eval rt ctx operand)
  | .function name args => do
    if isHigherOrder name && args.any isLambda then
      match args with
      | source :: .lambda params body :: rest =>
        if source.isLambda then throw (ofType (name ++ " expects the lambda as the second argument"))
        else higherOrder rt name (eval rt ctx source) params (eval rt ctx body) (rest.map (eval rt ctx))
      | _ => throw (ofType (name ++ " expects the lambda as the second argument"))
    else callFunction rt ctx name (← collect (args.map (eval rt ctx)))
  | .aggregate func args distinct filter => do
    let args ← collect (args.map (eval rt ctx))
    match filter with
    | none => rt.aggregate func args distinct
    | some filter =>
      match ← eval rt ctx filter with
      | .bool true => rt.aggregate func args distinct
      | _ => return .null .null
  | .case test conditions default =>
    caseWhen
      (match test with
        | some test => some (eval rt ctx test)
        | none => none)
      (conditions.map fun c => (eval rt ctx c.1, eval rt ctx c.2))
      (match default with
        | some default => some (eval rt ctx default)
        | none => none)
  | .list items => do return .list (← collect (items.map (eval rt ctx)))
  | .vector data => return rt.vector data
  | .windowFunction _ _ => throw (ofType "Window functions require a runtime window context")
  | .map entries => do
    let values ← collect (entries.map fun e => eval rt ctx e.2)
    return rt.map ((entries.map (·.1)).zip values)
  | .subscript collection index => do
    let collection ← eval rt ctx collection
    let index ← eval rt ctx index
    rt.subscript collection index
  | .range collection start stop => do
    let collection ← eval rt ctx collection
    let start ← optional (match start with
      | some start => some (eval rt ctx start)
      | none => none)
    let stop ← optional (match stop with
      | some stop => some (eval rt ctx stop)
      | none => none)
    rt.range collection start stop
  | .path items => do return .list (← collect (items.map (eval rt ctx)))
  | .property object field =>
    match object with
    | .variable name => namedProperty rt ctx name field (eval rt ctx (.variable name))
    | object => do rt.property (← eval rt ctx object) field
  | .structField base field => do rt.structField (← eval rt ctx base) field
  | .typeCast expression target => do rt.typeCast (← eval rt ctx expression) target
  | .edgeProperty edge field => namedProperty rt ctx edge field (required ctx edge)
  | .tagProperty tag field => namedProperty rt ctx tag field (required ctx tag)
  | .label name => throw (ofType ("Label expression `:" ++ name ++ "` requires runtime context to resolve"))
  | .listComprehension name source filter mapping =>
    comprehension rt ctx name (eval rt ctx source)
      (match filter with
        | some filter => some (eval rt ctx filter)
        | none => none)
      (match mapping with
        | some mapping => some (eval rt ctx mapping)
        | none => none)
  | .labelTagProperty tag field => do rt.property (← eval rt ctx tag) field
  | .predicate func args =>
    match args with
    | .variable name :: source :: body :: _ => quantify rt func name (eval rt ctx source) (eval rt ctx body)
    | .variable _ :: _ => throw (argumentCount 3 args.length)
    | _ =>
      throw (ofType ("Predicate `" ++ func ++ "` requires a variable as its first argument"))
  | .reduce accumulator initial name source mapping =>
    reduction rt accumulator name (eval rt ctx initial) (eval rt ctx source) (eval rt ctx mapping)
  | .pathBuild items => buildPath rt (items.map (eval rt ctx))
  | .parameter name =>
    match ctx.parameter name with
    | some value => return value
    | none => throw (undefinedParameter name)
  | .sessionVariable name =>
    match ctx.sessionVariable name with
    | some value => return value
    | none => throw (ofType ("Session variable `" ++ name ++ "` is not defined"))
  | .exists body => do return .bool (← ctx.executeExists body)
  | .in expr body negated => do
    let found ← ctx.containsSubquery body (← eval rt ctx expr)
    return .bool (if negated then !found else found)
  | .countSubquery _ => throw (ofType "Subquery execution not supported in this context")
  | .scalarSubquery body => ctx.executeScalar body
  | .lambda _ _ =>
    throw (ofType "Lambda expression cannot be evaluated directly; use it as an argument to a higher-order function like list_transform or list_filter")
termination_by e => sizeOf e
decreasing_by
  all_goals simp_wf
  all_goals first
    | omega
    | (have h := List.sizeOf_lt_of_mem ‹_›; omega)
    | (have h := sizeOf_pair_lt ‹_›; omega)

def evaluate [Foreign α] (rt : Runtime ω α) (ctx : Context ω α) (e : Expr α) : Fallible (Value α) :=
  (eval rt ctx e fun _ => none).map (·.1)

example [Foreign α] (rt : Runtime ω α) (ctx : Context ω α) (v : Value α) : evaluate rt ctx (.literal v) = .ok v := by
  rw [evaluate, eval]
  rfl

theorem callFunction_of_pure {rt : Runtime ω α} (hp : rt.Pure) (hf : (rt.builtin name).any (·.isPure)) (now : ω) :
    callFunction rt ctx name args = rt.execute now name args := by
  obtain ⟨f, hname, hf⟩ := (Option.any_eq_true _ _).mp hf
  cases f with
  | sequence run => simp [BuiltinFunction.isPure] at hf
  | other p run =>
    simp only [callFunction, Runtime.execute, hname]
    exact hp name _ hname hf _ _ _

section

variable [Foreign α] {rt : Runtime ω α} {ctx : Context ω α}

theorem eval_case {test default : Option (Expr α)} :
    eval rt ctx (.case test conditions default) = caseWhen (test.map (eval rt ctx))
      (conditions.map fun c => (eval rt ctx c.1, eval rt ctx c.2)) (default.map (eval rt ctx)) := by
  cases test <;> cases default <;> rw [eval] <;> rfl

theorem eval_range :
    eval rt ctx (.range collection start stop) = (do
      let collection ← eval rt ctx collection
      let start ← optional (start.map (eval rt ctx))
      let stop ← optional (stop.map (eval rt ctx))
      rt.range collection start stop) := by
  cases start <;> cases stop <;> rw [eval] <;> rfl

theorem eval_listComprehension : eval rt ctx (.listComprehension name source filter mapping) =
      comprehension rt ctx name (eval rt ctx source) (filter.map (eval rt ctx)) (mapping.map (eval rt ctx)) := by
  cases filter <;> cases mapping <;> rw [eval] <;> rfl

theorem eval_property (h : ∀ name, object ≠ .variable name) :
    eval rt ctx (.property object field) = (do rt.property (← eval rt ctx object) field) := by
  rw [eval]
  exact h

theorem eval_higherOrder {params : List String}
    (hname : isHigherOrder name) : eval rt ctx (.function name (source :: .lambda params body :: rest)) =
      if source.isLambda then throw (.ofType (name ++ " expects the lambda as the second argument"))
      else higherOrder rt name (eval rt ctx source) params (eval rt ctx body) (rest.map (eval rt ctx)) := by
  rw [eval, if_pos]
  simp [hname, isLambda]

theorem eval_function (h : ¬(isHigherOrder name ∧ args.any isLambda)) :
    eval rt ctx (.function name args) = (do
      callFunction rt ctx name (← Scoped.collect (args.map (eval rt ctx)))) := by
  by_cases hl : ∃ source params body rest, args = source :: .lambda params body :: rest
  · obtain ⟨source, params, body, rest, rfl⟩ := hl
    rw [eval, if_neg (by simpa using h)]
  · rw [eval, if_neg (by simpa using h)]
    exact fun source params body rest heq => hl ⟨source, params, body, rest, heq⟩

theorem eval_function_misplaced (h : isHigherOrder name ∧ args.any isLambda)
    (hl : ∀ source params body rest, args ≠ source :: .lambda params body :: rest) :
    eval rt ctx (.function name args) = throw (.ofType (name ++ " expects the lambda as the second argument")) := by
  rw [eval, if_pos (by simpa using h)]
  exact hl

end

end Expr
end Linkrs
