import Linkrs.Query.ExprScope

namespace Linkrs

open List Except

-- An expression whose variables and functions were resolved. What needs the context of a row is kept
-- as it is.
inductive CompiledExpr (ω α : Type) where
  | const (value : Value α)
  | slot (slot : ℕ)
  | compoundSlot (slot : ℕ)
  | unary (op : Expr.UnaryOperator) (operand : CompiledExpr ω α)
  | binary (op : Expr.BinaryOperator) (left right : CompiledExpr ω α)
  | case (test : Option (CompiledExpr ω α)) (conditions : List (CompiledExpr ω α × CompiledExpr ω α))
      (default : Option (CompiledExpr ω α))
  | function (name : String) (func : Option (ω → List (Value α) → Fallible (Value α))) (args : List (CompiledExpr ω α))
  | typeCast (expr : CompiledExpr ω α) (targetType : DataType)
  | list (items : List (CompiledExpr ω α))
  | map (entries : List (String × CompiledExpr ω α))
  | subscript (collection index : CompiledExpr ω α)
  | range (collection : CompiledExpr ω α) (start stop : Option (CompiledExpr ω α))
  | path (items : List (CompiledExpr ω α))
  | parameter (name : String)
  | sessionVariable (name : String)
  | fallback (expression : Expr α)

-- A constant for all rows, or a value for each.
inductive ColumnarValue (α : Type) where
  | const (value : Value α)
  | column (values : List (Value α))

namespace ColumnarValue

variable {α : Type}

def intoValues (len : ℕ) : ColumnarValue α → List (Value α)
  | const value => .replicate len value
  | column values => values

def mapEach (f : Value α → Fallible (Value α)) : ColumnarValue α → Fallible (ColumnarValue α)
  | const value => do return const (← f value)
  | column values => do return column (← values.mapM f)

def zipEach (f : Value α → Value α → Fallible (Value α)) : ColumnarValue α → ColumnarValue α → Fallible (ColumnarValue α)
  | const left, const right => do return const (← f left right)
  | const left, column right => do return column (← right.mapM (f left ·))
  | column left, const right => do return column (← left.mapM (f · right))
  | column left, column right => do return column (← (left.zip right).mapM fun p => f p.1 p.2)

end ColumnarValue

-- What is registered under a name when an expression is compiled.
def Runtime.resolve {ω α : Type} (rt : Runtime ω α) (name : String) :
    Option (ω → List (Value α) → Fallible (Value α)) :=
  match rt.builtin name with
  | some f => some fun now args => f.execute now args
  | none => rt.custom name

namespace CompiledExpr

variable {ω α : Type}

def const? : CompiledExpr ω α → Option (Value α)
  | const value => some value
  | _ => none

section

variable (rt : Runtime ω α) (now : ω) (columns : List String)

-- A constant if it can be computed, and what computes it otherwise. Errors are left to the evaluation.
def orElse (folded : Option (Fallible (Value α))) (node : CompiledExpr ω α) : CompiledExpr ω α :=
  match folded with
  | some (.ok value) => const value
  | _ => node

def compileFunction (name : String) (args : List (CompiledExpr ω α)) : CompiledExpr ω α :=
  orElse (if (rt.builtin name).any (·.isPure) then (args.mapM const?).map (rt.execute now name) else none)
    (function name (rt.resolve name) args)

def compile : Expr α → CompiledExpr ω α
  | .literal value => const value
  | .vector data => const (rt.vector data)
  | .variable name =>
    match slotId columns name with
    | some i => slot i
    | none => fallback (.variable name)
  | .property object field =>
    match object with
    | .variable name =>
      match slotId columns (name ++ "." ++ field) with
      | some i => compoundSlot i
      | none => fallback (.property object field)
    | _ => fallback (.property object field)
  | .binary left op right =>
    let left := compile left
    let right := compile right
    orElse (do return rt.binary (← left.const?) op (← right.const?)) (binary op left right)
  | .unary op operand =>
    let operand := compile operand
    orElse (do return rt.unary op (← operand.const?)) (unary op operand)
  | .function name args =>
    if args.any Expr.isLambda || (rt.builtin name).any (·.isSequence) then fallback (.function name args)
    else compileFunction rt now name (args.map compile)
  | .aggregate func args distinct filter =>
    orElse (if filter.isNone then ((args.map compile).mapM const?).map (rt.aggregate func · distinct) else none)
      (fallback (.aggregate func args distinct filter))
  | .list items => list (items.map compile)
  | .map entries => map (entries.map fun e => (e.1, compile e.2))
  | .case test conditions default =>
    case
      (match test with
        | some test => some (compile test)
        | none => none)
      (conditions.map fun c => (compile c.1, compile c.2))
      (match default with
        | some default => some (compile default)
        | none => none)
  | .typeCast expression target =>
    let expr := compile expression
    orElse (do return rt.typeCast (← expr.const?) target) (typeCast expr target)
  | .subscript collection index => subscript (compile collection) (compile index)
  | .range collection start stop =>
    range (compile collection)
      (match start with
        | some start => some (compile start)
        | none => none)
      (match stop with
        | some stop => some (compile stop)
        | none => none)
  | .path items => path (items.map compile)
  | .parameter name => parameter name
  | .sessionVariable name => sessionVariable name
  | e => fallback e
termination_by e => sizeOf e
decreasing_by
  all_goals simp_wf
  all_goals first
    | omega
    | (have h := sizeOf_lt_of_mem ‹_›; omega)
    | (have h := Expr.sizeOf_pair_lt ‹_›; omega)

end

section

def readSlot (row : Tuple α) (i : ℕ) : Fallible (Value α) :=
  (row[i]?).elim (.error (.undefinedVariable "column slot")) .ok

-- A column of the rows at hand, unless there is one by type.
def slotColumn (rows : List (Tuple α)) (typed : Option (List (List (Value α)))) (i : ℕ) : Fallible (ColumnarValue α) :=
  match typed.bind (·[i]?) with
  | some column => return .column column
  | none => return .column (← rows.mapM (readSlot · i))

variable [Foreign α] (rt : Runtime ω α) (now : ω) (columns : List String) (env : EvalEnv α) (row : Tuple α)

open ExpressionError in
def evaluate : CompiledExpr ω α → Fallible (Value α)
  | const value => return value
  | slot i => readSlot row i
  | compoundSlot i => readSlot row i
  | unary op operand => do rt.unary op (← evaluate operand)
  | binary op left right => do
    let left ← evaluate left
    let right ← evaluate right
    rt.binary left op right
  | case test conditions default =>
    Expr.caseWhen
      (match test with
        | some test => some (evaluate test)
        | none => none)
      (conditions.map fun c => (evaluate c.1, evaluate c.2))
      (match default with
        | some default => some (evaluate default)
        | none => none)
  | function name func args => do
    let args ← args.mapM evaluate
    match func with
    | some f => f now args
    | none => rt.execute now name args
  | typeCast expr target => do rt.typeCast (← evaluate expr) target
  | list items => do return .list (← items.mapM evaluate)
  | map entries => do
    let values ← entries.mapM fun e => evaluate e.2
    return rt.map ((entries.map (·.1)).zip values)
  | subscript collection index => do
    let collection ← evaluate collection
    let index ← evaluate index
    rt.subscript collection index
  | range collection start stop => do
    let collection ← evaluate collection
    let start ← Expr.optional (match start with
      | some start => some (evaluate start)
      | none => none)
    let stop ← Expr.optional (match stop with
      | some stop => some (evaluate stop)
      | none => none)
    rt.range collection start stop
  | path items => do return .list (← items.mapM evaluate)
  | parameter name => (env.param name).elim (.error (undefinedParameter name)) .ok
  | sessionVariable name =>
    (env.sessionVariable name).elim (.error (ofType ("Session variable `" ++ name ++ "` is not defined"))) .ok
  | fallback expression => expression.evaluate rt (.borrowedRow now columns row env)
termination_by c => sizeOf c
decreasing_by
  all_goals simp_wf
  all_goals first
    | omega
    | (have h := sizeOf_lt_of_mem ‹_›; omega)
    | (have h := Expr.sizeOf_pair_lt ‹_›; omega)

-- The columns of a chunk may also be there by type, of which only the values they hold count.
def evaluateBatch (rows : List (Tuple α)) (typed : Option (List (List (Value α)))) :
    CompiledExpr ω α → Fallible (ColumnarValue α)
  | const value => return .const value
  | slot i => slotColumn rows typed i
  | compoundSlot i => slotColumn rows typed i
  | unary op operand => do (← evaluateBatch rows typed operand).mapEach (rt.unary op)
  | binary op left right => do
    let left ← evaluateBatch rows typed left
    let right ← evaluateBatch rows typed right
    left.zipEach (rt.binary · op ·) right
  | parameter name =>
    match env.param name with
    | some value => return .const value
    | none => do
      let _ ← evaluate rt now columns env (rows.headD []) (parameter name)
      return .column []
  | sessionVariable name =>
    match env.sessionVariable name with
    | some value => return .const value
    | none => do
      let _ ← evaluate rt now columns env (rows.headD []) (sessionVariable name)
      return .column []
  | c => do return .column (← rows.mapM (evaluate rt now columns env · c))

end

section

variable {rt : Runtime ω α} {now : ω} {columns : List String}

theorem compile_case {test default : Option (Expr α)} :
    compile rt now columns (.case test conditions default) = case (test.map (compile rt now columns))
      (conditions.map fun c => (compile rt now columns c.1, compile rt now columns c.2))
      (default.map (compile rt now columns)) := by
  cases test <;> cases default <;> rw [compile] <;> rfl

theorem compile_range :
    compile rt now columns (.range collection start stop) = range (compile rt now columns collection)
      (start.map (compile rt now columns)) (stop.map (compile rt now columns)) := by
  cases start <;> cases stop <;> rw [compile] <;> rfl

-- The function that was found when the expression was compiled is the one that is called.
theorem resolve_execute :
    (match rt.resolve name with
      | some f => f now args
      | none => rt.execute now name args) = rt.execute now name args := by
  simp only [Runtime.resolve, Runtime.execute]
  cases rt.builtin name with
  | some f => rfl
  | none => cases rt.custom name <;> rfl

theorem const?_eq_some {c : CompiledExpr ω α} : c.const? = some v ↔ c = const v := by
  cases c <;> simp [const?]

theorem orElse_eq_const {node : CompiledExpr ω α}
    (hn : ∀ v, node ≠ const v) (h : orElse folded node = const v) : folded = some (.ok v) := by
  unfold orElse at h
  split at h
  · cases h
    rfl
  · exact (hn v h).elim

theorem orElse_eq_node {node : CompiledExpr ω α}
    (h : ∀ v, orElse folded node ≠ const v) : orElse folded node = node := by
  unfold orElse at h ⊢
  split
  · simp_all
  · rfl

variable [Foreign α] {env : EvalEnv α} {row : Tuple α}

theorem evaluate_case {test default : Option (CompiledExpr ω α)} :
    evaluate rt now columns env row (.case test conditions default) =
      Expr.caseWhen (test.map (evaluate rt now columns env row))
        (conditions.map fun c => (evaluate rt now columns env row c.1, evaluate rt now columns env row c.2))
        (default.map (evaluate rt now columns env row)) := by
  cases test <;> cases default <;> rw [evaluate] <;> rfl

theorem evaluate_range :
    evaluate rt now columns env row (.range collection start stop) = (do
      let collection ← evaluate rt now columns env row collection
      let start ← Expr.optional (start.map (evaluate rt now columns env row))
      let stop ← Expr.optional (stop.map (evaluate rt now columns env row))
      rt.range collection start stop) := by
  cases start <;> cases stop <;> rw [evaluate] <;> rfl

end

end CompiledExpr

namespace ColumnarValue

variable {α : Type} {len : ℕ} {vs : List (Value α)}

theorem mapEach_eq_ok {c : ColumnarValue α} (hlen : 0 < len) :
    (c.mapEach f).map (intoValues len) = .ok vs ↔ (c.intoValues len).mapM f = .ok vs := by
  cases c with
  | const value =>
    rw [intoValues, mapM_replicate_eq_ok hlen, mapEach, map_eq_ok]
    cases f value <;> simp [pure, Except.pure, intoValues]
  | column values =>
    rw [intoValues, mapEach, map_eq_ok]
    cases values.mapM f <;> simp [pure, Except.pure, intoValues]

theorem zipEach_eq_ok {c c' : ColumnarValue α} (hlen : 0 < len)
    (hc : (c.intoValues len).length = len) (hc' : (c'.intoValues len).length = len) :
    (c.zipEach f c').map (intoValues len) = .ok vs ↔
      ((c.intoValues len).zip (c'.intoValues len)).mapM (fun p => f p.1 p.2) = .ok vs := by
  have hcolumn (values : Fallible (List (Value α))) :
      (do return column (← values) : Fallible (ColumnarValue α)).map (intoValues len) = values := by
    cases values <;> rfl
  cases c with
  | const left =>
    cases c' with
    | const right =>
      rw [intoValues, intoValues, zip_replicate, Nat.min_self, mapM_replicate_eq_ok hlen, zipEach, map_eq_ok]
      cases f left right <;> simp [pure, Except.pure, intoValues]
    | column right =>
      have hzip : (List.replicate len left).zip right = right.map fun r => (left, r) :=
        ext_getElem (by simp_all [intoValues]) (by simp)
      rw [zipEach, hcolumn, intoValues, intoValues, hzip, mapM_map]
      rfl
  | column left =>
    cases c' with
    | const right =>
      have hzip : left.zip (List.replicate len right) = left.map fun l => (l, right) :=
        ext_getElem (by simp_all [intoValues]) (by simp)
      rw [zipEach, hcolumn, intoValues, intoValues, hzip, mapM_map]
      rfl
    | column right => rw [zipEach, hcolumn, intoValues, intoValues]

end ColumnarValue

namespace CompiledExpr

variable {ω α : Type} {rows : List (Tuple α)}

-- Columns by type hold what the rows hold.
def Typed (rows : List (Tuple α)) (typed : Option (List (List (Value α)))) : Prop :=
  ∀ cols ∈ typed, ∀ (i : ℕ) (col : List (Value α)), cols[i]? = some col → rows.mapM (readSlot · i) = .ok col

theorem mapM_const {A : Type} {xs : List A} :
    xs.mapM (fun _ => (.ok v : Fallible (Value α))) = .ok (.replicate xs.length v) := by
  rw [mapM_eq_ok (g := fun _ => v) fun _ _ => rfl, map_const']

theorem slotColumn_eq_ok (ht : Typed rows typed) :
    (slotColumn rows typed i).map (ColumnarValue.intoValues len) = .ok vs ↔ rows.mapM (readSlot · i) = .ok vs := by
  unfold slotColumn
  split
  case h_1 col hcol =>
    obtain ⟨cols, hcols, hcol⟩ := Option.bind_eq_some_iff.mp hcol
    rw [ht cols hcols i col hcol]
    rfl
  case h_2 =>
    cases rows.mapM (readSlot · i) <;> rfl

theorem mapM_error_ne_ok (hrows : rows ≠ []) :
    rows.mapM (fun _ => (.error err : Fallible (Value α))) ≠ .ok vs := by
  obtain ⟨row, hrow⟩ := exists_mem_of_ne_nil rows hrows
  have ⟨e, he⟩ := mapM_eq_error (f := fun _ => (.error err : Fallible (Value α))) ⟨row, hrow, err, rfl⟩
  simp [he]

variable [Foreign α] {rt : Runtime ω α} {columns : List String} {now : ω} {env : EvalEnv α}

-- Operators are applied to columns. A constant stands for a value of each row, of which there is at
-- least one.
theorem evaluateBatch_eq_ok (hrows : rows ≠ []) (ht : Typed rows typed) (c : CompiledExpr ω α) :
    (evaluateBatch rt now columns env rows typed c).map (ColumnarValue.intoValues rows.length) = .ok vs ↔
      rows.mapM (evaluate rt now columns env · c) = .ok vs := by
  have hlen : 0 < rows.length := length_pos_iff.mpr hrows
  fun_induction evaluateBatch rt now columns env rows typed c generalizing vs with
  | case1 value =>
    simp only [evaluate]
    exact (congrArg (· = _) mapM_const).symm.to_iff
  | case2 i | case3 i =>
    simp only [evaluate]
    exact slotColumn_eq_ok ht
  | case4 op operand ind =>
    simp only [evaluate]
    rw [mapM_bind_eq_ok, map_eq_ok]
    constructor
    · rintro ⟨c', hc', rfl⟩
      obtain ⟨c, hc, hc'⟩ := bind_eq_ok.mp hc'
      exact ⟨c.intoValues rows.length, ind.mp (by rw [hc]; rfl), (c.mapEach_eq_ok hlen).mp (by rw [hc']; rfl)⟩
    · rintro ⟨values, hvalues, h⟩
      obtain ⟨c, hc, rfl⟩ := map_eq_ok.mp (ind.mpr hvalues)
      obtain ⟨c', hc', heq⟩ := map_eq_ok.mp ((c.mapEach_eq_ok hlen).mpr h)
      exact ⟨c', bind_eq_ok.mpr ⟨c, hc, hc'⟩, heq⟩
  | case5 op left right ind ind' =>
    simp only [evaluate]
    rw [mapM_zip_eq_ok, map_eq_ok]
    constructor
    · rintro ⟨c, hc, rfl⟩
      obtain ⟨l, hl, hc⟩ := bind_eq_ok.mp hc
      obtain ⟨r, hr, hc⟩ := bind_eq_ok.mp hc
      have hls := ind.mp (by rw [hl]; rfl)
      have hrs := ind'.mp (by rw [hr]; rfl)
      refine ⟨_, _, hls, hrs, ?_⟩
      refine (ColumnarValue.zipEach_eq_ok (f := (rt.binary · op ·)) hlen (length_of_mapM hls) (length_of_mapM hrs)).mp ?_
      rw [hc]
      rfl
    · rintro ⟨ls, rs, hls, hrs, h⟩
      obtain ⟨l, hl, rfl⟩ := map_eq_ok.mp (ind.mpr hls)
      obtain ⟨r, hr, rfl⟩ := map_eq_ok.mp (ind'.mpr hrs)
      have h := (ColumnarValue.zipEach_eq_ok (f := (rt.binary · op ·)) hlen (length_of_mapM hls) (length_of_mapM hrs)).mpr h
      obtain ⟨c, hc, heq⟩ := map_eq_ok.mp h
      exact ⟨c, bind_eq_ok.mpr ⟨l, hl, bind_eq_ok.mpr ⟨r, hr, hc⟩⟩, heq⟩
  | case6 name value hvalue | case8 name value hvalue =>
    simp only [evaluate, hvalue]
    exact (congrArg (· = _) mapM_const).symm.to_iff
  | case7 name hnone | case9 name hnone =>
    simp only [evaluate, hnone, Option.elim, mapM_error_ne_ok hrows, iff_false]
    simp [map_eq_ok]
  | case10 c =>
    cases rows.mapM (evaluate rt now columns env · c) <;> rfl

end CompiledExpr
end Linkrs
