import Linkrs.Query.ExprScope

namespace Linkrs.Expr

open List Option Function

variable {ω α : Type}

def requiresRuntimeContext : Expr α → Bool
  | .literal _ => false
  | .variable _ => true
  | .property _ _ => true
  | .structField base _ => requiresRuntimeContext base
  | .binary left _ right => requiresRuntimeContext left || requiresRuntimeContext right
  | .unary _ operand => requiresRuntimeContext operand
  | .function _ args => (args.map requiresRuntimeContext).any id
  | .aggregate _ args _ _ => (args.map requiresRuntimeContext).any id
  | .list items => (items.map requiresRuntimeContext).any id
  | .map entries => (entries.map fun e => requiresRuntimeContext e.2).any id
  | .case test conditions default =>
    (match test with
      | some test => requiresRuntimeContext test
      | none => false) ||
    (conditions.map fun c => requiresRuntimeContext c.1 || requiresRuntimeContext c.2).any id ||
    (match default with
      | some default => requiresRuntimeContext default
      | none => false)
  | .typeCast expression _ => requiresRuntimeContext expression
  | .subscript collection index => requiresRuntimeContext collection || requiresRuntimeContext index
  | .range collection start stop =>
    requiresRuntimeContext collection ||
    (match start with
      | some start => requiresRuntimeContext start
      | none => false) ||
    (match stop with
      | some stop => requiresRuntimeContext stop
      | none => false)
  | .path items => (items.map requiresRuntimeContext).any id
  | .label _ => false
  | .listComprehension _ source filter mapping =>
    requiresRuntimeContext source ||
    (match filter with
      | some filter => requiresRuntimeContext filter
      | none => false) ||
    (match mapping with
      | some mapping => requiresRuntimeContext mapping
      | none => false)
  | .labelTagProperty tag _ => requiresRuntimeContext tag
  | .tagProperty _ _ => false
  | .edgeProperty _ _ => false
  | .predicate _ args => (args.map requiresRuntimeContext).any id
  | .reduce _ initial _ source mapping =>
    requiresRuntimeContext initial || requiresRuntimeContext source || requiresRuntimeContext mapping
  | .pathBuild items => (items.map requiresRuntimeContext).any id
  | .parameter _ => true
  | .sessionVariable _ => true
  | .vector _ => false
  | .windowFunction _ args => (args.map requiresRuntimeContext).any id
  | .exists _ => true
  | .in expr _ _ => requiresRuntimeContext expr
  | .countSubquery _ => true
  | .scalarSubquery _ => true
  | .lambda _ body => requiresRuntimeContext body
termination_by e => sizeOf e
decreasing_by
  all_goals simp_wf
  all_goals first
    | omega
    | (have h := sizeOf_lt_of_mem ‹_›; omega)
    | (have h := sizeOf_pair_lt ‹_›; omega)

def isEvaluable (e : Expr α) : Bool :=
  !requiresRuntimeContext e

section

variable (rt : Runtime ω α)

-- What is not listed counts as pure, whatever is below it.
def isPure : Expr α → Bool
  | .aggregate _ _ _ _ => false
  | .windowFunction _ _ => false
  | .scalarSubquery _ => false
  | .function name args => (rt.builtin name).any (·.isPure) && (args.map isPure).all id
  | .binary left _ right => isPure left && isPure right
  | .unary _ operand => isPure operand
  | .list items => (items.map isPure).all id
  | .map entries => (entries.map fun e => isPure e.2).all id
  | .case test conditions default =>
    (match test with
      | some test => isPure test
      | none => true) &&
    (conditions.map fun c => isPure c.1 && isPure c.2).all id &&
    (match default with
      | some default => isPure default
      | none => true)
  | .typeCast expression _ => isPure expression
  | .subscript collection index => isPure collection && isPure index
  | .range collection start stop =>
    isPure collection &&
    (match start with
      | some start => isPure start
      | none => true) &&
    (match stop with
      | some stop => isPure stop
      | none => true)
  | .path items => (items.map isPure).all id
  | .pathBuild items => (items.map isPure).all id
  | _ => true
termination_by e => sizeOf e
decreasing_by
  all_goals simp_wf
  all_goals first
    | omega
    | (have h := sizeOf_lt_of_mem ‹_›; omega)
    | (have h := sizeOf_pair_lt ‹_›; omega)

variable [Foreign α] (now : ω)

-- The literal that an expression evaluates to without any context, if it does.
def attempt (folded : Expr α) : Expr α :=
  if isEvaluable folded && isPure rt folded then
    match folded.evaluate rt (.default now) with
    | .ok value => .literal value
    | .error _ => folded
  else folded

def foldExpression : Expr α → Expr α
  | .binary left op right => attempt rt now (.binary (foldExpression left) op (foldExpression right))
  | .unary op operand => attempt rt now (.unary op (foldExpression operand))
  | .function name args => attempt rt now (.function name (args.map foldExpression))
  | .list items => attempt rt now (.list (items.map foldExpression))
  | .map entries => attempt rt now (.map (entries.map fun e => (e.1, foldExpression e.2)))
  | .case test conditions default =>
    attempt rt now (.case (match test with
        | some test => some (foldExpression test)
        | none => none)
      (conditions.map fun c => (foldExpression c.1, foldExpression c.2))
      (match default with
        | some default => some (foldExpression default)
        | none => none))
  | .typeCast expression target => attempt rt now (.typeCast (foldExpression expression) target)
  | .subscript collection index => attempt rt now (.subscript (foldExpression collection) (foldExpression index))
  | .range collection start stop =>
    attempt rt now (.range (foldExpression collection) (match start with
        | some start => some (foldExpression start)
        | none => none)
      (match stop with
        | some stop => some (foldExpression stop)
        | none => none))
  | .path items => attempt rt now (.path (items.map foldExpression))
  | .pathBuild items => attempt rt now (.pathBuild (items.map foldExpression))
  | e => attempt rt now e
termination_by e => sizeOf e
decreasing_by
  all_goals simp_wf
  all_goals first
    | omega
    | (have h := sizeOf_lt_of_mem ‹_›; omega)
    | (have h := sizeOf_pair_lt ‹_›; omega)

theorem foldExpression_eq (e : Expr α) :
    foldExpression rt now e = attempt rt now (e.mapOperands (foldExpression rt now)) := by
  cases e with
  | case test conditions default =>
    cases test <;> cases default <;> rw [foldExpression] <;> rfl
  | range collection start stop => cases start <;> cases stop <;> rw [foldExpression] <;> rfl
  | _ =>
    rw [foldExpression]
    · rfl
    all_goals simp

end

def hasOperands : Expr α → Bool
  | .function _ _ => true
  | e => e.isOperation

theorem mapOperands_of_not {e : Expr α} (h : ¬e.hasOperands) (g : Expr α → Expr α) : e.mapOperands g = e := by
  cases e <;> first | rfl | simp [hasOperands, isOperation] at h

theorem requiresRuntimeContext_mapOperands {e : Expr α} (h : e.hasOperands) (g : Expr α → Expr α) :
    requiresRuntimeContext (e.mapOperands g) = e.children.any fun c => requiresRuntimeContext (g c) := by
  cases e with
  | case test conditions default =>
    cases test <;> cases default <;> simp [mapOperands, requiresRuntimeContext, children, any_flatMap, comp_def,
      Bool.or_assoc]
  | range collection start stop =>
    cases start <;> cases stop <;> simp [mapOperands, requiresRuntimeContext, children, Bool.or_assoc]
  | binary | unary | function | list | map | typeCast | subscript | path | pathBuild =>
    simp [mapOperands, requiresRuntimeContext, children, comp_def]
  | _ => simp [hasOperands, isOperation] at h

-- What the name of a function says about a call.
def pureCall (rt : Runtime ω α) : Expr α → Bool
  | .function name _ => (rt.builtin name).any (·.isPure)
  | _ => true

theorem isPure_mapOperands (rt : Runtime ω α) {e : Expr α} (h : e.hasOperands) (g : Expr α → Expr α) :
    isPure rt (e.mapOperands g) = (e.pureCall rt && e.children.all fun c => isPure rt (g c)) := by
  cases e with
  | case test conditions default =>
    cases test <;> cases default <;> simp only [mapOperands, isPure, pureCall, children, map_some, map_none,
      toList_some, toList_none, List.map_map, List.all_map, all_append, all_flatMap, all_cons,
      all_nil, nil_append, Bool.and_true, Bool.true_and, Bool.and_assoc, comp_def, id_eq]
  | range collection start stop =>
    cases start <;> cases stop <;> simp only [mapOperands, isPure, pureCall, children, map_some, map_none,
      toList_some, toList_none, all_append, all_cons, all_nil, Bool.and_true, Bool.true_and,
      Bool.and_assoc]
  | binary | unary | function | list | map | typeCast | subscript | path | pathBuild =>
    simp [mapOperands, isPure, pureCall, children, comp_def]
  | _ => simp [hasOperands, isOperation] at h

-- What the folder tries to evaluate.
def foldable (rt : Runtime ω α) (e : Expr α) : Bool :=
  isEvaluable e && isPure rt e

section

variable [Foreign α]

theorem attempt_eq (rt : Runtime ω α) (now : ω) (e : Expr α) :
    attempt rt now e = e ∨ foldable rt e ∧ ∃ v, e.evaluate rt (.default now) = .ok v ∧ attempt rt now e = .literal v := by
  unfold attempt
  split
  case isFalse => exact .inl rfl
  case isTrue h =>
    split
    case h_1 v hv => exact .inr ⟨h, v, hv, rfl⟩
    case h_2 => exact .inl rfl

variable {rt : Runtime ω α} {now : ω}

theorem attempt_of_ok (hf : foldable rt e) (hv : e.evaluate rt (.default now) = .ok v) :
    attempt rt now e = .literal v := by
  unfold attempt
  rw [if_pos (by exact hf), hv]

omit [Foreign α] in
-- Nothing becomes foldable because its operands were replaced by others that are not foldable either.
theorem foldable_of_mapOperands
    (h : ∀ c ∈ e.children, (isEvaluable (g c) → isEvaluable c) ∧ (isPure rt (g c) → isPure rt c)) :
    (isEvaluable (e.mapOperands g) → isEvaluable e) ∧ (isPure rt (e.mapOperands g) → isPure rt e) := by
  by_cases hop : e.hasOperands
  · have heval := requiresRuntimeContext_mapOperands hop id
    have hpure := isPure_mapOperands rt hop id
    rw [mapOperands_id] at heval hpure
    unfold isEvaluable at h ⊢
    rw [requiresRuntimeContext_mapOperands hop, isPure_mapOperands rt hop, heval, hpure]
    simp only [id_eq, Bool.not_eq_true', List.any_eq_false, Bool.and_eq_true, List.all_eq_true] at h ⊢
    exact ⟨fun h' c hc => by simpa using (h c hc).1 (by simpa using h' c hc),
      fun ⟨hcall, h'⟩ => ⟨hcall, fun c hc => (h c hc).2 (h' c hc)⟩⟩
  · rw [mapOperands_of_not hop]
    exact ⟨id, id⟩

theorem foldable_of_fold (rt : Runtime ω α) (now : ω) (e : Expr α) :
    (isEvaluable (foldExpression rt now e) → isEvaluable e) ∧ (isPure rt (foldExpression rt now e) → isPure rt e) := by
  induction e using induction_below with
  | h e ind =>
  have hrebuilt := foldable_of_mapOperands fun c hc => ind c (sizeOf_lt_of_mem_children hc)
  rw [foldExpression_eq]
  obtain heq | ⟨hf, v, -, heq⟩ := attempt_eq rt now (e.mapOperands (foldExpression rt now))
  · rwa [heq]
  · have ⟨heval, hpure⟩ := Bool.and_eq_true_iff.mp hf
    exact ⟨fun _ => hrebuilt.1 heval, fun _ => hrebuilt.2 hpure⟩

theorem foldable_of_rebuilt (h : foldable rt (e.mapOperands (foldExpression rt now))) : foldable rt e := by
  have hrebuilt := foldable_of_mapOperands (e := e) fun c _ => foldable_of_fold rt now c
  have ⟨heval, hpure⟩ := Bool.and_eq_true_iff.mp h
  exact Bool.and_eq_true_iff.mpr ⟨hrebuilt.1 heval, hrebuilt.2 hpure⟩

end

inductive Everywhere (P : Expr α → Prop) : Expr α → Prop where
  | intro {e : Expr α} (here : P e) (below : ∀ c ∈ e.children, Everywhere P c) : Everywhere P e

-- What neither depends on the state of the world nor looks for a column that has the name of a property
-- of a variable set before.
def Steady (rt : Runtime ω α) (W : Set String) : Expr α → Prop
  | .function name _ => (rt.builtin name).any (·.isPure)
  | .property (.variable name) _ => name ∉ W
  | .tagProperty name _ => name ∉ W
  | .edgeProperty name _ => name ∉ W
  | _ => True

-- What was set without a context is set to the same with one.
def Below (W R : Set String) (σ τ : String → Option (Value α)) : Prop :=
  (∀ n v, σ n = some v → τ n = some v) ∧ (∀ n, n ∉ W → σ n = none) ∧ ∀ n ∈ R, σ n ≠ none

section

variable {W R : Set String} {ctx : Context ω α} {now now' : ω} {columns : List String} {row : Tuple α} {env : EvalEnv α}

theorem Below.anti (h : R ⊆ R') : (Below W R' : (String → Option (Value α)) → _ → Prop) ≤ Below W R :=
  fun _ _ ⟨hle, hW, hR⟩ => ⟨hle, hW, fun n hn => hR n (h hn)⟩

theorem Below.assigns (h : ∀ n ∈ ns, n ∈ W) :
    Assigns (Below W R : (String → Option (Value α)) → _ → Prop) ns (Below W ({n | n ∈ ns} ∪ R)) := by
  refine .of_assign (I := fun R => Below W R) (fun {R n v σ τ} hn hρ => ⟨fun n' v' hv' => ?_, fun n' hn' => ?_, ?_⟩)
    (fun h => Below.anti h) h
  · by_cases heq : n' = n
    · simp_all
    · rw [update_of_ne heq] at hv' ⊢
      exact hρ.1 n' v' hv'
  · have heq : n' ≠ n := fun heq => hn' (heq ▸ hn)
    rw [update_of_ne heq]
    exact hρ.2.1 n' hn'
  · intro n' hn'
    by_cases heq : n' = n
    · simp [heq]
    · rw [update_of_ne heq]
      exact hρ.2.2 n' (Set.mem_of_mem_insert_of_ne hn' heq)

theorem getVariable_default : getVariable (.default now : Context ω α) name σ = .ok (σ name, σ) := by
  have hl : (Scoped.lookup name : Eval α _) σ = .ok (σ name, σ) := rfl
  rw [getVariable, Scoped.bind_of_ok hl]
  cases σ name <;> rfl

theorem getVariable_of_set (h : σ name = some v) : getVariable ctx name σ = .ok (some v, σ) := by
  have hl : (Scoped.lookup name : Eval α _) σ = .ok (some v, σ) := by rw [← h]; rfl
  rw [getVariable, Scoped.bind_of_ok hl]
  rfl

theorem below_getVariable (h : name ∈ R) :
    Sim (Below W R) (getVariable (.default now) name) (getVariable ctx name) (Below W R) := by
  intro σ τ hρ v σ' hv
  rw [getVariable_default] at hv
  cases hv
  obtain ⟨v, hv⟩ := ne_none_iff_exists'.mp (hρ.2.2 name h)
  exact ⟨τ, by rw [getVariable_of_set (hρ.1 name v hv), hv], hρ⟩

theorem below_required (name : String) :
    Sim (Below W R) (required (.default now) name) (required ctx name) (Below W R) := by
  intro σ τ hρ v σ' hv
  rw [required, Scoped.bind_of_ok getVariable_default] at hv
  cases hσ : σ name with
  | none =>
    rw [hσ] at hv
    cases hv
  | some w =>
    rw [hσ] at hv
    cases hv
    exact ⟨τ, by rw [required, Scoped.bind_of_ok (getVariable_of_set (hρ.1 name v hσ))]; rfl, hρ⟩

theorem below_namedProperty (h : name ∉ W) :
    Sim (Below W R) (namedProperty rt (.default now) name field (required (.default now) name))
      (namedProperty rt ctx name field (required ctx name)) (Below W R) := by
  intro σ τ hρ v σ' hv
  rw [namedProperty, Scoped.bind_of_ok getVariable_default] at hv
  cases hσ : σ (name ++ "." ++ field) with
  | none =>
    rw [hσ] at hv
    obtain ⟨w, σ'', hw, -⟩ := Scoped.bind_eq_ok hv
    rw [required, Scoped.bind_of_ok getVariable_default, hρ.2.1 name h] at hw
    cases hw
  | some w =>
    rw [hσ] at hv
    cases hv
    exact ⟨τ, by rw [namedProperty, Scoped.bind_of_ok (getVariable_of_set (hρ.1 _ v hσ))]; rfl, hρ⟩

theorem Everywhere.operand {P : Expr α → Prop} (h : Everywhere P e)
    (hc : (ns, c) ∈ e.evaluated) : Everywhere P c := by
  obtain ⟨_, below⟩ := h
  have hchild (hc : ∃ c' ∈ e.children, ([], c') = (ns, c)) : Everywhere P c := by
    obtain ⟨c, hc, heq⟩ := hc
    cases heq
    exact below c hc
  fun_cases evaluated e with
  | case1 name source params body rest =>
    obtain ⟨_, hinner⟩ := below (.lambda params body) (by simp [children])
    simp only [evaluated, mem_cons, Prod.mk.injEq, List.mem_map] at hc
    obtain ⟨-, rfl⟩ | ⟨-, rfl⟩ | ⟨c, hc, -, rfl⟩ := hc
    · exact below c (by simp [children])
    · exact hinner c (by simp [children])
    · exact below c (by simp [children, hc])
  | case2 | case3 | case4 => exact below c (by simp only [evaluated, children] at *; grind)
  | case5 => exact hchild (List.mem_map.mp (by simpa only [evaluated] using hc))

-- What is computed without a context is computed in every row.
theorem agrees_below [Foreign α] (hp : rt.Pure) :
    Agrees rt (.default now) (.borrowedRow now' columns row env) (Below W)
      fun e _ => Everywhere (Steady rt W) e ∧ {n | n ∈ e.binds} ⊆ W where
  anti h := Below.anti h
  assigns he hn := Below.assigns fun n h => he.2 (hn n h)
  operand he hc := ⟨he.1.operand hc, fun n hn => he.2 ((within_of_mem_evaluated hc).binds n (.inr hn))⟩
  bound h := below_getVariable h
  read _ := below_required _
  field he h := by
    obtain ⟨⟨here, -⟩, -⟩ := he
    obtain rfl | rfl | rfl := h <;> exact below_namedProperty here
  call he vs v h := by
    obtain ⟨⟨here, -⟩, -⟩ := he
    rwa [callFunction_of_pure hp here now] at h ⊢
  contains body value found h := by
    simp only [Context.default, Context.borrowedRow] at h ⊢
    split at h
    case isTrue hnull => rwa [if_pos hnull]
    case isFalse => cases h
  external {e _} he := by
    cases e with
    | parameter name | sessionVariable name => simpa only [eval] using .throw _
    | «exists» body =>
      simp only [eval]
      exact (Sim.liftOf fun _ h => by cases h).bind fun _ => .pure _
    | scalarSubquery body =>
      simp only [eval]
      exact .liftOf fun _ h => by cases h
    | _ => simp [isExternal] at he

end

inductive Visits : Expr α → Expr α → Prop where
  | self {e : Expr α} : Visits e e
  | operand {c e s : Expr α} (he : e.hasOperands) (hc : c ∈ e.children) (h : Visits c s) : Visits e s

section

variable [Foreign α] {rt : Runtime ω α} {now : ω}

theorem keepsLambdas_foldExpression : KeepsLambdas (foldExpression rt now) := by
  intro c
  rw [foldExpression_eq]
  obtain heq | ⟨_, v, hv, heq⟩ := attempt_eq rt now (c.mapOperands (foldExpression rt now))
  · rw [heq]
    cases c <;> simp [mapOperands, isLambda]
  · rw [heq]
    cases c with
    | lambda params body =>
      simp only [mapOperands, evaluate, eval] at hv
      cases hv
    | _ => simp [isLambda]

-- Two runs from which some variables may differ that the one has set in what the other has as a literal.
def Fades (L : Set String) (m m' : Eval α (Value α)) : Prop :=
  Sim (Set.EqOn · · Lᶜ) m m' (Set.EqOn · · Lᶜ) ∧ Sim (Set.EqOn · · Lᶜ) m' m (Set.EqOn · · Lᶜ)

variable {L : Set String}

theorem fades_child (h : c.isLambda = false → Fades L (eval rt ctx c) (eval rt ctx (foldExpression rt now c))) :
    Fades L (eval rt ctx c) (eval rt ctx (foldExpression rt now c)) := by
  cases hl : c.isLambda with
  | false => exact h hl
  | true =>
    have ⟨err, herr⟩ := eval_lambda rt ctx hl
    rw [(keepsLambdas_foldExpression c).1 hl, herr]
    exact ⟨.throw err, .throw err⟩

theorem fades_operands
    (h : ∀ c ∈ e.children, e.hasOperands → c.isLambda = false → {n | n ∈ c.reads} ⊆ {n | n ∈ e.reads} →
      Fades L (eval rt ctx c) (eval rt ctx (foldExpression rt now c))) (hr : {n | n ∈ e.reads} ⊆ Lᶜ) :
    Fades L (eval rt ctx e) (eval rt ctx (e.mapOperands (foldExpression rt now))) := by
  by_cases hop : e.isOperation
  · have hc (c : Expr α) (hc : c ∈ e.children) : Fades L (eval rt ctx c) (eval rt ctx (foldExpression rt now c)) := by
      refine fades_child fun hl => h c hc ?_ hl (subset_reads_of_plain hc ?_)
      · cases e <;> first | exact hop | rfl
      · cases e <;> simp only [isOperation, Bool.false_eq_true] at hop <;> simp only [reads]
    have h₁ := sim_operation hop (f := id) fun c hc' => (hc c hc').1
    have h₂ := sim_operation hop (g := id) fun c hc' => (hc c hc').2
    rw [mapOperands_id] at h₁ h₂
    exact ⟨h₁, h₂⟩
  by_cases hf : ∃ name args, e = .function name args
  · obtain ⟨name, args, rfl⟩ := hf
    have hc (c : Expr α) (hc : c ∈ args) (hl : c.isLambda = false) := h c hc rfl hl fun n hn =>
      ((within_of_mem_evaluated (mem_evaluated_of_arg hc hl)).reads n hn).resolve_left (not_mem_nil ·)
    have hbody (source : Expr α) (params : List String) (body : Expr α) (rest : List (Expr α))
        (heq : args = source :: .lambda params body :: rest) :
        ∃ ρ₁, Assigns (Set.EqOn · · Lᶜ) (boundParams name params) ρ₁ ∧
          Sim ρ₁ (eval rt ctx body) (eval rt ctx body) (Set.EqOn · · Lᶜ) := by
      subst heq
      refine ⟨_, Assigns.eqOn, ((footprint rt ctx body).depends ?_).weaken le_rfl fun _ _ hρ =>
        hρ.mono Set.subset_union_right⟩
      exact fun n hn => (Within.reads (within_of_mem_evaluated (by simp [evaluated])) n hn).imp_right (hr ·)
    have h₁ := sim_function keepsLambdas_id keepsLambdas_foldExpression (fun c hc' hl => (hc c hc' hl).1) (fun _ _ hv => hv) hbody
    have h₂ := sim_function keepsLambdas_foldExpression keepsLambdas_id (fun c hc' hl => (hc c hc' hl).2) (fun _ _ hv => hv) hbody
    rw [List.map_id] at h₁ h₂
    exact ⟨h₁, h₂⟩
  · have hno : ¬e.hasOperands := by
      cases e with
      | function name args => exact (hf ⟨name, args, rfl⟩).elim
      | _ => exact hop
    rw [mapOperands_of_not hno]
    exact ⟨(footprint rt ctx e).depends hr, (footprint rt ctx e).depends hr⟩

-- An expression that evaluates to a value without a context does so in every row, whatever was set.
theorem eval_of_default (hp : rt.Pure)
    (hs : Everywhere (Steady rt {n | n ∈ e.binds}) e) (hv : eval rt (.default now) e (fun _ => none) = .ok (v, σ'))
    (now' : ω) (columns : List String) (row : Tuple α) (env : EvalEnv α) (τ : String → Option (Value α)) :
    ∃ τ', eval rt (.borrowedRow now' columns row env) e τ = .ok (v, τ') ∧ Set.EqOn τ' τ {n | n ∈ e.binds}ᶜ := by
  have hbelow : Below {n | n ∈ e.binds} ∅ (fun _ => none) τ :=
    ⟨fun _ _ h => by simp at h, fun _ _ => rfl, fun _ h => h.elim⟩
  obtain ⟨τ', hτ, -⟩ := (agrees_below hp).eval ⟨hs, subset_rfl⟩ hbelow hv
  exact ⟨τ', hτ, (footprint _ _ e).frame hτ⟩

theorem fades_foldExpression (now : ω) (hp : rt.Pure)
    (hs : ∀ s, Visits e s → foldable rt s → Everywhere (Steady rt {n | n ∈ s.binds}) s ∧ {n | n ∈ s.binds} ⊆ L)
    (hr : {n | n ∈ e.reads} ⊆ Lᶜ) (now' : ω) (columns : List String) (row : Tuple α) (env : EvalEnv α) :
    Fades L (eval rt (.borrowedRow now' columns row env) e)
      (eval rt (.borrowedRow now' columns row env) (foldExpression rt now e)) := by
  induction e using induction_below generalizing now' columns row env with
  | h e ind =>
  have hrebuilt (now' : ω) (columns : List String) (row : Tuple α) (env : EvalEnv α) :
      Fades L (eval rt (.borrowedRow now' columns row env) e)
        (eval rt (.borrowedRow now' columns row env) (e.mapOperands (foldExpression rt now))) :=
    fades_operands (fun c hc hop _ hsub => ind c (sizeOf_lt_of_mem_children hc) (fun s hv => hs s (.operand hop hc hv))
      (hsub.trans hr) now' columns row env) hr
  rw [foldExpression_eq]
  obtain heq | ⟨hf, v, hv, heq⟩ := attempt_eq rt now (e.mapOperands (foldExpression rt now))
  · rw [heq]
    exact hrebuilt now' columns row env
  -- What was folded is an expression that evaluates to the same literal in every row.
  · obtain ⟨hsteady, hL⟩ := hs e .self (foldable_of_rebuilt hf)
    obtain ⟨⟨v, σ'⟩, hv', rfl⟩ := Except.map_eq_ok.mp hv
    obtain ⟨σ'', hv, _⟩ := (hrebuilt now [] [] .none).2 (Set.eqOn_refl (fun _ => none) _) hv'
    rw [heq, eval]
    constructor
    · intro σ τ hρ a σ₁ ha
      obtain ⟨σ₂, hσ, hframe⟩ := eval_of_default hp hsteady hv now' columns row env σ
      rw [hσ] at ha
      cases ha
      exact ⟨τ, rfl, (hframe.mono (Set.compl_subset_compl.mpr hL)).trans hρ⟩
    · intro σ τ hρ a σ₁ ha
      obtain ⟨τ', hτ, hframe⟩ := eval_of_default hp hsteady hv now' columns row env τ
      cases ha
      exact ⟨τ', hτ, hρ.trans (hframe.mono (Set.compl_subset_compl.mpr hL)).symm⟩

end

-- What the folder may replace by a literal depends on nothing, and the expression looks up none of the
-- variables that would have been set there.
structure Settled (rt : Runtime ω α) (e : Expr α) : Prop where
  steady : ∀ s, Visits e s → foldable rt s → Everywhere (Steady rt {n | n ∈ s.binds}) s
  apart : ∀ s, Visits e s → foldable rt s → ∀ n ∈ s.binds, n ∉ e.reads

theorem foldExpression_preserves [Foreign α] {rt : Runtime ω α} {e : Expr α} (hp : rt.Pure) (hs : e.Settled rt)
    (now now' : ω) (columns : List String) (row : Tuple α) (env : EvalEnv α) :
    ((foldExpression rt now e).evaluate rt (.borrowedRow now' columns row env)).toOption =
      (e.evaluate rt (.borrowedRow now' columns row env)).toOption := by
  have hfades := fades_foldExpression (L := {n | n ∉ e.reads}) now hp
    (fun s hv hf => ⟨hs.steady s hv hf, hs.apart s hv hf⟩) (fun n hn hL => hL hn) now' columns row env
  have hρ := Set.eqOn_refl (fun _ : String => (none : Option (Value α))) {n | n ∉ e.reads}ᶜ
  ext v
  simp only [Except.toOption_eq_some, evaluate, Except.map_eq_ok]
  constructor
  · rintro ⟨⟨_, σ⟩, hv, rfl⟩
    have ⟨τ, hτ, _⟩ := hfades.2 hρ hv
    exact ⟨_, hτ, rfl⟩
  · rintro ⟨⟨_, σ⟩, hv, rfl⟩
    have ⟨τ, hτ, _⟩ := hfades.1 hρ hv
    exact ⟨_, hτ, rfl⟩

-- `abs(-1)`
def absCall : Expr Empty :=
  .function "abs" [.literal (.int (-1))]

-- `[y IN [7] | abs(-1)]`
def absEach : Expr Empty :=
  .listComprehension "y" (.literal (.list [.int 7])) none (some absCall)

theorem eval_absCall (ctx : Context Int64 Empty) : eval .clock ctx absCall = pure (.int 1) := by
  rw [absCall, eval_function (by simp [isLambda])]
  simp only [List.map_cons, List.map_nil, eval]
  rfl

theorem evaluate_absEach (ctx : Context Int64 Empty) : evaluate .clock ctx absEach = .ok (.list [.int 1]) := by
  simp only [evaluate, absEach, eval_listComprehension, Option.map, eval, eval_absCall]
  rfl

theorem steady_absCall : Everywhere (Steady .clock W) absCall := by
  refine .intro rfl fun c hc => ?_
  obtain rfl : c = .literal (.int (-1)) := by simpa [absCall, children] using hc
  exact .intro trivial (by simp [children])

-- `[[y IN [7] | abs(-1)], x]`, the first part of which is replaced by a literal.
theorem foldExpression_preserves_comprehension :
    let e : Expr Empty := .list [absEach, .variable "x"]
    foldExpression .clock 3 e = .list [.literal (.list [.int 1]), .variable "x"] ∧
      ((foldExpression .clock 3 e).evaluate .clock (.borrowedRow 5 ["x"] [.int 2] .none)).toOption =
        (e.evaluate .clock (.borrowedRow 5 ["x"] [.int 2] .none)).toOption := by
  intro e
  have hpart (s) (hv : Visits e s) (hf : foldable .clock s) : s = absEach := by
    cases hv with
    | self => simp [e, foldable, isEvaluable, requiresRuntimeContext] at hf
    | operand _ hc hv =>
      simp only [e, children, mem_cons, not_mem_nil, or_false] at hc
      obtain rfl | rfl := hc
      · cases hv with
        | self => rfl
        | operand he => cases he
      · cases hv with
        | self => simp [foldable, isEvaluable, requiresRuntimeContext] at hf
        | operand he => cases he
  constructor
  · have heach : foldExpression .clock 3 absEach = .literal (.list [.int 1]) := by
      refine (foldExpression_eq ..).trans (attempt_of_ok ?_ (evaluate_absEach _))
      simp [absEach, absCall, mapOperands, foldable, isEvaluable, requiresRuntimeContext, isPure]
    simp [e, foldExpression, attempt, isEvaluable, requiresRuntimeContext, heach]
  · refine foldExpression_preserves Runtime.clock_pure ⟨fun s hv hf => ?_, fun s hv hf n hn => ?_⟩ 3 5 ["x"] [.int 2] .none
    · obtain rfl := hpart s hv hf
      refine .intro trivial fun c hc => ?_
      simp only [absEach, children, Option.toList, nil_append, mem_cons, not_mem_nil, or_false] at hc
      obtain rfl | rfl := hc
      · exact .intro trivial (by simp [children])
      · exact steady_absCall
    · obtain rfl := hpart s hv hf
      simp_all [absEach, absCall, e, binds, reads, children]

-- `[x IN [1, 2] | timestamp()]`
theorem foldExpression_freezes_timestamp :
    (foldExpression .clock 3 (.listComprehension "x" (.literal (.list [.int 1, .int 2])) none
        (some (.function "timestamp" [])))).evaluate .clock (.borrowedRow 5 [] [] .none) =
      .ok (.list [.bigInt 3, .bigInt 3]) ∧ evaluate .clock (.borrowedRow 5 [] [] .none)
        (.listComprehension "x" (.literal (.list [.int 1, .int 2])) none (some (.function "timestamp" []))) =
      .ok (.list [.bigInt 5, .bigInt 5]) := by
  have heval (now : Int64) : evaluate .clock (.borrowedRow now [] [] .none)
      (.listComprehension "x" (.literal (.list [.int 1, .int 2])) none (some (.function "timestamp" []))) =
        .ok (.list [.bigInt now, .bigInt now]) := by
    have hcall : eval .clock (.borrowedRow now [] [] .none) (.function "timestamp" []) = pure (.bigInt now) := by
      rw [eval_function (by simp)]
      rfl
    simp only [evaluate, eval_listComprehension, Option.map, eval, hcall]
    rfl
  refine ⟨?_, heval 5⟩
  have hfold : foldExpression .clock 3 (.listComprehension "x" (.literal (.list [.int 1, .int 2])) none
      (some (.function "timestamp" []))) = .literal (.list [.bigInt 3, .bigInt 3]) := by
    rw [foldExpression, attempt, if_pos (by simp [isEvaluable, requiresRuntimeContext, isPure])]
    · rw [Context.default, heval 3]
    all_goals simp
  rw [hfold, evaluate, eval]
  rfl

end Linkrs.Expr
