import Linkrs.Query.CompiledExpr

namespace Linkrs
open List Scoped

namespace CompiledExpr

variable {ω α : Type} [Foreign α] {rt : Runtime ω α} {columns : List String}

open Linkrs.Expr (eval induction_below)

section

variable {now : ω} {ctx : Context ω α}

-- What was computed when the expression was compiled, in whatever context it is evaluated.
def Folds (rt : Runtime ω α) (now : ω) (columns : List String) (ctx : Context ω α) (e : Expr α) : Prop :=
  ∀ v, compile rt now columns e = const v → ∀ σ, eval rt ctx e σ = .ok (v, σ)

theorem collect_folded {es : List (Expr α)} (h : ∀ e ∈ es, Folds rt now columns ctx e)
    (hvs : (es.map (compile rt now columns)).mapM const? = some vs) (σ : String → Option (Value α)) :
    collect (es.map (eval rt ctx)) σ = .ok (vs, σ) := by
  induction es generalizing vs with
  | nil => cases hvs; rfl
  | cons e es ind =>
    have ⟨he, hes⟩ := forall_mem_cons.mp h
    simp only [map_cons, mapM_cons, Option.bind_eq_bind, Option.bind_eq_some_iff, const?_eq_some] at hvs
    obtain ⟨v, hv, vs', hvs', heq⟩ := hvs
    cases heq
    rw [map_cons, collect, bind_of_ok (he v hv σ), bind_of_ok (ind hes hvs')]
    rfl

theorem folds (hp : rt.Pure) (e : Expr α) : Folds rt now columns ctx e := by
  induction e using induction_below with
  | h e ind =>
  intro v h σ
  have below (c : Expr α) (hc : c ∈ e.children) : Folds rt now columns ctx c :=
    ind c (Expr.sizeOf_lt_of_mem_children hc)
  cases e with
  | literal | vector =>
    simp only [compile, const.injEq] at h
    simp only [eval, h]
    rfl
  | binary left op right =>
    rw [compile] at h
    have h := orElse_eq_const (by simp) h
    simp only [Option.bind_eq_bind, Option.bind_eq_some_iff, const?_eq_some] at h
    obtain ⟨l, hl, r, hr, heq⟩ := h
    have heq : rt.binary l op r = .ok v := Option.some.inj heq
    rw [eval, bind_of_ok (below left (by simp [Expr.children]) l hl σ),
      bind_of_ok (below right (by simp [Expr.children]) r hr σ), heq]
    rfl
  | unary op operand =>
    rw [compile] at h
    have h := orElse_eq_const (by simp) h
    simp only [Option.bind_eq_bind, Option.bind_eq_some_iff, const?_eq_some] at h
    obtain ⟨w, hw, heq⟩ := h
    have heq : rt.unary op w = .ok v := Option.some.inj heq
    rw [eval, bind_of_ok (below operand (by simp [Expr.children]) w hw σ), heq]
    rfl
  | typeCast expression target =>
    rw [compile] at h
    have h := orElse_eq_const (by simp) h
    simp only [Option.bind_eq_bind, Option.bind_eq_some_iff, const?_eq_some] at h
    obtain ⟨w, hw, heq⟩ := h
    have heq : rt.typeCast w target = .ok v := Option.some.inj heq
    rw [eval, bind_of_ok (below expression (by simp [Expr.children]) w hw σ), heq]
    rfl
  | function name args =>
    rw [compile] at h
    split at h
    case isTrue => simp at h
    case isFalse hf =>
      simp only [Bool.or_eq_true, not_or] at hf
      have h := orElse_eq_const (by simp) h
      split at h
      case isFalse => simp at h
      case isTrue hpure =>
        obtain ⟨vs, hvs, heq⟩ := Option.map_eq_some_iff.mp h
        have hargs (c : Expr α) (hc : c ∈ args) : Folds rt now columns ctx c := below c hc
        rw [Expr.eval_function (fun h => hf.1 h.2), bind_of_ok (collect_folded hargs hvs σ),
          Expr.callFunction_of_pure hp hpure now, heq]
        rfl
  | aggregate func args distinct filter =>
    rw [compile] at h
    have hfold := orElse_eq_const (by simp) h
    split at hfold
    case isFalse => simp at hfold
    case isTrue hfilter =>
      obtain rfl := Option.isNone_iff_eq_none.mp hfilter
      obtain ⟨vs, hvs, heq⟩ := Option.map_eq_some_iff.mp hfold
      have hargs (c : Expr α) (hc : c ∈ args) : Folds rt now columns ctx c := below c (by simp [Expr.children, hc])
      rw [eval, bind_of_ok (collect_folded hargs hvs σ), heq]
      rfl
  | «variable» name =>
    rw [compile] at h
    split at h <;> simp at h
  | property object field =>
    rw [compile.eq_def] at h
    dsimp only at h
    split at h
    · split at h <;> simp at h
    · simp at h
  | case test conditions default => simp [compile_case] at h
  | range collection start stop => simp [compile_range] at h
  | _ => simp [compile] at h

end

end CompiledExpr

namespace Expr

variable {ω α : Type}

-- The operands that a compiled expression evaluates one after the other.
def operands (rt : Runtime ω α) : Expr α → Option (List (Expr α))
  | .function name args => if args.any isLambda || (rt.builtin name).any (·.isSequence) then none else some args
  | .binary left _ right => some [left, right]
  | .unary _ operand => some [operand]
  | .list items => some items
  | .map entries => some (entries.map (·.2))
  | .typeCast expression _ => some [expression]
  | .subscript collection index => some [collection, index]
  | .range collection start stop => some (collection :: (start.toList ++ stop.toList))
  | .path items => some items
  | _ => none

def isCase : Expr α → Bool
  | .case .. => true
  | _ => false

section

variable [Foreign α] (rt : Runtime ω α) (ctx : Context ω α)

-- Of the branches of a CASE, one is evaluated with these variables.
inductive Branches (met : Value α → Fallible Bool) (default : Option (Expr α)) :
    List (Expr α × Expr α) → (String → Option (Value α)) → Expr α → (String → Option (Value α)) → Prop where
  | condition {c cs σ} : Branches met default (c :: cs) σ c.1 σ
  | value {c cs σ v σ'} (h : eval rt ctx c.1 σ = .ok (v, σ')) (hm : met v = .ok true) :
    Branches met default (c :: cs) σ c.2 σ'
  | next {c cs σ v σ' e τ} (h : eval rt ctx c.1 σ = .ok (v, σ')) (hm : met v = .ok false)
      (hr : Branches met default cs σ' e τ) : Branches met default (c :: cs) σ e τ
  | default {e σ} (h : e ∈ default) : Branches met default [] σ e σ

-- The evaluation of a node gets to an operand with these variables.
inductive Evaluates : Expr α → (String → Option (Value α)) → Expr α → (String → Option (Value α)) → Prop where
  | operand {e es σ c τ} (h : e.operands rt = some es) (hr : Reaches (eval rt ctx) es σ c τ) : Evaluates e σ c τ
  | test {test conditions default σ} : Evaluates (.case (some test) conditions default) σ test σ
  | simple {test conditions default σ v σ' c τ} (h : eval rt ctx test σ = .ok (v, σ'))
      (hb : Branches rt ctx (fun w => .ok (v.eq w)) default conditions σ' c τ) :
    Evaluates (.case (some test) conditions default) σ c τ
  | searched {conditions default σ c τ} (hb : Branches rt ctx metBoolean default conditions σ c τ) :
    Evaluates (.case none conditions default) σ c τ

-- Every operand that is evaluated, down to those that are left to the interpreter, finds the variables
-- that it looks up as the row has them: not set before, or set to the same.
inductive Unshadowed : Expr α → (String → Option (Value α)) → Prop where
  | intro {e σ} (here : e.operands rt = none → e.isCase = false →
        ∀ n ∈ e.reads, (σ n).or (ctx.column n) = ctx.column n)
      (below : ∀ c τ, Evaluates rt ctx e σ c τ → Unshadowed c τ) : Unshadowed e σ

end

section

variable [Foreign α] {rt : Runtime ω α} {ctx : Context ω α} {σ : String → Option (Value α)}

theorem Unshadowed.leaf (ho : e.operands rt = none) (hc : e.isCase = false)
    (h : ∀ n ∈ e.reads, (σ n).or (ctx.column n) = ctx.column n) : Unshadowed rt ctx e σ := by
  refine .intro (fun _ _ => h) fun c τ he => ?_
  cases he with
  | operand ho' => cases ho.symm.trans ho'
  | test | simple | searched => cases hc

theorem Unshadowed.of_operands (ho : e.operands rt = some l)
    (h : ∀ c τ, Reaches (eval rt ctx) l σ c τ → Unshadowed rt ctx c τ) : Unshadowed rt ctx e σ := by
  refine .intro (fun ho' => ?_) fun c τ he => ?_
  · cases ho.symm.trans ho'
  · cases he with
    | operand ho' hr =>
      cases ho.symm.trans ho'
      exact h c τ hr
    | test | simple | searched => cases ho

-- An expression that finds its variables as the row has them might as well be the first that is evaluated.
theorem yields_evaluate (h : ∀ n ∈ e.reads, (σ n).or (ctx.column n) = ctx.column n) :
    Yields (eval rt ctx e) σ (e.evaluate rt ctx) := by
  have hfound : Found ctx {n | n ∈ e.reads} σ fun _ => none := fun n hn => (h n hn).trans (Option.none_or).symm
  unfold Yields
  ext v
  rw [evaluate, Except.toOption_eq_some, Except.toOption_eq_some, Except.map_eq_ok, Except.map_eq_ok]
  constructor
  · rintro ⟨⟨v, σ'⟩, hv, rfl⟩
    have ⟨τ', hv', _⟩ := sim_found rt ctx e hfound hv
    exact ⟨(v, τ'), hv', rfl⟩
  · rintro ⟨⟨v, τ'⟩, hv, rfl⟩
    have ⟨σ', hv', _⟩ := sim_found rt ctx e (fun n hn => (hfound n hn).symm) hv
    exact ⟨(v, σ'), hv', rfl⟩

variable {A : Type} {y : Expr α → Fallible (Value α)}

theorem yields_optional {e : Option (Expr α)} {f : Option (Value α) → Eval α A} {g : Option (Value α) → Fallible A}
    (h : ∀ c τ, Reaches (eval rt ctx) (e.toList ++ l) σ c τ → Yields (eval rt ctx c) τ (y c))
    (hf : ∀ v σ', (∀ c τ, Reaches (eval rt ctx) l σ' c τ → Yields (eval rt ctx c) τ (y c)) → Yields (f v) σ' (g v)) :
    Yields (optional (e.map (eval rt ctx)) >>= f) σ (optional (e.map y) >>= g) := by
  cases e with
  | none => exact hf none σ h
  | some a =>
    simp only [Option.map_some, optional, bind_assoc, pure_bind]
    exact .bind_reached h fun v σ' h => hf (some v) σ' h

theorem yields_firstMet {p : Value α → Fallible Bool} {conditions : List (Expr α × Expr α)} {default : Option (Expr α)}
    (h : ∀ c τ, Branches rt ctx p default conditions σ c τ → Yields (eval rt ctx c) τ (y c)) :
    Yields (firstMet (fun v => liftM (p v)) ((default.map (eval rt ctx)).getD (pure (.null .null)))
        (conditions.map fun c => (eval rt ctx c.1, eval rt ctx c.2))) σ
      (firstMet p ((default.map y).getD (pure (.null .null))) (conditions.map fun c => (y c.1, y c.2))) := by
  induction conditions generalizing σ with
  | nil =>
    cases default with
    | none => exact .lift (.ok _)
    | some default => exact h default σ (.default rfl)
  | cons c cs ind =>
    refine (h c.1 σ .condition).bind fun v σ' hv _ => (Yields.lift (p v)).bind fun b σ'' hb hm => ?_
    obtain rfl : σ' = σ'' := by rw [hm] at hb; cases hb; rfl
    cases b with
    | false => exact ind fun e τ he => h e τ (.next hv hm he)
    | true => exact h c.2 σ' (.value hv hm)

theorem yields_caseWhen {test default : Option (Expr α)} {conditions : List (Expr α × Expr α)}
    (h : ∀ c τ, Evaluates rt ctx (.case test conditions default) σ c τ → Yields (eval rt ctx c) τ (y c)) :
    Yields (caseWhen (test.map (eval rt ctx)) (conditions.map fun c => (eval rt ctx c.1, eval rt ctx c.2))
        (default.map (eval rt ctx))) σ
      (caseWhen (test.map y) (conditions.map fun c => (y c.1, y c.2)) (default.map y)) := by
  cases test with
  | none => exact yields_firstMet fun c τ hc => h c τ (.searched hc)
  | some test =>
    refine (h test σ .test).bind fun value σ' hv _ => ?_
    exact yields_firstMet (p := fun v => .ok (value.eq v)) fun c τ hc => h c τ (.simple hv hc)

end

end Expr

theorem lt_of_slotId (h : slotId columns name = some i) : i < columns.length := by
  suffices ∀ i, slotId columns name = some i → i < columns.length from this i h
  refine List.foldlRecOn (motive := fun slot => ∀ i, slot = some i → i < columns.length) columns.zipIdx _ (by simp) ?_
  intro slot ind c hc i hi
  split at hi
  · cases hi
    simpa using (mem_zipIdx hc).2.1
  · exact ind i hi

namespace CompiledExpr

variable {ω α : Type} {rt : Runtime ω α} {columns : List String} {now now' : ω} {env : EvalEnv α} {row : Tuple α}

open Linkrs.Expr (eval operands Evaluates Unshadowed yields_evaluate yields_optional yields_caseWhen)

theorem column_of_slotId (hrow : columns.length ≤ row.length) (h : slotId columns name = some i) :
    ∃ v, (Context.borrowedRow now columns row env).column name = some v ∧ readSlot row i = .ok v := by
  have hi : i < row.length := (lt_of_slotId h).trans_le hrow
  exact ⟨row[i], by simp [Context.borrowedRow, h, hi], by simp [readSlot, hi]⟩

theorem yields_slot (hrow : columns.length ≤ row.length) (h : slotId columns name = some i)
    (hσ : (σ name).or ((Context.borrowedRow now columns row env : Context ω α).column name) =
      (Context.borrowedRow now columns row env : Context ω α).column name)
    {m : Option (Value α) → Expr.Eval α (Value α)} (hm : ∀ v, m (some v) = pure v) :
    Yields (Expr.getVariable (.borrowedRow now columns row env : Context ω α) name >>= m) σ (readSlot row i) := by
  obtain ⟨v, hcolumn, hv⟩ := column_of_slotId hrow h
  rw [Yields, bind_of_ok (Expr.getVariable_eq _ name σ), hσ, hcolumn, hm, hv]
  rfl

theorem yields_found (found : Option (Value α)) :
    Yields (match found with | some v => pure v | none => throw err : Expr.Eval α (Value α)) σ
      (found.elim (.error err) .ok) := by
  cases found <;> rfl

theorem callFunction_of_not_sequence (h : ¬(rt.builtin name).any (·.isSequence)) :
    Expr.callFunction rt ctx name args = rt.execute ctx.now name args := by
  unfold Expr.callFunction
  split
  case h_1 run hrun => simp [hrun, BuiltinFunction.isSequence] at h
  case h_2 => rfl

variable [Foreign α]

-- By induction over the operands that are evaluated, each with the variables set before it.
theorem yields_compile (hp : rt.Pure) (hrow : columns.length ≤ row.length)
    (he : Unshadowed rt (.borrowedRow now columns row env) e σ) :
    Yields (eval rt (.borrowedRow now columns row env) e) σ
      ((compile rt now' columns e).evaluate rt now columns env row) := by
  induction he with
  | @intro e σ here below ind =>
  by_cases hc : ∃ v, compile rt now' columns e = const v
  · obtain ⟨v, hc⟩ := hc
    rw [Yields, folds hp e v hc σ, hc, evaluate]
    rfl
  have hc : ∀ v, compile rt now' columns e ≠ const v := fun v hv => hc ⟨v, hv⟩
  have inOrder {es} (hes : e.operands rt = some es) (c τ)
      (hr : Reaches (eval rt (.borrowedRow now columns row env)) es σ c τ) :
      Yields (eval rt (.borrowedRow now columns row env) c) τ
        ((compile rt now' columns c).evaluate rt now columns env row) :=
    ind c τ (.operand hes hr)
  cases e with
  | binary left op right =>
    rw [compile] at hc ⊢
    rw [orElse_eq_node hc, evaluate, eval]
    exact .bind_reached (inOrder rfl) fun _ _ h => .bind_reached h fun _ _ _ => .lift _
  | unary | typeCast =>
    rw [compile] at hc ⊢
    rw [orElse_eq_node hc, evaluate, eval]
    exact .bind_reached (inOrder rfl) fun _ _ _ => .lift _
  | subscript collection index =>
    rw [compile, evaluate, eval]
    exact .bind_reached (inOrder rfl) fun _ _ h => .bind_reached h fun _ _ _ => .lift _
  | range collection start stop =>
    rw [compile_range, evaluate_range, Expr.eval_range, Option.map_map, Option.map_map]
    refine .bind_reached (inOrder rfl) fun _ _ h => yields_optional h fun _ _ h => ?_
    exact yields_optional (l := []) (by simpa using h) fun _ _ _ => .lift _
  | list items | path items =>
    rw [compile, evaluate, eval, mapM_map]
    exact (Yields.collect (inOrder rfl)).bind fun _ _ _ _ => .lift (.ok _)
  | map entries =>
    rw [compile, evaluate, eval, mapM_map]
    have h := Yields.collect (inOrder rfl)
    simp only [mapM_map, map_map] at h ⊢
    exact h.bind fun _ _ _ _ => .lift (.ok _)
  | case test conditions default =>
    rw [compile_case, evaluate_case, Expr.eval_case, Option.map_map, Option.map_map, map_map]
    exact yields_caseWhen ind
  | function name args =>
    rw [compile] at hc ⊢
    split
    case isTrue hf =>
      rw [evaluate]
      exact yields_evaluate (here (if_pos hf) rfl)
    case isFalse hf =>
      rw [if_neg hf] at hc
      have hes : (Expr.function name args).operands rt = some args := if_neg hf
      simp only [Bool.or_eq_true, not_or] at hf
      rw [compileFunction, orElse_eq_node hc, evaluate, Expr.eval_function (fun h => hf.1 h.2), mapM_map]
      refine (Yields.collect (inOrder hes)).bind fun vs _ _ _ => ?_
      rw [resolve_execute, callFunction_of_not_sequence hf.2]
      exact .lift _
  | aggregate func args distinct filter =>
    rw [compile] at hc ⊢
    rw [orElse_eq_node hc, evaluate]
    exact yields_evaluate (here rfl rfl)
  | «variable» name =>
    rw [compile] at hc ⊢
    split
    case h_1 i hi =>
      rw [evaluate, eval]
      exact yields_slot hrow hi (here rfl rfl name (by simp [Expr.reads])) fun _ => rfl
    case h_2 =>
      rw [evaluate]
      exact yields_evaluate (here rfl rfl)
  | property object field =>
    rw [compile.eq_def] at hc ⊢
    dsimp only at hc ⊢
    split
    case h_1 name =>
      split
      case h_1 i hi =>
        rw [evaluate, eval]
        exact yields_slot hrow hi (here rfl rfl _ (by simp [Expr.reads])) fun _ => rfl
      case h_2 =>
        rw [evaluate]
        exact yields_evaluate (here rfl rfl)
    case h_2 =>
      rw [evaluate]
      exact yields_evaluate (here rfl rfl)
  | parameter name =>
    rw [compile, evaluate, eval]
    exact yields_found (env.param name)
  | sessionVariable name =>
    rw [compile, evaluate, eval]
    exact yields_found (env.sessionVariable name)
  | literal | vector => simp [compile] at hc
  | _ =>
    rw [compile, evaluate]
    · exact yields_evaluate (here rfl rfl)
    all_goals simp

end CompiledExpr
end Linkrs
