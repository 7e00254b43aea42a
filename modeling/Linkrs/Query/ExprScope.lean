import Linkrs.Query.Expr

namespace Linkrs.Expr

open List Option

variable {ω α : Type} {c e : Expr α} {params : List String} {args : List (Expr α)} {name : String}

theorem sizeOf_lt_of_mem_lambda (h : lambda params body ∈ e.children) : sizeOf body < sizeOf e := by
  have := sizeOf_lt_of_mem_children h
  simp only [lambda.sizeOf_spec] at this
  omega

-- The parameters of a lambda that are set before its body is evaluated.
def boundParams (name : String) (params : List String) : List String :=
  if name.toLower = "list_reduce" then params else params.take 1

theorem boundParams_subset (h : n ∈ boundParams name params) : n ∈ params := by
  unfold boundParams at h
  split at h
  · exact h
  · exact mem_of_mem_take h

-- The variables that are looked up when an expression is evaluated and that it does not set itself
-- before that.
def reads : Expr α → List String
  | .variable name => [name]
  | .property (.variable name) field => [name ++ "." ++ field, name]
  | .edgeProperty name field => [name ++ "." ++ field, name]
  | .tagProperty name field => [name ++ "." ++ field, name]
  | .function name (source :: .lambda params body :: rest) =>
    reads source ++ rest.flatMap reads ++ (reads body).filter (!(boundParams name params).contains ·)
  | .listComprehension name source filter mapping =>
    reads source ++ ((filter.toList ++ mapping.toList).attach.flatMap (reads ·.1)).filter (· != name)
  | .predicate _ (.variable name :: source :: body :: _) => reads source ++ (reads body).filter (· != name)
  | .reduce accumulator initial name source mapping =>
    reads initial ++ reads source ++ (reads mapping).filter (!List.contains [accumulator, name] ·)
  | e => e.children.attach.flatMap (reads ·.1)
termination_by e => sizeOf e
decreasing_by
  all_goals first
    | exact sizeOf_lt_of_mem_children (Subtype.property _)
    | exact sizeOf_lt_of_mem_children (mem_cons_of_mem _ (Subtype.property _))
    | exact sizeOf_lt_of_mem_lambda (mem_cons_of_mem _ mem_cons_self)
    | (apply sizeOf_lt_of_mem_children; simp [children, *])

def binds : Expr α → List String
  | .function _ (source :: .lambda params body :: rest) => binds source ++ rest.flatMap binds ++ params ++ binds body
  | .listComprehension name source filter mapping =>
    name :: binds source ++ (filter.toList ++ mapping.toList).attach.flatMap (binds ·.1)
  | .predicate _ (.variable name :: source :: body :: _) => name :: binds source ++ binds body
  | .reduce accumulator initial name source mapping =>
    accumulator :: name :: binds initial ++ binds source ++ binds mapping
  | e => e.children.attach.flatMap (binds ·.1)
termination_by e => sizeOf e
decreasing_by
  all_goals first
    | exact sizeOf_lt_of_mem_children (Subtype.property _)
    | exact sizeOf_lt_of_mem_children (mem_cons_of_mem _ (Subtype.property _))
    | exact sizeOf_lt_of_mem_lambda (mem_cons_of_mem _ mem_cons_self)
    | (apply sizeOf_lt_of_mem_children; simp [children, *])

theorem subset_reads_of_plain (h : c ∈ e.children) (hp : e.reads = e.children.attach.flatMap (reads ·.1)) :
    {n | n ∈ c.reads} ⊆ {n | n ∈ e.reads} := by
  intro n hn
  rw [Set.mem_ofPred_eq, hp]
  exact mem_flatMap.mpr ⟨⟨c, h⟩, List.mem_attach _ _, hn⟩

-- The expressions that are evaluated with an expression, each with the names that are set for it.
def evaluated : Expr α → List (List String × Expr α)
  | .function name (source :: .lambda params body :: rest) =>
    ([], source) :: (boundParams name params, body) :: rest.map ([], ·)
  | .listComprehension name source filter mapping =>
    ([], source) :: (filter.toList ++ mapping.toList).map ([name], ·)
  | .predicate _ (.variable name :: source :: body :: _) => [([], source), ([name], body)]
  | .reduce accumulator initial name source mapping =>
    [([], initial), ([], source), ([name, accumulator], mapping)]
  | e => e.children.map ([], ·)

theorem evaluated_function (h : ∀ source params body rest, args ≠ source :: .lambda params body :: rest) :
    evaluated (.function name args) = args.map ([], ·) := by
  rw [evaluated] <;> simp_all [children]

-- An operand reads and sets nothing on its own account, but for the names that are set for it.
structure Within (e : Expr α) (ns : List String) (c : Expr α) : Prop where
  lt : sizeOf c < sizeOf e
  reads : ∀ n ∈ c.reads, n ∈ ns ∨ n ∈ e.reads
  binds : ∀ n, n ∈ ns ∨ n ∈ c.binds → n ∈ e.binds

theorem within_of_children (h : c ∈ e.children) (hr : {n | n ∈ c.reads} ⊆ {n | n ∈ e.reads})
    (hb : e.binds = e.children.attach.flatMap (binds ·.1)) : Within e [] c where
  lt := sizeOf_lt_of_mem_children h
  reads n hn := .inr (hr hn)
  binds n hn := hb ▸ mem_flatMap.mpr ⟨⟨c, h⟩, List.mem_attach _ _, hn.resolve_left (by simp)⟩

theorem within_of_mem_evaluated (h : (ns, c) ∈ e.evaluated) : Within e ns c := by
  fun_cases evaluated e with
  | case1 name source params body rest =>
    simp only [evaluated, mem_cons, Prod.mk.injEq, List.mem_map] at h
    obtain ⟨rfl, rfl⟩ | ⟨rfl, rfl⟩ | ⟨c, hc, rfl, rfl⟩ := h
    · exact ⟨sizeOf_lt_of_mem_children (by simp [children]), by simp_all [reads], by simp_all [binds]⟩
    · refine ⟨sizeOf_lt_of_mem_lambda (mem_cons_of_mem _ mem_cons_self), fun n hn => ?_, fun n hn => ?_⟩
      · by_cases hn : n ∈ boundParams name params <;> simp_all [reads]
      · have := @boundParams_subset params name n
        simp only [binds, mem_append]
        tauto
    · refine ⟨sizeOf_lt_of_mem_children (by simp [children, hc]), fun n hn => .inr ?_, fun n hn => ?_⟩
      · simp only [reads, mem_append, mem_flatMap]
        exact .inl (.inr ⟨c, hc, hn⟩)
      · simp only [binds, mem_append, mem_flatMap]
        exact .inl (.inl (.inr ⟨c, hc, hn.resolve_left (by simp)⟩))
  | case2 name source filter mapping =>
    simp only [evaluated, mem_cons, Prod.mk.injEq, List.mem_map] at h
    obtain ⟨rfl, rfl⟩ | ⟨c, hc, rfl, rfl⟩ := h
    · exact ⟨sizeOf_lt_of_mem_children (by simp [children]), by simp_all [reads], by simp_all [binds]⟩
    · refine ⟨sizeOf_lt_of_mem_children (mem_cons_of_mem _ hc), fun n hn => ?_, fun n hn => ?_⟩
      · simp only [reads, mem_append, mem_filter, mem_flatMap]
        by_cases heq : n = name
        · exact .inl (mem_singleton.mpr heq)
        · exact .inr (.inr ⟨⟨⟨c, hc⟩, List.mem_attach _ _, hn⟩, by simpa using heq⟩)
      · simp only [binds, mem_append, mem_flatMap, mem_cons]
        exact hn.elim (fun h => .inl (.inl (mem_singleton.mp h))) fun h => .inr ⟨⟨c, hc⟩, List.mem_attach _ _, h⟩
  | case3 | case4 =>
    simp only [evaluated, mem_cons, Prod.mk.injEq, not_mem_nil, or_false] at h
    exact ⟨sizeOf_lt_of_mem_children (by simp only [children]; grind), by simp only [reads]; grind,
      by simp only [binds]; grind⟩
  | case5 =>
    rw [evaluated] at h <;> try assumption
    obtain ⟨c, hc, he⟩ := List.mem_map.mp h
    cases he
    refine within_of_children hc ?_ (by rw [binds] <;> assumption)
    by_cases hp : ∃ name field, e = .property (.variable name) field
    · obtain ⟨name, field, rfl⟩ := hp
      simp_all [children, reads]
    · refine subset_reads_of_plain hc ?_
      rw [reads] <;> first | assumption | (intros; simp_all [children])

-- The forms of evaluation in two contexts, with operands that correspond to each other.
section

variable {rt : Runtime ω α} {ctx ctx' : Context ω α} {ι : Type} {m m' : ι → Eval α (Value α)}
  {source source' body body' : Eval α (Value α)}
  {ρ ρ₁ : (String → Option (Value α)) → (String → Option (Value α)) → Prop} {name : String}

theorem sim_required (h : Sim ρ (getVariable ctx name) (getVariable ctx' name) ρ) :
    Sim ρ (required ctx name) (required ctx' name) ρ := by
  refine h.bind fun value => ?_
  cases value with
  | none => exact .throw _
  | some v => exact .pure _

theorem sim_namedProperty {name field : String} {object object' : Eval α (Value α)}
    (hc : Sim ρ (getVariable ctx (name ++ "." ++ field)) (getVariable ctx' (name ++ "." ++ field)) ρ)
    (ho : Sim ρ object object' ρ) :
    Sim ρ (namedProperty rt ctx name field object) (namedProperty rt ctx' name field object') ρ := by
  refine hc.bind fun value => ?_
  cases value with
  | none => exact ho.bind fun _ => .lift _
  | some v => exact .pure _

theorem sim_countMatches (ha : Assigns ρ [name] ρ₁) (hbody : Sim ρ₁ body body' ρ) :
    Sim ρ (countMatches name values body refusal) (countMatches name values body' refusal) ρ :=
  .foldlM (fun _ _ => .assign ha (hbody.bind fun _ => (Sim.lift _).bind fun _ => .pure _)) _ _

theorem sim_higherOrder {rest : List ι} (hs : Sim ρ source source' ρ)
    (hrest : ∀ i ∈ rest, Sim ρ (m i) (m' i) ρ) (ha : Assigns ρ (boundParams name params) ρ₁)
    (hbody : Sim ρ₁ body body' ρ) :
    Sim ρ (higherOrder rt name source params body (rest.map m)) (higherOrder rt name source' params body' (rest.map m')) ρ := by
  refine hs.bind fun value => ?_
  split
  case h_1 => exact .pure _
  case h_3 => exact .throw _
  case h_2 values =>
    rw [length_map, length_map, isEmpty_map, isEmpty_map]
    by_cases hname : name.toLower = "list_reduce"
    · rw [if_pos hname, if_pos hname]
      split
      case isTrue => exact .throw _
      split
      case h_2 => exact .throw _
      case h_1 acc item =>
        have hinitial : Sim ρ ((rest.map m).head?.getD (pure (.null .null)))
            ((rest.map m').head?.getD (pure (.null .null))) ρ := by
          cases rest with
          | nil => exact .pure _
          | cons i rest => exact hrest i mem_cons_self
        rw [boundParams, if_pos hname] at ha
        exact hinitial.bind fun _ => .foldlM (fun _ _ => .assign_assign ha hbody) _ _
    · rw [if_neg hname, if_neg hname]
      split
      case isTrue => exact .throw _
      split
      case h_1 => exact .throw _
      case h_2 param params =>
        rw [boundParams, if_neg hname] at ha
        split
        · refine Sim.bind (.foldlM (fun _ _ => .assign ha ?_) _ _) fun _ => .pure _
          exact hbody.bind fun _ => (Sim.lift _).bind fun _ => .pure _
        · split
          · exact Sim.bind (.foldlM (fun _ _ => .assign ha (hbody.bind fun _ => .pure _)) _ _) fun _ => .pure _
          · exact (sim_countMatches ha hbody).bind fun _ => .pure _

theorem sim_firstMet {met : Value α → Eval α Bool} {default default' : Eval α (Value α)} {conditions : List (ι × ι)}
    (hm : ∀ value, Sim ρ (met value) (met value) ρ) (hd : Sim ρ default default' ρ)
    (hc : ∀ c ∈ conditions, Sim ρ (m c.1) (m' c.1) ρ ∧ Sim ρ (m c.2) (m' c.2) ρ) :
    Sim ρ (firstMet met default (conditions.map fun c => (m c.1, m c.2)))
      (firstMet met default' (conditions.map fun c => (m' c.1, m' c.2))) ρ := by
  induction conditions with
  | nil => exact hd
  | cons c cs ind =>
    have ⟨hc, hcs⟩ := forall_mem_cons.mp hc
    refine hc.1.bind fun value => (hm value).bind fun met => ?_
    cases met with
    | false => exact ind hcs
    | true => exact hc.2

theorem sim_caseWhen [Foreign α] {test default : Option ι} {conditions : List (ι × ι)}
    (ht : ∀ i ∈ test, Sim ρ (m i) (m' i) ρ)
    (hc : ∀ c ∈ conditions, Sim ρ (m c.1) (m' c.1) ρ ∧ Sim ρ (m c.2) (m' c.2) ρ)
    (hd : ∀ i ∈ default, Sim ρ (m i) (m' i) ρ) :
    Sim ρ (caseWhen (test.map m) (conditions.map fun c => (m c.1, m c.2)) (default.map m))
      (caseWhen (test.map m') (conditions.map fun c => (m' c.1, m' c.2)) (default.map m')) ρ := by
  have hd : Sim ρ ((default.map m).getD (pure (.null .null))) ((default.map m').getD (pure (.null .null))) ρ := by
    cases default with
    | none => exact .pure _
    | some default => exact hd default rfl
  cases test with
  | none => exact sim_firstMet (fun _ => .lift _) hd hc
  | some test => exact (ht test rfl).bind fun _ => sim_firstMet (fun _ => .pure _) hd hc

theorem sim_optional {i : Option ι} (h : ∀ x ∈ i, Sim ρ (m x) (m' x) ρ) :
    Sim ρ (optional (i.map m)) (optional (i.map m')) ρ := by
  cases i with
  | none => exact .pure _
  | some x => exact (h x rfl).bind fun _ => .pure _

theorem sim_keeps {filter : Option ι} (h : ∀ i ∈ filter, Sim ρ (m i) (m' i) ρ) :
    Sim ρ (keeps refusal (filter.map m)) (keeps refusal (filter.map m')) ρ := by
  cases filter with
  | none => exact .pure _
  | some filter => exact (h filter rfl).bind fun _ => .lift _

theorem sim_mapped {mapping : Option ι} (hv : Sim ρ (getVariable ctx name) (getVariable ctx' name) ρ)
    (h : ∀ i ∈ mapping, Sim ρ (m i) (m' i) ρ) :
    Sim ρ (mapped ctx name (mapping.map m)) (mapped ctx' name (mapping.map m')) ρ := by
  cases mapping with
  | none => exact hv.bind fun _ => .pure _
  | some mapping => exact h mapping rfl

theorem sim_comprehension {filter mapping : Option ι} (hs : Sim ρ source source' ρ)
    (ha : Assigns ρ [name] ρ₁) (hρ : ρ₁ ≤ ρ) (hv : Sim ρ₁ (getVariable ctx name) (getVariable ctx' name) ρ₁)
    (hf : ∀ i ∈ filter, Sim ρ₁ (m i) (m' i) ρ₁) (hm : ∀ i ∈ mapping, Sim ρ₁ (m i) (m' i) ρ₁) :
    Sim ρ (comprehension rt ctx name source (filter.map m) (mapping.map m))
      (comprehension rt ctx' name source' (filter.map m') (mapping.map m')) ρ := by
  refine hs.bind fun value => ?_
  split
  case h_1 => exact .pure _
  case h_3 => exact .throw _
  case h_2 values =>
    refine Sim.bind (.foldlM (fun _ _ => .assign ha ((sim_keeps hf).bind fun kept => ?_)) _ _) fun _ => .pure _
    split
    · exact ((sim_mapped hv hm).weaken le_rfl hρ).bind fun _ => .pure _
    · exact (Sim.pure _).weaken hρ le_rfl

theorem sim_quantify (hs : Sim ρ source source' ρ) (ha : Assigns ρ [name] ρ₁) (hbody : Sim ρ₁ body body' ρ) :
    Sim ρ (quantify rt func name source body) (quantify rt func name source' body') ρ := by
  refine hs.bind fun value => ?_
  split
  case h_1 => exact .pure _
  case h_3 => exact .throw _
  case h_2 values =>
    refine (sim_countMatches ha hbody).bind fun _ => ?_
    split <;> first | exact .pure _ | exact .throw _

theorem sim_reduction {initial initial' : Eval α (Value α)} (hi : Sim ρ initial initial' ρ)
    (hs : Sim ρ source source' ρ) (ha : Assigns ρ [name, accumulator] ρ₁) (hbody : Sim ρ₁ body body' ρ) :
    Sim ρ (reduction rt accumulator name initial source body) (reduction rt accumulator name initial' source' body') ρ := by
  refine hi.bind fun acc => hs.bind fun value => ?_
  split
  case h_1 => exact .pure _
  case h_3 => exact .throw _
  case h_2 values => exact .foldlM (fun _ _ => .assign_assign ha hbody) _ _

theorem sim_addSteps {items : List ι} (h : ∀ i ∈ items, Sim ρ (m i) (m' i) ρ) (built : Value α) :
    Sim ρ (addSteps rt built (items.map m)) (addSteps rt built (items.map m')) ρ := by
  match items with
  | [] => exact .pure _
  | [_] => exact .throw _
  | edge :: vertex :: rest =>
    have ⟨hedge, hvertex, hrest⟩ := forall_mem_cons.mp h |>.imp_right forall_mem_cons.mp
    exact hedge.bind fun _ => hvertex.bind fun _ => (Sim.lift _).bind fun built => sim_addSteps hrest built

theorem sim_buildPath {items : List ι} (h : ∀ i ∈ items, Sim ρ (m i) (m' i) ρ) :
    Sim ρ (buildPath rt (items.map m)) (buildPath rt (items.map m')) ρ := by
  cases items with
  | nil => exact .throw _
  | cons source rest =>
    have ⟨hs, hrest⟩ := forall_mem_cons.mp h
    exact hs.bind fun _ => (Sim.lift _).bind fun built => sim_addSteps hrest built

end

-- The operations whose operands are all evaluated by the same rules as the operation is.
def isOperation : Expr α → Bool
  | .binary _ _ _ | .unary _ _ | .list _ | .map _ | .case _ _ _ | .typeCast _ _ | .subscript _ _ | .range _ _ _
  | .path _ | .pathBuild _ => true
  | _ => false

-- An operation or a function call with other operands.
def mapOperands (g : Expr α → Expr α) : Expr α → Expr α
  | .binary left op right => .binary (g left) op (g right)
  | .unary op operand => .unary op (g operand)
  | .function name args => .function name (args.map g)
  | .list items => .list (items.map g)
  | .map entries => .map (entries.map fun e => (e.1, g e.2))
  | .case test conditions default => .case (test.map g) (conditions.map fun c => (g c.1, g c.2)) (default.map g)
  | .typeCast expression target => .typeCast (g expression) target
  | .subscript collection index => .subscript (g collection) (g index)
  | .range collection start stop => .range (g collection) (start.map g) (stop.map g)
  | .path items => .path (items.map g)
  | .pathBuild items => .pathBuild (items.map g)
  | e => e

theorem mapOperands_id (e : Expr α) : e.mapOperands id = e := by
  cases e <;> simp [mapOperands]

-- Lambdas are left as they are.
def KeepsLambdas (g : Expr α → Expr α) : Prop := ∀ c, (c.isLambda → g c = c) ∧ (g c).isLambda = c.isLambda

section

variable [Foreign α] {rt : Runtime ω α} {ctx ctx' : Context ω α} {f g : Expr α → Expr α}
  {ρ ρ₁ : (String → Option (Value α)) → (String → Option (Value α)) → Prop}

theorem sim_operation (he : e.isOperation)
    (h : ∀ c ∈ e.children, Sim ρ (eval rt ctx (f c)) (eval rt ctx' (g c)) ρ) :
    Sim ρ (eval rt ctx (e.mapOperands f)) (eval rt ctx' (e.mapOperands g)) ρ := by
  cases e with
  | binary left op right =>
    simp only [mapOperands, eval]
    exact (h left (by simp [children])).bind fun _ => (h right (by simp [children])).bind fun _ => .lift _
  | unary op operand =>
    simp only [mapOperands, eval]
    exact (h operand (by simp [children])).bind fun _ => .lift _
  | typeCast expression target =>
    simp only [mapOperands, eval]
    exact (h expression (by simp [children])).bind fun _ => .lift _
  | subscript collection index =>
    simp only [mapOperands, eval]
    exact (h collection (by simp [children])).bind fun _ => (h index (by simp [children])).bind fun _ => .lift _
  | list items | path items =>
    simp only [mapOperands, eval, List.map_map]
    exact (Sim.collect h).bind fun _ => .pure _
  | map entries =>
    simp only [mapOperands, eval, List.map_map, Function.comp_def]
    exact (Sim.collect fun e he => h e.2 (List.mem_map.mpr ⟨e, he, rfl⟩)).bind fun _ => .pure _
  | pathBuild items =>
    simp only [mapOperands, eval, List.map_map]
    exact sim_buildPath h
  | range collection start stop =>
    simp only [mapOperands, eval_range, Option.map_map]
    refine (h collection (by simp [children])).bind fun _ => (sim_optional fun start hs => ?_).bind fun _ =>
      (sim_optional fun stop hs => ?_).bind fun _ => .lift _
    · exact h start (by simp [children, mem_def.mp hs])
    · exact h stop (by simp [children, mem_def.mp hs])
  | case test conditions default =>
    simp only [mapOperands, eval_case, Option.map_map, List.map_map]
    refine sim_caseWhen (fun test ht => ?_) (fun c hc => ?_) fun default hd => ?_
    · exact h test (by simp [children, mem_def.mp ht])
    · have hmem : c.1 ∈ (case test conditions default).children ∧ c.2 ∈ (case test conditions default).children := by
        simp only [children, mem_append, mem_flatMap]
        exact ⟨.inl (.inr ⟨c, hc, by simp⟩), .inl (.inr ⟨c, hc, by simp⟩)⟩
      exact ⟨h c.1 hmem.1, h c.2 hmem.2⟩
    · exact h default (by simp [children, mem_def.mp hd])
  | _ => simp [isOperation] at he

theorem eval_lambda (rt : Runtime ω α) (ctx : Context ω α) (h : e.isLambda) : ∃ err, eval rt ctx e = throw err := by
  cases e with
  | lambda params body => exact ⟨_, by rw [eval]⟩
  | _ => simp [isLambda] at h

theorem sim_function (hf : KeepsLambdas f) (hg : KeepsLambdas g)
    (h : ∀ c ∈ args, c.isLambda = false → Sim ρ (eval rt ctx (f c)) (eval rt ctx' (g c)) ρ)
    (hcall : ∀ vs v, callFunction rt ctx name vs = .ok v → callFunction rt ctx' name vs = .ok v)
    (hbody : ∀ source params body rest, args = source :: .lambda params body :: rest →
      ∃ ρ₁, Assigns ρ (boundParams name params) ρ₁ ∧ Sim ρ₁ (eval rt ctx body) (eval rt ctx' body) ρ) :
    Sim ρ (eval rt ctx (.function name (args.map f))) (eval rt ctx' (.function name (args.map g))) ρ := by
  have hargs (c : Expr α) (hc : c ∈ args) : Sim ρ (eval rt ctx (f c)) (eval rt ctx' (g c)) ρ := by
    cases hl : c.isLambda with
    | false => exact h c hc hl
    | true =>
      have ⟨err, herr⟩ := eval_lambda rt ctx ((hf c).2.trans hl)
      rw [herr]
      exact .throw err
  have hany (f : Expr α → Expr α) (hf : KeepsLambdas f) : (args.map f).any isLambda = args.any isLambda := by
    simp [List.any_map, Function.comp_def, fun c => (hf c).2]
  by_cases hho : isHigherOrder name ∧ args.any isLambda
  · by_cases hl : ∃ source params body rest, args = source :: .lambda params body :: rest
    · obtain ⟨source, params, body, rest, rfl⟩ := hl
      obtain ⟨ρ₁, ha, hb⟩ := hbody source params body rest rfl
      simp only [map_cons, (hf (lambda params body)).1 rfl, (hg (lambda params body)).1 rfl]
      rw [eval_higherOrder hho.1, eval_higherOrder hho.1, (hf source).2, (hg source).2, List.map_map, List.map_map]
      split
      case isTrue => exact .throw _
      exact sim_higherOrder (hargs source (by simp)) (fun c hc => hargs c (by simp [hc])) ha hb
    · rw [eval_function_misplaced ⟨hho.1, (hany f hf).trans hho.2⟩]
      · exact .throw _
      · intro source params body rest heq
        obtain ⟨source, args, rfl, -, heq⟩ := map_eq_cons_iff.mp heq
        obtain ⟨c, rest, rfl, hc, -⟩ := map_eq_cons_iff.mp heq
        have hlambda : c.isLambda := by rw [← (hf c).2, hc, isLambda]
        exact hl ⟨source, params, body, rest, by rw [← hc, (hf c).1 hlambda]⟩
  · rw [eval_function (by rwa [hany f hf]), eval_function (by rwa [hany g hg]), List.map_map, List.map_map]
    exact (Sim.collect hargs).bind fun _ => .liftOf (hcall _)

end

theorem induction_below {motive : Expr α → Prop} (h : ∀ e, (∀ c, sizeOf c < sizeOf e → motive c) → motive e)
    (e : Expr α) : motive e :=
  h e fun c _ => induction_below h c
termination_by sizeOf e

theorem keepsLambdas_id : KeepsLambdas (id : Expr α → Expr α) :=
  fun _ => ⟨fun _ => rfl, rfl⟩

theorem getVariable_eq (ctx : Context ω α) (name : String) (σ : String → Option (Value α)) :
    getVariable ctx name σ = .ok ((σ name).or (ctx.column name), σ) := by
  have hl : (Scoped.lookup name : Eval α _) σ = .ok (σ name, σ) := rfl
  rw [getVariable, Scoped.bind_of_ok hl]
  cases σ name <;> rfl

-- Variables that are found as the same, be it that they are set or that the context has them.
def Found (ctx : Context ω α) (R : Set String) (σ τ : String → Option (Value α)) : Prop :=
  ∀ n ∈ R, (σ n).or (ctx.column n) = (τ n).or (ctx.column n)

theorem sim_getVariable {ctx : Context ω α} {ρ : (String → Option (Value α)) → (String → Option (Value α)) → Prop}
    (hρ : ∀ {σ τ}, ρ σ τ → Found ctx R σ τ) (h : name ∈ R) :
    Sim ρ (getVariable ctx name) (getVariable ctx name) ρ := by
  intro σ τ hστ v σ' hv
  rw [getVariable_eq] at hv
  cases hv
  exact ⟨τ, by rw [getVariable_eq, hρ hστ name h], hστ⟩

theorem Found.of_eqOn {ctx : Context ω α} (h : Set.EqOn σ τ R) : Found ctx R σ τ :=
  fun n hn => by rw [h hn]

theorem Found.assign {ctx : Context ω α} (h : Found ctx R σ τ) :
    Found ctx (insert n R) (Function.update σ n (some v)) (Function.update τ n (some v)) := by
  intro k hk
  by_cases heq : k = n
  · simp [heq]
  · simp [heq, h k (Set.mem_of_mem_insert_of_ne hk heq)]

theorem mem_evaluated_of_arg (hc : c ∈ args) (hl : c.isLambda = false) :
    ([], c) ∈ evaluated (.function name args) := by
  by_cases hl' : ∃ source params body rest, args = source :: .lambda params body :: rest
  · obtain ⟨source, params, body, rest, rfl⟩ := hl'
    simp only [evaluated, mem_cons, List.mem_map]
    obtain rfl | rfl | hc := mem_cons.mp hc |>.imp_right mem_cons.mp
    · exact .inl rfl
    · cases hl
    · exact .inr (.inr ⟨c, hc, rfl⟩)
  · rw [evaluated_function fun source params body rest heq => hl' ⟨source, params, body, rest, heq⟩]
    exact List.mem_map.mpr ⟨c, hc, rfl⟩

section

variable [Foreign α]

-- What has no operands and depends on the context.
def isExternal : Expr α → Bool
  | .parameter _ | .sessionVariable _ | .exists _ | .scalarSubquery _ => true
  | _ => false

-- Two contexts in which the expressions that `P` admits are evaluated alike: `I R` relates the variables,
-- where those of `R` can be looked up.
structure Agrees (rt : Runtime ω α) (ctx ctx' : Context ω α)
    (I : Set String → (String → Option (Value α)) → (String → Option (Value α)) → Prop)
    (P : Expr α → Set String → Prop) : Prop where
  anti : ∀ {R R'}, R ⊆ R' → I R' ≤ I R
  assigns : ∀ {e R ns}, P e R → (∀ n ∈ ns, n ∈ e.binds) → Assigns (I R) ns (I ({n | n ∈ ns} ∪ R))
  operand : ∀ {e R ns c}, P e R → (ns, c) ∈ e.evaluated → P c ({n | n ∈ ns} ∪ R)
  bound : ∀ {R name}, name ∈ R → Sim (I R) (getVariable ctx name) (getVariable ctx' name) (I R)
  read : ∀ {R name}, P (.variable name) R → Sim (I R) (required ctx name) (required ctx' name) (I R)
  field : ∀ {e R name field}, P e R →
    e = .property (.variable name) field ∨ e = .edgeProperty name field ∨ e = .tagProperty name field →
    Sim (I R) (namedProperty rt ctx name field (required ctx name))
      (namedProperty rt ctx' name field (required ctx' name)) (I R)
  call : ∀ {R name args}, P (.function name args) R →
    ∀ vs v, callFunction rt ctx name vs = .ok v → callFunction rt ctx' name vs = .ok v
  contains : ∀ body value found, ctx.containsSubquery body value = .ok found →
    ctx'.containsSubquery body value = .ok found
  external : ∀ {e R}, e.isExternal → Sim (I R) (eval rt ctx e) (eval rt ctx' e) (I R)

theorem Agrees.eval {rt : Runtime ω α} (h : Agrees rt ctx ctx' I P) (hp : P e R) :
    Sim (I R) (eval rt ctx e) (eval rt ctx' e) (I R) := by
  induction e using induction_below generalizing R with
  | h e ind =>
  have below {ns : List String} {c : Expr α} (hc : (ns, c) ∈ e.evaluated) :
      Sim (I ({n | n ∈ ns} ∪ R)) (Expr.eval rt ctx c) (Expr.eval rt ctx' c) (I ({n | n ∈ ns} ∪ R)) :=
    ind c (within_of_mem_evaluated hc).lt (h.operand hp hc)
  have plain {c : Expr α} (hc : ([], c) ∈ e.evaluated) :
      Sim (I R) (Expr.eval rt ctx c) (Expr.eval rt ctx' c) (I R) := by
    simpa using below hc
  have inner {ns : List String} {c : Expr α} (hc : (ns, c) ∈ e.evaluated) :
      Sim (I ({n | n ∈ ns} ∪ R)) (Expr.eval rt ctx c) (Expr.eval rt ctx' c) (I R) :=
    (below hc).weaken le_rfl (h.anti Set.subset_union_right)
  have assigns {ns : List String} {c : Expr α} (hc : (ns, c) ∈ e.evaluated) :
      Assigns (I R) ns (I ({n | n ∈ ns} ∪ R)) :=
    h.assigns hp fun n hn => (within_of_mem_evaluated hc).binds n (.inl hn)
  by_cases he : e.isOperation
  · have hs := sim_operation he (f := id) (g := id) fun c hc => plain (c := c) <| by
      cases e <;> simp only [isOperation, Bool.false_eq_true] at he <;> exact List.mem_map.mpr ⟨c, hc, rfl⟩
    rwa [mapOperands_id] at hs
  by_cases hx : e.isExternal
  · exact h.external hx
  cases e with
  | literal value => simpa only [Expr.eval] using .pure value
  | vector data => simpa only [Expr.eval] using .pure (rt.vector data)
  | «variable» name => simpa only [Expr.eval] using h.read hp
  | edgeProperty name field => simpa only [Expr.eval] using h.field hp (.inr (.inl rfl))
  | tagProperty name field => simpa only [Expr.eval] using h.field hp (.inr (.inr rfl))
  | structField | labelTagProperty =>
    simp only [Expr.eval]
    exact (plain (by simp [evaluated, children])).bind fun _ => .lift _
  | «in» expr body negated =>
    simp only [Expr.eval]
    exact (plain (by simp [evaluated, children])).bind fun _ =>
      (Sim.liftOf (h.contains _ _)).bind fun _ => .pure _
  | aggregate func args distinct filter =>
    simp only [Expr.eval]
    refine (Sim.collect fun c hc => plain (by simp [evaluated, children, hc])).bind fun _ => ?_
    cases filter with
    | none => exact .lift _
    | some filter =>
      refine (plain (by simp [evaluated, children])).bind fun _ => ?_
      split
      · exact .lift _
      · exact .pure _
  | property object field =>
    by_cases hv : ∃ name, object = .variable name
    · obtain ⟨name, rfl⟩ := hv
      simpa only [Expr.eval] using h.field hp (.inl rfl)
    · have hv : ∀ name, object ≠ .variable name := fun name heq => hv ⟨name, heq⟩
      rw [eval_property hv, eval_property hv]
      exact (plain (by simp [evaluated, children])).bind fun _ => .lift _
  | function name args =>
    have hs := sim_function keepsLambdas_id keepsLambdas_id (fun c hc hl => plain (mem_evaluated_of_arg hc hl))
      (h.call hp) fun source params body rest heq => ?_
    · rwa [List.map_id] at hs
    · subst heq
      have hb : (boundParams name params, body) ∈ evaluated (.function name (source :: .lambda params body :: rest)) := by
        simp [evaluated]
      exact ⟨_, assigns hb, inner hb⟩
  | listComprehension name source filter mapping =>
    rw [eval_listComprehension, eval_listComprehension]
    have hbody {c : Expr α} (hc : c ∈ filter.toList ++ mapping.toList) :
        ([name], c) ∈ evaluated (.listComprehension name source filter mapping) :=
      mem_cons_of_mem _ (List.mem_map.mpr ⟨c, hc, rfl⟩)
    refine sim_comprehension (plain mem_cons_self) (h.assigns hp (by rw [binds]; simp)) (h.anti Set.subset_union_right)
      (h.bound (by simp)) (fun c hc => ?_) fun c hc => ?_
    · exact below (hbody (mem_append_left _ (mem_toList.mpr hc)))
    · exact below (hbody (mem_append_right _ (mem_toList.mpr hc)))
  | predicate func args =>
    rw [eval.eq_def, eval.eq_def rt ctx']
    dsimp only
    split
    case h_2 => exact .throw _
    case h_3 => exact .throw _
    case h_1 name source body rest =>
      have hb : ([name], body) ∈ evaluated (.predicate func (.variable name :: source :: body :: rest)) := by
        simp [evaluated]
      exact sim_quantify (plain (by simp [evaluated])) (assigns hb) (inner hb)
  | reduce accumulator initial name source mapping =>
    simp only [Expr.eval]
    have hb : ([name, accumulator], mapping) ∈ evaluated (.reduce accumulator initial name source mapping) := by
      simp [evaluated]
    exact sim_reduction (plain (by simp [evaluated])) (plain (by simp [evaluated])) (assigns hb) (inner hb)
  | countSubquery | label | windowFunction | lambda => simpa only [Expr.eval] using .throw _
  | _ => simp_all [isOperation, isExternal]

theorem agrees_of_found (rt : Runtime ω α) {ctx : Context ω α}
    {I : Set String → (String → Option (Value α)) → (String → Option (Value α)) → Prop} {W : Set String}
    (anti : ∀ {R R'}, R ⊆ R' → I R' ≤ I R)
    (assign : ∀ {R n v σ τ}, n ∈ W → I R σ τ → I (insert n R) (Function.update σ n (some v)) (Function.update τ n (some v)))
    (found : ∀ {R σ τ}, I R σ τ → Found ctx R σ τ) :
    Agrees rt ctx ctx I fun e R => {n | n ∈ e.reads} ⊆ R ∧ {n | n ∈ e.binds} ⊆ W where
  anti := anti
  assigns hp hn := .of_assign assign anti fun n h => hp.2 (hn n h)
  operand hp hc :=
    have hw := within_of_mem_evaluated hc
    ⟨fun n hn => (hw.reads n hn).imp_right (hp.1 ·), fun n hn => hp.2 (hw.binds n (.inr hn))⟩
  bound h := sim_getVariable found h
  read hp := sim_required (sim_getVariable found (hp.1 (by simp [reads])))
  field {e _ name field} hp he := by
    have hr : name ++ "." ++ field ∈ e.reads ∧ name ∈ e.reads := by
      obtain rfl | rfl | rfl := he <;> simp [reads]
    exact sim_namedProperty (sim_getVariable found (hp.1 hr.1)) (sim_required (sim_getVariable found (hp.1 hr.2)))
  call _ _ _ h := h
  contains _ _ _ h := h
  external {e _} he := by
    cases e with
    | parameter name | sessionVariable name =>
      simp only [Expr.eval]
      split
      · exact .pure _
      · exact .throw _
    | «exists» body =>
      simp only [Expr.eval]
      exact (Sim.lift _).bind fun _ => .pure _
    | scalarSubquery body => simpa only [Expr.eval] using .lift (ctx.executeScalar body)
    | _ => simp [isExternal] at he

theorem footprint (rt : Runtime ω α) (ctx : Context ω α) (e : Expr α) :
    Footprint (eval rt ctx e) {n | n ∈ e.reads} {n | n ∈ e.binds} :=
  .of_sim fun _ start hR =>
    (agrees_of_found rt (I := fun R => Kept R {n | n ∈ e.binds} start) Kept.anti Kept.assign fun h => .of_eqOn h.1).eval
      ⟨hR, subset_rfl⟩

theorem sim_found (rt : Runtime ω α) (ctx : Context ω α) (e : Expr α) :
    Sim (Found ctx {n | n ∈ e.reads}) (eval rt ctx e) (eval rt ctx e) (Found ctx {n | n ∈ e.reads}) :=
  (agrees_of_found rt (W := Set.univ) (fun hR _ _ h n hn => h n (hR hn)) (fun _ h => h.assign) id).eval
    ⟨subset_rfl, Set.subset_univ _⟩

-- Variables that an expression does not read have no part in its value, and those it does not bind stay.
theorem eval_local {rt : Runtime ω α} {ctx : Context ω α} {e : Expr α} (h : ∀ n ∈ e.reads, σ n = τ n) :
    (eval rt ctx e σ).toOption.map (·.1) = (eval rt ctx e τ).toOption.map (·.1) ∧
      ∀ v σ', eval rt ctx e σ = .ok (v, σ') → ∀ n ∉ e.binds, σ' n = σ n := by
  have hf := footprint rt ctx e
  have hone {σ τ} (h : Set.EqOn σ τ {n | n ∈ e.reads}) {v} :
      (∃ σ', eval rt ctx e σ = .ok (v, σ')) → ∃ τ', eval rt ctx e τ = .ok (v, τ') := by
    rintro ⟨σ', hv⟩
    obtain ⟨τ', hv, -⟩ := hf.depends subset_rfl h hv
    exact ⟨τ', hv⟩
  refine ⟨?_, fun v σ' hv n hn => hf.frame hv hn⟩
  ext v
  simpa [Except.toOption_eq_some] using Iff.intro (hone h) (hone (Set.EqOn.symm h))

-- `[x IN s | x]`
theorem eval_local_comprehension :
    (eval Runtime.bare (.default ()) (.listComprehension "x" (.variable "s") none (some (.variable "x")))
      fun _ => some (.list [.int 1])).toOption.map (·.1) =
    (eval Runtime.bare (.default ()) (.listComprehension "x" (.variable "s") none (some (.variable "x")))
      fun n => if n = "s" then some (.list [.int 1]) else none).toOption.map (·.1) :=
  (eval_local (by simp [reads])).1

end

end Linkrs.Expr
