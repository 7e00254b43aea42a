import Mathlib.Data.Set.Lattice
import Mathlib.Order.CompletePartialOrder

namespace Linkrs

open List Function

-- Computations that look variables up, set them, and can fail. What is set stays set.
abbrev Scoped (ν V ε : Type) := StateT (ν → Option V) (Except ε)

variable {ν V ε A B ι : Type}

namespace Scoped

def lookup (n : ν) : Scoped ν V ε (Option V) := do
  return (← get) n

def assign [DecidableEq ν] (n : ν) (v : V) : Scoped ν V ε Unit :=
  modify (update · n (some v))

-- One computation after the other, until one fails.
def collect : List (Scoped ν V ε A) → Scoped ν V ε (List A)
  | [] => pure []
  | m :: ms => do
    let a ← m
    let as ← collect ms
    return a :: as

theorem bind_of_ok {f : A → Scoped ν V ε B} (h : m σ = .ok (a, σ')) : (m >>= f) σ = f a σ' := by
  change (m σ).bind (fun p => f p.1 p.2) = _
  rw [h]
  rfl

theorem bind_eq_ok {f : A → Scoped ν V ε B}
    (h : (m >>= f) σ = .ok (b, σ'')) : ∃ a σ', m σ = .ok (a, σ') ∧ f a σ' = .ok (b, σ'') := by
  change (m σ).bind (fun p => f p.1 p.2) = _ at h
  match hσ : m σ with
  | .error e => simp [hσ, Except.bind] at h
  | .ok (a, σ') =>
    rw [hσ] at h
    exact ⟨a, σ', rfl, h⟩

end Scoped

-- Whenever the one computation succeeds so does the other, and gives the same. What the variables are
-- related by before and after that differs.
def Sim (ρ : (ν → Option V) → (ν → Option V) → Prop) (m m' : Scoped ν V ε A)
    (ρ' : (ν → Option V) → (ν → Option V) → Prop) : Prop :=
  ∀ ⦃σ τ⦄, ρ σ τ → ∀ ⦃a σ'⦄, m σ = .ok (a, σ') → ∃ τ', m' τ = .ok (a, τ') ∧ ρ' σ' τ'

-- What variables are related by after some of them were set to the same values.
def Assigns [DecidableEq ν] (ρ : (ν → Option V) → (ν → Option V) → Prop) (ns : List ν)
    (ρ' : (ν → Option V) → (ν → Option V) → Prop) : Prop :=
  ∀ ⦃σ τ⦄, ρ σ τ → ∀ bs : List (ν × V), bs.map (·.1) = ns →
    ρ' (bs.foldl (fun σ b => update σ b.1 (some b.2)) σ) (bs.foldl (fun τ b => update τ b.1 (some b.2)) τ)

-- A relation that knows which variables were set.
theorem Assigns.of_assign [DecidableEq ν] {I : Set ν → (ν → Option V) → (ν → Option V) → Prop} {W : Set ν}
    (hassign : ∀ {R n v σ τ}, n ∈ W → I R σ τ → I (insert n R) (update σ n (some v)) (update τ n (some v)))
    (hanti : ∀ {R R'}, R ⊆ R' → I R' ≤ I R) (h : ∀ n ∈ ns, n ∈ W) : Assigns (I R) ns (I ({n | n ∈ ns} ∪ R)) := by
  intro σ τ hρ bs hbs
  induction bs generalizing ns R σ τ with
  | nil =>
    subst hbs
    simpa using hρ
  | cons b bs ind =>
    subst hbs
    have ⟨hb, hbs⟩ := forall_mem_cons.mp h
    refine hanti ?_ _ _ (ind hbs (hassign hb hρ) rfl)
    rintro n (hn | hn)
    · obtain rfl | hn := mem_cons.mp hn
      · exact .inr (Set.mem_insert _ _)
      · exact .inl hn
    · exact .inr (Set.mem_insert_of_mem _ hn)

namespace Sim

variable {ρ ρ₁ ρ₂ ρ' : (ν → Option V) → (ν → Option V) → Prop} {m m' : Scoped ν V ε A} {f f' : A → Scoped ν V ε B}

theorem weaken (h : Sim ρ m m' ρ') (h₁ : ρ₁ ≤ ρ) (h₂ : ρ' ≤ ρ₂) : Sim ρ₁ m m' ρ₂ := by
  intro σ τ hρ a σ' hm
  have ⟨τ', hm', hρ'⟩ := h (h₁ _ _ hρ) hm
  exact ⟨τ', hm', h₂ _ _ hρ'⟩

protected theorem pure (a : A) : Sim ρ (pure a : Scoped ν V ε A) (pure a) ρ := by
  intro σ τ hρ b σ' hm
  cases hm
  exact ⟨τ, rfl, hρ⟩

protected theorem throw (e : ε) : Sim ρ (throw e : Scoped ν V ε A) m' ρ' := by
  intro σ τ _ a σ' hm
  cases hm

theorem liftOf {x x' : Except ε A} (h : ∀ a, x = .ok a → x' = .ok a) :
    Sim ρ (liftM x : Scoped ν V ε A) (liftM x') ρ := by
  cases x with
  | ok a =>
    rw [h a rfl]
    exact .pure a
  | error e => exact .throw e

protected theorem lift (x : Except ε A) : Sim ρ (liftM x : Scoped ν V ε A) (liftM x) ρ :=
  .liftOf fun _ h => h

theorem bind (hm : Sim ρ m m' ρ₁) (hf : ∀ a, Sim ρ₁ (f a) (f' a) ρ') : Sim ρ (m >>= f) (m' >>= f') ρ' := by
  intro σ τ hρ b σ'' h
  obtain ⟨a, σ', hσ, h⟩ := Scoped.bind_eq_ok h
  obtain ⟨τ', hτ, hρ₁⟩ := hm hρ hσ
  rw [Scoped.bind_of_ok hτ]
  exact hf a hρ₁ h

theorem assign [DecidableEq ν] (ha : Assigns ρ [n] ρ₁) (hm : Sim ρ₁ m m' ρ') :
    Sim ρ (Scoped.assign n v >>= fun _ => m) (Scoped.assign n v >>= fun _ => m') ρ' :=
  fun _ _ hρ _ _ h => hm (ha hρ [(n, v)] rfl) h

theorem assign_assign [DecidableEq ν] (ha : Assigns ρ [n, k] ρ₁) (hm : Sim ρ₁ m m' ρ') :
    Sim ρ (Scoped.assign n v >>= fun _ => Scoped.assign k w >>= fun _ => m)
      (Scoped.assign n v >>= fun _ => Scoped.assign k w >>= fun _ => m') ρ' :=
  fun _ _ hρ _ _ h => hm (ha hρ [(n, v), (k, w)] rfl) h

theorem collect {is : List ι} {m m' : ι → Scoped ν V ε A} (h : ∀ i ∈ is, Sim ρ (m i) (m' i) ρ) :
    Sim ρ (Scoped.collect (is.map m)) (Scoped.collect (is.map m')) ρ := by
  induction is with
  | nil => exact .pure []
  | cons i is ind =>
    have ⟨hi, his⟩ := forall_mem_cons.mp h
    exact hi.bind fun _ => (ind his).bind fun _ => .pure _

theorem foldlM {step step' : B → A → Scoped ν V ε B} (h : ∀ b a, Sim ρ (step b a) (step' b a) ρ) (b : B) (as : List A) :
    Sim ρ (as.foldlM step b) (as.foldlM step' b) ρ := by
  induction as generalizing b with
  | nil => exact .pure b
  | cons a as ind => exact (h b a).bind ind

end Sim

theorem eqOn_update [DecidableEq ν] {R : Set ν} {v : V} (h : Set.EqOn σ τ R) :
    Set.EqOn (update σ n (some v)) (update τ n (some v)) (insert n R) := by
  intro n' hn'
  by_cases heq : n' = n
  · simp [heq]
  · simp [heq, h (Set.mem_of_mem_insert_of_ne hn' heq)]

theorem Assigns.eqOn [DecidableEq ν] :
    Assigns (Set.EqOn · · R : (ν → Option V) → (ν → Option V) → Prop) ns (Set.EqOn · · ({n | n ∈ ns} ∪ R)) := by
  exact .of_assign (I := fun R σ τ => Set.EqOn σ τ R) (W := Set.univ) (fun _ hρ => eqOn_update hρ)
    (fun hR _ _ hρ => hρ.mono hR) fun _ _ => Set.mem_univ _

-- Two runs of a computation agree on the variables of a set, and the first has left all but some as
-- they were at the start.
def Kept (R W : Set ν) (start σ τ : ν → Option V) : Prop := Set.EqOn σ τ R ∧ Set.EqOn σ start Wᶜ

-- A computation depends on no other variables than those it reads, and changes no others than those
-- it sets.
structure Footprint (m : Scoped ν V ε A) (reads sets : Set ν) : Prop where
  depends : ∀ {R}, reads ⊆ R → Sim (Set.EqOn · · R) m m (Set.EqOn · · R)
  frame : ∀ {σ a σ'}, m σ = .ok (a, σ') → Set.EqOn σ' σ setsᶜ

section

variable {m : Scoped ν V ε A} {reads sets R W : Set ν} {start : ν → Option V}

theorem Kept.anti (h : R ⊆ R') : (Kept R' W start : (ν → Option V) → (ν → Option V) → Prop) ≤ Kept R W start :=
  fun _ _ ⟨hR, hW⟩ => ⟨hR.mono h, hW⟩

theorem Kept.assign [DecidableEq ν] (hn : n ∈ W) (hρ : Kept R W start σ τ) :
    Kept (insert n R) W start (update σ n (some v)) (update τ n (some v)) := by
  refine ⟨eqOn_update hρ.1, fun n' hn' => ?_⟩
  have hne : n' ≠ n := fun heq => hn' (heq ▸ hn)
  exact (update_of_ne hne _ _).trans (hρ.2 hn')

theorem Footprint.of_sim (h : ∀ R start, reads ⊆ R → Sim (Kept R sets start) m m (Kept R sets start)) :
    Footprint m reads sets where
  depends {R} hR σ τ hρ a σ' hm := by
    have ⟨τ', hm', hρ'⟩ := h R σ hR ⟨hρ, Set.eqOn_refl _ _⟩ hm
    exact ⟨τ', hm', hρ'.1⟩
  frame {σ a σ'} hm := by
    have ⟨_, _, hρ⟩ := h reads σ subset_rfl ⟨Set.eqOn_refl σ _, Set.eqOn_refl _ _⟩ hm
    exact hρ.2

end

-- Computations that are run one after the other get to one of them with these variables.
inductive Reaches (m : ι → Scoped ν V ε A) : List ι → (ν → Option V) → ι → (ν → Option V) → Prop where
  | head {i is σ} : Reaches m (i :: is) σ i σ
  | tail {i is σ a σ' j τ} (h : m i σ = .ok (a, σ')) (hr : Reaches m is σ' j τ) : Reaches m (i :: is) σ j τ

-- With these variables a computation gives what is expected, and fails if failure is expected. How it
-- fails is left open.
def Yields (m : Scoped ν V ε A) (σ : ν → Option V) (expected : Except ε A) : Prop :=
  ((m σ).map (·.1)).toOption = expected.toOption

namespace Yields

variable {f : A → Scoped ν V ε B} {g : A → Except ε B} {σ : ν → Option V}

protected theorem lift (x : Except ε A) : Yields (liftM x : Scoped ν V ε A) σ x := by
  cases x <;> rfl

theorem bind {m : Scoped ν V ε A} {x : Except ε A} (hm : Yields m σ x)
    (hf : ∀ a σ', m σ = .ok (a, σ') → x = .ok a → Yields (f a) σ' (g a)) : Yields (m >>= f) σ (x >>= g) := by
  unfold Yields at hm
  change (((m σ).bind fun p => f p.1 p.2).map (·.1)).toOption = (x.bind g).toOption
  match hmσ : m σ, x with
  | .ok (a, σ'), .ok b =>
    rw [hmσ] at hm
    obtain rfl : a = b := Option.some.inj hm
    exact hf a σ' hmσ rfl
  | .error e, .error e' => rfl
  | .ok _, .error _ => simp [hmσ, Except.map, Except.toOption] at hm
  | .error _, .ok _ => simp [hmσ, Except.map, Except.toOption] at hm

variable {m : ι → Scoped ν V ε A} {x : ι → Except ε A}

-- The first of several computations, and what comes after it.
theorem bind_reached (h : ∀ j τ, Reaches m (i :: is) σ j τ → Yields (m j) τ (x j))
    (hf : ∀ a σ', (∀ j τ, Reaches m is σ' j τ → Yields (m j) τ (x j)) → Yields (f a) σ' (g a)) :
    Yields (m i >>= f) σ (x i >>= g) :=
  (h i σ .head).bind fun a σ' ha _ => hf a σ' fun j τ hj => h j τ (.tail ha hj)

theorem collect (h : ∀ j τ, Reaches m is σ j τ → Yields (m j) τ (x j)) :
    Yields (Scoped.collect (is.map m)) σ (is.mapM x) := by
  induction is generalizing σ with
  | nil => rfl
  | cons i is ind =>
    rw [map_cons, Scoped.collect, mapM_cons]
    exact bind_reached h fun a σ' h => (ind h).bind fun as _ _ _ => .lift (.ok (a :: as))

end Yields

end Linkrs
