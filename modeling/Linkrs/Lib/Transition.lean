import Mathlib.Data.List.Basic
import Mathlib.Order.Defs.PartialOrder

namespace Transition

variable {σ ι : Type*}

-- The finite runs of a partial step function. `ok` constrains each step by the state it is taken
-- from and by its label.
inductive Run (step : σ → ι → Option σ) (ok : σ → ι → Prop) : σ → List ι → σ → Prop
  | refl {s : σ} : Run step ok s [] s
  | step {s s₁ s₂ : σ} {i : ι} {is : List ι} :
    ok s i → step s i = some s₁ → Run step ok s₁ is s₂ → Run step ok s (i :: is) s₂

-- Runs without a constraint on their steps.
abbrev FreeRun (step : σ → ι → Option σ) := Run step fun _ _ => True

namespace Run

variable {step : σ → ι → Option σ} {ok ok' : σ → ι → Prop} {s s₁ s₂ : σ} {is : List ι}

theorem trans (r₁ : Run step ok s is₁ s₁) (r₂ : Run step ok s₁ is₂ s₂) : Run step ok s (is₁ ++ is₂) s₂ := by
  induction r₁ with
  | refl => exact r₂
  | step ho he _ hi => exact .step ho he (hi r₂)

theorem single (ho : ok s i) (he : step s i = some s₁) : Run step ok s [i] s₁ :=
  .step ho he .refl

theorem mono (h : ∀ s i, ok s i → ok' s i) (r : Run step ok s is s₁) : Run step ok' s is s₁ := by
  induction r with
  | refl => exact .refl
  | step ho he _ hi => exact .step (h _ _ ho) he hi

-- A run is admitted if its labels are admitted everywhere.
theorem of_forall (h : ∀ i ∈ is, ∀ s, ok s i) (r : FreeRun step s is s₁) : Run step ok s is s₁ := by
  induction r with
  | refl => exact .refl
  | step _ he _ hi =>
    have ⟨h, hs⟩ := List.forall_mem_cons.mp h
    exact .step (h _) he (hi hs)

-- What every admitted step preserves holds at the end of every run that starts with it.
theorem invariant {P : σ → Prop} (hp : ∀ {s i s'}, P s → ok s i → step s i = some s' → P s')
    (r : Run step ok s is s₁) (h : P s) : P s₁ := by
  induction r with
  | refl => exact h
  | step ho he _ hi => exact hi (hp h ho he)

-- A preorder that every admitted step follows relates the two ends of every run.
theorem related {P : σ → Prop} {R : σ → σ → Prop} (hr : ∀ s, R s s) (ht : ∀ {a b c}, R a b → R b c → R a c)
    (hp : ∀ {s i s'}, P s → ok s i → step s i = some s' → P s' ∧ R s s')
    (r : Run step ok s is s₁) (h : P s) : R s s₁ := by
  induction r with
  | refl => exact hr _
  | step ho he _ hi =>
    have ⟨h', hR⟩ := hp h ho he
    exact ht hR (hi h')

-- Where no step lowers a measure and the steps that keep it are those that `ok'` admits, a run keeps
-- it from end to end iff all of its steps are admitted.
theorem measure_eq_iff_within [PartialOrder α] {P : σ → Prop} {μ : σ → α}
    (hp : ∀ {s i s'}, P s → ok s i → step s i = some s' → P s' ∧ μ s ≤ μ s' ∧ (μ s' = μ s ↔ ok' s i))
    (r : Run step ok s is s₁) (h : P s) : μ s₁ = μ s ↔ Run step (fun s i => ok s i ∧ ok' s i) s is s₁ := by
  have hm {t : σ} {js : List ι} (r : Run step ok t js s₁) (h : P t) : μ t ≤ μ s₁ :=
    r.related (R := fun a b => μ a ≤ μ b) (fun _ => le_rfl) le_trans
      (fun h ho he => ⟨(hp h ho he).1, (hp h ho he).2.1⟩) h
  induction r with
  | refl => exact iff_of_true rfl .refl
  | step hok he r hi =>
    have ⟨h', hl, ho⟩ := hp h hok he
    constructor
    · intro hs
      have hk := le_antisymm (hs ▸ hm r h') hl
      exact .step ⟨hok, ho.mp hk⟩ he ((hi h' hm).mp (hs.trans hk.symm))
    · rintro (_ | ⟨hok', he', r'⟩)
      cases he.symm.trans he'
      exact ((hi h' hm).mpr r').trans (ho.mpr hok'.2)

theorem measure_eq_iff [PartialOrder α] {P : σ → Prop} {μ : σ → α}
    (hp : ∀ {s i s'}, P s → step s i = some s' → P s' ∧ μ s ≤ μ s' ∧ (μ s' = μ s ↔ ok s i))
    (r : FreeRun step s is s₁) (h : P s) : μ s₁ = μ s ↔ Run step ok s is s₁ := by
  rw [r.measure_eq_iff_within (fun h _ he => hp h he) h]
  exact ⟨mono fun _ _ ho => ho.2, mono fun _ _ ho => ⟨trivial, ho⟩⟩

theorem free_iff : FreeRun step s is s₁ ↔ is.foldlM step s = some s₁ := by
  constructor
  · intro r
    induction r with
    | refl => rfl
    | step _ he _ hi => simpa [List.foldlM_cons, he] using hi
  · intro h
    induction is generalizing s with
    | nil => cases h; exact .refl
    | cons i is hi =>
      obtain ⟨s', he, h⟩ := Option.bind_eq_some_iff.mp h
      exact .step trivial he (hi h)

-- A run over given labels that ends in a state with a decidable property, found by evaluation.
theorem exists_of_any (step : σ → ι → Option σ) (s : σ) (is : List ι) (p : σ → Bool)
    (h : (is.foldlM step s).any p = true) : ∃ s', FreeRun step s is s' ∧ p s' = true := by
  cases he : is.foldlM step s with
  | none => simp [he] at h
  | some s' => exact ⟨s', free_iff.mpr he, by simpa [he] using h⟩

-- The same for runs with a constraint that can be checked by evaluation.
theorem exists_of_checked (step : σ → ι → Option σ) (s : σ) (is : List ι) (p : σ → Bool)
    {g : σ → ι → Bool} (hg : ∀ s i, g s i → ok s i)
    (h : (is.foldlM (fun s i => if g s i then step s i else none) s).any p = true) :
    ∃ s', Run step ok s is s' ∧ p s' = true := by
  induction is generalizing s with
  | nil => exact ⟨s, .refl, by simpa using h⟩
  | cons i is hi =>
    cases hs : g s i with
    | false => simp [hs] at h
    | true =>
      cases he : step s i with
      | none => simp [hs, he] at h
      | some s' =>
        have ⟨t, r, hp⟩ := hi s' (by simpa [hs, he] using h)
        exact ⟨t, .step (hg s i hs) he r, hp⟩

end Run

-- Who takes part in a run of one or two.
def only : Fin 1 := ⟨0, Nat.one_pos⟩
def first : Fin 2 := ⟨0, Nat.two_pos⟩
def second : Fin 2 := ⟨1, Nat.one_lt_two⟩

end Transition
