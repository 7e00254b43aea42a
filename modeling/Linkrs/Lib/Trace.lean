import Mathlib.Data.List.Basic

-- Systems that answer each of their operations.
namespace Trace

variable {σ τ ι ρ : Type*}

def trace (step : σ → ι → ρ × σ) : σ → List ι → List ρ × σ
  | s, [] => ([], s)
  | s, i :: is =>
    let (answer, s) := step s i
    let (answers, s) := trace step s is
    (answer :: answers, s)

-- All operations meet a condition on the state that they start from.
def Meets (step : σ → ι → ρ × σ) (ok : σ → ι → Prop) : σ → List ι → Prop
  | _, [] => True
  | s, i :: is => ok s i ∧ Meets step ok (step s i).2 is

-- Where related states give the same answer to an operation and stay related, they give the same
-- answers to all lists of operations.
theorem trace_eq {step : σ → ι → ρ × σ} {R : σ → τ → Prop}
    (h : ∀ {s t i}, R s t → ok s i → (step s i).1 = (step' t i).1 ∧ R (step s i).2 (step' t i).2)
    (hR : R s t) (hok : Meets step ok s is) :
    (trace step s is).1 = (trace step' t is).1 ∧ R (trace step s is).2 (trace step' t is).2 := by
  induction is generalizing s t with
  | nil => exact ⟨rfl, hR⟩
  | cons i is ind =>
    have ⟨hanswer, hR⟩ := h hR hok.1
    have ⟨hanswers, hend⟩ := ind hR hok.2
    exact ⟨congrArg₂ List.cons hanswer hanswers, hend⟩

end Trace
