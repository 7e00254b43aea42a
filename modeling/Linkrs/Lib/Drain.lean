import Mathlib.Data.List.Basic

-- A source that is pulled until it answers that there is nothing more, with everything that it
-- gave on the way. Pulling never failed.
inductive Drains {σ ε α : Type} (next : σ → Except ε (Option (List α) × σ)) : σ → List α → Prop where
  | done {s s' : σ} (h : next s = .ok (none, s')) : Drains next s []
  | more {s s' : σ} {xs rest : List α} (h : next s = .ok (some xs, s')) (d : Drains next s' rest) :
    Drains next s (xs ++ rest)

namespace Drains

variable {σ ε α : Type} {next : σ → Except ε (Option (List α) × σ)} {s : σ} {xs ys : List α}

theorem unique (d : Drains next s xs) (d' : Drains next s ys) : xs = ys := by
  induction d generalizing ys with
  | done h =>
    cases d' with
    | done => rfl
    | more h' => simp [h] at h'
  | more h _ ind =>
    cases d' with
    | done h' => simp [h] at h'
    | more h' d =>
      simp only [h, Except.ok.injEq, Prod.mk.injEq, Option.some.injEq] at h'
      obtain ⟨rfl, rfl⟩ := h'
      rw [ind d]

theorem next_ok (d : Drains next s xs) : ∃ r, next s = .ok r := by
  cases d with
  | done h => exact ⟨_, h⟩
  | more h _ => exact ⟨_, h⟩

-- A source that always has something more is never drained.
theorem not_of_more {P : σ → Prop} (h : ∀ s, P s → ∃ ys s', next s = .ok (some ys, s') ∧ P s') (hs : P s) :
    ¬Drains next s xs := by
  intro d
  induction d with
  | done hd =>
    obtain ⟨ys, s', hm, -⟩ := h _ hs
    simp [hm] at hd
  | more hd _ ind =>
    obtain ⟨ys, s', hm, hs'⟩ := h _ hs
    simp only [hm, Except.ok.injEq, Prod.mk.injEq] at hd
    exact ind (hd.2 ▸ hs')

theorem of_next_eq (h : next s = next s') (d : Drains next s' xs) : Drains next s xs := by
  cases d with
  | done h' => exact .done (h.trans h')
  | more h' d => exact .more (h.trans h') d

end Drains

-- A batch is given in slices, each of which moves the offset by its own length.
theorem take_append_drop_length {α : Type} (n : ℕ) (xs : List α) : xs.take n ++ xs.drop (xs.take n).length = xs := by
  obtain hle | hle := Nat.le_total n xs.length
  · rw [List.length_take, Nat.min_eq_left hle, List.take_append_drop]
  · rw [List.take_of_length_le hle, List.drop_length, List.append_nil]
