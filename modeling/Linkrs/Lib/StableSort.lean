import Mathlib.Data.List.Sort

namespace List

variable {α β κ : Type} [LinearOrder κ] (key : α → κ)

-- Sorting by a key keeps the elements with the same key in their order.
theorem filter_mergeSort (xs : List α) (k : κ) :
    (xs.mergeSort fun a b => key a ≤ key b).filter (key · = k) = xs.filter (key · = k) := by
  have hp : (xs.filter (key · = k)).Pairwise fun a b => decide (key a ≤ key b) = true := by
    apply pairwise_of_forall_mem_list
    simp_all
  have hs : xs.filter (key · = k) <+ xs.mergeSort fun a b => key a ≤ key b :=
    sublist_mergeSort (by simpa using fun a b c => le_trans) (by simpa using fun a b => le_total _ _)
      hp filter_sublist
  have hf := hs.filter (key · = k)
  rw [filter_filter] at hf
  simp only [Bool.and_self] at hf
  exact (hf.eq_of_length ((mergeSort_perm xs _).filter _).length_eq.symm).symm

-- A sorted list is determined by what it holds for each key.
theorem eq_of_sorted_of_filter {xs ys : List α} (hx : xs.Pairwise fun a b => key a ≤ key b)
    (hy : ys.Pairwise fun a b => key a ≤ key b)
    (h : ∀ k, xs.filter (key · = k) = ys.filter (key · = k)) : xs = ys := by
  have hm {zs zs' : List α} (hz : ∀ k, zs.filter (key · = k) = zs'.filter (key · = k)) {a : α}
      (ha : a ∈ zs) : a ∈ zs' := by
    have : a ∈ zs.filter (key · = key a) := by simp [ha]
    rw [hz] at this
    exact mem_of_mem_filter this
  induction xs generalizing ys with
  | nil =>
    cases ys with
    | nil => rfl
    | cons b _ => exact absurd (hm (fun k => (h k).symm) (mem_cons_self (a := b))) (by simp)
  | cons a xs ind =>
    cases ys with
    | nil => exact absurd (hm h (mem_cons_self (a := a))) (by simp)
    | cons b ys =>
      have ⟨hxa, hxs⟩ := pairwise_cons.mp hx
      have ⟨hyb, hys⟩ := pairwise_cons.mp hy
      -- Both heads have the least key, and the first element with it is the same.
      have hab : key a = key b := by
        apply le_antisymm
        · rcases mem_cons.mp (hm (fun k => (h k).symm) (mem_cons_self (a := b))) with he | hb
          · rw [he]
          · exact hxa b hb
        · rcases mem_cons.mp (hm h (mem_cons_self (a := a))) with he | ha
          · rw [he]
          · exact hyb a ha
      have he : a = b := by
        have := h (key a)
        simp only [filter_cons, hab, decide_true, if_true, cons.injEq] at this
        exact this.1
      subst he
      congr 1
      apply ind hxs hys
      intro k
      have := h k
      simp only [filter_cons] at this
      split at this
      · exact (cons.inj this).2
      · exact this

theorem mergeSort_eq_iff {xs ys : List α} :
    (xs.mergeSort fun a b => key a ≤ key b) = (ys.mergeSort fun a b => key a ≤ key b) ↔
      ∀ k, xs.filter (key · = k) = ys.filter (key · = k) := by
  have hs (zs : List α) :
      (zs.mergeSort fun a b => key a ≤ key b).Pairwise fun a b => key a ≤ key b := by
    have := @pairwise_mergeSort α (fun a b => decide (key a ≤ key b))
      (by simpa using fun a b c => le_trans) (by simpa using fun a b => le_total _ _) zs
    simpa using this
  constructor
  · intro h k
    rw [← filter_mergeSort key xs, ← filter_mergeSort key ys, h]
  · intro h
    apply eq_of_sorted_of_filter key (hs xs) (hs ys)
    intro k
    rw [filter_mergeSort, filter_mergeSort, h]

-- An element that comes before all others is moved to the front.
theorem mergeSort_concat (hs : xs.Pairwise fun a b => key a ≤ key b)
    (hx : ∀ a ∈ xs, key x < key a) : ((xs ++ [x]).mergeSort fun a b => key a ≤ key b) = x :: xs := by
  have hsorted : (x :: xs).Pairwise fun a b => decide (key a ≤ key b) = true := by
    simpa using ⟨fun a ha => (hx a ha).le, hs⟩
  rw [← mergeSort_of_pairwise hsorted, mergeSort_eq_iff key]
  intro k
  simp only [filter_append, filter_cons, filter_nil]
  split
  case isTrue hk =>
    have hnil : xs.filter (key · = k) = [] := by
      rw [filter_eq_nil_iff]
      intro a ha
      simp only [decide_eq_true_eq] at hk ⊢
      exact fun hak => (hx a ha).ne (hk.trans hak.symm)
    simp [hnil]
  case isFalse hk => simp

section

variable {f : β → List α} {xs ys : List β}

theorem flatMap_eq_of_perm (h : xs.Pairwise fun a b => f a ++ f b = f b ++ f a) (hp : xs ~ ys) :
    xs.flatMap f = ys.flatMap f := by
  have hsymm {a b : β} (hab : f a ++ f b = f b ++ f a) : f b ++ f a = f a ++ f b := hab.symm
  induction hp with
  | nil => rfl
  | cons a _ ind => simp [ind (pairwise_cons.mp h).2]
  | swap a b zs =>
    have hab := (pairwise_cons.mp h).1 a (by simp)
    simp only [flatMap_cons, ← append_assoc, hab]
  | trans h₁ _ i j => rw [i h, j ((h₁.pairwise_iff hsymm).mp h)]

-- The order of the pieces does not matter exactly if any two of them commute.
theorem forall_perm_flatMap_iff {ι : Type} {f : ι → β → List α} :
    (∀ ys, ys ~ xs → ∀ i, ys.flatMap (f i) = xs.flatMap (f i)) ↔
      xs.Pairwise fun a b => ∀ i, f i a ++ f i b = f i b ++ f i a := by
  constructor
  · intro h
    rw [pairwise_iff_forall_sublist]
    intro a b hab i
    have ⟨zs, hz⟩ := hab.exists_perm_append
    have h₁ := h _ hz.symm i
    have h₂ := h (b :: a :: zs) ((Perm.swap a b zs).trans hz.symm) i
    rw [← h₂] at h₁
    simpa [← append_assoc] using h₁
  · intro h ys hy i
    exact (flatMap_eq_of_perm (h.imp fun hab => hab i) hy.symm).symm

end
end List
