import Mathlib.Algebra.Order.Ring.Nat
import Mathlib.Data.List.Basic

-- A table whose entries are found by their keys up to a comparison. An entry keeps the key that it
-- was made for.
abbrev KeyTable (κ β : Type) := List (κ × β)

namespace KeyTable

variable {κ β γ : Type} (same : κ → κ → Bool)

def get? (t : KeyTable κ β) (k : κ) : Option β :=
  (t.find? fun e => same e.1 k).map (·.2)

-- The entry of a key is replaced, or a new one is added.
def alter (k : κ) (f : Option β → β) : KeyTable κ β → KeyTable κ β
  | [] => [(k, f none)]
  | (k', b) :: t => if same k' k then (k', f (some b)) :: t else (k', b) :: alter k f t

-- What the values of each key amount to, taken in order.
def collect (init : β) (step : β → γ → β) (t : KeyTable κ β) (xs : List (κ × γ)) : KeyTable κ β :=
  xs.foldl (fun t x => alter same x.1 (fun b => step (b.getD init) x.2) t) t

variable {same} {init : β} {step : β → γ → β} {t : KeyTable κ β} {xs : List (κ × γ)}

@[simp]
theorem collect_nil : collect same init step t [] = t :=
  rfl

theorem collect_cons (x : κ × γ) : collect same init step t (x :: xs) =
    collect same init step (alter same x.1 (fun b => step (b.getD init) x.2) t) xs :=
  rfl

theorem collect_append (ys : List (κ × γ)) : collect same init step t (xs ++ ys) =
    collect same init step (collect same init step t xs) ys :=
  List.foldl_append

theorem mem_alter (h : e ∈ alter same k f t) : e.1 = k ∨ ∃ e' ∈ t, e'.1 = e.1 := by
  induction t with
  | nil => simp_all [alter]
  | cons e' t ind =>
    simp only [alter] at h
    split at h <;> grind

section

variable {k k' : κ} {f : Option β → β}

-- The comparison is a partial equivalence: a key need not be the same as itself, and is then never
-- found.
variable (symm : ∀ a b, same a b = same b a) (trans : ∀ {a b c}, same a b → same b c → same a c)

include symm trans

theorem get?_alter_of_same (h : same k k') : get? same (alter same k f t) k' = some (f (get? same t k)) := by
  induction t with
  | nil => simp [alter, get?, h]
  | cons e t ind =>
    by_cases he : same e.1 k
    · simp [alter, get?, he, trans he h]
    · have he' : ¬same e.1 k' := fun hs => he (trans hs (by rwa [symm]))
      simpa [alter, get?, he, he'] using ind

theorem get?_alter_of_not_same (h : ¬same k k') : get? same (alter same k f t) k' = get? same t k' := by
  induction t with
  | nil => simp [alter, get?, h]
  | cons e t ind =>
    by_cases he : same e.1 k
    · have he' : ¬same e.1 k' := fun hs => h (trans (by rwa [symm]) hs)
      simp [alter, get?, he, he']
    · by_cases he' : same e.1 k'
      · simp [alter, get?, he, he']
      · simpa [alter, get?, he, he'] using ind

theorem get?_congr (h : same k k') : get? same t k = get? same t k' := by
  have hs : (fun e : κ × β => same e.1 k) = fun e => same e.1 k' := by
    funext e
    rw [Bool.eq_iff_iff]
    exact ⟨fun he => trans he h, fun he => trans he (by rwa [symm])⟩
  rw [get?, get?, hs]

-- A key collects what came with the keys that are the same.
theorem get?_collect : get? same (collect same init step t xs) k =
    (xs.filter fun x => same x.1 k).foldl (fun b x => some (step (b.getD init) x.2)) (get? same t k) := by
  induction xs generalizing t with
  | nil => rfl
  | cons x xs ind =>
    rw [collect_cons, ind, List.filter_cons]
    split
    case isTrue h =>
      rw [get?_alter_of_same symm trans h, get?_congr symm trans h, List.foldl_cons]
    case isFalse h =>
      rw [get?_alter_of_not_same symm trans h]

omit symm trans in
theorem foldl_append_some (xs : List (κ × γ)) (ys : List γ) :
    xs.foldl (fun b x => some (b.getD [] ++ [x.2])) (some ys) = some (ys ++ xs.map (·.2)) := by
  induction xs generalizing ys with
  | nil => simp
  | cons x xs ind => simp [ind]

theorem get?_collect_append : get? same (collect same [] (fun b x => b ++ [x]) [] xs) k =
    if xs.filter (fun x => same x.1 k) = [] then none
    else some ((xs.filter fun x => same x.1 k).map (·.2)) := by
  rw [get?_collect symm trans]
  cases xs.filter fun x => same x.1 k with
  | nil => rfl
  | cons x xs => simp [get?, foldl_append_some]

end

-- What went into the entries of a table of lists, and under which keys.
section

variable {ys : List (κ × γ)} {t : KeyTable κ (List γ)} {e : κ × List γ}

theorem mem_alter_append
    (he : e ∈ alter same k (fun b => b.getD [] ++ [x]) t) (hy : y ∈ e.2) :
    (∃ e' ∈ t, e'.1 = e.1 ∧ y ∈ e'.2) ∨ y = x ∧ (e.1 = k ∨ same e.1 k) := by
  induction t with
  | nil => simp_all [alter]
  | cons e' t ind =>
    simp only [alter] at he
    split at he <;> simp_all
    · grind
    · grind

theorem mem_collect_append
    (he : e ∈ collect same [] (fun b x => b ++ [x]) t ys) (hy : y ∈ e.2) :
    (∃ e' ∈ t, e'.1 = e.1 ∧ y ∈ e'.2) ∨ ∃ x ∈ ys, x.2 = y ∧ (e.1 = x.1 ∨ same e.1 x.1) := by
  induction ys generalizing t with
  | nil => exact .inl ⟨e, he, rfl, hy⟩
  | cons x ys ind =>
    obtain ⟨e', he', hk, hy'⟩ | ⟨x', hx', h⟩ := ind he
    · obtain ⟨e'', h⟩ | ⟨rfl, h⟩ := mem_alter_append he' hy'
      · exact .inl ⟨e'', h.1, h.2.1.trans hk, h.2.2⟩
      · exact .inr ⟨x, .head _, rfl, hk ▸ h⟩
    · exact .inr ⟨x', .tail _ hx', h⟩

theorem exists_mem_alter : ∃ e ∈ alter same k (fun b => b.getD [] ++ [x]) t, x ∈ e.2 := by
  induction t with
  | nil => simp [alter]
  | cons e t ind =>
    simp only [alter]
    split
    · simp
    · obtain ⟨e', he', hx⟩ := ind
      exact ⟨e', .tail _ he', hx⟩

theorem subset_alter (he : e ∈ t) :
    ∃ e' ∈ alter same k (fun b => b.getD [] ++ [x]) t, e.2 ⊆ e'.2 := by
  induction t with
  | nil => simp at he
  | cons e' t ind =>
    simp only [alter]
    obtain rfl | he := List.mem_cons.mp he
    · split
      · exact ⟨_, .head _, by simp⟩
      · exact ⟨_, .head _, by simp⟩
    · split
      · exact ⟨e, .tail _ he, by simp⟩
      · obtain ⟨e'', he'', hs⟩ := ind he
        exact ⟨e'', .tail _ he'', hs⟩

theorem subset_collect (he : e ∈ t) :
    ∃ e' ∈ collect same [] (fun b x => b ++ [x]) t ys, e.2 ⊆ e'.2 := by
  induction ys generalizing t e with
  | nil => exact ⟨e, he, by simp⟩
  | cons x ys ind =>
    obtain ⟨e', he', hs⟩ := subset_alter (x := x.2) (k := x.1) he
    obtain ⟨e'', he'', hs'⟩ := ind he'
    exact ⟨e'', he'', List.Subset.trans hs hs'⟩

theorem exists_mem_collect (hx : x ∈ ys) :
    ∃ e ∈ collect same [] (fun b x => b ++ [x]) t ys, x.2 ∈ e.2 := by
  induction ys generalizing t with
  | nil => simp at hx
  | cons x' ys ind =>
    obtain rfl | hx := List.mem_cons.mp hx
    · obtain ⟨e, he, hm⟩ := exists_mem_alter (t := t) (k := x.1) (x := x.2)
      obtain ⟨e', he', hs⟩ := subset_collect he
      exact ⟨e', he', hs hm⟩
    · exact ind hx

end

theorem key_mem_collect (he : e ∈ collect same init step t xs) : (∃ e' ∈ t, e'.1 = e.1) ∨ ∃ x ∈ xs, x.1 = e.1 := by
  induction xs generalizing t with
  | nil => exact .inl ⟨e, he, rfl⟩
  | cons x xs ind =>
    obtain ⟨e', he', hk⟩ | ⟨x', hx', hk⟩ := ind he
    · obtain h | ⟨e'', he'', h⟩ := mem_alter he'
      · exact .inr ⟨x, .head _, h ▸ hk⟩
      · exact .inl ⟨e'', he'', h.trans hk⟩
    · exact .inr ⟨x', .tail _ hx', hk⟩

section

variable {p : κ → Bool}

-- Entries of other keys take no part in finding an entry.
theorem alter_filter (h : ∀ e ∈ t, same e.1 k → p e.1 = p k) :
    (alter same k f t).filter (fun e => p e.1) =
      if p k then alter same k f (t.filter fun e => p e.1) else t.filter fun e => p e.1 := by
  induction t with
  | nil => cases hk : p k <;> simp [alter, hk]
  | cons e t ind =>
    simp only [alter]
    split
    case isTrue hs =>
      cases hk : p k <;> simp_all [alter]
    case isFalse hs =>
      cases hk : p k <;> cases hp : p e.1 <;> simp_all [alter]

end

end KeyTable
