import Linkrs.Lib.KeyTable
import Mathlib.Data.List.Perm.Basic
import Mathlib.Data.List.Induction

-- Two lists have related elements, in some order.
def UpTo {β γ : Type} (r : β → γ → Prop) (xs : List β) (ys : List γ) : Prop :=
  ∃ zs, xs.Perm zs ∧ List.Forall₂ r zs ys

namespace UpTo

variable {β β' γ γ' δ : Type} {r : β → γ → Prop} {xs xs' : List β} {ys ys' : List γ}

theorem perm_left (h : UpTo r xs ys) (hp : xs'.Perm xs) : UpTo r xs' ys := by
  obtain ⟨zs, hz, hf⟩ := h
  exact ⟨zs, hp.trans hz, hf⟩

theorem perm_right (h : UpTo r xs ys) (hp : ys.Perm ys') : UpTo r xs ys' := by
  obtain ⟨zs, hz, hf⟩ := h
  have hcomp : Relation.Comp (List.Forall₂ r) List.Perm zs ys' := ⟨ys, hf, hp⟩
  rw [List.forall₂_comp_perm_eq_perm_comp_forall₂] at hcomp
  obtain ⟨zs', hz', hf'⟩ := hcomp
  exact ⟨zs', hz.trans hz', hf'⟩

theorem append (h : UpTo r xs ys) (h' : UpTo r xs' ys') : UpTo r (xs ++ xs') (ys ++ ys') := by
  obtain ⟨zs, hz, hf⟩ := h
  obtain ⟨zs', hz', hf'⟩ := h'
  exact ⟨zs ++ zs', hz.append hz', List.rel_append hf hf'⟩

theorem flatMap {l : List δ} (h : ∀ x ∈ l, UpTo r (f x) (g x)) : UpTo r (l.flatMap f) (l.flatMap g) := by
  induction l with
  | nil => exact ⟨[], .nil, .nil⟩
  | cons x l ind =>
    have ⟨hx, hl⟩ := List.forall_mem_cons.mp h
    exact hx.append (ind hl)

theorem map {q : β' → γ' → Prop} (h : UpTo r xs ys)
    (hr : ∀ x ∈ xs, ∀ y ∈ ys, r x y → q (f x) (g y)) : UpTo q (xs.map f) (ys.map g) := by
  obtain ⟨zs, hz, hf⟩ := h
  refine ⟨zs.map f, hz.map f, List.forall₂_map_left_iff.mpr (List.forall₂_map_right_iff.mpr ?_)⟩
  have hmem : ∀ z ∈ zs, z ∈ xs := fun z h => hz.mem_iff.mpr h
  clear hz
  induction hf with
  | nil => exact .nil
  | cons hxy hfs ind =>
    have ⟨hz, hzs⟩ := List.forall_mem_cons.mp hmem
    exact .cons (hr _ hz _ (.head _) hxy) (ind (fun x hx y hy => hr x hx y (.tail _ hy)) hzs)

end UpTo

namespace KeyTable

open List

variable {κ β β' γ γ' : Type} {same : κ → κ → Bool} {t t' u : KeyTable κ β} {k k' : κ} {f f' : Option β → β}
  {init : β} {step : β → γ → β} {xs : List (κ × γ)}

-- No two entries have the same key.
def Apart (same : κ → κ → Bool) (t : KeyTable κ β) : Prop :=
  t.Pairwise fun e e' => ¬same e.1 e'.1

theorem Apart.alter (h : Apart same t) : Apart same (alter same k f t) := by
  induction t with
  | nil => simp [Apart, KeyTable.alter]
  | cons e t ind =>
    obtain ⟨he, ht⟩ := pairwise_cons.mp h
    simp only [KeyTable.alter]
    split
    case isTrue hs => exact pairwise_cons.mpr ⟨he, ht⟩
    case isFalse hs =>
      refine pairwise_cons.mpr ⟨fun e' he' => ?_, ind ht⟩
      obtain hk | ⟨e'', he'', hk⟩ := mem_alter he'
      · rwa [hk]
      · exact hk ▸ he e'' he''

theorem Apart.collect (h : Apart same t) : Apart same (collect same init step t xs) := by
  induction xs generalizing t with
  | nil => exact h
  | cons x xs ind => exact ind h.alter

theorem alter_ne_nil : alter same k f t ≠ [] := by
  cases t with
  | nil => simp [alter]
  | cons e t =>
    simp only [alter]
    split <;> simp

theorem forall_mem_alter {P : β → Prop} (hnone : P (f none)) (hsome : ∀ b, P b → P (f (some b)))
    (ht : ∀ e ∈ t, P e.2) : ∀ e ∈ alter same k f t, P e.2 := by
  induction t with
  | nil => simpa [alter] using hnone
  | cons e t ind =>
    obtain ⟨he, ht⟩ := forall_mem_cons.mp ht
    simp only [alter]
    split
    · exact forall_mem_cons.mpr ⟨hsome e.2 he, ht⟩
    · exact forall_mem_cons.mpr ⟨he, ind ht⟩

theorem forall_mem_collect {P : β → Prop} (hinit : P init)
    (hstep : ∀ b, ∀ x ∈ xs, P b → P (step b x.2)) (ht : ∀ e ∈ t, P e.2) :
    ∀ e ∈ collect same init step t xs, P e.2 := by
  induction xs generalizing t with
  | nil => exact ht
  | cons x xs ind =>
    refine ind (fun b y hy => hstep b y (.tail _ hy)) (forall_mem_alter ?_ (fun b hb => ?_) ht)
    · exact hstep init x (.head _) hinit
    · exact hstep b x (.head _) hb

theorem length_collect_le : (collect same init step t xs).length ≤ t.length + xs.length := by
  have halter : ∀ (t : KeyTable κ β) (k : κ) (f : Option β → β), (alter same k f t).length ≤ t.length + 1 := by
    intro t k f
    induction t with
    | nil => exact Nat.le_refl _
    | cons e t ind =>
      simp only [alter]
      split
      · simp
      · simpa using ind
  induction xs generalizing t with
  | nil => exact Nat.le_refl _
  | cons x xs ind =>
    have := halter t x.1 fun b => step (b.getD init) x.2
    rw [collect_cons, length_cons]
    exact Nat.le_trans ind (by omega)

theorem alter_of_new (h : ∀ e ∈ t, ¬same e.1 k) : alter same k f t = t ++ [(k, f none)] := by
  induction t with
  | nil => rfl
  | cons e t ind =>
    have ⟨he, ht⟩ := forall_mem_cons.mp h
    simp [KeyTable.alter, he, ind ht]

theorem collect_of_apart {xs : KeyTable κ γ} (hx : Apart same xs) (ht : ∀ e ∈ t, ∀ x ∈ xs, ¬same e.1 x.1) :
    collect same init step t xs = t ++ xs.map fun x => (x.1, step init x.2) := by
  induction xs generalizing t with
  | nil => simp
  | cons x xs ind =>
    have ⟨hx, hxs⟩ := pairwise_cons.mp hx
    rw [collect_cons, alter_of_new fun e he => ht e he x (.head _), ind hxs, map_cons, append_assoc]
    · rfl
    · intro e he y hy
      obtain he | he := mem_append.mp he
      · exact ht e he y (.tail _ hy)
      · obtain rfl := mem_singleton.mp he
        exact hx y hy

theorem collect_filter {p : κ → Bool}
    (h : ∀ x ∈ xs, (∀ e ∈ t, same e.1 x.1 → p e.1 = p x.1) ∧ ∀ y ∈ xs, same y.1 x.1 → p y.1 = p x.1) :
    (collect same init step t xs).filter (fun e => p e.1) =
      collect same init step (t.filter fun e => p e.1) (xs.filter fun x => p x.1) := by
  induction xs generalizing t with
  | nil => rfl
  | cons x xs ind =>
    rw [collect_cons, ind, alter_filter (h x (.head _)).1, filter_cons]
    · split <;> rfl
    · intro y hy
      refine ⟨fun e he hs => ?_, fun z hz => (h y (.tail _ hy)).2 z (.tail _ hz)⟩
      obtain hk | ⟨e', he', hk⟩ := mem_alter he
      · rw [hk] at hs ⊢
        exact (h y (.tail _ hy)).2 x (.head _) hs
      · rw [← hk] at hs ⊢
        exact (h y (.tail _ hy)).1 e' he' hs

theorem exists_same_alter (h : ∃ e ∈ t, same e.1 k) : ∃ e ∈ alter same k' f t, same e.1 k := by
  induction t with
  | nil => simp at h
  | cons e t ind =>
    simp only [alter]
    obtain ⟨e', he', hs⟩ := h
    obtain rfl | he' := mem_cons.mp he'
    · split
      · exact ⟨_, .head _, hs⟩
      · exact ⟨_, .head _, hs⟩
    · split
      · exact ⟨e', .tail _ he', hs⟩
      · obtain ⟨e'', he'', hs'⟩ := ind ⟨e', he', hs⟩
        exact ⟨e'', .tail _ he'', hs'⟩

section

variable (symm : ∀ a b, same a b = same b a) (trans : ∀ {a b c}, same a b → same b c → same a c)

include symm trans

omit symm in
theorem exists_same_alter_self (h : same k k') : ∃ e ∈ alter same k f t, same e.1 k' := by
  induction t with
  | nil => exact ⟨_, .head _, h⟩
  | cons e t ind =>
    simp only [alter]
    split
    case isTrue hs => exact ⟨_, .head _, trans hs h⟩
    case isFalse hs =>
      obtain ⟨e', he', hs'⟩ := ind
      exact ⟨e', .tail _ he', hs'⟩

omit symm trans in
theorem exists_same_collect (h : ∃ x ∈ xs, same x.1 k)
    (trans : ∀ {a b c}, same a b → same b c → same a c) : ∃ e ∈ collect same init step t xs, same e.1 k := by
  have keep : ∀ {xs : List (κ × γ)} {t : KeyTable κ β}, (∃ e ∈ t, same e.1 k) →
      ∃ e ∈ collect same init step t xs, same e.1 k := by
    intro xs
    induction xs with
    | nil => exact fun h => h
    | cons x xs ind => exact fun h => ind (exists_same_alter h)
  induction xs generalizing t with
  | nil => simp at h
  | cons x xs ind =>
    obtain ⟨y, hy, hs⟩ := h
    obtain rfl | hy := mem_cons.mp hy
    · rw [collect_cons]
      exact keep (exists_same_alter_self trans hs)
    · exact ind ⟨y, hy, hs⟩

end

-- Two tables have the same entries in some order, up to a relation of their keys and one of their values.
def Related (K : κ → κ → Prop) (r : β → β' → Prop) (t : KeyTable κ β) (t' : KeyTable κ β') : Prop :=
  UpTo (fun e e' => K e.1 e'.1 ∧ r e.2 e'.2) t t'

-- Keys related by it are the same to all keys alike.
def Respects (same : κ → κ → Bool) (K : κ → κ → Prop) : Prop :=
  ∀ {a a' b b'}, K a a' → K b b' → same a b = same a' b'

theorem respects_eq : Respects same Eq := by
  rintro a _ b _ rfl rfl
  rfl

section

variable (symm : ∀ a b, same a b = same b a) (trans : ∀ {a b c}, same a b → same b c → same a c)

include symm

theorem Apart.perm (h : Apart same t) (hp : t.Perm u) : Apart same u :=
  (hp.pairwise_iff fun h h' => h (by rwa [symm])).mp h

include trans

theorem alter_perm (h : Apart same t) (hp : t.Perm u) : (alter same k f t).Perm (alter same k f u) := by
  induction hp with
  | nil => rfl
  | cons e hp ind =>
    obtain ⟨_, ht⟩ := pairwise_cons.mp h
    simp only [alter]
    split
    · exact hp.cons _
    · exact (ind ht).cons _
  | swap e e' l =>
    obtain ⟨he, _⟩ := pairwise_cons.mp h
    by_cases hs : same e.1 k
    · have hs' : ¬same e'.1 k := fun hs' => he e (.head _) (trans hs' (by rwa [symm]))
      simp only [alter, hs, hs', if_true, if_false, Bool.false_eq_true]
      exact .swap _ _ _
    · by_cases hs' : same e'.1 k
      · simp only [alter, hs, hs', if_true, if_false, Bool.false_eq_true]
        exact .swap _ _ _
      · simp only [alter, hs, hs', if_false, Bool.false_eq_true]
        exact .swap _ _ _
  | trans hp hp' ind ind' => exact (ind h).trans (ind' (h.perm symm hp))

end

section

variable {K : κ → κ → Prop} {r : β → β' → Prop} {t₁ : KeyTable κ β} {t₂ : KeyTable κ β'}

theorem forall₂_alter {f' : Option β' → β'} (hK : Respects same K)
    (h : List.Forall₂ (fun e e' => K e.1 e'.1 ∧ r e.2 e'.2) t₁ t₂) (hk : K k k') (hnone : r (f none) (f' none))
    (hsome : ∀ b b', r b b' → r (f (some b)) (f' (some b'))) :
    List.Forall₂ (fun e e' => K e.1 e'.1 ∧ r e.2 e'.2) (alter same k f t₁) (alter same k' f' t₂) := by
  induction h with
  | nil => exact .cons ⟨hk, hnone⟩ .nil
  | cons he ht ind =>
    simp only [alter, hK he.1 hk]
    split
    · exact .cons ⟨he.1, hsome _ _ he.2⟩ ht
    · exact .cons he ind

variable (symm : ∀ a b, same a b = same b a) (trans : ∀ {a b c}, same a b → same b c → same a c)

include symm trans

theorem Related.alter {f' : Option β' → β'} (hK : Respects same K) (hu : Apart same t₁) (h : Related K r t₁ t₂)
    (hk : K k k') (hnone : r (f none) (f' none)) (hsome : ∀ b b', r b b' → r (f (some b)) (f' (some b'))) :
    Related K r (alter same k f t₁) (alter same k' f' t₂) := by
  obtain ⟨u, hp, hf⟩ := h
  exact ⟨_, alter_perm symm trans hu hp, forall₂_alter hK hf hk hnone hsome⟩

theorem Related.collect {q : γ → γ' → Prop} (hK : Respects same K) (hu : Apart same t₁) (h : Related K r t₁ t₂)
    (hinit : r init init') (hstep : ∀ {b b' x x'}, r b b' → q x x' → r (step b x) (step' b' x'))
    (hx : List.Forall₂ (fun x x' => K x.1 x'.1 ∧ q x.2 x'.2) xs xs') :
    Related K r (collect same init step t₁ xs) (collect same init' step' t₂ xs') := by
  induction hx generalizing t₁ t₂ with
  | nil => exact h
  | cons hx hxs ind =>
    refine ind hu.alter (h.alter symm trans hK hu hx.1 ?_ fun b b' hb => ?_)
    · exact hstep hinit hx.2
    · exact hstep hb hx.2

end

end KeyTable
