import Mathlib.Data.Nat.Notation

namespace Except

open List

variable {ε ε' α β γ δ : Type} {f : α → Except ε β} {x : Except ε α}

-- An early return with an error unless `p` holds.
def ensure (p : Prop) [Decidable p] (e : ε) : Except ε Unit :=
  if p then .ok () else .error e

theorem ensure_of [Decidable p] (h : p) {e : ε} : ensure p e = .ok () :=
  if_pos h

@[simp]
theorem ensure_eq_ok {p : Prop} [Decidable p] {e : ε} {u : Unit} : ensure p e = .ok u ↔ p := by
  by_cases h : p <;> simp [ensure, h]

theorem bind_eq_ok : x >>= f = .ok b ↔ ∃ a, x = .ok a ∧ f a = .ok b := by
  cases x with
  | error e => simp [bind, Except.bind]
  | ok a => simp [bind, Except.bind]

theorem map_eq_ok {f : α → β} : x.map f = .ok b ↔ ∃ a, x = .ok a ∧ f a = b := by
  cases x <;> simp [Except.map]

@[simp]
theorem mapError_ok {f : ε → ε'} {a : α} : (Except.ok a).mapError f = .ok a :=
  rfl

@[simp]
theorem mapError_error {f : ε → ε'} : (Except.error e : Except ε α).mapError f = .error (f e) :=
  rfl

@[simp]
theorem mapError_eq_ok {f : ε → ε'} {a : α} : x.mapError f = .ok a ↔ x = .ok a := by
  cases x <;> simp

@[simp]
theorem ok_bind {a : α} : (Except.ok a >>= f) = f a :=
  rfl

@[simp]
theorem error_bind {e : ε} : (Except.error e >>= f) = .error e :=
  rfl

@[simp]
theorem isOk_ok {a : α} : (Except.ok a : Except ε α).isOk = true :=
  rfl

@[simp]
theorem isOk_error {e : ε} : (Except.error e : Except ε α).isOk = false :=
  rfl

theorem isOk_iff : x.isOk = true ↔ ∃ a, x = .ok a := by
  cases x <;> simp

theorem toOption_eq_some : x.toOption = some a ↔ x = .ok a := by
  cases x <;> simp [Except.toOption]

def getD : Except ε α → α → α
  | ok a, _ => a
  | error _, d => d

@[simp]
theorem getD_ok {a d : α} : (Except.ok a : Except ε α).getD d = a :=
  rfl

theorem eq_ok_getD (h : x.isOk) : x = .ok (x.getD d) := by
  cases x <;> simp_all

section

variable {f : α → Except ε β} {xs : List α}

theorem mapM_eq_ok_iff (d : β) :
    xs.mapM f = .ok ys ↔ (∀ x ∈ xs, (f x).isOk) ∧ xs.map (fun x => (f x).getD d) = ys := by
  induction xs generalizing ys with
  | nil => simp [pure, Except.pure]
  | cons x xs ind =>
    cases hx : f x with
    | error e => simp [hx]
    | ok b => simp [hx, bind_eq_ok, ind, pure, Except.pure, and_assoc]

theorem mapM_eq_ok (h : ∀ x ∈ xs, f x = .ok (g x)) : xs.mapM f = .ok (xs.map g) := by
  induction xs with
  | nil => rfl
  | cons x xs ind =>
    have ⟨hx, hs⟩ := forall_mem_cons.mp h
    simp [mapM_cons, hx, ind hs, pure, Except.pure]

theorem mapM_eq_error (h : ∃ x ∈ xs, ∃ e, f x = .error e) : ∃ e, xs.mapM f = .error e := by
  induction xs with
  | nil => simp at h
  | cons x xs ind =>
    cases hx : f x with
    | error e => exact ⟨e, by simp [mapM_cons, hx]⟩
    | ok b =>
      have ⟨e, he⟩ := ind (by simpa [hx] using h)
      exact ⟨e, by simp [mapM_cons, hx, he, Functor.map, Except.map]⟩

end

variable {f : α → Except ε β} {xs : List α} {ys : List β}

theorem mapM_cons_eq_ok {x : α} :
    (x :: xs).mapM f = .ok ys ↔ ∃ z zs, f x = .ok z ∧ xs.mapM f = .ok zs ∧ z :: zs = ys := by
  simp only [mapM_cons, bind_eq_ok, pure, Except.pure, Except.ok.injEq]
  exact ⟨fun ⟨z, hz, zs, hzs, heq⟩ => ⟨z, zs, hz, hzs, heq⟩, fun ⟨z, zs, hz, hzs, heq⟩ => ⟨z, hz, zs, hzs, heq⟩⟩

theorem length_of_mapM (h : xs.mapM f = .ok ys) : ys.length = xs.length := by
  induction xs generalizing ys with
  | nil => cases h; rfl
  | cons x xs ind =>
    obtain ⟨z, zs, -, hzs, rfl⟩ := mapM_cons_eq_ok.mp h
    simp [ind hzs]

theorem mapM_bind_eq_ok {g : β → Except ε γ} :
    xs.mapM (fun x => f x >>= g) = .ok zs ↔ ∃ ys, xs.mapM f = .ok ys ∧ ys.mapM g = .ok zs := by
  induction xs generalizing zs with
  | nil => simp [pure, Except.pure]
  | cons x xs ind =>
    simp only [mapM_cons_eq_ok, bind_eq_ok, ind]
    constructor
    · rintro ⟨z, zs, ⟨y, hy, hz⟩, ⟨ys, hys, hzs⟩, rfl⟩
      exact ⟨y :: ys, ⟨y, ys, hy, hys, rfl⟩, mapM_cons_eq_ok.mpr ⟨z, zs, hz, hzs, rfl⟩⟩
    · rintro ⟨_, ⟨y, ys, hy, hys, rfl⟩, h⟩
      obtain ⟨z, zs, hz, hzs, rfl⟩ := mapM_cons_eq_ok.mp h
      exact ⟨z, zs, ⟨y, hy, hz⟩, ⟨ys, hys, hzs⟩, rfl⟩

theorem mapM_zip_eq_ok {h : β → γ → Except ε δ} :
    xs.mapM (fun x => do h (← f x) (← g x)) = .ok zs ↔
      ∃ as bs, xs.mapM f = .ok as ∧ xs.mapM g = .ok bs ∧ (as.zip bs).mapM (fun p => h p.1 p.2) = .ok zs := by
  induction xs generalizing zs with
  | nil => simp [pure, Except.pure]
  | cons x xs ind =>
    simp only [mapM_cons_eq_ok, bind_eq_ok, ind]
    constructor
    · rintro ⟨z, zs, ⟨a, ha, b, hb, hz⟩, ⟨as, bs, has, hbs, hzs⟩, rfl⟩
      exact ⟨a :: as, b :: bs, ⟨a, as, ha, has, rfl⟩, ⟨b, bs, hb, hbs, rfl⟩, mapM_cons_eq_ok.mpr ⟨z, zs, hz, hzs, rfl⟩⟩
    · rintro ⟨_, _, ⟨a, as, ha, has, rfl⟩, ⟨b, bs, hb, hbs, rfl⟩, h⟩
      obtain ⟨z, zs, hz, hzs, rfl⟩ := mapM_cons_eq_ok.mp h
      exact ⟨z, zs, ⟨a, ha, b, hb, hz⟩, ⟨as, bs, has, hbs, hzs⟩, rfl⟩

theorem mapM_replicate_eq_ok (hn : 0 < n) {x : α} :
    (List.replicate n x).mapM f = .ok ys ↔ ∃ y, f x = .ok y ∧ List.replicate n y = ys := by
  cases hx : f x with
  | error e =>
    have ⟨e', he'⟩ := mapM_eq_error (f := f) ⟨x, mem_replicate.mpr ⟨Nat.ne_of_gt hn, rfl⟩, e, hx⟩
    simp [he']
  | ok y =>
    rw [mapM_eq_ok (g := fun _ => y) fun x' hx' => by rw [(mem_replicate.mp hx').2, hx]]
    simp

theorem mapM_eq_ok_congr {f g : α → Except ε β} (h : ∀ x ∈ xs, ∀ y, f x = .ok y ↔ g x = .ok y)
    : xs.mapM f = .ok ys ↔ xs.mapM g = .ok ys := by
  induction xs generalizing ys with
  | nil => rfl
  | cons x xs ind =>
    have ⟨hx, hxs⟩ := forall_mem_cons.mp h
    simp only [mapM_cons_eq_ok, hx, ind hxs]

theorem forM_eq_ok {f : α → Except ε PUnit} : xs.forM f = .ok () ↔ ∀ x ∈ xs, f x = .ok () := by
  induction xs with
  | nil => simp [pure, Except.pure]
  | cons x xs ind =>
    rw [forall_mem_cons, ← ind, forM_eq_forM, forM_cons, bind_eq_ok]
    exact ⟨fun ⟨_, hx, hs⟩ => ⟨hx, hs⟩, fun ⟨hx, hs⟩ => ⟨_, hx, hs⟩⟩

end Except
