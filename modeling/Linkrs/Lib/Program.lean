import Mathlib.Logic.Relation
import Linkrs.Lib.Transition

namespace Concurrent

open Transition (Run)

-- Programs that touch a shared state only through atomic actions. `R a` is the type of the answer
-- to the action `a`.
inductive Program {A : Type} (R : A → Type) (α : Type) where
  | done (result : α)
  | act (a : A) (next : R a → Program R α)

namespace Program

variable {A : Type} {R : A → Type} {α β : Type}

def bind : Program R α → (α → Program R β) → Program R β
  | done r, f => f r
  | act a next, f => act a fun r => (next r).bind f

instance : Monad (Program R) where
  pure := done
  bind := bind

def perform (a : A) : Program R (R a) :=
  act a done

-- Repeats a failing operation up to `n` times.
def retry (attempt : Program R Bool) : ℕ → Program R Bool
  | 0 => attempt
  | n + 1 => do
    if ← attempt then return true
    retry attempt n

end Program

-- The meaning of the atomic actions and the program behind each request. An action may depend on
-- the call that performs it and on what the environment contributes to the step.
structure Machine (θ Q E σ α : Type) {A : Type} (R : A → Type) where
  exec : θ → (a : A) → E → σ → R a × σ
  routine : Q → Program R α

-- A call that has been made, with the part of its program that is still to run.
structure Call (Q α : Type) {A : Type} (R : A → Type) where
  request : Q
  rest : Program R α

structure State (θ Q σ α : Type) {A : Type} (R : A → Type) where
  shared : σ
  calls : θ → Option (Call Q α R)

-- Every call has an identifier of its own, so a thread that makes several calls appears under
-- several identifiers.
inductive Event (θ Q E : Type) where
  | call (c : θ) (request : Q)
  | tick (c : θ) (env : E)

def Event.ticks {θ Q E : Type} (c : θ) (env : E) (n : ℕ) : List (Event θ Q E) :=
  .replicate n (.tick c env)

section

variable {θ Q E σ α A : Type} {R : A → Type}

namespace State

def init (s : σ) : State θ Q σ α R where
  shared := s
  calls := fun _ => none

def setCall [DecidableEq θ] (s : State θ Q σ α R) (c : θ) (x : Call Q α R) : State θ Q σ α R :=
  { s with calls := fun c' => if c' = c then some x else s.calls c' }

def Returned (s : State θ Q σ α R) (c : θ) (q : Q) (r : α) : Prop :=
  s.calls c = some ⟨q, .done r⟩

end State

namespace Machine

variable [DecidableEq θ] (M : Machine θ Q E σ α R)

def step (s : State θ Q σ α R) : Event θ Q E → Option (State θ Q σ α R)
  | .call c q =>
    match s.calls c with
    | none => some (s.setCall c ⟨q, M.routine q⟩)
    | some _ => none
  | .tick c e =>
    match s.calls c with
    | some ⟨q, .act a next⟩ =>
      let (r, shared) := M.exec c a e s.shared
      some ({ s with shared }.setCall c ⟨q, next r⟩)
    | _ => none

-- A condition on single actions, as a condition on the steps of a machine.
def Admits (cond : θ → A → E → σ → Prop) (s : State θ Q σ α R) : Event θ Q E → Prop
  | .call _ _ => True
  | .tick c e => ∀ q a next, s.calls c = some ⟨q, .act a next⟩ → cond c a e s.shared

-- The same for a condition that can be evaluated.
def admits (cond : θ → A → E → σ → Bool) (s : State θ Q σ α R) : Event θ Q E → Bool
  | .call _ _ => true
  | .tick c e =>
    match s.calls c with
    | some ⟨_, .act a _⟩ => cond c a e s.shared
    | _ => true

omit [DecidableEq θ] in
theorem admits_sound (cond : θ → A → E → σ → Prop) (b : θ → A → E → σ → Bool)
    (h : ∀ c a e s, b c a e s → cond c a e s) (s : State θ Q σ α R) (i : Event θ Q E)
    (hi : admits b s i) : Admits cond s i := by
  cases i with
  | call => trivial
  | tick c e =>
    intro q a next hc
    simp only [admits, hc] at hi
    exact h c a e s.shared hi

variable {M}

theorem step_call (h : M.step s (.call c q) = some s') : s.calls c = none ∧ s' = s.setCall c ⟨q, M.routine q⟩ := by
  simp only [step] at h
  split at h
  case h_1 hn => exact ⟨hn, (Option.some.inj h).symm⟩
  case h_2 => contradiction

theorem step_tick (h : M.step s (.tick c e) = some s') : ∃ q a next, s.calls c = some ⟨q, .act a next⟩ ∧
      s' = { s with shared := (M.exec c a e s.shared).2 }.setCall c
        ⟨q, next (M.exec c a e s.shared).1⟩ := by
  simp only [step] at h
  split at h
  case h_1 q a next hc => exact ⟨q, a, next, hc, (Option.some.inj h).symm⟩
  case h_2 => contradiction

end Machine

-- The rules by which calls may act on the shared state, an invariant that the rules keep, what is
-- known about a call that has not been made yet, and what is known about the state once a request
-- has been answered.
structure Protocol (M : Machine θ Q E σ α R) where
  inv : σ → Prop
  rule : θ → A → σ → Prop
  fresh : θ → σ → Prop
  post : Q → α → σ → Prop
  inv_exec : ∀ {c a e s}, inv s → rule c a s → inv (M.exec c a e s).2
  fresh_exec : ∀ {c c' a e s}, c' ≠ c → inv s → rule c' a s → fresh c s → fresh c (M.exec c' a e s).2

namespace Protocol

variable {M : Machine θ Q E σ α R} (P : Protocol M) {β γ : Type}

-- What the calls other than `c` can do by the rules.
def Others (c : θ) : σ → σ → Prop :=
  Relation.ReflTransGen fun s s' =>
    ∃ c' a e, c' ≠ c ∧ P.inv s ∧ P.rule c' a s ∧ s' = (M.exec c' a e s).2

-- An assertion of the call `c` that no other call can invalidate.
def Stable (c : θ) (p : σ → Prop) : Prop :=
  ∀ ⦃c' a e s⦄, c' ≠ c → P.inv s → P.rule c' a s → p s → p (M.exec c' a e s).2

-- The program takes only steps that the rules allow, whatever the other calls do in between, and
-- establishes `post`.
def Follows (c : θ) (post : β → σ → Prop) : Program R β → σ → Prop
  | .done r, s => ∀ s', P.Others c s s' → P.inv s' → post r s'
  | .act a next, s => ∀ s', P.Others c s s' → P.inv s' →
    P.rule c a s' ∧ ∀ e, Follows c post (next (M.exec c a e s').1) (M.exec c a e s').2

variable {P} {c : θ} {s s' : σ}

theorem Stable.others (hs : P.Stable c p) (ho : P.Others c s s') (h : p s) : p s' := by
  induction ho with
  | refl => exact h
  | tail _ step hind =>
    obtain ⟨_, _, _, hc, hi, hr, rfl⟩ := step
    exact hs hc hi hr hind

theorem Stable.and (hp : P.Stable c p) (hq : P.Stable c q) :
    P.Stable c fun s => p s ∧ q s :=
  fun _ _ _ _ hc hi hr h => ⟨hp hc hi hr h.1, hq hc hi hr h.2⟩

theorem Stable.or (hp : P.Stable c p) (hq : P.Stable c q) :
    P.Stable c fun s => p s ∨ q s :=
  fun _ _ _ _ hc hi hr h => h.imp (hp hc hi hr) (hq hc hi hr)

theorem Stable.imp {p : Prop} (hq : P.Stable c q) : P.Stable c fun s => p → q s :=
  fun _ _ _ _ hc hi hr h hp => hq hc hi hr (h hp)

theorem stable_const : P.Stable c fun _ => p :=
  fun _ _ _ _ _ _ _ h => h

namespace Follows

variable {post : β → σ → Prop} {p : Program R β}

theorem others (h : P.Follows c post p s) (ho : P.Others c s s') : P.Follows c post p s' := by
  cases p with
  | done => exact fun s'' ho' => h s'' (ho.trans ho')
  | act => exact fun s'' ho' => h s'' (ho.trans ho')

theorem done (hs : P.Stable c q) (hq : q s) (h : ∀ {s}, P.inv s → q s → post r s) : P.Follows c post (.done r) s :=
  fun _ ho hi => h hi (hs.others ho hq)

theorem act (hs : P.Stable c q) (hq : q s) (h : ∀ {s}, P.inv s → q s → P.rule c a s ∧
      ∀ e, P.Follows c post (next (M.exec c a e s).1) (M.exec c a e s).2) : P.Follows c post (.act a next) s :=
  fun _ ho hi => h hi (hs.others ho hq)

-- Whatever the others do first, they may do before the program starts.
theorem intro (h : ∀ s', P.Others c s s' → P.inv s' → P.Follows c post p s') : P.Follows c post p s := by
  cases p with
  | done => exact fun s' ho hi => h s' ho hi s' .refl hi
  | act => exact fun s' ho hi => h s' ho hi s' .refl hi

theorem bind {post : γ → σ → Prop}
    (h : P.Follows c (fun r s => P.Follows c post (f r) s) p s) :
    P.Follows c post (p.bind f) s := by
  induction p generalizing s with
  | done r => exact intro h
  | act a next hind =>
    intro s' ho hi
    have ⟨hr, hn⟩ := h s' ho hi
    exact ⟨hr, fun e => hind _ (hn e)⟩

theorem mono (h : P.Follows c post p s) (hp : ∀ r s, P.inv s → post r s → post' r s) : P.Follows c post' p s := by
  induction p generalizing s with
  | done r => exact fun s' ho hi => hp r s' hi (h s' ho hi)
  | act a next hind =>
    intro s' ho hi
    have ⟨hr, hn⟩ := h s' ho hi
    exact ⟨hr, fun e => hind _ (hn e)⟩

theorem map {f : β → γ} (h : P.Follows c post p s)
    (hp : ∀ r s, post r s → post' (f r) s) : P.Follows c post' (p.bind fun r => .done (f r)) s := by
  induction p generalizing s with
  | done r => exact fun s' ho hi => hp r s' (h s' ho hi)
  | act a next hind =>
    intro s' ho hi
    have ⟨hr, hn⟩ := h s' ho hi
    exact ⟨hr, fun e => hind _ (hn e)⟩

end Follows

-- The program follows the rules whenever it is started in a state with `pre`.
def Triple (P : Protocol M) (c : θ) (pre : σ → Prop) (prog : Program R β) (post : β → σ → Prop) : Prop :=
  ∀ s, P.inv s → pre s → P.Follows c post prog s

namespace Triple

variable {pre pre' : σ → Prop} {prog : Program R β} {post : β → σ → Prop}

theorem pure (hs : P.Stable c pre) (h : ∀ s, P.inv s → pre s → post r s) : P.Triple c pre (Pure.pure r) post :=
  fun _ _ hp => .done hs hp fun hi hp => h _ hi hp

theorem trivial {r : β} : P.Triple c pre (Pure.pure r) fun _ _ => True :=
  fun _ _ _ _ _ _ => True.intro

theorem act {f : R a → Program R β} {q : R a → σ → Prop} (hs : P.Stable c pre)
    (hr : ∀ s, P.inv s → pre s → P.rule c a s)
    (hm : ∀ s e, P.inv s → pre s → q (M.exec c a e s).1 (M.exec c a e s).2)
    (hf : ∀ r, P.Triple c (q r) (f r) post) : P.Triple c pre (Program.perform a >>= f) post :=
  fun _ _ hp => .act hs hp fun hi hp =>
    ⟨hr _ hi hp, fun e => hf _ _ (P.inv_exec hi (hr _ hi hp)) (hm _ e hi hp)⟩

theorem perform {post : R a → σ → Prop} (hs : P.Stable c pre)
    (hp : ∀ r, P.Stable c (post r)) (hr : ∀ s, P.inv s → pre s → P.rule c a s)
    (hm : ∀ s e, P.inv s → pre s → post (M.exec c a e s).1 (M.exec c a e s).2) :
    P.Triple c pre (Program.perform a) post :=
  act hs hr hm fun r => pure (hp r) fun _ _ h => h

theorem seq {f : β → Program R γ} (h : P.Triple c pre prog post)
    (hf : ∀ r, P.Triple c (post r) (f r) post') : P.Triple c pre (prog >>= f) post' :=
  fun s hi hp => ((h s hi hp).mono fun r s hi hr => hf r s hi hr).bind

theorem map {f : β → γ} (h : P.Triple c pre prog post)
    (hp : ∀ r s, post r s → post' (f r) s) : P.Triple c pre (f <$> prog) post' :=
  fun s hi hs => (h s hi hs).map hp

theorem ite [Decidable b] (ht : b → P.Triple c pre prog post) (hf : ¬b → P.Triple c pre prog' post) :
    P.Triple c pre (if b then prog else prog') post := by
  split
  case isTrue h => exact ht h
  case isFalse h => exact hf h

theorem exists_pre {ι : Type} {q : ι → σ → Prop} (h : ∀ i, P.Triple c (q i) prog post) :
    P.Triple c (fun s => ∃ i, q i s) prog post :=
  fun s hi ⟨i, hq⟩ => h i s hi hq

theorem pure_pre (h : φ → P.Triple c pre prog post) :
    P.Triple c (fun s => pre s ∧ φ) prog post :=
  fun s hi hp => h hp.2 s hi hp.1

theorem weaken (hp : ∀ s, P.inv s → pre s → pre' s) (h : P.Triple c pre' prog post) : P.Triple c pre prog post :=
  fun s hi hs => h s hi (hp s hi hs)

theorem mono (h : P.Triple c pre prog post)
    (hp : ∀ r s, P.inv s → post r s → post' r s) : P.Triple c pre prog post' :=
  fun s hi hs => (h s hi hs).mono hp

-- A retry starts where the failed attempt before it has ended.
theorem retry (hs : P.Stable c (q true))
    (h : P.Triple c (q false) attempt q) (n : ℕ) : P.Triple c (q false) (attempt.retry n) q := by
  induction n with
  | zero => exact h
  | succ n hind =>
    refine seq h fun r => ?_
    cases r with
    | true => exact pure hs fun _ _ h => h
    | false => exact hind

end Triple

-- Every call that is under way follows the rules.
structure Guided (P : Protocol M) (s : State θ Q σ α R) : Prop where
  fresh : ∀ c, s.calls c = none → P.fresh c s.shared
  follows : ∀ c q p, s.calls c = some ⟨q, p⟩ → P.Follows c (P.post q) p s.shared

variable [DecidableEq θ] {es : List (Event θ Q E)} {t : State θ Q σ α R}

theorem Guided.call {s s' : State θ Q σ α R} (h : P.Guided s) (hi : P.inv s.shared)
    (hp : ∀ c q, P.Triple c (P.fresh c) (M.routine q) (P.post q))
    (hs : M.step s (.call c q) = some s') : P.Guided s' := by
  have ⟨hn, hs⟩ := Machine.step_call hs
  subst hs
  constructor
  case fresh =>
    intro c' hc
    simp only [State.setCall] at hc
    split at hc
    case isTrue => contradiction
    case isFalse => exact h.fresh c' hc
  case follows =>
    intro c' q' p hc
    simp only [State.setCall] at hc
    split at hc
    case isTrue he => cases hc; subst he; exact hp _ _ _ hi (h.fresh _ hn)
    case isFalse => exact h.follows _ _ _ hc

theorem Guided.tick {s : State θ Q σ α R} {next : R a → Program R α}
    (h : P.Guided s) (hi : P.inv s.shared) (hr : P.rule c a s.shared)
    (hn : P.Follows c (P.post q) (next (M.exec c a e s.shared).1) (M.exec c a e s.shared).2) :
    P.Guided ({ s with shared := (M.exec c a e s.shared).2 }.setCall c
      ⟨q, next (M.exec c a e s.shared).1⟩) := by
  constructor
  case fresh =>
    intro c' hc
    simp only [State.setCall] at hc
    split at hc
    case isTrue => contradiction
    case isFalse he => exact P.fresh_exec (Ne.symm he) hi hr (h.fresh c' hc)
  case follows =>
    intro c' q' p hc
    simp only [State.setCall] at hc
    split at hc
    case isTrue he => cases hc; subst he; exact hn
    case isFalse he =>
      exact (h.follows _ _ _ hc).others <| .single ⟨c, a, e, Ne.symm he, hi, hr, rfl⟩

-- To show that a property of the shared state holds throughout every run it is enough to look at
-- single actions taken by the rules.
theorem invariant {cond : θ → A → E → σ → Prop} {I : σ → Prop}
    (hp : ∀ c q, P.Triple c (P.fresh c) (M.routine q) (P.post q))
    (hI : ∀ {c a e s}, P.inv s → I s → P.rule c a s → cond c a e s → I (M.exec c a e s).2)
    (r : Run M.step (Machine.Admits cond) (.init s) es t) (hs : P.inv s) (hf : ∀ c, P.fresh c s) (hi : I s) :
    P.inv t.shared ∧ I t.shared ∧ ∀ c q r, t.Returned c q r → P.post q r t.shared := by
  have h : P.inv t.shared ∧ I t.shared ∧ P.Guided t := by
    refine r.invariant (P := fun t => P.inv t.shared ∧ I t.shared ∧ P.Guided t) ?_
      ⟨hs, hi, fun c _ => hf c, nofun⟩
    intro t i t' ⟨hv, hi, hg⟩ ha he
    cases i with
    | call c q =>
      have hg' := hg.call hv hp he
      cases (Machine.step_call he).2
      exact ⟨hv, hi, hg'⟩
    | tick c e =>
      obtain ⟨q, a, next, hc, rfl⟩ := Machine.step_tick he
      have ⟨hr, hn⟩ := hg.follows c q _ hc t.shared .refl hv
      exact ⟨P.inv_exec hv hr, hI hv hi hr (ha q a next hc), hg.tick hv hr (hn e)⟩
  exact ⟨h.1, h.2.1, fun c q r hr => h.2.2.follows c q _ hr _ .refl h.1⟩

end Protocol

end
end Concurrent
