import Linkrs.Index.Generations
import Linkrs.Lib.Transition

namespace Linkrs

open Transition List

-- A manifest whose shards all lie in the directory of its own generation.
def IndexManifest.Own (m : IndexManifest) : Prop :=
  ∀ p ∈ m.shards, p.generation = m.generation

namespace GenerationRuntime

-- A generation that is younger than its parent, with directories of its own all the way down.
def Sound : GenerationRuntime → Prop
  | base manifest _ => manifest.Own
  | delta manifest _ parent => manifest.Own ∧ parent.generation < manifest.generation ∧ parent.Sound

theorem Sound.own {o : GenerationRuntime} (h : o.Sound) : o.manifest.Own := by
  cases o with
  | base => exact h
  | delta => exact h.1

theorem Sound.chainFrom {live : GenerationRuntime → Bool} {o : GenerationRuntime} (h : o.Sound) :
    ∀ o' ∈ o.chainFrom live, o'.Sound ∧ o'.generation ≤ o.generation := by
  induction o with
  | base =>
    intro o' ho'
    cases mem_singleton.mp ho'
    exact ⟨h, le_rfl⟩
  | delta manifest maxTs parent ind =>
    intro o' ho'
    obtain rfl | ho' := mem_cons.mp ho'
    · exact ⟨h, le_rfl⟩
    · split at ho'
      case isFalse => cases ho'
      case isTrue =>
        have ⟨hs, hle⟩ := ind h.2.2 o' ho'
        exact ⟨hs, hle.trans h.2.1.le⟩

end GenerationRuntime

-- What the other threads and the catalog look like to a thread.
structure IndexView where
  active : IndexGeneration
  published : Set IndexGeneration
  doomed : Set IndexGeneration

namespace IndexView

-- A generation that stays: nobody is about to delete it, and nobody is going to be, because it is pinned
-- or because it is not in the catalog any more.
def Kept (v : IndexView) (pins : List IndexGeneration) (o : GenerationRuntime) : Prop :=
  (o.generation ∈ pins ∨ o.generation ∉ v.published) ∧ o.generation ∉ v.doomed

-- A chain of generations that are kept, but for those still to be pinned.
structure Fences (v : IndexView) (pins : List IndexGeneration) (chain todo : List GenerationRuntime) : Prop where
  sound : ∀ o ∈ chain, o.Sound ∧ o.generation ≤ v.active
  rest : todo ⊆ chain
  kept : ∀ o ∈ chain, o ∈ todo ∨ v.Kept pins o

def Holds (v : IndexView) : IndexTask → Prop
  | .acquired handle => handle.generation ≤ v.active
  | .pinning _ chain todo pins => v.Fences pins chain todo
  | .seeking _ chain sought todo pins => v.Fences pins chain (sought :: todo) ∧ sought.generation < v.active
  | .cursor chain pins => v.Fences pins chain []
  | .prepared _ next | .confirmed next => next.Sound
  | .installed next => next.Own
  | .reclaiming active => active ≤ v.active
  | .deleting current shards rest =>
    (∀ m ∈ current :: rest, m.Own ∧ m.generation < v.active) ∧ shards ⊆ current.shards
  | _ => True

-- How the view of a thread may change while it does nothing: generations are published in order, and only
-- what is published and not pinned by the thread gets doomed.
structure Moves (v v' : IndexView) (handles : List IndexGeneration) : Prop where
  active : v.active ≤ v'.active
  published : ∀ g ∈ v'.published, g ∈ v.published ∨ v.active < g
  doomed : ∀ g ∈ v'.doomed, g ∈ v.doomed ∨ g ∈ v.published ∧ g ∉ handles

variable {v v' : IndexView} {handles pins : List IndexGeneration} {chain todo : List GenerationRuntime}

theorem Fences.mono (h : v.Fences pins chain todo) (hm : v.Moves v' handles) (hp : pins ⊆ handles) :
    v'.Fences pins chain todo where
  sound o ho := ⟨(h.sound o ho).1, (h.sound o ho).2.trans hm.active⟩
  rest := h.rest
  kept o ho := by
    refine (h.kept o ho).imp_right fun ⟨hkept, hdoomed⟩ => ⟨hkept.imp_right fun hnot hpub => ?_, fun hdoomed' => ?_⟩
    · obtain hpub | hlt := hm.published _ hpub
      · exact hnot hpub
      · exact absurd (h.sound o ho).2 (not_le.mpr hlt)
    · obtain hd | ⟨hpub, hfree⟩ := hm.doomed _ hdoomed'
      · exact hdoomed hd
      · exact hkept.elim (fun hpin => hfree (hp hpin)) fun hnot => hnot hpub

theorem Holds.mono (h : v.Holds task) (hm : v.Moves v' task.handles) : v'.Holds task := by
  cases task with
  | idle => trivial
  | acquired handle => exact h.trans hm.active
  | pinning handle chain todo pins => exact Fences.mono h hm (subset_cons_self ..)
  | seeking handle chain sought todo pins =>
    exact ⟨Fences.mono h.1 hm (subset_cons_self ..), h.2.trans_le hm.active⟩
  | cursor chain pins => exact Fences.mono h hm (List.Subset.refl _)
  | preparing current => trivial
  | discarding current g => trivial
  | prepared current next => exact h
  | confirmed next => exact h
  | installed next => exact h
  | retiring safeTs active => trivial
  | removing todo retired => trivial
  | reclaiming active => exact h.trans hm.active
  | deleting current shards rest => exact ⟨fun m hm' => ⟨(h.1 m hm').1, (h.1 m hm').2.trans_le hm.active⟩, h.2⟩

theorem holds_reclaimNext (h : ∀ m ∈ ms, m.Own ∧ m.generation < v.active) : v.Holds (.reclaimNext ms) := by
  cases ms with
  | nil => trivial
  | cons m rest => exact ⟨h, List.Subset.refl _⟩

end IndexView

@[simp]
theorem IndexTask.candidates_reclaimNext (ms : List IndexManifest) : (reclaimNext ms).candidates = ms := by
  cases ms <;> rfl

namespace IndexSystem

variable {s s' s₁ : IndexSystem} {t : ℕ} {task task' : IndexTask} {a : IndexAction}

def view (s : IndexSystem) : IndexView where
  active := s.catalog.active.generation
  published := { g | g ∈ s.catalog.generations }
  doomed := { g | ∃ task ∈ s.tasks, ∃ m ∈ task.candidates, m.generation = g }

structure Guarded (s : IndexSystem) : Prop where
  runtime : ∀ o ∈ s.runtime.generations, o.Sound
  catalog : ∀ m ∈ s.catalog.active :: s.catalog.retired, m.Own
  tasks : ∀ task ∈ s.tasks, s.view.Holds task

theorem guarded_new (threads : ℕ) : (new threads).Guarded where
  runtime := by simp [new, GenerationRuntime.Sound, IndexManifest.Own]
  catalog := by simp [new, IndexManifest.Own]
  tasks := by simp +contextual [new, IndexView.Holds]

theorem mem_become (h : task ∈ (s.become t task').tasks) : task ∈ s.tasks ∨ task = task' :=
  mem_or_eq_of_mem_set h

-- A thread that goes on without new candidates leaves the view of the others as it was, up to what happens
-- to the catalog.
theorem moves_become (ht : s.tasks[t]? = some task) (htasks : s₁.tasks = s.tasks)
    (hactive : s.catalog.active.generation ≤ s₁.catalog.active.generation)
    (hpublished : ∀ g ∈ s₁.catalog.generations, g ∈ s.catalog.generations ∨ s.catalog.active.generation < g)
    (hc : task'.candidates ⊆ task.candidates) (handles : List IndexGeneration) :
    s.view.Moves (s₁.become t task').view handles where
  active := hactive
  published := hpublished
  doomed := by
    rintro g ⟨task₁, htask₁, m, hm, rfl⟩
    left
    obtain hold | rfl := mem_become htask₁
    · exact ⟨task₁, htasks ▸ hold, m, hm, rfl⟩
    · exact ⟨task, mem_of_getElem? ht, m, hc hm, rfl⟩

theorem Guarded.become (h : s.Guarded) (ht : s.tasks[t]? = some task) (htasks : s₁.tasks = s.tasks)
    (hactive : s.catalog.active.generation ≤ s₁.catalog.active.generation)
    (hpublished : ∀ g ∈ s₁.catalog.generations, g ∈ s.catalog.generations ∨ s.catalog.active.generation < g)
    (hruntime : ∀ o ∈ s₁.runtime.generations, o.Sound)
    (hcatalog : ∀ m ∈ s₁.catalog.active :: s₁.catalog.retired, m.Own)
    (hc : task'.candidates ⊆ task.candidates) (hnew : s.view.Holds task') : (s₁.become t task').Guarded where
  runtime := hruntime
  catalog := hcatalog
  tasks := by
    have hm := moves_become ht htasks hactive hpublished hc
    intro task₁ htask₁
    obtain hold | rfl := mem_become htask₁
    · exact (h.tasks task₁ (htasks ▸ hold)).mono (hm _)
    · exact hnew.mono (hm _)

theorem Guarded.advance (h : s.Guarded) (ht : s.tasks[t]? = some task) (hc : task'.candidates ⊆ task.candidates)
    (hnew : s.view.Holds task') : (s.become t task').Guarded :=
  h.become ht rfl le_rfl (fun _ => .inl) h.runtime h.catalog hc hnew

theorem own_of_reclaimable (h : s.Guarded) {active : IndexGeneration} (ha : active ≤ s.catalog.active.generation)
    (hm : m ∈ s.reclaimable active) :
    (m.Own ∧ m.generation < s.catalog.active.generation) ∧ m.generation ∈ s.catalog.generations ∧
      ∀ task ∈ s.tasks, m.generation ∉ task.handles := by
  simp only [reclaimable, ManifestCatalog.retiredReclaimable, pinned, mem_filter, Bool.and_eq_true,
    Bool.not_eq_true', any_eq_false, decide_eq_true_eq] at hm
  obtain ⟨hm, hfree, hlt, -⟩ := hm
  exact ⟨⟨h.catalog m (mem_cons_of_mem _ hm), lt_of_lt_of_le hlt ha⟩, mem_cons_of_mem _ (mem_map_of_mem hm), hfree⟩

theorem Guarded.collect (h : s.Guarded) {active : IndexGeneration} (ha : active ≤ s.catalog.active.generation) :
    (s.become t (.reclaimNext (s.reclaimable active))).Guarded where
  runtime := h.runtime
  catalog := h.catalog
  tasks := by
    have hm : ∀ handles, (∀ m ∈ s.reclaimable active, m.generation ∉ handles) →
        s.view.Moves (s.become t (.reclaimNext (s.reclaimable active))).view handles := by
      refine fun handles hfree => ⟨le_rfl, fun _ => .inl, ?_⟩
      rintro g ⟨task₁, htask₁, m, hm, rfl⟩
      obtain hold | rfl := mem_become htask₁
      · exact .inl ⟨task₁, hold, m, hm, rfl⟩
      · rw [IndexTask.candidates_reclaimNext] at hm
        exact .inr ⟨(own_of_reclaimable h ha hm).2.1, hfree m hm⟩
    intro task₁ htask₁
    obtain hold | rfl := mem_become htask₁
    · exact (h.tasks task₁ hold).mono (hm _ fun m hm => (own_of_reclaimable h ha hm).2.2 task₁ hold)
    · exact IndexView.holds_reclaimNext fun m hm => (own_of_reclaimable h ha hm).1

-- The condition on a step: a new generation gets directories of its own, nobody looks for a retired
-- generation that a reclaiming thread has collected, and what a split discards was never published.
def inTurn (s : IndexSystem) : ℕ × IndexAction → Bool
  | (_, .build next _ _) => next.shards.all (·.generation = next.generation)
  | (t, .checkRetired) => match s.tasks[t]? with
    | some (.seeking _ _ sought _ _) => s.tasks.all fun task => task.candidates.all (·.generation ≠ sought.generation)
    | _ => true
  | (t, .discard) => match s.tasks[t]? with
    | some (.discarding _ g) => s.catalog.active.generation < g
    | _ => true
  | _ => true

theorem mem_of_newestUntil {r : IndexRuntime} {max : IndexGeneration}
    (h : r.newestUntil max = some o) : o ∈ r.generations ∧ o.generation ≤ max := by
  simpa using mem_of_find?_eq_some h

theorem mem_of_generation {r : IndexRuntime}
    (h : r.generation g = some o) : o ∈ r.generations ∧ o.generation = g :=
  ⟨mem_of_find?_eq_some h, by simpa using find?_some h⟩

section

variable {handle : IndexManifest} {chain todo : List GenerationRuntime} {o : GenerationRuntime}
variable {pins : List IndexGeneration}

theorem Guarded.fences_chainFrom (h : s.Guarded) {live : GenerationRuntime → Bool}
    (hn : s.runtime.newestUntil handle.generation = some o) (hh : handle.generation ≤ s.catalog.active.generation) :
    s.view.Fences [] (o.chainFrom live) (o.chainFrom live) := by
  have ⟨hmem, hle⟩ := mem_of_newestUntil hn
  refine ⟨fun o' ho' => ?_, List.Subset.refl _, fun _ => .inl⟩
  have ⟨hs, hle'⟩ := (h.runtime o hmem).chainFrom o' ho'
  exact ⟨hs, hle'.trans (hle.trans hh)⟩

theorem fences_pin {v : IndexView} (hf : v.Fences pins chain (o :: todo))
    (hp : pins ⊆ pins') (hk : v.Kept pins' o) : v.Fences pins' chain todo where
  sound := hf.sound
  rest := (cons_subset.mp hf.rest).2
  kept o' ho := by
    obtain htodo | hkept := hf.kept o' ho
    · obtain rfl | htodo := mem_cons.mp htodo
      · exact .inr hk
      · exact .inl htodo
    · exact .inr ⟨hkept.1.imp_left fun hpin => hp hpin, hkept.2⟩

theorem Guarded.lt_of_doomed (h : s.Guarded) (hg : g ∈ s.view.doomed) : g < s.catalog.active.generation := by
  obtain ⟨task, htask, m, hm, rfl⟩ := hg
  have hholds := h.tasks task htask
  cases task with
  | deleting current shards rest => exact (hholds.1 m hm).2
  | _ => cases hm

theorem Guarded.checkActive (h : s.Guarded) (ht : s.tasks[t]? = some (.pinning handle chain (o :: todo) pins))
    (ha : s.catalog.active.generation = o.generation) :
    (s.become t (.pinning handle chain todo (o.generation :: pins))).Guarded := by
  have hf : s.view.Fences pins chain (o :: todo) := h.tasks _ (mem_of_getElem? ht)
  refine h.advance ht (nil_subset _) (fences_pin hf (subset_cons_self ..) ⟨.inl mem_cons_self, ?_⟩)
  intro hdoomed
  exact absurd (h.lt_of_doomed hdoomed) (ha ▸ lt_irrefl _)

theorem Guarded.checkRetired (h : s.Guarded) (ht : s.tasks[t]? = some (.seeking handle chain o todo pins))
    (hdoomed : o.generation ∉ s.view.doomed) : (s.become t (.pinning handle chain todo
      (if s.catalog.retired.any (·.generation = o.generation) then o.generation :: pins else pins))).Guarded := by
  have ⟨hf, hlt⟩ : s.view.Fences pins chain (o :: todo) ∧ o.generation < s.view.active :=
    h.tasks _ (mem_of_getElem? ht)
  refine h.advance ht (nil_subset _) ?_
  split
  case isTrue => exact fences_pin hf (subset_cons_self ..) ⟨.inl mem_cons_self, hdoomed⟩
  case isFalse hr =>
    refine fences_pin hf (List.Subset.refl _) ⟨.inr fun hpub => ?_, hdoomed⟩
    obtain heq | hret := mem_cons.mp hpub
    · exact hlt.ne heq
    · obtain ⟨m, hm, heq⟩ := mem_map.mp hret
      exact hr (any_eq_true.mpr ⟨m, hm, by simpa using heq⟩)

end

theorem sound_new (h : s.Guarded) {current next : IndexManifest} {maxTs : Timestamp} {parented : Bool}
    (hlt : current.generation < next.generation) (hown : next.Own) : (GenerationRuntime.new next maxTs
      (if parented then s.runtime.generation current.generation else none)).Sound := by
  split
  case isFalse => exact hown
  case isTrue =>
    cases hg : s.runtime.generation current.generation with
    | none => exact hown
    | some parent =>
      have ⟨hmem, heq⟩ := mem_of_generation hg
      exact ⟨hown, heq ▸ hlt, h.runtime parent hmem⟩

theorem Guarded.install (h : s.Guarded) {next : GenerationRuntime} (ht : s.tasks[t]? = some (.confirmed next)) :
    ({ s with runtime := s.runtime.installGeneration next }.become t (.installed next.manifest)).Guarded := by
  have hs : next.Sound := h.tasks _ (mem_of_getElem? ht)
  refine h.become ht rfl le_rfl (fun _ => .inl) ?_ h.catalog (nil_subset _) hs.own
  intro o ho
  obtain rfl | ho := mem_cons.mp ho
  · exact hs
  · exact h.runtime o (mem_of_mem_filter ho)

theorem Guarded.publish (h : s.Guarded) {next : IndexManifest} {catalog : ManifestCatalog}
    (ht : s.tasks[t]? = some (.installed next)) (hp : s.catalog.publish next = some catalog) :
    ({ s with catalog }.become t .idle).Guarded := by
  have hown : next.Own := h.tasks _ (mem_of_getElem? ht)
  rw [ManifestCatalog.publish] at hp
  split at hp
  case isTrue => cases hp
  case isFalse hn =>
    cases hp
    refine h.become ht rfl (not_le.mp hn).le ?_ h.runtime ?_ (nil_subset _) trivial
    · intro g hg
      simp only [ManifestCatalog.generations, map_append, mem_cons, mem_append, map_cons,
        map_nil, not_mem_nil, or_false] at hg ⊢
      obtain rfl | hret | rfl := hg
      · exact .inr (not_le.mp hn)
      · exact .inl (.inr hret)
      · exact .inl (.inl rfl)
    · intro m hm
      obtain rfl | hm := mem_cons.mp hm
      · exact hown
      · obtain hret | hact := mem_append.mp hm
        · exact h.catalog m (mem_cons_of_mem _ hret)
        · exact h.catalog m (mem_singleton.mp hact ▸ mem_cons_self)

theorem Guarded.removeGeneration (h : s.Guarded) (ht : s.tasks[t]? = some (.removing (g :: todo) retired)) :
    ({ s with runtime := s.runtime.removeGeneration g }.become t (.removing todo retired')).Guarded :=
  h.become ht rfl le_rfl (fun _ => .inl) (fun o ho => h.runtime o (mem_of_mem_filter ho)) h.catalog
    (nil_subset _) trivial

theorem Guarded.forget (h : s.Guarded) {rest : List IndexManifest}
    (ht : s.tasks[t]? = some (.deleting m [] rest)) :
    ({ s with catalog := s.catalog.removeRetired m.generation }.become t (.reclaimNext rest)).Guarded := by
  have hholds : (∀ m' ∈ m :: rest, m'.Own ∧ m'.generation < s.view.active) ∧ [] ⊆ m.shards :=
    h.tasks _ (mem_of_getElem? ht)
  have hretired {m'} (hm' : m' ∈ (s.catalog.removeRetired m.generation).retired) : m' ∈ s.catalog.retired :=
    mem_of_mem_filter hm'
  refine h.become ht rfl le_rfl ?_ h.runtime ?_ ?_ (IndexView.holds_reclaimNext fun m' hm' =>
    hholds.1 m' (mem_cons_of_mem _ hm'))
  · intro g hg
    left
    obtain rfl | hg := mem_cons.mp hg
    · exact mem_cons_self
    · obtain ⟨m', hm', rfl⟩ := mem_map.mp hg
      exact mem_cons_of_mem _ (mem_map_of_mem (hretired hm'))
  · intro m' hm'
    obtain rfl | hm' := mem_cons.mp hm'
    · exact h.catalog _ mem_cons_self
    · exact h.catalog m' (mem_cons_of_mem _ (hretired hm'))
  · rw [IndexTask.candidates_reclaimNext]
    exact subset_cons_self ..

theorem Guarded.perform (h : s.Guarded) (ht : s.tasks[t]? = some task) (ho : s.inTurn (t, a))
    (hp : s.perform t task a = some s') : s'.Guarded := by
  have htask := h.tasks task (mem_of_getElem? ht)
  -- Most steps of a thread change nothing but its own state, and leave it without candidates.
  have hfree {task'} (hc : task'.candidates = []) (hnew : s.view.Holds task') : (s.become t task').Guarded :=
    h.advance ht (hc ▸ nil_subset _) hnew
  have hidle : (s.become t .idle).Guarded := hfree rfl trivial
  simp only [IndexSystem.perform] at hp
  split at hp
  case h_1 => cases hp; exact hfree rfl le_rfl
  case h_2 =>
    split at hp
    case h_1 => cases hp; exact hidle
    case h_2 hn => cases hp; exact hfree rfl (h.fences_chainFrom hn htask)
  case h_3 =>
    split at hp
    case isTrue ha => cases hp; exact h.checkActive ht ha
    case isFalse ha =>
      cases hp
      have hle := (htask.sound _ (htask.rest mem_cons_self)).2
      exact hfree rfl ⟨htask, lt_of_le_of_ne hle (Ne.symm ha)⟩
  case h_4 =>
    have hpin := h.checkRetired ht (by simpa [inTurn, ht, view] using ho)
    split at hp
    case isTrue hr => cases hp; simpa [hr] using hpin
    case isFalse hr => cases hp; simpa [hr] using hpin
  case h_5 => cases hp; exact hfree rfl htask
  case h_6 => cases hp; exact hidle
  case h_7 => cases hp; exact hfree rfl trivial
  case h_8 =>
    split at hp
    case h_1 => cases hp; exact hfree rfl trivial
    case h_2 => cases hp; exact hfree rfl trivial
  case h_9 => cases hp; exact h.become ht rfl le_rfl (fun _ => .inl) h.runtime h.catalog (nil_subset _) trivial
  case h_10 =>
    split at hp
    case isTrue hlt => cases hp; exact hfree rfl (sound_new h hlt (by simpa [inTurn, IndexManifest.Own] using ho))
    case isFalse => cases hp
  case h_11 =>
    split at hp
    case isTrue => cases hp; exact hfree rfl htask
    case isFalse => cases hp; exact hidle
  case h_12 => cases hp; exact hfree rfl htask
  case h_13 => cases hp; exact h.install ht
  case h_14 =>
    split at hp
    case h_1 => cases hp; exact hidle
    case h_2 hpub => cases hp; exact h.publish ht hpub
  case h_15 =>
    split at hp
    case isTrue => cases hp; exact hidle
    case isFalse => cases hp; exact hfree rfl trivial
  case h_16 => cases hp; exact hfree rfl trivial
  case h_17 => cases hp; exact h.removeGeneration ht
  case h_18 =>
    split at hp
    case isTrue => cases hp; exact hfree rfl le_rfl
    case isFalse => cases hp; exact hidle
  case h_19 => cases hp; exact hfree rfl le_rfl
  case h_20 => cases hp; exact h.collect htask
  case h_21 =>
    cases hp
    exact h.become ht rfl le_rfl (fun _ => .inl) h.runtime h.catalog (List.Subset.refl _)
      ⟨htask.1, (cons_subset.mp htask.2).2⟩
  case h_22 => cases hp; exact hidle
  case h_23 => cases hp; exact h.forget ht
  case h_24 | h_25 | h_26 => cases hp; exact ⟨h.runtime, h.catalog, h.tasks⟩
  case h_27 => cases hp

theorem Guarded.step (h : s.Guarded) (ho : s.inTurn e) (hs : s.step e = some s') : s'.Guarded := by
  have ⟨task, ht, hp⟩ := Option.bind_eq_some_iff.mp hs
  exact h.perform ht ho hp

-- A step that leaves the directories of all open cursors where they are.
def KeepsFiles (s s' : IndexSystem) : Prop :=
  ∀ chain pins, .cursor chain pins ∈ s.tasks → ∀ o ∈ chain, ∀ p ∈ o.manifest.shards, p ∈ s.dirs → p ∈ s'.dirs

-- Directories are deleted one by one by the threads that reclaim, and all of one generation by those that
-- split.
theorem dirs_perform (hp : s.perform t task a = some s') :
    s.dirs ⊆ s'.dirs ∨
      (∃ m p shards rest, task = .deleting m (p :: shards) rest ∧ s'.dirs = s.dirs.erase p) ∨
      ∃ current g, task = .discarding current g ∧ a = .discard ∧ s'.dirs = s.dirs.filter (·.generation ≠ g) := by
  simp only [IndexSystem.perform] at hp
  split at hp
  case h_9 => cases hp; exact .inr (.inr ⟨_, _, rfl, rfl, rfl⟩)
  case h_21 => cases hp; exact .inr (.inl ⟨_, _, _, _, rfl, rfl⟩)
  case h_24 => cases hp; exact .inl Finset.subset_union_left
  case h_27 => cases hp
  all_goals first
    | (cases hp; exact .inl (Finset.Subset.refl _))
    | (split at hp <;> cases hp <;> exact .inl (Finset.Subset.refl _))

theorem open_cursor_keeps_files {threads : ℕ} {es : List (ℕ × IndexAction)} {e : ℕ × IndexAction}
    (r : Run step (fun s e => s.inTurn e) (new threads) es s) (hs : s.step e = some s') (ht : s.inTurn e) :
    s.KeepsFiles s' := by
  have h : s.Guarded := r.invariant Guarded.step (guarded_new threads)
  have ⟨task, htask, hp⟩ := Option.bind_eq_some_iff.mp hs
  intro chain pins hcursor o ho p hp' hdir
  have hfences : s.view.Fences pins chain [] := h.tasks _ hcursor
  have ⟨hsound, hle⟩ := hfences.sound o ho
  have hgen : p.generation = o.generation := hsound.own p hp'
  obtain hsub | ⟨m, q, shards, rest, rfl, hdirs⟩ | ⟨current, g, rfl, ha, hdirs⟩ := dirs_perform hp
  · exact hsub hdir
  · rw [hdirs, Finset.mem_erase]
    refine ⟨?_, hdir⟩
    rintro rfl
    have hdeleting : (∀ m' ∈ m :: rest, m'.Own ∧ m'.generation < s.view.active) ∧ p :: shards ⊆ m.shards :=
      h.tasks _ (mem_of_getElem? htask)
    have hsame : m.generation = o.generation := by
      rw [← (hdeleting.1 m mem_cons_self).1 p (hdeleting.2 mem_cons_self), hgen]
    obtain hnil | hkept := hfences.kept o ho
    · cases hnil
    · exact hkept.2 ⟨_, mem_of_getElem? htask, m, mem_cons_self, hsame⟩
  · have hlt : s.catalog.active.generation < g := by
      obtain ⟨t, a⟩ := e
      subst ha
      simpa [inTurn, htask] using ht
    rw [hdirs, Finset.mem_filter]
    exact ⟨hdir, by simpa [hgen] using (hle.trans_lt hlt).ne⟩

section

-- Thread 0 publishes a second generation over the first, whose files are on disk.
def secondGeneration : List (ℕ × IndexAction) :=
  [(0, .flush ⟨1, [⟨1, 0⟩]⟩), (0, .prepare), (0, .build ⟨2, [⟨2, 0⟩]⟩ 7 true), (0, .confirm), (0, .install),
    (0, .publish)]

def opening : List (ℕ × IndexAction) :=
  [(1, .acquire), (1, .readChain []), (1, .checkActive), (1, .checkActive), (1, .checkRetired), (1, .finishOpen)]

def retirement : List (ℕ × IndexAction) :=
  [(0, .retire 5), (0, .listGenerations), (0, .removeGeneration), (0, .finishRetire), (0, .collect)]

-- Thread 0 goes on with a second generation that is built anew and a third one over it, all on disk.
def rebuilt : List (ℕ × IndexAction) :=
  [(0, .flush ⟨1, [⟨1, 0⟩]⟩), (0, .prepare), (0, .build ⟨2, [⟨2, 0⟩]⟩ 7 false), (0, .flush ⟨2, [⟨2, 0⟩]⟩), (0, .proceed),
    (0, .install), (0, .publish), (0, .saveBuildState (some (3, .building))), (0, .flush ⟨3, [⟨3, 0⟩]⟩), (0, .prepare),
    (0, .resolve), (0, .discard), (0, .build ⟨3, [⟨3, 0⟩]⟩ 8 true), (0, .flush ⟨3, [⟨3, 0⟩]⟩), (0, .confirm), (0, .install),
    (0, .publish)]

-- The files of the first generation are deleted while a cursor over the other two is open.
theorem open_cursor_keeps_files_retired :
    ∃ s s', Run step (fun s e => s.inTurn e) (new 2) (rebuilt ++ opening ++ retirement) s ∧
      s.step (0, .deleteDir) = some s' ∧ (s.tasks.map fun task => task.chain.map (·.generation)) = [[], [3, 2]] ∧
        s.dirs = {⟨1, 0⟩, ⟨2, 0⟩, ⟨3, 0⟩} ∧ s'.dirs = {⟨2, 0⟩, ⟨3, 0⟩} ∧ s.KeepsFiles s' := by
  have ⟨s, r, hs⟩ := Run.exists_of_checked step (new 2) (rebuilt ++ opening ++ retirement)
    (fun s => (s.step (0, .deleteDir)).any fun s' =>
      (s.tasks.map fun task => task.chain.map (·.generation)) = [[], [3, 2]] ∧ s.dirs = {⟨1, 0⟩, ⟨2, 0⟩, ⟨3, 0⟩} ∧ s'.dirs = {⟨2, 0⟩, ⟨3, 0⟩})
    (g := inTurn) (fun _ _ h => h) (by decide +kernel)
  have ⟨s', hs', hdirs⟩ := (Option.any_eq_true _ _).mp hs
  have ⟨hchains, hbefore, hafter⟩ := of_decide_eq_true hdirs
  exact ⟨s, s', r, hs', hchains, hbefore, hafter, open_cursor_keeps_files r hs' rfl⟩

-- The first generation is retired and collected between the reading of the chain and its pinning. The
-- cursor holds a handle on it, and its files are deleted.
theorem open_cursor_loses_files : ∃ s s' chain, FreeRun step (new 2)
        (secondGeneration ++ opening.take 2 ++ retirement ++ opening.drop 2) s ∧
      s.step (0, .deleteDir) = some s' ∧ .cursor chain [1, 2] ∈ s.tasks ∧ ¬s.KeepsFiles s' := by
  let first : GenerationRuntime := .base ⟨1, [⟨1, 0⟩]⟩ 0
  let second : GenerationRuntime := .delta ⟨2, [⟨2, 0⟩]⟩ 7 first
  have hcursor : .cursor [second, first] [1, 2] ∈
      [.deleting ⟨1, [⟨1, 0⟩]⟩ [⟨1, 0⟩] [], IndexTask.cursor [second, first] [1, 2]] :=
    mem_cons_of_mem _ mem_cons_self
  refine ⟨_, _, _, Run.free_iff.mpr rfl, rfl, hcursor, fun h => ?_⟩
  have := h _ _ hcursor first (mem_cons_of_mem _ mem_cons_self) ⟨1, 0⟩ mem_cons_self (by decide)
  revert this
  decide

end
end IndexSystem
end Linkrs
