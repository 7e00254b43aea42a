import Mathlib.Algebra.BigOperators.Group.List.Basic
import Linkrs.Edge.CsrLayout

namespace Linkrs

open List OverflowChunk

def liveKeys (es : List Nbr) : List EdgeKey :=
  (es.filter (·.isLive)).map Nbr.key

theorem mem_liveKeys {key : EdgeKey} : key ∈ liveKeys es ↔ ∃ n ∈ es, n.isLive ∧ n.key = key := by
  simp [liveKeys, and_assoc]

theorem liveKeys_perm (h : es.Perm es') : (liveKeys es).Perm (liveKeys es') :=
  (h.filter _).map _

theorem mem_liveKeys_append {key : EdgeKey} :
    key ∈ liveKeys (es ++ es') ↔ key ∈ liveKeys es ∨ key ∈ liveKeys es' := by
  simp [liveKeys]

theorem liveKeys_of_dead (h : ∀ n ∈ es, n.isLive = false) : liveKeys es = [] := by
  rw [liveKeys, filter_eq_nil_iff.mpr (by simpa using h), map_nil]

theorem Nbr.isLive_of_isReclaimable {n : Nbr} (h : n.isReclaimable cutoff) : n.isLive = false := by
  simp [isReclaimable] at h
  exact h.1

namespace MutableCsr

open Blocks

variable {c c' c'' : MutableCsr} {v w : ℕ}

-- The live set of a row, if it has one, names the keys that are in use.
def Indexed (es : List Nbr) (set : Option LiveKeySet) : Prop :=
  ∀ s ∈ set, s.Ordered ∧ ∀ key, key ∈ s.keys ↔ key ∈ liveKeys es

-- It does so for what the row holds now.
def Tracks (c : MutableCsr) (v : ℕ) : Prop :=
  Indexed (c.entries v) (c.row v).liveSet

theorem Tracks.indexed (h : c.Tracks v) (hs : (c'.row v).liveSet = (c.row v).liveSet) :
    Indexed (c.entries v) (c'.row v).liveSet := by
  rw [hs]
  exact h

theorem Indexed.none : Indexed es none :=
  nofun

theorem Indexed.congr {set : Option LiveKeySet} (h : Indexed es set)
    (he : ∀ key, key ∈ liveKeys es' ↔ key ∈ liveKeys es) : Indexed es' set :=
  fun s hs => ⟨(h s hs).1, fun key => ((h s hs).2 key).trans (he key).symm⟩

-- Nothing but the bookkeeping of `v` differs.
structure Keeps (v : ℕ) (c c' : MutableCsr) : Prop extends Local v c c' where
  primary_self : c'.primary v = c.primary v
  chunks_self : (c'.row v).chunks = (c.row v).chunks

namespace Keeps

theorem refl (h : c.Laid) : Keeps v c c :=
  ⟨.refl h, rfl, rfl⟩

theorem trans (h : Keeps v c c') (h' : Keeps v c' c'') : Keeps v c c'' :=
  ⟨h.toLocal.trans h'.toLocal, h'.primary_self.trans h.primary_self, h'.chunks_self.trans h.chunks_self⟩

theorem entries_self (h : Keeps v c c') : c'.entries v = c.entries v := by
  rw [entries, entries, overflow, overflow, h.primary_self, h.chunks_self]

theorem tracks (h : Keeps v c c') (hs : (c'.row v).liveSet = (c.row v).liveSet) (hi : c.Tracks v) :
    c'.Tracks v := by
  rw [Tracks, h.entries_self]
  exact hi.indexed hs

theorem modifyRow (h : c.Laid) (hf : ∀ r, { f r with
      liveSet := r.liveSet, reuseHint := r.reuseHint, liveCount := r.liveCount } = r) :
    Keeps v c (c.modifyRow v f) :=
  have ho r := congrArg Row.adjOffset (hf r)
  have hd r := congrArg Row.degree (hf r)
  have hc r := congrArg Row.primaryCapacity (hf r)
  have hk r := congrArg Row.chunks (hf r)
  ⟨.modifyRow h ho hd hc, primary_modifyRow ho hd, field_modifyRow _ hk⟩

theorem countLive (h : c.Laid) (n : ℕ) : Keeps v c (c.countLive v n) :=
  modifyRow h fun _ => rfl

theorem uncountLive (h : c.Laid) (n : ℕ) : Keeps v c (c.uncountLive v n) :=
  modifyRow h fun _ => rfl

theorem notePrimaryTombstone (h : c.Laid) (slot : ℕ) : Keeps v c (c.notePrimaryTombstone v slot) :=
  modifyRow h fun _ => rfl

theorem invalidateReuseHint (h : c.Laid) : Keeps v c (c.invalidateReuseHint v) :=
  modifyRow h fun _ => rfl

theorem noteTombstone (h : c.Laid) (position : EdgePosition) : Keeps v c (c.noteTombstone v position) := by
  cases position with
  | primary slot => exact notePrimaryTombstone h slot
  | overflow _ _ => exact refl h

theorem forgetTombstone (h : c.Laid) (position : EdgePosition) : Keeps v c (c.forgetTombstone v position) := by
  cases position with
  | primary slot => exact invalidateReuseHint h
  | overflow _ _ => exact refl h

theorem rebuild (h : c.Laid) : Keeps v c (c.rebuildLiveSetForVertex v) :=
  modifyRow h fun _ => rfl

theorem noteEdges (h : c.Laid) (n : ℕ) : Keeps v c (c.noteEdges n) :=
  ⟨⟨⟨h.degree_le, h.fits, h.apart⟩, rfl, fun _ _ => rfl, fun _ _ => rfl, fun _ _ => rfl, rfl⟩, rfl, rfl⟩

theorem dropEdges (h : c.Laid) (n : ℕ) : Keeps v c (c.dropEdges n) :=
  ⟨⟨⟨h.degree_le, h.fits, h.apart⟩, rfl, fun _ _ => rfl, fun _ _ => rfl, fun _ _ => rfl, rfl⟩, rfl, rfl⟩

theorem trackLiveInsert (h : c.Laid) (key : EdgeKey) (position : EdgePosition) :
    Keeps v c (c.trackLiveInsert v key position) := by
  rw [MutableCsr.trackLiveInsert]
  split
  case h_1 => exact modifyRow h fun _ => rfl
  case h_2 =>
    split
    case isTrue => exact rebuild h
    case isFalse => exact refl h

theorem trackLiveRemove (h : c.Laid) (key : EdgeKey) : Keeps v c (c.trackLiveRemove v key) := by
  rw [MutableCsr.trackLiveRemove]
  split
  case h_1 => exact refl h
  case h_2 => exact modifyRow h fun _ => rfl

theorem rebuildIfIndexed (h : c.Laid) : Keeps v c (c.rebuildIfIndexed v) := by
  rw [MutableCsr.rebuildIfIndexed]
  split
  case isTrue => exact rebuild h
  case isFalse => exact refl h

end Keeps

section

variable (g : List OverflowChunk → List OverflowChunk)

theorem Local.modifyChunks (h : c.Laid) : Local v c (c.modifyChunks v g) :=
  .modifyRow h (fun _ => rfl) (fun _ => rfl) fun _ => rfl

theorem entries_modifyChunks (hv : v < c.vertexCapacity) : (c.modifyChunks v g).entries v =
      c.primary v ++ (g (c.row v).chunks).flatMap OverflowChunk.entries := by
  have hp : (c.modifyChunks v g).primary v = c.primary v :=
    primary_modifyRow (fun _ => rfl) fun _ => rfl
  rw [entries, overflow, hp, modifyChunks, row_modifyRow_self hv]

@[simp]
theorem liveSet_modifyChunks : ((c.modifyChunks v g).row w).liveSet = (c.row w).liveSet :=
  field_modifyRow Row.liveSet fun _ => rfl

end

theorem entries_setPrimary (h : c.Laid) (hv : v < c.vertexCapacity)
    (hl : xs.length ≤ (c.row v).primaryCapacity) : (c.setPrimary v xs).entries v = xs ++ c.overflow v := by
  have hc : ((c.setPrimary v xs).row v).chunks = (c.row v).chunks :=
    field_setPrimary Row.chunks fun _ _ => rfl
  rw [entries, overflow, hc, primary_setPrimary_self h hv hl, overflow]

section

theorem map_snd_mapIdx {α β : Type} (g : ℕ → α) (xs : List β) :
    (xs.mapIdx fun i x => (g i, x)).map Prod.snd = xs := by
  apply ext_getElem?
  simp [Function.comp_def]

theorem map_snd_positioned : (c.positioned v).map Prod.snd = c.entries v := by
  have hm : ((c.row v).chunks.mapIdx fun chunk ch => ch.entries.mapIdx fun slot n =>
      (EdgePosition.overflow chunk slot, n)).map (List.map Prod.snd) =
        (c.row v).chunks.map OverflowChunk.entries := by
    apply ext_getElem?
    simp [Function.comp_def, map_snd_mapIdx]
  rw [positioned, map_append, map_snd_mapIdx, map_flatten, hm, ← flatMap_def, entries, overflow]

variable {position : EdgePosition}

theorem mem_positioned : (position, n) ∈ c.positioned v ↔ c.slotAtPosition v position = some n := by
  rw [positioned, mem_append]
  cases position with
  | primary slot =>
    simp [slotAtPosition, mem_mapIdx, List.getElem?_eq_some_iff]
  | overflow chunk slot =>
    simp [slotAtPosition, mem_mapIdx, List.getElem?_eq_some_iff, Option.bind_eq_some_iff]

theorem mem_entries_of_slot (h : c.slotAtPosition v position = some n) : n ∈ c.entries v :=
  map_snd_positioned ▸ mem_map_of_mem (mem_positioned.mpr h)

theorem slotAtPosition_lt (h : c.slotAtPosition v position = some n) : v < c.vertexCapacity := by
  by_contra hv
  rw [not_lt] at hv
  cases position <;> simp [slotAtPosition, primary_of_le hv, row_of_le hv, Row.empty] at h

theorem flatMap_modify {α β : Type} (f : α → α) (g : α → List β) {xs : List α} {x : α}
    (h : xs[i]? = some x) : ∃ l₁ l₂, xs.flatMap g = l₁ ++ g x ++ l₂ ∧
      (xs.modify i f).flatMap g = l₁ ++ g (f x) ++ l₂ := by
  obtain ⟨hi, rfl⟩ := List.getElem?_eq_some_iff.mp h
  refine ⟨(xs.take i).flatMap g, (xs.drop (i + 1)).flatMap g, ?_, ?_⟩
  · conv_lhs => rw [← take_append_drop i xs, drop_eq_getElem_cons hi]
    simp only [flatMap_append, flatMap_cons, append_assoc]
  · rw [modify_eq_take_cons_drop hi]
    simp only [flatMap_append, flatMap_cons, append_assoc]

theorem modify_split {α : Type} (f : α → α) {xs : List α} {x : α} (h : xs[i]? = some x) :
    ∃ l₁ l₂, xs = l₁ ++ x :: l₂ ∧ xs.modify i f = l₁ ++ f x :: l₂ := by
  have ⟨l₁, l₂, h₁, h₂⟩ := flatMap_modify f (fun x => [x]) h
  simp only [flatMap_singleton', append_assoc, singleton_append] at h₁ h₂
  exact ⟨l₁, l₂, h₁, h₂⟩

variable {f : Nbr → Nbr}

theorem Local.modifyAt (h : c.Laid) (position : EdgePosition) : Local v c (c.modifyAt v f position) := by
  cases position with
  | primary slot =>
    apply Local.setPrimary h
    rw [length_modify, h.length_primary]
    exact h.degree_le v
  | overflow _ _ => exact .modifyChunks _ h

@[simp]
theorem liveSet_modifyAt (position : EdgePosition) :
    ((c.modifyAt v f position).row w).liveSet = (c.row w).liveSet := by
  cases position with
  | primary slot => exact field_setPrimary Row.liveSet fun _ _ => rfl
  | overflow _ _ => exact liveSet_modifyChunks _

@[simp]
theorem edgeCount_modifyAt (position : EdgePosition) : (c.modifyAt v f position).edgeCount = c.edgeCount := by
  cases position <;> rfl

theorem entries_modifyAt (h : c.Laid)
    (hn : c.slotAtPosition v position = some n) : ∃ l₁ l₂, c.entries v = l₁ ++ n :: l₂ ∧
      (c.modifyAt v f position).entries v = l₁ ++ f n :: l₂ := by
  have hv := slotAtPosition_lt hn
  cases position with
  | primary slot =>
    obtain ⟨l₁, l₂, he, hm⟩ := modify_split f hn
    have hl : ((c.primary v).modify slot f).length ≤ (c.row v).primaryCapacity := by
      rw [length_modify, h.length_primary]
      exact h.degree_le v
    refine ⟨l₁, l₂ ++ c.overflow v, by simp [entries, he], ?_⟩
    rw [modifyAt, entries_setPrimary h hv hl, hm]
    simp
  | overflow chunk slot =>
    obtain ⟨ch, hch, hn⟩ := Option.bind_eq_some_iff.mp hn
    obtain ⟨k₁, k₂, he, hm⟩ := modify_split f hn
    obtain ⟨l₁, l₂, he', hm'⟩ := flatMap_modify
      (fun ch => { ch with entries := ch.entries.modify slot f }) OverflowChunk.entries hch
    refine ⟨c.primary v ++ l₁ ++ k₁, k₂ ++ l₂, ?_, ?_⟩
    · rw [entries, overflow, he', he]
      simp
    · rw [modifyAt, entries_modifyChunks (List.modify · chunk _) hv, hm', hm]
      simp

end

section

@[simp]
theorem liveSet_countLive {n : ℕ} : ((c.countLive v n).row w).liveSet = (c.row w).liveSet :=
  field_modifyRow Row.liveSet fun _ => rfl

@[simp]
theorem liveSet_uncountLive {n : ℕ} : ((c.uncountLive v n).row w).liveSet = (c.row w).liveSet :=
  field_modifyRow Row.liveSet fun _ => rfl

@[simp]
theorem liveSet_notePrimaryTombstone {slot : ℕ} :
    ((c.notePrimaryTombstone v slot).row w).liveSet = (c.row w).liveSet :=
  field_modifyRow Row.liveSet fun _ => rfl

@[simp]
theorem liveSet_invalidateReuseHint : ((c.invalidateReuseHint v).row w).liveSet = (c.row w).liveSet :=
  field_modifyRow Row.liveSet fun _ => rfl

@[simp]
theorem liveSet_noteTombstone {position : EdgePosition} :
    ((c.noteTombstone v position).row w).liveSet = (c.row w).liveSet := by
  cases position with
  | primary slot => exact liveSet_notePrimaryTombstone
  | overflow _ _ => rfl

@[simp]
theorem liveSet_forgetTombstone {position : EdgePosition} :
    ((c.forgetTombstone v position).row w).liveSet = (c.row w).liveSet := by
  cases position with
  | primary slot => exact liveSet_invalidateReuseHint
  | overflow _ _ => rfl

@[simp]
theorem liveSet_setPrimary {xs : List Nbr} : ((c.setPrimary v xs).row w).liveSet = (c.row w).liveSet :=
  field_setPrimary Row.liveSet fun _ _ => rfl

@[simp]
theorem liveSet_noteEdges {n : ℕ} : ((c.noteEdges n).row w).liveSet = (c.row w).liveSet :=
  rfl

@[simp]
theorem liveSet_dropEdges {n : ℕ} : ((c.dropEdges n).row w).liveSet = (c.row w).liveSet :=
  rfl

theorem indexed_rebuild : Indexed (c.entries v) ((c.rebuildLiveSetForVertex v).row v).liveSet := by
  by_cases hv : v < c.vertexCapacity
  case neg =>
    rw [rebuildLiveSetForVertex, modifyRow_of_le (not_lt.mp hv), row_of_le (not_lt.mp hv)]
    exact .none
  case pos =>
    rw [rebuildLiveSetForVertex, row_modifyRow_self hv]
    split
    case isTrue => exact .none
    case isFalse =>
      intro set hs
      cases hs
      refine ⟨LiveKeySet.ordered_fromPositions _, fun key => ?_⟩
      rw [LiveKeySet.mem_keys_fromPositions, liveKeys, ← map_snd_positioned, filter_map, map_map, map_map]
      rfl

theorem tracks_rebuild (h : c.Laid) : (c.rebuildLiveSetForVertex v).Tracks v := by
  rw [Tracks, (Keeps.rebuild h).entries_self]
  exact indexed_rebuild

variable {es : List Nbr} {key : EdgeKey} {position : EdgePosition}

theorem indexed_trackLiveInsert (hv : v < c.vertexCapacity) (h : Indexed es (c.row v).liveSet)
    (hk : ∀ k, k ∈ liveKeys (c.entries v) ↔ k = key ∨ k ∈ liveKeys es) :
    Indexed (c.entries v) ((c.trackLiveInsert v key position).row v).liveSet := by
  rw [trackLiveInsert]
  split
  case h_1 set hs =>
    rw [row_modifyRow_self hv]
    intro s hs'
    cases hs'
    refine ⟨LiveKeySet.ordered_insert, fun k => ?_⟩
    rw [LiveKeySet.mem_keys_insert, (h set hs).2, hk]
  case h_2 hs =>
    split
    case isTrue => exact indexed_rebuild
    case isFalse => exact hs ▸ .none

theorem indexed_trackLiveRemove (hv : v < c.vertexCapacity) (h : Indexed es (c.row v).liveSet)
    (hk : ∀ k, k ∈ liveKeys (c.entries v) ↔ k ≠ key ∧ k ∈ liveKeys es) :
    Indexed (c.entries v) ((c.trackLiveRemove v key).row v).liveSet := by
  rw [trackLiveRemove]
  split
  case h_1 hs => exact hs ▸ .none
  case h_2 set hs =>
    rw [row_modifyRow_self hv]
    split
    case isTrue => exact .none
    case isFalse =>
      intro s hs'
      cases hs'
      refine ⟨LiveKeySet.ordered_remove, fun k => ?_⟩
      rw [LiveKeySet.mem_keys_remove, (h set hs).2, hk]

theorem tracks_rebuildIfIndexed (h : c.Laid) : (c.rebuildIfIndexed v).Tracks v := by
  rw [rebuildIfIndexed]
  split
  case isTrue => exact tracks_rebuild h
  case isFalse h =>
    rw [Tracks, Option.not_isSome_iff_eq_none.mp h]
    exact .none

@[simp]
theorem edgeCount_noteTombstone : (c.noteTombstone v position).edgeCount = c.edgeCount := by
  cases position <;> rfl

@[simp]
theorem edgeCount_forgetTombstone : (c.forgetTombstone v position).edgeCount = c.edgeCount := by
  cases position <;> rfl

@[simp]
theorem edgeCount_trackLiveInsert : (c.trackLiveInsert v key position).edgeCount = c.edgeCount := by
  rw [trackLiveInsert]
  split
  case h_1 => rfl
  case h_2 => split <;> rfl

@[simp]
theorem edgeCount_trackLiveRemove : (c.trackLiveRemove v key).edgeCount = c.edgeCount := by
  rw [trackLiveRemove]
  split <;> rfl

@[simp]
theorem edgeCount_rebuildIfIndexed : (c.rebuildIfIndexed v).edgeCount = c.edgeCount := by
  rw [rebuildIfIndexed]
  split <;> rfl

end

-- An entry that the cutoff allows to forget.
def Reclaims (cutoff : UInt64) (n : Nbr) : Prop :=
  cutoff ≠ neverDeleted ∧ n.isReclaimable cutoff

-- The row of `v` ends up with `es`, except for entries that could be forgotten.
structure Yields (v : ℕ) (cutoff : UInt64) (c c' : MutableCsr) (es : List Nbr) : Prop
    extends Local v c c' where
  content : ∃ dropped, (c'.entries v ++ dropped).Perm es ∧ ∀ d ∈ dropped, Reclaims cutoff d

namespace Yields

variable {cutoff : UInt64} {es : List Nbr}

theorem of_perm (h : Local v c c') (hp : (c'.entries v).Perm es) : Yields v cutoff c c' es :=
  ⟨h, [], by simpa using hp, nofun⟩

theorem keeps (h : Yields v cutoff c c' es) (hk : Keeps v c' c'') : Yields v cutoff c c'' es :=
  ⟨h.toLocal.trans hk.toLocal, by rw [hk.entries_self]; exact h.content⟩

theorem trans (h : Yields v cutoff c c' es) (h' : Yields v cutoff c' c'' (c'.entries v)) :
    Yields v cutoff c c'' es := by
  obtain ⟨d, hp, hd⟩ := h.content
  obtain ⟨d', hp', hd'⟩ := h'.content
  refine ⟨h.toLocal.trans h'.toLocal, d' ++ d, ?_, ?_⟩
  · rw [← append_assoc]
    exact (hp'.append_right d).trans hp
  · simpa [or_imp, forall_and] using ⟨hd', hd⟩

theorem mono (h : Yields v neverDeleted c c' es) : Yields v cutoff c c' es := by
  obtain ⟨dropped, hp, hd⟩ := h.content
  exact ⟨h.toLocal, dropped, hp, fun d hm => absurd rfl (hd d hm).1⟩

theorem perm (h : Yields v neverDeleted c c' es) : (c'.entries v).Perm es := by
  obtain ⟨dropped, hp, hd⟩ := h.content
  have : dropped = [] := eq_nil_iff_forall_not_mem.mpr fun d hm => (hd d hm).1 rfl
  simpa [this] using hp

theorem mem_liveKeys (h : Yields v cutoff c c' es) (key : EdgeKey) :
    key ∈ liveKeys (c'.entries v) ↔ key ∈ liveKeys es := by
  obtain ⟨dropped, hp, hd⟩ := h.content
  rw [← (liveKeys_perm hp).mem_iff, mem_liveKeys_append,
    liveKeys_of_dead fun d hm => Nbr.isLive_of_isReclaimable (hd d hm).2]
  simp

end Yields

section

variable {cutoff : UInt64}

theorem compactOverflow_yields (h : c.Laid) :
    Yields v cutoff c (c.compactOverflowForVertex v cutoff).2 (c.entries v) := by
  rw [compactOverflowForVertex]
  split
  case isTrue => exact .of_perm (.refl h) (.refl _)
  case isFalse hc =>
    have hv : v < c.vertexCapacity := by
      by_contra hv
      rw [row_of_le (not_lt.mp hv)] at hc
      exact hc rfl
    -- what is kept, and in which chunks
    generalize hk : (if cutoff = neverDeleted then ([], c.overflow v)
      else (c.overflow v).partition (·.isReclaimable cutoff)) = parts
    obtain ⟨removed, kept⟩ := parts
    have hkept (xs : List Nbr) : (if xs = [] then [] else [repacked xs]).flatMap
        OverflowChunk.entries = xs := by
      split <;> simp_all
    have hp : (kept ++ removed).Perm (c.overflow v) ∧ ∀ d ∈ removed, Reclaims cutoff d := by
      split at hk
      case isTrue =>
        cases hk
        simp
      case isFalse hn =>
        rw [partition_eq_filter_filter, Prod.mk.injEq] at hk
        obtain ⟨rfl, rfl⟩ := hk
        refine ⟨perm_append_comm.trans (filter_append_perm _ _), fun d hd => ?_⟩
        exact ⟨hn, (mem_filter.mp hd).2⟩
    have hl := Local.modifyChunks (v := v) (fun _ => if kept = [] then [] else [.repacked kept]) h
    refine Yields.keeps ⟨hl, removed, ?_, hp.2⟩ (.rebuild hl.laid)
    rw [entries_modifyChunks (fun _ => if kept = [] then [] else [.repacked kept]) hv, hkept,
      append_assoc]
    exact hp.1.append_left _

theorem indexed_compactOverflow (h : c.Laid) (hi : c.Tracks v) :
    (c.compactOverflowForVertex v cutoff).2.Tracks v := by
  rw [compactOverflowForVertex]
  split
  case isTrue => exact hi
  case isFalse =>
    exact tracks_rebuild (Local.modifyChunks (fun _ => _) h).laid

@[simp]
theorem edgeCount_compactOverflow : (c.compactOverflowForVertex v cutoff).2.edgeCount = c.edgeCount := by
  rw [compactOverflowForVertex]
  split <;> rfl

variable {n : Nbr}

theorem mem_liveKeys_cons (hn : n.isLive) (key : EdgeKey) :
    key ∈ liveKeys (n :: es) ↔ key = n.key ∨ key ∈ liveKeys es := by
  simp [liveKeys, hn]

theorem appendOverflow_yields (h : c.Laid) (hv : v < c.vertexCapacity) (hn : n.isLive)
    (liveHint : ℕ) : Yields v neverDeleted c (c.appendOverflow v n liveHint) (n :: c.entries v) ∧
    (c.appendOverflow v n liveHint).edgeCount = c.edgeCount ∧
    (c.Tracks v → (c.appendOverflow v n liveHint).Tracks v) := by
  simp only [appendOverflow, hn, if_true]
  generalize c.effectiveChunkEdges liveHint = chunkEdges
  generalize hc₁ : c.modifyChunks v (pushToRow · n chunkEdges) = c₁
  have hl : Local v c c₁ :=
    hc₁ ▸ Local.modifyChunks (pushToRow · n chunkEdges) h
  have hv₁ : v < c₁.vertexCapacity := hl.capacity ▸ hv
  have he : (c₁.entries v).Perm (n :: c.entries v) := by
    rw [← hc₁, entries_modifyChunks (pushToRow · n chunkEdges) hv,
      entries_pushToRow, ← append_assoc, entries, overflow]
    exact perm_append_singleton ..
  generalize EdgePosition.overflow _ _ = position
  generalize hc₂ : c₁.trackLiveInsert v n.key position = c₂
  have hk : Keeps v c₁ c₂ := hc₂ ▸ Keeps.trackLiveInsert hl.laid ..
  have hy : Yields v neverDeleted c c₂ (n :: c.entries v) := (Yields.of_perm hl he).keeps hk
  have hx : c₂.edgeCount = c.edgeCount := by
    rw [← hc₂, edgeCount_trackLiveInsert, ← hc₁]
    rfl
  have hi (hi : c.Tracks v) : c₂.Tracks v := by
    have hs : (c₁.row v).liveSet = (c.row v).liveSet := by simp [← hc₁]
    rw [Tracks, hk.entries_self, ← hc₂]
    refine indexed_trackLiveInsert hv₁ (hi.indexed hs) fun k => ?_
    rw [(liveKeys_perm he).mem_iff, mem_liveKeys_cons hn]
  split
  case isTrue =>
    exact ⟨hy.trans (compactOverflow_yields hy.laid), edgeCount_compactOverflow.trans hx,
      fun h => indexed_compactOverflow hy.laid (hi h)⟩
  case isFalse => exact ⟨hy, hx, hi⟩

theorem reusableSlot_eq_some (h : c.reusableSlot v = some slot) :
    ∃ old, (c.primary v)[slot]? = some old ∧ Reclaims c.tombstoneReuseCutoff old := by
  simp only [reusableSlot] at h
  split at h
  case isTrue => cases h
  case isFalse hc =>
    split at h
    case h_1 s hs =>
      cases h
      have ⟨_, ha⟩ := Option.filter_eq_some_iff.mp hs
      obtain ⟨old, ho, hr⟩ := (Option.any_eq_true ..).mp ha
      exact ⟨old, ho, hc, hr⟩
    case h_2 =>
      obtain ⟨hl, hr, _⟩ := findIdx?_eq_some_iff_getElem.mp h
      have hl' := length_take_le' _ _ |>.trans_lt' hl
      refine ⟨(c.primary v)[slot], getElem?_eq_getElem hl', hc, ?_⟩
      simpa using hr

theorem Yields.indexed_track {key : EdgeKey} (hy : Yields v cutoff c c₁ es) (hv : v < c.vertexCapacity)
    (hs : (c₁.row v).liveSet = (c.row v).liveSet)
    (hk : ∀ k, k ∈ liveKeys es ↔ k = key ∨ k ∈ liveKeys (c.entries v)) (hi : c.Tracks v) :
    (c₁.trackLiveInsert v key position).Tracks v := by
  rw [Tracks, (Keeps.trackLiveInsert hy.laid ..).entries_self]
  refine indexed_trackLiveInsert (hy.capacity ▸ hv) (hi.indexed hs) fun k => ?_
  rw [hy.mem_liveKeys, hk]

theorem place_yields (h : c.Laid) (hv : v < c.vertexCapacity) (hn : n.isLive) :
    Yields v c.tombstoneReuseCutoff c (c.place v n) (n :: c.entries v) ∧
    (c.place v n).edgeCount = c.edgeCount + 1 ∧ (c.Tracks v → (c.place v n).Tracks v) := by
  have hk : ∀ k, k ∈ liveKeys (n :: c.entries v) ↔ k = n.key ∨ k ∈ liveKeys (c.entries v) :=
    mem_liveKeys_cons hn
  have ht {c₁ : MutableCsr} (h : c₁.Laid) (slot : ℕ) :
      Keeps v c₁ ((c₁.trackLiveInsert v n.key (.primary slot)).noteEdges 1) :=
    have ht := Keeps.trackLiveInsert h ..
    ht.trans (.noteEdges ht.laid 1)
  simp only [place]
  split
  case isTrue hd =>
    have hl : (c.primary v ++ [n]).length ≤ (c.row v).primaryCapacity := by
      rw [length_append, h.length_primary]
      exact hd
    have hs := Local.setPrimary h hl
    have hy : Yields v c.tombstoneReuseCutoff c ((c.setPrimary v (c.primary v ++ [n])).countLive v 1)
        (n :: c.entries v) := by
      refine (Yields.of_perm hs ?_).keeps (.countLive hs.laid 1)
      rw [entries_setPrimary h hv hl, append_assoc]
      exact perm_middle
    refine ⟨hy.keeps (ht hy.laid _), ?_, fun hi => ?_⟩
    · exact congrArg (· + 1) edgeCount_trackLiveInsert
    · exact hy.indexed_track hv (by simp) hk hi
  case isFalse =>
    split
    case h_1 slot hslot =>
      obtain ⟨old, ho, hr⟩ := reusableSlot_eq_some hslot
      have hl : ((c.primary v).set slot n).length ≤ (c.row v).primaryCapacity := by
        rw [length_set, h.length_primary]
        exact h.degree_le v
      have hs := Local.setPrimary h hl
      generalize hc₁ : ((c.setPrimary v ((c.primary v).set slot n)).invalidateReuseHint v).countLive v 1
        = c₁
      have hy : Yields v c.tombstoneReuseCutoff c c₁ (n :: c.entries v) := by
        have hh := Keeps.invalidateReuseHint (v := v) hs.laid
        subst hc₁
        refine Yields.keeps ⟨hs, [old], ?_, by simpa using hr⟩ (hh.trans (.countLive hh.laid 1))
        rw [entries_setPrimary h hv hl, entries]
        refine (perm_append_singleton old _).trans ?_
        exact (cons_set_perm ho n).append_right (c.overflow v)
      refine ⟨hy.keeps (ht hy.laid _), ?_, fun hi => ?_⟩
      · subst hc₁
        exact congrArg (· + 1) edgeCount_trackLiveInsert
      · exact hy.indexed_track hv (by simp [← hc₁]) hk hi
    case h_2 =>
      generalize hc₁ : (if c.tombstoneReuseCutoff = neverDeleted then c
        else c.invalidateReuseHint v) = c₁
      have hk₁ : Keeps v c c₁ ∧ c₁.edgeCount = c.edgeCount ∧
          (c₁.row v).liveSet = (c.row v).liveSet := by
        split at hc₁ <;> subst hc₁
        · exact ⟨.refl h, rfl, rfl⟩
        · exact ⟨.invalidateReuseHint h, rfl, liveSet_invalidateReuseHint⟩
      obtain ⟨hk₁, hx, hs⟩ := hk₁
      obtain ⟨hy, hx', hi'⟩ :=
        appendOverflow_yields hk₁.laid (hk₁.capacity ▸ hv) hn (c.liveKeyCount v + 1)
      rw [hk₁.entries_self] at hy
      have hc := Keeps.countLive (v := v) hy.laid 1
      refine ⟨?_, ?_, fun hi => ?_⟩
      · refine Yields.keeps ⟨hk₁.toLocal.trans hy.toLocal, ?_⟩ (hc.trans (.noteEdges hc.laid 1))
        exact hy.mono.content
      · exact congrArg (· + 1) (hx'.trans hx)
      · exact (hc.trans (.noteEdges hc.laid 1)).tracks (by simp) (hi' (hk₁.tracks hs hi))

end

end MutableCsr
end Linkrs
