import Linkrs.Edge.CsrRows

namespace Linkrs

open List Option

theorem Nbr.isLive_of_canRevertDelete {n : Nbr} (h : n.canRevertDelete ts) : n.isLive = false := by
  simp [canRevertDelete] at h
  exact h.1

section

variable {es l₁ l₂ : List Nbr} {n : Nbr} {key : EdgeKey}

theorem liveKeys_perm_cons (h : es.Perm (n :: l₂)) : (liveKeys es).Perm (liveKeys [n] ++ liveKeys l₂) := by
  refine (liveKeys_perm h).trans (.of_eq ?_)
  rw [← singleton_append, liveKeys, filter_append, map_append]
  rfl

theorem liveKeys_middle_perm : (liveKeys (l₁ ++ n :: l₂)).Perm (liveKeys [n] ++ liveKeys (l₁ ++ l₂)) :=
  liveKeys_perm_cons perm_middle

theorem liveKeys_singleton : liveKeys [n] = if n.isLive then [n.key] else [] := by
  cases hn : n.isLive <;> simp [liveKeys, hn]

theorem mem_liveKeys_middle :
    key ∈ liveKeys (l₁ ++ n :: l₂) ↔ n.isLive ∧ key = n.key ∨ key ∈ liveKeys (l₁ ++ l₂) := by
  rw [liveKeys_middle_perm.mem_iff, mem_append, liveKeys_singleton]
  cases n.isLive <;> simp

theorem length_liveKeys_middle : (liveKeys (l₁ ++ n :: l₂)).length =
    (if n.isLive then 1 else 0) + (liveKeys (l₁ ++ l₂)).length := by
  rw [liveKeys_middle_perm.length_eq, length_append, liveKeys_singleton]
  cases n.isLive <;> rfl

end

namespace MutableCsr

variable {c c' c'' : MutableCsr} {v w : ℕ}

-- The number of edges changes by as much as the entries of the row do.
structure Effect (v : ℕ) (cutoff : UInt64) (c c' : MutableCsr) (es : List Nbr) : Prop
    extends Yields v cutoff c c' es where
  count : c'.edgeCount + .ofNat (liveKeys (c.entries v)).length =
    c.edgeCount + .ofNat (liveKeys es).length

namespace Effect

variable {cutoff : UInt64} {es : List Nbr}

theorem refl (h : c.Laid) : Effect v cutoff c c (c.entries v) :=
  ⟨.of_perm (.refl h) (.refl _), rfl⟩

theorem keeps (h : Effect v cutoff c c' es) (hk : Keeps v c' c'')
    (he : c''.edgeCount = c'.edgeCount) : Effect v cutoff c c'' es :=
  ⟨h.toYields.keeps hk, he ▸ h.count⟩

end Effect

section

variable {n : Nbr}

theorem place_effect (h : c.Laid) (hv : v < c.vertexCapacity) (hn : n.isLive) :
    Effect v c.tombstoneReuseCutoff c (c.place v n) (n :: c.entries v) := by
  have ⟨hy, hx, _⟩ := place_yields h hv hn
  refine ⟨hy, ?_⟩
  rw [hx, ← nil_append (n :: c.entries v), length_liveKeys_middle, if_pos hn, UInt64.ofNat_add,
    nil_append, UInt64.add_assoc]
  rfl

end

section

variable {position : EdgePosition} {n : Nbr} {ts : UInt64}

-- An entry `n` of the row gives way to `n'`. The live set stays right on the given condition.
def Replaces (v : ℕ) (c c' : MutableCsr) (n n' : Nbr) (cond : List Nbr → Prop) : Prop :=
  ∃ l₁ l₂, c.entries v = l₁ ++ n :: l₂ ∧ Effect v neverDeleted c c' (l₁ ++ n' :: l₂) ∧
    (cond (l₁ ++ l₂) → c.Tracks v → c'.Tracks v)

theorem Replaces.keeps {cond : List Nbr → Prop} (h : Replaces v c c' n n' cond)
    (hk : Keeps v c' c'') (he : c''.edgeCount = c'.edgeCount)
    (hs : (c''.row v).liveSet = (c'.row v).liveSet) : Replaces v c c'' n n' cond := by
  obtain ⟨l₁, l₂, hl, hf, ht⟩ := h
  exact ⟨l₁, l₂, hl, hf.keeps hk he, fun hc hi => hk.tracks hs (ht hc hi)⟩

-- The key is forgotten, so no other entry may live by it.
def Alone (c : MutableCsr) (v : ℕ) (n : Nbr) (others : List Nbr) : Prop :=
  (c.row v).liveSet = none ∨ n.key ∉ liveKeys others

theorem stampAt_replaces (h : c.Laid) (hn : c.slotAtPosition v position = some n) (hl : n.isLive)
    (ht : ts ≠ neverDeleted) : Replaces v c (c.stampAt v position n ts) n (n.stamp ts) (c.Alone v n) := by
  have hv := slotAtPosition_lt hn
  obtain ⟨l₁, l₂, hs, hs'⟩ := entries_modifyAt (f := Nbr.stamp ts) h hn
  have hm := Local.modifyAt (f := Nbr.stamp ts) (v := v) h position
  have hd : (n.stamp ts).isLive = false := by simp [ht]
  have hk := Keeps.noteTombstone (v := v) hm.laid position
  simp only [stampAt]
  generalize hc₁ : (c.modifyAt v (Nbr.stamp ts) position).noteTombstone v position = c₁ at hk
  have hx : c₁.edgeCount = c.edgeCount := by simp [← hc₁]
  have hls : (c₁.row v).liveSet = (c.row v).liveSet := by simp [← hc₁]
  have hk' := Keeps.trackLiveRemove (v := v) hk.laid n.key
  have he : c₁.entries v = l₁ ++ n.stamp ts :: l₂ := hk.entries_self.trans hs'
  refine ⟨l₁, l₂, hs, ⟨?_, ?_⟩, fun ha hi => ?_⟩
  · have hy : Yields v neverDeleted c c₁ (l₁ ++ n.stamp ts :: l₂) :=
      .of_perm (hm.trans hk.toLocal) (.of_eq he)
    exact hy.keeps (hk'.trans (.dropEdges hk'.laid 1))
  · have hx' : ((c₁.trackLiveRemove v n.key).dropEdges 1).edgeCount = c.edgeCount - 1 := by
      rw [dropEdges, edgeCount_trackLiveRemove, hx]
      rfl
    rw [hx', hs, length_liveKeys_middle, length_liveKeys_middle, if_pos hl, hd]
    simp only [Bool.false_eq_true, if_false, Nat.zero_add, UInt64.ofNat_add]
    grind
  · refine (Keeps.dropEdges hk'.laid 1).tracks rfl ?_
    rw [Tracks, hk'.entries_self]
    rcases ha with ha | ha
    case inl =>
      rw [trackLiveRemove, hls, ha]
      rw [hls, ha]
      exact .none
    case inr =>
      refine indexed_trackLiveRemove (hk.capacity ▸ hm.capacity ▸ hv) (hi.indexed hls) fun k => ?_
      rw [he, hs, mem_liveKeys_middle, mem_liveKeys_middle, hd, hl]
      grind

theorem reviveAt_replaces (h : c.Laid) (hn : c.slotAtPosition v position = some n) (hd : n.isLive = false) :
    Replaces v c (c.reviveAt v position n) n (n.stamp neverDeleted) fun _ => True := by
  have hv := slotAtPosition_lt hn
  obtain ⟨l₁, l₂, hs, hs'⟩ := entries_modifyAt (f := Nbr.stamp neverDeleted) h hn
  have hm := Local.modifyAt (f := Nbr.stamp neverDeleted) (v := v) h position
  have hl : (n.stamp neverDeleted).isLive := by simp
  have hk := Keeps.noteEdges (v := v) hm.laid 1
  replace hk := hk.trans (Keeps.forgetTombstone hk.laid position)
  simp only [reviveAt]
  generalize hc₁ : ((c.modifyAt v (Nbr.stamp neverDeleted) position).noteEdges 1).forgetTombstone
    v position = c₁ at hk
  have hx : c₁.edgeCount = c.edgeCount + 1 := by
    rw [← hc₁, edgeCount_forgetTombstone, noteEdges, edgeCount_modifyAt]
    rfl
  have hls : (c₁.row v).liveSet = (c.row v).liveSet := by simp [← hc₁]
  have hk' := Keeps.trackLiveInsert (v := v) hk.laid n.key position
  have he : c₁.entries v = l₁ ++ n.stamp neverDeleted :: l₂ := hk.entries_self.trans hs'
  refine ⟨l₁, l₂, hs, ⟨?_, ?_⟩, fun _ hi => ?_⟩
  · have hy : Yields v neverDeleted c c₁ (l₁ ++ n.stamp neverDeleted :: l₂) :=
      .of_perm (hm.trans hk.toLocal) (.of_eq he)
    exact hy.keeps hk'
  · rw [edgeCount_trackLiveInsert, hx, hs, length_liveKeys_middle, length_liveKeys_middle, if_pos hl, hd]
    simp only [Bool.false_eq_true, if_false, Nat.zero_add, UInt64.ofNat_add]
    grind
  · rw [Tracks, hk'.entries_self]
    refine indexed_trackLiveInsert (hk.capacity ▸ hm.capacity ▸ hv) (hi.indexed hls) fun k => ?_
    rw [he, hs, mem_liveKeys_middle, mem_liveKeys_middle, hd]
    simp

end

section

variable {position : EdgePosition} {n : Nbr} {edgeId ts : UInt64}

theorem locateEdgeId_eq_some (h : c.locateEdgeId v edgeId = some (position, n)) :
    c.slotAtPosition v position = some n ∧ n.edgeId = edgeId :=
  ⟨mem_positioned.mp (mem_of_find?_eq_some h), by simpa using find?_some h⟩

theorem locateEdgeId_eq_none (h : c.locateEdgeId v edgeId = none) : ∀ n ∈ c.entries v, n.edgeId ≠ edgeId := by
  intro n hn
  rw [← map_snd_positioned] at hn
  obtain ⟨p, hp, rfl⟩ := List.mem_map.mp hn
  simpa using find?_eq_none.mp h p hp

theorem deleteEdge_of_live (h : c.locateEdgeId v edgeId = some (position, n)) (hl : n.isLive) :
    (c.deleteEdge v edgeId ts).2 = (c.stampAt v position n ts).uncountLive v 1 := by
  simp [deleteEdge, h, Nbr.decideSlotDelete, hl]

theorem deleteEdge_of_dead (h : ∀ position n, c.locateEdgeId v edgeId = some (position, n) → n.isLive = false) :
    (c.deleteEdge v edgeId ts).2 = c := by
  rw [deleteEdge]
  split
  case h_1 => rfl
  case h_2 p n hn =>
    split
    case h_1 => rfl
    case h_2 => rfl
    case h_3 hd =>
      rw [Nbr.decideSlotDelete_eq_stamped, h p n hn] at hd
      cases hd

theorem deleteEdge_replaces (h : c.Laid) (hn : c.locateEdgeId v edgeId = some (position, n))
    (hl : n.isLive) (ht : ts ≠ neverDeleted) :
    Replaces v c (c.deleteEdge v edgeId ts).2 n (n.stamp ts) (c.Alone v n) := by
  rw [deleteEdge_of_live hn hl]
  have hr := stampAt_replaces h (locateEdgeId_eq_some hn).1 hl ht
  have hd : (c.stampAt v position n ts).Laid := by
    obtain ⟨_, _, _, he, _⟩ := hr
    exact he.laid
  exact hr.keeps (.uncountLive hd 1) rfl (by simp)

theorem deleteEdgeAtPosition_of_live (h : c.slotAtPosition v position = some n) (hl : n.isLive) :
    (c.deleteEdgeAtPosition v position n.edgeId ts).2 = c.stampAt v position n ts := by
  simp [deleteEdgeAtPosition, h, Option.filter, Nbr.decideSlotDelete, hl]

theorem deleteEdgeAtPosition_of_dead
    (h : ∀ n, c.slotAtPosition v position = some n → n.edgeId = edgeId → n.isLive = false) :
    (c.deleteEdgeAtPosition v position edgeId ts).2 = c := by
  rw [deleteEdgeAtPosition]
  split
  case h_1 => rfl
  case h_2 n hn =>
    have ⟨hs, he⟩ := filter_eq_some_iff.mp hn
    split
    case h_1 => rfl
    case h_2 => rfl
    case h_3 hd =>
      rw [Nbr.decideSlotDelete_eq_stamped, h n hs (by simpa using he)] at hd
      cases hd

variable {es : List Nbr} {key : EdgeKey}

def strike (key : EdgeKey) (ts : UInt64) (n : Nbr) : Nbr :=
  if n.key = key && n.isLive then n.stamp ts else n

theorem isLive_strike (ht : ts ≠ neverDeleted) : (strike key ts n).isLive = (n.isLive && n.key ≠ key) := by
  rw [strike]
  cases hl : n.isLive <;> by_cases hk : n.key = key <;> simp [hl, hk, ht]

@[simp]
theorem key_strike : (strike key ts n).key = n.key := by
  rw [strike]
  split <;> rfl

theorem mem_liveKeys_strike (ht : ts ≠ neverDeleted) :
    k ∈ liveKeys (es.map (strike key ts)) ↔ k ≠ key ∧ k ∈ liveKeys es := by
  simp only [mem_liveKeys, List.mem_map]
  constructor
  · rintro ⟨_, ⟨n, hn, rfl⟩, hl, rfl⟩
    simp only [isLive_strike ht, Bool.and_eq_true, decide_eq_true_eq, key_strike] at hl ⊢
    exact ⟨hl.2, n, hn, hl.1, rfl⟩
  · rintro ⟨hk, n, hn, hl, rfl⟩
    exact ⟨_, ⟨n, hn, rfl⟩, by simp [isLive_strike ht, hl, hk], key_strike⟩

theorem length_liveKeys_strike (ht : ts ≠ neverDeleted) :
    (liveKeys (es.map (strike key ts))).length + (es.filter fun n => n.key = key && n.isLive).length =
      (liveKeys es).length := by
  simp only [liveKeys, length_map]
  induction es with
  | nil => rfl
  | cons n es ind =>
    simp only [map_cons, filter_cons, isLive_strike ht]
    cases n.isLive <;> by_cases hk : n.key = key <;> simp_all <;> omega

section

variable {f : Nbr → Nbr}

theorem length_map_primary (h : c.Laid) : ((c.primary v).map f).length ≤ (c.row v).primaryCapacity := by
  rw [length_map, h.length_primary]
  exact h.degree_le v

theorem Local.mapEntries (h : c.Laid) : Local v c (c.mapEntries v f) :=
  have hs := Local.setPrimary h (length_map_primary h)
  hs.trans (.modifyChunks _ hs.laid)

theorem entries_mapEntries (h : c.Laid) (hv : v < c.vertexCapacity) :
    (c.mapEntries v f).entries v = (c.entries v).map f := by
  have hl := length_map_primary (v := v) (f := f) h
  have hc : ((c.setPrimary v ((c.primary v).map f)).row v).chunks = (c.row v).chunks :=
    field_setPrimary Row.chunks fun _ _ => rfl
  rw [mapEntries, entries_modifyChunks _ ((Local.setPrimary h hl).capacity ▸ hv),
    primary_setPrimary_self h hv hl, hc, entries, map_append, overflow, map_flatMap,
    flatMap_map]

end

theorem drop_struck (ht : ts ≠ neverDeleted) (hv : v < c.vertexCapacity)
    (hd : deleted = ((c.entries v).filter fun n => n.key = key && n.isLive).length)
    (hm : Local v c c₁) (he : c₁.entries v = (c.entries v).map (strike key ts))
    (hx : c₁.edgeCount = c.edgeCount) (hs : (c₁.row v).liveSet = (c.row v).liveSet) :
    Effect v neverDeleted c ((c₁.trackLiveRemove v key).dropEdges deleted) ((c.entries v).map (strike key ts)) ∧
    (c.Tracks v → ((c₁.trackLiveRemove v key).dropEdges deleted).Tracks v) := by
  have hk := Keeps.trackLiveRemove (v := v) hm.laid key
  have hk' := Keeps.dropEdges (v := v) hk.laid deleted
  refine ⟨⟨(Yields.of_perm hm (.of_eq he)).keeps (hk.trans hk'), ?_⟩, fun hi => hk'.tracks rfl ?_⟩
  · have hl : (liveKeys ((c.entries v).map (strike key ts))).length + deleted =
        (liveKeys (c.entries v)).length := hd ▸ length_liveKeys_strike ht
    rw [dropEdges, edgeCount_trackLiveRemove, hx, ← hl, UInt64.ofNat_add]
    grind
  · rw [Tracks, hk.entries_self]
    refine indexed_trackLiveRemove (hm.capacity ▸ hv) (hi.indexed hs) fun k => ?_
    rw [he, mem_liveKeys_strike ht]

theorem deleteByDst_of_none (hk : decodeEndpointPair dst = none) :
    (c.deleteEdgeByDstReportingPositioned v dst ts).2 = c := by
  rw [deleteEdgeByDstReportingPositioned, hk]

theorem deleteByDst_effect (h : c.Laid) (hk : decodeEndpointPair dst = some key)
    (ht : ts ≠ neverDeleted) : Effect v neverDeleted c (c.deleteEdgeByDstReportingPositioned v dst ts).2
      ((c.entries v).map (strike key ts)) ∧
    (c.Tracks v → (c.deleteEdgeByDstReportingPositioned v dst ts).2.Tracks v) := by
  simp only [deleteEdgeByDstReportingPositioned, hk]
  have hlen : ((c.positioned v).filter fun p => decide (p.2.key = key) && p.2.isLive).length =
      ((c.entries v).filter fun n => n.key = key && n.isLive).length := by
    rw [← map_snd_positioned, List.filter_map, length_map]
    rfl
  split
  case isTrue hd =>
    -- no entry is struck
    rw [hd, length_nil, eq_comm, length_eq_zero_iff] at hlen
    have hm : (c.entries v).map (strike key ts) = c.entries v := by
      refine (map_congr_left fun n hn => ?_).trans (List.map_id _)
      exact if_neg (filter_eq_nil_iff.mp hlen n hn)
    rw [hm]
    exact ⟨.refl h, id⟩
  case isFalse hd =>
    have hv : v < c.vertexCapacity := by
      obtain ⟨⟨p, n⟩, hp⟩ := exists_mem_of_ne_nil _ hd
      exact slotAtPosition_lt (mem_positioned.mp (mem_of_mem_filter hp))
    have hm := Local.mapEntries (v := v) (f := strike key ts) h
    have hu := Keeps.uncountLive (v := v) hm.laid
      ((c.positioned v).filter fun p => decide (p.2.key = key) && p.2.isLive).length
    generalize (c.primary v).findIdx? _ = first
    refine drop_struck ht hv hlen ?_ ?_ ?_ ?_
    case refine_1 =>
      cases first with
      | none => exact hm.trans hu.toLocal
      | some slot => exact hm.trans (hu.trans (.notePrimaryTombstone hu.laid slot)).toLocal
    case refine_2 =>
      refine .trans ?_ (entries_mapEntries h hv)
      cases first with
      | none => exact hu.entries_self
      | some slot => exact (hu.trans (.notePrimaryTombstone hu.laid slot)).entries_self
    case refine_3 => cases first <;> rfl
    case refine_4 => cases first <;> simp [mapEntries]

end

section

variable {ts : UInt64}

theorem revertDeleteByEdgeId_cases (h : c.Laid) (v : ℕ) (edgeId ts : UInt64) :
    (c.revertDeleteByEdgeId v edgeId ts).2 = c ∧ (((c.entries v).map Nbr.edgeId).Nodup →
        ∀ n ∈ c.entries v, n.edgeId = edgeId → n.canRevertDelete ts = false) ∨
    ∃ n, n.edgeId = edgeId ∧ n.canRevertDelete ts ∧
      Replaces v c (c.revertDeleteByEdgeId v edgeId ts).2 n (n.stamp neverDeleted)
        fun _ => True := by
  simp only [revertDeleteByEdgeId]
  split
  case h_2 p n hf =>
    have hn : (p, n) ∈ c.positioned v ∧ n.edgeId = edgeId ∧ n.canRevertDelete ts := by
      rcases or_eq_some_iff.mp hf with hf | ⟨_, hf⟩
      · have := find?_some hf
        simp only [Bool.and_eq_true, decide_eq_true_eq] at this
        exact ⟨mem_of_find?_eq_some hf, this.1.2, this.2⟩
      · have ⟨hf, hc⟩ := filter_eq_some_iff.mp hf
        have := find?_some hf
        simp only [Bool.and_eq_true, decide_eq_true_eq] at this
        exact ⟨mem_of_find?_eq_some hf, this.2, hc⟩
    obtain ⟨hn, he, hc⟩ := hn
    exact .inr ⟨n, he, hc, reviveAt_replaces h (mem_positioned.mp hn) (Nbr.isLive_of_canRevertDelete hc)⟩
  case h_1 hf =>
    refine .inl ⟨rfl, fun hd n hn he => ?_⟩
    rw [← map_snd_positioned] at hd hn
    obtain ⟨⟨p, n⟩, hp, rfl⟩ := List.mem_map.mp hn
    have ⟨hf₁, hf₂⟩ := or_eq_none_iff.mp hf
    replace he : n.edgeId = edgeId := he
    by_contra hc
    replace hc : n.canRevertDelete ts = true := Bool.not_eq_false _ ▸ hc
    cases p with
    | primary slot =>
      exact find?_eq_none.mp hf₁ _ hp (by simp [EdgePosition.isPrimary, he, hc])
    | overflow chunk slot =>
      -- the first match is the only one
      cases hm : (c.positioned v).find? fun p =>
        !p.1.isPrimary && decide (p.2.edgeId = edgeId) with
      | none => exact find?_eq_none.mp hm _ hp (by simp [EdgePosition.isPrimary, he])
      | some p' =>
        have he' := find?_some hm
        simp only [Bool.and_eq_true, decide_eq_true_eq] at he'
        rw [List.map_map] at hd
        have hq := inj_on_of_nodup_map hd (mem_of_find?_eq_some hm) hp
          (he'.2.trans he.symm)
        simp [hm, hq, Option.filter, hc] at hf₂

theorem revertDeleteAtPosition_cases (h : c.Laid) (v : ℕ) (position : EdgePosition)
    (edgeId ts : UInt64) : (c.revertDeleteAtPosition v position edgeId ts).2 = c ∧
      (∀ n, c.slotAtPosition v position = some n → n.edgeId = edgeId → n.canRevertDelete ts = false) ∨
    ∃ n, c.slotAtPosition v position = some n ∧ n.edgeId = edgeId ∧ n.canRevertDelete ts ∧
      Replaces v c (c.revertDeleteAtPosition v position edgeId ts).2 n (n.stamp neverDeleted)
        fun _ => True := by
  rw [revertDeleteAtPosition]
  split
  case h_1 hf =>
    refine .inl ⟨rfl, fun n hn he => ?_⟩
    rw [hn] at hf
    simpa [Option.filter, he] using hf
  case h_2 n hf =>
    have ⟨hn, hc⟩ := filter_eq_some_iff.mp hf
    simp only [Bool.and_eq_true, decide_eq_true_eq] at hc
    exact .inr ⟨n, hn, hc.1, hc.2, reviveAt_replaces h hn (Nbr.isLive_of_canRevertDelete hc.2)⟩

end

section

variable {position : EdgePosition} {n : Nbr} {edgeId : UInt64}

theorem flatMap_eraseIdx {α β : Type} {g : α → List β} {xs : List α} {x : α}
    (h : xs[i]? = some x) (hx : g x = []) : (xs.eraseIdx i).flatMap g = xs.flatMap g := by
  obtain ⟨hi, rfl⟩ := List.getElem?_eq_some_iff.mp h
  rw [eraseIdx_eq_take_drop_succ, flatMap_append]
  conv_rhs => rw [← take_append_drop i xs, drop_eq_getElem_cons hi]
  rw [flatMap_append, flatMap_cons, hx, nil_append]

def Erases (v : ℕ) (c c' : MutableCsr) (n : Nbr) : Prop :=
  ∃ es, (c.entries v).Perm (n :: es) ∧ Effect v neverDeleted c c' es ∧ (c.Tracks v → c'.Tracks v)

-- A live entry is counted off and the live set rebuilt. A deleted one was in neither.
theorem erases_of_live (hl : Local v c c₁)
    (hp : (c.entries v).Perm (n :: c₁.entries v)) (hx : c₁.edgeCount = c.edgeCount)
    (hk : Keeps v c₁ c') (hn : n.isLive) (hx' : c'.edgeCount = c₁.edgeCount - 1)
    (ht : c'.Tracks v) : Erases v c c' n := by
  refine ⟨c₁.entries v, hp, ⟨(Yields.of_perm hl (.refl _)).keeps hk, ?_⟩, fun _ => ht⟩
  rw [hx', hx, (liveKeys_perm_cons hp).length_eq, liveKeys_singleton, if_pos hn,
    length_append, length_singleton, UInt64.ofNat_add]
  grind

theorem erases_of_dead (hl : Local v c c₁)
    (hp : (c.entries v).Perm (n :: c₁.entries v)) (hx : c₁.edgeCount = c.edgeCount)
    (hk : Keeps v c₁ c') (hn : n.isLive = false) (hx' : c'.edgeCount = c₁.edgeCount)
    (ht : c'.Tracks v ∨ (c'.row v).liveSet = (c.row v).liveSet) : Erases v c c' n := by
  have hs : (liveKeys (c.entries v)).Perm (liveKeys (c₁.entries v)) := by
    have := liveKeys_perm_cons hp
    rwa [liveKeys_singleton, hn] at this
  refine ⟨c₁.entries v, hp, ⟨(Yields.of_perm hl (.refl _)).keeps hk, ?_⟩, fun hi => ?_⟩
  · rw [hx', hx, hs.length_eq]
  · rcases ht with ht | ht
    · exact ht
    · rw [Tracks, hk.entries_self]
      exact (hi.indexed ht).congr fun key => hs.symm.mem_iff

theorem rollbackInsert_of_none (h : c.locateEdgeId v edgeId = none) : (c.rollbackInsert v edgeId).2 = c := by
  rw [rollbackInsert, h]

theorem rollbackInsert_primary (h : c.Laid) (hf : c.locateEdgeId v edgeId = some (.primary slot, n)) :
    Erases v c (c.rollbackInsert v edgeId).2 n := by
  have hn : (c.primary v)[slot]? = some n := (locateEdgeId_eq_some hf).1
  have hv := slotAtPosition_lt (locateEdgeId_eq_some hf).1
  obtain ⟨hi, he⟩ := List.getElem?_eq_some_iff.mp hn
  simp only [rollbackInsert, hf]
  have hl : ((c.primary v).eraseIdx slot).length ≤ (c.row v).primaryCapacity :=
    (length_eraseIdx_le ..).trans (h.length_primary.trans_le (h.degree_le v))
  have hs := Local.setPrimary h hl
  have hh := Keeps.invalidateReuseHint (v := v) hs.laid
  generalize hc₁ : (c.setPrimary v ((c.primary v).eraseIdx slot)).invalidateReuseHint v = c₁ at hh
  have hm : Local v c c₁ := hs.trans hh.toLocal
  have hp : (c.entries v).Perm (n :: c₁.entries v) := by
    rw [hh.entries_self, entries_setPrimary h hv hl, entries, ← cons_append, ← he]
    exact (getElem_cons_eraseIdx_perm hi).symm.append_right _
  have hx : c₁.edgeCount = c.edgeCount := hc₁ ▸ rfl
  have hls : (c₁.row v).liveSet = (c.row v).liveSet := by simp [← hc₁]
  cases hn : n.isLive with
  | false => exact erases_of_dead hm hp hx (.refl hm.laid) hn rfl (.inr hls)
  | true =>
    have hu := Keeps.uncountLive (v := v) hm.laid 1
    have hr := Keeps.rebuildIfIndexed (v := v) hu.laid
    have hd := Keeps.dropEdges (v := v) hr.laid 1
    refine erases_of_live hm hp hx (hu.trans (hr.trans hd)) hn ?_ ?_
    · exact congrArg (· - 1) edgeCount_rebuildIfIndexed
    · exact hd.tracks rfl (tracks_rebuildIfIndexed hu.laid)

theorem chunksWithout_perm {chunks : List OverflowChunk}
    (h : chunks[chunk]?.bind (·.entries[slot]?) = some n) : (chunks.flatMap OverflowChunk.entries).Perm
      (n :: (chunksWithout chunks chunk slot).flatMap OverflowChunk.entries) := by
  obtain ⟨ch, hch, hn⟩ := bind_eq_some_iff.mp h
  let f (ch : OverflowChunk) : OverflowChunk := { ch with entries := swapRemove ch.entries slot }
  have ⟨l₁, l₂, he, he'⟩ := flatMap_modify f OverflowChunk.entries hch
  have hw : (chunksWithout chunks chunk slot).flatMap OverflowChunk.entries =
      (chunks.modify chunk f).flatMap OverflowChunk.entries := by
    simp only [chunksWithout]
    split
    case isTrue => rfl
    case isFalse ha =>
      have hf : (chunks.modify chunk f)[chunk]? = some (f ch) := by simp [hch]
      refine flatMap_eraseIdx hf ?_
      have ha : ¬((chunks.modify chunk f)[chunk]?.all (·.entries ≠ [])) = true := ha
      simpa [hf] using ha
  rw [hw, he, he', append_assoc, append_assoc]
  refine .trans (.append_left l₁ (.append_right l₂ (swapRemove_perm hn))) ?_
  exact perm_middle

theorem rollbackInsert_overflow (h : c.Laid) (hf : c.locateEdgeId v edgeId = some (.overflow chunk slot, n)) :
    Erases v c (c.rollbackInsert v edgeId).2 n := by
  have hn : (c.row v).chunks[chunk]?.bind (·.entries[slot]?) = some n := (locateEdgeId_eq_some hf).1
  have hv := slotAtPosition_lt (locateEdgeId_eq_some hf).1
  have hp := (chunksWithout_perm hn).append_left (c.primary v) |>.trans perm_middle
  simp only [rollbackInsert, hf]
  have hm := Local.modifyChunks (v := v) (chunksWithout · chunk slot) h
  generalize hc₁ : c.modifyChunks v (chunksWithout · chunk slot) = c₁ at hm
  have he : c₁.entries v = c.primary v ++
      (chunksWithout (c.row v).chunks chunk slot).flatMap OverflowChunk.entries :=
    hc₁ ▸ entries_modifyChunks _ hv
  rw [← he] at hp
  have hx : c₁.edgeCount = c.edgeCount := hc₁ ▸ rfl
  have hls : (c₁.row v).liveSet = (c.row v).liveSet := by simp [← hc₁]
  split
  case isTrue =>
    cases hn : n.isLive with
    | false =>
      exact erases_of_dead hm hp hx (.rebuild hm.laid) hn rfl (.inl (tracks_rebuild hm.laid))
    | true =>
      have hd := Keeps.dropEdges (v := v) hm.laid 1
      have hu := Keeps.uncountLive (v := v) hd.laid 1
      exact erases_of_live hm hp hx (hd.trans (hu.trans (.rebuild hu.laid))) hn rfl
        (tracks_rebuild hu.laid)
  case isFalse =>
    cases hn : n.isLive with
    | false => exact erases_of_dead hm hp hx (.refl hm.laid) hn rfl (.inr hls)
    | true =>
      have hr := Keeps.rebuildIfIndexed (v := v) hm.laid
      have hd := Keeps.dropEdges (v := v) hr.laid 1
      have hu := Keeps.uncountLive (v := v) hd.laid 1
      refine erases_of_live hm hp hx (hr.trans (hd.trans hu)) hn ?_ ?_
      · exact congrArg (· - 1) edgeCount_rebuildIfIndexed
      · exact hu.tracks liveSet_uncountLive (hd.tracks rfl (tracks_rebuildIfIndexed hm.laid))

theorem rollbackInsert_erases (h : c.Laid) (hf : c.locateEdgeId v edgeId = some (position, n)) :
    Erases v c (c.rollbackInsert v edgeId).2 n := by
  cases position with
  | primary _ => exact rollbackInsert_primary h hf
  | overflow _ _ => exact rollbackInsert_overflow h hf

end

section

theorem putEdge_effect (h : c.Laid) (hv : v < c.vertexCapacity) (live : ℕ) (e : EdgeKey × UInt64) :
    Local v c (putEdge v (c, live) e).1 ∧
    ((putEdge v (c, live) e).1.entries v).Perm (.new e.1 e.2 :: c.entries v) ∧
    (putEdge v (c, live) e).1.edgeCount = c.edgeCount + 1 := by
  simp only [putEdge]
  split
  case isTrue hd =>
    have hl : (c.primary v ++ [Nbr.new e.1 e.2]).length ≤ (c.row v).primaryCapacity := by
      rw [length_append, h.length_primary]
      exact hd
    have hs := Local.setPrimary h hl
    have hk := Keeps.noteEdges (v := v) hs.laid 1
    refine ⟨hs.trans hk.toLocal, ?_, rfl⟩
    rw [hk.entries_self, entries_setPrimary h hv hl, append_assoc]
    exact perm_middle
  case isFalse =>
    obtain ⟨hy, hx, _⟩ :=
      appendOverflow_yields (n := .new e.1 e.2) h hv (Nbr.isLive_new ..) (live + 1)
    have hk := Keeps.noteEdges (v := v) hy.laid 1
    refine ⟨hy.toLocal.trans hk.toLocal, ?_, congrArg (· + 1) hx⟩
    rw [hk.entries_self]
    exact hy.perm

-- The entries that a batch has for a row.
def newEntries (batch : List (EdgeKey × UInt64)) : List Nbr :=
  batch.map fun e => .new e.1 e.2

theorem liveKeys_newEntries (batch : List (EdgeKey × UInt64)) :
    liveKeys (newEntries batch) = batch.map Prod.fst := by
  have hl : ∀ n ∈ newEntries batch, n.isLive := by
    intro n hn
    obtain ⟨e, _, rfl⟩ := List.mem_map.mp hn
    rfl
  rw [liveKeys, filter_eq_self.mpr hl, newEntries, List.map_map]
  rfl

theorem putEdges_effect (h : c.Laid) (hv : v < c.vertexCapacity) (live : ℕ)
    (batch : List (EdgeKey × UInt64)) : Local v c (batch.foldl (putEdge v) (c, live)).1 ∧
    ((batch.foldl (putEdge v) (c, live)).1.entries v).Perm (newEntries batch ++ c.entries v) ∧
    (batch.foldl (putEdge v) (c, live)).1.edgeCount = c.edgeCount + .ofNat batch.length := by
  induction batch generalizing c live with
  | nil => exact ⟨.refl h, .refl _, (UInt64.add_zero _).symm⟩
  | cons e batch ind =>
    have ⟨hl, hp, hx⟩ := putEdge_effect h hv live e
    have ⟨hl', hp', hx'⟩ := ind hl.laid (hl.capacity ▸ hv) (putEdge v (c, live) e).2
    refine ⟨hl.trans hl', (hp'.trans (hp.append_left _)).trans perm_middle, ?_⟩
    rw [foldl_cons, hx', hx, length_cons, UInt64.ofNat_add]
    grind

theorem putGroup_effect (h : c.Laid) (hv : group.1 < c.vertexCapacity) :
    Effect group.1 neverDeleted c (c.putGroup group)
      (newEntries group.2 ++ c.entries group.1) ∧ (c.putGroup group).Tracks group.1 := by
  have ⟨hl, hp, hx⟩ := putEdges_effect h hv (c.liveKeyCount group.1) group.2
  refine ⟨⟨(Yields.of_perm hl hp).keeps (.rebuild hl.laid), ?_⟩, tracks_rebuild hl.laid⟩
  have hk : (liveKeys (newEntries group.2 ++ c.entries group.1)).length =
      group.2.length + (liveKeys (c.entries group.1)).length := by
    rw [liveKeys, filter_append, map_append, length_append, ← liveKeys, ← liveKeys,
      liveKeys_newEntries, length_map]
  rw [hk, UInt64.ofNat_add, ← UInt64.add_assoc]
  exact congrArg (· + _) hx

end

section

variable {cutoff : UInt64}

theorem lt_of_primaryCapacity (h : (c.row v).primaryCapacity ≠ 0) : v < c.vertexCapacity := by
  by_contra hv
  rw [row_of_le (not_lt.mp hv)] at h
  exact h rfl

theorem lt_of_mem_entries (h : n ∈ c.entries v) : v < c.vertexCapacity := by
  by_contra hv
  simp [entries, overflow, primary_of_le (not_lt.mp hv), row_of_le (not_lt.mp hv), Row.empty] at h

theorem rewriteRow_effect {chunks : List OverflowChunk} (h : c.Laid)
    (hv : v < c.vertexCapacity) (hl : xs.length ≤ (c.row v).primaryCapacity)
    (hp : ∃ dropped, (xs ++ chunks.flatMap OverflowChunk.entries ++ dropped).Perm (c.entries v) ∧
      ∀ d ∈ dropped, Reclaims cutoff d) : Effect v cutoff c (c.rewriteRow v xs chunks) (c.entries v) ∧
      (c.rewriteRow v xs chunks).Tracks v := by
  have hs := Local.setPrimary h hl
  have hi := Keeps.invalidateReuseHint (v := v) hs.laid
  have hm := Local.modifyChunks (v := v) (fun _ => chunks) hi.laid
  have hr := Keeps.rebuild (v := v) hm.laid
  refine ⟨⟨⟨hs.trans (hi.toLocal.trans (hm.trans hr.toLocal)), ?_⟩, rfl⟩, tracks_rebuild hm.laid⟩
  rwa [rewriteRow, hr.entries_self, entries_modifyChunks _ (hi.capacity ▸ hs.capacity ▸ hv),
    hi.primary_self, primary_setPrimary_self h hv hl]

theorem flatMap_ite_singleton (h : ch.entries = xs) :
    (if xs = [] then [] else [ch]).flatMap OverflowChunk.entries = xs := by
  split <;> simp_all

theorem rebalanceRow_effect (h : c.Laid) (v : ℕ) : Effect v neverDeleted c (c.rebalanceRow v).2 (c.entries v) ∧
    (c.Tracks v → (c.rebalanceRow v).2.Tracks v) := by
  rw [rebalanceRow]
  split
  case isTrue => exact ⟨.refl h, id⟩
  case isFalse hc =>
    rw [not_or] at hc
    have hl (ordered : List Nbr) : (ordered.take (min (c.row v).primaryCapacity
        ordered.length)).length ≤ (c.row v).primaryCapacity :=
      (length_take_le ..).trans (Nat.min_le_left ..)
    refine (rewriteRow_effect h (lt_of_primaryCapacity hc.1) (hl _) ⟨[], ?_, nofun⟩).imp id
      fun ht _ => ht
    rw [flatMap_ite_singleton (OverflowChunk.entries_repacked _), take_append_drop, append_nil]
    exact filter_append_perm ..

theorem sortRow_effect (h : c.Laid) (v : ℕ) : Effect v neverDeleted c (c.sortRow v).2 (c.entries v) ∧
    (c.Tracks v → (c.sortRow v).2.Tracks v) := by
  simp only [sortRow]
  split
  case isTrue => exact ⟨.refl h, id⟩
  case isFalse hc =>
    have hv := lt_of_primaryCapacity fun hz => hc (.inl hz)
    generalize hx : (c.primary v).insertionSort (fun a b => sortKey a ≤ sortKey b) = xs
    have hp : xs.Perm (c.primary v) := hx ▸ perm_insertionSort ..
    have hl : xs.length ≤ (c.row v).primaryCapacity := by
      rw [hp.length_eq, h.length_primary]
      exact h.degree_le v
    have hs := Local.setPrimary h hl
    have hi := Keeps.invalidateReuseHint (v := v) hs.laid
    refine ⟨⟨Yields.keeps (.of_perm hs ?_) (hi.trans (.rebuild hi.laid)), rfl⟩, fun _ => tracks_rebuild hi.laid⟩
    rw [entries_setPrimary h hv hl]
    exact hp.append_right _

theorem compactOverflow_effect (h : c.Laid) (v : ℕ) (cutoff : UInt64) :
    Effect v cutoff c (c.compactOverflowForVertex v cutoff).2 (c.entries v) ∧
    (c.Tracks v → (c.compactOverflowForVertex v cutoff).2.Tracks v) :=
  ⟨⟨compactOverflow_yields h, by rw [edgeCount_compactOverflow]⟩, indexed_compactOverflow h⟩

theorem compactVertex_effect (h : c.Laid) (v : ℕ) (cutoff : UInt64) :
    Effect v cutoff c (c.compactVertexWithReporting v cutoff).2 (c.entries v) ∧
    (c.Tracks v → (c.compactVertexWithReporting v cutoff).2.Tracks v) := by
  rw [compactVertexWithReporting]
  split
  case isTrue => exact ⟨.refl h, id⟩
  case isFalse hc =>
    rw [not_or, not_not, List.any_eq_true] at hc
    obtain ⟨hn, m, hm, _⟩ := hc
    simp only [partition_eq_filter_filter]
    have hl : ((c.primary v).filter (not ∘ (·.isReclaimable cutoff))).length ≤
        (c.row v).primaryCapacity :=
      (length_filter_le ..).trans (h.length_primary.trans_le (h.degree_le v))
    refine (rewriteRow_effect h (lt_of_mem_entries hm) hl
      ⟨(c.entries v).filter (·.isReclaimable cutoff), ?_, fun d hd =>
        ⟨hn, (mem_filter.mp hd).2⟩⟩).imp id fun ht _ => ht
    rw [flatMap_ite_singleton (OverflowChunk.entries_consolidated _), ← filter_append]
    exact perm_append_comm.trans (filter_append_perm ..)

end

end MutableCsr
end Linkrs
