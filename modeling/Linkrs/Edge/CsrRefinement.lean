import Mathlib.Data.Multiset.Filter
import Linkrs.Edge.CsrCalls
import Linkrs.Lib.Except
import Linkrs.Lib.Transition

namespace Linkrs

open List Function

-- What the table is for: a bag of entries for each vertex.
abbrev Bags := ℕ → Multiset Nbr

namespace Bags

def liveKeys (bag : Multiset Nbr) : Multiset EdgeKey :=
  (bag.filter (·.isLive)).map Nbr.key

-- What can be asked of the bags. Nothing here depends on where an entry is kept.
inductive Change where
  | keep
  | insert (v : ℕ) (n : Nbr)
  | insertAll (edges : List (ℕ × Nbr)) (allOrNone : Bool)
  | delete (v : ℕ) (edgeId ts : UInt64)
  | deleteKey (v : ℕ) (key : EdgeKey) (ts : UInt64)
  | revert (v : ℕ) (edgeId ts : UInt64)
  | erase (v : ℕ) (edgeId : UInt64)

variable (m : Bags)

def insert (e : ℕ × Nbr) : Bags :=
  if e.2.key ∈ liveKeys (m e.1) then m else update m e.1 (e.2 ::ₘ m e.1)

-- None of the keys is in use or given twice.
def Accepts (edges : List (ℕ × Nbr)) : Prop :=
  (edges.map fun e => (e.1, e.2.key)).Nodup ∧ ∀ e ∈ edges, e.2.key ∉ liveKeys (m e.1)

instance {edges : List (ℕ × Nbr)} : Decidable (m.Accepts edges) :=
  inferInstanceAs (Decidable (_ ∧ _))

def map (v : ℕ) (p : Nbr → Bool) (ts : UInt64) : Bags :=
  update m v ((m v).map fun n => if p n then n.stamp ts else n)

def apply : Change → Bags
  | .keep => m
  | .insert v n => m.insert (v, n)
  | .insertAll edges allOrNone =>
    if allOrNone ∧ ¬m.Accepts edges then m else edges.foldl insert m
  | .delete v edgeId ts => m.map v (fun n => n.edgeId = edgeId && n.isLive) ts
  | .deleteKey v key ts => m.map v (fun n => n.key = key && n.isLive) ts
  | .revert v edgeId ts =>
    m.map v (fun n => n.edgeId = edgeId && n.canRevertDelete ts) neverDeleted
  | .erase v edgeId => update m v ((m v).filter (·.edgeId ≠ edgeId))

-- A change together with the cutoff that is active for each vertex meanwhile.
abbrev Event := Change × (ℕ → UInt64)

-- After a change, entries that were deleted by the cutoff may be gone as well.
def Step (m : Bags) (e : Event) (m' : Bags) : Prop :=
  ∀ v, ∃ dropped, m' v + dropped = m.apply e.1 v ∧ ∀ n ∈ dropped, MutableCsr.Reclaims (e.2 v) n

inductive Run : Bags → List Event → Bags → Prop
  | refl {m : Bags} : Run m [] m
  | step {m m₁ m₂ : Bags} {e : Event} {es : List Event} :
    m.Step e m₁ → Run m₁ es m₂ → Run m (e :: es) m₂

-- Without a cutoff the changes say what the bags are.
theorem Run.eq_foldl {m m' : Bags} (r : Run m es m')
    (h : ∀ e ∈ es, ∀ v, e.2 v = neverDeleted) : m' = es.foldl (fun m e => m.apply e.1) m := by
  induction r with
  | refl => rfl
  | step hs _ ind =>
    have ⟨h₁, h₂⟩ := forall_mem_cons.mp h
    rw [ind h₂, foldl_cons]
    refine congrArg (List.foldl _ · _) (funext fun v => ?_)
    obtain ⟨dropped, he, hd⟩ := hs v
    have : dropped = 0 := Multiset.eq_zero_of_forall_notMem fun n hn => (hd n hn).1 (h₁ v)
    rwa [this, Multiset.add_zero] at he

end Bags

namespace MutableCsr

open Transition (Run FreeRun)

inductive Call where
  | insertEdge (v : ℕ) (dst : VertexId) (edgeId : UInt64)
  | batchPutEdges (groups : List RowEdgeBatch) (checkDuplicates : Bool)
  | deleteEdge (v : ℕ) (edgeId ts : UInt64)
  | deleteEdgeByDst (v : ℕ) (dst : VertexId) (ts : UInt64)
  | deleteEdgeAtPosition (v : ℕ) (position : EdgePosition) (expected ts : UInt64)
  | rollbackInsert (v : ℕ) (edgeId : UInt64)
  | revertDeleteByEdgeId (v : ℕ) (edgeId ts : UInt64)
  | revertDeleteAtPosition (v : ℕ) (position : EdgePosition) (expected ts : UInt64)
  | reserveForBatch (counts : List (ℕ × ℕ))
  | rebalanceRow (v : ℕ)
  | sortRow (v : ℕ)
  | compactOverflow (v : ℕ) (cutoff : UInt64)
  | compactVertex (v : ℕ) (cutoff : UInt64)
  | setTombstoneReuseCutoff (cutoff : UInt64)
  | refreshTombstoneReuseCutoff (fresh : UInt64)

section

variable (c : MutableCsr)

def perform : Call → MutableCsr
  | .insertEdge v dst edgeId => (c.insertEdge v dst edgeId).2
  | .batchPutEdges groups checkDuplicates => (c.batchPutEdges groups checkDuplicates).2
  | .deleteEdge v edgeId ts => (c.deleteEdge v edgeId ts).2
  | .deleteEdgeByDst v dst ts =>
    (c.deleteEdgeByDstReportingPositioned v dst ts).2
  | .deleteEdgeAtPosition v position expected ts =>
    (c.deleteEdgeAtPosition v position expected ts).2
  | .rollbackInsert v edgeId => (c.rollbackInsert v edgeId).2
  | .revertDeleteByEdgeId v edgeId ts => (c.revertDeleteByEdgeId v edgeId ts).2
  | .revertDeleteAtPosition v position expected ts =>
    (c.revertDeleteAtPosition v position expected ts).2
  | .reserveForBatch counts => c.reserveForBatch counts
  | .rebalanceRow v => (c.rebalanceRow v).2
  | .sortRow v => (c.sortRow v).2
  | .compactOverflow v cutoff => (c.compactOverflowForVertex v cutoff).2
  | .compactVertex v cutoff => (c.compactVertexWithReporting v cutoff).2
  | .setTombstoneReuseCutoff cutoff => c.setTombstoneReuseCutoff cutoff
  | .refreshTombstoneReuseCutoff fresh => c.refreshTombstoneReuseCutoff fresh

-- The entries that are visited, vertex by vertex.
def bags : Bags :=
  fun v => c.visitPhysical v

-- The edges of a batch, one by one.
def batchEdges (groups : List RowEdgeBatch) : List (ℕ × Nbr) :=
  groups.flatMap fun g => (newEntries g.2).map fun n => (g.1, n)

def holdsAt (v : ℕ) (position : EdgePosition) (edgeId : UInt64) : Bool :=
  (c.slotAtPosition v position).any (·.edgeId = edgeId)

-- What a call asks of the bags. A position stands for the edge that is expected there, and for
-- nothing if another one is.
def change : Call → Bags.Change
  | .insertEdge v dst edgeId =>
    (decodeEndpointPair dst).elim .keep fun key => .insert v (.new key edgeId)
  | .batchPutEdges groups checkDuplicates => .insertAll (batchEdges groups) checkDuplicates
  | .deleteEdge v edgeId ts => .delete v edgeId ts
  | .deleteEdgeByDst v dst ts =>
    (decodeEndpointPair dst).elim .keep fun key => .deleteKey v key ts
  | .deleteEdgeAtPosition v position expected ts =>
    if c.holdsAt v position expected then .delete v expected ts else .keep
  | .rollbackInsert v edgeId => .erase v edgeId
  | .revertDeleteByEdgeId v edgeId ts => .revert v edgeId ts
  | .revertDeleteAtPosition v position expected ts =>
    if c.holdsAt v position expected then .revert v expected ts else .keep
  | _ => .keep

-- The cutoff up to which deleted entries may go, which is none for most calls and vertices.
def activeCutoff : Call → ℕ → UInt64
  | .insertEdge v _ _ => update (fun _ => neverDeleted) v c.tombstoneReuseCutoff
  | .compactOverflow v cutoff => update (fun _ => neverDeleted) v cutoff
  | .compactVertex v cutoff => update (fun _ => neverDeleted) v cutoff
  | _ => fun _ => neverDeleted

def trace : MutableCsr → List Call → List Bags.Event
  | _, [] => []
  | c, call :: calls => (c.change call, c.activeCutoff call) :: trace (c.perform call) calls

def step (call : Call) : Option MutableCsr :=
  some (c.perform call)

-- The vertices that a call is about.
def Call.targets : Call → List ℕ
  | insertEdge v _ _ | deleteEdge v _ _ | deleteEdgeByDst v _ _ | deleteEdgeAtPosition v _ _ _
  | rollbackInsert v _ | revertDeleteByEdgeId v _ _ | revertDeleteAtPosition v _ _ _
  | rebalanceRow v | sortRow v | compactOverflow v _ | compactVertex v _ => [v]
  | batchPutEdges groups _ => groups.map Prod.fst
  | reserveForBatch _ | setTombstoneReuseCutoff _ | refreshTombstoneReuseCutoff _ => []

def Fresh (v : ℕ) (edgeId : UInt64) : Prop :=
  edgeId ≠ invalidEdgeId ∧ ∀ n ∈ c.entries v, n.edgeId ≠ edgeId

-- The entries under an id share their keys with no other live entry, or the row has no live set.
def KeyAlone (v : ℕ) (edgeId : UInt64) : Prop :=
  (c.row v).liveSet = none ∨
    ∀ n ∈ c.entries v, n.edgeId = edgeId → (liveKeys (c.entries v)).count n.key ≤ 1

-- The keys of a batch are new to its row.
def NewKeys (g : RowEdgeBatch) : Prop :=
  (g.2.map Prod.fst).Nodup ∧ ∀ e ∈ g.2, e.1 ∉ liveKeys (c.entries g.1)

def NewIds (g : RowEdgeBatch) : Prop :=
  (g.2.map Prod.snd).Nodup ∧ ∀ e ∈ g.2, c.Fresh g.1 e.2

-- The table after the rows that a call needs have been opened, which is when its array may be longest.
def opened : Call → MutableCsr
  | .insertEdge v _ _ => c.openRow v
  | .batchPutEdges groups _ => groups.foldl (fun c g => c.openRow g.1) c
  | .reserveForBatch counts => counts.foldl (fun c p => c.openRow p.1) c
  | _ => c

def Fits : Prop :=
  c.slots.length + c.rows.length + (c.rows.map fun r => (r.chunks.flatMap OverflowChunk.entries).length).sum < 2 ^ 32

instance : Decidable c.Fits :=
  inferInstanceAs (Decidable (_ < _))

def Consents : Call → Prop
  | .insertEdge v _ edgeId => c.Fresh v edgeId
  | .batchPutEdges groups checkDuplicates =>
    (groups.map Prod.fst).Nodup ∧ (∀ g ∈ groups, c.NewIds g) ∧
      (checkDuplicates = false → ∀ g ∈ groups, c.NewKeys g)
  | .deleteEdge v edgeId ts => ts ≠ neverDeleted ∧ c.KeyAlone v edgeId
  | .deleteEdgeAtPosition v _ expected ts => ts ≠ neverDeleted ∧ c.KeyAlone v expected
  | .deleteEdgeByDst _ _ ts => ts ≠ neverDeleted
  | _ => True

def Admits (call : Call) : Prop :=
  (c.opened call).Fits ∧ (c.perform call).Fits ∧ c.Consents call

end

-- The facts about a table that every admitted call preserves.
structure Sound (c : MutableCsr) : Prop where
  laid : c.Laid
  valid : ∀ v, ∀ n ∈ c.entries v, n.edgeId ≠ invalidEdgeId
  ids : ∀ v, ((c.entries v).map Nbr.edgeId).Nodup
  tracks : ∀ v, c.Tracks v

variable {c c' c'' : MutableCsr} {v w : ℕ}

section

variable (vertexCapacity overflowChunkEdges : ℕ)

@[simp]
theorem row_empty : (withOverflowChunkEdges vertexCapacity overflowChunkEdges).row v = .empty 0 := by
  simp only [row, withOverflowChunkEdges, getD_eq_getElem?_getD, getElem?_replicate]
  split <;> rfl

@[simp]
theorem entries_empty : (withOverflowChunkEdges vertexCapacity overflowChunkEdges).entries v = [] := by
  simp [entries, overflow, primary, Row.empty, Blocks.window_zero]

end

namespace Sound

theorem visitPhysical (h : c.Sound) (v : ℕ) : c.visitPhysical v = c.entries v := by
  have hf : (c.primary v).filter (·.edgeId ≠ invalidEdgeId) = c.primary v := by
    refine filter_eq_self.mpr fun n hn => ?_
    simpa using h.valid v n (mem_append_left _ hn)
  rw [MutableCsr.visitPhysical, hf, entries]

theorem bags (h : c.Sound) : c.bags = fun v => (c.entries v : Multiset Nbr) :=
  funext fun v => congrArg _ (h.visitPhysical v)

theorem unique (h : c.Sound) (hm : m ∈ c.entries v) (hn : n ∈ c.entries v) (he : m.edgeId = n.edgeId) : m = n :=
  inj_on_of_nodup_map (h.ids v) hm hn he

theorem empty (vertexCapacity overflowChunkEdges : ℕ) :
    (withOverflowChunkEdges vertexCapacity overflowChunkEdges).Sound := by
  refine ⟨⟨?_, ?_, ?_⟩, ?_, ?_, ?_⟩
  all_goals simp [Row.empty, Tracks, Indexed]

theorem same (h : c.Sound) (hs : Same c c') : c'.Sound where
  laid := hs.laid
  valid v := by rw [hs.entries]; exact h.valid v
  ids v := by rw [hs.entries]; exact h.ids v
  tracks v := by rw [Tracks, hs.entries, hs.liveSet]; exact h.tracks v

theorem withCutoff (h : c.Sound) (cutoff : UInt64) :
    { c with tombstoneReuseCutoff := cutoff : MutableCsr }.Sound :=
  ⟨⟨h.laid.degree_le, h.laid.fits, h.laid.apart⟩, h.valid, h.ids, h.tracks⟩

end Sound

section

variable {cutoff : UInt64} {es : List Nbr} {call : Call}

-- An admitted call does to the bags what it is asked to and leaves other rows as they are.
structure Simulates (c : MutableCsr) (call : Call) : Prop where
  sound : (c.perform call).Sound
  step : c.bags.Step (c.change call, c.activeCutoff call) (c.perform call).bags
  frame : ∀ w ∉ call.targets, (c.perform call).visitPhysical w = c.visitPhysical w

theorem Sound.effect (h : c.Sound) (he : Effect v cutoff c c' es)
    (hv : ∀ n ∈ es, n.edgeId ≠ invalidEdgeId) (hd : (es.map Nbr.edgeId).Nodup) (ht : c'.Tracks v) : c'.Sound := by
  obtain ⟨dropped, hp, _⟩ := he.content
  refine ⟨he.laid, fun w => ?_, fun w => ?_, fun w => ?_⟩
  all_goals by_cases hw : w = v
  · subst hw
    exact fun n hn => hv n (hp.mem_iff.mp (mem_append_left _ hn))
  · rw [he.entries hw]
    exact h.valid w
  · subst hw
    have hs := (hp.map Nbr.edgeId).nodup_iff.mpr hd
    rw [map_append] at hs
    exact hs.of_append_left
  · rw [he.entries hw]
    exact h.ids w
  · subst hw
    exact ht
  · rw [Tracks, he.entries hw, he.liveSet w hw]
    exact h.tracks w

theorem Effect.step (h : c.Sound) (h' : c'.Sound) (he : Effect v cutoff c c' es)
    (ha : c.bags.apply e.1 = update c.bags v es)
    (hc : e.2 = update (fun _ => neverDeleted) v cutoff) : c.bags.Step e c'.bags := by
  intro w
  rw [ha, hc, h'.bags, h.bags]
  by_cases hw : w = v
  case pos =>
    subst hw
    obtain ⟨dropped, hp, hd⟩ := he.content
    refine ⟨dropped, ?_, by simpa using hd⟩
    rw [update_self, Multiset.coe_add]
    exact Multiset.coe_eq_coe.mpr hp
  case neg =>
    refine ⟨0, ?_, by simp⟩
    rw [update_of_ne hw, Multiset.add_zero]
    exact congrArg _ (he.entries hw)

theorem Same.bags (h : c.Sound) (hs : Same c c') : c'.bags = c.bags := by
  rw [(h.same hs).bags, h.bags]
  exact funext fun v => congrArg _ (hs.entries v)

theorem simulates_of_same (h : c.Sound) (hs : Same c (c.perform call))
    (ha : c.bags.apply (c.change call) = c.bags) : Simulates c call where
  sound := h.same hs
  step v := ⟨0, by rw [hs.bags h, ha, Multiset.add_zero], by simp⟩
  frame w _ := by rw [(h.same hs).visitPhysical, h.visitPhysical, hs.entries]

theorem simulates_of_effect (h : c.Sound) (hs : Same c c')
    (he : Effect v cutoff c' (c.perform call) es) (hv : ∀ n ∈ es, n.edgeId ≠ invalidEdgeId)
    (hd : (es.map Nbr.edgeId).Nodup) (ht : (c.perform call).Tracks v)
    (ha : c.bags.apply (c.change call) = update c.bags v es)
    (hc : c.activeCutoff call = update (fun _ => neverDeleted) v cutoff)
    (hw : call.targets = [v]) : Simulates c call := by
  have h₁ := h.same hs
  have h' := h₁.effect he hv hd ht
  refine ⟨h', ?_, fun w hw' => ?_⟩
  · rw [← hs.bags h] at ha ⊢
    exact he.step h₁ h' ha hc
  · have hw : w ≠ v := by simpa [hw] using hw'
    rw [h'.visitPhysical, h.visitPhysical, he.entries hw, hs.entries]

theorem noCutoff (v : ℕ) :
    (fun _ => neverDeleted : ℕ → UInt64) = update (fun _ => neverDeleted) v neverDeleted :=
  (update_eq_self v _).symm

theorem mem_bags_liveKeys (h : c.Sound) : key ∈ Bags.liveKeys (c.bags v) ↔ key ∈ liveKeys (c.entries v) := by
  rw [h.bags]
  simp [Bags.liveKeys, liveKeys]

theorem isKeyLive_iff (h : c.Tracks v) : c.isKeyLive v key ↔ key ∈ liveKeys (c.entries v) := by
  rw [isKeyLive]
  split
  case h_1 set hs =>
    have ⟨ho, hk⟩ := h set hs
    rw [LiveKeySet.contains_iff ho, hk]
  case h_2 => simp [mem_liveKeys]

theorem simulates_insertEdge (h : c.Sound) (hf : c.Fresh v edgeId) : Simulates c (.insertEdge v dst edgeId) := by
  cases hk : decodeEndpointPair dst with
  | none =>
    refine simulates_of_same h ?_ (by simp [change, hk, Bags.apply])
    rw [perform, insertEdge, hk]
    exact .refl h.laid
  | some key =>
    have ho := Same.openRow h.laid v
    have ht := (h.same ho).tracks v
    by_cases hl : (c.openRow v).isKeyLive v key
    case pos =>
      refine simulates_of_same h ?_ ?_
      · simpa [perform, insertEdge, hk, hl] using ho
      · rw [isKeyLive_iff ht, ho.entries] at hl
        rw [change, hk]
        exact if_pos ((mem_bags_liveKeys h).mpr hl)
    case neg =>
      have hp : c.perform (.insertEdge v dst edgeId) = (c.openRow v).place v (.new key edgeId) := by
        simp [perform, insertEdge, hk, hl]
      rw [isKeyLive_iff ht, ho.entries] at hl
      have he := place_effect (n := .new key edgeId) ho.laid (lt_openRow v) (Nbr.isLive_new ..)
      have hi := (place_yields (n := .new key edgeId) ho.laid (lt_openRow v) (Nbr.isLive_new ..)).2.2 ht
      rw [ho.entries, ho.cutoff] at he
      refine simulates_of_effect h ho (hp ▸ he) ?_ ?_ (hp ▸ hi) ?_ rfl rfl
      · simpa using ⟨hf.1, h.valid v⟩
      · rw [map_cons, nodup_cons]
        refine ⟨fun hm => ?_, h.ids v⟩
        obtain ⟨n, hn, he⟩ := mem_map.mp hm
        exact hf.2 n hn he
      · rw [change, hk]
        refine (if_neg fun hm => hl ((mem_bags_liveKeys h).mp hm)).trans ?_
        rw [h.bags]
        rfl

section

variable {n : Nbr} {l₁ l₂ : List Nbr} {p : Nbr → Bool} {edgeId ts : UInt64}

-- A change of the entries under one id is a change of one entry.
theorem map_of_nodup (hd : ((l₁ ++ n :: l₂).map Nbr.edgeId).Nodup) (hn : p n)
    (hp : ∀ m, p m → m.edgeId = n.edgeId) :
    (l₁ ++ n :: l₂).map (fun m => if p m then m.stamp ts else m) = l₁ ++ n.stamp ts :: l₂ := by
  rw [map_append, map_cons, nodup_append, nodup_cons] at hd
  have hs {l : List Nbr} (hl : ∀ m ∈ l, m.edgeId ≠ n.edgeId) :
      l.map (fun m => if p m then m.stamp ts else m) = l := by
    refine (map_congr_left fun m hm => ?_).trans (map_id l)
    exact if_neg fun hpm => hl m hm (hp m hpm)
  rw [map_append, map_cons, if_pos hn, hs fun m hm he => ?_, hs fun m hm he => ?_]
  · exact hd.2.1.1 (mem_map.mpr ⟨m, hm, he⟩)
  · exact hd.2.2 _ (mem_map_of_mem hm) _ (mem_cons_self ..) he

theorem bags_map_of_none (h : c.Sound) (hp : ∀ m ∈ c.entries v, p m = false) : c.bags.map v p ts = c.bags := by
  rw [Bags.map, h.bags, update_eq_self_iff, Multiset.map_coe]
  refine congrArg _ ((map_congr_left fun m hm => ?_).trans (map_id _))
  simp [hp m hm]

theorem bags_map_of_some (h : c.Sound) (hl : c.entries v = l₁ ++ n :: l₂) (hn : p n)
    (hp : ∀ m, p m → m.edgeId = n.edgeId) :
    c.bags.map v p ts = update c.bags v ((l₁ ++ n.stamp ts :: l₂ : List Nbr) : Multiset Nbr) := by
  rw [Bags.map, h.bags, Multiset.map_coe, hl, map_of_nodup (hl ▸ h.ids v) hn hp]

variable {call : Call} {cond : List Nbr → Prop}

theorem simulates_of_replaces (h : c.Sound) (hr : Replaces v c (c.perform call) n (n.stamp ts) cond)
    (hc : ∀ l₁ l₂, c.entries v = l₁ ++ n :: l₂ → cond (l₁ ++ l₂))
    (hm : c.bags.apply (c.change call) = c.bags.map v p ts) (hn : p n) (hp : ∀ m, p m → m.edgeId = n.edgeId)
    (ha : c.activeCutoff call = fun _ => neverDeleted) (hw : call.targets = [v]) :
    Simulates c call := by
  obtain ⟨l₁, l₂, hl, he, ht⟩ := hr
  have hi : (l₁ ++ n.stamp ts :: l₂).map Nbr.edgeId = (c.entries v).map Nbr.edgeId := by simp [hl]
  refine simulates_of_effect h (.refl h.laid) he (fun m hm => ?_) (hi ▸ h.ids v)
    (ht (hc l₁ l₂ hl) (h.tracks v)) (hm.trans (bags_map_of_some h hl hn hp))
    (ha.trans (noCutoff v)) hw
  have hm : m.edgeId ∈ (c.entries v).map Nbr.edgeId := hi ▸ mem_map_of_mem hm
  obtain ⟨m', hm', he⟩ := mem_map.mp hm
  exact he ▸ h.valid v m' hm'

theorem KeyAlone.alone (h : c.KeyAlone v n.edgeId) (hn : n.isLive) (hl : c.entries v = l₁ ++ n :: l₂) :
    c.Alone v n (l₁ ++ l₂) := by
  refine h.imp id fun h hm => ?_
  have hc := h n (by simp [hl]) rfl
  rw [hl, liveKeys_middle_perm.count_eq, liveKeys_singleton, if_pos hn, count_append, count_singleton_self] at hc
  have := count_pos_iff.mpr hm
  omega

theorem simulates_deleteEdge (h : c.Sound) (ht : ts ≠ neverDeleted) (hk : c.KeyAlone v edgeId) :
    Simulates c (.deleteEdge v edgeId ts) := by
  by_cases hf : ∀ position n, c.locateEdgeId v edgeId = some (position, n) → n.isLive = false
  case pos =>
    refine simulates_of_same h ?_ (bags_map_of_none h fun m hm => ?_)
    · rw [perform, deleteEdge_of_dead hf]
      exact .refl h.laid
    · cases hl : c.locateEdgeId v edgeId with
      | none => simp [locateEdgeId_eq_none hl m hm]
      | some q =>
        obtain ⟨hs, rfl⟩ := locateEdgeId_eq_some hl
        by_cases he : m.edgeId = q.2.edgeId
        case pos =>
          rw [h.unique hm (mem_entries_of_slot hs) he]
          simp [hf q.1 q.2 hl]
        case neg => simp [he]
  case neg =>
    simp only [not_forall, Bool.not_eq_false] at hf
    obtain ⟨position, n, hf, hn⟩ := hf
    obtain ⟨_, rfl⟩ := locateEdgeId_eq_some hf
    exact simulates_of_replaces h (deleteEdge_replaces h.laid hf hn ht)
      (fun _ _ hl => hk.alone hn hl) rfl (by simp [hn]) (by simp +contextual) rfl rfl

variable {position : EdgePosition}

theorem holdsAt_iff :
    c.holdsAt v position edgeId ↔ ∃ n, c.slotAtPosition v position = some n ∧ n.edgeId = edgeId := by
  simp [holdsAt, Option.any_eq_true]

theorem simulates_deleteEdgeAtPosition (h : c.Sound) (ht : ts ≠ neverDeleted)
    (hk : c.KeyAlone v edgeId) : Simulates c (.deleteEdgeAtPosition v position edgeId ts) := by
  by_cases hp : c.holdsAt v position edgeId
  case neg =>
    refine simulates_of_same h ?_ (by rw [change, if_neg hp]; rfl)
    rw [perform, deleteEdgeAtPosition_of_dead fun n hn he => absurd (holdsAt_iff.mpr ⟨n, hn, he⟩) hp]
    exact .refl h.laid
  case pos =>
    obtain ⟨n, hn, rfl⟩ := holdsAt_iff.mp hp
    have ha : c.bags.apply (c.change (.deleteEdgeAtPosition v position n.edgeId ts)) =
        c.bags.map v (fun m => m.edgeId = n.edgeId && m.isLive) ts := by
      rw [change, if_pos hp]
      rfl
    cases hl : n.isLive with
    | false =>
      refine simulates_of_same h ?_ (ha.trans (bags_map_of_none h fun m hm => ?_))
      · rw [perform, deleteEdgeAtPosition_of_dead fun m hm _ => ?_]
        · exact .refl h.laid
        · cases hn.symm.trans hm
          exact hl
      · by_cases he : m.edgeId = n.edgeId
        case pos => simp [h.unique hm (mem_entries_of_slot hn) he, hl]
        case neg => simp [he]
    | true =>
      have hr := stampAt_replaces h.laid hn hl ht
      rw [← deleteEdgeAtPosition_of_live hn hl] at hr
      exact simulates_of_replaces h hr (fun _ _ hs => hk.alone hl hs) ha (by simp [hl])
        (by simp +contextual) rfl rfl

theorem simulates_revertDeleteByEdgeId (h : c.Sound) : Simulates c (.revertDeleteByEdgeId v edgeId ts) := by
  rcases revertDeleteByEdgeId_cases h.laid v edgeId ts with ⟨hc, hn⟩ | ⟨n, rfl, hn, hr⟩
  · refine simulates_of_same h ?_ (bags_map_of_none h fun m hm => ?_)
    · rw [perform, hc]
      exact .refl h.laid
    · by_cases he : m.edgeId = edgeId
      case pos => simp [hn (h.ids v) m hm he]
      case neg => simp [he]
  · exact simulates_of_replaces h hr (fun _ _ _ => trivial) rfl (by simp [hn])
      (by simp +contextual) rfl rfl

theorem simulates_revertDeleteAtPosition (h : c.Sound) :
    Simulates c (.revertDeleteAtPosition v position edgeId ts) := by
  have ha (hp : c.holdsAt v position edgeId) :
      c.bags.apply (c.change (.revertDeleteAtPosition v position edgeId ts)) =
        c.bags.map v (fun m => m.edgeId = edgeId && m.canRevertDelete ts) neverDeleted := by
    rw [change, if_pos hp]
    rfl
  rcases revertDeleteAtPosition_cases h.laid v position edgeId ts with
    ⟨hc, hn⟩ | ⟨n, hs, rfl, hn, hr⟩
  · refine simulates_of_same h (by rw [perform, hc]; exact .refl h.laid) ?_
    by_cases hp : c.holdsAt v position edgeId
    case neg => rw [change, if_neg hp]; rfl
    case pos =>
      obtain ⟨n, hs, rfl⟩ := holdsAt_iff.mp hp
      refine (ha hp).trans (bags_map_of_none h fun m hm => ?_)
      by_cases he : m.edgeId = n.edgeId
      case pos => simp [h.unique hm (mem_entries_of_slot hs) he, hn n hs rfl]
      case neg => simp [he]
  · exact simulates_of_replaces h hr (fun _ _ _ => trivial) (ha (holdsAt_iff.mpr ⟨n, hs, rfl⟩))
      (by simp [hn]) (by simp +contextual) rfl rfl

end

theorem simulates_deleteEdgeByDst (h : c.Sound)
    (ht : ts ≠ neverDeleted) : Simulates c (.deleteEdgeByDst v dst ts) := by
  cases hk : decodeEndpointPair dst with
  | none =>
    refine simulates_of_same h ?_ (by simp [change, hk, Bags.apply])
    rw [perform, deleteByDst_of_none hk]
    exact .refl h.laid
  | some key =>
    have ⟨he, hi⟩ := deleteByDst_effect (v := v) h.laid hk ht
    have hd : ((c.entries v).map (strike key ts)).map Nbr.edgeId = (c.entries v).map Nbr.edgeId := by
      rw [map_map]
      refine map_congr_left fun n _ => ?_
      rw [comp_apply, strike]
      split <;> rfl
    refine simulates_of_effect h (.refl h.laid) he (fun m hm => ?_) (hd ▸ h.ids v) (hi (h.tracks v))
      ?_ (noCutoff v) rfl
    · have hm : m.edgeId ∈ (c.entries v).map Nbr.edgeId := hd ▸ mem_map_of_mem hm
      obtain ⟨m', hm', he⟩ := mem_map.mp hm
      exact he ▸ h.valid v m' hm'
    · rw [change, hk, h.bags]
      rfl

theorem simulates_rollbackInsert (h : c.Sound) : Simulates c (.rollbackInsert v edgeId) := by
  cases hf : c.locateEdgeId v edgeId with
  | none =>
    refine simulates_of_same h ?_ ?_
    · rw [perform, rollbackInsert_of_none hf]
      exact .refl h.laid
    · rw [change, Bags.apply, h.bags, update_eq_self_iff]
      refine Multiset.filter_eq_self.mpr fun n hn => ?_
      exact locateEdgeId_eq_none hf n hn
  | some q =>
    obtain ⟨es, hp, he, hi⟩ := rollbackInsert_erases h.laid hf
    obtain ⟨_, rfl⟩ := locateEdgeId_eq_some hf
    have hd := (hp.map Nbr.edgeId).nodup_iff.mp (h.ids v)
    rw [map_cons, nodup_cons] at hd
    refine simulates_of_effect h (.refl h.laid) he (fun m hm => ?_) hd.2 (hi (h.tracks v)) ?_
      (noCutoff v) rfl
    · exact h.valid v m (hp.mem_iff.mpr (mem_cons_of_mem _ hm))
    · have hs : ∀ n ∈ es, n.edgeId ≠ q.2.edgeId :=
        fun n hn he => hd.1 (mem_map.mpr ⟨n, hn, he⟩)
      have hb : c.bags v = q.2 ::ₘ (es : Multiset Nbr) := by
        rw [h.bags, Multiset.cons_coe]
        exact Multiset.coe_eq_coe.mpr hp
      rw [change, Bags.apply, hb, Multiset.filter_cons_of_neg _ (by simp), Multiset.filter_eq_self.mpr hs]

-- Rows are only put into another order, or entries taken away that the cutoff allows for.
theorem simulates_maintenance (h : c.Sound) (he : Effect v cutoff c (c.perform call) (c.entries v))
    (hi : c.Tracks v → (c.perform call).Tracks v) (ha : c.change call = .keep)
    (hc : c.activeCutoff call = update (fun _ => neverDeleted) v cutoff)
    (hw : call.targets = [v]) : Simulates c call := by
  refine simulates_of_effect h (.refl h.laid) he (h.valid v) (h.ids v) (hi (h.tracks v)) ?_ hc hw
  rw [ha, h.bags, eq_comm]
  exact update_eq_self v _

end

section

variable {groups : List RowEdgeBatch} {g : RowEdgeBatch}

theorem checkGroup_eq_ok (h : c.Sound) : c.checkGroup g = .ok () ↔ c.NewKeys g := by
  simp only [checkGroup, NewKeys]
  split
  case isTrue hn => simp [hn]
  case isFalse hn =>
    rw [not_not] at hn
    split
    case h_1 key id hf =>
      have hm := mem_of_find?_eq_some hf
      have hl := find?_some hf
      simp only [reduceCtorEq, false_iff, not_and, not_forall]
      refine fun _ => ⟨_, hm, not_not.mpr (mem_liveKeys.mpr ?_)⟩
      simpa [h.visitPhysical] using hl
    case h_2 hf =>
      refine iff_of_true rfl ⟨hn, fun e he hm => find?_eq_none.mp hf e he ?_⟩
      simpa [h.visitPhysical, mem_liveKeys] using hm

theorem insert_row {ns : List Nbr} (hl : ∀ n ∈ ns, n.isLive)
    (hd : (ns.map Nbr.key).Nodup) (hn : ∀ n ∈ ns, n.key ∉ Bags.liveKeys (m v)) :
    (ns.map fun n => (v, n)).foldl Bags.insert m =
      update m v ((ns : Multiset Nbr) + m v) := by
  induction ns generalizing m with
  | nil => simp
  | cons n ns ind =>
    have ⟨hn₁, hn₂⟩ := forall_mem_cons.mp hn
    have ⟨hl₁, hl₂⟩ := forall_mem_cons.mp hl
    have ⟨hd₁, hd₂⟩ := nodup_cons.mp hd
    have hi : m.insert (v, n) = update m v (n ::ₘ m v) := if_neg hn₁
    rw [map_cons, foldl_cons, hi, ind hl₂ hd₂ fun n' hm => ?_]
    · rw [update_self, update_idem, ← Multiset.cons_coe, Multiset.add_cons, Multiset.cons_add]
    · have hc : Bags.liveKeys (n ::ₘ m v) = n.key ::ₘ Bags.liveKeys (m v) := by
        simp [Bags.liveKeys, hl₁]
      rw [update_self, hc, Multiset.mem_cons, not_or]
      exact ⟨fun he => hd₁ (he ▸ mem_map_of_mem hm), hn₂ n' hm⟩

theorem putGroup_sound (h : c.Sound) (hv : g.1 < c.vertexCapacity) (hi : c.NewIds g)
    (hk : c.NewKeys g) : (c.putGroup g).Sound ∧ (c.putGroup g).vertexCapacity = c.vertexCapacity ∧
    (c.putGroup g).bags = ((newEntries g.2).map fun n => (g.1, n)).foldl Bags.insert c.bags ∧
    ∀ w ≠ g.1, (c.putGroup g).entries w = c.entries w := by
  have ⟨he, ht⟩ := putGroup_effect h.laid hv
  have hids : (newEntries g.2).map Nbr.edgeId = g.2.map Prod.snd := by
    rw [newEntries, map_map]
    rfl
  have hkeys : (newEntries g.2).map Nbr.key = g.2.map Prod.fst := by
    rw [newEntries, map_map]
    rfl
  have hnew : ∀ n ∈ newEntries g.2, c.Fresh g.1 n.edgeId ∧ n.isLive ∧
      n.key ∉ Bags.liveKeys (c.bags g.1) := by
    intro n hn
    obtain ⟨e, hm, rfl⟩ := mem_map.mp hn
    exact ⟨hi.2 e hm, rfl, fun hl => hk.2 e hm ((mem_bags_liveKeys h).mp hl)⟩
  have hs : (c.putGroup g).Sound := by
    refine h.effect he (fun n hn => ?_) ?_ ht
    · rcases mem_append.mp hn with hn | hn
      · exact (hnew n hn).1.1
      · exact h.valid g.1 n hn
    · rw [map_append, nodup_append]
      refine ⟨hids ▸ hi.1, h.ids g.1, ?_⟩
      intro a ha b hb hab
      obtain ⟨n, hn, rfl⟩ := mem_map.mp ha
      obtain ⟨n', hn', rfl⟩ := mem_map.mp hb
      exact (hnew n hn).1.2 n' hn' hab.symm
  refine ⟨hs, he.capacity, ?_, fun w hw => he.entries hw⟩
  rw [insert_row (fun n hn => (hnew n hn).2.1) (hkeys ▸ hk.1) fun n hn => (hnew n hn).2.2]
  funext w
  by_cases hw : w = g.1
  case pos =>
    subst hw
    rw [update_self, hs.bags, h.bags, Multiset.coe_add]
    exact Multiset.coe_eq_coe.mpr he.perm
  case neg =>
    rw [update_of_ne hw, hs.bags, h.bags]
    exact congrArg _ (he.entries hw)

theorem putGroups_sound (h : c.Sound) (hn : (groups.map Prod.fst).Nodup)
    (hv : ∀ g ∈ groups, g.1 < c.vertexCapacity) (hi : ∀ g ∈ groups, c.NewIds g)
    (hk : ∀ g ∈ groups, c.NewKeys g) : (groups.foldl putGroup c).Sound ∧
    (groups.foldl putGroup c).bags = (batchEdges groups).foldl Bags.insert c.bags ∧
    ∀ w ∉ groups.map Prod.fst, (groups.foldl putGroup c).entries w = c.entries w := by
  induction groups generalizing c with
  | nil => exact ⟨h, rfl, fun _ _ => rfl⟩
  | cons g gs ind =>
    have ⟨hv₁, hv₂⟩ := forall_mem_cons.mp hv
    have ⟨hi₁, hi₂⟩ := forall_mem_cons.mp hi
    have ⟨hk₁, hk₂⟩ := forall_mem_cons.mp hk
    have ⟨hn₁, hn₂⟩ := nodup_cons.mp hn
    have ⟨hs, hc, hb, he⟩ := putGroup_sound h hv₁ hi₁ hk₁
    -- the other groups are for other rows
    have ho : ∀ g' ∈ gs, (c.putGroup g).entries g'.1 = c.entries g'.1 :=
      fun g' hg => he g'.1 fun hw => hn₁ (hw ▸ mem_map_of_mem hg)
    have ⟨hs', hb', he'⟩ := ind hs hn₂ (fun g' hg => hc ▸ hv₂ g' hg)
      (fun g' hg => by simpa only [NewIds, Fresh, ho g' hg] using hi₂ g' hg)
      (fun g' hg => by simpa only [NewKeys, ho g' hg] using hk₂ g' hg)
    refine ⟨hs', ?_, fun w hw => ?_⟩
    · rw [batchEdges, flatMap_cons, foldl_append, ← hb]
      exact hb'
    · rw [map_cons, mem_cons, not_or] at hw
      exact (he' w hw.2).trans (he w hw.1)

theorem accepts_iff (h : c.Sound) (hn : (groups.map Prod.fst).Nodup) :
    c.bags.Accepts (batchEdges groups) ↔ ∀ g ∈ groups, c.NewKeys g := by
  have hm : (batchEdges groups).map (fun e => (e.1, e.2.key)) =
      groups.flatMap fun g => (g.2.map Prod.fst).map (Prod.mk g.1) := by
    simp only [batchEdges, map_flatMap, newEntries, map_map]
    rfl
  have hl : (∀ e ∈ batchEdges groups, e.2.key ∉ Bags.liveKeys (c.bags e.1)) ↔
      ∀ g ∈ groups, ∀ e ∈ g.2, e.1 ∉ liveKeys (c.entries g.1) := by
    simp only [batchEdges, newEntries, mem_flatMap, mem_map, mem_bags_liveKeys h]
    constructor
    · exact fun hf g hg e he => hf _ ⟨g, hg, _, ⟨e, he, rfl⟩, rfl⟩
    · rintro hf _ ⟨g, hg, _, ⟨e, he, rfl⟩, rfl⟩
      exact hf g hg e he
  -- groups for different rows have nothing in common
  have hp : groups.Pairwise (onFun List.Disjoint fun g : RowEdgeBatch =>
      (g.2.map Prod.fst).map (Prod.mk g.1)) := by
    refine (pairwise_map.mp hn).imp fun {a b} hab x hx hx' => hab ?_
    obtain ⟨k, -, rfl⟩ := mem_map.mp hx
    obtain ⟨k', -, he⟩ := mem_map.mp hx'
    exact (Prod.mk.inj he).1.symm
  have hd (g : RowEdgeBatch) :
      ((g.2.map Prod.fst).map (Prod.mk g.1)).Nodup ↔ (g.2.map Prod.fst).Nodup :=
    nodup_map_iff (Prod.mk_right_injective g.1)
  rw [Bags.Accepts, hm, hl, nodup_flatMap]
  simp only [hd, hp, and_true, NewKeys]
  exact ⟨fun hf g hg => ⟨hf.1 g hg, hf.2 g hg⟩, fun hf => ⟨fun g hg => (hf g hg).1, fun g hg => (hf g hg).2⟩⟩

theorem simulates_batchPutEdges (h : c.Sound) (ha : c.Consents (.batchPutEdges groups checkDuplicates)) :
    Simulates c (.batchPutEdges groups checkDuplicates) := by
  obtain ⟨hn, hi, hu⟩ := ha
  have hacc := accepts_iff h hn
  by_cases hk : ∀ g ∈ groups, c.NewKeys g
  case neg =>
    have hc : checkDuplicates = true := by
      cases checkDuplicates with
      | true => rfl
      | false => exact absurd (hu rfl) hk
    subst hc
    refine simulates_of_same h ?_ (if_pos ⟨rfl, fun ha => hk (hacc.mp ha)⟩)
    rw [perform, batchPutEdges, if_pos rfl]
    split
    case h_1 => exact .refl h.laid
    case h_2 u he =>
      exact absurd (fun g hg => (checkGroup_eq_ok h).mp (Except.forM_eq_ok.mp he g hg)) hk
  case pos =>
    have hc : (if checkDuplicates then groups.forM c.checkGroup else .ok ()) = .ok () := by
      split
      case isTrue => exact Except.forM_eq_ok.mpr fun g hg => (checkGroup_eq_ok h).mpr (hk g hg)
      case isFalse => rfl
    have hr := Same.reserveForBatch h.laid (groups.map fun g => (g.1, g.2.length))
    have hp : c.perform (.batchPutEdges groups checkDuplicates) =
        groups.foldl putGroup (c.reserveForBatch (groups.map fun g => (g.1, g.2.length))) := by
      rw [perform, batchPutEdges, hc]
    have hv : ∀ g ∈ groups, g.1 <
        (c.reserveForBatch (groups.map fun g => (g.1, g.2.length))).vertexCapacity := by
      intro g hg
      refine Same.lt_reserveForBatch h.laid ?_
      rw [map_map]
      exact mem_map_of_mem hg
    have ⟨hs, hb, he⟩ := putGroups_sound (h.same hr) hn hv
      (fun g hg => by simpa only [NewIds, Fresh, hr.entries] using hi g hg)
      (fun g hg => by simpa only [NewKeys, hr.entries] using hk g hg)
    refine ⟨hp ▸ hs, fun w => ⟨0, ?_, by simp⟩, fun w hw => ?_⟩
    · rw [hp, hb, hr.bags h, Multiset.add_zero]
      exact congrFun (if_neg fun hf => hf.2 (hacc.mpr hk)).symm w
    · rw [hp, hs.visitPhysical, h.visitPhysical, he w hw, hr.entries]

end

section

theorem Simulates.of_consents (h : c.Sound) (ha : c.Consents call) : Simulates c call := by
  cases call with
  | insertEdge v dst edgeId => exact simulates_insertEdge h ha
  | batchPutEdges groups checkDuplicates => exact simulates_batchPutEdges h ha
  | deleteEdge v edgeId ts => exact simulates_deleteEdge h ha.1 ha.2
  | deleteEdgeByDst v dst ts => exact simulates_deleteEdgeByDst h ha
  | deleteEdgeAtPosition v p edgeId ts => exact simulates_deleteEdgeAtPosition h ha.1 ha.2
  | rollbackInsert v edgeId => exact simulates_rollbackInsert h
  | revertDeleteByEdgeId v edgeId ts => exact simulates_revertDeleteByEdgeId h
  | revertDeleteAtPosition v p edgeId ts => exact simulates_revertDeleteAtPosition h
  | reserveForBatch counts =>
    exact simulates_of_same h (.reserveForBatch h.laid counts) rfl
  | rebalanceRow v =>
    have ⟨he, hi⟩ := rebalanceRow_effect h.laid v
    exact simulates_maintenance h he hi rfl (noCutoff v) rfl
  | sortRow v =>
    have ⟨he, hi⟩ := sortRow_effect h.laid v
    exact simulates_maintenance h he hi rfl (noCutoff v) rfl
  | compactOverflow v cutoff =>
    have ⟨he, hi⟩ := compactOverflow_effect h.laid v cutoff
    exact simulates_maintenance h he hi rfl rfl rfl
  | compactVertex v cutoff =>
    have ⟨he, hi⟩ := compactVertex_effect h.laid v cutoff
    exact simulates_maintenance h he hi rfl rfl rfl
  | setTombstoneReuseCutoff | refreshTombstoneReuseCutoff =>
    exact ⟨h.withCutoff _, fun v => ⟨0, Multiset.add_zero _, by simp⟩, fun _ _ => rfl⟩

theorem Sound.run (h : c.Sound) (r : Run step Admits c calls c') :
    c'.Sound ∧ Bags.Run c.bags (trace c calls) c'.bags := by
  induction r with
  | refl => exact ⟨h, .refl⟩
  | step ha hs _ hi =>
    cases hs
    have hc := Simulates.of_consents h ha.2.2
    have ⟨hs', hr⟩ := hi hc.sound
    exact ⟨hs', .step hc.step hr⟩

variable {vertexCapacity overflowChunkEdges : ℕ} {calls : List Call}

theorem calls_refine_bags
    (r : Run step Admits (withOverflowChunkEdges vertexCapacity overflowChunkEdges) calls c) :
    Bags.Run (fun _ => 0) (trace (withOverflowChunkEdges vertexCapacity overflowChunkEdges) calls)
      c.bags ∧ ∀ call, c.Admits call → ∀ w ∉ call.targets,
      (c.perform call).visitPhysical w = c.visitPhysical w := by
  have hs := Sound.empty vertexCapacity overflowChunkEdges
  have ⟨hc, hr⟩ := hs.run r
  have hz : (withOverflowChunkEdges vertexCapacity overflowChunkEdges).bags = fun _ => 0 := by
    rw [hs.bags]
    simp
  exact ⟨hz ▸ hr, fun call ha => (Simulates.of_consents hc ha.2.2).frame⟩

section

variable (c : MutableCsr)

instance {v : ℕ} {edgeId : UInt64} : Decidable (c.Fresh v edgeId) :=
  inferInstanceAs (Decidable (_ ∧ _))

instance {v : ℕ} {edgeId : UInt64} : Decidable (c.KeyAlone v edgeId) :=
  inferInstanceAs (Decidable (_ ∨ _))

instance {g : RowEdgeBatch} : Decidable (c.NewKeys g) :=
  inferInstanceAs (Decidable (_ ∧ _))

instance {g : RowEdgeBatch} : Decidable (c.NewIds g) :=
  inferInstanceAs (Decidable (_ ∧ _))

instance : ∀ call, Decidable (c.Consents call)
  | .insertEdge v _ edgeId => inferInstanceAs (Decidable (c.Fresh v edgeId))
  | .batchPutEdges _ _ => inferInstanceAs (Decidable (_ ∧ _ ∧ (_ → _)))
  | .deleteEdge v edgeId _ => inferInstanceAs (Decidable (_ ∧ c.KeyAlone v edgeId))
  | .deleteEdgeAtPosition v _ expected _ => inferInstanceAs (Decidable (_ ∧ c.KeyAlone v expected))
  | .deleteEdgeByDst _ _ ts => inferInstanceAs (Decidable (ts ≠ neverDeleted))
  | .rollbackInsert _ _ | .revertDeleteByEdgeId _ _ _ | .revertDeleteAtPosition _ _ _ _
  | .reserveForBatch _ | .rebalanceRow _ | .sortRow _ | .compactOverflow _ _ | .compactVertex _ _
  | .setTombstoneReuseCutoff _ | .refreshTombstoneReuseCutoff _ => .isTrue trivial

instance (call : Call) : Decidable (c.Admits call) :=
  inferInstanceAs (Decidable (_ ∧ _ ∧ _))

end

-- As many edges as a row needs to get a live set.
def wide : List Call :=
  (List.range 9).map fun i => .insertEdge 0 (edgeEndpointKey (.ofNat i) 0) (.ofNat i)

-- The deleted edge is inserted again and its traces are removed.
theorem calls_refine_bags_reinsert : ∃ calls c, Run step Admits (withOverflowChunkEdges 1 4096) calls c ∧
      Bags.Run (fun _ => 0) (trace (withOverflowChunkEdges 1 4096) calls) c.bags := by
  let calls := wide ++
    [Call.deleteEdge 0 0 5, .insertEdge 0 (edgeEndpointKey 0 0) 9, .compactVertex 0 7]
  have ⟨c, r, _⟩ := Run.exists_of_checked step (withOverflowChunkEdges 1 4096) calls (fun _ => true)
    (g := fun c call => decide (c.Admits call)) (fun _ _ h => of_decide_eq_true h)
    (by decide +kernel)
  exact ⟨calls, c, r, (calls_refine_bags r).1⟩

-- No two rows share slots, no row holds an id twice, and the live set of a row answers as a scan does.
theorem calls_keep_layout
    (r : Run step Admits (withOverflowChunkEdges vertexCapacity overflowChunkEdges) calls c) :
    c.Laid ∧ ∀ v, ((c.visitPhysical v).map Nbr.edgeId).Nodup ∧ ∀ key,
      c.isKeyLive v key ↔ ∃ n ∈ c.visitPhysical v, n.isLive ∧ n.key = key := by
  have hs := ((Sound.empty vertexCapacity overflowChunkEdges).run r).1
  refine ⟨hs.laid, fun v => ?_⟩
  rw [hs.visitPhysical]
  exact ⟨hs.ids v, fun key => (isKeyLive_iff (hs.tracks v)).trans mem_liveKeys⟩

theorem calls_keep_layout_wide : ∃ c : MutableCsr, ((c.row 0).liveSet.isSome ∧ c.Laid) ∧
    (c.isKeyLive 0 ⟨4, 0⟩ ↔ ∃ n ∈ c.visitPhysical 0, n.isLive ∧ n.key = ⟨4, 0⟩) := by
  obtain ⟨c, r, h⟩ := Run.exists_of_checked step (withOverflowChunkEdges 1 4096) wide
    (fun c => (c.row 0).liveSet.isSome) (g := fun c call => decide (c.Admits call))
    (fun _ _ h => of_decide_eq_true h) (by decide +kernel)
  exact ⟨c, ⟨h, (calls_keep_layout r).1⟩, ((calls_keep_layout r).2 0).2 _⟩

def Call.newIds : Call → List UInt64
  | insertEdge _ _ edgeId => [edgeId]
  | batchPutEdges groups _ => groups.flatMap fun g => g.2.map Prod.snd
  | _ => []

-- No cutoff is active for a call.
def keepsAll (c : MutableCsr) : Call → Bool
  | .insertEdge _ _ _ => c.tombstoneReuseCutoff = neverDeleted
  | .compactOverflow _ _ | .compactVertex _ _ => false
  | _ => true

theorem cutoff_of_keepsAll (h : c.keepsAll call) (v : ℕ) : c.activeCutoff call v = neverDeleted := by
  cases call with
  | insertEdge w _ _ =>
    have hc : c.tombstoneReuseCutoff = neverDeleted := by simpa [keepsAll] using h
    simp only [activeCutoff, hc, ← noCutoff]
  | compactOverflow _ _ | compactVertex _ _ => cases h
  | _ => rfl

def allKept : MutableCsr → List Call → Bool
  | _, [] => true
  | c, call :: calls => c.keepsAll call && allKept (c.perform call) calls

theorem cutoffs_of_allKept (h : allKept c calls) : ∀ e ∈ trace c calls, ∀ v, e.2 v = neverDeleted := by
  induction calls generalizing c with
  | nil => nofun
  | cons call calls ind =>
    have ⟨h₁, h₂⟩ := (Bool.and_eq_true ..).mp h
    exact forall_mem_cons.mpr ⟨cutoff_of_keepsAll h₁, ind h₂⟩

-- Edge 0 is deleted, its key given to edge 9, and its deletion reverted. When edge 0 is deleted
-- again the live set forgets the key of edge 9 as well, so that the key is given away once more.
theorem calls_duplicate_key : ∃ calls c, FreeRun step (withOverflowChunkEdges 1 4096) calls c ∧
      (calls.flatMap Call.newIds).Nodup ∧
      ¬Bags.Run (fun _ => 0) (trace (withOverflowChunkEdges 1 4096) calls) c.bags := by
  let calls := wide ++ [Call.deleteEdge 0 0 5, .insertEdge 0 (edgeEndpointKey 0 0) 9,
    .revertDeleteByEdgeId 0 0 5, .deleteEdge 0 0 6, .insertEdge 0 (edgeEndpointKey 0 0) 10]
  have ⟨c, r, hc⟩ := Run.exists_of_any step (withOverflowChunkEdges 1 4096) calls
    (fun c => (c.bags 0).card = 11) (by decide +kernel)
  refine ⟨calls, c, r, by decide +kernel, fun hr => ?_⟩
  have he := congrFun (hr.eq_foldl (cutoffs_of_allKept (by decide +kernel))) 0
  have hm : (((trace (withOverflowChunkEdges 1 4096) calls).foldl (fun m e => m.apply e.1)
      fun _ => 0 : Bags) 0).card = 10 := by
    decide +kernel
  simp [he, hm] at hc

end

end MutableCsr
end Linkrs
