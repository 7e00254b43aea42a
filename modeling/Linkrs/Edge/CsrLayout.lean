import Linkrs.Edge.MutableCsr

namespace Linkrs
open List

namespace MutableCsr

open Blocks

variable {c c' c'' : MutableCsr} {v w : ℕ} {f : Row → Row}

section

theorem row_congr (h : c'.rows[w]? = c.rows[w]?) : c'.row w = c.row w := by
  rw [row, row, getD_eq_getElem?_getD, getD_eq_getElem?_getD, h]

theorem getD_modify_self {rows : List Row} (hv : v < rows.length) (r : Row) :
    (rows.modify v f).getD v r = f (rows.getD v r) := by
  simp [getD_eq_getElem?_getD, getElem?_eq_getElem hv]

theorem row_modifyRow_self (hv : v < c.vertexCapacity) : (c.modifyRow v f).row v = f (c.row v) :=
  getD_modify_self hv _

theorem row_modifyRow_ne (h : w ≠ v) : (c.modifyRow v f).row w = c.row w := by
  apply row_congr
  simp [modifyRow, Ne.symm h]

theorem row_of_le (h : c.vertexCapacity ≤ v) : c.row v = .empty 0 := by
  rw [row, getD_eq_getElem?_getD, getElem?_eq_none h, Option.getD_none]

theorem modifyRow_of_le (h : c.vertexCapacity ≤ v) : c.modifyRow v f = c := by
  rw [modifyRow, modify_eq_self h]

theorem field_modifyRow {α : Type} (g : Row → α) (hf : ∀ r, g (f r) = g r) :
    g ((c.modifyRow v f).row w) = g (c.row w) := by
  by_cases hw : w = v
  case neg => rw [row_modifyRow_ne hw]
  case pos =>
    subst hw
    by_cases hv : w < c.vertexCapacity
    case pos => rw [row_modifyRow_self hv, hf]
    case neg => rw [modifyRow_of_le (not_lt.mp hv)]

@[simp]
theorem vertexCapacity_modifyRow : (c.modifyRow v f).vertexCapacity = c.vertexCapacity := by
  simp [vertexCapacity, modifyRow]

theorem primary_congr (hs : c'.slots = c.slots) (ho : (c'.row w).adjOffset = (c.row w).adjOffset)
    (hd : (c'.row w).degree = (c.row w).degree) : c'.primary w = c.primary w := by
  rw [primary, primary, hs, ho, hd]

@[simp]
theorem primary_modifyRow (ho : ∀ r, (f r).adjOffset = r.adjOffset)
    (hd : ∀ r, (f r).degree = r.degree) : (c.modifyRow v f).primary w = c.primary w :=
  primary_congr rfl (field_modifyRow _ ho) (field_modifyRow _ hd)

theorem primary_of_le (h : c.vertexCapacity ≤ v) : c.primary v = [] := by
  rw [primary, row_of_le h]
  exact window_zero

end

-- Every row has its block of slots to itself.
structure Laid (c : MutableCsr) : Prop where
  degree_le : ∀ v, (c.row v).degree ≤ (c.row v).primaryCapacity
  fits : ∀ v, (c.row v).adjOffset + (c.row v).primaryCapacity ≤ c.slots.length
  apart : ∀ v w, v ≠ w → (c.row v).primaryCapacity ≠ 0 → (c.row w).primaryCapacity ≠ 0 →
    (c.row v).adjOffset + (c.row v).primaryCapacity ≤ (c.row w).adjOffset ∨
      (c.row w).adjOffset + (c.row w).primaryCapacity ≤ (c.row v).adjOffset

namespace Laid

theorem length_primary (h : c.Laid) : (c.primary v).length = (c.row v).degree :=
  length_window ((Nat.add_le_add_left (h.degree_le v) _).trans (h.fits v))

theorem congr (h : c.Laid) (hs : c'.slots.length = c.slots.length)
    (ho : ∀ v, (c'.row v).adjOffset = (c.row v).adjOffset)
    (hc : ∀ v, (c'.row v).primaryCapacity = (c.row v).primaryCapacity)
    (hd : ∀ v, (c'.row v).degree ≤ (c.row v).primaryCapacity) : c'.Laid where
  degree_le v := by
    rw [hc]
    exact hd v
  fits v := by
    rw [ho, hc, hs]
    exact h.fits v
  apart v w := by
    rw [ho, ho, hc, hc]
    exact h.apart v w

end Laid

-- Only the row of `v` differs, and no block moved into another.
structure Local (v : ℕ) (c c' : MutableCsr) : Prop where
  laid : c'.Laid
  capacity : c'.vertexCapacity = c.vertexCapacity
  primary : ∀ w ≠ v, c'.primary w = c.primary w
  chunks : ∀ w ≠ v, (c'.row w).chunks = (c.row w).chunks
  liveSet : ∀ w ≠ v, (c'.row w).liveSet = (c.row w).liveSet
  edges : c'.overflowChunkEdges = c.overflowChunkEdges

namespace Local

theorem refl (h : c.Laid) : Local v c c :=
  ⟨h, rfl, fun _ _ => rfl, fun _ _ => rfl, fun _ _ => rfl, rfl⟩

theorem trans (h : Local v c c') (h' : Local v c' c'') : Local v c c'' where
  laid := h'.laid
  capacity := h'.capacity.trans h.capacity
  primary w hw := (h'.primary w hw).trans (h.primary w hw)
  chunks w hw := (h'.chunks w hw).trans (h.chunks w hw)
  liveSet w hw := (h'.liveSet w hw).trans (h.liveSet w hw)
  edges := h'.edges.trans h.edges

theorem entries (h : Local v c c') (hw : w ≠ v) : c'.entries w = c.entries w := by
  rw [MutableCsr.entries, MutableCsr.entries, overflow, overflow, h.primary w hw, h.chunks w hw]

theorem modifyRow (h : c.Laid) (ho : ∀ r, (f r).adjOffset = r.adjOffset)
    (hd : ∀ r, (f r).degree = r.degree) (hc : ∀ r, (f r).primaryCapacity = r.primaryCapacity) :
    Local v c (c.modifyRow v f) where
  laid := by
    have hs : (c.modifyRow v f).slots.length = c.slots.length := rfl
    apply h.congr hs (fun w => field_modifyRow _ ho) (fun w => field_modifyRow _ hc)
    intro w
    rw [field_modifyRow _ hd]
    exact h.degree_le w
  capacity := vertexCapacity_modifyRow
  primary _ _ := primary_modifyRow ho hd
  chunks _ hw := by rw [row_modifyRow_ne hw]
  liveSet _ hw := by rw [row_modifyRow_ne hw]
  edges := rfl

end Local

section

variable {xs : List Nbr}

theorem row_setPrimary_self (hv : v < c.vertexCapacity) :
    (c.setPrimary v xs).row v = { c.row v with degree := xs.length } :=
  row_modifyRow_self hv

theorem field_setPrimary {α : Type} (g : Row → α) (hg : ∀ r d, g { r with degree := d } = g r) :
    g ((c.setPrimary v xs).row w) = g (c.row w) :=
  field_modifyRow g fun r => hg r xs.length

theorem length_setPrimary (h : c.Laid) (hl : xs.length ≤ (c.row v).primaryCapacity) :
    (c.row v).adjOffset + (xs ++ List.replicate ((c.row v).degree - xs.length) Nbr.deadGap).length ≤
      c.slots.length := by
  have hf := h.fits v
  have hd := h.degree_le v
  simp only [length_append, length_replicate]
  omega

theorem primary_setPrimary_self (h : c.Laid) (hv : v < c.vertexCapacity)
    (hl : xs.length ≤ (c.row v).primaryCapacity) : (c.setPrimary v xs).primary v = xs := by
  rw [primary, row_setPrimary_self hv]
  have hs := window_splice_self (length_setPrimary h hl) (length_append ▸ Nat.le_add_right ..)
  exact hs.trans take_left

-- What is written into the block of one row is not seen by another.
theorem Laid.window_splice_ne (h : c.Laid) (hl : ys.length ≤ (c.row v).primaryCapacity) (hw : w ≠ v) :
    window (splice c.slots (c.row v).adjOffset ys) (c.row w).adjOffset (c.row w).degree = c.primary w := by
  have hd := h.degree_le w
  by_cases hw₀ : (c.row w).primaryCapacity = 0
  case pos =>
    have : (c.row w).degree = 0 := by omega
    simp [primary, this]
  case neg =>
    by_cases hv₀ : (c.row v).primaryCapacity = 0
    case pos =>
      have hx : ys = [] := eq_nil_of_length_eq_zero (by omega)
      rw [hx, splice_nil, primary]
    case neg =>
      have hf := h.fits v
      have := h.apart v w (Ne.symm hw) hv₀ hw₀
      exact window_splice_of_disjoint (by omega) (by omega)

theorem primary_setPrimary_ne (h : c.Laid) (hl : xs.length ≤ (c.row v).primaryCapacity)
    (hw : w ≠ v) : (c.setPrimary v xs).primary w = c.primary w := by
  have hr : (c.setPrimary v xs).row w = c.row w := row_modifyRow_ne hw
  have hd := h.degree_le v
  rw [primary, hr]
  apply h.window_splice_ne _ hw
  simp only [length_append, length_replicate]
  omega

theorem Local.setPrimary (h : c.Laid) (hl : xs.length ≤ (c.row v).primaryCapacity) :
    Local v c (c.setPrimary v xs) where
  laid := by
    apply h.congr (length_splice (length_setPrimary h hl))
      (fun w => field_setPrimary Row.adjOffset fun _ _ => rfl)
      (fun w => field_setPrimary Row.primaryCapacity fun _ _ => rfl)
    intro w
    by_cases hw : w = v
    case pos =>
      subst hw
      by_cases hv : w < c.vertexCapacity
      case pos =>
        rw [row_setPrimary_self hv]
        exact hl
      case neg =>
        have : (c.setPrimary w xs).row w = .empty 0 := by
          apply row_of_le
          rw [vertexCapacity, MutableCsr.setPrimary, length_modify]
          exact not_lt.mp hv
        rw [this]
        exact Nat.zero_le _
    case neg =>
      have hr : (c.setPrimary v xs).row w = c.row w := row_modifyRow_ne hw
      rw [hr]
      exact h.degree_le w
  capacity := vertexCapacity_modifyRow
  primary _ := primary_setPrimary_ne h hl
  chunks _ _ := field_setPrimary Row.chunks fun _ _ => rfl
  liveSet _ _ := field_setPrimary Row.liveSet fun _ _ => rfl
  edges := rfl

end

-- Blocks may move and grow, but the rows hold what they held.
structure Same (c c' : MutableCsr) : Prop where
  laid : c'.Laid
  capacity : c.vertexCapacity ≤ c'.vertexCapacity
  primary : ∀ w, c'.primary w = c.primary w
  chunks : ∀ w, (c'.row w).chunks = (c.row w).chunks
  liveSet : ∀ w, (c'.row w).liveSet = (c.row w).liveSet
  edgeCount : c'.edgeCount = c.edgeCount
  cutoff : c'.tombstoneReuseCutoff = c.tombstoneReuseCutoff
  edges : c'.overflowChunkEdges = c.overflowChunkEdges

theorem lt_ensureVertexCapacity (v : ℕ) : v < (c.ensureVertexCapacity (v + 1)).vertexCapacity := by
  rw [ensureVertexCapacity]
  split
  case isTrue hv => exact hv
  case isFalse hv =>
    simp only [vertexCapacity, length_append, length_replicate, grownVertexCapacity] at hv ⊢
    omega

theorem lt_openRow (v : ℕ) : v < (c.openRow v).vertexCapacity := by
  have h := lt_ensureVertexCapacity (c := c) v
  rw [openRow]
  split
  case isTrue => simpa [allocatePrimaryBlock, vertexCapacity] using h
  case isFalse => exact h

namespace Same

theorem refl (h : c.Laid) : Same c c :=
  ⟨h, le_rfl, fun _ => rfl, fun _ => rfl, fun _ => rfl, rfl, rfl, rfl⟩

theorem trans (h : Same c c') (h' : Same c' c'') : Same c c'' where
  laid := h'.laid
  capacity := h.capacity.trans h'.capacity
  primary w := (h'.primary w).trans (h.primary w)
  chunks w := (h'.chunks w).trans (h.chunks w)
  liveSet w := (h'.liveSet w).trans (h.liveSet w)
  edgeCount := h'.edgeCount.trans h.edgeCount
  cutoff := h'.cutoff.trans h.cutoff
  edges := h'.edges.trans h.edges

theorem entries (h : Same c c') (w : ℕ) : c'.entries w = c.entries w := by
  rw [MutableCsr.entries, MutableCsr.entries, overflow, overflow, h.primary, h.chunks]

theorem foldl {α : Type} {g : MutableCsr → α → MutableCsr} {as : List α} (h : c.Laid)
    (hg : ∀ c' a, a ∈ as → Same c c' → Same c' (g c' a)) : Same c (as.foldl g c) := by
  have hf : ∀ c', Same c c' → Same c (as.foldl g c') := by
    induction as with
    | nil => exact fun _ hc' => hc'
    | cons a as ind =>
      intro c' hc'
      apply ind fun c'' b hb => hg c'' b (mem_cons_of_mem a hb)
      exact hc'.trans (hg c' a mem_cons_self hc')
  exact hf c (refl h)

theorem ensureVertexCapacity (h : c.Laid) (n : ℕ) : Same c (c.ensureVertexCapacity n) := by
  rw [MutableCsr.ensureVertexCapacity]
  split
  case isTrue => exact refl h
  case isFalse hn =>
    generalize hc' : ({ c with rows := _ } : MutableCsr) = c'
    -- the new rows are empty
    have hr (w : ℕ) : c'.row w = c.row w ∨
        c'.row w = .empty c.slots.length ∧ c.row w = .empty 0 := by
      by_cases hw : w < c.vertexCapacity
      case pos =>
        left
        apply row_congr
        rw [← hc']
        exact getElem?_append_left hw
      case neg =>
        rw [not_lt] at hw
        by_cases hw' : w < c'.vertexCapacity
        case neg => exact .inl ((row_of_le (not_lt.mp hw')).trans (row_of_le hw).symm)
        case pos =>
          refine .inr ⟨?_, row_of_le hw⟩
          have he : c'.rows[w]? = some (.empty c.slots.length) := by
            subst hc'
            rw [getElem?_append_right hw, getElem?_replicate, if_pos]
            simp only [vertexCapacity, length_append, length_replicate] at hw hw' ⊢
            omega
          rw [row, getD_eq_getElem?_getD, he, Option.getD_some]
    have hf (w : ℕ) : (c'.row w).degree = (c.row w).degree ∧
        (c'.row w).primaryCapacity = (c.row w).primaryCapacity ∧
        (c'.row w).chunks = (c.row w).chunks ∧ (c'.row w).liveSet = (c.row w).liveSet := by
      rcases hr w with he | ⟨he, he'⟩
      · simp [he]
      · simp [he, he', Row.empty]
    have ho (w : ℕ) (hd : (c.row w).primaryCapacity ≠ 0) : c'.row w = c.row w := by
      rcases hr w with he | ⟨_, he⟩
      · exact he
      · exact absurd (congrArg Row.primaryCapacity he) hd
    have hs : c'.slots = c.slots := by rw [← hc']
    refine ⟨⟨fun w => ?_, fun w => ?_, fun v w hvw hv hw => ?_⟩, ?_, fun w => ?_,
      fun w => (hf w).2.2.1, fun w => (hf w).2.2.2, ?_, ?_, by rw [← hc']⟩
    · rw [(hf w).1, (hf w).2.1]
      exact h.degree_le w
    · rw [hs]
      rcases hr w with he | ⟨he, _⟩
      · rw [he]
        exact h.fits w
      · rw [he]
        exact le_rfl
    · rw [(hf v).2.1] at hv
      rw [(hf w).2.1] at hw
      rw [ho v hv, ho w hw]
      exact h.apart v w hvw hv hw
    · rw [← hc']
      simp [vertexCapacity]
    · by_cases hd : (c.row w).primaryCapacity = 0
      case pos =>
        have hd₀ : (c.row w).degree = 0 := Nat.le_zero.mp (hd ▸ h.degree_le w)
        rw [MutableCsr.primary, MutableCsr.primary, (hf w).1, hd₀, window_zero, window_zero]
      case neg => exact primary_congr hs (by rw [ho w hd]) (hf w).1
    · rw [← hc']
    · rw [← hc']

-- The block of `v` is put behind the blocks of all other rows.
theorem of_block (h : c.Laid) {start capacity : ℕ}
    (hr : c'.row v = { c.row v with adjOffset := start, primaryCapacity := capacity })
    (hn : ∀ {w}, w ≠ v → c'.row w = c.row w) (hl : c.slots.length ≤ c'.slots.length)
    (hd : (c.row v).degree ≤ capacity) (hb : start + capacity ≤ c'.slots.length)
    (ha : ∀ {w}, w ≠ v → (c.row w).primaryCapacity ≠ 0 → (c.row w).adjOffset + (c.row w).primaryCapacity ≤ start)
    (hp : ∀ w, window c'.slots (c'.row w).adjOffset (c.row w).degree = c.primary w)
    (hc : c'.vertexCapacity = c.vertexCapacity ∧ c'.edgeCount = c.edgeCount ∧
      c'.tombstoneReuseCutoff = c.tombstoneReuseCutoff ∧
      c'.overflowChunkEdges = c.overflowChunkEdges) : Same c c' := by
  have hk (w : ℕ) : (c'.row w).degree = (c.row w).degree ∧
      (c'.row w).chunks = (c.row w).chunks ∧ (c'.row w).liveSet = (c.row w).liveSet := by
    by_cases hw : w = v
    case pos => simp [hw, hr]
    case neg => simp [hn hw]
  refine ⟨⟨fun w => ?_, fun w => ?_, fun u w huw hu hw => ?_⟩, hc.1.ge, fun w => ?_,
    fun w => (hk w).2.1, fun w => (hk w).2.2, hc.2.1, hc.2.2.1, hc.2.2.2⟩
  · rw [(hk w).1]
    by_cases hw : w = v
    case pos => rwa [hw, hr]
    case neg =>
      rw [hn hw]
      exact h.degree_le w
  · by_cases hw : w = v
    case pos => rwa [hw, hr]
    case neg =>
      rw [hn hw]
      exact (h.fits w).trans hl
  · by_cases hw' : w = v
    case pos =>
      subst hw'
      rw [hn huw] at hu ⊢
      rw [hr]
      exact .inl (ha huw hu)
    case neg =>
      rw [hn hw'] at hw ⊢
      by_cases hu' : u = v
      case pos =>
        subst hu'
        rw [hr]
        exact .inr (ha hw' hw)
      case neg =>
        rw [hn hu'] at hu ⊢
        exact h.apart u w huw hu hw
  · rw [MutableCsr.primary, (hk w).1, hp]

theorem extend (h : c.Laid) (hv : v < c.vertexCapacity)
    (hf : f (c.row v) = { c.row v with
      adjOffset := start
      primaryCapacity := c.slots.length + gaps.length - start })
    (hs : (c.row v).degree = 0 ∧ start = c.slots.length ∨ start = (c.row v).adjOffset ∧
      (c.row v).adjOffset + (c.row v).primaryCapacity = c.slots.length) :
    Same c { c with slots := c.slots ++ gaps, rows := c.rows.modify v f } := by
  have hd := h.degree_le v
  have hr := (row_modifyRow_self (f := f) hv).trans hf
  refine of_block h hr row_modifyRow_ne ?_ ?_ ?_ (fun {w} hw hw₀ => ?_) (fun w => ?_)
    ⟨vertexCapacity_modifyRow, rfl, rfl, rfl⟩
  · simp
  · omega
  · simp only [length_append]
    omega
  · have hb' := h.fits w
    by_cases hv₀ : (c.row v).primaryCapacity = 0
    case pos => omega
    case neg =>
      have := h.apart v w (Ne.symm hw) hv₀ hw₀
      omega
  · have hw := (Nat.add_le_add_left (h.degree_le w) _).trans (h.fits w)
    rw [MutableCsr.primary, ← window_append_left hw]
    by_cases hw : w = v
    case neg => exact congrArg (window _ ·.adjOffset _) (row_modifyRow_ne hw)
    case pos =>
      subst hw
      rcases hs with ⟨hd₀, _⟩ | ⟨ho, _⟩
      · rw [hd₀, window_zero, window_zero]
      · exact congrArg (window _ · _) ((congrArg Row.adjOffset hr).trans ho)

theorem openRow (h : c.Laid) (v : ℕ) : Same c (c.openRow v) := by
  have he := ensureVertexCapacity h (v + 1)
  rw [MutableCsr.openRow]
  split
  case isFalse => exact he
  case isTrue h₀ =>
    refine he.trans (extend he.laid (lt_ensureVertexCapacity v) ?_ (.inl ⟨?_, rfl⟩))
    · simp
    · exact Nat.le_zero.mp (h₀ ▸ he.laid.degree_le v)

theorem growRow (h : c.Laid) (hv : p.1 < c.vertexCapacity) : Same c (c.growRow p) := by
  obtain ⟨v, incoming⟩ := p
  have hb := h.fits v
  have hd := h.degree_le v
  simp only [MutableCsr.growRow]
  split
  case isTrue => exact refl h
  case isFalse hw =>
    split
    case isTrue he =>
      refine extend h hv ?_ (.inr ⟨rfl, he⟩)
      simp only [length_replicate, Row.mk.injEq, true_and, and_true]
      omega
    case isFalse =>
      generalize hg : splice c.slots (c.row v).adjOffset
        (List.replicate (c.row v).primaryCapacity Nbr.deadGap) = slots
      have hl : slots.length = c.slots.length := by
        rw [← hg]
        exact length_splice (by simpa using hb)
      have hp := h.length_primary (v := v)
      refine of_block h (row_modifyRow_self hv) row_modifyRow_ne ?_ ?_ ?_ (fun _ _ => h.fits _)
        (fun w => ?_) ⟨vertexCapacity_modifyRow, rfl, rfl, rfl⟩
      · simp only [length_append]
        omega
      · omega
      · simp only [length_append, length_replicate]
        omega
      · by_cases hw' : w = v
        case pos =>
          subst hw'
          refine (congrArg (window _ ·.adjOffset _) (row_modifyRow_self hv)).trans ?_
          rw [← hl, window_append_mid (by omega), ← hp, take_length]
        case neg =>
          have := h.fits w
          have := h.degree_le w
          refine (congrArg (window _ ·.adjOffset _) (row_modifyRow_ne hw')).trans ?_
          rw [append_assoc, window_append_left (by omega), ← hg]
          exact h.window_splice_ne (by simp) hw'

end Same

section

theorem getElem?_pack (base : ℕ) (bs : List (List Nbr × Row)) (i : ℕ) :
    (pack base bs)[i]? = bs[i]?.map fun b =>
      { b.2 with adjOffset := base + ((bs.take i).map (·.1.length)).sum } := by
  induction bs generalizing base i with
  | nil => simp [pack]
  | cons b bs ind =>
    cases i with
    | zero => simp [pack]
    | succ i => simp [pack, ind, Nat.add_assoc]

variable {bs : List (List Nbr × Row)}

@[simp]
theorem length_pack (base : ℕ) : (pack base bs).length = bs.length := by
  induction bs generalizing base with
  | nil => rfl
  | cons b bs ind => simp [pack, ind]

variable (hs : c.slots = (bs.map Prod.fst).flatten) (hr : c.rows = pack 0 bs)
  (hb : ∀ b ∈ bs, b.2.degree ≤ b.2.primaryCapacity ∧ b.2.primaryCapacity = b.1.length)
include hr

theorem row_pack (hi : bs[i]? = some b) :
    c.row i = { b.2 with adjOffset := ((bs.take i).map (·.1.length)).sum } := by
  rw [row, getD_eq_getElem?_getD, hr, getElem?_pack, hi, Option.map_some, Option.getD_some, Nat.zero_add]

include hs hb

theorem primary_pack (hi : bs[i]? = some b) : c.primary i = b.1.take b.2.degree := by
  obtain ⟨hl, rfl⟩ := List.getElem?_eq_some_iff.mp hi
  have ⟨hd, hc⟩ := hb bs[i] (getElem_mem hl)
  have hf : (bs.map Prod.fst).flatten = ((bs.take i).map Prod.fst).flatten ++ bs[i].1 ++
      ((bs.drop (i + 1)).map Prod.fst).flatten := by
    conv_lhs => rw [← take_append_drop i bs, drop_eq_getElem_cons hl]
    simp only [map_append, map_cons, flatten_append, flatten_cons, append_assoc]
  have hn : ((bs.take i).map (·.1.length)).sum = ((bs.take i).map Prod.fst).flatten.length := by
    rw [length_flatten, map_map]
    rfl
  rw [primary, row_pack hr hi, hs, hf, hn]
  exact window_append_mid (hd.trans hc.le)

theorem laid_pack : c.Laid := by
  -- the end of a block is not beyond the start of a later one
  have hstart {i j : ℕ} {b : List Nbr × Row} (hi : bs[i]? = some b) (hij : i < j) :
      ((bs.take i).map (·.1.length)).sum + b.1.length ≤ ((bs.take j).map (·.1.length)).sum := by
    have hp : bs.take (i + 1) <+: bs.take j := take_prefix_take_left (by omega)
    have ht : bs.take (i + 1) = bs.take i ++ [b] := by rw [take_add_one, hi]; rfl
    obtain ⟨rest, hrest⟩ := hp
    simp [← hrest, ht]
  have hcase (v : ℕ) : c.row v = .empty 0 ∨ ∃ b ∈ bs, bs[v]? = some b := by
    by_cases hv : v < bs.length
    case pos => exact .inr ⟨bs[v], getElem_mem hv, getElem?_eq_getElem hv⟩
    case neg =>
      left
      apply row_of_le
      rw [vertexCapacity, hr, length_pack]
      omega
  refine ⟨fun v => ?_, fun v => ?_, fun v w hvw hv hw => ?_⟩
  · rcases hcase v with h | ⟨b, hm, h⟩
    · simp [h, Row.empty]
    · rw [row_pack hr h]
      exact (hb b hm).1
  · rcases hcase v with h | ⟨b, hm, h⟩
    · simp [h, Row.empty]
    · have hl : v < bs.length := (List.getElem?_eq_some_iff.mp h).1
      have := hstart h hl
      rw [take_length] at this
      rw [row_pack hr h, hs, length_flatten, map_map]
      simp only [(hb b hm).2]
      exact this
  · rcases hcase v with h | ⟨b, hm, h⟩
    · exact absurd (by simp [h, Row.empty]) hv
    rcases hcase w with h' | ⟨b', hm', h'⟩
    · exact absurd (by simp [h', Row.empty]) hw
    rw [row_pack hr h, row_pack hr h']
    simp only [(hb b hm).2, (hb b' hm').2]
    rcases Nat.lt_or_gt_of_ne hvw with hlt | hgt
    · exact .inl (hstart h hlt)
    · exact .inr (hstart h' hgt)

end

namespace Same

theorem relocate (h : c.Laid) (hl : capacities.length = c.vertexCapacity)
    (hc : ∀ v, (c.row v).primaryCapacity ≤ capacities.getD v 0) : Same c (c.relocate capacities) := by
  generalize hbs : ((c.rows.zip capacities).map fun p =>
    (window c.slots p.1.adjOffset p.1.primaryCapacity ++ List.replicate (p.2 - p.1.primaryCapacity) Nbr.deadGap,
     { p.1 with primaryCapacity := p.2, reuseHint := none })) = bs
  generalize hc' : c.relocate capacities = c'
  have hs : c'.slots = (bs.map Prod.fst).flatten := by
    rw [← hc', ← hbs]
    rfl
  have hr : c'.rows = pack 0 bs := by
    rw [← hc', ← hbs]
    rfl
  have hlb : bs.length = c.rows.length := by
    rw [← hbs, length_map, length_zip, hl, vertexCapacity, Nat.min_self]
  -- each block, with the row it comes from
  have hget {v : ℕ} (hv : v < c.vertexCapacity) : ∃ want, (c.row v).primaryCapacity ≤ want ∧
      bs[v]? = some (window c.slots (c.row v).adjOffset (c.row v).primaryCapacity ++
        List.replicate (want - (c.row v).primaryCapacity) Nbr.deadGap,
        { c.row v with primaryCapacity := want, reuseHint := none }) := by
    have hz : (c.rows.zip capacities)[v]? = some (c.row v, capacities.getD v 0) := by
      rw [getElem?_zip_eq_some, row, getD_eq_getElem?_getD, getD_eq_getElem?_getD,
        getElem?_eq_getElem hv, getElem?_eq_getElem (hl ▸ hv)]
      exact ⟨rfl, rfl⟩
    refine ⟨capacities.getD v 0, hc v, ?_⟩
    rw [← hbs, getElem?_map, hz]
    rfl
  have hb : ∀ b ∈ bs, b.2.degree ≤ b.2.primaryCapacity ∧ b.2.primaryCapacity = b.1.length := by
    intro b hm
    obtain ⟨v, hv, rfl⟩ := getElem_of_mem hm
    obtain ⟨want, hw, he⟩ := hget (hlb ▸ hv)
    rw [getElem?_eq_getElem hv, Option.some.injEq] at he
    rw [he]
    refine ⟨(h.degree_le v).trans hw, ?_⟩
    rw [length_append, length_window (h.fits v), length_replicate]
    simp only
    omega
  have hcap : c'.vertexCapacity = c.vertexCapacity := by
    rw [vertexCapacity, hr, length_pack, hlb, vertexCapacity]
  have hk (v : ℕ) : c'.primary v = c.primary v ∧ (c'.row v).chunks = (c.row v).chunks ∧
      (c'.row v).liveSet = (c.row v).liveSet := by
    by_cases hv : v < c.vertexCapacity
    case pos =>
      obtain ⟨want, hw, he⟩ := hget hv
      refine ⟨?_, by rw [row_pack hr he], by rw [row_pack hr he]⟩
      have hd := h.degree_le v
      rw [primary_pack hs hr hb he, take_append_of_le_length, take_window hd]
      · rfl
      · rw [length_window (h.fits v)]
        exact hd
    case neg =>
      rw [not_lt] at hv
      rw [primary_of_le hv, primary_of_le (hcap ▸ hv), row_of_le hv, row_of_le (hcap ▸ hv)]
      exact ⟨rfl, rfl, rfl⟩
  exact ⟨laid_pack hs hr hb, hcap.ge, fun v => (hk v).1, fun v => (hk v).2.1, fun v => (hk v).2.2,
    by rw [← hc']; rfl, by rw [← hc']; rfl, by rw [← hc']; rfl⟩

theorem openRows (h : c.Laid) (counts : List (ℕ × ℕ)) :
    Same c (counts.foldl (fun c p => c.openRow p.1) c) :=
  foldl h fun _ p _ hc => openRow hc.laid p.1

variable {counts : List (ℕ × ℕ)}

theorem lt_openRows (h : c.Laid) (hp : p ∈ counts) :
    p.1 < (counts.foldl (fun c p => c.openRow p.1) c).vertexCapacity := by
  induction counts generalizing c with
  | nil => simp at hp
  | cons q cs ind =>
    have ho := openRow h q.1
    rcases mem_cons.mp hp with rfl | hp
    · exact (lt_openRow p.1).trans_le (openRows ho.laid cs).capacity
    · exact ind ho.laid hp

theorem le_capacities (want : ℕ × ℕ → ℕ) (counts : List (ℕ × ℕ)) (caps : List ℕ) :
    (counts.foldl (fun caps p => caps.set p.1 (max (caps.getD p.1 0) (want p))) caps).length =
        caps.length ∧ ∀ v, caps.getD v 0 ≤
        (counts.foldl (fun caps p => caps.set p.1 (max (caps.getD p.1 0) (want p))) caps).getD v 0 := by
  induction counts generalizing caps with
  | nil => exact ⟨rfl, fun _ => le_rfl⟩
  | cons p cs ind =>
    have ⟨hl, hv⟩ := ind (caps.set p.1 (max (caps.getD p.1 0) (want p)))
    refine ⟨hl.trans length_set, fun v => le_trans ?_ (hv v)⟩
    simp only [getD_eq_getElem?_getD, getElem?_set]
    split
    case isTrue he =>
      subst he
      split
      case isTrue => exact le_max_left _ _
      case isFalse h => rw [getElem?_eq_none (not_lt.mp h)]
    case isFalse => exact le_rfl

theorem reserve_openRows (h : c.Laid) (counts : List (ℕ × ℕ)) :
    Same ((aggregate counts).foldl (fun c p => c.openRow p.1) c) (c.reserveForBatch counts) := by
  have ho := openRows h (aggregate counts)
  have hlt {p : ℕ × ℕ} (hp : p ∈ aggregate counts) := lt_openRows h hp
  simp only [MutableCsr.reserveForBatch]
  generalize (aggregate counts).foldl (fun c p => c.openRow p.1) c = c₁ at ho hlt ⊢
  split
  case isTrue => exact .refl ho.laid
  case isFalse =>
    split
    case isTrue =>
      refine foldl ho.laid fun c' p hp hc' => growRow hc'.laid ?_
      exact (hlt hp).trans_le hc'.capacity
    case isFalse =>
      have ⟨hl, hv⟩ := le_capacities c₁.wantedCapacity (aggregate counts)
        (c₁.rows.map Row.primaryCapacity)
      refine relocate ho.laid (hl.trans (length_map _)) fun v => ?_
      refine le_trans ?_ (hv v)
      by_cases hw : v < c₁.vertexCapacity
      case pos =>
        rw [row, getD_eq_getElem?_getD, getD_eq_getElem?_getD, getElem?_map, getElem?_eq_getElem hw]
        exact le_rfl
      case neg => simp [row_of_le (not_lt.mp hw), Row.empty]

theorem reserveForBatch (h : c.Laid) (counts : List (ℕ × ℕ)) : Same c (c.reserveForBatch counts) :=
  (openRows h _).trans (reserve_openRows h counts)

theorem mem_addCount : v ∈ (addCount counts p).map Prod.fst ↔ v = p.1 ∨ v ∈ counts.map Prod.fst := by
  rw [addCount]
  split
  case h_1 last hl =>
    have he : counts.map Prod.fst = counts.dropLast.map Prod.fst ++ [last.1] := by
      rw [← map_singleton (f := Prod.fst), ← map_append, dropLast_append_getLast? last hl]
    split
    case isTrue hp =>
      rw [he, ← hp, map_append]
      simp only [mem_append, map_cons, map_nil, mem_singleton]
      tauto
    case isFalse =>
      rw [map_append, mem_append, or_comm]
      simp
  case h_2 hn => simp [getLast?_eq_none_iff.mp hn]

theorem mem_aggregate : v ∈ (aggregate counts).map Prod.fst ↔ v ∈ counts.map Prod.fst := by
  have hf (acc sorted : List (ℕ × ℕ)) : v ∈ (sorted.foldl addCount acc).map Prod.fst ↔
      v ∈ acc.map Prod.fst ∨ v ∈ sorted.map Prod.fst := by
    induction sorted generalizing acc with
    | nil => simp
    | cons p ps ind =>
      rw [foldl_cons, ind, mem_addCount, map_cons, mem_cons]
      tauto
  rw [aggregate, hf, ((perm_insertionSort ..).map Prod.fst).mem_iff]
  simp

theorem lt_reserveForBatch (h : c.Laid) (hv : v ∈ counts.map Prod.fst) :
    v < (c.reserveForBatch counts).vertexCapacity := by
  obtain ⟨p, hp, rfl⟩ := mem_map.mp (mem_aggregate.mpr hv)
  exact (lt_openRows h hp).trans_le (reserve_openRows h counts).capacity

end Same

end MutableCsr
end Linkrs
