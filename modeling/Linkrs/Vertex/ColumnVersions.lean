import Linkrs.Lib.Except
import Linkrs.Vertex.Column

namespace Linkrs

open VersionChain Entry List Option

theorem ColumnSpec.checkNull_eq_ok {α : Type} {spec : ColumnSpec α} {value : Option (Value α)} :
    spec.checkNull value = .ok () ↔ (value = none → spec.nullable) := by
  cases value <;> simp [checkNull]

namespace Payload

variable {α : Type} {spec : ColumnSpec α} {p q : Payload α} {value : Option (Value α)} {inPlace : Bool}

-- Only values that can be written again are there to be read, only a column that allows nulls marks
-- them, and there is an overlay only on an encoded row that is not in the overflow area.
structure Sound (spec : ColumnSpec α) (p : Payload α) : Prop where
  stored : ∀ v ∈ p.current, spec.store v = .ok ()
  null : p.rawNull → spec.nullable
  overlaid : p.overlay.isSome → p.encoding.isSome ∧ p.overflow = none

-- The value is taken by the encoding, under an older one in the overlay.
def Shadows (spec : ColumnSpec α) (p : Payload α) (value : Option (Value α)) (inPlace : Bool) : Prop :=
  inPlace ∧ p.overlay.isSome ∧ value.filter spec.overflows = none

-- The contents that a write can leave.
def Takes (spec : ColumnSpec α) (value : Option (Value α)) : Prop :=
  spec.Typed value ∧ (value = none → spec.nullable)

theorem writeCore_eq (h : Takes spec value) : p.writeCore spec value inPlace = .ok (p.write spec value inPlace) := by
  have hs : value.forM spec.store = .ok () := by
    cases value with
    | none => rfl
    | some v => exact h.1 v rfl
  simp only [writeCore, Except.bind_eq_ok]
  exact ⟨(), ColumnSpec.checkNull_eq_ok.mpr h.2, (), hs, rfl⟩

theorem writeCore_eq_ok (h : p.writeCore spec value inPlace = .ok q) :
    Takes spec value ∧ q = p.write spec value inPlace := by
  simp only [writeCore, Except.bind_eq_ok] at h
  obtain ⟨_, hn, _, hs, hq⟩ := h
  refine ⟨⟨fun v hv => ?_, ColumnSpec.checkNull_eq_ok.mp hn⟩, (Except.ok.inj hq).symm⟩
  rw [mem_def.mp hv] at hs
  exact hs

theorem current_write (h : Sound spec p) (hs : ¬p.Shadows spec value inPlace) :
    (p.write spec value inPlace).current = value := by
  unfold write
  split
  case h_1 v hv =>
    obtain ⟨hv, _⟩ := filter_eq_some_iff.mp hv
    simp [current, hv]
  case h_2 hv =>
    split
    case h_1 he =>
      have ho : p.overlay = none := by
        by_contra ho
        simpa [he] using (h.overlaid (isSome_iff_ne_none.mpr ho)).1
      simp [current, inner, setRaw, he, ho]
    case h_2 he =>
      split
      case isTrue hi =>
        have ho : p.overlay = none := by
          by_contra ho
          exact hs ⟨hi, isSome_iff_ne_none.mpr ho, hv⟩
        simp [current, inner, ho]
      case isFalse => simp [current, inner]

theorem current_write_of_shadows (h : Sound spec p) (hs : p.Shadows spec value inPlace) :
    (p.write spec value inPlace).current = p.current := by
  obtain ⟨hi, ho, hv⟩ := hs
  have ⟨he, hf⟩ := h.overlaid ho
  obtain ⟨hit, ho⟩ := isSome_iff_exists.mp ho
  obtain ⟨base, he⟩ := isSome_iff_exists.mp he
  simp [write, hv, he, hi, current, inner, ho, hf]

theorem Sound.write (h : Sound spec p) (ht : spec.Typed value) : Sound spec (p.write spec value inPlace) := by
  refine ⟨fun v hv => ?_, ?_, ?_⟩
  · by_cases hs : p.Shadows spec value inPlace
    · exact h.stored v (current_write_of_shadows h hs ▸ hv)
    · exact ht v (current_write h hs ▸ hv)
  all_goals
    have hn := h.null
    have ho := h.overlaid
    unfold Payload.write setRaw
    grind

theorem current_recode (kind : Recode) : (p.recode spec kind).current = p.current := by
  cases hf : p.overflow <;> cases kind <;> cases he : p.encoding <;>
    simp [recode, current, inner, setRaw, encodingBaseValue, hf, he]

theorem Sound.recode (h : Sound spec p) (kind : Recode) : Sound spec (p.recode spec kind) := by
  refine ⟨fun v hv => h.stored v (current_recode kind ▸ hv), ?_, ?_⟩
  all_goals
    have hn := h.null
    have ho := h.overlaid
    unfold Payload.recode setRaw
    grind

end Payload

namespace ColumnCell

variable {α : Type} {spec : ColumnSpec α} {bs : BinarySearch} {cell cell' : ColumnCell α}

-- The before-images end where the current value starts. Those of writes that failed reach further, and
-- then they hold the current value.
structure Sound (spec : ColumnSpec α) (cell : ColumnCell α) : Prop where
  payload : cell.payload.Sound spec
  linked : Linked cell.chain
  before : ∀ e ∈ cell.chain, e.stop ≤ cell.createTs ∨ (e.start = cell.createTs ∧ e.value = cell.payload.current)
  kept : ∀ e ∈ cell.chain, Payload.Takes spec e.value

def read (cell : ColumnCell α) (queryTs : Timestamp) : Option (Value α) :=
  if cell.createTs ≤ queryTs then cell.payload.current else (valueAt cell.chain queryTs).join

-- The same times and values, kept in other places.
structure Alike (cell cell' : ColumnCell α) : Prop where
  created : cell'.createTs = cell.createTs
  chain : cell'.chain = cell.chain
  current : cell'.payload.current = cell.payload.current

theorem Alike.refl (cell : ColumnCell α) : Alike cell cell :=
  ⟨rfl, rfl, rfl⟩

theorem Alike.read_eq (h : Alike cell cell') (queryTs : Timestamp) : cell'.read queryTs = cell.read queryTs := by
  rw [read, h.created, h.chain, h.current, read]

theorem alike_recode (cell : ColumnCell α) (kind : Recode) : Alike cell (cell.recode spec kind) :=
  ⟨rfl, rfl, Payload.current_recode kind⟩

theorem Sound.recode (h : Sound spec cell) (kind : Recode) : Sound spec (cell.recode spec kind) :=
  ⟨h.payload.recode kind, h.linked, (alike_recode cell kind).current ▸ h.before, h.kept⟩

-- The position that the search leads to is enough. What its neighbour is looked at for cannot happen.
theorem searchChain_eq (bs : BinarySearch) {chain : List (VersionEntry α)} (h : Linked chain) (queryTs : Timestamp) :
    (searchChain bs chain queryTs).map (·.2) = valueAt chain queryTs := by
  by_cases hcovered : ∃ e ∈ chain, e.covers queryTs
  · have hfind {i : ℕ} {e : VersionEntry α} (he : chain[i]? = some e) (hc : e.covers queryTs) :
        ((visibleEntry chain i queryTs).or (visibleEntry chain (i + 1) queryTs)).map (·.2) =
          valueAt chain queryTs := by
      rw [h.valueAt_eq_some_iff.mpr ⟨e, mem_of_getElem? he, hc, rfl⟩]
      simp [visibleEntry, he, hc]
    have ⟨a, ha, hat⟩ := hcovered
    unfold searchChain
    split
    case h_1 i hi =>
      have ⟨e, he, hc⟩ := h.covers_of_search_ok bs hi
      exact hfind he hc
    case h_2 hi =>
      have ⟨_, _, hj, _⟩ := h.covers_of_search_error bs hi ha hat
      cases hj
    case h_3 i hi =>
      obtain ⟨_, e, hj, he, hc⟩ := h.covers_of_search_error bs hi ha hat
      cases hj
      exact hfind he hc
  · have hnone (i : ℕ) : visibleEntry chain i queryTs = none := by
      cases hi : chain[i]? with
      | none => simp [visibleEntry, hi]
      | some e =>
        have hc : ¬e.covers queryTs := fun hc => hcovered ⟨e, mem_of_getElem? hi, hc⟩
        simp [visibleEntry, hi, hc]
    rw [Linked.valueAt_eq_none_iff.mpr fun e he hc => hcovered ⟨e, he, hc⟩]
    unfold searchChain
    split <;> simp [hnone]

theorem getAtTs_eq (h : Linked cell.chain) (queryTs : Timestamp) : cell.getAtTs bs queryTs = cell.read queryTs := by
  unfold getAtTs read
  split
  case isTrue => rfl
  case isFalse =>
    rw [← searchChain_eq bs h]
    cases searchChain bs cell.chain queryTs <;> rfl

theorem Sound.blankCell : Sound spec spec.blankCell :=
  ⟨⟨spec.blank_stored, id, nofun⟩, .nil, nofun, nofun⟩

variable {preCovered : Bool} {w : ColumnWrite α} {ts : Timestamp}

theorem Linked.stop_le {chain : List (VersionEntry α)} (h : Linked chain)
    (ht : ∀ e ∈ chain.getLast?, e.stop ≤ ts) : ∀ e ∈ chain, e.stop ≤ ts := by
  obtain rfl | ⟨front, tail, rfl⟩ := chain.eq_nil_or_concat'
  · nofun
  · have htail : tail.stop ≤ ts := ht tail (by simp)
    refine forall_mem_append.mpr ⟨fun e he => ?_, forall_mem_singleton.mpr htail⟩
    have hstops := (pairwise_append.mp h.stops).2.2 e he tail (mem_singleton_self _)
    exact hstops.trans htail

theorem records_iff : cell.records preCovered ts ↔
    preCovered ∧ cell.createTs < ts ∧ (cell.payload.current = none → cell.payload.rawNull) := by
  unfold records
  cases cell.payload.current <;> simp [and_assoc]

-- A write is too late, it cannot be stored, or it is done.
theorem setVersioned_eq (h : Sound spec cell) (preCovered : Bool) (w : ColumnWrite α) :
    (∃ e, cell.setVersioned spec preCovered w = (.error e, cell) ∧ ∃ tail ∈ cell.chain, w.ts < tail.stop) ∨
    (∀ e ∈ cell.chain, e.stop ≤ w.ts) ∧
      ((∃ e, cell.setVersioned spec preCovered w = (.error e, cell.keepCurrent preCovered w.ts) ∧
        ¬Payload.Takes spec w.value) ∨
      (Payload.Takes spec w.value ∧ cell.setVersioned spec preCovered w =
        (.ok (), ⟨cell.payload.write spec w.value w.inPlace, w.ts, (cell.keepCurrent preCovered w.ts).chain⟩))) := by
  unfold setVersioned
  by_cases hlate : cell.chain.getLast?.any fun tail => w.ts ≤ tail.start || w.ts < tail.stop
  · rw [if_pos hlate]
    cases htail : cell.chain.getLast? with
    | none => simp [htail] at hlate
    | some tail =>
      have hmem := mem_of_getLast? htail
      have hlast := h.linked.lasting tail hmem
      simp only [htail, any_some, Bool.or_eq_true, decide_eq_true_eq] at hlate
      exact .inl ⟨_, rfl, tail, hmem, hlate.elim (lt_of_le_of_lt · hlast) id⟩
  · rw [if_neg hlate]
    refine .inr ⟨Linked.stop_le h.linked fun e he => ?_, ?_⟩
    · simp only [mem_def.mp he, any_some, Bool.or_eq_true, decide_eq_true_eq, not_or, not_lt] at hlate
      exact hlate.2
    · cases hw : cell.payload.writeCore spec w.value w.inPlace with
      | error e =>
        refine .inl ⟨e, rfl, fun ht => ?_⟩
        rw [Payload.writeCore_eq ht] at hw
        cases hw
      | ok payload =>
        obtain ⟨ht, rfl⟩ := Payload.writeCore_eq_ok hw
        exact .inr ⟨ht, rfl⟩

theorem Sound.keepCurrent (h : Sound spec cell) (preCovered : Bool) (hstop : ∀ e ∈ cell.chain, e.stop ≤ ts) :
    Sound spec (cell.keepCurrent preCovered ts) := by
  unfold ColumnCell.keepCurrent
  split
  case isFalse => exact h
  case isTrue hr =>
    have ⟨_, hlt, hnull⟩ := records_iff.mp hr
    refine ⟨h.payload, h.linked.concat hlt fun e he => ?_, ?_, ?_⟩
    · obtain he' | ⟨hs, hv⟩ := h.before e he
      · exact .inl he'
      · exact .inr ⟨hs, hv, hstop e he⟩
    · exact forall_mem_append.mpr ⟨h.before, forall_mem_singleton.mpr (.inr ⟨rfl, rfl⟩)⟩
    · exact forall_mem_append.mpr ⟨h.kept,
        forall_mem_singleton.mpr ⟨h.payload.stored, fun hn => h.payload.null (hnull hn)⟩⟩

theorem read_keepCurrent (h : Sound spec cell) (preCovered : Bool) (hstop : ∀ e ∈ cell.chain, e.stop ≤ ts)
    (queryTs : Timestamp) : (cell.keepCurrent preCovered ts).read queryTs = cell.read queryTs := by
  have hkept : Sound spec (cell.keepCurrent preCovered ts) := h.keepCurrent preCovered hstop
  unfold ColumnCell.keepCurrent at hkept ⊢
  split
  case isFalse => rfl
  case isTrue hr =>
    rw [if_pos hr] at hkept
    unfold read
    split
    case isTrue => rfl
    case isFalse hq =>
      congr 1
      refine hkept.linked.valueAt_congr h.linked fun e he => ?_
      rw [covers_iff] at he
      simp only [mem_append, mem_singleton]
      refine or_iff_left fun heq => ?_
      subst heq
      exact hq he.1

theorem stop_le_keepCurrent (hstop : ∀ e ∈ cell.chain, e.stop ≤ ts) :
    ∀ e ∈ (cell.keepCurrent preCovered ts).chain, e.stop ≤ ts := by
  unfold keepCurrent
  split
  case isFalse => exact hstop
  case isTrue => exact forall_mem_append.mpr ⟨hstop, forall_mem_singleton.mpr le_rfl⟩

-- A write that fails leaves what can be read, and one that is done shows from its time on.
theorem Sound.setVersioned (h : Sound spec cell) (preCovered : Bool) (w : ColumnWrite α) :
    Sound spec (cell.setVersioned spec preCovered w).2 := by
  obtain ⟨e, heq, _⟩ | ⟨hstop, ⟨e, heq, _⟩ | ⟨ht, heq⟩⟩ := setVersioned_eq h preCovered w <;> rw [heq]
  · exact h
  · exact h.keepCurrent preCovered hstop
  · have hkept := h.keepCurrent preCovered hstop
    exact ⟨h.payload.write ht.1, hkept.linked, fun e he => .inl (stop_le_keepCurrent hstop e he), hkept.kept⟩

theorem read_setVersioned_error (h : Sound spec cell)
    (he : cell.setVersioned spec preCovered w = (.error e, cell')) (queryTs : Timestamp) :
    cell'.read queryTs = cell.read queryTs := by
  obtain ⟨e, heq, _⟩ | ⟨hstop, ⟨e, heq, _⟩ | ⟨_, heq⟩⟩ := setVersioned_eq h preCovered w <;> cases heq.symm.trans he
  · rfl
  · exact read_keepCurrent h preCovered hstop queryTs

theorem createTs_of_error (h : Sound spec cell) (he : cell.setVersioned spec preCovered w = (.error e, cell')) :
    cell'.createTs = cell.createTs := by
  obtain ⟨e, heq, _⟩ | ⟨_, ⟨e, heq, _⟩ | ⟨_, heq⟩⟩ := setVersioned_eq h preCovered w <;> cases heq.symm.trans he
  · rfl
  · unfold keepCurrent
    split <;> rfl

theorem setVersioned_ok (h : Sound spec cell) (hok : cell.setVersioned spec preCovered w = (.ok (), cell')) :
    (∀ e ∈ cell.chain, e.stop ≤ w.ts) ∧ Payload.Takes spec w.value ∧
      cell' = ⟨cell.payload.write spec w.value w.inPlace, w.ts, (cell.keepCurrent preCovered w.ts).chain⟩ := by
  obtain ⟨e, heq, _⟩ | ⟨hstop, ⟨e, heq, _⟩ | ⟨ht, heq⟩⟩ := setVersioned_eq h preCovered w <;> cases heq.symm.trans hok
  exact ⟨hstop, ht, rfl⟩

-- What the chain holds of a time before a write is what could be read then. Where nothing is recorded,
-- the value was missing all along.
theorem valueAt_keepCurrent (h : Sound spec cell) (hb : preCovered = false → cell = spec.blankCell)
    (hstop : ∀ e ∈ cell.chain, e.stop ≤ ts) (hq : queryTs < ts) :
    (valueAt (cell.keepCurrent preCovered ts).chain queryTs).join =
      if preCovered then cell.read queryTs else none := by
  by_cases hr : cell.records preCovered ts
  · have ⟨hcovered, hlt, _⟩ := records_iff.mp hr
    have hkept : Sound spec (cell.keepCurrent preCovered ts) := h.keepCurrent preCovered hstop
    rw [if_pos hcovered, ← read_keepCurrent h preCovered hstop, read]
    rw [keepCurrent, if_pos hr] at hkept ⊢
    by_cases hc : cell.createTs ≤ queryTs
    · rw [if_pos hc, hkept.linked.valueAt_eq_some_iff.mpr ⟨⟨cell.createTs, ts, cell.payload.current⟩, by simp,
        covers_iff.mpr ⟨hc, hq⟩, rfl⟩]
      rfl
    · rw [if_neg hc]
  · rw [keepCurrent, if_neg hr]
    cases preCovered with
    | false =>
      rw [hb rfl]
      rfl
    | true =>
      rw [if_pos rfl, read]
      split
      case isFalse => rfl
      case isTrue hc =>
        have hnone : cell.payload.current = none := by
          by_contra hn
          exact hr (records_iff.mpr ⟨rfl, hc.trans_lt hq, fun h => absurd h hn⟩)
        rw [hnone]
        refine join_eq_none_iff.mpr ?_
        cases hv : valueAt cell.chain queryTs with
        | none => exact .inl rfl
        | some v =>
          obtain ⟨e, he, hcover, rfl⟩ := h.linked.valueAt_eq_some_iff.mp hv
          obtain hle | ⟨_, hvalue⟩ := h.before e he
          · exact absurd (covers_iff.mp hcover).2 (hle.trans hc).not_gt
          · exact .inr (by rw [hvalue, hnone])

section

variable {chain : List (VersionEntry α)} {safe : Timestamp}

theorem of_lastBefore (h : lastBefore safe chain = some e) : e ∈ chain ∧ e.stop ≤ safe := by
  suffices hacc : ∀ last, chain.foldl (fun last entry =>
      if isGcEligible safe entry && last.all (·.stop < entry.stop) then some entry else last) last = some e →
      last = some e ∨ (e ∈ chain ∧ e.stop ≤ safe) from
    (hacc none h).resolve_left nofun
  clear h
  induction chain with
  | nil => exact fun last h => .inl h
  | cons x chain ind =>
    intro last h
    obtain he | ⟨he, hsafe⟩ := ind _ h
    · simp only at he
      split at he
      case isTrue hx =>
        obtain rfl := Option.some.inj he
        rw [Bool.and_eq_true, isGcEligible, decide_eq_true_eq] at hx
        exact .inr ⟨mem_cons_self, hx.1⟩
      case isFalse => exact .inl he
    · exact .inr ⟨mem_cons_of_mem x he, hsafe⟩

-- The chain is cut down to what ends after the cutoff, with at most one entry before it.
theorem gcChain_cases (h : Linked chain) (safe : Timestamp) :
    gcChain safe chain = chain.filter (!isGcEligible safe ·) ∨
    ∃ e ∈ chain, e.stop ≤ safe ∧ (∀ a ∈ chain.filter (!isGcEligible safe ·), safe < a.start) ∧
      gcChain safe chain = e :: chain.filter (!isGcEligible safe ·) := by
  unfold gcChain
  cases hlast : lastBefore safe chain with
  | none => exact .inl rfl
  | some e =>
    have ⟨he, hstop⟩ := of_lastBefore hlast
    by_cases hnil : chain.filter (!isGcEligible safe ·) = []
    · exact .inr ⟨e, he, hstop, by simp [hnil], by simp [hnil]⟩
    simp only [if_neg hnil]
    split
    case isFalse => exact .inl rfl
    case isTrue hm =>
      have hstart : ∀ a ∈ chain.filter (!isGcEligible safe ·), safe < a.start :=
        fun a ha => lt_of_lt_of_le hm (min?_getD_le_of_mem (List.mem_map_of_mem ha))
      refine .inr ⟨e, he, hstop, hstart, ?_⟩
      have hsorted := pairwise_map.mp (h.sublist (filter_sublist (p := (!isGcEligible safe ·)))).sorted
      refine List.mergeSort_concat (fun a : VersionEntry α => a.start) hsorted fun a ha => ?_
      exact (h.lasting e he).trans_le (hstop.trans (hstart a ha).le)

theorem linked_gcChain (h : Linked chain) (safe : Timestamp) : Linked (gcChain safe chain) := by
  have hafter := h.sublist (filter_sublist (p := (!isGcEligible safe ·)))
  obtain heq | ⟨e, he, hstop, hstart, heq⟩ := gcChain_cases h safe
  · rwa [heq]
  · rw [heq]
    refine ⟨forall_mem_cons.mpr ⟨h.lasting e he, hafter.lasting⟩,
      pairwise_cons.mpr ⟨fun a ha => ?_, hafter.follows⟩⟩
    exact .inl (hstop.trans (hstart a ha).le)

theorem mem_gcChain_iff (h : Linked chain) (hstop : safe < e.stop) : e ∈ gcChain safe chain ↔ e ∈ chain := by
  have hfilter : e ∈ chain.filter (!isGcEligible safe ·) ↔ e ∈ chain := by
    simp [isGcEligible, not_le.mpr hstop]
  obtain heq | ⟨a, ha, hsafe, _, heq⟩ := gcChain_cases h safe
  · rw [heq, hfilter]
  · rw [heq, mem_cons, hfilter]
    exact or_iff_right fun hea => absurd hsafe (not_le.mpr (hea ▸ hstop))

theorem length_eligible_gcChain (h : Linked chain) (safe : Timestamp) :
    ((gcChain safe chain).filter (·.stop ≤ safe)).length ≤ 1 := by
  have hnil : (chain.filter (!isGcEligible safe ·)).filter (·.stop ≤ safe) = [] := by
    simp [isGcEligible]
  obtain heq | ⟨e, he, hsafe, _, heq⟩ := gcChain_cases h safe
  · simp [heq, hnil]
  · rw [heq, filter_cons_of_pos (by simpa using hsafe), hnil]
    rfl

theorem Sound.gcChain (h : Sound spec cell) (safe : Timestamp) :
    Sound spec { cell with chain := ColumnCell.gcChain safe cell.chain } := by
  have hsub : ∀ e ∈ ColumnCell.gcChain safe cell.chain, e ∈ cell.chain := by
    obtain heq | ⟨e, he, _, _, heq⟩ := gcChain_cases h.linked safe
    · rw [heq]
      exact fun a ha => mem_of_mem_filter ha
    · rw [heq]
      exact forall_mem_cons.mpr ⟨he, fun a ha => mem_of_mem_filter ha⟩
  exact ⟨h.payload, linked_gcChain h.linked safe, fun e he => h.before e (hsub e he),
    fun e he => h.kept e (hsub e he)⟩

end

-- An undo takes the newest before-image back if it was closed at the given time.
theorem undoLastVersionedWrite_eq (h : Sound spec cell) (ts : Timestamp) (inPlace : Bool) :
    (∃ front entry, cell.chain = front ++ [entry] ∧ entry.stop = ts ∧
      cell.undoLastVersionedWrite spec ts inPlace =
        (.ok (), ⟨cell.payload.write spec entry.value inPlace, entry.start, front⟩)) ∨
    ((∀ entry ∈ cell.chain.getLast?, entry.stop ≠ ts) ∧ cell.undoLastVersionedWrite spec ts inPlace = (.ok (), cell)) := by
  unfold undoLastVersionedWrite
  obtain hnil | ⟨front, entry, heq⟩ := cell.chain.eq_nil_or_concat'
  · exact .inr (by simp [hnil])
  · have hwrite : cell.payload.writeCore spec entry.value inPlace = _ :=
      Payload.writeCore_eq (h.kept entry (by simp [heq]))
    by_cases hstop : entry.stop = ts
    · exact .inl ⟨front, entry, heq, hstop, by simp [heq, hstop, hwrite]⟩
    · exact .inr (by simp [heq, hstop])

theorem Sound.undo (h : Sound spec cell) (ts : Timestamp) :
    Sound spec (cell.undoLastVersionedWrite spec ts false).2 := by
  obtain ⟨front, entry, hchain, _, heq⟩ | ⟨_, heq⟩ := undoLastVersionedWrite_eq h ts false
  · rw [heq]
    have hlinked := hchain ▸ h.linked
    have hkept := h.kept entry (by simp [hchain])
    have hcurrent : (cell.payload.write spec entry.value false).current = _ := Payload.current_write h.payload nofun
    refine ⟨h.payload.write hkept.1, hlinked.sublist (sublist_append_left _ _), fun e he => ?_,
      fun e he => h.kept e (by simp [hchain, he])⟩
    obtain hfollows | ⟨hs, hv, _⟩ := (pairwise_append.mp hlinked.follows).2.2 e he entry (mem_singleton_self _)
    · exact .inl hfollows
    · exact .inr ⟨hs, hv.trans hcurrent.symm⟩
  · rwa [heq]

end ColumnCell

namespace Column

variable {α : Type} {column : Column α} {w : ColumnWrite α} {row r : ℕ} {cell : ColumnCell α} {ts : Timestamp}

def Sound (column : Column α) : Prop :=
  ∀ row, (column.cell row).Sound column.spec

def read (column : Column α) (row : ℕ) (queryTs : Timestamp) : Option (Value α) :=
  if row < column.cells.length then (column.cell row).read queryTs else none

theorem cell_of_getElem? (h : column.cells[row]? = some cell) : column.cell row = cell := by
  simp [Column.cell, h]

theorem cell_of_uncovered (h : column.cells.length ≤ row) : column.cell row = column.spec.blankCell := by
  simp [Column.cell, h]

theorem getAtTs_eq (bs : BinarySearch) (h : Linked (column.cell row).chain) (queryTs : Timestamp) :
    column.getAtTs bs row queryTs = column.read row queryTs := by
  unfold getAtTs read
  split
  case isTrue hl =>
    rw [getElem?_eq_getElem hl, bind_some, ← cell_of_getElem? (getElem?_eq_getElem hl)]
    exact ColumnCell.getAtTs_eq h queryTs
  case isFalse hl => rw [getElem?_eq_none (not_lt.mp hl), bind_none]

theorem Sound.getAtTs_eq (h : column.Sound) (bs : BinarySearch) (row : ℕ) (queryTs : Timestamp) :
    column.getAtTs bs row queryTs = column.read row queryTs :=
  Column.getAtTs_eq bs (h row).linked queryTs

theorem cell_recodeRows (rows : ℕ → Bool) (kind : Recode) (r : ℕ) :
    (column.recodeRows rows kind).cell r = column.cell r ∨
    (column.recodeRows rows kind).cell r = (column.cell r).recode column.spec kind := by
  simp only [Column.cell, recodeRows, getD_eq_getElem?_getD, getElem?_mapIdx]
  cases column.cells[r]? with
  | none => exact .inl rfl
  | some cell =>
    simp only [map_some, getD_some]
    split
    · exact .inr rfl
    · exact .inl rfl

theorem alike_recodeRows (rows : ℕ → Bool) (kind : Recode) (r : ℕ) :
    (column.cell r).Alike ((column.recodeRows rows kind).cell r) := by
  obtain h | h := column.cell_recodeRows rows kind r <;> rw [h]
  · exact .refl _
  · exact ColumnCell.alike_recode ..

theorem Sound.recodeRows (h : column.Sound) (rows : ℕ → Bool) (kind : Recode) : (column.recodeRows rows kind).Sound := by
  intro r
  obtain hc | hc := column.cell_recodeRows rows kind r <;> rw [hc]
  · exact h r
  · exact (h r).recode kind

theorem length_recodeRows (rows : ℕ → Bool) (kind : Recode) :
    (column.recodeRows rows kind).cells.length = column.cells.length := by
  simp [recodeRows]

theorem read_recodeRows (rows : ℕ → Bool) (kind : Recode) (queryTs : Timestamp) :
    (column.recodeRows rows kind).read row queryTs = column.read row queryTs := by
  rw [read, read, length_recodeRows, (alike_recodeRows rows kind row).read_eq]

-- The rows that become covered read as rows do that were never written.
theorem cell_ensureCoverage (column : Column α) (row : ℕ) :
    ∃ rows, ∀ r, (column.ensureCoverage row).cell r = (column.recodeRows rows .decode).cell r := by
  refine ⟨fun i => column.cells.length ≤ row &&
    i / column.spec.chunkCapacity = column.cells.length / column.spec.chunkCapacity, fun r => ?_⟩
  simp only [Column.cell, ensureCoverage, getD_eq_getElem?_getD, getElem?_append, getElem?_replicate]
  split
  case isTrue => rfl
  case isFalse hl =>
    rw [getElem?_eq_none (not_lt.mp hl)]
    split <;> rfl

theorem length_put : (column.put row cell).cells.length = max column.cells.length (row + 1) := by
  simp [put, ensureCoverage, length_recodeRows]
  omega

theorem cell_put_self : (column.put row cell).cell row = cell := by
  have hl : row < (column.put row cell).cells.length := by
    rw [length_put]
    omega
  have hl' : row < (column.ensureCoverage row).cells.length := by simpa [put] using hl
  exact cell_of_getElem? (by simp [put, hl'])

theorem cell_put_of_ne (hr : r ≠ row) : (column.put row cell).cell r = (column.ensureCoverage row).cell r := by
  simp [put, Column.cell, getElem?_set_ne (Ne.symm hr)]

theorem alike_put (hr : r ≠ row) : (column.cell r).Alike ((column.put row cell).cell r) := by
  have ⟨rows, h⟩ := column.cell_ensureCoverage row
  rw [cell_put_of_ne hr, h]
  exact alike_recodeRows ..

theorem Sound.put (h : column.Sound) (hc : cell.Sound column.spec) : (column.put row cell).Sound := by
  intro r
  by_cases hr : r = row
  · rw [hr, cell_put_self]
    exact hc
  · have ⟨rows, hrows⟩ := column.cell_ensureCoverage row
    rw [cell_put_of_ne hr, hrows]
    exact h.recodeRows rows .decode r

-- A write is turned down at once, or it changes the cell of its row and covers the rows before it.
theorem setVersioned_cases (column : Column α) (w : ColumnWrite α) :
    (∃ e, column.setVersioned w = (.error e, column)) ∨
    ∃ result cell, (column.cell w.row).setVersioned column.spec (w.row < column.cells.length) w = (result, cell) ∧
      column.spec.checkNull w.value = .ok () ∧ column.setVersioned w = (result, column.put w.row cell) := by
  unfold setVersioned
  cases hn : column.spec.checkNull w.value with
  | error e => exact .inl ⟨e, rfl⟩
  | ok u => exact .inr ⟨_, _, rfl, rfl, rfl⟩

theorem Sound.setVersioned (h : column.Sound) (w : ColumnWrite α) : (column.setVersioned w).2.Sound := by
  obtain ⟨e, heq⟩ | ⟨result, cell, hset, _, heq⟩ := column.setVersioned_cases w <;> rw [heq]
  · exact h
  · have hcell := (h w.row).setVersioned (w.row < column.cells.length) w
    rw [hset] at hcell
    exact h.put hcell

theorem Sound.undo (h : column.Sound) : (column.undoLastVersionedWrite row ts false).2.Sound :=
  h.put ((h row).undo ts)

theorem cell_gc (safe : Timestamp) (row : ℕ) : (column.gcVersions safe).2.cell row =
    { column.cell row with chain := ColumnCell.gcChain safe (column.cell row).chain } := by
  simp only [Column.cell, gcVersions, getD_eq_getElem?_getD, getElem?_map]
  cases column.cells[row]? with
  | none => rfl
  | some cell => rfl

theorem Sound.gc (h : column.Sound) (safe : Timestamp) : (column.gcVersions safe).2.Sound := by
  intro row
  rw [cell_gc]
  exact (h row).gcChain safe

theorem Sound.read_gc (h : column.Sound) (hq : safe ≤ queryTs) (row : ℕ) :
    (column.gcVersions safe).2.read row queryTs = column.read row queryTs := by
  have hlength : (column.gcVersions safe).2.cells.length = column.cells.length := by simp [gcVersions]
  have hlinked := (h row).linked
  rw [read, hlength, cell_gc, read, ColumnCell.read, ColumnCell.read]
  congr 3
  refine (ColumnCell.linked_gcChain hlinked safe).valueAt_congr hlinked fun e he => ?_
  exact ColumnCell.mem_gcChain_iff hlinked (hq.trans_lt (covers_iff.mp he).2)

theorem read_put_self (queryTs : Timestamp) : (column.put row cell).read row queryTs = cell.read queryTs := by
  rw [read, length_put, if_pos (by omega), cell_put_self]

-- Rows that become covered on the way to another row read as before if nothing is what they read as.
theorem read_put_of_ne (hgap : column.spec.blank = none ∨ row ≤ column.cells.length) (hr : r ≠ row)
    (queryTs : Timestamp) : (column.put row cell).read r queryTs = column.read r queryTs := by
  rw [read, read, (alike_put hr).read_eq, length_put]
  by_cases hl : r < column.cells.length
  · simp [hl]
  · rw [if_neg hl]
    split
    case isFalse => rfl
    case isTrue hr' =>
      rw [cell_of_uncovered (not_lt.mp hl)]
      exact hgap.resolve_right (by omega)

theorem read_setVersioned_of_ne
    (hgap : column.spec.checkNull w.value = .ok () → column.spec.blank = none ∨ w.row ≤ column.cells.length)
    (hr : r ≠ w.row) (queryTs : Timestamp) : (column.setVersioned w).2.read r queryTs = column.read r queryTs := by
  obtain ⟨e, heq⟩ | ⟨_, cell, _, hn, heq⟩ := column.setVersioned_cases w <;> rw [heq]
  exact read_put_of_ne (hgap hn) hr queryTs

theorem Sound.read_setVersioned_error (h : column.Sound) (hcovered : w.row < column.cells.length)
    (he : (column.setVersioned w).1 = .error e) (queryTs : Timestamp) :
    (column.setVersioned w).2.read w.row queryTs = column.read w.row queryTs := by
  obtain ⟨e, heq⟩ | ⟨result, cell, hset, _, heq⟩ := column.setVersioned_cases w <;> rw [heq] at he ⊢
  obtain rfl : result = .error _ := he
  have hread := ColumnCell.read_setVersioned_error (h w.row) hset queryTs
  rw [read_put_self, hread, read, if_pos hcovered]

theorem Sound.createTs_of_error (h : column.Sound) (he : (column.setVersioned w).1 = .error e) :
    ((column.setVersioned w).2.cell row).createTs = (column.cell row).createTs := by
  obtain ⟨e, heq⟩ | ⟨result, cell, hset, _, heq⟩ := column.setVersioned_cases w <;> rw [heq] at he ⊢
  obtain rfl : result = .error _ := he
  by_cases hrow : row = w.row
  · rw [hrow, cell_put_self, ColumnCell.createTs_of_error (h w.row) hset]
  · exact (alike_put hrow).created

theorem Sound.setVersioned_ok (h : column.Sound) (hok : (column.setVersioned w).1 = .ok ()) :
    (∀ e ∈ (column.cell w.row).chain, e.stop ≤ w.ts) ∧
    (column.setVersioned w).2 = column.put w.row ⟨(column.cell w.row).payload.write column.spec w.value w.inPlace, w.ts,
      ((column.cell w.row).keepCurrent (w.row < column.cells.length) w.ts).chain⟩ := by
  obtain ⟨e, heq⟩ | ⟨result, cell, hset, _, heq⟩ := column.setVersioned_cases w <;> rw [heq] at hok ⊢
  · cases hok
  · obtain rfl : result = .ok () := hok
    have ⟨hstop, _, hcell⟩ := ColumnCell.setVersioned_ok (h w.row) hset
    exact ⟨hstop, by rw [hcell]⟩

-- What is kept of the time before a write is what could be read then.
theorem Sound.valueAt_keepCurrent (h : column.Sound) (hstop : ∀ e ∈ (column.cell row).chain, e.stop ≤ ts)
    (hq : queryTs < ts) : (valueAt ((column.cell row).keepCurrent (row < column.cells.length) ts).chain queryTs).join =
      column.read row queryTs := by
  rw [ColumnCell.valueAt_keepCurrent (h row) (fun hl => cell_of_uncovered (by simpa using hl)) hstop hq, read]
  simp only [decide_eq_true_eq]

theorem Sound.read_setVersioned_ok (h : column.Sound) (hok : (column.setVersioned w).1 = .ok ())
    (hs : ¬(column.cell w.row).payload.Shadows column.spec w.value w.inPlace) (queryTs : Timestamp) :
    (column.setVersioned w).2.read w.row queryTs =
      if w.ts ≤ queryTs then w.value else column.read w.row queryTs := by
  have ⟨hstop, heq⟩ := h.setVersioned_ok hok
  rw [heq, read_put_self, ColumnCell.read]
  split
  case isTrue => exact Payload.current_write (h w.row).payload hs
  case isFalse hq => exact h.valueAt_keepCurrent hstop (not_le.mp hq)

end Column

end Linkrs
