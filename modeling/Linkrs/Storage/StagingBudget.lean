import Linkrs.Storage.StagingCompose

open EntryJournal

namespace Linkrs
open Finset

namespace TxnStaging

open StagedRows (slot)

variable {α : Type} {s : TxnStaging α} {pair : StagedKey} {op : RowOp α}

-- The keys that have something staged, each of them once.
def held (s : TxnStaging α) : Finset StagedKey :=
  s.inserts.keys ∪ s.updates.keys ∪ s.deletes ∪ s.propertyDeletes.keys

-- The limit is compared with the entries of the maps. A key with entries in two of them counts twice.
def repeated (s : TxnStaging α) : ℕ :=
  s.len - s.held.card

def Refused (s : TxnStaging α) (pair : StagedKey) (op : RowOp α) : Prop :=
  ∃ message, (s.stageRow pair op).1 = .error ⟨.capacityExceeded, message⟩

def stageRows (s : TxnStaging α) (ops : List (StagedKey × RowOp α)) : TxnStaging α :=
  ops.foldl (fun s op => (s.stageRow op.1 op.2).2) s

theorem card_held_le (s : TxnStaging α) : s.held.card ≤ s.len := by
  refine (card_union_le _ _).trans (Nat.add_le_add_right ?_ _)
  refine (card_union_le _ _).trans (Nat.add_le_add_right ?_ _)
  exact card_union_le _ _

theorem mem_held :
    pair ∈ s.held ↔ pair ∈ s.inserts ∨ pair ∈ s.updates ∨ pair ∈ s.deletes ∨ pair ∈ s.propertyDeletes := by
  simp [held, Finmap.mem_keys]

theorem mem_held_iff_slot : pair ∈ s.held ↔ s.slot pair ≠ .empty := by
  rw [mem_held, ← not_iff_not]
  simp [slot, StagedSlot.empty, Finmap.lookup_eq_none]

theorem countsAsNew_iff : s.countsAsNew pair ↔ pair ∉ s.held := by
  simp [countsAsNew, mem_held, and_assoc]

theorem ensureCapacity_eq_error (h : s.ensureCapacity = .error e) : maxTxnStagingKeys ≤ s.len := by
  unfold ensureCapacity at h
  split at h
  case isTrue hl => exact hl
  case isFalse => cases h

theorem ensureCapacity_full (h : maxTxnStagingKeys ≤ s.len) :
    ∃ message, s.ensureCapacity = .error ⟨.capacityExceeded, message⟩ :=
  ⟨_, if_pos h⟩

theorem checkBudget_eq_error (h : s.checkBudget pair = .error e) : pair ∉ s.held ∧ maxTxnStagingKeys ≤ s.len := by
  unfold checkBudget at h
  split at h
  case isTrue hn => exact ⟨countsAsNew_iff.mp hn, ensureCapacity_eq_error h⟩
  case isFalse => cases h

theorem checkBudget_full (hp : pair ∉ s.held) (hl : maxTxnStagingKeys ≤ s.len) :
    ∃ message, s.checkBudget pair = .error ⟨.capacityExceeded, message⟩ := by
  rw [checkBudget, if_pos (countsAsNew_iff.mpr hp)]
  exact ensureCapacity_full hl

theorem checkBudget_ok (h : pair ∈ s.held ∨ s.len < maxTxnStagingKeys) : s.checkBudget pair = .ok () := by
  cases hc : s.checkBudget pair with
  | ok _ => rfl
  | error e =>
    have ⟨hp, hl⟩ := checkBudget_eq_error hc
    exact absurd h (not_or.mpr ⟨hp, hl.not_gt⟩)

theorem extends_stageRow : Extends (· = pair) s (s.stageRow pair op).2 := by
  cases op with
  | insert reserved properties => exact extends_stageInsert reserved properties
  | update columns => exact extends_stageUpdate columns
  | propertyDelete columns => exact extends_stagePropertyDelete columns
  | delete => exact extends_stageDelete

theorem held_stageRow : (s.stageRow pair op).2.held ⊆ insert pair s.held := by
  intro k hk
  by_cases h : k = pair
  · exact h ▸ mem_insert_self _ _
  · rw [mem_held_iff_slot, extends_stageRow.slot_eq h, ← mem_held_iff_slot] at hk
    exact mem_insert_of_mem hk

-- A key that has nothing staged does not get anything staged once the limit is reached.
theorem stageRow_full (hp : pair ∉ s.held) (hl : maxTxnStagingKeys ≤ s.len) : (s.stageRow pair op).2 = s := by
  have ⟨_, he⟩ := ensureCapacity_full hl
  have ⟨_, hb⟩ := checkBudget_full hp hl
  simp only [mem_held, not_or] at hp
  have hi : s.inserts.lookup pair = none := Finmap.lookup_eq_none.mpr hp.1
  cases op with
  | insert reserved properties => simp [stageRow, stageInsert, hb]
  | update columns => simp [stageRow, stageUpdate, hi, hb]
  | propertyDelete columns =>
    simp only [stageRow, stagePropertyDelete, hi, hb]
    split <;> rfl
  | delete => simp [stageRow, stageDelete, hi, dropUpdates, dropPropertyDeletes, hp, he]

theorem card_held_stageRow (h : s.held.card ≤ maxTxnStagingKeys) :
    (s.stageRow pair op).2.held.card ≤ maxTxnStagingKeys := by
  by_cases hp : pair ∈ s.held
  · exact (card_le_card (insert_eq_self.mpr hp ▸ held_stageRow)).trans h
  by_cases hl : maxTxnStagingKeys ≤ s.len
  · rwa [stageRow_full hp hl]
  · calc (s.stageRow pair op).2.held.card
      _ ≤ (insert pair s.held).card := card_le_card held_stageRow
      _ ≤ s.held.card + 1 := card_insert_le _ _
      _ ≤ s.len + 1 := Nat.add_le_add_right s.card_held_le 1
      _ ≤ maxTxnStagingKeys := not_le.mp hl

theorem card_held_stageRows (ops : List (StagedKey × RowOp α)) (h : s.held.card ≤ maxTxnStagingKeys) :
    (s.stageRows ops).held.card ≤ maxTxnStagingKeys := by
  induction ops generalizing s with
  | nil => exact h
  | cons op ops ind => exact ind (card_held_stageRow h)

theorem len_dropUpdates (s : TxnStaging α) (pair : StagedKey) :
    (s.dropUpdates pair).len + (if pair ∈ s.updates then 1 else 0) = s.len := by
  unfold dropUpdates
  split
  case isTrue h =>
    have hc := card_erase_add_one (Finmap.mem_keys.mpr h)
    simp only [len, writeUpdates, setEntry, Finmap.keys_erase]
    omega
  case isFalse => rfl

theorem len_dropPropertyDeletes (s : TxnStaging α) (pair : StagedKey) :
    (s.dropPropertyDeletes pair).len + (if pair ∈ s.propertyDeletes then 1 else 0) = s.len := by
  unfold dropPropertyDeletes
  split
  case isTrue h =>
    have hc := card_erase_add_one (Finmap.mem_keys.mpr h)
    simp only [len, writePropertyDeletes, setEntry, Finmap.keys_erase]
    omega
  case isFalse => rfl

-- What a delete drops makes room for it, so that a key that is held finds the buffer full only above the limit.
theorem stageDelete_eq_error (h : (s.stageDelete pair).1 = .error e) :
    (pair ∉ s.held ∧ maxTxnStagingKeys ≤ s.len) ∨ maxTxnStagingKeys < s.len := by
  unfold stageDelete at h
  split at h
  case h_1 => cases h
  case h_2 hi =>
    dsimp only at h
    split at h
    case h_2 => cases h
    case h_1 he =>
      have hp : ((s.dropUpdates pair).propertyDeletes) = s.propertyDeletes := by
        unfold dropUpdates
        split <;> rfl
      have hd : ((s.dropUpdates pair).dropPropertyDeletes pair).deletes = s.deletes := by
        unfold dropPropertyDeletes dropUpdates
        split <;> split <;> rfl
      have h₁ := s.len_dropUpdates pair
      have h₂ := (s.dropUpdates pair).len_dropPropertyDeletes pair
      rw [hp] at h₂
      split at he
      case isTrue => cases he
      case isFalse hdel =>
        have hl := ensureCapacity_eq_error he
        by_cases hm : pair ∈ s.held
        · right
          rcases mem_held.mp hm with hins | hu | hdel' | hpd
          · exact absurd hins (Finmap.lookup_eq_none.mp hi)
          · rw [if_pos hu] at h₁
            omega
          · exact absurd (hd ▸ hdel') hdel
          · rw [if_pos hpd] at h₂
            omega
        · exact .inl ⟨hm, by omega⟩

theorem Refused.exceeds (h : s.Refused pair op) : maxTxnStagingKeys < (insert pair s.held).card + s.repeated := by
  have hfull : (pair ∉ s.held ∧ maxTxnStagingKeys ≤ s.len) ∨ maxTxnStagingKeys < s.len := by
    have ⟨message, he⟩ := h
    cases op with
    | insert reserved properties =>
      cases hc : s.checkBudget pair with
      | error e => exact .inl (checkBudget_eq_error hc)
      | ok _ =>
        simp only [stageRow, stageInsert, hc] at he
        split at he <;> cases he
    | update columns =>
      simp only [stageRow, stageUpdate] at he
      split at he
      case h_1 => cases he
      case h_2 =>
        split at he
        case h_1 hc => exact .inl (checkBudget_eq_error hc)
        case h_2 => cases he
    | propertyDelete columns =>
      simp only [stageRow, stagePropertyDelete] at he
      split at he
      case isTrue => cases he
      case isFalse =>
        split at he
        case h_1 => cases he
        case h_2 =>
          split at he
          case h_1 hc => exact .inl (checkBudget_eq_error hc)
          case h_2 => cases he
    | delete =>
      cases hd : (s.stageDelete pair).1 with
      | error e => exact stageDelete_eq_error hd
      | ok _ => simp [stageRow, hd, Except.map] at he
  have hle := s.card_held_le
  unfold repeated
  rcases hfull with ⟨hp, hl⟩ | hl
  · rw [card_insert_of_notMem hp]
    omega
  · have := card_le_card (subset_insert pair s.held)
    omega

theorem staging_bounded (ops : List (StagedKey × RowOp α)) :
    ((new : TxnStaging α).stageRows ops).held.card ≤ maxTxnStagingKeys ∧
    ∀ pair op, (new.stageRows ops).Refused pair op →
      maxTxnStagingKeys < (insert pair (new.stageRows ops).held).card + (new.stageRows ops).repeated :=
  ⟨card_held_stageRows ops (Nat.zero_le _), fun _ _ h => h.exceeds⟩

def someKey (i : ℕ) : StagedKey :=
  (1, .int (.ofNat i))

def doubled (n : ℕ) : List (StagedKey × RowOp Empty) :=
  (List.range n).flatMap fun i =>
    [(someKey i, .update [("a", .scalar .empty)]), (someKey i, .propertyDelete ["b"])]

theorem keys_setEntry {m : Table StagedKey β} {b : β} : (setEntry m pair (some b)).keys = insert pair m.keys := by
  ext k
  simp [setEntry, Finmap.mem_keys]

-- Each of the keys has an update of one column and the deletion of another one staged.
structure Doubled (s : TxnStaging Empty) (K : Finset StagedKey) : Prop where
  inserts : s.inserts = ∅
  updates : s.updates.keys = K
  deletes : s.deletes = ∅
  propertyDeletes : s.propertyDeletes.keys = K

namespace Doubled

variable {s : TxnStaging Empty} {K : Finset StagedKey}

theorem counts (h : Doubled s K) : s.len = 2 * K.card ∧ s.held = K := by
  simp only [len, TxnStaging.held, h.inserts, h.updates, h.deletes, h.propertyDeletes, Finmap.keys_empty,
    card_empty, empty_union, union_empty, union_self, and_true]
  omega

-- A key that is held already is not checked again, so that the second entry of a key always finds room.
theorem stageRow (h : Doubled s K) (hp : pair ∉ K) (hl : 2 * K.card < maxTxnStagingKeys) :
    Doubled ((s.stageRow pair (.update [("a", .scalar .empty)])).2.stageRow pair (.propertyDelete ["b"])).2
      (insert pair K) := by
  have hpd : s.propertyDeletes.lookup pair = none := by
    rw [Finmap.lookup_eq_none, ← Finmap.mem_keys, h.propertyDeletes]
    exact hp
  have hu : s.updates.lookup pair = none := by
    rw [Finmap.lookup_eq_none, ← Finmap.mem_keys, h.updates]
    exact hp
  have hs : (s.stageRow pair (.update [("a", .scalar .empty)])).2 = s.writeUpdates pair (some [("a", .scalar .empty)]) := by
    simp [TxnStaging.stageRow, stageUpdate, h.inserts, checkBudget_ok (.inr (h.counts.1 ▸ hl)), prunePropertyDeletes, hpd, hu]
  have hm : pair ∈ (s.writeUpdates pair (some [("a", .scalar .empty)])).held := by
    simp [mem_held, writeUpdates, setEntry]
  have hc := checkBudget_ok (.inl hm)
  have hi : (s.writeUpdates pair (some [("a", .scalar .empty)])).inserts = ∅ := h.inserts
  rw [hs, TxnStaging.stageRow, stagePropertyDelete, hi, hc]
  simp only [pruneUpdates, writeUpdates, lookup_setEntry]
  refine ⟨h.inserts, ?_, h.deletes, ?_⟩
  · exact (keys_setEntry.trans (congrArg _ keys_setEntry)).trans (by simp [h.updates])
  · exact keys_setEntry.trans (by rw [h.propertyDeletes])

end Doubled

theorem someKey_injective (hi : i < 2 ^ 63) (hj : j < 2 ^ 63) (h : someKey i = someKey j) : i = j := by
  have h : Int64.ofNat i = .ofNat j := IdKey.int.inj (Prod.mk.inj h).2
  have hint : (i : ℤ) = j := by rw [← Int64.toInt_ofNat_of_lt hi, ← Int64.toInt_ofNat_of_lt hj, h]
  exact Int.ofNat_inj.mp hint

theorem card_someKeys (h : n ≤ 2 ^ 63) : ((Finset.range n).image someKey).card = n := by
  rw [card_image_of_injOn, card_range]
  intro i hi j hj heq
  simp only [coe_range, Set.mem_Iio] at hi hj
  exact someKey_injective (hi.trans_le h) (hj.trans_le h) heq

theorem doubled_stageRows (hn : 2 * n ≤ maxTxnStagingKeys) :
    Doubled (new.stageRows (doubled n)) ((Finset.range n).image someKey) := by
  induction n with
  | zero => exact ⟨rfl, rfl, rfl, rfl⟩
  | succ n ind =>
    have hlimit : maxTxnStagingKeys = 2 ^ 20 := rfl
    have hfresh : someKey n ∉ (Finset.range n).image someKey := by
      simp only [mem_image, mem_range, not_exists, not_and]
      intro i hi heq
      exact hi.ne (someKey_injective (by omega) (by omega) heq)
    have h := (ind (by omega)).stageRow hfresh (by rw [card_someKeys (by omega)]; omega)
    rw [range_add_one, image_insert]
    simpa [stageRows, doubled, List.range_succ] using h

theorem doubled_full (hn : 2 * n = maxTxnStagingKeys) :
    (new.stageRows (doubled n)).Refused (1, .text "x") (.insert 0 []) ∧
    (insert (1, .text "x") (new.stageRows (doubled n)).held).card = n + 1 := by
  have hlimit : maxTxnStagingKeys = 2 ^ 20 := rfl
  have ⟨hlen, hheld⟩ := (doubled_stageRows hn.le).counts
  have hcard := card_someKeys (n := n) (by omega)
  rw [hcard, hn] at hlen
  have hp : (1, .text "x") ∉ (new.stageRows (doubled n)).held := by
    rw [hheld, mem_image]
    rintro ⟨i, _, hi⟩
    cases hi
  have ⟨message, hb⟩ := checkBudget_full hp hlen.ge
  constructor
  · refine ⟨message, ?_⟩
    simp only [stageRow, stageInsert, hb, Except.map]
  · rw [card_insert_of_notMem hp, hheld, hcard]

theorem staging_refuses_early : (new.stageRows (doubled (2 ^ 19))).Refused (1, .text "x") (.insert 0 []) ∧
    (insert (1, .text "x") (new.stageRows (doubled (2 ^ 19))).held).card = 2 ^ 19 + 1 ∧
    2 ^ 19 + 1 ≤ maxTxnStagingKeys := by
  have ⟨hr, hc⟩ := doubled_full (n := 2 ^ 19) rfl
  exact ⟨hr, hc, by norm_num [maxTxnStagingKeys]⟩

end TxnStaging
end Linkrs
