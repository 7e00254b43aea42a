import Linkrs.Lib.StableSort
import Mathlib.Data.List.Chain

-- Values with the spans of time in which they hold.
namespace VersionChain

open List

structure Entry (β : Type) where
  start : ℕ
  stop : ℕ
  value : β
  deriving DecidableEq, Repr

-- A search among keys in ascending order. It finds any position of the key, or the position where
-- the key would have to be put.
structure BinarySearch where
  search : List ℕ → ℕ → Except ℕ ℕ
  found : ∀ {keys : List ℕ} {key i : ℕ}, keys.Pairwise (· ≤ ·) → search keys key = .ok i → keys[i]? = some key
  missing : ∀ {keys : List ℕ} {key i : ℕ}, keys.Pairwise (· ≤ ·) → search keys key = .error i →
    i ≤ keys.length ∧ ∀ j k, keys[j]? = some k → (j < i ↔ k ≤ key)

variable {β : Type}

namespace Entry

def covers (e : Entry β) (t : ℕ) : Bool :=
  e.start ≤ t && t < e.stop

theorem covers_iff {e : Entry β} : e.covers t ↔ e.start ≤ t ∧ t < e.stop := by
  simp [covers]

-- The spans of two entries are apart, or they start together and hold the same value.
def Follows (a b : Entry β) : Prop :=
  a.stop ≤ b.start ∨ (a.start = b.start ∧ a.value = b.value ∧ a.stop ≤ b.stop)

end Entry

open Entry (Follows)

structure Linked (chain : List (Entry β)) : Prop where
  lasting : ∀ e ∈ chain, e.start < e.stop
  follows : chain.Pairwise Follows

def valueAt (chain : List (Entry β)) (t : ℕ) : Option β :=
  (chain.find? (·.covers t)).map (·.value)

namespace Linked

variable {chain chain' : List (Entry β)} {a b e : Entry β} {t : ℕ} {v : β}

theorem nil : Linked ([] : List (Entry β)) :=
  ⟨nofun, .nil⟩

theorem sublist (h : Linked chain) (hs : chain'.Sublist chain) : Linked chain' :=
  ⟨fun e he => h.lasting e (hs.subset he), h.follows.sublist hs⟩

theorem concat (h : Linked chain) (he : e.start < e.stop) (hf : ∀ a ∈ chain, Follows a e) :
    Linked (chain ++ [e]) := by
  refine ⟨forall_mem_append.mpr ⟨h.lasting, forall_mem_singleton.mpr he⟩, ?_⟩
  refine pairwise_append.mpr ⟨h.follows, pairwise_singleton _ _, fun a ha b hb => ?_⟩
  exact mem_singleton.mp hb ▸ hf a ha

theorem sorted (h : Linked chain) : (chain.map (·.start)).Pairwise (· ≤ ·) := by
  refine pairwise_map.mpr (h.follows.imp_of_mem fun {a b} ha _ hab => ?_)
  have := h.lasting a ha
  obtain hab | ⟨hab, -⟩ := hab
  · omega
  · omega

theorem stops (h : Linked chain) : chain.Pairwise fun a b => a.stop ≤ b.stop := by
  refine h.follows.imp_of_mem fun {a b} _ hb hab => ?_
  obtain hab | ⟨-, -, hab⟩ := hab
  · exact hab.trans (h.lasting b hb).le
  · exact hab

theorem value_eq (h : Linked chain) (ha : a ∈ chain) (hb : b ∈ chain) (hat : a.covers t) (hbt : b.covers t) :
    a.value = b.value := by
  let R (a b : Entry β) : Prop := a.covers t → b.covers t → a.value = b.value
  have : Std.Symm R := ⟨fun a b hab hb ha => (hab ha hb).symm⟩
  have hR : chain.Pairwise R := h.follows.imp fun {a b} hab hat hbt => by
    rw [Entry.covers_iff] at hat hbt
    obtain hab | ⟨-, hab, -⟩ := hab
    · omega
    · exact hab
  exact hR.forall_of_forall (fun _ _ _ _ => rfl) ha hb hat hbt

theorem valueAt_eq_some_iff (h : Linked chain) : valueAt chain t = some v ↔ ∃ e ∈ chain, e.covers t ∧ e.value = v := by
  unfold valueAt
  constructor
  · intro hv
    have ⟨e, he, hev⟩ := Option.map_eq_some_iff.mp hv
    exact ⟨e, mem_of_find?_eq_some he, by simpa using find?_some he, hev⟩
  · rintro ⟨e, he, ht, rfl⟩
    have hfound : (chain.find? (·.covers t)).isSome := find?_isSome.mpr ⟨e, he, ht⟩
    have ⟨e', he'⟩ := Option.isSome_iff_exists.mp hfound
    have ht' : e'.covers t := by simpa using find?_some he'
    rw [he', Option.map_some, h.value_eq (mem_of_find?_eq_some he') he ht' ht]

theorem valueAt_eq_none_iff : valueAt chain t = none ↔ ∀ e ∈ chain, ¬e.covers t := by
  rw [valueAt, Option.map_eq_none_iff, find?_eq_none]

-- Two chains agree at a time if they agree on the entries that cover it.
theorem valueAt_congr (h : Linked chain) (h' : Linked chain') (he : ∀ e, e.covers t → (e ∈ chain ↔ e ∈ chain')) :
    valueAt chain t = valueAt chain' t := by
  refine Option.ext fun v => ?_
  rw [h.valueAt_eq_some_iff, h'.valueAt_eq_some_iff]
  refine exists_congr fun e => ?_
  rw [and_congr_left]
  exact fun ⟨ht, _⟩ => he e ht

-- The entry at the position that a search leads to covers the time if any entry does.
theorem covers_of_search_ok (h : Linked chain) (bs : BinarySearch)
    (hs : bs.search (chain.map (·.start)) t = .ok i) : ∃ e, chain[i]? = some e ∧ e.covers t := by
  have hfound := bs.found h.sorted hs
  rw [getElem?_map, Option.map_eq_some_iff] at hfound
  have ⟨e, he, hstart⟩ := hfound
  have := h.lasting e (mem_of_getElem? he)
  exact ⟨e, he, Entry.covers_iff.mpr ⟨hstart.le, by omega⟩⟩

theorem covers_of_search_error (h : Linked chain) (bs : BinarySearch)
    (hs : bs.search (chain.map (·.start)) t = .error i) (ha : a ∈ chain) (hat : a.covers t) :
    ∃ j e, i = j + 1 ∧ chain[j]? = some e ∧ e.covers t := by
  have hcovers := Entry.covers_iff.mp hat
  have ⟨hle, hmissing⟩ := bs.missing h.sorted hs
  rw [length_map] at hle
  have ⟨k, hk, hka⟩ := mem_iff_getElem.mp ha
  have hki : k < i := (hmissing k a.start (by simp [hka, hk])).mpr hcovers.1
  obtain ⟨j, rfl⟩ : ∃ j, i = j + 1 := ⟨i - 1, by omega⟩
  have hj : j < chain.length := hle
  refine ⟨j, chain[j], rfl, getElem?_eq_getElem hj, Entry.covers_iff.mpr ?_⟩
  have hstart : chain[j].start ≤ t := (hmissing j chain[j].start (by simp [hj])).mp (by omega)
  obtain hkj | rfl := lt_or_eq_of_le (Nat.lt_succ_iff.mp hki)
  · have hfollows := pairwise_iff_getElem.mp h.follows k j hk hj hkj
    rw [hka] at hfollows
    obtain hfollows | ⟨-, -, hfollows⟩ := hfollows
    · omega
    · omega
  · rw [hka]
    exact hcovers

end Linked

namespace BinarySearch

theorem lt_countP_iff {keys : List ℕ} (hs : keys.Pairwise (· ≤ ·)) (j k : ℕ) (hk : keys[j]? = some k) :
    j < keys.countP (· < key) ↔ k < key := by
  induction keys generalizing j with
  | nil => cases hk
  | cons x keys ind =>
    have ⟨hx, hs⟩ := pairwise_cons.mp hs
    by_cases hlt : x < key
    · rw [countP_cons_of_pos (by simpa using hlt)]
      cases j with
      | zero =>
        obtain rfl : x = k := Option.some.inj hk
        exact iff_of_true (Nat.succ_pos _) hlt
      | succ j => rw [Nat.succ_lt_succ_iff, ind hs j hk]
    · have hge : ∀ y ∈ x :: keys, ¬y < key := by
        rintro y (_ | ⟨_, hy⟩)
        · exact hlt
        · exact fun h => hlt (lt_of_le_of_lt (hx y hy) h)
      rw [countP_eq_zero.mpr (by simpa using hge)]
      exact iff_of_false (Nat.not_lt_zero j) (hge k (mem_of_getElem? hk))

def linear : BinarySearch where
  search keys key := if key ∈ keys then .ok (keys.idxOf key) else .error (keys.countP (· < key))
  found {keys key i} _ h := by
    split at h
    case isTrue hm =>
      obtain rfl := Except.ok.inj h
      exact getElem?_idxOf hm
    case isFalse => cases h
  missing {keys key i} hs h := by
    split at h
    case isTrue => cases h
    case isFalse hm =>
      obtain rfl := Except.error.inj h
      refine ⟨countP_le_length, fun j k hk => ?_⟩
      have hne : k ≠ key := fun he => hm (he ▸ mem_of_getElem? hk)
      rw [lt_countP_iff hs j k hk]
      omega

end BinarySearch

end VersionChain
