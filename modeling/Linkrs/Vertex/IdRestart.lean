import Linkrs.Lib.Transition
import Linkrs.Vertex.IdCodec

namespace Linkrs.IdManager

open List Option Function Finset
open Except (ensure)

variable {m m' b r : IdManager} {key key' : IdKey} {id i : ℕ}

theorem maxCapacity_lt : maxCapacity < 256 ^ 4 := by
  decide

-- What the types of an index and its checks ensure, whatever is called.
structure Sized (m : IdManager) : Prop where
  length : m.keys.length ≤ maxCapacity
  capacity : m.capacity ≤ maxCapacity
  free : ∀ id ∈ m.freeSet, id < maxCapacity
  bound : ∀ {key id}, m.map key = some id → id < m.keys.length ∧ key.validateShape = .ok ()
  log : ∀ d ∈ m.deltaLog, d.Valid

-- The map and the key table say the same.
structure Coherent (m : IdManager) : Prop extends Sized m where
  map_iff : ∀ key id, m.map key = some id ↔ m.getKey id = some key
  live : ∀ id, id ∈ m.liveIds ↔ (m.getKey id).isSome

section

variable {c : IdCall}

-- What a call changes: nothing that a reader sees, or one binding more, or one less.
inductive Effect (m : IdManager) : IdCall → IdManager → Prop
  | silent {c : IdCall} {m' : IdManager} :
    m'.map = m.map → (∀ i, m'.getKey i = m.getKey i) → m'.liveIds = m.liveIds → m'.deltaLog = m.deltaLog →
    (∀ key, c = .remove key → m.map key = none) → Effect m c m'
  | bind {c : IdCall} {m' : IdManager} {key : IdKey} {id : ℕ} :
    m.map key = none → key.validateShape = .ok () → id < m'.keys.length →
    m'.map = Function.update m.map key (some id) →
    (∀ i, m'.getKey i = if i = id then some key else m.getKey i) → m'.liveIds = Insert.insert id m.liveIds →
    m'.deltaLog = m.deltaLog ++ [.insert key id] →
    (∀ key, c ≠ .remove key) → Effect m c m'
  | unbind {m' : IdManager} {key : IdKey} {id : ℕ} :
    m.map key = some id → m'.map = Function.update m.map key none →
    (∀ i, m'.getKey i = if i = id then none else m.getKey i) → m'.liveIds = m.liveIds.erase id →
    m'.deltaLog = m.deltaLog ++ [.remove key] → Effect m (.remove key) m'

theorem Unbound.effect_bindSlot (h : Unbound m m' id) (hk : m.map key = none)
    (hs : key.validateShape = .ok ()) (hc : ∀ key, c ≠ .remove key) : Effect m c (m'.bindSlot key id) := by
  refine .bind hk hs (by simpa [bindSlot] using h.lt) ?_ ?_ (by simp [bindSlot, h.liveIds]) ?_ hc
  · simp [bindSlot, h.map]
  · intro i
    rw [getKey_bindSlot h.lt, h.getKey]
  · simp [bindSlot, h.deltaLog]

theorem map_call_remove (h : m.map key = some id) :
    (m.call (.remove key)).map = Function.update m.map key none := by
  simp [call, remove, h]

theorem getKey_call_remove (h : m.map key = some id) (hl : id < m.keys.length) :
    (m.call (.remove key)).getKey i = if i = id then none else m.getKey i := by
  simp only [call, remove, h, getKey, getElem?_set]
  by_cases hi : id = i
  case pos => subst hi; simp [hl]
  case neg => simp [hi, Ne.symm hi]

theorem call_effect (hm : m.Sized) (c : IdCall) : Effect m c (m.call c) := by
  have hn : ∀ {c : IdCall}, (∀ key, c ≠ .remove key) → Effect m c m := fun hc =>
    .silent rfl (fun _ => rfl) rfl rfl fun key he => absurd he (hc key)
  cases c with
  | insert key =>
    cases he : m.insert key with
    | error e => simpa [call, he, Except.toOption] using hn (by simp)
    | ok p =>
      obtain ⟨hs, hk, m₁, hu, hb⟩ := insert_spec he
      simpa [call, he, Except.toOption, hb] using hu.effect_bindSlot hk hs (by simp)
  | reserveNext =>
    cases he : m.reserveNext with
    | error e => simpa [call, he, Except.toOption] using hn (by simp)
    | ok p =>
      have hu := takeNextId_spec he
      simpa [call, he, Except.toOption] using
        Effect.silent (c := .reserveNext) hu.map hu.getKey hu.liveIds hu.deltaLog (by simp)
  | registerReserved key id =>
    cases he : m.registerReserved key id with
    | error e => simpa [call, he, Except.toOption] using hn (by simp)
    | ok m' =>
      obtain ⟨hs, hk, hi, hb⟩ := registerReserved_spec he
      have hl : id < m.keys.length := (List.getElem?_eq_some_iff.mp hi).1
      subst hb
      simp only [call, he, Except.toOption, getD_some]
      exact .bind hk hs (by simpa [bindSlot] using hl) rfl (fun i => getKey_bindSlot hl) rfl rfl (by simp)
  | releaseReserved id =>
    simp only [call, releaseReserved]
    split
    case isTrue => exact .silent rfl (fun _ => rfl) rfl rfl (by simp)
    case isFalse => exact hn (by simp)
  | remove key =>
    cases hk : m.map key with
    | none =>
      simp only [call, remove, hk]
      exact .silent rfl (fun _ => rfl) rfl rfl fun key' he => by cases he; exact hk
    | some id =>
      exact .unbind hk (map_call_remove hk) (fun i => getKey_call_remove hk (hm.bound hk).1)
        (by simp [call, remove, hk]) (by simp [call, remove, hk])

theorem Sized.lt_of_unbound (hm : m.Sized) (h : Unbound m m' id) : id < maxCapacity := by
  rcases h.origin with ⟨hi, -⟩ | ⟨-, -, hc⟩
  · exact hm.free id hi
  · exact hc.trans_le hm.capacity

theorem Sized.unbound (hm : m.Sized) (h : Unbound m m' id) : m'.Sized where
  length := by
    have := hm.length
    have := hm.lt_of_unbound h
    rw [h.length]
    omega
  capacity := h.capacity ▸ hm.capacity
  free i hi := hm.free i (Finset.mem_of_mem_erase (h.freeSet ▸ hi))
  bound hk := by
    have ⟨hl, hs⟩ := hm.bound (h.map ▸ hk)
    exact ⟨by rw [h.length]; omega, hs⟩
  log := h.deltaLog ▸ hm.log

theorem Sized.bindSlot (hm : m.Sized) (hi : id < m.keys.length) (hs : key.validateShape = .ok ()) :
    (m.bindSlot key id).Sized where
  length := by simpa [IdManager.bindSlot] using hm.length
  capacity := hm.capacity
  free := hm.free
  bound {k i} hk := by
    simp only [IdManager.bindSlot, update_apply, length_set] at *
    split at hk
    case isTrue he => cases hk; exact ⟨hi, he ▸ hs⟩
    case isFalse he => exact hm.bound hk
  log d hd := by
    rcases mem_append.mp hd with hd | hd
    · exact hm.log d hd
    · cases List.mem_singleton.mp hd
      exact ⟨hs, (hi.trans_le hm.length).trans maxCapacity_lt⟩

theorem Sized.call (hm : m.Sized) (c : IdCall) : (m.call c).Sized := by
  cases c with
  | insert key =>
    cases he : m.insert key with
    | error e => simpa [IdManager.call, he, Except.toOption] using hm
    | ok p =>
      obtain ⟨hs, hk, m₁, hu, hb⟩ := insert_spec he
      simpa [IdManager.call, he, Except.toOption, hb] using (hm.unbound hu).bindSlot hu.lt hs
  | reserveNext =>
    cases he : m.reserveNext with
    | error e => simpa [IdManager.call, he, Except.toOption] using hm
    | ok p => simpa [IdManager.call, he, Except.toOption] using hm.unbound (takeNextId_spec he)
  | registerReserved key id =>
    cases he : m.registerReserved key id with
    | error e => simpa [IdManager.call, he, Except.toOption] using hm
    | ok m' =>
      obtain ⟨hs, hk, hi, hb⟩ := registerReserved_spec he
      simpa [IdManager.call, he, Except.toOption, hb] using
        hm.bindSlot (List.getElem?_eq_some_iff.mp hi).1 hs
  | releaseReserved id =>
    simp only [IdManager.call, releaseReserved]
    split
    case isFalse => exact hm
    case isTrue hi =>
      refine { hm with free := fun i h => ?_ }
      rcases mem_insert.mp h with rfl | h
      · exact (List.getElem?_eq_some_iff.mp hi).1.trans_le hm.length
      · exact hm.free i h
  | remove key =>
    simp only [IdManager.call, remove]
    cases hk : m.map key with
    | none => exact hm
    | some id =>
      obtain ⟨hi, hs⟩ := hm.bound hk
      refine ⟨by simpa using hm.length, hm.capacity, fun i h => ?_, fun {k j} h => ?_, fun d hd => ?_⟩
      · rcases mem_insert.mp h with rfl | h
        · exact hi.trans_le hm.length
        · exact hm.free i h
      · simp only [update_apply, length_set] at h ⊢
        split at h
        case isTrue => cases h
        case isFalse => exact hm.bound h
      · rcases mem_append.mp hd with hd | hd
        · exact hm.log d hd
        · cases List.mem_singleton.mp hd
          exact hs

theorem Sized.calls (hm : m.Sized) (cs : List IdCall) : (cs.foldl IdManager.call m).Sized := by
  induction cs generalizing m with
  | nil => exact hm
  | cons c cs ind => exact ind (hm.call c)

end

section

-- The ids that a call frees for good.
def freedBy (m : IdManager) : IdCall → Finset ℕ
  | .remove key => (m.map key).elim ∅ singleton
  | _ => ∅

def freed (m : IdManager) : List IdCall → Finset ℕ
  | [] => ∅
  | c :: cs => m.freedBy c ∪ (m.call c).freed cs

-- `r` maps keys to ids and ids to keys as `m` does.
structure Mirrors (m r : IdManager) : Prop where
  map : r.map = m.map
  getKey : ∀ i, r.getKey i = m.getKey i

theorem freedBy_of_ne (h : ∀ key, c ≠ .remove key) : m.freedBy c = ∅ := by
  cases c with
  | remove key => exact absurd rfl (h key)
  | _ => rfl

theorem Sized.growTo (hm : m.Sized) (hi : id < maxCapacity) : (m.growTo id).Sized where
  length := by
    have := hm.length
    rw [length_growTo]
    omega
  capacity := hm.capacity
  free := hm.free
  bound hk := by
    have ⟨hl, hs⟩ := hm.bound hk
    exact ⟨by rw [length_growTo]; omega, hs⟩
  log := hm.log

-- Replaying leaves the log alone.
def unlogged (m r : IdManager) : IdManager :=
  { m with deltaLog := r.deltaLog }

theorem Sized.unlogged (hm : m.Sized) (hr : r.Sized) : (m.unlogged r).Sized :=
  { hm with log := hr.log }

theorem applyDeltaEntry_insert (hs : key.validateShape = .ok ()) (hk : r.map key = none) :
    r.applyDeltaEntry (0, id, key) = .ok (((r.growTo id).bindSlot key id).unlogged r) := by
  simp [applyDeltaEntry, hs, hk, pure, Except.pure, unlogged, bindSlot, growTo]

theorem applyDeltaEntry_remove (hk : r.map key = some id) :
    r.applyDeltaEntry (1, 0, key) = .ok ((r.call (.remove key)).unlogged r) := by
  simp [applyDeltaEntry, hk, unlogged, call, remove]

-- The entries that a call has logged do to the reopened index what the call did.
theorem Mirrors.replay (h : Mirrors m r) (hr : r.Sized) (hm : m.Sized) :
    ∃ ds r', (m.call c).deltaLog = m.deltaLog ++ ds ∧
      r.applyDeltaEntries (ds.map IndexDelta.toEntry) = .ok r' ∧ Mirrors (m.call c) r' ∧
      r'.Sized ∧ r'.freeSet = r.freeSet ∪ m.freedBy c := by
  cases call_effect hm c with
  | silent hmap hkey _ hlog hc =>
    refine ⟨[], r, by simp [hlog], rfl, ⟨h.map.trans hmap.symm, fun i => ?_⟩, hr, ?_⟩
    · rw [h.getKey, hkey]
    · cases c with
      | remove key => simp [freedBy, hc key rfl]
      | _ => simp [freedBy]
  | @bind _ _ key id hk hs hi hmap hkey _ hlog hc =>
    have hl : id < maxCapacity := hi.trans_le (hm.call c).length
    have hg : id < (r.growTo id).keys.length := by
      rw [length_growTo]
      omega
    refine ⟨[.insert key id], ((r.growTo id).bindSlot key id).unlogged r, hlog, ?_, ⟨?_, ?_⟩,
      ((hr.growTo hl).bindSlot hg hs).unlogged hr, ?_⟩
    · simp [applyDeltaEntries, IndexDelta.toEntry, applyDeltaEntry_insert hs (h.map ▸ hk)]
    · simp [unlogged, bindSlot, growTo, h.map, hmap]
    · intro i
      exact (getKey_bindSlot hg).trans (by rw [getKey_growTo, h.getKey, hkey])
    · simp [unlogged, bindSlot, growTo, freedBy_of_ne hc]
  | @unbind _ key id hk hmap hkey _ hlog =>
    have hk' : r.map key = some id := h.map ▸ hk
    refine ⟨[.remove key], (r.call (.remove key)).unlogged r, hlog, ?_, ⟨?_, ?_⟩, (hr.call _).unlogged hr, ?_⟩
    · simp [applyDeltaEntries, IndexDelta.toEntry, applyDeltaEntry_remove hk']
    · rw [hmap, ← h.map]
      exact map_call_remove hk'
    · intro i
      rw [hkey, ← h.getKey]
      exact getKey_call_remove hk' (hr.bound hk').1
    · simp [unlogged, call, remove, hk', freedBy, hk]

theorem Mirrors.replayAll (cs : List IdCall) (h : Mirrors m r) (hr : r.Sized) (hm : m.Sized) :
    ∃ ds r', (cs.foldl call m).deltaLog = m.deltaLog ++ ds ∧
      r.applyDeltaEntries (ds.map IndexDelta.toEntry) = .ok r' ∧ Mirrors (cs.foldl call m) r' ∧
      r'.Sized ∧ r'.freeSet = r.freeSet ∪ m.freed cs := by
  induction cs generalizing m r with
  | nil => exact ⟨[], r, by simp, rfl, h, hr, by simp [freed]⟩
  | cons c cs ind =>
    have ⟨ds₁, r₁, hl₁, ha₁, h₁, hr₁, hf₁⟩ := h.replay (c := c) hr hm
    have ⟨ds₂, r₂, hl₂, ha₂, h₂, hr₂, hf₂⟩ := ind h₁ hr₁ (hm.call c)
    refine ⟨ds₁ ++ ds₂, r₂, ?_, ?_, h₂, hr₂, ?_⟩
    · rw [foldl_cons, hl₂, hl₁, append_assoc]
    · simp only [applyDeltaEntries, map_append, foldlM_append] at *
      rw [ha₁]
      exact ha₂
    · rw [hf₂, hf₁, freed, union_assoc]

end

section

variable {es : List (ℕ × IdKey)}

-- The index holds the given bindings, and slots up to the last one of them.
structure Loaded (es : List (ℕ × IdKey)) (m : IdManager) : Prop where
  map : ∀ key id, m.map key = some id ↔ (id, key) ∈ es
  getKey : ∀ id key, m.getKey id = some key ↔ (id, key) ∈ es
  live : m.liveIds = (es.map Prod.fst).toFinset
  length : ∀ i, i < m.keys.length ↔ ∃ e ∈ es, i ≤ e.1
  log : m.deltaLog = []
  capacity : m.capacity = maxCapacity

theorem loaded_new : Loaded [] .new := by
  constructor <;> simp [new, IdManager.getKey]

theorem Loaded.setAt (h : Loaded es m) (hi : ∀ e ∈ es, e.1 ≠ id) (hk : ∀ e ∈ es, e.2 ≠ key) :
    Loaded (es ++ [(id, key)]) (m.setAt id key) := by
  have hn : m.map key = none := by
    by_contra hn
    have ⟨i, hs⟩ := ne_none_iff_exists'.mp hn
    exact hk _ ((h.map key i).mp hs) rfl
  have hl : id < (m.growTo id).keys.length := by
    rw [length_growTo]
    omega
  have he : m.setAt id key = ((m.growTo id).bindSlot key id).unlogged m := by
    simp [IdManager.setAt, hn, unlogged, bindSlot, growTo]
  rw [he]
  constructor
  case map =>
    intro key' id'
    simp only [unlogged, bindSlot, growTo, update_apply, mem_append, List.mem_singleton, Prod.mk.injEq]
    split
    case isTrue hkey =>
      subst hkey
      have : (id', key') ∉ es := fun hm => hk _ hm rfl
      simp [this, eq_comm]
    case isFalse hkey => simp [h.map, hkey]
  case getKey =>
    intro id' key'
    refine (iff_of_eq (congrArg (· = some key') (getKey_bindSlot hl))).trans ?_
    split
    case isTrue hid =>
      subst hid
      have : (id', key') ∉ es := fun hm => hi _ hm rfl
      simp [this, eq_comm]
    case isFalse hid => simp [h.getKey, hid]
  case live => ext i; simp [unlogged, bindSlot, growTo, h.live]
  case log => simp [unlogged, h.log]
  case capacity => simp [unlogged, bindSlot, growTo, h.capacity]
  case length =>
    intro i
    have hlen : (((m.growTo id).bindSlot key id).unlogged m).keys.length =
        max m.keys.length (id + 1) := by
      rw [← length_growTo]
      simp [unlogged, bindSlot]
    rw [hlen, lt_max_iff, h.length, Nat.lt_succ_iff]
    simp [or_and_right, exists_or]

theorem Loaded.setAll
    (hp : (es ++ todo).Pairwise fun a b => a.1 ≠ b.1 ∧ a.2 ≠ b.2) (h : Loaded es m) :
    Loaded (es ++ todo) (todo.foldl (fun m e => m.setAt e.1 e.2) m) := by
  induction todo generalizing es m with
  | nil => simpa using h
  | cons e todo ind =>
    have hs : es ++ e :: todo = es ++ [e] ++ todo := by simp
    have hd : ∀ a ∈ es, a.1 ≠ e.1 ∧ a.2 ≠ e.2 := fun a ha =>
      (pairwise_append.mp hp).2.2 a ha e (List.mem_cons_self ..)
    rw [hs] at hp ⊢
    exact ind hp (h.setAt (fun a ha => (hd a ha).1) fun a ha => (hd a ha).2)

theorem Coherent.pairwise_bindings (hb : b.Coherent) :
    (bindings b.keys).Pairwise fun a b => a.1 ≠ b.1 ∧ a.2 ≠ b.2 := by
  refine (IdManager.pairwise_bindings b.keys).imp_of_mem fun {x y} hx hy hlt => ⟨hlt.ne, fun he => ?_⟩
  have hx := (hb.map_iff _ _).mpr (mem_bindings.mp hx)
  have hy := (hb.map_iff _ _).mpr (mem_bindings.mp hy)
  rw [he, hy] at hx
  exact hlt.ne (Option.some.inj hx).symm

theorem Coherent.card_liveIds (hb : b.Coherent) : b.liveIds.card = (bindings b.keys).length := by
  have hl : b.liveIds = ((bindings b.keys).map Prod.fst).toFinset := by
    ext i
    simp [hb.live, mem_bindings, isSome_iff_exists]
  have hn : ((bindings b.keys).map Prod.fst).Nodup :=
    pairwise_map.mpr ((IdManager.pairwise_bindings b.keys).imp fun h => h.ne)
  rw [hl, toFinset_card_of_nodup hn, length_map]

theorem length_entries (es : List (ℕ × IdKey)) :
    9 * es.length ≤ (es.flatMap fun e => entryBytes e.1 e.2).length := by
  induction es with
  | nil => simp
  | cons e es ind =>
    have := e.2.length_bytes_pos
    simp only [flatMap_cons, length_append, length_cons, entryBytes, Bytes.length_le] at *
    omega

-- Below the highest id in use there is a slot without a key.
def Gap (m : IdManager) (id : ℕ) : Prop :=
  m.getKey id = none ∧ ∃ i key, id < i ∧ m.getKey i = some key

theorem Coherent.loaded (hb : b.Coherent) :
    ∃ m, readEntries b.liveIds.card ((bindings b.keys).flatMap fun e => entryBytes e.1 e.2) .new =
      .ok m ∧ Loaded (bindings b.keys) m := by
  have hv : ∀ e ∈ bindings b.keys, e.1 < 256 ^ 4 ∧ e.2.validateShape = .ok () := by
    intro e he
    have ⟨hi, hs⟩ := hb.bound ((hb.map_iff _ _).mpr (mem_bindings.mp he))
    exact ⟨(hi.trans_le hb.length).trans maxCapacity_lt, hs⟩
  have hr := readEntries_entryBytes (m := .new) [] hv
  rw [append_nil, ← hb.card_liveIds] at hr
  have hl := loaded_new.setAll (by simpa using hb.pairwise_bindings)
  exact ⟨_, hr, hl⟩

theorem Coherent.card_lt (hb : b.Coherent) : b.liveIds.card < 256 ^ 4 := by
  have hs : b.liveIds ⊆ Finset.range b.keys.length := fun i hi => by
    have ⟨key, hk⟩ := isSome_iff_exists.mp ((hb.live i).mp hi)
    exact Finset.mem_range.mpr (lt_length_of_getKey hk)
  have := card_le_card hs
  rw [card_range] at this
  exact (this.trans hb.length).trans_lt maxCapacity_lt

theorem Coherent.deserialize_eq (hb : b.Coherent) (hl : Loaded (bindings b.keys) m)
    (hr : readEntries b.liveIds.card ((bindings b.keys).flatMap fun e => entryBytes e.1 e.2) .new =
      .ok m) : deserialize b.serialize = .ok { m with freeSet := m.holes } := by
  have hn := length_entries (bindings b.keys)
  rw [← hb.card_liveIds] at hn
  have hf : m.liveIds = b.liveIds := by
    ext i
    simp [hl.live, hb.live, mem_bindings, isSome_iff_exists]
  have hw : b.liveIds.card ≤ (b.serialize.length - 4) / 9 := by
    rw [serialize_eq, length_append, Bytes.length_le]
    omega
  have he : readExact 4 b.serialize =
      .ok (Bytes.le 4 b.liveIds.card, (bindings b.keys).flatMap fun e => entryBytes e.1 e.2) := by
    rw [serialize_eq, readExact_append (Bytes.length_le ..)]
  simp [deserialize, he, Bytes.ofLe_le hb.card_lt, ensure, hw, hr, hf, pure, Except.pure]

-- A baseline can be read back. Its free ids are the gaps, whatever they were before.
theorem Coherent.deserialize_serialize (hb : b.Coherent) :
    ∃ m, deserialize b.serialize = .ok m ∧ Mirrors b m ∧ m.Sized ∧ ∀ id, id ∈ m.freeSet ↔ b.Gap id := by
  have ⟨m, hr, hl⟩ := hb.loaded
  have hg : ∀ i, m.getKey i = b.getKey i := fun i => by
    ext key
    rw [hl.getKey, mem_bindings]
  have hmap : m.map = b.map := by
    ext i
    rw [hl.map, mem_bindings, hb.map_iff]
  have hlen : ∀ i, i < m.keys.length ↔ ∃ j key, i ≤ j ∧ b.getKey j = some key := fun i => by
    rw [hl.length]
    constructor
    · rintro ⟨⟨j, key⟩, he, hij⟩
      exact ⟨j, key, hij, mem_bindings.mp he⟩
    · rintro ⟨j, key, hij, hk⟩
      exact ⟨(j, key), mem_bindings.mpr hk, hij⟩
  have hmax : m.keys.length ≤ maxCapacity := by
    by_contra hm
    have ⟨j, key, hij, hk⟩ := (hlen maxCapacity).mp (not_le.mp hm)
    have := lt_length_of_getKey hk
    have := hb.length
    omega
  refine ⟨_, hb.deserialize_eq hl hr, ⟨hmap, hg⟩, ?_, ?_⟩
  · refine ⟨hmax, hl.capacity.le, fun i hi => ?_, fun {key i} hk => ?_, by simp [hl.log]⟩
    · exact (Finset.mem_range.mp (Finset.mem_filter.mp hi).1).trans_le hmax
    · have hk : b.map key = some i := hmap ▸ hk
      exact ⟨(hlen i).mpr ⟨i, key, le_rfl, (hb.map_iff key i).mp hk⟩, (hb.bound hk).2⟩
  · intro i
    simp only [holes, Finset.mem_filter, Finset.mem_range, hg, hlen, Gap]
    constructor
    · rintro ⟨⟨j, key, hij, hk⟩, hn⟩
      exact ⟨hn, j, key, hij.lt_of_ne (by rintro rfl; simp [hn] at hk), hk⟩
    · rintro ⟨hn, j, key, hij, hk⟩
      exact ⟨⟨j, key, hij.le, hk⟩, hn⟩

end
section

def insertAll (m : IdManager) (keys : List IdKey) : IdManager :=
  keys.foldl (fun m key => m.call (.insert key)) m

-- Every key leads back to itself.
def Faithful (m : IdManager) : Prop :=
  ∀ key id, m.map key = some id → m.getKey id = some key

-- No id in use is offered again.
def Separate (m : IdManager) : Prop :=
  ∀ id ∈ m.freeSet, ∀ key, m.map key ≠ some id

theorem Faithful.inj (h : m.Faithful) (hk : m.map key = some id) (hk' : m.map key' = some id) : key = key' :=
  Option.some.inj ((h _ _ hk).symm.trans (h _ _ hk'))

theorem Faithful.unbound_id (hf : m.Faithful) (hs : m.Separate) (h : Unbound m m' id) : m.map key ≠ some id := by
  rcases h.origin with ⟨hi, -⟩ | ⟨-, hi, -⟩
  · exact hs id hi key
  · intro hk
    have := lt_length_of_getKey (hf _ _ hk)
    omega

theorem Faithful.insert (hf : m.Faithful) (hs : m.Separate) (key : IdKey) :
    (m.call (.insert key)).Faithful ∧ (m.call (.insert key)).Separate := by
  cases he : m.insert key with
  | error e => simpa [call, he, Except.toOption] using ⟨hf, hs⟩
  | ok p =>
    obtain ⟨id, m'⟩ := p
    obtain ⟨_, _, m₁, hu, hb⟩ := insert_spec he
    have hn (key' : IdKey) : m.map key' ≠ some id := hf.unbound_id hs hu
    simp only [call, he, Except.toOption, elim_some, hb]
    constructor
    · intro key' i hk
      rw [getKey_bindSlot hu.lt, hu.getKey]
      simp only [bindSlot, hu.map, update_apply] at hk
      split at hk
      case isTrue hkey => cases hk; simp [hkey]
      case isFalse =>
        rw [if_neg fun hi : i = id => hn key' (hi ▸ hk)]
        exact hf _ _ hk
    · intro i hi key' hk
      simp only [bindSlot, hu.map, hu.freeSet, mem_erase, update_apply] at hi hk
      split at hk
      case isTrue => cases hk; exact hi.1 rfl
      case isFalse => exact hs i hi.2 key' hk

theorem Faithful.insertAll (hf : m.Faithful) (hs : m.Separate) (keys : List IdKey) :
    (m.insertAll keys).Faithful := by
  induction keys generalizing m with
  | nil => exact hf
  | cons key keys ind => exact ind (hf.insert hs key).1 (hf.insert hs key).2

theorem Faithful.exists_unbound (hf : m.Faithful) (hm : m.Sized) :
    ∃ key, IdKey.validateShape key = .ok () ∧ m.map key = none := by
  have hc : maxCapacity + 1 < 2 ^ 63 := by decide
  have hi {n : ℕ} (hn : n ∈ Finset.range (maxCapacity + 1)) : (Int64.ofNat n).toInt = n :=
    Int64.toInt_ofNat_of_lt ((Finset.mem_range.mp hn).trans hc)
  by_contra hx
  have hb : ∀ n ∈ Finset.range (maxCapacity + 1),
      ((m.map (.int (Int64.ofNat n))).getD 0 ∈ Finset.range maxCapacity) ∧
        m.map (.int (Int64.ofNat n)) = some ((m.map (.int (Int64.ofNat n))).getD 0) := by
    intro n hn
    cases hk : m.map (.int (Int64.ofNat n)) with
    | none =>
      refine absurd ⟨_, ?_, hk⟩ hx
      simp [IdKey.validateShape, Int64.le_iff_toInt_le, hi hn]
    | some id => simpa using (hm.bound hk).1.trans_le hm.length
  obtain ⟨n, hn, n', hn', hne, he⟩ := exists_ne_map_eq_of_card_lt_of_maps_to
    (by simp) fun n hn => (hb n hn).1
  have hk := hf.inj (hb n hn).2 (he ▸ (hb n' hn').2)
  have := congrArg Int64.toInt (IdKey.int.inj hk)
  rw [hi hn, hi hn'] at this
  omega

theorem insert_of_nonempty (hs : key.validateShape = .ok ()) (hk : m.map key = none)
    (hf : m.freeSet.Nonempty) : ∃ id m₁, m.call (.insert key) = m₁.bindSlot key id ∧
      Unbound m m₁ id ∧ id ∈ m.freeSet := by
  cases ht : m.takeNextId with
  | error e => simp [takeNextId, hf] at ht
  | ok p =>
    obtain ⟨id, m₁⟩ := p
    have hu := takeNextId_spec ht
    refine ⟨id, m₁, ?_, hu, ?_⟩
    · simp [call, insert, hs, ensure, hk, ht, pure, Except.pure, Except.toOption]
    · rcases hu.origin with ⟨hi, -⟩ | ⟨he, -⟩
      · exact hi
      · simp [he] at hf

-- Insertions take the free ids one after the other, the largest first.
theorem separate_of_insertAll (hm : m.Sized) (h : ∀ keys, (m.insertAll keys).Faithful) : m.Separate := by
  intro id hid key hk
  induction hn : m.freeSet.card using Nat.strong_induction_on generalizing m with
  | _ n ind =>
    have hf : m.Faithful := h []
    have ⟨fresh, hs, hu⟩ := hf.exists_unbound hm
    have ⟨i, m₁, he, hi, hif⟩ := insert_of_nonempty hs hu ⟨id, hid⟩
    have hkept {key' : IdKey} {j : ℕ} (hj : m.map key' = some j) :
        (m.call (.insert fresh)).map key' = some j := by
      have hne : key' ≠ fresh := by rintro rfl; simp [hu] at hj
      simpa [he, bindSlot, hi.map, hne] using hj
    by_cases hid' : i = id
    case pos =>
      -- The new key gets the id that is in use.
      subst hid'
      have h₁ : (m.call (.insert fresh)).getKey i = some key := h [fresh] _ _ (hkept hk)
      rw [he, getKey_bindSlot hi.lt, if_pos rfl] at h₁
      rw [Option.some.inj h₁, hk] at hu
      cases hu
    case neg =>
      have hfree : (m.call (.insert fresh)).freeSet = m.freeSet.erase i := by
        simp [he, bindSlot, hi.freeSet]
      refine ind _ ?_ (hm.call _) (fun keys => h (fresh :: keys)) ?_ (hkept hk) rfl
      · rw [hfree, ← hn]
        exact card_erase_lt_of_mem hif
      · rw [hfree]
        exact mem_erase.mpr ⟨Ne.symm hid', hid⟩

end

section

-- A key that does not lead back to itself has lost its slot to another key, or to a removal.
def Accounted (m : IdManager) (freed : Finset ℕ) : Prop :=
  ∀ key id, m.map key = some id → m.getKey id = some key ∨ id ∈ freed ∨
    ∃ key', key' ≠ key ∧ m.map key' = some id

theorem Accounted.call (h : m.Accounted F) (hm : m.Sized) (c : IdCall) :
    (m.call c).Accounted (F ∪ m.freedBy c) := by
  intro key id hk
  cases call_effect hm c with
  | silent hmap hkey _ _ =>
    rw [hmap] at hk
    rw [hkey, hmap]
    rcases h key id hk with hg | hg | hg
    · exact .inl hg
    · exact .inr (.inl (Finset.mem_union_left _ hg))
    · exact .inr (.inr hg)
  | @bind _ _ new i hn _ _ hmap hkey _ _ _ =>
    rw [hmap, update_apply] at hk
    rw [hkey, hmap]
    split at hk
    case isTrue hnew => cases hk; simp [hnew]
    case isFalse hnew =>
      by_cases hi : id = i
      case pos => exact .inr (.inr ⟨new, Ne.symm hnew, by simp [hi]⟩)
      case neg =>
        rw [if_neg hi]
        rcases h key id hk with hg | hg | ⟨key', hne, hg⟩
        · exact .inl hg
        · exact .inr (.inl (Finset.mem_union_left _ hg))
        · have hnew' : key' ≠ new := by rintro rfl; simp [hn] at hg
          exact .inr (.inr ⟨key', hne, by simp [hnew', hg]⟩)
  | @unbind _ old i ho hmap hkey _ _ =>
    rw [hmap, update_apply] at hk
    rw [hkey, hmap]
    split at hk
    case isTrue => cases hk
    case isFalse hold =>
      by_cases hi : id = i
      case pos => exact .inr (.inl (Finset.mem_union_right _ (by simp [freedBy, ho, hi])))
      case neg =>
        rw [if_neg hi]
        rcases h key id hk with hg | hg | ⟨key', hne, hg⟩
        · exact .inl hg
        · exact .inr (.inl (Finset.mem_union_left _ hg))
        · have hold' : key' ≠ old := by rintro rfl; simp [ho] at hg; exact hi hg.symm
          exact .inr (.inr ⟨key', hne, by simp [hold', hg]⟩)

theorem Accounted.calls (cs : List IdCall) (h : m.Accounted F) (hm : m.Sized) :
    (cs.foldl IdManager.call m).Accounted (F ∪ m.freed cs) := by
  induction cs generalizing m F with
  | nil => simpa [freed] using h
  | cons c cs ind =>
    rw [freed, ← union_assoc]
    exact ind (h.call hm c) (hm.call c)

-- The reopened index has the bindings that were there, and goes on without mixing up ids.
def Survives (b c : IdManager) : Prop :=
  ∃ m, reopen b c = .ok m ∧ (∀ key, m.getIndex key = c.getIndex key) ∧ ∀ keys,
    (∀ key key' id, (m.insertAll keys).getIndex key = some id →
      (m.insertAll keys).getIndex key' = some id → key = key') ∧
    ∀ key id, (m.insertAll keys).getIndex key = some id → (m.insertAll keys).getKey id = some key

theorem Coherent.clearIndexDelta (hb : b.Coherent) : b.clearIndexDelta.Coherent :=
  { hb with log := by simp [IdManager.clearIndexDelta] }

theorem reopen_eq (hb : b.Coherent) (hl : b.deltaLog = []) (calls : List IdCall)
    (hn : (calls.foldl call b).deltaLog.length < 2 ^ 32) :
    ∃ m, reopen b (calls.foldl call b) = .ok m ∧ Mirrors (calls.foldl call b) m ∧ m.Sized ∧
      ∀ id, id ∈ m.freeSet ↔ b.Gap id ∨ id ∈ b.freed calls := by
  have ⟨r, hd, hr, hrs, hf⟩ := hb.deserialize_serialize
  have ⟨ds, m, hlog, ha, hm, hms, hmf⟩ := hr.replayAll calls hrs hb.toSized
  rw [hl, nil_append] at hlog
  refine ⟨m, ?_, hm, hms, ?_⟩
  · have he := deserializeDelta_serializeDelta (hb.toSized.calls calls).log (by simpa using hn)
    rw [hlog] at he
    simp [reopen, hd, he, ha, bind, Except.bind]
  · intro id
    rw [hmf, mem_union, hf]

theorem length_of_reopen (hb : b.Coherent) {calls : List IdCall}
    (h : reopen b (calls.foldl call b) = .ok m) : (calls.foldl call b).deltaLog.length < 2 ^ 32 := by
  simp only [reopen, Except.bind_eq_ok] at h
  obtain ⟨_, _, _, he, _⟩ := h
  by_contra hl
  exact deserializeDelta_overflow (hb.toSized.calls calls).log (by simpa using hl) he

theorem coherent_new : new.Coherent where
  length := by simp [new]
  capacity := by simp [new]
  free := by simp [new]
  bound := by simp [new]
  log := by simp [new]
  map_iff := by simp [new, getKey]
  live := by simp [new, getKey]

theorem separate_new : new.Separate := by
  simp [Separate, new]

theorem Coherent.faithful (hm : m.Coherent) : m.Faithful :=
  fun key id => (hm.map_iff key id).mp

-- Whatever is called, a key of the table is bound to its id, and the live ids are those with a key.
structure Keyed (m : IdManager) : Prop extends Sized m where
  map : ∀ {key id}, m.getKey id = some key → m.map key = some id
  live : ∀ id, id ∈ m.liveIds ↔ (m.getKey id).isSome

theorem Coherent.keyed (hm : m.Coherent) : m.Keyed :=
  { hm with map := (hm.map_iff _ _).mpr }

theorem Keyed.coherent (hm : m.Keyed) (hf : m.Faithful) : m.Coherent :=
  { hm with map_iff := fun key id => ⟨hf key id, hm.map⟩ }

theorem Keyed.call (hm : m.Keyed) (c : IdCall) : (m.call c).Keyed := by
  have hz := hm.toSized.call c
  cases call_effect hm.toSized c with
  | silent hmap hkey hlive =>
    exact { hz with map := fun hg => hmap ▸ hm.map (hkey _ ▸ hg), live := fun id => by rw [hlive, hkey, hm.live] }
  | @bind _ _ new i hn _ _ hmap hkey hlive =>
    refine { hz with map := fun {key id} hg => ?_, live := fun id => ?_ }
    · rw [hkey] at hg
      rw [hmap, update_apply]
      split at hg
      case isTrue hi => cases hg; rw [if_pos rfl, hi]
      case isFalse =>
        have hg := hm.map hg
        rw [if_neg (by rintro rfl; simp [hn] at hg), hg]
    · rw [hlive, hkey, mem_insert, hm.live]
      split <;> simp_all
  | @unbind _ old i ho hmap hkey hlive =>
    refine { hz with map := fun {key id} hg => ?_, live := fun id => ?_ }
    · rw [hkey] at hg
      rw [hmap, update_apply]
      split at hg
      case isTrue => cases hg
      case isFalse hi =>
        have hg := hm.map hg
        rw [if_neg (by rintro rfl; exact hi (Option.some.inj (hg.symm.trans ho))), hg]
    · rw [hlive, hkey, mem_erase, hm.live]
      split <;> simp_all

theorem Keyed.calls (hm : m.Keyed) (cs : List IdCall) : (cs.foldl IdManager.call m).Keyed := by
  induction cs generalizing m with
  | nil => exact hm
  | cons c cs ind => exact ind (hm.call c)

theorem Coherent.call (hm : m.Coherent) (hs : m.Separate)
    (hc : ∀ key id, c = .registerReserved key id → id ∉ m.freeSet) :
    (m.call c).Coherent ∧ (m.call c).Separate := by
  suffices h : (m.call c).Faithful ∧ (m.call c).Separate from ⟨(hm.keyed.call c).coherent h.1, h.2⟩
  cases c with
  | insert key => exact hm.faithful.insert hs key
  | reserveNext =>
    cases he : m.takeNextId with
    | error e => simpa [IdManager.call, reserveNext, he, Except.toOption] using ⟨hm.faithful, hs⟩
    | ok p =>
      have hu := takeNextId_spec he
      simp only [IdManager.call, reserveNext, he, Except.toOption, elim_some]
      refine ⟨fun key i hk => ?_, fun i hi key => ?_⟩
      · rw [hu.getKey]
        exact hm.faithful key i (hu.map ▸ hk)
      · rw [hu.freeSet] at hi
        exact hu.map ▸ hs i (Finset.mem_of_mem_erase hi) key
  | registerReserved key id =>
    cases he : m.registerReserved key id with
    | error e => simpa [IdManager.call, he, Except.toOption] using ⟨hm.faithful, hs⟩
    | ok m' =>
      obtain ⟨hv, hk, hn, hb⟩ := registerReserved_spec he
      have hg := getKey_eq_none_of_unbound hn
      simp only [IdManager.call, he, Except.toOption, getD_some, hb]
      refine ⟨fun key' i hk' => ?_, fun i hi key' hk' => ?_⟩
      all_goals simp only [IdManager.bindSlot, update_apply] at hk'; split at hk'
      case refine_1.isTrue hkey =>
        cases hk'
        rw [getKey_bindSlot (List.getElem?_eq_some_iff.mp hn).1, if_pos rfl, hkey]
      case refine_1.isFalse =>
        have hg' := hm.faithful key' i hk'
        rw [getKey_bindSlot (List.getElem?_eq_some_iff.mp hn).1, if_neg (by rintro rfl; simp [hg] at hg'), hg']
      case refine_2.isTrue => cases hk'; exact hc key _ rfl hi
      case refine_2.isFalse => exact hs i hi key' hk'
  | releaseReserved id =>
    simp only [IdManager.call, releaseReserved]
    split
    case isFalse => exact ⟨hm.faithful, hs⟩
    case isTrue h =>
      refine ⟨hm.faithful, fun i hi key hk => ?_⟩
      rcases mem_insert.mp hi with rfl | hi
      · have hg := getKey_eq_none_of_unbound h
        rw [(hm.map_iff key i).mp hk] at hg
        cases hg
      · exact hs i hi key hk
  | remove key =>
    cases hk : m.map key with
    | none => simpa [IdManager.call, IdManager.remove, hk] using ⟨hm.faithful, hs⟩
    | some id =>
      -- the key shares its id with no other one
      have hne {key' : IdKey} {i : ℕ} (hk' : (m.call (.remove key)).map key' = some i) : m.map key' = some i ∧ i ≠ id := by
        rw [map_call_remove hk, update_apply] at hk'
        split at hk'
        case isTrue => cases hk'
        case isFalse hne => exact ⟨hk', fun hi => hne (hm.faithful.inj (hi ▸ hk') hk)⟩
      refine ⟨fun key' i hk' => ?_, fun i hi key' hk' => ?_⟩
      · obtain ⟨hk', hi⟩ := hne hk'
        rw [getKey_call_remove hk (hm.bound hk).1, if_neg hi]
        exact hm.faithful key' i hk'
      · obtain ⟨hk', hi'⟩ := hne hk'
        simp only [IdManager.call, IdManager.remove, hk, mem_insert] at hi
        exact hs i (hi.resolve_left hi') key' hk'

theorem Coherent.calls (hm : m.Coherent) (hs : m.Separate) {cs : List IdCall}
    (hc : ∀ c ∈ cs, ∀ key id, c ≠ .registerReserved key id) :
    (cs.foldl IdManager.call m).Coherent ∧ (cs.foldl IdManager.call m).Separate := by
  induction cs generalizing m with
  | nil => exact ⟨hm, hs⟩
  | cons c cs ind =>
    have h := hm.call hs fun key id he => absurd he (hc c (List.mem_cons_self ..) key id)
    exact ind h.1 h.2 fun c hm => hc c (List.mem_cons_of_mem _ hm)

-- Over every sequence of calls that registers no free id, map and key table are each other's inverse, the live
-- ids are those with a key, and no key has a free id.
theorem calls_coherent {calls : List IdCall}
    (r : Transition.Run (fun m c => some (m.call c))
      (fun m c => ∀ key id, c = .registerReserved key id → id ∉ m.freeSet) new calls m) :
    (∀ key id, m.getIndex key = some id ↔ m.getKey id = some key) ∧
      (∀ id, id ∈ m.liveIds ↔ (m.getKey id).isSome) ∧ ∀ id ∈ m.freeSet, ∀ key, m.getIndex key ≠ some id := by
  have h : m.Coherent ∧ m.Separate := by
    refine r.invariant (P := fun m => m.Coherent ∧ m.Separate) (fun h hc he => ?_) ⟨coherent_new, separate_new⟩
    cases he
    exact h.1.call h.2 hc
  exact ⟨h.1.map_iff, h.1.live, h.2⟩

theorem calls_coherent_reserved :
    ((new.call .reserveNext).call (.registerReserved (.int 7) 0)).getKey 0 = some (.int 7) := by
  have hr : ∀ key id, IdCall.registerReserved (.int 7) 0 = .registerReserved key id →
      id ∉ (new.call .reserveNext).freeSet := by
    rintro key id ⟨⟩
    decide
  exact ((calls_coherent (.step (by simp) rfl (.single hr rfl))).1 _ _).mp (by decide)

theorem Coherent.accounted (hb : b.Coherent) : b.Accounted ∅ :=
  fun key id hk => .inl ((hb.map_iff key id).mp hk)

-- `b` is any index on which every key leads back to itself.
theorem reopen_survives_iff (before calls : List IdCall) (hb : b = before.foldl call new)
    (hf : ∀ key id, b.getIndex key = some id → b.getKey id = some key) :
    Survives b (calls.foldl call b.clearIndexDelta) ↔
      (calls.foldl call b.clearIndexDelta).deltaLog.length < 2 ^ 32 ∧
      (∀ key key' id, (calls.foldl call b.clearIndexDelta).getIndex key = some id →
        (calls.foldl call b.clearIndexDelta).getIndex key' = some id → key = key') ∧
      ∀ key id, (calls.foldl call b.clearIndexDelta).getIndex key = some id →
        ¬b.Gap id ∧ id ∉ b.clearIndexDelta.freed calls := by
  have hb : b.Coherent := (hb ▸ coherent_new.keyed.calls before).coherent hf
  have hb' := hb.clearIndexDelta
  constructor
  · rintro ⟨m, he, hmap, h⟩
    have hn := length_of_reopen hb' he
    have ⟨m', he', hm, hms, hmf⟩ := reopen_eq hb' rfl calls hn
    cases he.symm.trans he'
    have hs := separate_of_insertAll hms fun keys => (h keys).2
    refine ⟨hn, fun key key' id hk hk' => ?_, fun key id hk => ?_⟩
    · exact (h []).1 key key' id ((hmap key).trans hk) ((hmap key').trans hk')
    · have hf : id ∉ m.freeSet := fun hi => hs id hi key ((hmap key).trans hk)
      rw [hmf] at hf
      exact ⟨fun hg => hf (.inl hg), fun hi => hf (.inr hi)⟩
  · rintro ⟨hn, hinj, hfree⟩
    have ⟨m, he, hm, hms, hmf⟩ := reopen_eq hb' rfl calls hn
    have hf : m.Faithful := by
      intro key id hk
      rw [hm.map] at hk
      rw [hm.getKey]
      rcases hb'.accounted.calls calls hb'.toSized key id hk with hg | hg | ⟨key', hne, hg⟩
      · exact hg
      · exact absurd (by simpa using hg) (hfree key id hk).2
      · exact absurd (hinj key' key id hg hk) hne
    have hs : m.Separate := by
      intro id hi key hk
      rw [hm.map] at hk
      rcases (hmf id).mp hi with hg | hg
      · exact (hfree key id hk).1 hg
      · exact (hfree key id hk).2 hg
    refine ⟨m, he, fun key => congrFun hm.map key, fun keys => ?_⟩
    have hk := hf.insertAll hs keys
    exact ⟨fun key key' id h h' => hk.inj h h', hk⟩

-- Removing a key before the checkpoint leaves a gap.
def gapped : IdManager :=
  [.insert (.int 1), .insert (.int 2), .remove (.int 1)].foldl call new

-- The gap is reserved after the checkpoint, and so a key gets an id at the end of the table.
theorem reopen_survives_fresh_key : gapped.getIndex (.int 2) = some 1 ∧
    Survives gapped ([.reserveNext, .insert (.int 3)].foldl call gapped.clearIndexDelta) := by
  have ⟨hb, hs⟩ : gapped.Coherent ∧ gapped.Separate := coherent_new.calls separate_new (by simp)
  have ⟨hc, _⟩ : ([.reserveNext, .insert (.int 3)].foldl call gapped.clearIndexDelta).Coherent ∧ _ :=
    hb.clearIndexDelta.calls hs (by simp)
  refine ⟨by decide, (reopen_survives_iff _ [.reserveNext, .insert (.int 3)] rfl hb.faithful).mpr ⟨by decide, ?_, ?_⟩⟩
  · exact fun key key' id hk hk' => hc.faithful.inj hk hk'
  · intro key id hk
    refine ⟨?_, by simp [freed, freedBy]⟩
    rintro ⟨-, i, key', hi, hg⟩
    have hl : i < 2 := lt_length_of_getKey hg
    -- only the reserved id is below
    obtain rfl : id = 0 := by omega
    cases hc.faithful key 0 hk

-- The key that has filled the gap since the checkpoint shares its id after the restart.
theorem reopen_shares_id :
    gapped.Coherent ∧ ¬Survives gapped ([.insert (.int 3)].foldl call gapped.clearIndexDelta) := by
  refine ⟨(coherent_new.calls separate_new (by simp)).1, ?_⟩
  rintro ⟨m, he, -, h⟩
  have hr : (reopen gapped ([.insert (.int 3)].foldl call gapped.clearIndexDelta)).toOption.map
      (fun m => [.int 3, .int 4].map (m.insertAll [.int 4]).getIndex) =
        some [some 0, some 0] := by
    decide +kernel
  simp only [he, Except.toOption, map_some, Option.some.injEq, List.map_cons,
    map_nil, List.cons.injEq, and_true] at hr
  cases (h [.int 4]).1 _ _ _ hr.1 hr.2

end
end Linkrs.IdManager
