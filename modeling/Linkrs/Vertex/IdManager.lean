import Mathlib.Data.Finset.Max
import Linkrs.Core.Error
import Linkrs.Lib.Except

namespace Linkrs

open Except (ensure)

def vertexIdMaxSize : ℕ := 32

inductive IdKey where
  | int (id : Int64)
  | text (id : String)
  deriving DecidableEq, Inhabited

namespace IdKey

def debug : IdKey → String
  | int id  => s!"Int({id})"
  | text id => "Text(" ++ id.quote ++ ")"

def validateShape : IdKey → StorageResult Unit
  | int id  => ensure (0 ≤ id) ⟨.invalidInput, s!"Vertex id cannot be negative: {id}"⟩
  | text id =>
    let len := id.utf8ByteSize
    ensure (len ≤ vertexIdMaxSize) ⟨.invalidInput,
      s!"Vertex id exceeds max length of {vertexIdMaxSize} bytes: got {len} bytes"⟩

end IdKey

inductive PkLookup where
  | visible (id : ℕ)
  | missing
  deriving DecidableEq, Repr

inductive IndexDelta where
  | insert (key : IdKey) (id : ℕ)
  | remove (key : IdKey)
  deriving DecidableEq

-- Ids are of type `u32`, and no index has more of them.
def maxCapacity : ℕ := 2 ^ 32 - 1

-- The stripes make up one map. The heap of free ids only serves to find the largest element of
-- `freeSet`.
structure IdManager where
  map : IdKey → Option ℕ
  keys : List (Option IdKey)
  liveIds : Finset ℕ
  freeSet : Finset ℕ
  deltaLog : List IndexDelta
  capacity : ℕ

namespace IdManager

def new (capacity : ℕ := maxCapacity) : IdManager where
  map _ := none
  keys := []
  liveIds := ∅
  freeSet := ∅
  deltaLog := []
  capacity := capacity

variable (m : IdManager)

def getIndex (key : IdKey) : Option ℕ :=
  m.map key

def getKey (id : ℕ) : Option IdKey :=
  m.keys[id]?.join

-- Slots are added until there is one for the id.
def growTo (id : ℕ) : IdManager :=
  { m with keys := m.keys ++ List.replicate (id + 1 - m.keys.length) none }

def takeNextId : StorageResult (ℕ × IdManager) :=
  if h : m.freeSet.Nonempty then
    let recycled := m.freeSet.max' h
    .ok (recycled, { m.growTo recycled with freeSet := m.freeSet.erase recycled })
  else if m.capacity ≤ m.keys.length then
    .error .capacityExceeded
  else
    .ok (m.keys.length, m.growTo m.keys.length)

def bindSlot (key : IdKey) (id : ℕ) : IdManager :=
  { m with
    keys := m.keys.set id (some key)
    map := Function.update m.map key (some id)
    liveIds := Insert.insert id m.liveIds
    deltaLog := m.deltaLog ++ [.insert key id] }

def alreadyExists (key : IdKey) : StorageError :=
  ⟨.vertexAlreadyExists, key.debug⟩

def insert (key : IdKey) : StorageResult (ℕ × IdManager) := do
  key.validateShape
  ensure (m.map key = none) (alreadyExists key)
  let (id, m) ← m.takeNextId
  return (id, m.bindSlot key id)

def reserveNext : StorageResult (ℕ × IdManager) :=
  m.takeNextId

def registerReserved (key : IdKey) (id : ℕ) : StorageResult IdManager := do
  key.validateShape
  ensure (m.map key = none) (alreadyExists key)
  ensure (m.keys[id]? = some none)
    ⟨.invalidOperation, s!"reserved id {id} does not name an unbound slot"⟩
  return m.bindSlot key id

def releaseReserved (id : ℕ) : IdManager :=
  if m.keys[id]? = some none then { m with freeSet := Insert.insert id m.freeSet } else m

def lookup (key : IdKey) (isVisible : ℕ → Bool) : PkLookup :=
  match m.map key with
  | some id => if isVisible id then .visible id else .missing
  | none => .missing

def remove (key : IdKey) : Option ℕ × IdManager :=
  match m.map key with
  | none => (none, m)
  | some id => (some id, { m with
      map := Function.update m.map key none
      keys := m.keys.set id none
      liveIds := m.liveIds.erase id
      freeSet := Insert.insert id m.freeSet
      deltaLog := m.deltaLog ++ [.remove key] })

def clearIndexDelta : IdManager :=
  { m with deltaLog := [] }

end IdManager

inductive IdCall where
  | insert (key : IdKey)
  | reserveNext
  | registerReserved (key : IdKey) (id : ℕ)
  | releaseReserved (id : ℕ)
  | remove (key : IdKey)
  deriving DecidableEq

namespace IdManager

-- A call that fails changes nothing.
def call (m : IdManager) : IdCall → IdManager
  | .insert key => (m.insert key).toOption.elim m Prod.snd
  | .reserveNext => m.reserveNext.toOption.elim m Prod.snd
  | .registerReserved key id => (m.registerReserved key id).toOption.getD m
  | .releaseReserved id => m.releaseReserved id
  | .remove key => (m.remove key).2

variable {m m' : IdManager} {key key' : IdKey} {id i : ℕ}

theorem lt_length_of_getKey (h : m.getKey id = some key) : id < m.keys.length := by
  by_contra hl
  simp [getKey, List.getElem?_eq_none (not_lt.mp hl)] at h

theorem getKey_eq_none_of_unbound (h : m.keys[id]? = some none) : m.getKey id = none := by
  simp [getKey, h]

@[simp]
theorem getKey_growTo : (m.growTo i).getKey id = m.getKey id := by
  simp only [getKey, growTo, List.getElem?_append, List.getElem?_replicate]
  split
  case isTrue => rfl
  case isFalse h =>
    rw [List.getElem?_eq_none (not_lt.mp h)]
    split <;> rfl

theorem length_growTo : (m.growTo id).keys.length = max m.keys.length (id + 1) := by
  simp only [growTo, List.length_append, List.length_replicate]
  omega

-- Everything but the slots and the free ids stays as it is.
structure Unbound (m m' : IdManager) (id : ℕ) : Prop where
  map : m'.map = m.map
  getKey : ∀ i, m'.getKey i = m.getKey i
  liveIds : m'.liveIds = m.liveIds
  freeSet : m'.freeSet = m.freeSet.erase id
  deltaLog : m'.deltaLog = m.deltaLog
  capacity : m'.capacity = m.capacity
  length : m'.keys.length = max m.keys.length (id + 1)
  -- Either the largest free id, or a new one.
  origin : (id ∈ m.freeSet ∧ ∀ i ∈ m.freeSet, i ≤ id) ∨
    (m.freeSet = ∅ ∧ id = m.keys.length ∧ id < m.capacity)

theorem takeNextId_spec (h : m.takeNextId = .ok (id, m')) : Unbound m m' id := by
  simp only [takeNextId] at h
  split at h
  case isTrue hf =>
    cases h
    exact ⟨rfl, fun _ => getKey_growTo, rfl, rfl, rfl, rfl, length_growTo,
      .inl ⟨m.freeSet.max'_mem hf, fun i hi => m.freeSet.le_max' i hi⟩⟩
  case isFalse hf =>
    have he := Finset.not_nonempty_iff_eq_empty.mp hf
    split at h
    case isTrue => cases h
    case isFalse hc =>
      cases h
      exact ⟨rfl, fun _ => getKey_growTo, rfl, by simp [he, growTo], rfl, rfl, length_growTo,
        .inr ⟨he, rfl, not_le.mp hc⟩⟩

theorem Unbound.lt (h : Unbound m m' id) : id < m'.keys.length := by
  rw [h.length]
  omega

theorem getKey_bindSlot (h : id < m.keys.length) :
    (m.bindSlot key id).getKey i = if i = id then some key else m.getKey i := by
  simp only [getKey, bindSlot, List.getElem?_set]
  by_cases hi : id = i
  case pos => subst hi; simp [h]
  case neg => simp [hi, Ne.symm hi]

theorem insert_spec (h : m.insert key = .ok (id, m')) : key.validateShape = .ok () ∧ m.map key = none ∧
      ∃ m₁, Unbound m m₁ id ∧ m' = m₁.bindSlot key id := by
  simp only [insert, Except.bind_eq_ok, Except.ensure_eq_ok] at h
  obtain ⟨_, hs, _, hn, ⟨id', m₁⟩, ht, he⟩ := h
  cases he
  exact ⟨hs, hn, m₁, takeNextId_spec ht, rfl⟩

theorem registerReserved_spec (h : m.registerReserved key id = .ok m') :
    key.validateShape = .ok () ∧ m.map key = none ∧ m.keys[id]? = some none ∧ m' = m.bindSlot key id := by
  simp only [registerReserved, Except.bind_eq_ok, Except.ensure_eq_ok] at h
  obtain ⟨_, hs, _, hn, _, hk, he⟩ := h
  cases he
  exact ⟨hs, hn, hk, rfl⟩

end IdManager
end Linkrs
