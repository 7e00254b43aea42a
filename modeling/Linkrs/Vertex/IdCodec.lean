import Linkrs.Lib.Bytes
import Linkrs.Vertex.IdManager

namespace Linkrs

open List Bytes
open Except (ensure)

namespace IdKey

def bytes : IdKey → List UInt8
  | int val => 0 :: (Bytes.le 8 val.toUInt64.toNat).reverse
  | text val => 1 :: val.toUTF8.data.toList

-- The text of an UTF-8 error is not spelled out.
def fromBytes : List UInt8 → StorageResult IdKey
  | [] => .error (deserializeError "Empty IdKey bytes")
  | tag :: rest =>
    let len := rest.length + 1
    if tag = 0 then do
      ensure (len = 9) (deserializeError s!"Invalid Int IdKey length: {len}")
      return .int (UInt64.ofNat (ofLe rest.reverse)).toInt64
    else if tag = 1 then
      match String.fromUTF8? ⟨rest.toArray⟩ with
      | some val => .ok (.text val)
      | none => .error (deserializeError "invalid utf-8 sequence")
    else
      .error (deserializeError s!"Unknown IdKey type tag: {tag}")

end IdKey

-- The end of the bytes is an error of the reader.
def readExact (n : ℕ) (bytes : List UInt8) : StorageResult (List UInt8 × List UInt8) :=
  if n ≤ bytes.length then .ok (bytes.take n, bytes.drop n)
  else .error ⟨.ioError, "failed to fill whole buffer"⟩

namespace IdManager

def entryBytes (id : ℕ) (key : IdKey) : List UInt8 :=
  Bytes.le 4 id ++ Bytes.le 4 key.bytes.length ++ key.bytes

def serialize (m : IdManager) : List UInt8 :=
  Bytes.le 4 m.liveIds.card ++ m.keys.zipIdx.flatMap fun
    | (some key, id) => entryBytes id key
    | (none, _) => []

def setAt (m : IdManager) (id : ℕ) (key : IdKey) : IdManager :=
  if (m.map key).isSome then m
  else
    let m := m.growTo id
    { m with
      keys := m.keys.set id (some key)
      map := Function.update m.map key (some id)
      liveIds := Insert.insert id m.liveIds }

def readEntries : ℕ → List UInt8 → IdManager → StorageResult IdManager
  | 0, _, m => .ok m
  | count + 1, bytes, m => do
    let (id, bytes) ← readExact 4 bytes
    let (len, bytes) ← readExact 4 bytes
    let (key, bytes) ← readExact (ofLe len) bytes
    let key ← IdKey.fromBytes key
    key.validateShape
    readEntries count bytes (m.setAt (ofLe id) key)

def holes (m : IdManager) : Finset ℕ :=
  (Finset.range m.keys.length).filter fun id => m.getKey id = none

def deserialize (data : List UInt8) : StorageResult IdManager := do
  let (count, bytes) ← readExact 4 data
  let count := ofLe count
  let size := data.length
  ensure (count ≤ (size - 4) / 9)
    (deserializeError s!"pk baseline count {count} exceeds wire capacity of {size} bytes")
  let m ← readEntries count bytes .new
  let found := m.liveIds.card
  ensure (found = count)
    (deserializeError s!"pk baseline holds {found} bindings for declared count {count}")
  return { m with freeSet := m.holes }

def deltaBytes : IndexDelta → List UInt8
  | .insert key id => 0 :: (Bytes.le 4 id ++ Bytes.le 4 key.bytes.length ++ key.bytes)
  | .remove key => 1 :: (Bytes.le 4 key.bytes.length ++ key.bytes)

def serializeDelta (m : IdManager) : List UInt8 :=
  Bytes.le 4 m.deltaLog.length ++ m.deltaLog.flatMap deltaBytes

-- The closure `take` of `deserialize_delta`.
def takeField (n : ℕ) (field : String) (bytes : List UInt8) : StorageResult (List UInt8 × List UInt8) :=
  let left := bytes.length
  if n ≤ left then .ok (bytes.take n, bytes.drop n)
  else .error (deserializeError s!"pk delta {field} length {n} exceeds remaining {left}")

-- One entry of the delta, as the operation, the id and the key.
def readDelta (bytes : List UInt8) : StorageResult ((UInt8 × ℕ × IdKey) × List UInt8) := do
  let (op, bytes) ← takeField 1 "op" bytes
  let op := op.headD 0
  ensure (op = 0 ∨ op = 1) (deserializeError s!"pk delta unknown op {op}")
  let (id, bytes) ← (if op = 0 then takeField 4 "id" bytes else .ok ([], bytes))
  let (len, bytes) ← takeField 4 "key_len" bytes
  let (key, bytes) ← takeField (ofLe len) "key" bytes
  return ((op, ofLe id, ← IdKey.fromBytes key), bytes)

def readDeltas : ℕ → List UInt8 → StorageResult (List (UInt8 × ℕ × IdKey) × List UInt8)
  | 0, bytes => .ok ([], bytes)
  | count + 1, bytes => do
    let (entry, bytes) ← readDelta bytes
    let (entries, bytes) ← readDeltas count bytes
    return (entry :: entries, bytes)

def deserializeDelta (data : List UInt8) : StorageResult (List (UInt8 × ℕ × IdKey)) := do
  ensure (4 ≤ data.length) (deserializeError "pk delta truncated count")
  let (count, bytes) ← takeField 4 "count" data
  let count := ofLe count
  let size := bytes.length
  ensure (count ≤ size / 6)
    (deserializeError s!"pk delta count {count} exceeds wire capacity of {size} bytes")
  let (entries, rest) ← readDeltas count bytes
  let left := rest.length
  ensure (left = 0) (deserializeError s!"pk delta has {left} trailing bytes")
  return entries

-- `IdIndexer::apply_delta_entries`: an insert leaves the set of free ids alone.
def applyDeltaEntry (m : IdManager) : UInt8 × ℕ × IdKey → StorageResult IdManager
  | (op, id, key) =>
    if op = 0 then do
      key.validateShape
      match m.map key with
      | some existing => do
        let name := key.debug
        ensure (existing = id) (deserializeError
          s!"pk delta insert diverges for {name}: baseline {existing} vs delta {id}")
        return m
      | none =>
        let m := m.growTo id
        return { m with
          keys := m.keys.set id (some key)
          map := Function.update m.map key (some id)
          liveIds := Insert.insert id m.liveIds }
    else if op = 1 then
      match m.map key with
      | some id => .ok { m with
          map := Function.update m.map key none
          keys := m.keys.set id none
          liveIds := m.liveIds.erase id
          freeSet := Insert.insert id m.freeSet }
      | none => .ok m
    else
      .error (deserializeError s!"pk delta unknown op {op}")

def applyDeltaEntries (m : IdManager) (entries : List (UInt8 × ℕ × IdKey)) : StorageResult IdManager :=
  entries.foldlM applyDeltaEntry m

-- The index that is opened from the baseline of `b` and the delta of `c`.
def reopen (b c : IdManager) : StorageResult IdManager := do
  let m ← deserialize b.serialize
  m.applyDeltaEntries (← deserializeDelta c.serializeDelta)

end IdManager

section

variable {n : ℕ} {bytes rest : List UInt8} {key : IdKey}

theorem readExact_append (h : bytes.length = n) : readExact n (bytes ++ rest) = .ok (bytes, rest) := by
  subst h
  simp [readExact]

theorem IdManager.takeField_append (h : bytes.length = n) :
    takeField n field (bytes ++ rest) = .ok (bytes, rest) := by
  subst h
  simp [takeField]

namespace IdKey

theorem fromBytes_bytes (key : IdKey) : fromBytes key.bytes = .ok key := by
  cases key with
  | int val =>
    have h : val.toUInt64.toNat < 256 ^ 8 := val.toUInt64.toNat_lt
    simp [bytes, fromBytes, ofLe_le h, pure, Except.pure, ensure]
  | text val =>
    have h : String.fromUTF8? ⟨val.toByteArray.data⟩ = some val := by
      exact dif_pos val.isValidUTF8
    simp [bytes, fromBytes, h]

-- A key takes at least its tag, and no more than fits into the length field.
theorem length_bytes_pos (key : IdKey) : 0 < key.bytes.length := by
  cases key <;> simp [bytes]

theorem length_bytes_lt (h : key.validateShape = .ok ()) : key.bytes.length < 256 ^ 4 := by
  cases key with
  | int val => simp [bytes]
  | text val =>
    have hl : val.utf8ByteSize ≤ 32 := by simpa [validateShape, vertexIdMaxSize] using h
    have hs : val.toUTF8.data.toList.length = val.utf8ByteSize := rfl
    simp only [bytes, length_cons, hs]
    omega

end IdKey
end

namespace IndexDelta

-- What a delta entry becomes on the wire and back.
def toEntry : IndexDelta → UInt8 × ℕ × IdKey
  | .insert key id => (0, id, key)
  | .remove key => (1, 0, key)

-- The entry was logged by an index that keeps to its bounds.
def Valid : IndexDelta → Prop
  | .insert key id => key.validateShape = .ok () ∧ id < 256 ^ 4
  | .remove key => key.validateShape = .ok ()

end IndexDelta

namespace IdManager

variable {m : IdManager} {es : List (ℕ × IdKey)} {id : ℕ} {key : IdKey}

-- The bindings of the key table, in the order of the ids.
def bindings (keys : List (Option IdKey)) : List (ℕ × IdKey) :=
  keys.zipIdx.filterMap fun e => e.1.map (e.2, ·)

theorem mem_bindings : (id, key) ∈ bindings m.keys ↔ m.getKey id = some key := by
  simp only [bindings, mem_filterMap, Option.map_eq_some_iff, Prod.mk.injEq, Prod.exists,
    mem_zipIdx_iff_getElem?, getKey, Option.join_eq_some_iff]
  constructor
  · rintro ⟨k, i, hk, a, rfl, rfl, rfl⟩
    exact hk
  · intro h
    exact ⟨_, _, h, _, rfl, rfl, rfl⟩

theorem pairwise_bindings (keys : List (Option IdKey)) :
    (bindings keys).Pairwise fun a b => a.1 < b.1 := by
  rw [bindings, pairwise_filterMap, pairwise_iff_getElem]
  intro i j hi hj hij a ha b hb
  simp only [getElem_zipIdx, Option.map_eq_some_iff] at ha hb
  obtain ⟨_, _, rfl⟩ := ha
  obtain ⟨_, _, rfl⟩ := hb
  simpa using hij

theorem serialize_eq : m.serialize = Bytes.le 4 m.liveIds.card ++
      (bindings m.keys).flatMap fun e => entryBytes e.1 e.2 := by
  simp only [serialize, bindings]
  congr 1
  induction m.keys.zipIdx with
  | nil => rfl
  | cons e _ ind =>
    obtain ⟨k, id⟩ := e
    cases k <;> simp [ind]

theorem readEntries_entryBytes (rest : List UInt8) (h : ∀ e ∈ es, e.1 < 256 ^ 4 ∧ e.2.validateShape = .ok ()) :
    readEntries es.length ((es.flatMap fun e => entryBytes e.1 e.2) ++ rest) m =
      .ok (es.foldl (fun m e => m.setAt e.1 e.2) m) := by
  induction es generalizing m with
  | nil => rfl
  | cons e es ind =>
    have ⟨⟨hi, hk⟩, hs⟩ := forall_mem_cons.mp h
    simp only [length_cons, flatMap_cons, entryBytes, append_assoc, readEntries,
      readExact_append (length_le ..), Except.ok_bind,
      readExact_append (ofLe_le (IdKey.length_bytes_lt hk)).symm, IdKey.fromBytes_bytes, hk,
      ofLe_le hi, foldl_cons]
    exact ind hs

theorem readDelta_deltaBytes (h : d.Valid) : readDelta (deltaBytes d ++ rest) = .ok (d.toEntry, rest) := by
  have ht (op : UInt8) (bytes : List UInt8) :
      takeField 1 "op" (op :: bytes) = .ok ([op], bytes) :=
    takeField_append (show [op].length = 1 from rfl)
  cases d with
  | insert key id =>
    have ⟨hk, hi⟩ := h
    simp [readDelta, deltaBytes, ht, takeField_append (length_le ..), ofLe_le hi,
      takeField_append (ofLe_le (IdKey.length_bytes_lt hk)).symm, IdKey.fromBytes_bytes,
      IndexDelta.toEntry, ensure, pure, Except.pure]
  | remove key =>
    simp [readDelta, deltaBytes, ht, takeField_append (length_le ..), ofLe,
      takeField_append (ofLe_le (IdKey.length_bytes_lt h)).symm, IdKey.fromBytes_bytes,
      IndexDelta.toEntry, ensure, pure, Except.pure]

theorem readDeltas_deltaBytes {ds : List IndexDelta} (rest : List UInt8) (h : ∀ d ∈ ds, d.Valid) :
    readDeltas ds.length (ds.flatMap deltaBytes ++ rest) = .ok (ds.map IndexDelta.toEntry, rest) := by
  induction ds with
  | nil => rfl
  | cons d ds ind =>
    have ⟨hd, hs⟩ := forall_mem_cons.mp h
    simp [readDeltas, readDelta_deltaBytes hd, ind hs, pure, Except.pure]

theorem six_le_length_deltaBytes (d : IndexDelta) : 6 ≤ (deltaBytes d).length := by
  cases d with
  | insert key _ | remove key => have := key.length_bytes_pos; simp [deltaBytes]; omega

theorem length_deltas (ds : List IndexDelta) : 6 * ds.length ≤ (ds.flatMap deltaBytes).length := by
  induction ds with
  | nil => simp
  | cons d ds ind =>
    have := six_le_length_deltaBytes d
    simp only [flatMap_cons, length_append, length_cons]
    omega

theorem deserializeDelta_eq_ok_iff : deserializeDelta (Bytes.le 4 n ++ body) = .ok entries ↔
      n % 256 ^ 4 ≤ body.length / 6 ∧ readDeltas (n % 256 ^ 4) body = .ok (entries, []) := by
  simp only [deserializeDelta, takeField_append (length_le ..), ofLe_le_mod,
    Except.ok_bind, Except.bind_eq_ok, Except.ensure_eq_ok, length_append, length_le,
    Nat.le_add_right, exists_const, true_and]
  constructor
  · rintro ⟨hc, ⟨es, rest⟩, hr, hl, he⟩
    cases he
    cases length_eq_zero_iff.mp hl
    exact ⟨hc, hr⟩
  · rintro ⟨hc, hr⟩
    exact ⟨hc, (entries, []), hr, rfl, rfl⟩

-- A delta can be read back if its number of entries fits into the count.
theorem deserializeDelta_serializeDelta (hv : ∀ d ∈ m.deltaLog, d.Valid) (hl : m.deltaLog.length < 256 ^ 4) :
    deserializeDelta m.serializeDelta = .ok (m.deltaLog.map IndexDelta.toEntry) := by
  have hn := length_deltas m.deltaLog
  have hr := readDeltas_deltaBytes [] hv
  rw [append_nil] at hr
  rw [serializeDelta, deserializeDelta_eq_ok_iff, Nat.mod_eq_of_lt hl]
  exact ⟨by omega, hr⟩

theorem deserializeDelta_overflow (hv : ∀ d ∈ m.deltaLog, d.Valid) (hl : 256 ^ 4 ≤ m.deltaLog.length) :
    deserializeDelta m.serializeDelta ≠ .ok entries := by
  rw [serializeDelta, Ne, deserializeDelta_eq_ok_iff]
  rintro ⟨-, hr⟩
  have hm : m.deltaLog.length % 256 ^ 4 < m.deltaLog.length :=
    (Nat.mod_lt _ (by decide)).trans_le hl
  generalize m.deltaLog.length % 256 ^ 4 = c at hr hm
  have hs : (m.deltaLog.take c).flatMap deltaBytes ++ (m.deltaLog.drop c).flatMap deltaBytes =
      m.deltaLog.flatMap deltaBytes := by
    rw [← flatMap_append, take_append_drop]
  have hc : (m.deltaLog.take c).length = c := by
    rw [length_take, Nat.min_eq_left hm.le]
  have ht : ∀ d ∈ m.deltaLog.take c, d.Valid := fun d hd => hv d (mem_of_mem_take hd)
  have hp := readDeltas_deltaBytes ((m.deltaLog.drop c).flatMap deltaBytes) ht
  rw [hs, hc, hr] at hp
  have hz := length_deltas (m.deltaLog.drop c)
  have he : (m.deltaLog.drop c).flatMap deltaBytes = [] :=
    (congrArg Prod.snd (Except.ok.inj hp)).symm
  rw [he, length_drop] at hz
  simp only [length_nil] at hz
  omega

end IdManager
end Linkrs
