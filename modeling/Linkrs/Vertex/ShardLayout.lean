import Mathlib.Data.Nat.Bitwise
import Mathlib.Algebra.Order.Ring.Nat
import Mathlib.Data.UInt

namespace Linkrs

def maxShards : ℕ := 256
def globalIdBits : ℕ := 32

-- The ids of a sharded table consist of a segment and a slot. The shards take turns in the segments.
structure ShardLayout where
  numShards : ℕ
  segmentSlotsBits : ℕ
  totalSegments : ℕ

namespace ShardLayout

def isPowerOfTwo (n : ℕ) : Bool :=
  n ≠ 0 ∧ 2 ^ n.log2 = n

variable (l : ShardLayout)

def segmentSlots : ℕ :=
  1 <<< l.segmentSlotsBits

def segmentSlotsMask : ℕ :=
  l.segmentSlots - 1

def isConsistent : Bool :=
  1 ≤ l.segmentSlotsBits ∧ l.segmentSlotsBits < globalIdBits ∧
    l.totalSegments = 1 <<< (globalIdBits - l.segmentSlotsBits) ∧
    isPowerOfTwo l.numShards ∧ l.numShards ≤ maxShards

def segment (id : UInt32) : ℕ :=
  id.toNat >>> l.segmentSlotsBits

def slot (id : UInt32) : ℕ :=
  id.toNat &&& l.segmentSlotsMask

def join (segment slot : ℕ) : UInt32 :=
  .ofNat (segment <<< l.segmentSlotsBits ||| slot)

-- The number of the segment is computed in 32 bits.
def tryEncodeId (shard : ℕ) (localId : UInt32) : Except String UInt32 :=
  if ¬l.isConsistent then .error "shard layout is inconsistent"
  else if l.numShards ≤ shard then
    .error s!"shard {shard} out of range for {l.numShards} shards"
  else
    let segment := (shard + l.segment localId * l.numShards) % 2 ^ 32
    if l.totalSegments ≤ segment then
      .error s!"local_id {localId} in shard {shard} exceeds the segment address space"
    else
      .ok (l.join segment (l.slot localId))

def tryDecodeId (globalId : UInt32) : Except String (ℕ × UInt32) :=
  if ¬l.isConsistent then .error "shard layout is inconsistent"
  else
    let segment := l.segment globalId
    if l.totalSegments ≤ segment then
      .error s!"global id {globalId} segment {segment} out of range"
    else
      .ok (segment % l.numShards, l.join (segment / l.numShards) (l.slot globalId))

-- Each of the two undoes the other.
def IsBijection : Prop :=
  (∀ shard localId globalId, l.tryEncodeId shard localId = .ok globalId →
    l.tryDecodeId globalId = .ok (shard, localId)) ∧
  ∀ globalId shard localId, l.tryDecodeId globalId = .ok (shard, localId) →
    l.tryEncodeId shard localId = .ok globalId

section

variable {l} {shard n : ℕ} {id localId globalId : UInt32}

theorem consistent (h : l.isConsistent) :
    l.totalSegments * 2 ^ l.segmentSlotsBits = 2 ^ 32 ∧ ∃ s ≤ 8, l.numShards = 2 ^ s := by
  simp only [isConsistent, isPowerOfTwo, globalIdBits, maxShards, Nat.one_shiftLeft, decide_eq_true_eq] at h
  obtain ⟨_, hk, ht, ⟨-, hn⟩, hle⟩ := h
  refine ⟨by rw [ht, ← pow_add, Nat.sub_add_cancel hk.le], _, ?_, hn.symm⟩
  exact (Nat.pow_le_pow_iff_right (by decide)).mp (hn.trans_le hle)

theorem slot_eq : l.slot id = id.toNat % 2 ^ l.segmentSlotsBits := by
  rw [slot, segmentSlotsMask, segmentSlots, Nat.one_shiftLeft, Nat.and_two_pow_sub_one_eq_mod]

theorem segment_eq : l.segment id = id.toNat / 2 ^ l.segmentSlotsBits :=
  Nat.shiftRight_eq_div_pow ..

theorem slot_lt : l.slot id < 2 ^ l.segmentSlotsBits :=
  slot_eq.trans_lt (Nat.mod_lt _ (Nat.two_pow_pos _))

theorem segment_lt (h : l.isConsistent) : l.segment id < l.totalSegments := by
  rw [segment_eq, Nat.div_lt_iff_lt_mul (Nat.two_pow_pos _), (consistent h).1]
  exact id.toNat_lt

theorem toNat_join (h : l.isConsistent) (hn : n < l.totalSegments) :
    (l.join n (l.slot id)).toNat = n * 2 ^ l.segmentSlotsBits + l.slot id := by
  rw [join, ← Nat.shiftLeft_add_eq_or_of_lt slot_lt, Nat.shiftLeft_eq]
  refine UInt32.toNat_ofNat_of_lt' ?_
  have hle := Nat.mul_le_mul_right (2 ^ l.segmentSlotsBits) (Nat.succ_le_of_lt hn)
  rw [(consistent h).1, Nat.succ_mul] at hle
  exact (Nat.add_lt_add_left slot_lt _).trans_le hle

theorem segment_join (h : l.isConsistent) (hn : n < l.totalSegments) : l.segment (l.join n (l.slot id)) = n := by
  rw [segment_eq, toNat_join h hn, mul_comm, Nat.mul_add_div (Nat.two_pow_pos _),
    Nat.div_eq_of_lt slot_lt, add_zero]

theorem slot_join (h : l.isConsistent) (hn : n < l.totalSegments) : l.slot (l.join n (l.slot id)) = l.slot id := by
  rw [slot_eq, toNat_join h hn, Nat.mul_add_mod_of_lt slot_lt]

theorem join_self (h : l.isConsistent) : l.join (l.segment id) (l.slot id) = id := by
  refine UInt32.toNat_inj.mp ?_
  rw [toNat_join h (segment_lt h), segment_eq, slot_eq, Nat.div_add_mod']

theorem tryEncodeId_eq_ok (h : l.isConsistent) : l.tryEncodeId shard localId = .ok globalId ↔
    shard < l.numShards ∧ (shard + l.segment localId * l.numShards) % 2 ^ 32 < l.totalSegments ∧
    l.join ((shard + l.segment localId * l.numShards) % 2 ^ 32) (l.slot localId) = globalId := by
  rw [tryEncodeId, if_neg (not_not.mpr h)]
  dsimp only
  split_ifs <;> simp_all

theorem tryDecodeId_eq_ok (h : l.isConsistent) : l.tryDecodeId globalId = .ok (shard, localId) ↔
    l.segment globalId % l.numShards = shard ∧
    l.join (l.segment globalId / l.numShards) (l.slot globalId) = localId := by
  rw [tryDecodeId, if_neg (not_not.mpr h), if_neg (not_le.mpr (segment_lt h)), Except.ok.injEq, Prod.mk.injEq]

theorem encode_decode (h : l.isConsistent) (hd : l.tryDecodeId globalId = .ok (shard, localId)) :
    l.tryEncodeId shard localId = .ok globalId := by
  obtain ⟨rfl, rfl⟩ := (tryDecodeId_eq_ok h).mp hd
  have ⟨_, s, _, hs⟩ := consistent h
  have hlt : l.segment globalId / l.numShards < l.totalSegments :=
    (Nat.div_le_self _ _).trans_lt (segment_lt h)
  have hseg : l.segment globalId < 2 ^ 32 :=
    segment_eq.trans_lt ((Nat.div_le_self _ _).trans_lt globalId.toNat_lt)
  rw [tryEncodeId_eq_ok h, segment_join h hlt, slot_join h hlt, Nat.mod_add_div', Nat.mod_eq_of_lt hseg]
  exact ⟨Nat.mod_lt _ (hs ▸ Nat.two_pow_pos s), segment_lt h, join_self h⟩

-- Nothing overflows as long as a segment has a slot for every shard.
theorem decode_encode (h : l.isConsistent) (hle : l.numShards ≤ 2 ^ l.segmentSlotsBits)
    (he : l.tryEncodeId shard localId = .ok globalId) : l.tryDecodeId globalId = .ok (shard, localId) := by
  obtain ⟨hs, hseg, rfl⟩ := (tryEncodeId_eq_ok h).mp he
  have hlt : shard + l.segment localId * l.numShards < 2 ^ 32 := by
    calc shard + l.segment localId * l.numShards
      _ < (l.segment localId + 1) * l.numShards := by
        rw [add_one_mul, add_comm]
        exact Nat.add_lt_add_left hs _
      _ ≤ l.totalSegments * 2 ^ l.segmentSlotsBits := Nat.mul_le_mul (segment_lt h) hle
      _ = 2 ^ 32 := (consistent h).1
  rw [Nat.mod_eq_of_lt hlt] at hseg ⊢
  rw [tryDecodeId_eq_ok h, segment_join h hseg, slot_join h hseg, Nat.add_mul_mod_self_right,
    Nat.mod_eq_of_lt hs, Nat.add_mul_div_right _ _ (Nat.zero_lt_of_lt hs), Nat.div_eq_of_lt hs,
    zero_add]
  exact ⟨rfl, join_self h⟩

end

-- The codec is a bijection exactly if a segment has a slot for every shard: otherwise the number of a
-- segment far out overflows and becomes that of one near the front.
theorem isBijection_iff (l : ShardLayout) (h : l.isConsistent) : l.IsBijection ↔ l.numShards ≤ l.segmentSlots := by
  have ⟨ht, s, hs, hn⟩ := consistent h
  rw [segmentSlots, Nat.one_shiftLeft]
  refine ⟨fun hb => ?_, fun hle => ⟨fun _ _ _ => decode_encode h hle, fun _ _ _ => encode_decode h⟩⟩
  by_contra hlt
  -- the segment of the first shard whose number is `2 ^ 32`
  have hfar : 2 ^ (32 - s) < l.totalSegments := by
    have hk : l.segmentSlotsBits < s := by
      rw [hn, not_le] at hlt
      exact (Nat.pow_lt_pow_iff_right Nat.one_lt_two).mp hlt
    refine (Nat.mul_lt_mul_right (Nat.two_pow_pos l.segmentSlotsBits)).mp ?_
    rw [ht, ← pow_add]
    exact Nat.pow_lt_pow_right Nat.one_lt_two (by omega)
  have hseg : l.segment (l.join (2 ^ (32 - s)) (l.slot 0)) = 2 ^ (32 - s) := segment_join h hfar
  have he : l.tryEncodeId 0 (l.join (2 ^ (32 - s)) (l.slot 0)) =
      .ok (l.join 0 (l.slot (l.join (2 ^ (32 - s)) (l.slot 0)))) := by
    rw [tryEncodeId_eq_ok h, hseg, hn, ← pow_add, Nat.sub_add_cancel (by omega), zero_add, Nat.mod_self]
    exact ⟨Nat.two_pow_pos s, Nat.zero_lt_of_lt hfar, rfl⟩
  have ⟨_, hd⟩ := (tryDecodeId_eq_ok h).mp (hb.1 _ _ _ he)
  rw [segment_join h (Nat.zero_lt_of_lt hfar), Nat.zero_div, slot_join h (Nat.zero_lt_of_lt hfar)] at hd
  rw [← hd, segment_join h (Nat.zero_lt_of_lt hfar)] at hseg
  exact absurd hseg.symm (Nat.two_pow_pos _).ne'

-- Two shards with four slots in each segment.
theorem isBijection_small : isConsistent ⟨2, 2, 2 ^ 30⟩ ∧ IsBijection ⟨2, 2, 2 ^ 30⟩ :=
  ⟨by decide, (isBijection_iff ⟨2, 2, 2 ^ 30⟩ (by decide)).mpr (by decide)⟩

-- With two slots and 256 shards, row `2 ^ 25` of the first shard gets the id of row 0.
theorem isBijection_violated : isConsistent ⟨256, 1, 2 ^ 31⟩ ∧ tryEncodeId ⟨256, 1, 2 ^ 31⟩ 0 (2 ^ 25) = .ok 0 ∧
      tryDecodeId ⟨256, 1, 2 ^ 31⟩ 0 = .ok (0, 0) ∧ ¬IsBijection ⟨256, 1, 2 ^ 31⟩ := by
  have he : tryEncodeId ⟨256, 1, 2 ^ 31⟩ 0 (2 ^ 25) = .ok 0 := by decide +kernel
  have hd : tryDecodeId ⟨256, 1, 2 ^ 31⟩ 0 = .ok (0, 0) := by decide +kernel
  refine ⟨by decide, he, hd, fun hb => ?_⟩
  cases (hb.1 _ _ _ he).symm.trans hd

end ShardLayout
end Linkrs
