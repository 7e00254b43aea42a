import Linkrs.Lib.Postcard
import Linkrs.Query.JoinKeys

namespace Linkrs

open Postcard

variable {α : Type}

section

variable [Foreign α]

def Scalar.postcard : Scalar α → List UInt8
  | empty => varint 0
  | null type => varint 1 ++ varint type.index
  | bool b => varint 2 ++ [.ofNat b.toNat]
  | smallInt i => varint 3 ++ varint (zigzag i.toInt)
  | int i => varint 4 ++ varint (zigzag i.toInt)
  | bigInt i => varint 5 ++ varint (zigzag i.toInt)
  | float bits => varint 6 ++ Bytes.le 4 bits.toNat
  | double bits => varint 7 ++ Bytes.le 8 bits.toNat
  | string s => varint 9 ++ text s
  | fixedString s => varint 10 ++ text s
  | blob bs => varint 11 ++ bytes bs
  | other content => Foreign.postcard content

-- The elements of a set are written in the order in which they are iterated.
mutual
def Value.postcard : Value α → List UInt8
  | .scalar s => s.postcard
  | .list values => varint 19 ++ varint values.length ++ Value.postcards values
  | .set values => varint 21 ++ varint values.length ++ Value.postcards values
  | .struct fields => varint 31 ++ varint fields.length ++ Value.fieldPostcards fields
  | .array values => varint 32 ++ varint values.length ++ Value.postcards values

def Value.postcards : List (Value α) → List UInt8
  | [] => []
  | v :: values => v.postcard ++ Value.postcards values

def Value.fieldPostcards : List (String × Value α) → List UInt8
  | [] => []
  | (name, v) :: fields => text name ++ v.postcard ++ Value.fieldPostcards fields
end

def Tuple.postcard (row : Tuple α) : List UInt8 :=
  varint row.length ++ Value.postcards row

def JoinKeyValue.postcard : JoinKeyValue α → List UInt8
  | i32 i => varint 0 ++ varint (zigzag i.toInt)
  | i64 i => varint 1 ++ varint (zigzag i.toInt)
  | string s => varint 2 ++ text s
  | multi values => varint 3 ++ Tuple.postcard values

-- How keys and rows are written before they are hashed.
class Serialized (α : Type) extends Foreign α where
  row : Tuple α → List UInt8
  key : JoinKeyValue α → List UInt8

-- The wire format of `postcard`.
@[reducible]
def Serialized.wire : Serialized α where
  row := Tuple.postcard
  key := JoinKeyValue.postcard

end

instance : Serialized Empty := .wire

variable [Serialized α]

def fnv1a64Update (hash : UInt64) (data : List UInt8) : UInt64 :=
  data.foldl (fun hash byte => (hash ^^^ byte.toUInt64) * 0x100000001b3) hash

def hashPartitionSeed : UInt64 := 0xdeadbeefcafe

def hashRowPartition (row : Tuple α) (numPartitions : ℕ) : ℕ :=
  (fnv1a64Update hashPartitionSeed (Serialized.row row)).toNat % numPartitions

def hashBytesPartition (data : List UInt8) (numPartitions : ℕ) : ℕ :=
  if numPartitions = 0 then 0 else (fnv1a64Update hashPartitionSeed data).toNat % numPartitions

def hashJoinKeyPartition (key : JoinKeyValue α) (numPartitions : ℕ) : ℕ :=
  if numPartitions = 0 then 0
  else if key.isNullish then 0
  else hashBytesPartition (Serialized.key key) numPartitions

theorem hashJoinKeyPartition_lt (key : JoinKeyValue α) (h : 0 < n) : hashJoinKeyPartition key n < n := by
  simp only [hashJoinKeyPartition, hashBytesPartition, h.ne', if_false]
  split
  · exact h
  · exact Nat.mod_lt _ h

-- Fewer partitions merge whole partitions where the number divides.
theorem hashJoinKeyPartition_mod (key : JoinKeyValue α) (h : m ∣ n) (hn : 0 < n) :
    hashJoinKeyPartition key n % m = hashJoinKeyPartition key m := by
  have hm : m ≠ 0 := by rintro rfl; simp_all
  simp only [hashJoinKeyPartition, hashBytesPartition, hn.ne', hm, if_false]
  split
  · exact Nat.zero_mod m
  · exact Nat.mod_mod_of_dvd _ h

end Linkrs
