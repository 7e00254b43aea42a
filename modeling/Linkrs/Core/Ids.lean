import Mathlib.Algebra.Order.Ring.Nat

namespace Linkrs

-- `u64` in the source. The allocator is the only place that produces a new timestamp, and it stops
-- before the top of the range, so the bound is checked there and nowhere else.
abbrev Timestamp := ℕ

abbrev TransactionId := ℕ

-- Also the value of `NO_ACTIVE_SNAPSHOT`, the answer of an empty snapshot tracker.
def invalidTimestamp : Timestamp := 2 ^ 64 - 1

def maxTimestamp : Timestamp := 2 ^ 64 - 2

def isAllocatableTimestamp (ts : Timestamp) : Bool :=
  ts ≠ 0 && ts ≠ invalidTimestamp && ts ≠ maxTimestamp

inductive VertexIdKind where
  | empty
  | int
  | uint
  | text
  | edgeEndpoint
  deriving DecidableEq, Repr

-- The payload bytes `data[..len]` of a vertex id and the tag that says how to read them.
structure VertexId where
  kind : VertexIdKind
  bytes : List UInt8
  len_le : bytes.length ≤ 32
  deriving DecidableEq

structure EdgeIdentifier where
  srcLabel : UInt32
  srcVid : VertexId
  dstLabel : UInt32
  dstVid : VertexId
  edgeLabel : UInt32
  rank : Int64
  deriving DecidableEq

end Linkrs
