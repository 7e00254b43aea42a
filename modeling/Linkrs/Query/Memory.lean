import Linkrs.Lib.Except

namespace Linkrs

structure QueryError where
  execution ::
  message : String
  deriving DecidableEq, Repr

abbrev QueryResult := Except QueryError

-- The budget is shared with the other operators of a query, so its answers are up to the
-- environment: one for each request, by the number of the request and its size.
abbrev MemoryBudget := ℕ → ℕ → QueryResult Unit

structure MemoryTracker where
  currentBytes : ℕ
  requests : ℕ
  deriving DecidableEq, Repr

namespace MemoryTracker

def new : MemoryTracker :=
  ⟨0, 0⟩

variable (budget : MemoryBudget) (t : MemoryTracker)

-- A request that is refused leaves the account unchanged.
def tryReserve (bytes : ℕ) : QueryResult Unit × MemoryTracker :=
  let answer := budget t.requests bytes
  (answer, ⟨if answer.isOk then t.currentBytes + bytes else t.currentBytes, t.requests + 1⟩)

-- A request whose refusal ends the call.
def reserve (bytes : ℕ) : QueryResult MemoryTracker :=
  let (answer, t) := tryReserve budget t bytes
  answer.map fun _ => t

def release (bytes : ℕ) : MemoryTracker :=
  { t with currentBytes := t.currentBytes - bytes }

def reset : MemoryTracker :=
  { t with currentBytes := 0 }

end MemoryTracker
end Linkrs
