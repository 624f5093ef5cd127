/-!
Sequential ids from a counter that wraps after the largest id and can be reset.
-/

namespace PriorityQueues

/-- The counter of a tracked heap: `next` is the id the next entry gets. -/
structure IdSequence where
  next : UInt64
  deriving DecidableEq, Repr

namespace IdSequence

/-- A counter whose first id is `start`. -/
def startingAt (start : UInt64) : IdSequence := ⟨start⟩

/-- Issues the next id and advances the counter, wrapping after the largest id. -/
def issue (s : IdSequence) : UInt64 × IdSequence := (s.next, ⟨s.next + 1⟩)

/-- Moves the counter past an id that is at or beyond it. -/
def observe (s : IdSequence) (id : UInt64) : IdSequence :=
  if s.next ≤ id then ⟨id + 1⟩ else s

/-- Sends the counter back to 0. -/
def reset (_ : IdSequence) : IdSequence := ⟨0⟩

end IdSequence

end PriorityQueues
