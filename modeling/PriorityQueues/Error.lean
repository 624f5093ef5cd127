/-!
The ways a queue operation can fail, with their wording in `HeapError.message`.
-/

namespace PriorityQueues

/-- Why a queue operation failed. -/
inductive HeapError where
  /-- The operation needs an entry and the queue holds none. -/
  | empty
  /-- A position at or past the end of an array queue of length `len`. -/
  | indexOutOfBounds (index len : Nat)
  /-- No live entry carries the id. -/
  | nodeNotFound
  /-- The handle names no registered listener. -/
  | listenerNotFound
  /-- A monotone queue refuses a priority below the last one it served. -/
  | belowBaseline
  /-- A radix queue was asked to redistribute while its exact bucket still held entries. -/
  | rebalanceNotNeeded
  /-- A fresh id, or an id of a queue to be merged, is already live. -/
  | idCollision
  deriving DecidableEq, Repr

/-- The text that describes a failure. -/
def HeapError.message : HeapError → String
  | .empty => "heap is empty"
  | .indexOutOfBounds index len =>
    "index " ++ toString index ++ " is out of bounds for a heap of length " ++ toString len
  | .nodeNotFound => "no node is registered under the given id"
  | .listenerNotFound => "no callback is registered under the given handle"
  | .belowBaseline => "priority is below the heap's current baseline"
  | .rebalanceNotNeeded => "bucket 0 is not empty, no rebalancing needed"
  | .idCollision => "id generator produced an id that is already registered"

end PriorityQueues
