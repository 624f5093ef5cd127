/-!
Entries: a value with the priority that decides when it leaves.
-/

namespace PriorityQueues

/-- A value together with its priority. -/
structure Entry (V P : Type) where
  value : V
  priority : P
  deriving DecidableEq, Repr

namespace Entry

variable {V P : Type}

/-- Lifts a precedence test on priorities to entries. -/
@[inline] def before (prec : P → P → Bool) (a b : Entry V P) : Bool :=
  prec a.priority b.priority

/-- The entry with its priority replaced. -/
def withPriority (e : Entry V P) (p : P) : Entry V P := { e with priority := p }

end Entry

end PriorityQueues
