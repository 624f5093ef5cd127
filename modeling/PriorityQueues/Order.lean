/-!
Priority orders: `prec a b` says that `a` leaves before `b`. `StrictWeakOrder` collects the laws
the queues rely on, and `Ranking` names the orders scripts choose from.
-/

namespace PriorityQueues

/-- The laws of a strict weak order, for a Boolean precedence test: nothing precedes itself,
precedence is transitive, and so is being tied. -/
structure StrictWeakOrder {P : Type} (prec : P → P → Bool) : Prop where
  irrefl : ∀ a, prec a a = false
  trans : ∀ a b c, prec a b = true → prec b c = true → prec a c = true
  tie_trans : ∀ a b c, prec a b = false → prec b a = false → prec b c = false →
    prec c b = false → prec a c = false ∧ prec c a = false

/-- The orders on integer priorities that a script can name. -/
inductive Ranking where
  /-- The smaller priority leaves first. -/
  | ascending
  /-- The larger priority leaves first. -/
  | descending
  /-- The smaller last decimal digit leaves first, counted on the nonnegative remainder modulo 10,
  so that `-3` ranks as `7`. -/
  | lastDigit
  /-- The smaller absolute value leaves first. -/
  | magnitude
  /-- No priority precedes another: all of them tie. -/
  | flat
  deriving DecidableEq, Repr

namespace Ranking

/-- The precedence test of a ranking. -/
def precedes : Ranking → Int → Int → Bool
  | .ascending, a, b => decide (a < b)
  | .descending, a, b => decide (b < a)
  | .lastDigit, a, b => decide (a % 10 < b % 10)
  | .magnitude, a, b => decide (a.natAbs < b.natAbs)
  | .flat, _, _ => false

end Ranking

end PriorityQueues
