import PriorityQueues.Script.Json

/-!
Integers in scripts: a field holds an integer of a width when it is an integer literal in range.
-/

namespace PriorityQueues.Script

def decimal? (cs : List Char) : Option Nat :=
  if cs.isEmpty || !cs.all Char.isDigit then none
  else some (cs.foldl (fun n c => 10 * n + (c.toNat - 48)) 0)

def integerLiteral? (lit : String) : Option Int :=
  match lit.toList with
  | '-' :: ds => (decimal? ds).map fun n => -(n : Int)
  | ds => (decimal? ds).map fun n => (n : Int)

namespace Json

def unsigned? (bits : Nat) : Json → Option Nat
  | .num lit =>
    match lit.toList with
    | '-' :: _ => none
    | ds => (decimal? ds).bind fun n => if n < Nat.pow 2 bits then some n else none
  | _ => none

def signed? (bits : Nat) : Json → Option Int
  | .num lit =>
    let bound : Int := Nat.pow 2 (bits - 1)
    (integerLiteral? lit).bind fun n => if -bound ≤ n ∧ n < bound then some n else none
  | _ => none

end Json

end PriorityQueues.Script
