/-!
JSON values as scripts write them: numbers keep their literal text, objects their member order.
-/

namespace PriorityQueues.Script

/-- A JSON value; a number is kept as its literal text. -/
inductive Json where
  | null
  | bool (b : Bool)
  | num (literal : String)
  | str (s : String)
  | arr (items : List Json)
  | obj (members : List (String × Json))
  deriving Repr, Inhabited

namespace Json

def field? (j : Json) (key : String) : Option Json :=
  match j with
  | .obj ms => (ms.reverse.find? (·.1 == key)).map (·.2)
  | _ => none

def ofInt (n : Int) : Json := .num (toString n)

end Json

end PriorityQueues.Script
