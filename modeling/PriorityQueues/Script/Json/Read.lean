import PriorityQueues.Script.Json

/-!
Reading JSON text strictly; each reader takes fuel bounding its recursion, which `parse` sets
beyond what any value of the text needs.
-/

namespace PriorityQueues.Script.Json

def isBlank (c : Char) : Bool := c = ' ' || c = '\t' || c = '\n' || c = '\r'

def skipBlanks (cs : List Char) : List Char := cs.dropWhile isBlank

def hexValue (c : Char) : Option Nat :=
  if '0' ≤ c ∧ c ≤ '9' then some (c.toNat - 48)
  else if 'a' ≤ c ∧ c ≤ 'f' then some (c.toNat - 87)
  else if 'A' ≤ c ∧ c ≤ 'F' then some (c.toNat - 55)
  else none

def hex4 (a b c d : Char) : Option Nat := do
  let a ← hexValue a
  let b ← hexValue b
  let c ← hexValue c
  let d ← hexValue d
  pure (((a * 16 + b) * 16 + c) * 16 + d)

def simpleEscape : Char → Option Char
  | '"' => some '"'
  | '\\' => some '\\'
  | '/' => some '/'
  | 'b' => some (Char.ofNat 8)
  | 'f' => some (Char.ofNat 12)
  | 'n' => some '\n'
  | 'r' => some '\r'
  | 't' => some '\t'
  | _ => none

def stringBody : Nat → List Char → List Char → Option (List Char × List Char)
  | 0, _, _ => none
  | fuel + 1, acc, cs =>
    match cs with
    | [] => none
    | '"' :: rest => some (acc.reverse, rest)
    | '\\' :: 'u' :: a :: b :: c :: d :: rest =>
      match hex4 a b c d with
      | none => none
      | some n =>
        if n < 0xD800 ∨ 0xDFFF < n then stringBody fuel (Char.ofNat n :: acc) rest
        else if 0xDBFF < n then none
        else
          match rest with
          | '\\' :: 'u' :: a :: b :: c :: d :: rest =>
            match hex4 a b c d with
            | some m =>
              if 0xDC00 ≤ m ∧ m ≤ 0xDFFF then
                stringBody fuel (Char.ofNat (0x10000 + (n - 0xD800) * 0x400 + (m - 0xDC00)) :: acc)
                  rest
              else none
            | none => none
          | _ => none
    | '\\' :: e :: rest =>
      match simpleEscape e with
      | some c => stringBody fuel (c :: acc) rest
      | none => none
    | c :: rest => if c.toNat < 0x20 then none else stringBody fuel (c :: acc) rest

def string (cs : List Char) : Option (String × List Char) :=
  (stringBody (cs.length + 1) [] cs).map fun r => (String.ofList r.1, r.2)

def digits (cs : List Char) : List Char × List Char :=
  (cs.takeWhile Char.isDigit, cs.dropWhile Char.isDigit)

def sign (cs : List Char) : List Char × List Char :=
  match cs with
  | '+' :: r => (['+'], r)
  | '-' :: r => (['-'], r)
  | r => ([], r)

def number (cs : List Char) : Option (String × List Char) := do
  let (minus, r) := match cs with
    | '-' :: r => (['-'], r)
    | r => ([], r)
  let (whole, r) ← match r with
    | '0' :: r => some (['0'], r)
    | c :: r' => if c.isDigit then some (digits (c :: r')) else none
    | [] => none
  let (fraction, r) ← match r with
    | '.' :: r =>
      let (ds, r) := digits r
      if ds.isEmpty then none else some ('.' :: ds, r)
    | r => some ([], r)
  let (exponent, r) ← match r with
    | e :: r =>
      if e = 'e' ∨ e = 'E' then
        let (sg, r) := sign r
        let (ds, r) := digits r
        if ds.isEmpty then none else some (e :: sg ++ ds, r)
      else some ([], e :: r)
    | [] => some ([], [])
  pure (String.ofList (minus ++ whole ++ fraction ++ exponent), r)

mutual
def value : Nat → Nat → List Char → Option (Json × List Char)
  | 0, _, _ => none
  | fuel + 1, depth, cs =>
    match skipBlanks cs with
    | 'n' :: 'u' :: 'l' :: 'l' :: r => some (.null, r)
    | 't' :: 'r' :: 'u' :: 'e' :: r => some (.bool true, r)
    | 'f' :: 'a' :: 'l' :: 's' :: 'e' :: r => some (.bool false, r)
    | '"' :: r => (string r).map fun s => (.str s.1, s.2)
    | '[' :: r => if depth = 0 then none else array fuel (depth - 1) r
    | '{' :: r => if depth = 0 then none else object fuel (depth - 1) r
    | r => (number r).map fun n => (.num n.1, n.2)

def array : Nat → Nat → List Char → Option (Json × List Char)
  | 0, _, _ => none
  | fuel + 1, depth, cs =>
    match skipBlanks cs with
    | ']' :: r => some (.arr [], r)
    | _ => items fuel depth [] cs

def items : Nat → Nat → List Json → List Char → Option (Json × List Char)
  | 0, _, _, _ => none
  | fuel + 1, depth, acc, cs =>
    match value fuel depth cs with
    | none => none
    | some (v, r) =>
      match skipBlanks r with
      | ',' :: r => items fuel depth (v :: acc) r
      | ']' :: r => some (.arr (v :: acc).reverse, r)
      | _ => none

def object : Nat → Nat → List Char → Option (Json × List Char)
  | 0, _, _ => none
  | fuel + 1, depth, cs =>
    match skipBlanks cs with
    | '}' :: r => some (.obj [], r)
    | _ => members fuel depth [] cs

def members : Nat → Nat → List (String × Json) → List Char → Option (Json × List Char)
  | 0, _, _, _ => none
  | fuel + 1, depth, acc, cs =>
    match skipBlanks cs with
    | '"' :: r =>
      match string r with
      | none => none
      | some (k, r) =>
        match skipBlanks r with
        | ':' :: r =>
          match value fuel depth r with
          | none => none
          | some (v, r) =>
            match skipBlanks r with
            | ',' :: r => members fuel depth ((k, v) :: acc) r
            | '}' :: r => some (.obj ((k, v) :: acc).reverse, r)
            | _ => none
        | _ => none
    | _ => none
end

def parse (s : String) : Option Json :=
  let cs := s.toList
  match value (3 * cs.length + 3) 127 cs with
  | some (j, r) => if (skipBlanks r).isEmpty then some j else none
  | none => none

end PriorityQueues.Script.Json
