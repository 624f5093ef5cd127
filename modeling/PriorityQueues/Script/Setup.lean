import PriorityQueues.Order
import PriorityQueues.Entry
import PriorityQueues.Pool
import PriorityQueues.Script.Json
import PriorityQueues.Script.Numeral
import PriorityQueues.Script.Quote

/-!
The setup of a script: `Setup.read` checks `ops`, then the engine's own fields, then the engine,
and names the first fault; absent names take their defaults.
-/

namespace PriorityQueues.Script

/-- The tree engines. -/
inductive Shape where
  | pairing
  | skew
  | leftist
  deriving DecidableEq, Repr

/-- How a session's heaps are made. -/
inductive Setup where
  /-- Array heaps of the given arity; the first heap holds the initial entries if any. -/
  | dary (arity : Nat) (ranking : Ranking) (init : Option (List (Entry String Int)))
  /-- Tree heaps of a shape, each with a pool of the given kind. -/
  | tree (shape : Shape) (ranking : Ranking) (pool : ShellPool)
  /-- Tracked tree heaps whose counters start at `start`. -/
  | tracked (shape : Shape) (ranking : Ranking) (pool : ShellPool) (start : UInt64)
  /-- Radix heaps over keys of `bits` bits. -/
  | radix (bits : Nat)
  deriving Repr

def signedPriority? (j : Json) : Option Int := j.signed? 64

def nameOr (j : Json) (key dflt : String) : String :=
  match j.field? key with
  | some (.str s) => s
  | _ => dflt

def rankingOf? : String → Option Ranking
  | "min" => some .ascending
  | "max" => some .descending
  | "mod10" => some .lastDigit
  | "abs" => some .magnitude
  | "none" => some .flat
  | _ => none

def poolOf? : String → Option ShellPool
  | "local" => some (.own 0)
  | "reuse" => some (.own 0)
  | "alloc" => some .none
  | "shared" => some .shared
  | _ => none

def keyBits? : String → Option Nat
  | "u8" => some 8
  | "u16" => some 16
  | "u32" => some 32
  | "u64" => some 64
  | "u128" => some 128
  | "usize" => some 64
  | _ => none

def shapeOf? : String → Option (Shape × Bool)
  | "pairing" => some (.pairing, false)
  | "skew" => some (.skew, false)
  | "leftist" => some (.leftist, false)
  | "tracked_pairing" => some (.pairing, true)
  | "tracked_skew" => some (.skew, true)
  | "tracked_leftist" => some (.leftist, true)
  | _ => none

def readEntry (j : Json) : Except String (Entry String Int) :=
  match j with
  | .arr [v, p] =>
    match v with
    | .str s =>
      match signedPriority? p with
      | some n => .ok ⟨s, n⟩
      | none => .error "entry priority is not a valid priority"
    | _ => .error "entry value must be a string"
  | _ => .error "entry must be [value, priority]"

def readEntries (j : Json) : Except String (List (Entry String Int)) :=
  match j with
  | .arr items => items.mapM readEntry
  | _ => .error "entries must be an array"

def readRanking (j : Json) : Except String Ranking :=
  let name := nameOr j "cmp" "min"
  match rankingOf? name with
  | some r => .ok r
  | none => .error ("unknown cmp " ++ quoteName name)

def readPool (j : Json) : Except String ShellPool :=
  let name := nameOr j "pool" "local"
  match poolOf? name with
  | some p => .ok p
  | none => .error ("unknown pool " ++ quoteName name)

def Setup.read (j : Json) : Except String (Setup × List Json) := do
  let ops ← match j.field? "ops" with
    | some (.arr ops) => pure ops
    | _ => throw "ops must be an array"
  let engine := nameOr j "engine" ""
  if engine = "dary" then
    let arity ← match j.field? "arity" with
      | none => pure 2
      | some a =>
        match a.unsigned? 64 with
        | some n => pure n
        | none => throw "arity must be a non-negative integer"
    let init ← match j.field? "init" with
      | none => pure none
      | some es => some <$> readEntries es
    let ranking ← readRanking j
    return (.dary arity ranking init, ops)
  match shapeOf? engine with
  | some (shape, false) =>
    let ranking ← readRanking j
    let pool ← readPool j
    return (.tree shape ranking pool, ops)
  | some (shape, true) =>
    let start ← match j.field? "start_id" with
      | none => pure 0
      | some s =>
        match s.unsigned? 64 with
        | some n => pure n.toUInt64
        | none => throw "start_id must be a u64"
    let ranking ← readRanking j
    let pool ← readPool j
    return (.tracked shape ranking pool start, ops)
  | none =>
    if engine = "radix" then
      let key := nameOr j "key" "u32"
      match keyBits? key with
      | some bits => return (.radix bits, ops)
      | none => throw ("unknown key " ++ quoteName key)
    throw ("unknown engine " ++ quoteName engine)

end PriorityQueues.Script
