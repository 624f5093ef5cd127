import PriorityQueues.Entry
import PriorityQueues.Error
import PriorityQueues.Dary.Basic
import PriorityQueues.Script.Json
import PriorityQueues.Script.Numeral
import PriorityQueues.Script.Quote

/-!
Sessions: numbered slots of heaps. Each operation checks its fields in order and the first fault
refuses it unchanged; otherwise its step records the outcome, the slots' sizes and the swaps.
-/

namespace PriorityQueues.Script

/-- What a successful operation answers. -/
inductive Reply where
  | unit
  | count (n : Nat)
  | flag (b : Bool)
  | text (s : String)
  | number (n : Int)
  | entry (v : String) (p : Int)
  | entries (es : List (String × Int))
  | numbers (ns : List Nat)
  deriving Repr, DecidableEq

/-- How an operation ended. -/
inductive Outcome where
  | ok (r : Reply)
  /-- The heap refused the operation. -/
  | failed (e : HeapError)
  /-- A field of the operation was missing or faulty, or the operation is unknown. -/
  | refused (why : String)
  deriving Repr, DecidableEq

/-- The record of one operation: its outcome, the size of every slot afterwards (none for an empty
slot), and for each listener that heard swaps, its number and the swaps. -/
structure Step where
  outcome : Outcome
  lens : List (Option Nat)
  swaps : List (Nat × Swaps)
  deriving Repr, DecidableEq

/-- The slots of a session, the idle count of its shared pool, and the handles of all listeners
registered so far, by number. -/
structure Session (H : Type) where
  slots : Array (Option H)
  shared : Nat := 0
  handles : Array Handle := #[]

abbrev Check := Except String

def need (op : Json) (k : String) : Check Json :=
  match op.field? k with
  | some j => pure j
  | none => throw ("missing field " ++ k)

def textField (op : Json) (k : String) : Check String := do
  match ← need op k with
  | .str s => pure s
  | _ => throw ("field " ++ k ++ " must be a string")

def naturalField (op : Json) (k : String) : Check Nat := do
  match (← need op k).unsigned? 64 with
  | some n => pure n
  | none => throw ("field " ++ k ++ " must be a non-negative integer")

def priorityField {P : Type} (read : Json → Option P) (op : Json) (k : String) : Check P := do
  match read (← need op k) with
  | some p => pure p
  | none => throw ("field " ++ k ++ " is not a valid priority")

def slotField (op : Json) (k : String) (dflt : Option Nat) : Check Nat :=
  match op.field? k, dflt with
  | none, some n => pure n
  | none, none => throw ("missing field " ++ k)
  | some j, _ =>
    match j.unsigned? 64 with
    | some n => pure n
    | none => throw ("field " ++ k ++ " must be a slot index")

namespace Session

variable {H : Type}

def start (h : H) : Session H := { slots := #[some h] }

def heap? (s : Session H) (n : Nat) : Option H := (s.slots[n]?).bind id

def slot (s : Session H) (op : Json) (k : String) (dflt : Option Nat) : Check (Nat × H) := do
  let n ← slotField op k dflt
  match s.heap? n with
  | some h => pure (n, h)
  | none => throw ("slot " ++ toString n ++ " holds no heap")

def target (s : Session H) (op : Json) : Check (Nat × H) := s.slot op "h" (some 0)

def put (s : Session H) (n : Nat) (h : Option H) : Session H :=
  { s with slots := s.slots.setIfInBounds n h }

def add (s : Session H) (h : H) : Nat × Session H :=
  (s.slots.size, { s with slots := s.slots.push (some h) })

def lens (size : H → Nat) (s : Session H) : List (Option Nat) :=
  s.slots.toList.map fun h => h.map size

end Session

abbrev Ran (H : Type) := Outcome × Session H × List (Nat × Swaps)

abbrev Handler (H : Type) := Json → Session H → Check (Ran H)

def outcomeOf {α : Type} (r : Except HeapError α) (f : α → Reply) : Outcome :=
  match r with
  | .ok a => .ok (f a)
  | .error e => .failed e

/-- The result of a heap operation: its answer, the heap afterwards, the shared pool's idle count
afterwards, and the swaps it made. -/
structure Done (H α : Type) where
  result : Except HeapError α
  heap : H
  shared : Nat
  swaps : Swaps := []

/-- The operations every engine offers a session. -/
class Queue (H : Type) (P : outParam Type) where
  size : H → Nat
  /-- The priorities the heap accepts, read from a field. -/
  readPriority : H → Json → Option P
  /-- A priority as it is written in replies. -/
  showPriority : P → Int
  push : H → Entry String P → Nat → Done H Reply
  pop : H → Nat → Done H (Entry String P)
  peek : H → Except HeapError (Entry String P)
  clear : H → Nat → H × Nat
  /-- All entries in pop order, the shared count, and the swaps the pops made. -/
  drain : H → Nat → List (Entry String P) × Nat × Swaps
  /-- All entries in pop order, read from a copy. -/
  snapshot : H → Nat → List (Entry String P) × Nat
  /-- A copy of the heap, taking its shells from a fork of the pool. -/
  copy : H → Nat → H × Nat
  /-- The numbers of the listeners that hear the heap's swaps. -/
  hearers : H → List Nat

/-- The operations of meldable heaps. -/
class MeldQueue (H : Type) where
  merge : H → H → Except HeapError H
  checkMerge : H → H → Except HeapError Unit
  /-- The heap left behind, and the heap with the contents. -/
  take : H → H × H

/-- The operations of tree heaps with a shell pool. -/
class PooledQueue (H : Type) where
  verify : H → Bool
  idle : H → Nat → Nat

section Handlers

variable {H P : Type} [Queue H P]

def heard (h : H) (sw : Swaps) : List (Nat × Swaps) :=
  if sw.isEmpty then [] else ((Queue.hearers h).mergeSort (fun a b => a ≤ b)).map fun n => (n, sw)

def entryReply (e : Entry String P) : Reply := .entry e.value (Queue.showPriority H e.priority)

def entriesReply (es : List (Entry String P)) : Reply :=
  .entries (es.map fun e => (e.value, Queue.showPriority H e.priority))

def popWith (f : Entry String P → Reply) : Handler H := fun op s => do
  let (n, h) ← s.target op
  let d := Queue.pop h s.shared
  pure (outcomeOf d.result f, { s.put n (some d.heap) with shared := d.shared }, heard h d.swaps)

def peekWith (f : Entry String P → Reply) : Handler H := fun op s => do
  let (_, h) ← s.target op
  pure (outcomeOf (Queue.peek h) f, s, [])

def commonHandler (fresh : H) : String → Option (Handler H)
  | "push" => some fun op s => do
    let (n, h) ← s.target op
    let v ← textField op "v"
    let p ← priorityField (Queue.readPriority h) op "p"
    let d := Queue.push h ⟨v, p⟩ s.shared
    pure (outcomeOf d.result id, { s.put n (some d.heap) with shared := d.shared },
      heard h d.swaps)
  | "pop" => some (popWith (entryReply (H := H)))
  | "pop_value" => some (popWith fun e => .text e.value)
  | "pop_priority" => some (popWith fun e => .number (Queue.showPriority H e.priority))
  | "peek" => some (peekWith (entryReply (H := H)))
  | "peek_value" => some (peekWith fun e => .text e.value)
  | "peek_priority" => some (peekWith fun e => .number (Queue.showPriority H e.priority))
  | "len" => some fun op s => do
    let (_, h) ← s.target op
    pure (.ok (.count (Queue.size h)), s, [])
  | "is_empty" => some fun op s => do
    let (_, h) ← s.target op
    pure (.ok (.flag (Queue.size h == 0)), s, [])
  | "clear" => some fun op s => do
    let (n, h) ← s.target op
    let r := Queue.clear h s.shared
    pure (.ok .unit, { s.put n (some r.1) with shared := r.2 }, [])
  | "drain" => some fun op s => do
    let (n, h) ← s.target op
    let r := Queue.drain h s.shared
    pure (.ok (entriesReply (H := H) r.1), { s.put n none with shared := r.2.1 }, heard h r.2.2)
  | "snapshot" => some fun op s => do
    let (_, h) ← s.target op
    let r := Queue.snapshot h s.shared
    pure (.ok (entriesReply (H := H) r.1), { s with shared := r.2 }, [])
  | "clone" => some fun op s => do
    let (_, h) ← s.target op
    let r := Queue.copy h s.shared
    let (m, s) := { s with shared := r.2 }.add r.1
    pure (.ok (.count m), s, [])
  | "new" => some fun _ s =>
    let (m, s) := s.add fresh
    pure (.ok (.count m), s, [])
  | _ => none

def meldHandler [MeldQueue H] : String → Option (Handler H)
  | "merge" => some fun op s => do
    let (n, h) ← s.target op
    let (m, o) ← s.slot op "other" none
    if n = m then throw "merge needs two different slots"
    let s := s.put m none
    match MeldQueue.merge h o with
    | .ok h' => pure (.ok .unit, s.put n (some h'), [])
    | .error e => pure (.failed e, s, [])
  | "check_merge" => some fun op s => do
    let (_, h) ← s.target op
    let (_, o) ← s.slot op "other" none
    pure (outcomeOf (MeldQueue.checkMerge h o) fun _ => .unit, s, [])
  | "take" => some fun op s => do
    let (n, h) ← s.target op
    let (left, taken) := MeldQueue.take h
    let (m, s) := (s.put n (some left)).add taken
    pure (.ok (.count m), s, [])
  | "merge_from" => some fun op s => do
    let (n, h) ← s.target op
    let (m, o) ← s.slot op "other" none
    if n = m then return (.ok .unit, s, [])
    match MeldQueue.checkMerge h o with
    | .error e => pure (.failed e, s, [])
    | .ok () =>
      let (left, taken) := MeldQueue.take o
      let s := s.put m (some left)
      match MeldQueue.merge h taken with
      | .ok h' => pure (.ok .unit, s.put n (some h'), [])
      | .error e => pure (.failed e, s, [])
  | _ => none

def pooledHandler [PooledQueue H] : String → Option (Handler H)
  | "verify" => some fun op s => do
    let (_, h) ← s.target op
    pure (.ok (.flag (PooledQueue.verify h)), s, [])
  | "pool_idle" => some fun op s => do
    let (_, h) ← s.target op
    pure (.ok (.count (PooledQueue.idle h s.shared)), s, [])
  | _ => none

end Handlers

def firstHandler {H : Type} (tables : List (String → Option (Handler H))) (name : String) :
    Option (Handler H) :=
  tables.findSome? fun t => t name

def opName (op : Json) : String :=
  match op.field? "op" with
  | some (.str n) => n
  | _ => ""

namespace Session

variable {H : Type}

def step (handler : String → Option (Handler H)) (size : H → Nat) (s : Session H) (op : Json) :
    Step × Session H :=
  let name := opName op
  let refuse (why : String) : Step × Session H := (⟨.refused why, s.lens size, []⟩, s)
  match handler name with
  | none => refuse ("unknown op " ++ quoteName name ++ " for this engine")
  | some run =>
    match run op s with
    | .ok (o, s', sw) => (⟨o, s'.lens size, sw⟩, s')
    | .error why => refuse why

def run (handler : String → Option (Handler H)) (size : H → Nat) :
    Session H → List Json → List Step
  | _, [] => []
  | s, op :: ops =>
    let r := s.step handler size op
    r.1 :: run handler size r.2 ops

end Session

end PriorityQueues.Script
