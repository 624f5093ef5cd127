import PriorityQueues.Order
import PriorityQueues.Dary.Basic
import PriorityQueues.Script.Setup
import PriorityQueues.Script.Session

/-!
Array heaps in sessions: positional reads and writes, push-pop and pop-push, listeners, and
building from a list of entries.
-/

namespace PriorityQueues.Script

variable {prec : Int → Int → Bool} {R : Type} [Registry R Handle Nat]

abbrev SessionDary (prec : Int → Int → Bool) (R : Type) := DaryHeap String Int prec R

instance : Queue (SessionDary prec R) Int where
  size := DaryHeap.size
  readPriority _ := signedPriority?
  showPriority := id
  push h e shared :=
    let r := h.push e
    { result := .ok .unit, heap := r.1, shared, swaps := r.2 }
  pop h shared :=
    match h.pop with
    | .ok (e, h', sw) => { result := .ok e, heap := h', shared, swaps := sw }
    | .error err => { result := .error err, heap := h, shared }
  peek := DaryHeap.peek
  clear h shared := (h.clear, shared)
  drain h shared :=
    let r := h.drain
    (r.1, shared, r.2)
  snapshot h shared := (h.copy.drain.1, shared)
  copy h shared := (h.copy, shared)
  hearers h := Registry.listeners h.listeners

def settle {α : Type} (s : Session (SessionDary prec R)) (n : Nat) (h : SessionDary prec R)
    (r : Except HeapError (α × SessionDary prec R × Swaps)) (f : α → Reply) :
    Ran (SessionDary prec R) :=
  match r with
  | .ok (a, h', sw) => (.ok (f a), s.put n (some h'), heard h sw)
  | .error e => (.failed e, s, [])

def daryHandler (arity : Nat) : String → Option (Handler (SessionDary prec R))
  | "get" => some fun op s => do
    let (_, h) ← s.target op
    let i ← naturalField op "i"
    pure (outcomeOf (h.get i) (entryReply (H := SessionDary prec R)), s, [])
  | "update" => some fun op s => do
    let (n, h) ← s.target op
    let i ← naturalField op "i"
    let v ← textField op "v"
    let p ← priorityField signedPriority? op "p"
    pure (settle s n h ((h.update i ⟨v, p⟩).map fun r => ((), r)) fun _ => .unit)
  | "remove" => some fun op s => do
    let (n, h) ← s.target op
    let i ← naturalField op "i"
    pure (settle s n h (h.removeAt i) (entryReply (H := SessionDary prec R)))
  | "push_pop" => some fun op s => do
    let v ← textField op "v"
    let p ← priorityField signedPriority? op "p"
    let (n, h) ← s.target op
    pure (settle s n h (.ok (h.pushPop ⟨v, p⟩)) (entryReply (H := SessionDary prec R)))
  | "pop_push" => some fun op s => do
    let v ← textField op "v"
    let p ← priorityField signedPriority? op "p"
    let (n, h) ← s.target op
    pure (settle s n h (h.popPush ⟨v, p⟩) (entryReply (H := SessionDary prec R)))
  | "arity" => some fun op s => do
    let (_, h) ← s.target op
    pure (.ok (.count h.arity), s, [])
  | "iter" => some fun op s => do
    let (_, h) ← s.target op
    pure (.ok (entriesReply (H := SessionDary prec R) h.toList), s, [])
  | "register" => some fun op s => do
    let (n, h) ← s.target op
    let cb := s.handles.size
    let (k, h') := h.register cb
    pure (.ok (.count cb), { s.put n (some h') with handles := s.handles.push k }, [])
  | "deregister" => some fun op s => do
    let (n, h) ← s.target op
    let cb ← naturalField op "cb"
    match s.handles[cb]? with
    | none => throw ("callback " ++ toString cb ++ " was never registered")
    | some k =>
      match h.deregister k with
      | .ok h' => pure (.ok .unit, s.put n (some h'), [])
      | .error e => pure (.failed e, s, [])
  | "from_entries" => some fun op s => do
    let es ← readEntries (← need op "entries")
    let (m, s) := s.add (DaryHeap.ofList arity es)
    pure (.ok (.count m), s, [])
  | _ => none

def runDary (arity : Nat) (r : Ranking) (init : Option (List (Entry String Int)))
    (ops : List Json) : List Step :=
  let first : SessionDary r.precedes (Listeners Nat) := match init with
    | some es => DaryHeap.ofList arity es
    | none => DaryHeap.new arity
  Session.run (firstHandler [commonHandler (DaryHeap.new arity), daryHandler arity])
    DaryHeap.size (Session.start first) ops

end PriorityQueues.Script
