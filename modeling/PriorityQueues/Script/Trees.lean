import PriorityQueues.Order
import PriorityQueues.Tree.Meldable
import PriorityQueues.Tree.Pairing
import PriorityQueues.Tree.Skew
import PriorityQueues.Tree.Leftist
import PriorityQueues.Tree.Heap
import PriorityQueues.Tracked.Heap
import PriorityQueues.Script.Setup
import PriorityQueues.Script.Session

/-!
Tree heaps and tracked tree heaps in sessions; tracked heaps are also read, changed and removed by
id.
-/

namespace PriorityQueues.Script

section Trees

variable {T : Type → Type} [Meldable T] {prec : Int → Int → Bool}

instance : Queue (TreeHeap T String Int prec) Int where
  size := TreeHeap.size
  readPriority _ := signedPriority?
  showPriority := id
  push h e shared :=
    let r := h.push e shared
    { result := .ok .unit, heap := r.1, shared := r.2 }
  pop h shared :=
    match h.pop shared with
    | (.ok (e, h'), shared') => { result := .ok e, heap := h', shared := shared' }
    | (.error err, shared') => { result := .error err, heap := h, shared := shared' }
  peek := TreeHeap.peek
  clear := TreeHeap.clear
  drain h shared :=
    let r := h.drain shared
    (r.1, r.2, [])
  snapshot := TreeHeap.snapshot
  copy := TreeHeap.copy
  hearers _ := []

instance : MeldQueue (TreeHeap T String Int prec) where
  merge h o := .ok (h.merge o)
  checkMerge _ _ := .ok ()
  take := TreeHeap.take

instance : PooledQueue (TreeHeap T String Int prec) where
  verify := TreeHeap.verify
  idle := TreeHeap.idle

instance : Queue (TrackedHeap T String Int prec) Int where
  size := TrackedHeap.size
  readPriority _ := signedPriority?
  showPriority := id
  push h e shared :=
    match h.push e shared with
    | (.ok (k, _), h', shared') => { result := .ok (.count k.toNat), heap := h', shared := shared' }
    | (.error err, h', shared') => { result := .error err, heap := h', shared := shared' }
  pop h shared :=
    match h.pop shared with
    | (.ok (e, h'), shared') => { result := .ok e, heap := h', shared := shared' }
    | (.error err, shared') => { result := .error err, heap := h, shared := shared' }
  peek := TrackedHeap.peek
  clear := TrackedHeap.clear
  drain h shared :=
    let r := h.drain shared
    (r.1, r.2, [])
  snapshot := TrackedHeap.snapshot
  copy := TrackedHeap.copy
  hearers _ := []

instance : MeldQueue (TrackedHeap T String Int prec) where
  merge := TrackedHeap.merge
  checkMerge := TrackedHeap.checkMerge
  take := TrackedHeap.take

instance : PooledQueue (TrackedHeap T String Int prec) where
  verify := TrackedHeap.verify
  idle := TrackedHeap.idle

def settleTracked (s : Session (TrackedHeap T String Int prec)) (n : Nat)
    (r : Except HeapError (TrackedHeap T String Int prec)) : Ran (TrackedHeap T String Int prec) :=
  match r with
  | .ok h' => (.ok .unit, s.put n (some h'), [])
  | .error e => (.failed e, s, [])

def trackedHandler : String → Option (Handler (TrackedHeap T String Int prec))
  | "get" => some fun op s => do
    let (_, h) ← s.target op
    let k ← naturalField op "id"
    pure (outcomeOf (h.get k.toUInt64) (entryReply (H := TrackedHeap T String Int prec)), s, [])
  | "get_value" => some fun op s => do
    let k ← naturalField op "id"
    let (_, h) ← s.target op
    pure (outcomeOf (h.get k.toUInt64) fun e => .text e.value, s, [])
  | "get_priority" => some fun op s => do
    let k ← naturalField op "id"
    let (_, h) ← s.target op
    pure (outcomeOf (h.get k.toUInt64) fun e => .number e.priority, s, [])
  | "contains" => some fun op s => do
    let (_, h) ← s.target op
    let k ← naturalField op "id"
    pure (.ok (.flag (h.contains k.toUInt64)), s, [])
  | "update_value" => some fun op s => do
    let (n, h) ← s.target op
    let k ← naturalField op "id"
    let v ← textField op "v"
    pure (settleTracked s n (h.updateValue k.toUInt64 v))
  | "update_priority" => some fun op s => do
    let (n, h) ← s.target op
    let k ← naturalField op "id"
    let p ← priorityField signedPriority? op "p"
    pure (settleTracked s n (h.updatePriority k.toUInt64 p))
  | "update" => some fun op s => do
    let (n, h) ← s.target op
    let k ← naturalField op "id"
    let v ← textField op "v"
    let p ← priorityField signedPriority? op "p"
    pure (settleTracked s n (h.update k.toUInt64 v p))
  | "remove" => some fun op s => do
    let (n, h) ← s.target op
    let k ← naturalField op "id"
    match h.remove k.toUInt64 s.shared with
    | (.ok (e, h'), shared) =>
      pure (.ok (.entry e.value e.priority), { s.put n (some h') with shared }, [])
    | (.error e, shared) => pure (.failed e, { s with shared }, [])
  | "ids" => some fun op s => do
    let (_, h) ← s.target op
    pure (.ok (.numbers (h.liveIds.map UInt64.toNat)), s, [])
  | "reset_ids" => some fun op s => do
    let (n, h) ← s.target op
    pure (.ok .unit, s.put n (some h.resetIds), [])
  | _ => none

end Trees

def runTree (T : Type → Type) [Meldable T] (r : Ranking) (pool : ShellPool) (ops : List Json) :
    List Step :=
  let fresh : TreeHeap T String Int r.precedes := TreeHeap.new pool
  Session.run (firstHandler [commonHandler fresh, meldHandler, pooledHandler])
    TreeHeap.size (Session.start fresh) ops

def runTracked (T : Type → Type) [Meldable T] (r : Ranking) (pool : ShellPool) (start : UInt64)
    (ops : List Json) : List Step :=
  let fresh : TrackedHeap T String Int r.precedes := TrackedHeap.new (.startingAt start) pool
  Session.run (firstHandler [commonHandler fresh, meldHandler, pooledHandler, trackedHandler])
    TrackedHeap.size (Session.start fresh) ops

end PriorityQueues.Script
