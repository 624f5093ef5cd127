import PriorityQueues.Radix
import PriorityQueues.Script.Setup
import PriorityQueues.Script.Session

/-!
Radix heaps in sessions: priorities of the session's key width, `rebalance` and `baseline`.
-/

namespace PriorityQueues.Script

instance : Queue (RadixHeap String) Nat where
  size := RadixHeap.size
  readPriority h j := j.unsigned? h.bits
  showPriority n := n
  push h e shared :=
    match h.push e with
    | .ok h' => { result := .ok .unit, heap := h', shared }
    | .error err => { result := .error err, heap := h, shared }
  pop h shared :=
    match h.pop with
    | .ok (e, h') => { result := .ok e, heap := h', shared }
    | .error err => { result := .error err, heap := h, shared }
  peek := RadixHeap.peek
  clear h shared := (h.clear, shared)
  drain h shared := (h.drain, shared, [])
  snapshot h shared := (h.drain, shared)
  copy h shared := (h, shared)
  hearers _ := []

instance : MeldQueue (RadixHeap String) where
  merge h o := .ok (h.merge o)
  checkMerge _ _ := .ok ()
  take := RadixHeap.take

def radixHandler : String → Option (Handler (RadixHeap String))
  | "rebalance" => some fun op s => do
    let (n, h) ← s.target op
    match h.rebalance with
    | .ok h' => pure (.ok .unit, s.put n (some h'), [])
    | .error e => pure (.failed e, s, [])
  | "baseline" => some fun op s => do
    let (_, h) ← s.target op
    pure (.ok (.count h.baseline), s, [])
  | _ => none

def runRadix (bits : Nat) (ops : List Json) : List Step :=
  let fresh : RadixHeap String := RadixHeap.new bits
  Session.run (firstHandler [commonHandler fresh, meldHandler, radixHandler])
    RadixHeap.size (Session.start fresh) ops

end PriorityQueues.Script
