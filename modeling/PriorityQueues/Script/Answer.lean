import PriorityQueues.Error
import PriorityQueues.Script.Json
import PriorityQueues.Script.Json.Read
import PriorityQueues.Script.Json.Write
import PriorityQueues.Script.Setup
import PriorityQueues.Script.Session
import PriorityQueues.Script.Dary
import PriorityQueues.Script.Trees
import PriorityQueues.Script.Radix

/-!
Answers to scripts: one line of JSON with a step per operation, or a `BadInput` error.
-/

namespace PriorityQueues.Script

def HeapError.kindName : HeapError → String
  | .empty => "HeapEmpty"
  | .indexOutOfBounds _ _ => "IndexOutOfBounds"
  | .nodeNotFound => "NodeNotFound"
  | .listenerNotFound => "CallbackNotFound"
  | .belowBaseline => "PriorityBelowBaseline"
  | .rebalanceNotNeeded => "RebalanceNotNeeded"
  | .idCollision => "IdGenerationCollision"

def natJson (n : Nat) : Json := .num (toString n)

def Reply.toJson : Reply → Json
  | .unit => .null
  | .count n => natJson n
  | .flag b => .bool b
  | .text s => .str s
  | .number n => Json.ofInt n
  | .entry v p => .arr [.str v, Json.ofInt p]
  | .entries es => .arr (es.map fun e => .arr [.str e.1, Json.ofInt e.2])
  | .numbers ns => .arr (ns.map natJson)

def badInput (why : String) : List (String × Json) :=
  [("error", .str "BadInput"), ("message", .str why)]

def Step.toJson (st : Step) : Json :=
  let head := match st.outcome with
    | .ok r => [("ok", r.toJson)]
    | .failed e => [("error", .str (HeapError.kindName e)), ("message", .str e.message)]
    | .refused why => badInput why
  let lens := Json.arr (st.lens.map fun l => match l with
    | some n => natJson n
    | none => .null)
  let swaps := if st.swaps.isEmpty then [] else
    [("swaps", .arr (st.swaps.map fun w =>
      .arr [natJson w.1, .arr (w.2.map fun ij => .arr [natJson ij.1, natJson ij.2])]))]
  .obj (head ++ [("lens", lens)] ++ swaps)

def runSetup (setup : Setup) (ops : List Json) : List Step :=
  match setup with
  | .dary arity r init => runDary arity r init ops
  | .tree .pairing r pool => runTree PairingHeap r pool ops
  | .tree .skew r pool => runTree SkewHeap r pool ops
  | .tree .leftist r pool => runTree LeftistHeap r pool ops
  | .tracked .pairing r pool start => runTracked PairingHeap r pool start ops
  | .tracked .skew r pool start => runTracked SkewHeap r pool start ops
  | .tracked .leftist r pool start => runTracked LeftistHeap r pool start ops
  | .radix bits => runRadix bits ops

def answerJson (line : String) : Json :=
  match Json.parse line with
  | none => .obj (badInput "invalid JSON")
  | some j =>
    match Setup.read j with
    | .error why => .obj (badInput why)
    | .ok (setup, ops) => .obj [("results", .arr ((runSetup setup ops).map Step.toJson))]

def answer (line : String) : String := (answerJson line).render

end PriorityQueues.Script
