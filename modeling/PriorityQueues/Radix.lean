import PriorityQueues.Entry
import PriorityQueues.Error

/-!
Radix heaps: monotone queues of entries with priorities below `2 ^ bits`. Bucket 0 holds the
baseline's priority and bucket `i > 0` the priorities that first differ from it in bit `i - 1`;
an empty bucket 0 is refilled by redistributing the first non-empty bucket.
-/

namespace PriorityQueues

/-- A radix heap of values `V` over priorities of `bits` bits, with the count of its entries. -/
structure RadixHeap (V : Type) where
  bits : Nat
  baseline : Nat
  buckets : Array (List (Entry V Nat))
  len : Nat
  deriving Repr

/-- The bucket of a priority against a baseline: 0 if they are equal, and otherwise one more than
the position of the highest bit in which they differ. -/
def bucketOf (baseline p : Nat) : Nat :=
  if p = baseline then 0 else Nat.log2 (p ^^^ baseline) + 1

namespace RadixHeap

variable {V : Type}

/-- An empty heap with baseline 0. -/
def new (bits : Nat) : RadixHeap V := ⟨bits, 0, Array.replicate (bits + 1) [], 0⟩

/-- An empty heap of the same width and baseline. -/
def emptyLike (h : RadixHeap V) : RadixHeap V :=
  { h with buckets := Array.replicate (h.bits + 1) [], len := 0 }

/-- How many entries the heap holds: its count. -/
def size (h : RadixHeap V) : Nat := h.len

/-- Files an entry at the back of its bucket. -/
def file (h : RadixHeap V) (e : Entry V Nat) : RadixHeap V :=
  { h with buckets := h.buckets.modify (bucketOf h.baseline e.priority) (· ++ [e]) }

/-- Files an entry and counts it. -/
def insert (h : RadixHeap V) (e : Entry V Nat) : RadixHeap V := { h.file e with len := h.len + 1 }

/-- Adds an entry; a priority below the baseline is refused. -/
def push (h : RadixHeap V) (e : Entry V Nat) : Except HeapError (RadixHeap V) :=
  if e.priority < h.baseline then .error .belowBaseline else .ok (h.insert e)

/-- The first non-empty bucket above bucket 0, with its entries. -/
def firstFilled (h : RadixHeap V) : Option (Nat × List (Entry V Nat)) :=
  ((List.range h.bits).map (· + 1)).findSome? fun i =>
    match h.buckets[i]? with
    | some (e :: es) => some (i, e :: es)
    | _ => none

/-- The least priority among a first entry and the rest. -/
def leastPriority (e : Entry V Nat) (es : List (Entry V Nat)) : Nat :=
  es.foldl (fun m x => min m x.priority) e.priority

/-- The first entry of least priority among a first entry and the rest. -/
def firstLeast (e : Entry V Nat) (es : List (Entry V Nat)) : Entry V Nat :=
  es.foldl (fun b x => if x.priority < b.priority then x else b) e

/-- Redistributes the first non-empty bucket when bucket 0 is empty: the baseline moves to the
bucket's least priority and its entries are filed again in order; the count stays. -/
def rebalance (h : RadixHeap V) : Except HeapError (RadixHeap V) :=
  if h.size = 0 then .error .empty
  else if !(h.buckets[0]?.getD []).isEmpty then .error .rebalanceNotNeeded
  else
    match h.firstFilled with
    | some (i, e :: es) =>
      let cleared : RadixHeap V :=
        { h with buckets := h.buckets.setIfInBounds i [], baseline := leastPriority e es }
      .ok ((e :: es).foldl file cleared)
    | _ => .error .empty

/-- Removes the front entry of bucket 0, redistributing first if bucket 0 is empty. -/
def pop (h : RadixHeap V) : Except HeapError (Entry V Nat × RadixHeap V) := do
  let h ← if (h.buckets[0]?.getD []).isEmpty then h.rebalance else pure h
  match h.buckets[0]? with
  | some (e :: es) =>
    pure (e, { h with buckets := h.buckets.setIfInBounds 0 es, len := h.len - 1 })
  | _ => throw .empty

/-- The entry the next pop returns, found without redistributing: the front of bucket 0, or else
the first entry of least priority in the first non-empty bucket. -/
def peek (h : RadixHeap V) : Except HeapError (Entry V Nat) :=
  match h.buckets[0]? with
  | some (e :: _) => .ok e
  | _ =>
    match h.firstFilled with
    | some (_, e :: es) => .ok (firstLeast e es)
    | _ => .error .empty

/-- Removes every entry; the baseline stays. -/
def clear (h : RadixHeap V) : RadixHeap V := h.emptyLike

/-- All entries, bucket by bucket, each bucket front to back. -/
def toList (h : RadixHeap V) : List (Entry V Nat) := h.buckets.toList.flatten

/-- Moves all entries of `other` into one heap. -/
def merge (h other : RadixHeap V) : RadixHeap V :=
  if other.baseline < h.baseline then h.toList.foldl insert other
  else other.toList.foldl insert h

/-- Moves everything out: the second component has the contents, and an empty heap with the same
baseline is left behind in the first. -/
def take (h : RadixHeap V) : RadixHeap V × RadixHeap V := (h.emptyLike, h)

/-- Pops up to `n` entries, in the order they leave. -/
def popMany : Nat → RadixHeap V → List (Entry V Nat)
  | 0, _ => []
  | n + 1, h =>
    match h.pop with
    | .ok (e, h') => e :: popMany n h'
    | .error _ => []

/-- All entries in the order successive pops return them. -/
def drain (h : RadixHeap V) : List (Entry V Nat) := popMany h.size h

end RadixHeap

end PriorityQueues
