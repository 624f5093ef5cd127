import PriorityQueues.Entry
import PriorityQueues.Error
import PriorityQueues.Pool
import PriorityQueues.Tree.Meldable
import PriorityQueues.Tracked.Ids

/-!
Tracked heaps: every entry carries the id it was pushed under. A push draws the counter's next id
and is refused when it is live; a merge needs disjoint ids and moves the counter past each
absorbed id, in an order given as a parameter (`mergeObserving`).
-/

namespace PriorityQueues

/-- An entry with its id. -/
structure Tagged (V P : Type) where
  id : UInt64
  entry : Entry V P
  deriving DecidableEq, Repr

namespace Tagged

variable {V P : Type}

/-- Compares tagged entries by the priorities of their entries. -/
@[inline] def before (prec : P → P → Bool) (a b : Tagged V P) : Bool :=
  prec a.entry.priority b.entry.priority

/-- Whether the entry carries the id. -/
@[inline] def hasId (k : UInt64) (a : Tagged V P) : Bool := a.id == k

end Tagged

/-- A heap of entries named by ids, kept in a tree of shape `T` ordered by `prec`. -/
structure TrackedHeap (T : Type → Type) (V P : Type) (prec : P → P → Bool) where
  tree : T (Tagged V P)
  ids : IdSequence
  pool : ShellPool

namespace TrackedHeap

variable {T : Type → Type} [Meldable T] {V P : Type} {prec : P → P → Bool}

/-- An empty heap with the given counter and pool. -/
def new (ids : IdSequence) (pool : ShellPool) : TrackedHeap T V P prec :=
  ⟨Meldable.empty, ids, pool⟩

/-- How many entries the heap holds. -/
def size (h : TrackedHeap T V P prec) : Nat := Meldable.size h.tree

/-- The live ids in increasing order. -/
def liveIds (h : TrackedHeap T V P prec) : List UInt64 :=
  ((Meldable.toList h.tree).map Tagged.id).mergeSort (fun a b => a ≤ b)

/-- Whether an id is live. -/
def contains (h : TrackedHeap T V P prec) (k : UInt64) : Bool :=
  (Meldable.find? (Tagged.hasId k) h.tree).isSome

/-- Adds an entry under the next id of the counter. -/
def push (h : TrackedHeap T V P prec) (e : Entry V P) (shared : Nat) :
    Except HeapError (UInt64 × TrackedHeap T V P prec) × TrackedHeap T V P prec × Nat :=
  let (k, ids) := h.ids.issue
  if h.contains k then (.error .idCollision, { h with ids }, shared)
  else
    let r := h.pool.draw 1 shared
    let h' : TrackedHeap T V P prec :=
      ⟨Meldable.insert (Tagged.before prec) ⟨k, e⟩ h.tree, ids, r.1⟩
    (.ok (k, h'), h', r.2)

/-- The entry that leaves next. -/
def peek (h : TrackedHeap T V P prec) : Except HeapError (Entry V P) :=
  match Meldable.top? h.tree with
  | some a => .ok a.entry
  | none => .error .empty

/-- Removes the entry at the top; its id is no longer live. -/
def pop (h : TrackedHeap T V P prec) (shared : Nat) :
    Except HeapError (Entry V P × TrackedHeap T V P prec) × Nat :=
  match Meldable.popTop (Tagged.before prec) h.tree with
  | some (a, t) =>
    let r := h.pool.retire 1 shared
    (.ok (a.entry, { h with tree := t, pool := r.1 }), r.2)
  | none => (.error .empty, shared)

/-- The entry under an id. -/
def get (h : TrackedHeap T V P prec) (k : UInt64) : Except HeapError (Entry V P) :=
  match Meldable.find? (Tagged.hasId k) h.tree with
  | some a => .ok a.entry
  | none => .error .nodeNotFound

/-- Replaces the value of the entry under an id; its place does not change. -/
def updateValue (h : TrackedHeap T V P prec) (k : UInt64) (v : V) :
    Except HeapError (TrackedHeap T V P prec) :=
  if h.contains k then
    let t := Meldable.modify (Tagged.hasId k)
      (fun a => { a with entry := { a.entry with value := v } }) h.tree
    .ok { h with tree := t }
  else .error .nodeNotFound

/-- Replaces the priority of the entry under an id and moves it as the engine does. -/
def updatePriority (h : TrackedHeap T V P prec) (k : UInt64) (p : P) :
    Except HeapError (TrackedHeap T V P prec) :=
  if h.contains k then
    let t := Meldable.reprioritize (Tagged.before prec) (Tagged.hasId k)
      (fun a => { a with entry := a.entry.withPriority p }) h.tree
    .ok { h with tree := t }
  else .error .nodeNotFound

/-- Replaces the value and then the priority of the entry under an id. -/
def update (h : TrackedHeap T V P prec) (k : UInt64) (v : V) (p : P) :
    Except HeapError (TrackedHeap T V P prec) := do
  let h ← h.updateValue k v
  h.updatePriority k p

/-- Removes the entry under an id and returns its shell to the pool. -/
def remove (h : TrackedHeap T V P prec) (k : UInt64) (shared : Nat) :
    Except HeapError (Entry V P × TrackedHeap T V P prec) × Nat :=
  match Meldable.extract (Tagged.before prec) (Tagged.hasId k) h.tree with
  | some (a, t) =>
    let r := h.pool.retire 1 shared
    (.ok (a.entry, { h with tree := t, pool := r.1 }), r.2)
  | none => (.error .nodeNotFound, shared)

/-- Sends the counter back to 0. -/
def resetIds (h : TrackedHeap T V P prec) : TrackedHeap T V P prec :=
  { h with ids := h.ids.reset }

/-- Removes every entry; all shells go to the pool and no id is live. -/
def clear (h : TrackedHeap T V P prec) (shared : Nat) : TrackedHeap T V P prec × Nat :=
  let r := h.pool.retire h.size shared
  ({ h with tree := Meldable.empty, pool := r.1 }, r.2)

/-- Pops up to `n` entries, in the order they leave. -/
def popMany : Nat → TrackedHeap T V P prec → Nat →
    List (Entry V P) × TrackedHeap T V P prec × Nat
  | 0, h, shared => ([], h, shared)
  | n + 1, h, shared =>
    match h.pop shared with
    | (.ok (e, h'), shared') =>
      let r := popMany n h' shared'
      (e :: r.1, r.2)
    | (.error _, shared') => ([], h, shared')

/-- All entries in the order successive pops return them; the heap is used up. -/
def drain (h : TrackedHeap T V P prec) (shared : Nat) : List (Entry V P) × Nat :=
  let r := popMany h.size h shared
  (r.1, r.2.2)

/-- A copy with the same ids and counter, and a forked pool from which it takes a shell for each
entry. -/
def copy (h : TrackedHeap T V P prec) (shared : Nat) : TrackedHeap T V P prec × Nat :=
  let r := h.pool.fork.draw h.size shared
  ({ h with pool := r.1 }, r.2)

/-- The entries in pop order, read from a copy that is then used up. -/
def snapshot (h : TrackedHeap T V P prec) (shared : Nat) : List (Entry V P) × Nat :=
  let c := h.copy shared
  c.1.drain c.2

/-- Fails when the two heaps have a live id in common. -/
def checkMerge (h other : TrackedHeap T V P prec) : Except HeapError Unit :=
  if other.liveIds.any h.contains then .error .idCollision else .ok ()

/-- Moves all entries of `other` into `h` when no id is live in both. -/
def mergeObserving (keys : List UInt64) (h other : TrackedHeap T V P prec) :
    Except HeapError (TrackedHeap T V P prec) := do
  h.checkMerge other
  let ids := keys.foldl IdSequence.observe h.ids
  pure ⟨Meldable.meld (Tagged.before prec) h.tree other.tree, ids, h.pool⟩

/-- Merges, observing the absorbed ids in increasing order. -/
def merge (h other : TrackedHeap T V P prec) : Except HeapError (TrackedHeap T V P prec) :=
  h.mergeObserving other.liveIds other

/-- Moves everything out: the second component has the contents, counter and pool; the first is an
empty heap with the same counter and a forked pool. -/
def take (h : TrackedHeap T V P prec) : TrackedHeap T V P prec × TrackedHeap T V P prec :=
  (⟨Meldable.empty, h.ids, h.pool.fork⟩, h)

/-- Whether the tree meets its shape rules. -/
def verify (h : TrackedHeap T V P prec) : Bool := Meldable.verify (Tagged.before prec) h.tree

/-- The number of idle shells in the heap's pool. -/
def idle (h : TrackedHeap T V P prec) (shared : Nat) : Nat := h.pool.idle shared

end TrackedHeap

end PriorityQueues
