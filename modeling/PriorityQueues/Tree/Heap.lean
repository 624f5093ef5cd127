import PriorityQueues.Entry
import PriorityQueues.Error
import PriorityQueues.Pool
import PriorityQueues.Tree.Meldable

/-!
Tree heaps: a meldable tree of entries with the pool its node shells come from.
-/

namespace PriorityQueues

/-- A heap of entries kept in a tree of shape `T`, ordered by `prec`. -/
structure TreeHeap (T : Type → Type) (V P : Type) (prec : P → P → Bool) where
  tree : T (Entry V P)
  pool : ShellPool

namespace TreeHeap

variable {T : Type → Type} [Meldable T] {V P : Type} {prec : P → P → Bool}

/-- An empty heap using the given pool. -/
def new (pool : ShellPool) : TreeHeap T V P prec := ⟨Meldable.empty, pool⟩

/-- How many entries the heap holds. -/
def size (h : TreeHeap T V P prec) : Nat := Meldable.size h.tree

/-- Adds an entry in a shell from the pool. -/
def push (h : TreeHeap T V P prec) (e : Entry V P) (shared : Nat) : TreeHeap T V P prec × Nat :=
  let r := h.pool.draw 1 shared
  (⟨Meldable.insert (Entry.before prec) e h.tree, r.1⟩, r.2)

/-- The entry that leaves next. -/
def peek (h : TreeHeap T V P prec) : Except HeapError (Entry V P) :=
  match Meldable.top? h.tree with
  | some e => .ok e
  | none => .error .empty

/-- Removes the entry at the top and returns its shell to the pool. -/
def pop (h : TreeHeap T V P prec) (shared : Nat) :
    Except HeapError (Entry V P × TreeHeap T V P prec) × Nat :=
  match Meldable.popTop (Entry.before prec) h.tree with
  | some (e, t) =>
    let r := h.pool.retire 1 shared
    (.ok (e, ⟨t, r.1⟩), r.2)
  | none => (.error .empty, shared)

/-- Removes every entry; all shells go to the pool. -/
def clear (h : TreeHeap T V P prec) (shared : Nat) : TreeHeap T V P prec × Nat :=
  let r := h.pool.retire h.size shared
  (⟨Meldable.empty, r.1⟩, r.2)

/-- Pops up to `n` entries, in the order they leave. -/
def popMany : Nat → TreeHeap T V P prec → Nat → List (Entry V P) × TreeHeap T V P prec × Nat
  | 0, h, shared => ([], h, shared)
  | n + 1, h, shared =>
    match h.pop shared with
    | (.ok (e, h'), shared') =>
      let r := popMany n h' shared'
      (e :: r.1, r.2)
    | (.error _, shared') => ([], h, shared')

/-- All entries in the order successive pops return them; the heap is used up. -/
def drain (h : TreeHeap T V P prec) (shared : Nat) : List (Entry V P) × Nat :=
  let r := popMany h.size h shared
  (r.1, r.2.2)

/-- A copy of the heap, with a forked pool from which it takes a shell for each entry. -/
def copy (h : TreeHeap T V P prec) (shared : Nat) : TreeHeap T V P prec × Nat :=
  let r := h.pool.fork.draw h.size shared
  (⟨h.tree, r.1⟩, r.2)

/-- The entries in pop order, read from a copy that is then used up. -/
def snapshot (h : TreeHeap T V P prec) (shared : Nat) : List (Entry V P) × Nat :=
  let c := h.copy shared
  c.1.drain c.2

/-- Moves all entries of `other` into `h`; the nodes keep their shells and `other`'s pool is
dropped. -/
def merge (h other : TreeHeap T V P prec) : TreeHeap T V P prec :=
  ⟨Meldable.meld (Entry.before prec) h.tree other.tree, h.pool⟩

/-- Moves everything out: the heap keeps its contents and pool in the second component, and an
empty heap with a forked pool is left behind in the first. -/
def take (h : TreeHeap T V P prec) : TreeHeap T V P prec × TreeHeap T V P prec :=
  (⟨Meldable.empty, h.pool.fork⟩, h)

/-- Whether the tree meets its shape rules. -/
def verify (h : TreeHeap T V P prec) : Bool := Meldable.verify (Entry.before prec) h.tree

/-- The number of idle shells in the heap's pool. -/
def idle (h : TreeHeap T V P prec) (shared : Nat) : Nat := h.pool.idle shared

end TreeHeap

end PriorityQueues
