import PriorityQueues.Arena

/-!
Leftist heaps in an arena: each node links to its two children and its parent and stores its
null-path rank. The meld recurses down the right spines and restores the rank of each node on its
way back; after a node is taken out, the ranks above it are restored while they change. Both give
up after as many steps as slots, and an operation on a reference that names no node answers
`none`.
-/

namespace PriorityQueues

/-- A leftist heap node: its element, its children, its parent and its null-path rank. -/
structure LeftistNode (α : Type) where
  item : α
  left : Link
  right : Link
  parent : Link
  rank : Nat
  deriving DecidableEq, Repr

instance {α : Type} : Relink (LeftistNode α) where
  relink f n := { n with left := n.left.map f, right := n.right.map f, parent := n.parent.map f }

/-- A leftist heap in an arena: its nodes and its root. -/
structure LeftistArenaHeap (α : Type) where
  arena : Arena (LeftistNode α)
  root : Link

namespace LeftistArena

variable {α : Type}

/-- Whether the element at `a` strictly precedes the element at `b`. -/
def precedes (prec : α → α → Bool) (st : Arena (LeftistNode α)) (a b : NodeRef) : Bool :=
  match st.get a, st.get b with
  | some x, some y => prec x.item y.item
  | _, _ => false

/-- The stored rank of the node a link names, and 0 for no node. -/
def rankOf (st : Arena (LeftistNode α)) : Link → Nat
  | some r => ((st.get r).map LeftistNode.rank).getD 0
  | none => 0

/-- Puts the child of smaller rank on the right of `node` and makes its rank one more than the
right child's; tells whether the rank changed. -/
def restoreRank (st : Arena (LeftistNode α)) (node : NodeRef) : Arena (LeftistNode α) × Bool :=
  match st.get node with
  | none => (st, false)
  | some n =>
    if rankOf st n.left < rankOf st n.right then
      (st.modify node fun m => { m with left := n.right, right := n.left, rank := rankOf st n.left + 1 },
        n.rank != rankOf st n.left + 1)
    else (st.modify node fun m => { m with rank := rankOf st n.right + 1 }, n.rank != rankOf st n.right + 1)

/-- Makes `child` the right child of `parent`, pointing back to it. -/
def attachRight (st : Arena (LeftistNode α)) (parent : NodeRef) (child : Link) :
    Arena (LeftistNode α) :=
  let st₁ := st.modify parent fun m => { m with right := child }
  match child with
  | some c => st₁.modify c fun m => { m with parent := some parent }
  | none => st₁

/-- Melds two trees down their right spines: the root that wins keeps its left subtree, takes the
meld of its right subtree with the other tree as its right child, and has its rank restored. The
second tree wins only if its root's element strictly precedes the first's. -/
def meldSpines (prec : α → α → Bool) :
    Nat → Arena (LeftistNode α) → Link → Link → Option (Arena (LeftistNode α) × Link)
  | _, st, none, b => some (st, b)
  | _, st, some a, none => some (st, some a)
  | 0, _, some _, some _ => none
  | fuel + 1, st, some a, some b =>
    let root := if precedes prec st b a then b else a
    let other := if precedes prec st b a then a else b
    match st.get root with
    | none => none
    | some n =>
      (meldSpines prec fuel st n.right (some other)).map fun m =>
        ((restoreRank (attachRight m.1 root m.2) root).1, some root)

/-- Clears the parent link of the node at `l`, if there is one. -/
def orphan (st : Arena (LeftistNode α)) : Link → Arena (LeftistNode α)
  | some r => st.modify r fun n => { n with parent := none }
  | none => st

/-- Melds two trees and returns the root, which is left without a parent. -/
def meld (prec : α → α → Bool) (st : Arena (LeftistNode α)) (a b : Link) :
    Option (Arena (LeftistNode α) × Link) :=
  (meldSpines prec st.slotCount st a b).map fun m => (orphan m.1 m.2, m.2)

/-- Puts `replacement` in the child slot of `parent` that held `node`, and points it back to
`parent`. -/
def replaceChild (st : Arena (LeftistNode α)) (parent node : NodeRef) (replacement : Link) :
    Arena (LeftistNode α) :=
  let st₁ := st.modify parent fun m =>
    if m.left = some node then { m with left := replacement } else { m with right := replacement }
  match replacement with
  | some c => st₁.modify c fun m => { m with parent := some parent }
  | none => st₁

/-- Restores ranks from `node` towards the root, stopping after the first node whose rank does
not change. -/
def restoreUp : Nat → Arena (LeftistNode α) → Link → Option (Arena (LeftistNode α))
  | _, st, none => some st
  | 0, _, some _ => none
  | fuel + 1, st, some node =>
    if (restoreRank st node).2 then
      restoreUp fuel (restoreRank st node).1
        (((restoreRank st node).1.get node).bind LeftistNode.parent)
    else some (restoreRank st node).1

/-- The children of `node`, left first, if the left one's rank is at least the right one's, the
node's rank is one more than the right one's, and each child points back to it and does not
strictly precede it. -/
def checkChildren (prec : α → α → Bool) (st : Arena (LeftistNode α)) (node : NodeRef) :
    Option (List NodeRef) :=
  match st.get node with
  | none => none
  | some n =>
    if rankOf st n.left < rankOf st n.right || n.rank != rankOf st n.right + 1 then none
    else
      let cs := [n.left, n.right].filterMap id
      if cs.all fun c => (st.get c).any fun m => m.parent == some node && !prec m.item n.item then
        some cs
      else none

end LeftistArena

namespace LeftistArenaHeap

open LeftistArena

variable {α : Type}

/-- An empty heap that draws shells from `pool`. -/
def new (pool : ShellPool) : LeftistArenaHeap α := ⟨Arena.new pool, none⟩

/-- Adds an element in a new node of rank 1 and returns the node. -/
def push (prec : α → α → Bool) (h : LeftistArenaHeap α) (x : α) (shared : Nat) :
    Option (LeftistArenaHeap α × NodeRef × Nat) :=
  let a := h.arena.alloc ⟨x, none, none, none, 1⟩ shared
  (meld prec a.1 h.root (some a.2.1)).map fun m => (⟨m.1, m.2⟩, a.2.1, a.2.2)

/-- Takes a node out of the tree, leaving it without links and of rank 1: the meld of its
children takes its place, under its parent or at the root, and the ranks above are restored. -/
def detach (prec : α → α → Bool) (h : LeftistArenaHeap α) (r : NodeRef) :
    Option (LeftistArenaHeap α) :=
  (h.arena.get r).bind fun n =>
    let cut := h.arena.modify r fun m =>
      { m with left := none, right := none, parent := none, rank := 1 }
    (meld prec cut n.left n.right).bind fun m =>
      match n.parent with
      | none => some ⟨m.1, m.2⟩
      | some p =>
        (restoreUp m.1.slotCount (replaceChild m.1 p r m.2) (some p)).map fun st => ⟨st, h.root⟩

/-- Takes a node out of the heap and frees it, returning its element. -/
def retire (prec : α → α → Bool) (h : LeftistArenaHeap α) (r : NodeRef) (shared : Nat) :
    Option (α × LeftistArenaHeap α × Nat) :=
  (h.detach prec r).bind fun h₁ =>
    (h₁.arena.free r shared).map fun f => (f.2.1.item, ⟨f.1, h₁.root⟩, f.2.2)

/-- Removes the root. -/
def pop (prec : α → α → Bool) (h : LeftistArenaHeap α) (shared : Nat) :
    Option (α × LeftistArenaHeap α × Nat) :=
  h.root.bind fun r => h.retire prec r shared

/-- The element at the root. -/
def peek (h : LeftistArenaHeap α) : Option α :=
  h.root.bind fun r => (h.arena.get r).map LeftistNode.item

/-- Replaces the element of a node by its image under `f`. At the root, an element that does not
get worse is changed in place; otherwise the node is detached and melded back alone. -/
def reprioritize (prec : α → α → Bool) (h : LeftistArenaHeap α) (r : NodeRef) (f : α → α) :
    Option (LeftistArenaHeap α) :=
  (h.arena.get r).bind fun n =>
    let x := f n.item
    if !prec n.item x && h.root = some r then
      some ⟨h.arena.modify r fun m => { m with item := x }, h.root⟩
    else
      (h.detach prec r).bind fun h₁ =>
        (meld prec (h₁.arena.modify r fun m => { m with item := x }) h₁.root (some r)).map
          fun m => ⟨m.1, m.2⟩

/-- Frees every node. -/
def clear (h : LeftistArenaHeap α) (shared : Nat) : LeftistArenaHeap α × Nat :=
  (⟨(h.arena.clear shared).1, none⟩, (h.arena.clear shared).2)

/-- Moves the nodes of `other` into this heap's arena and melds the two trees. -/
def absorb (prec : α → α → Bool) (h other : LeftistArenaHeap α) :
    Option (LeftistArenaHeap α × Remap) :=
  let a := h.arena.absorb other.arena
  (meld prec a.1 h.root (a.2.link other.root)).map fun m => (⟨m.1, m.2⟩, a.2)

/-- A copy in a compacted arena with a forked pool. -/
def duplicate (h : LeftistArenaHeap α) (shared : Nat) : (LeftistArenaHeap α × Remap) × Nat :=
  let c := h.arena.compacted shared
  ((⟨c.1.1, c.1.2.link h.root⟩, c.1.2), c.2)

/-- An empty heap whose pool is forked from this one's. -/
def emptyLike (h : LeftistArenaHeap α) : LeftistArenaHeap α := ⟨h.arena.emptyLike, none⟩

/-- Checks heap order, parent links, ranks and the leftist rule by walking the tree from the
root, which has no parent; the walk must count every live node. -/
def verify (prec : α → α → Bool) (h : LeftistArenaHeap α) : Bool :=
  match h.root with
  | none => h.arena.len == 0
  | some r =>
    match h.arena.get r with
    | some n =>
      n.parent.isNone &&
        Arena.walkCount (checkChildren prec h.arena) h.arena.slotCount [r] 0 == some h.arena.len
    | none => false

end LeftistArenaHeap

end PriorityQueues
