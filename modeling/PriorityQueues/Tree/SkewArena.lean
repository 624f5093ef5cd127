import PriorityQueues.Arena

/-!
Skew heaps in an arena: each node links to its two children and its parent. The meld walks the
right spines top-down in a loop, swapping children on the way, and gives up after as many steps
as slots. An operation on a reference that names no node answers `none`.
-/

namespace PriorityQueues

/-- A skew heap node: its element, its children and its parent. -/
structure SkewNode (α : Type) where
  item : α
  left : Link
  right : Link
  parent : Link
  deriving DecidableEq, Repr

instance {α : Type} : Relink (SkewNode α) where
  relink f n := { n with left := n.left.map f, right := n.right.map f, parent := n.parent.map f }

/-- A skew heap in an arena: its nodes and its root. -/
structure SkewArenaHeap (α : Type) where
  arena : Arena (SkewNode α)
  root : Link

namespace SkewArena

variable {α : Type}

/-- Whether the element at `a` strictly precedes the element at `b`. -/
def precedes (prec : α → α → Bool) (st : Arena (SkewNode α)) (a b : NodeRef) : Bool :=
  match st.get a, st.get b with
  | some x, some y => prec x.item y.item
  | _, _ => false

/-- Makes `child` the left child of `parent`. -/
def attachLeft (st : Arena (SkewNode α)) (parent child : NodeRef) : Arena (SkewNode α) :=
  (st.modify parent fun n => { n with left := some child }).modify child
    fun n => { n with parent := some parent }

/-- The meld loop at `current`, a node that wins against `other`: the old left child of `current`
moves right, and the winner of its old right child and `other` becomes its left child and the
next `current`. -/
def meldLoop (prec : α → α → Bool) :
    Nat → Arena (SkewNode α) → NodeRef → NodeRef → Option (Arena (SkewNode α))
  | 0, _, _, _ => none
  | fuel + 1, st, current, other =>
    match st.get current with
    | none => none
    | some n =>
      let st₁ := st.modify current fun m => { m with right := n.left }
      match n.right with
      | none => some (attachLeft st₁ current other)
      | some right =>
        if precedes prec st₁ other right then
          meldLoop prec fuel (attachLeft st₁ current other) other right
        else meldLoop prec fuel (attachLeft st₁ current right) right other

/-- Clears the parent link of the node at `l`, if there is one. -/
def orphan (st : Arena (SkewNode α)) : Link → Arena (SkewNode α)
  | some r => st.modify r fun n => { n with parent := none }
  | none => st

/-- Melds two trees and returns the root, which is left without a parent: `b` wins only if its
element strictly precedes `a`'s. -/
def meld (prec : α → α → Bool) (st : Arena (SkewNode α)) (a b : Link) :
    Option (Arena (SkewNode α) × Link) :=
  let melded : Option (Arena (SkewNode α) × Link) :=
    match a, b with
    | none, b => some (st, b)
    | some a, none => some (st, some a)
    | some a, some b =>
      if precedes prec st b a then (meldLoop prec st.slotCount st b a).map fun st' => (st', some b)
      else (meldLoop prec st.slotCount st a b).map fun st' => (st', some a)
  melded.map fun m => (orphan m.1 m.2, m.2)

/-- Puts `replacement` in the child slot of `parent` that held `node`, and points it back to
`parent`. -/
def replaceChild (st : Arena (SkewNode α)) (parent node : NodeRef) (replacement : Link) :
    Arena (SkewNode α) :=
  let st₁ := st.modify parent fun m =>
    if m.left = some node then { m with left := replacement } else { m with right := replacement }
  match replacement with
  | some c => st₁.modify c fun m => { m with parent := some parent }
  | none => st₁

/-- The children of `node`, left first, each checked to point back to it and not to strictly
precede it. -/
def checkChildren (prec : α → α → Bool) (st : Arena (SkewNode α)) (node : NodeRef) :
    Option (List NodeRef) :=
  match st.get node with
  | none => none
  | some n =>
    let cs := [n.left, n.right].filterMap id
    if cs.all fun c => (st.get c).any fun m => m.parent == some node && !prec m.item n.item then
      some cs
    else none

end SkewArena

namespace SkewArenaHeap

open SkewArena

variable {α : Type}

/-- An empty heap that draws shells from `pool`. -/
def new (pool : ShellPool) : SkewArenaHeap α := ⟨Arena.new pool, none⟩

/-- Adds an element in a new node and returns the node. -/
def push (prec : α → α → Bool) (h : SkewArenaHeap α) (x : α) (shared : Nat) :
    Option (SkewArenaHeap α × NodeRef × Nat) :=
  let a := h.arena.alloc ⟨x, none, none, none⟩ shared
  (meld prec a.1 h.root (some a.2.1)).map fun m => (⟨m.1, m.2⟩, a.2.1, a.2.2)

/-- Takes a node out of the tree, leaving it without links: the meld of its children takes its
place, under its parent or at the root. -/
def detach (prec : α → α → Bool) (h : SkewArenaHeap α) (r : NodeRef) :
    Option (SkewArenaHeap α) :=
  (h.arena.get r).bind fun n =>
    let cut := h.arena.modify r fun m => { m with left := none, right := none, parent := none }
    (meld prec cut n.left n.right).map fun m =>
      match n.parent with
      | none => ⟨m.1, m.2⟩
      | some p => ⟨replaceChild m.1 p r m.2, h.root⟩

/-- Takes a node out of the heap and frees it, returning its element. -/
def retire (prec : α → α → Bool) (h : SkewArenaHeap α) (r : NodeRef) (shared : Nat) :
    Option (α × SkewArenaHeap α × Nat) :=
  (h.detach prec r).bind fun h₁ =>
    (h₁.arena.free r shared).map fun f => (f.2.1.item, ⟨f.1, h₁.root⟩, f.2.2)

/-- Removes the root. -/
def pop (prec : α → α → Bool) (h : SkewArenaHeap α) (shared : Nat) :
    Option (α × SkewArenaHeap α × Nat) :=
  h.root.bind fun r => h.retire prec r shared

/-- The element at the root. -/
def peek (h : SkewArenaHeap α) : Option α :=
  h.root.bind fun r => (h.arena.get r).map SkewNode.item

/-- Replaces the element of a node by its image under `f`. At the root, an element that does not
get worse is changed in place; otherwise the node is detached and melded back alone. -/
def reprioritize (prec : α → α → Bool) (h : SkewArenaHeap α) (r : NodeRef) (f : α → α) :
    Option (SkewArenaHeap α) :=
  (h.arena.get r).bind fun n =>
    let x := f n.item
    if !prec n.item x && h.root = some r then
      some ⟨h.arena.modify r fun m => { m with item := x }, h.root⟩
    else
      (h.detach prec r).bind fun h₁ =>
        (meld prec (h₁.arena.modify r fun m => { m with item := x }) h₁.root (some r)).map
          fun m => ⟨m.1, m.2⟩

/-- Frees every node. -/
def clear (h : SkewArenaHeap α) (shared : Nat) : SkewArenaHeap α × Nat :=
  (⟨(h.arena.clear shared).1, none⟩, (h.arena.clear shared).2)

/-- Moves the nodes of `other` into this heap's arena and melds the two trees. -/
def absorb (prec : α → α → Bool) (h other : SkewArenaHeap α) :
    Option (SkewArenaHeap α × Remap) :=
  let a := h.arena.absorb other.arena
  (meld prec a.1 h.root (a.2.link other.root)).map fun m => (⟨m.1, m.2⟩, a.2)

/-- A copy in a compacted arena with a forked pool. -/
def duplicate (h : SkewArenaHeap α) (shared : Nat) : (SkewArenaHeap α × Remap) × Nat :=
  let c := h.arena.compacted shared
  ((⟨c.1.1, c.1.2.link h.root⟩, c.1.2), c.2)

/-- An empty heap whose pool is forked from this one's. -/
def emptyLike (h : SkewArenaHeap α) : SkewArenaHeap α := ⟨h.arena.emptyLike, none⟩

/-- Checks heap order and parent links by walking the tree from the root, which has no parent;
the walk must count every live node. -/
def verify (prec : α → α → Bool) (h : SkewArenaHeap α) : Bool :=
  match h.root with
  | none => h.arena.len == 0
  | some r =>
    match h.arena.get r with
    | some n =>
      n.parent.isNone &&
        Arena.walkCount (checkChildren prec h.arena) h.arena.slotCount [r] 0 == some h.arena.len
    | none => false

end SkewArenaHeap

end PriorityQueues
