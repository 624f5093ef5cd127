import PriorityQueues.Arena

/-!
Pairing heaps in an arena. `prev` names the previous sibling, or the parent of a first child;
`combineSiblings` runs the two passes over links and gives up after as many steps as slots. An
operation on a reference that names no node answers `none`.
-/

namespace PriorityQueues

/-- A pairing heap node: its element, its first child, its next sibling, and its previous sibling
or, for a first child, its parent. -/
structure PairingNode (α : Type) where
  item : α
  child : Link
  next : Link
  prev : Link
  deriving DecidableEq, Repr

instance {α : Type} : Relink (PairingNode α) where
  relink f n := { n with child := n.child.map f, next := n.next.map f, prev := n.prev.map f }

/-- A pairing heap in an arena: its nodes and its root. -/
structure PairingArenaHeap (α : Type) where
  arena : Arena (PairingNode α)
  root : Link

namespace PairingArena

variable {α : Type}

/-- The next sibling of a node. -/
def nextOf (st : Arena (PairingNode α)) (r : NodeRef) : Link := (st.get r).bind PairingNode.next

/-- The first child of a node. -/
def childOf (st : Arena (PairingNode α)) (r : NodeRef) : Link := (st.get r).bind PairingNode.child

/-- Whether the element at `a` strictly precedes the element at `b`. -/
def precedes (prec : α → α → Bool) (st : Arena (PairingNode α)) (a b : NodeRef) : Bool :=
  match st.get a, st.get b with
  | some x, some y => prec x.item y.item
  | _, _ => false

/-- Cuts a node loose from its siblings and its parent. -/
def isolate (st : Arena (PairingNode α)) (r : NodeRef) : Arena (PairingNode α) :=
  st.modify r fun n => { n with next := none, prev := none }

/-- Points the `prev` link of the node at `l`, if there is one, to `p`. -/
def setPrev (st : Arena (PairingNode α)) (l p : Link) : Arena (PairingNode α) :=
  match l with
  | some f => st.modify f fun n => { n with prev := p }
  | none => st

/-- Makes `loser` the first child of `winner`, in front of its old first child. -/
def adopt (st : Arena (PairingNode α)) (winner loser : NodeRef) : Arena (PairingNode α) :=
  let first := childOf st winner
  let st₁ := st.modify loser fun n => { n with next := first, prev := some winner }
  (setPrev st₁ first (some loser)).modify winner fun n => { n with child := some loser }

/-- Links two detached roots and returns the surviving root: `b` only if its element strictly
precedes `a`'s. -/
def link (prec : α → α → Bool) (st : Arena (PairingNode α)) (a b : NodeRef) :
    Arena (PairingNode α) × NodeRef :=
  if precedes prec st b a then (adopt st b a, b) else (adopt st a b, a)

/-- The first pass: from `current`, cuts loose each node and the one after it, links them, and
pushes the root of the pair on the stack `pairs` (its top first); a last node without a partner is
pushed alone. -/
def pairPass (prec : α → α → Bool) :
    Nat → Arena (PairingNode α) → Link → List NodeRef →
      Option (Arena (PairingNode α) × List NodeRef)
  | _, st, none, pairs => some (st, pairs)
  | 0, _, some _, _ => none
  | fuel + 1, st, some a, pairs =>
    let st₁ := isolate st a
    match nextOf st a with
    | some b =>
      let linked := link prec (isolate st₁ b) a b
      pairPass prec fuel linked.1 (nextOf st₁ b) (linked.2 :: pairs)
    | none => some (st₁, a :: pairs)

/-- The second pass: pops each remaining root off the stack and links it in front of the result so
far. -/
def foldPass (prec : α → α → Bool) :
    Arena (PairingNode α) → NodeRef → List NodeRef → Arena (PairingNode α) × NodeRef
  | st, result, [] => (st, result)
  | st, result, pair :: rest =>
    let linked := link prec st pair result
    foldPass prec linked.1 linked.2 rest

/-- Melds the sibling list that starts at `first` into one tree by the two passes, and returns its
root. -/
def combineSiblings (prec : α → α → Bool) (st : Arena (PairingNode α)) (first : NodeRef) :
    Option (Arena (PairingNode α) × NodeRef) :=
  (pairPass prec st.slotCount st (some first) []).map fun r =>
    match r.2 with
    | [] => (r.1, first)
    | last :: rest => foldPass prec r.1 last rest

/-- Melds two optional detached roots by `link`. -/
def meld (prec : α → α → Bool) (st : Arena (PairingNode α)) :
    Link → Link → Arena (PairingNode α) × Link
  | none, b => (st, b)
  | some a, none => (st, some a)
  | some a, some b => ((link prec st a b).1, some (link prec st a b).2)

/-- Cuts a node other than the root, with its subtree, out of its sibling list: the link that
pointed to it, from its parent or its previous sibling, skips to its next sibling. -/
def unlink (st : Arena (PairingNode α)) (r : NodeRef) : Arena (PairingNode α) :=
  match st.get r with
  | none => st
  | some n =>
    let skipped := match n.prev with
      | some p =>
        if childOf st p = some r then st.modify p fun m => { m with child := n.next }
        else st.modify p fun m => { m with next := n.next }
      | none => st
    isolate (setPrev skipped n.next n.prev) r

/-- Checks the children of `parent` from `c` on, `before` being the node `c` must point back to,
and lists them: none may strictly precede `parent`. -/
def checkChildren (prec : α → α → Bool) (st : Arena (PairingNode α)) (parent : NodeRef) :
    Nat → NodeRef → Link → Option (List NodeRef)
  | _, _, none => some []
  | 0, _, some _ => none
  | fuel + 1, before, some c =>
    match st.get c with
    | some n =>
      if n.prev = some before ∧ precedes prec st c parent = false then
        (checkChildren prec st parent fuel c n.next).map (c :: ·)
      else none
    | none => none

end PairingArena

namespace PairingArenaHeap

open PairingArena

variable {α : Type}

/-- An empty heap that draws shells from `pool`. -/
def new (pool : ShellPool) : PairingArenaHeap α := ⟨Arena.new pool, none⟩

/-- Stores an element in a new node and melds it in after the root. -/
def push (prec : α → α → Bool) (h : PairingArenaHeap α) (x : α) (shared : Nat) :
    PairingArenaHeap α × NodeRef × Nat :=
  let a := h.arena.alloc ⟨x, none, none, none⟩ shared
  let m := meld prec a.1 h.root (some a.2.1)
  (⟨m.1, m.2⟩, a.2.1, a.2.2)

/-- Takes a node out of the tree, leaving it without links: its children are melded by the two
passes, in its place at the root, or else melded in after the root. -/
def detach (prec : α → α → Bool) (h : PairingArenaHeap α) (r : NodeRef) :
    Option (PairingArenaHeap α) :=
  let cut := if h.root = some r then h.arena else unlink h.arena r
  let emptied := cut.modify r fun n => { n with child := none }
  let rest : Option (Arena (PairingNode α) × Link) :=
    match childOf cut r with
    | some c => (combineSiblings prec emptied c).map fun p => (p.1, some p.2)
    | none => some (emptied, none)
  rest.map fun p =>
    if h.root = some r then ⟨p.1, p.2⟩
    else ⟨(meld prec p.1 h.root p.2).1, (meld prec p.1 h.root p.2).2⟩

/-- Takes a node out of the heap and frees it, returning its element. -/
def retire (prec : α → α → Bool) (h : PairingArenaHeap α) (r : NodeRef) (shared : Nat) :
    Option (α × PairingArenaHeap α × Nat) :=
  (h.detach prec r).bind fun h₁ =>
    (h₁.arena.free r shared).map fun f => (f.2.1.item, ⟨f.1, h₁.root⟩, f.2.2)

/-- Removes the root. -/
def pop (prec : α → α → Bool) (h : PairingArenaHeap α) (shared : Nat) :
    Option (α × PairingArenaHeap α × Nat) :=
  h.root.bind fun r => h.retire prec r shared

/-- The element at the root. -/
def peek (h : PairingArenaHeap α) : Option α :=
  h.root.bind fun r => (h.arena.get r).map PairingNode.item

/-- Replaces the element of a node by its image under `f`. If the old element strictly precedes
the new one, the node is detached and melded back alone; otherwise it keeps its subtree, in
place at the root, or cut out and melded back. -/
def reprioritize (prec : α → α → Bool) (h : PairingArenaHeap α) (r : NodeRef) (f : α → α) :
    Option (PairingArenaHeap α) :=
  (h.arena.get r).bind fun n =>
    let x := f n.item
    if prec n.item x then
      (h.detach prec r).map fun h₁ =>
        let m := meld prec (h₁.arena.modify r fun m => { m with item := x }) h₁.root (some r)
        ⟨m.1, m.2⟩
    else if h.root = some r then some ⟨h.arena.modify r fun m => { m with item := x }, h.root⟩
    else
      let m := meld prec ((unlink h.arena r).modify r fun m => { m with item := x }) h.root (some r)
      some ⟨m.1, m.2⟩

/-- Changes the element of a node in place. -/
def modifyItem (h : PairingArenaHeap α) (r : NodeRef) (f : α → α) : PairingArenaHeap α :=
  ⟨h.arena.modify r fun n => { n with item := f n.item }, h.root⟩

/-- Frees every node. -/
def clear (h : PairingArenaHeap α) (shared : Nat) : PairingArenaHeap α × Nat :=
  (⟨(h.arena.clear shared).1, none⟩, (h.arena.clear shared).2)

/-- Moves the nodes of `other` into this heap's arena and melds the two trees. -/
def absorb (prec : α → α → Bool) (h other : PairingArenaHeap α) : PairingArenaHeap α × Remap :=
  let a := h.arena.absorb other.arena
  let m := meld prec a.1 h.root (a.2.link other.root)
  (⟨m.1, m.2⟩, a.2)

/-- A copy in a compacted arena with a forked pool. -/
def duplicate (h : PairingArenaHeap α) (shared : Nat) : (PairingArenaHeap α × Remap) × Nat :=
  let c := h.arena.compacted shared
  ((⟨c.1.1, c.1.2.link h.root⟩, c.1.2), c.2)

/-- An empty heap whose pool is forked from this one's. -/
def emptyLike (h : PairingArenaHeap α) : PairingArenaHeap α := ⟨h.arena.emptyLike, none⟩

/-- Checks heap order and every link by walking the tree from the root, which has neither sibling
link; the walk must count every live node. -/
def verify (prec : α → α → Bool) (h : PairingArenaHeap α) : Bool :=
  match h.root with
  | none => h.arena.len == 0
  | some r =>
    match h.arena.get r with
    | some n =>
      n.prev.isNone && n.next.isNone &&
        Arena.walkCount
          (fun p => checkChildren prec h.arena p h.arena.slotCount p (childOf h.arena p))
          h.arena.slotCount [r] 0 == some h.arena.len
    | none => false

end PairingArenaHeap

end PriorityQueues
