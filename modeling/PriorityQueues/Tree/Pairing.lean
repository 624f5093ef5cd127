import PriorityQueues.Tree.Meldable

/-!
Pairing heaps: multiway trees built by `link`, where the loser becomes the winner's first child;
popping melds the children by two passes (`pairUp`, then `linkAll`).
-/

namespace PriorityQueues

/-- A heap-ordered tree whose children are listed first to last. -/
inductive PairingTree (α : Type) where
  | node (top : α) (children : List (PairingTree α))
  deriving Repr

namespace PairingTree

variable {α : Type}

/-- The element at the root. -/
def top : PairingTree α → α
  | .node x _ => x

/-- The children of the root. -/
def children : PairingTree α → List (PairingTree α)
  | .node _ cs => cs

/-- Melds two trees: the second wins only if its root strictly precedes the first's, and the loser
becomes the first child of the winner. -/
def link (prec : α → α → Bool) (a b : PairingTree α) : PairingTree α :=
  match a, b with
  | .node x xs, .node y ys => if prec y x then .node y (a :: ys) else .node x (b :: xs)

/-- The first pass: links adjacent siblings left to right; an odd last one stays alone. -/
def pairUp (prec : α → α → Bool) : List (PairingTree α) → List (PairingTree α)
  | a :: b :: rest => link prec a b :: pairUp prec rest
  | rest => rest

/-- The second pass: starting from the last tree, links each earlier tree in front of the result so
far. -/
def linkAll (prec : α → α → Bool) : List (PairingTree α) → Option (PairingTree α)
  | [] => none
  | [t] => some t
  | t :: rest => (linkAll prec rest).map (link prec t)

/-- Melds a list of sibling trees into one by the two passes. -/
def combine (prec : α → α → Bool) (ts : List (PairingTree α)) : Option (PairingTree α) :=
  linkAll prec (pairUp prec ts)

mutual
/-- The number of elements. -/
def size : PairingTree α → Nat
  | .node _ cs => sizeList cs + 1

/-- The number of elements of a list of trees. -/
def sizeList : List (PairingTree α) → Nat
  | [] => 0
  | t :: ts => size t + sizeList ts
end

mutual
/-- The elements, root first, then each child's subtree in order. -/
def toList : PairingTree α → List α
  | .node x cs => x :: toListList cs

/-- The elements of a list of trees. -/
def toListList : List (PairingTree α) → List α
  | [] => []
  | t :: ts => toList t ++ toListList ts
end

mutual
/-- Cuts out the first proper subtree whose root passes the test, returning what is left and the
subtree. -/
def cut (p : α → Bool) : PairingTree α → Option (PairingTree α × PairingTree α)
  | .node x cs => (cutList p cs).map fun r => (.node x r.1, r.2)

/-- Cuts out the first subtree, among a list of trees and their descendants, whose root passes the
test. -/
def cutList (p : α → Bool) :
    List (PairingTree α) → Option (List (PairingTree α) × PairingTree α)
  | [] => none
  | t :: ts =>
    if p t.top then some (ts, t)
    else
      match cut p t with
      | some r => some (r.1 :: ts, r.2)
      | none => (cutList p ts).map fun r => (t :: r.1, r.2)
end

mutual
/-- Replaces every element that passes the test, in place. -/
def modify (p : α → Bool) (f : α → α) : PairingTree α → PairingTree α
  | .node x cs => .node (if p x then f x else x) (modifyList p f cs)

/-- Replaces every element that passes the test in a list of trees, in place. -/
def modifyList (p : α → Bool) (f : α → α) : List (PairingTree α) → List (PairingTree α)
  | [] => []
  | t :: ts => modify p f t :: modifyList p f ts
end

mutual
/-- Whether no child's root strictly precedes its parent's, throughout the tree. -/
def ordered (prec : α → α → Bool) : PairingTree α → Bool
  | .node x cs => orderedList prec x cs

/-- Whether the trees of a list are ordered and no root among them strictly precedes `x`. -/
def orderedList (prec : α → α → Bool) (x : α) : List (PairingTree α) → Bool
  | [] => true
  | t :: ts => !prec t.top x && ordered prec t && orderedList prec x ts
end

end PairingTree

/-- A pairing heap: empty, or one pairing tree. -/
structure PairingHeap (α : Type) where
  root : Option (PairingTree α)
  deriving Repr

namespace PairingHeap

variable {α : Type}

/-- Melds two optional trees by `link`, the first winning ties. -/
def meldRoots (prec : α → α → Bool) :
    Option (PairingTree α) → Option (PairingTree α) → Option (PairingTree α)
  | none, b => b
  | a, none => a
  | some a, some b => some (PairingTree.link prec a b)

/-- Melds two heaps; the first wins ties at the top. -/
def meld (prec : α → α → Bool) (a b : PairingHeap α) : PairingHeap α :=
  ⟨meldRoots prec a.root b.root⟩

/-- Removes the root; its children are melded by the two passes. -/
def popTop (prec : α → α → Bool) (h : PairingHeap α) : Option (α × PairingHeap α) :=
  h.root.map fun t => (t.top, ⟨PairingTree.combine prec t.children⟩)

/-- Removes the element that passes the test: off the root it is cut out with its subtree, its
children are melded by the two passes, and the result is melded back after the rest. -/
def extract (prec : α → α → Bool) (p : α → Bool) (h : PairingHeap α) :
    Option (α × PairingHeap α) :=
  match h.root with
  | none => none
  | some t =>
    if p t.top then some (t.top, ⟨PairingTree.combine prec t.children⟩)
    else
      (PairingTree.cut p t).map fun r =>
        (r.2.top, ⟨meldRoots prec (some r.1) (PairingTree.combine prec r.2.children)⟩)

/-- Replaces the element that passes the test by its image under `f`. -/
def reprioritize (prec : α → α → Bool) (p : α → Bool) (f : α → α)
    (h : PairingHeap α) : PairingHeap α :=
  match h.root with
  | none => h
  | some t =>
    if p t.top then
      let x := f t.top
      if !prec t.top x then ⟨some (.node x t.children)⟩
      else ⟨meldRoots prec (PairingTree.combine prec t.children) (some (.node x []))⟩
    else
      match PairingTree.cut p t with
      | none => h
      | some (rest, s) =>
        let x := f s.top
        if !prec s.top x then ⟨some (PairingTree.link prec rest (.node x s.children))⟩
        else
          ⟨meldRoots prec (meldRoots prec (some rest) (PairingTree.combine prec s.children))
            (some (.node x []))⟩

instance : Meldable PairingHeap where
  empty := ⟨none⟩
  size h := match h.root with
    | none => 0
    | some t => t.size
  toList h := match h.root with
    | none => []
    | some t => t.toList
  top? h := h.root.map PairingTree.top
  meld := meld
  insert prec x h := meld prec h ⟨some (.node x [])⟩
  popTop := popTop
  extract := extract
  reprioritize := reprioritize
  modify p f h := ⟨h.root.map (PairingTree.modify p f)⟩
  find? p h := match h.root with
    | none => none
    | some t => t.toList.find? p
  verify prec h := match h.root with
    | none => true
    | some t => t.ordered prec

end PairingHeap

end PriorityQueues
