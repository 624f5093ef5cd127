import PriorityQueues.Tree.Meldable

/-!
Leftist heaps: binary trees storing their null-path rank, left rank at least right rank. A meld
walks the right spines and restores each node; after a removal, ancestors are restored only while
a restore changes a rank.
-/

namespace PriorityQueues

/-- A binary tree of elements with a stored rank in every node. -/
inductive LeftistHeap (α : Type) where
  | leaf
  | node (rank : Nat) (left : LeftistHeap α) (top : α) (right : LeftistHeap α)
  deriving Repr

namespace LeftistHeap

variable {α : Type}

/-- The number of elements. -/
def size : LeftistHeap α → Nat
  | .leaf => 0
  | .node _ l _ r => l.size + r.size + 1

/-- The stored rank of the root, and 0 for the empty tree. -/
def rank : LeftistHeap α → Nat
  | .leaf => 0
  | .node k _ _ _ => k

/-- A one-element tree. -/
def singleton (x : α) : LeftistHeap α := .node 1 .leaf x .leaf

/-- Rebuilds a node whose stored rank was `k`: the child of smaller rank goes right, and the rank
becomes one more than the right child's. -/
def restore (k : Nat) (l : LeftistHeap α) (x : α) (r : LeftistHeap α) : LeftistHeap α × Bool :=
  if l.rank < r.rank then (.node (l.rank + 1) r x l, l.rank + 1 != k)
  else (.node (r.rank + 1) l x r, r.rank + 1 != k)

/-- Melds two trees along their right spines; the first tree wins ties at every step. -/
def meld (prec : α → α → Bool) : LeftistHeap α → LeftistHeap α → LeftistHeap α
  | .leaf, b => b
  | .node k l x r, .leaf => .node k l x r
  | .node ka al x ar, .node kb bl y br =>
    if prec y x then (restore kb bl y (meld prec br (.node ka al x ar))).1
    else (restore ka al x (meld prec ar (.node kb bl y br))).1
termination_by a b => a.size + b.size
decreasing_by all_goals simp only [size]; omega

/-- The elements, root first, then the left subtree, then the right. -/
def toList : LeftistHeap α → List α
  | .leaf => []
  | .node _ l x r => x :: (l.toList ++ r.toList)

/-- Removes the first element, in root-left-right order, that passes the test; its place is taken
by the meld of its subtrees. -/
def cut (prec : α → α → Bool) (p : α → Bool) :
    LeftistHeap α → Option (α × LeftistHeap α × Bool)
  | .leaf => none
  | .node k l x r =>
    if p x then some (x, meld prec l r, true)
    else
      match cut prec p l with
      | some (y, l', dirty) =>
        some (y, if dirty then restore k l' x r else (.node k l' x r, false))
      | none =>
        match cut prec p r with
        | some (y, r', dirty) =>
          some (y, if dirty then restore k l x r' else (.node k l x r', false))
        | none => none

/-- Replaces the element that passes the test by its image under `f`. -/
def reprioritize (prec : α → α → Bool) (p : α → Bool) (f : α → α)
    (t : LeftistHeap α) : LeftistHeap α :=
  match t with
  | .node k l x r =>
    if p x && !prec x (f x) then .node k l (f x) r
    else
      match cut prec p t with
      | some (y, t', _) => meld prec t' (singleton (f y))
      | none => t
  | .leaf => .leaf

/-- Replaces every element that passes the test, in place. -/
def modify (p : α → Bool) (f : α → α) : LeftistHeap α → LeftistHeap α
  | .leaf => .leaf
  | .node k l x r => .node k (l.modify p f) (if p x then f x else x) (r.modify p f)

/-- Whether no child strictly precedes its parent, the left child's rank is at least the right
child's, and each stored rank is one more than the right child's, throughout the tree. -/
def ordered (prec : α → α → Bool) : LeftistHeap α → Bool
  | .leaf => true
  | .node k l x r =>
    decide (r.rank ≤ l.rank) && k == r.rank + 1 &&
    (match l with
      | .node _ _ y _ => !prec y x
      | .leaf => true) &&
    (match r with
      | .node _ _ y _ => !prec y x
      | .leaf => true) &&
    l.ordered prec && r.ordered prec

instance : Meldable LeftistHeap where
  empty := .leaf
  size := size
  toList := toList
  top? t := match t with
    | .leaf => none
    | .node _ _ x _ => some x
  meld := meld
  insert prec x t := meld prec t (singleton x)
  popTop prec t := match t with
    | .leaf => none
    | .node _ l x r => some (x, meld prec l r)
  extract prec p t := (cut prec p t).map fun r => (r.1, r.2.1)
  reprioritize := reprioritize
  modify := modify
  find? p t := t.toList.find? p
  verify := ordered

end LeftistHeap

end PriorityQueues
