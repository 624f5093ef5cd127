import PriorityQueues.Tree.Meldable

/-!
Skew heaps: binary trees melded along the right spines with the children on the merge path
swapped; the meld that runs is the loop `meldIter`.
-/

namespace PriorityQueues

/-- A binary tree of elements, meant to be heap-ordered. -/
inductive SkewHeap (α : Type) where
  | leaf
  | node (left : SkewHeap α) (top : α) (right : SkewHeap α)
  deriving Repr

namespace SkewHeap

variable {α : Type}

/-- The number of elements. -/
def size : SkewHeap α → Nat
  | .leaf => 0
  | .node l _ r => l.size + r.size + 1

/-- Melds two trees top-down, swapping the children along the merge path; the first tree wins ties
at every step. -/
def meld (prec : α → α → Bool) : SkewHeap α → SkewHeap α → SkewHeap α
  | .leaf, b => b
  | .node al x ar, .leaf => .node al x ar
  | .node al x ar, .node bl y br =>
    if prec y x then .node (meld prec br (.node al x ar)) y bl
    else .node (meld prec ar (.node bl y br)) x al
termination_by a b => a.size + b.size
decreasing_by all_goals simp only [size]; omega

/-- The length of the right spine: the number of nodes from the root down the right children. -/
def rightSpine : SkewHeap α → Nat
  | .leaf => 0
  | .node _ _ r => r.rightSpine + 1

/-- Puts back the nodes passed on the way down: each entry of the path, innermost first, is a
node's element and the subtree that becomes its right child, and the tree built so far becomes its
left child. -/
def rebuild : List (α × SkewHeap α) → SkewHeap α → SkewHeap α
  | [], t => t
  | (x, l) :: path, t => rebuild path (.node t x l)

/-- The state of an iterative meld: the nodes already passed, innermost first; the node being
visited, by its old left subtree, its element and its old right subtree; and the tree still to be
melded below it. -/
structure Walk (α : Type) where
  path : List (α × SkewHeap α)
  left : SkewHeap α
  top : α
  right : SkewHeap α
  other : SkewHeap α

namespace Walk

/-- What is left to walk: the right spines of the visited node's old right subtree and of the tree
still to be melded. -/
def measure (w : Walk α) : Nat := w.right.rightSpine + w.other.rightSpine

/-- One step: the visited node's old left subtree becomes its right child. -/
def step (prec : α → α → Bool) (w : Walk α) : SkewHeap α ⊕ Walk α :=
  let path := (w.top, w.left) :: w.path
  match w.right, w.other with
  | .node rl y rr, .node ol z or =>
    if prec z y then .inr ⟨path, ol, z, or, .node rl y rr⟩
    else .inr ⟨path, rl, y, rr, .node ol z or⟩
  | .leaf, o => .inl (rebuild path o)
  | r, .leaf => .inl (rebuild path r)

theorem shrinks (prec : α → α → Bool) {w w' : Walk α} (h : w.step prec = .inr w') :
    w'.measure < w.measure := by
  unfold step at h
  split at h
  · rename_i rl y rr ol z or hr ho
    split at h <;> (cases h; simp only [measure, rightSpine, hr, ho]; omega)
  · cases h
  · cases h

set_option linter.unusedVariables false in
/-- Runs the walk to its end. -/
def run (prec : α → α → Bool) (w : Walk α) : SkewHeap α :=
  match hs : w.step prec with
  | .inl t => t
  | .inr w' => run prec w'
termination_by w.measure
decreasing_by exact shrinks prec hs

theorem run_of_done (prec : α → α → Bool) {w : Walk α} {t : SkewHeap α}
    (h : w.step prec = .inl t) : w.run prec = t := by
  rw [run, h]

theorem run_of_next (prec : α → α → Bool) {w w' : Walk α} (h : w.step prec = .inr w') :
    w.run prec = w'.run prec := by
  rw [run, h]

theorem run_eq (prec : α → α → Bool) (w : Walk α) :
    w.run prec = rebuild w.path (.node (meld prec w.right w.other) w.top w.left) := by
  induction w using run.induct prec with
  | case1 w t hs =>
    rw [run_of_done prec hs]
    obtain ⟨path, l, x, r, o⟩ := w
    cases r with
    | leaf => simp only [step] at hs; cases hs; simp [rebuild, meld]
    | node rl y rr =>
      cases o with
      | leaf => simp only [step] at hs; cases hs; simp [rebuild, meld]
      | node ol z or => simp only [step] at hs; split at hs <;> cases hs
  | case2 w w' hs ih =>
    rw [run_of_next prec hs, ih]
    obtain ⟨path, l, x, r, o⟩ := w
    cases r with
    | leaf => simp [step] at hs
    | node rl y rr =>
      cases o with
      | leaf => simp [step] at hs
      | node ol z or =>
        simp only [step] at hs
        split at hs <;> (cases hs; simp [rebuild, meld, *])

end Walk

/-- Melds two trees as the recursive `meld` does, walking the merge path in a loop. -/
def meldIter (prec : α → α → Bool) : SkewHeap α → SkewHeap α → SkewHeap α
  | .leaf, b => b
  | .node al x ar, .leaf => .node al x ar
  | .node al x ar, .node bl y br =>
    if prec y x then Walk.run prec ⟨[], bl, y, br, .node al x ar⟩
    else Walk.run prec ⟨[], al, x, ar, .node bl y br⟩

theorem meldIter_eq (prec : α → α → Bool) (a b : SkewHeap α) :
    meldIter prec a b = meld prec a b := by
  cases a with
  | leaf => simp [meldIter, meld]
  | node al x ar =>
    cases b with
    | leaf => simp [meldIter, meld]
    | node bl y br =>
      simp only [meldIter]
      split <;> simp [Walk.run_eq, rebuild, meld, *]

/-- The elements, root first, then the left subtree, then the right. -/
def toList : SkewHeap α → List α
  | .leaf => []
  | .node l x r => x :: (l.toList ++ r.toList)

/-- Removes the first element, in root-left-right order, that passes the test; its place is taken
by the meld of its two subtrees. -/
def cut (prec : α → α → Bool) (p : α → Bool) : SkewHeap α → Option (α × SkewHeap α)
  | .leaf => none
  | .node l x r =>
    if p x then some (x, meldIter prec l r)
    else
      match cut prec p l with
      | some (y, l') => some (y, .node l' x r)
      | none => (cut prec p r).map fun s => (s.1, .node l x s.2)

/-- Replaces the element that passes the test by its image under `f`. -/
def reprioritize (prec : α → α → Bool) (p : α → Bool) (f : α → α) (t : SkewHeap α) :
    SkewHeap α :=
  match t with
  | .node l x r =>
    if p x && !prec x (f x) then .node l (f x) r
    else
      match cut prec p t with
      | some (y, t') => meldIter prec t' (.node .leaf (f y) .leaf)
      | none => t
  | .leaf => .leaf

/-- Replaces every element that passes the test, in place. -/
def modify (p : α → Bool) (f : α → α) : SkewHeap α → SkewHeap α
  | .leaf => .leaf
  | .node l x r => .node (l.modify p f) (if p x then f x else x) (r.modify p f)

/-- Whether no child strictly precedes its parent, throughout the tree. -/
def ordered (prec : α → α → Bool) : SkewHeap α → Bool
  | .leaf => true
  | .node l x r =>
    (match l with
      | .node _ y _ => !prec y x
      | .leaf => true) &&
    (match r with
      | .node _ y _ => !prec y x
      | .leaf => true) &&
    l.ordered prec && r.ordered prec

instance : Meldable SkewHeap where
  empty := .leaf
  size := size
  toList := toList
  top? t := match t with
    | .leaf => none
    | .node _ x _ => some x
  meld := meldIter
  insert prec x t := meldIter prec t (.node .leaf x .leaf)
  popTop prec t := match t with
    | .leaf => none
    | .node l x r => some (x, meldIter prec l r)
  extract := cut
  reprioritize := reprioritize
  modify := modify
  find? p t := t.toList.find? p
  verify := ordered

end SkewHeap

end PriorityQueues
