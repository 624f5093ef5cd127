/-!
Meldable trees: the interface the tree engines share, including operations on an element located
by a test anywhere in the tree.
-/

namespace PriorityQueues

/-- The operations of a tree engine over elements of type `α`, ordered by `prec`. -/
class Meldable (T : Type → Type) where
  /-- The tree with no element. -/
  empty : T α
  /-- How many elements the tree holds. -/
  size : T α → Nat
  /-- The elements, in an order of the engine's choosing. -/
  toList : T α → List α
  /-- The element at the top, which leaves next. -/
  top? : T α → Option α
  /-- One tree holding the elements of both; the first tree wins ties at the top. -/
  meld (prec : α → α → Bool) : T α → T α → T α
  /-- Adds one element, melded in as a one-element tree after the existing ones. -/
  insert (prec : α → α → Bool) : α → T α → T α
  /-- Removes the top element. -/
  popTop (prec : α → α → Bool) : T α → Option (α × T α)
  /-- Removes an element that passes the test. -/
  extract (prec : α → α → Bool) (p : α → Bool) : T α → Option (α × T α)
  /-- Replaces an element that passes the test by its image under `f`, moving it as its new
  precedence requires. -/
  reprioritize (prec : α → α → Bool) (p : α → Bool) (f : α → α) : T α → T α
  /-- Replaces every element that passes the test by its image under `f`, in place. -/
  modify (p : α → Bool) (f : α → α) : T α → T α
  /-- An element that passes the test. -/
  find? (p : α → Bool) : T α → Option α
  /-- Whether the tree is in heap order and meets the engine's own shape rules. -/
  verify (prec : α → α → Bool) : T α → Bool

end PriorityQueues
