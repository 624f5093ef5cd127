import PriorityQueues.Tree.Skew

/-!
The skew heap's meld loop ends and builds the tree of the recursive meld.
-/

namespace PriorityQueues.SkewHeap

variable {α : Type}

/-- Every step of the meld loop shortens the right spines left to walk, and the loop builds the
tree of the recursive meld. -/
theorem walk_shrinks_and_meldIter_eq_meld (prec : α → α → Bool) :
    (∀ w w' : Walk α, w.step prec = .inr w' → w'.measure < w.measure) ∧
      ∀ a b : SkewHeap α, meldIter prec a b = meld prec a b :=
  ⟨fun _ _ h => Walk.shrinks prec h, meldIter_eq prec⟩

end PriorityQueues.SkewHeap
