import Mathlib
import PriorityQueues.Proofs.Dary
import PriorityQueues.Proofs.DaryIndices

/-!
Bottom-up construction, turn by turn: before the turn at `k` every subtree rooted after `k` is
in heap order, and the turn adds the subtree of `k`.
-/

namespace PriorityQueues

namespace DaryHeap

variable {V P L : Type} {prec : P → P → Bool} {d : Nat}

section Subtree

/-- Position `k` lies in the subtree rooted at `r`: it is `r`, or a child of a position that does.
-/
inductive InSubtree (d r : Nat) : Nat → Prop
  | root : InSubtree d r r
  | child {j k : Nat} : InSubtree d r j → 0 < k → (k - 1) / d = j → InSubtree d r k

theorem InSubtree.le {r k : Nat} (h : InSubtree d r k) : r ≤ k := by
  induction h with
  | root => exact Nat.le_refl r
  | child _ hk hpar ih =>
    subst hpar
    exact Nat.le_of_lt (Nat.lt_of_le_of_lt ih (parent_lt d hk))

theorem InSubtree.parent {r k : Nat} (h : InSubtree d r k) (hk : k ≠ r) :
    InSubtree d r ((k - 1) / d) := by
  cases h with
  | root => exact absurd rfl hk
  | child hj _ hpar =>
    rw [hpar]
    exact hj

variable (prec d) in
def SubtreeOrdered (a : Array (Entry V P)) (r : Nat) : Prop :=
  ∀ k, InSubtree d r k → k ≠ r → beforeAt prec a k ((k - 1) / d) = false

theorem orderedFrom_iff_subtreeOrdered {a : Array (Entry V P)} {k : Nat} :
    OrderedFrom prec d k a ↔ ∀ r, k ≤ r → SubtreeOrdered prec d a r := by
  constructor
  · intro h r hr j hj hne
    -- the parent of `j` lies in the subtree too, so at `r` or after
    have hpar := (hj.parent hne).le
    have hrj := hj.le
    exact h j (by omega) (by omega)
  · intro h j hj hk
    exact h _ hk j (.child .root hj rfl) (parent_lt d hj).ne'

theorem le_lastParent_iff (hd : 0 < d) {n : Nat} (hn : 1 < n) (j : Nat) :
    j ≤ (n - 2) / d ↔ d * j + 1 < n := by
  constructor
  · exact first_child_lt_of_le_lastParent hn
  · intro hj
    rw [Nat.le_div_iff_mul_le hd, Nat.mul_comm]
    omega

end Subtree

section Loop

variable (prec d) in
def buildTurn (hd : 0 < d) (acc : Array (Entry V P) × Swaps) (i : Nat) :
    Array (Entry V P) × Swaps :=
  let r := siftDown prec d hd acc.1 i
  (r.1, acc.2 ++ r.2)

variable (prec d) in
def buildFrom (hd : 0 < d) (a : Array (Entry V P)) (m k : Nat) : Array (Entry V P) × Swaps :=
  (List.range' k (m + 1 - k)).reverse.foldl (buildTurn prec d hd) (a, [])

variable (hd : 0 < d) (a : Array (Entry V P))

theorem heapify_eq_buildFrom (hs : 1 < a.size) :
    heapify prec d hd a = buildFrom prec d hd a ((a.size - 2) / d) 0 := by
  rw [heapify, heapifyWith, if_pos hs, buildFrom, Nat.sub_zero, List.range_eq_range']
  rfl

omit hd in
theorem heapifyWith_of_size_le_one {sift : Array (Entry V P) → Nat → Array (Entry V P) × Swaps}
    (hs : a.size ≤ 1) : heapifyWith sift d a = (a, []) := by
  rw [heapifyWith, if_neg (by omega)]

theorem heapify_of_size_le_one (hs : a.size ≤ 1) : heapify prec d hd a = (a, []) :=
  heapifyWith_of_size_le_one a hs

theorem buildFrom_start (m : Nat) : buildFrom prec d hd a m (m + 1) = (a, []) := by
  rw [buildFrom, Nat.sub_self, List.range'_zero]
  rfl

theorem buildFrom_turn {m k : Nat} (hk : k ≤ m) :
    buildFrom prec d hd a m k = buildTurn prec d hd (buildFrom prec d hd a m (k + 1)) k := by
  have hlen : m + 1 - k = (m + 1 - (k + 1)) + 1 := by omega
  rw [buildFrom, buildFrom, hlen, List.range'_succ, List.reverse_cons, List.foldl_append]
  rfl

theorem foldl_buildTurn_perm (l : List Nat) (acc : Array (Entry V P) × Swaps) :
    (l.foldl (buildTurn prec d hd) acc).1.toList.Perm acc.1.toList := by
  induction l generalizing acc with
  | nil => exact .refl _
  | cons i l ih => exact (ih _).trans (siftDown_perm hd acc.1 i)

theorem buildFrom_perm (m k : Nat) : (buildFrom prec d hd a m k).1.toList.Perm a.toList :=
  foldl_buildTurn_perm hd _ (a, [])

omit hd in
theorem heapifyWith_perm {sift : Array (Entry V P) → Nat → Array (Entry V P) × Swaps}
    (hperm : ∀ b i, (sift b i).1.toList.Perm b.toList) :
    (heapifyWith sift d a).1.toList.Perm a.toList := by
  unfold heapifyWith
  split
  · have hturns : ∀ (l : List Nat) (acc : Array (Entry V P) × Swaps),
        (l.foldl (fun acc i => ((sift acc.1 i).1, acc.2 ++ (sift acc.1 i).2)) acc).1.toList.Perm
          acc.1.toList := by
      intro l
      induction l with
      | nil => exact fun _ => .refl _
      | cons i l ih => exact fun acc => (ih _).trans (hperm acc.1 i)
    exact hturns _ (a, [])
  · exact .refl _

theorem heapify_perm : (heapify prec d hd a).1.toList.Perm a.toList :=
  heapifyWith_perm a (siftDown_perm hd)

omit hd in
theorem heapifyWrapping_perm : (heapifyWrapping prec d a).1.toList.Perm a.toList :=
  heapifyWith_perm a siftDownWrapping_perm

omit hd in
theorem heapifyWith_congr {sift₁ sift₂ : Array (Entry V P) → Nat → Array (Entry V P) × Swaps}
    (hsize : ∀ b i, (sift₁ b i).1.size = b.size)
    (heq : ∀ b i, b.size = a.size → i < a.size → sift₁ b i = sift₂ b i) :
    heapifyWith sift₁ d a = heapifyWith sift₂ d a := by
  unfold heapifyWith
  split
  · -- every turn keeps the size, so every turn sifts an array of the starting size
    have hturns : ∀ (l : List Nat), (∀ i ∈ l, i < a.size) →
        ∀ acc : Array (Entry V P) × Swaps, acc.1.size = a.size →
          l.foldl (fun acc i => ((sift₁ acc.1 i).1, acc.2 ++ (sift₁ acc.1 i).2)) acc =
            l.foldl (fun acc i => ((sift₂ acc.1 i).1, acc.2 ++ (sift₂ acc.1 i).2)) acc := by
      intro l
      induction l with
      | nil => exact fun _ _ _ => rfl
      | cons i l ih =>
        intro hl acc hacc
        simp only [List.foldl_cons]
        rw [← heq acc.1 i hacc (hl i List.mem_cons_self)]
        exact ih (fun j hj => hl j (List.mem_cons_of_mem i hj)) _ (by rw [hsize, hacc])
    apply hturns _ _ (a, []) rfl
    intro i hi
    rw [List.mem_reverse, List.mem_range] at hi
    have := Nat.div_le_self (a.size - 2) d
    omega
  · rfl

theorem heapifyWrapping_eq_heapify (hw : d * a.size + 1 < wordSize) :
    heapifyWrapping prec d a = heapify prec d hd a := by
  apply heapifyWith_congr a
  · intro b i
    have hperm : (siftDownWrapping prec d b i).1.toList.Perm b.toList := siftDownWrapping_perm b i
    simpa using hperm.length_eq
  · intro b i hb hi
    exact siftDownWrapping_eq_siftDown hd (hb ▸ hi) (hb ▸ hw)

theorem orderedFrom_past_lastParent (hs : 1 < a.size) :
    OrderedFrom prec d ((a.size - 2) / d + 1) a := by
  intro j hj hk
  apply beforeAt_of_size_le
  by_contra hjs
  have := Nat.div_le_div_right (c := d) (show j - 1 ≤ a.size - 2 by omega)
  omega

variable (hp : StrictWeakOrder prec)
include hp

theorem buildFrom_orderedFrom {m : Nat} (h0 : OrderedFrom prec d (m + 1) a) :
    ∀ k ≤ m + 1, OrderedFrom prec d k (buildFrom prec d hd a m k).1 := by
  intro k hk
  -- downwards from `m + 1`: write `k` as `m + 1 - n`
  obtain ⟨n, rfl⟩ : ∃ n, k = m + 1 - n := ⟨m + 1 - k, by omega⟩
  induction n with
  | zero => rwa [Nat.sub_zero, buildFrom_start]
  | succ n ih =>
    by_cases hn : n ≤ m
    · have hk' : m + 1 - (n + 1) + 1 = m + 1 - n := by omega
      rw [buildFrom_turn hd a (by omega), buildTurn, hk']
      -- the edges from the current position are the only ones still out of order
      apply siftDown_orderedFrom hp hd
      refine ⟨Nat.le_refl _, fun j hj hkj hne => ih (by omega) j hj (by omega), ?_⟩
      intro hlt
      exact absurd hlt (Nat.lt_irrefl _)
    · have h0' : m + 1 - (n + 1) = m + 1 - n := by omega
      rw [h0']
      exact ih (by omega)

theorem heapify_ordered : HeapOrdered prec d (heapify prec d hd a).1 := by
  by_cases hs : 1 < a.size
  · rw [heapify_eq_buildFrom hd a hs]
    intro j hj
    exact buildFrom_orderedFrom hd a hp (orderedFrom_past_lastParent a hs) 0 (Nat.zero_le _) j hj
      (Nat.zero_le _)
  · rw [heapify_of_size_le_one hd a (by omega)]
    exact fun j hj => beforeAt_of_size_le (show a.size ≤ j by omega) _

end Loop

section Entries

variable {R K L : Type} [Registry R K L]

theorem ofList_arity (arity : Nat) (es : List (Entry V P)) :
    (ofList arity es : DaryHeap V P prec R).arity = max arity 2 := rfl

theorem ofList_data (arity : Nat) (es : List (Entry V P)) :
    (ofList arity es : DaryHeap V P prec R).data = (heapifyWrapping prec (max arity 2) es.toArray).1
    := rfl

end Entries

end DaryHeap

end PriorityQueues
