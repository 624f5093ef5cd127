import Mathlib
import PriorityQueues.Proofs.Dary

/-!
Position arithmetic of array heaps: sifting down and building from `n` entries at arity `d` form
no position above `d * n + 1`, so nothing wraps while `d * n + 1 < 2 ^ w`.
-/

namespace PriorityQueues

namespace DaryHeap

def IsChild (d n j k : Nat) : Prop := d * j + 1 ≤ k ∧ k < d * j + 1 + d ∧ k < n

def Descends (d n : Nat) : Nat → Swaps → Prop
  | _, [] => True
  | i, (j, k) :: sw => j = i ∧ IsChild d n i k ∧ Descends d n k sw

def visited (i : Nat) (sw : Swaps) : List Nat := i :: sw.map Prod.snd

section Child

variable {d n j k : Nat}

theorem IsChild.lt (hd : 0 < d) (h : IsChild d n j k) : j < k := by
  have : j ≤ d * j := Nat.le_mul_of_pos_left j hd
  have := h.1
  omega

theorem first_child_lt_of_le_lastParent (hn : 1 < n) (hj : j ≤ (n - 2) / d) : d * j + 1 < n := by
  have : d * j ≤ d * ((n - 2) / d) := Nat.mul_le_mul_left d hj
  have := Nat.mul_div_le (n - 2) d
  omega

end Child

section Walk

variable {d n : Nat}

theorem Descends.isChild_of_mem : ∀ {i : Nat} {sw : Swaps}, Descends d n i sw →
    ∀ p ∈ sw, IsChild d n p.1 p.2
  | _, [], _, p, hp => absurd hp List.not_mem_nil
  | _, _ :: _, ⟨rfl, hk, hsw⟩, p, hp => by
    rcases List.mem_cons.1 hp with rfl | hp
    · exact hk
    · exact hsw.isChild_of_mem p hp

theorem Descends.visited_increasing (hd : 0 < d) : ∀ {i : Nat} {sw : Swaps}, Descends d n i sw →
    (visited i sw).IsChain (· < ·)
  | _, [], _ => List.isChain_singleton _
  | _, _ :: _, ⟨rfl, hk, hsw⟩ =>
    List.isChain_cons_cons.2 ⟨hk.lt hd, hsw.visited_increasing hd⟩

theorem Descends.lt_of_mem_visited : ∀ {i : Nat} {sw : Swaps}, i < n → Descends d n i sw →
    ∀ j ∈ visited i sw, j < n
  | _, [], hi, _, j, hj => by rw [List.mem_singleton.1 hj]; exact hi
  | _, _ :: _, hi, ⟨rfl, hk, hsw⟩, j, hj => by
    rcases List.mem_cons.1 hj with rfl | hj
    · exact hi
    · exact hsw.lt_of_mem_visited hk.2.2 j hj

end Walk

section Sift

variable {V P : Type} {prec : P → P → Bool} {d : Nat}

theorem bestChild_isChild {a : Array (Entry V P)} {i : Nat} (hd : 0 < d)
    (hfirst : d * i + 1 < a.size) :
    IsChild d a.size i (bestChild prec a (d * i + 1) (min (d * i + 1 + d) a.size)) := by
  have hlt : bestChild prec a (d * i + 1) (min (d * i + 1 + d) a.size) <
      min (d * i + 1 + d) a.size :=
    bestChild_lt (by omega)
  exact ⟨le_bestChild prec a _ _, by omega, by omega⟩

theorem size_siftDown (hd : 0 < d) (a : Array (Entry V P)) (i : Nat) :
    (siftDown prec d hd a i).1.size = a.size := by
  simpa using (siftDown_perm hd a i).length_eq

theorem siftDown_descends (hd : 0 < d) (a : Array (Entry V P)) (i : Nat) :
    Descends d a.size i (siftDown prec d hd a i).2 := by
  fun_induction siftDown prec d hd a i with
  | case1 a i first hfirst best hb r ih =>
    rw [Array.size_swapIfInBounds] at ih
    exact ⟨rfl, bestChild_isChild hd hfirst, ih⟩
  | case2 => trivial
  | case3 => trivial

theorem foldl_siftDown_childSwaps (hd : 0 < d) :
    ∀ (l : List Nat) (acc : Array (Entry V P) × Swaps),
      (∀ p ∈ acc.2, IsChild d acc.1.size p.1 p.2) →
      ∀ p ∈ (l.foldl (fun (acc : Array (Entry V P) × Swaps) i =>
          let r := siftDown prec d hd acc.1 i
          (r.1, acc.2 ++ r.2)) acc).2, IsChild d acc.1.size p.1 p.2
  | [], _, h => h
  | i :: l, acc, h => by
    rw [List.foldl_cons]
    intro p hp
    have hstep := foldl_siftDown_childSwaps hd l _ ?_ p hp
    · simpa only [size_siftDown] using hstep
    · intro q hq
      simp only [size_siftDown]
      rcases List.mem_append.1 hq with hq | hq
      · exact h q hq
      · exact (siftDown_descends hd acc.1 i).isChild_of_mem q hq

theorem heapify_childSwaps (hd : 0 < d) (a : Array (Entry V P)) :
    ∀ p ∈ (heapify prec d hd a).2, IsChild d a.size p.1 p.2 := by
  unfold heapify heapifyWith
  split
  · exact foldl_siftDown_childSwaps hd _ (a, []) fun p hp => absurd hp List.not_mem_nil
  · exact fun p hp => absurd hp List.not_mem_nil

end Sift

/-- Sifting down and building from `n` entries at arity `d` form no position above `d * n + 1`. -/
theorem sift_positions_fit_in_words {V P : Type} {prec : P → P → Bool} {d w : Nat} (hd : 0 < d)
    (a : Array (Entry V P)) (hw : d * a.size + 1 < 2 ^ w) :
    (∀ i < a.size, Descends d a.size i (siftDown prec d hd a i).2 ∧
      (visited i (siftDown prec d hd a i).2).IsChain (· < ·) ∧
      ∀ j ∈ visited i (siftDown prec d hd a i).2, j < a.size ∧ d * j + 1 + d < 2 ^ w) ∧
    (1 < a.size → ∀ j ≤ (a.size - 2) / d, d * j + 1 < a.size ∧ d * j + 1 + d < 2 ^ w) ∧
    ∀ p ∈ (heapify prec d hd a).2, IsChild d a.size p.1 p.2 ∧ d * p.2 + 1 + d < 2 ^ w := by
  refine ⟨fun i hi => ?_, fun hn j hj => ?_, fun p hp => ?_⟩
  · have hdesc : Descends d a.size i (siftDown prec d hd a i).2 := siftDown_descends hd a i
    refine ⟨hdesc, hdesc.visited_increasing hd, fun j hj => ?_⟩
    have hjn := hdesc.lt_of_mem_visited hi j hj
    exact ⟨hjn, Nat.lt_of_le_of_lt (children_end_le hjn) hw⟩
  · have hfirst := first_child_lt_of_le_lastParent hn hj
    have hjn : j < a.size := Nat.lt_of_le_of_lt (Nat.le_mul_of_pos_left j hd) (by omega)
    exact ⟨hfirst, Nat.lt_of_le_of_lt (children_end_le hjn) hw⟩
  · have hchild := heapify_childSwaps hd a p hp
    exact ⟨hchild, Nat.lt_of_le_of_lt (children_end_le hchild.2.2) hw⟩

theorem sift_positions_fit_in_words_of_five_entries :
    0 < 3 ∧ 3 * 5 + 1 < 2 ^ 64 ∧
      ∀ p ∈ (heapify Ranking.ascending.precedes 3 (by decide)
          #[⟨"a", 5⟩, ⟨"b", 4⟩, ⟨"c", 3⟩, ⟨"d", 2⟩, ⟨"e", 1⟩]).2,
        IsChild 3 5 p.1 p.2 ∧ 3 * p.2 + 1 + 3 < 2 ^ 64 :=
  ⟨by decide, by decide, (sift_positions_fit_in_words (by decide)
    #[⟨"a", 5⟩, ⟨"b", 4⟩, ⟨"c", 3⟩, ⟨"d", 2⟩, ⟨"e", 1⟩] (by decide)).2.2⟩

end DaryHeap

end PriorityQueues
