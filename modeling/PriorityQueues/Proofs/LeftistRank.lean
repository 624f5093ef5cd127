import Mathlib
import PriorityQueues.Proofs.Leftist

/-!
How large leftist ranks get: a stored rank is the null-path length, so a node of rank `k` roots at
least `2 ^ k - 1` nodes, and every rank a restore increments stays below 64 under `2 ^ 64` nodes.
-/

namespace PriorityQueues.LeftistHeap

variable {α : Type} {prec : α → α → Bool}

def nullPath : LeftistHeap α → Nat
  | .leaf => 0
  | .node _ l _ r => min l.nullPath r.nullPath + 1

def spineLength : LeftistHeap α → Nat
  | .leaf => 0
  | .node _ _ _ r => r.spineLength + 1

def subtrees : LeftistHeap α → List (LeftistHeap α)
  | .leaf => []
  | .node k l x r => .node k l x r :: (l.subtrees ++ r.subtrees)

def increment (l r : LeftistHeap α) : Nat := min l.rank r.rank

theorem rank_restore (k : Nat) (l : LeftistHeap α) (x : α) (r : LeftistHeap α) :
    (restore k l x r).1.rank = increment l r + 1 := by
  unfold restore increment
  split
  · rw [rank_node, Nat.min_eq_left (by omega)]
  · rw [rank_node, Nat.min_eq_right (by omega)]

def meldIncrements (prec : α → α → Bool) : LeftistHeap α → LeftistHeap α → List Nat
  | .leaf, _ => []
  | .node _ _ _ _, .leaf => []
  | .node ka al x ar, .node kb bl y br =>
    if prec y x then
      meldIncrements prec br (.node ka al x ar) ++
        [increment bl (meld prec br (.node ka al x ar))]
    else
      meldIncrements prec ar (.node kb bl y br) ++
        [increment al (meld prec ar (.node kb bl y br))]
termination_by a b => a.size + b.size
decreasing_by all_goals simp only [size]; omega

def cutIncrements (prec : α → α → Bool) (p : α → Bool) : LeftistHeap α → List Nat
  | .leaf => []
  | .node _ l x r =>
    if p x then meldIncrements prec l r
    else
      match cut prec p l with
      | some (_, l', dirty) => cutIncrements prec p l ++ if dirty then [increment l' r] else []
      | none =>
        match cut prec p r with
        | some (_, r', dirty) => cutIncrements prec p r ++ if dirty then [increment l r'] else []
        | none => []

def reprioritizeIncrements (prec : α → α → Bool) (p : α → Bool) (f : α → α)
    (t : LeftistHeap α) : List Nat :=
  match t with
  | .node _ _ x _ =>
    if p x && !prec x (f x) then []
    else
      match cut prec p t with
      | some (y, t', _) => cutIncrements prec p t ++ meldIncrements prec t' (singleton (f y))
      | none => []
  | .leaf => []

section Shape

theorem ordered_of_mem_subtrees {t s : LeftistHeap α} (ht : ordered prec t = true)
    (hs : s ∈ t.subtrees) : ordered prec s = true := by
  induction t with
  | leaf => simp [subtrees] at hs
  | node k l x r ihl ihr =>
    obtain ⟨-, -, -, -, hl, hr⟩ := ordered_node_iff.1 ht
    simp only [subtrees, List.mem_cons, List.mem_append] at hs
    rcases hs with rfl | hs | hs
    · exact ht
    · exact ihl hl hs
    · exact ihr hr hs

theorem size_le_of_mem_subtrees {t s : LeftistHeap α} (hs : s ∈ t.subtrees) :
    s.size ≤ t.size := by
  induction t with
  | leaf => simp [subtrees] at hs
  | node k l x r ihl ihr =>
    simp only [subtrees, List.mem_cons, List.mem_append] at hs
    rcases hs with rfl | hs | hs
    · exact Nat.le_refl _
    · have := ihl hs
      simp only [size]
      omega
    · have := ihr hs
      simp only [size]
      omega

theorem rank_eq_nullPath {t : LeftistHeap α} (ht : ordered prec t = true) :
    t.rank = t.nullPath := by
  induction t with
  | leaf => rfl
  | node k l x r ihl ihr =>
    obtain ⟨hrl, hk, -, -, hl, hr⟩ := ordered_node_iff.1 ht
    rw [rank_node, nullPath, ← ihl hl, ← ihr hr, Nat.min_eq_right hrl, hk]

theorem two_pow_rank_le {t : LeftistHeap α} (ht : ordered prec t = true) :
    2 ^ t.rank ≤ t.size + 1 := by
  induction t with
  | leaf => simp
  | node k l x r ihl ihr =>
    obtain ⟨hrl, hk, -, -, hl, hr⟩ := ordered_node_iff.1 ht
    have hmono : 2 ^ r.rank ≤ 2 ^ l.rank := Nat.pow_le_pow_right (by decide) hrl
    have hsplit : 2 ^ k = 2 ^ r.rank + 2 ^ r.rank := by rw [hk, Nat.pow_succ]; omega
    have := ihl hl
    have := ihr hr
    simp only [rank_node, size]
    omega

theorem spineLength_eq_rank {t : LeftistHeap α} (ht : ordered prec t = true) :
    t.spineLength = t.rank := by
  induction t with
  | leaf => rfl
  | node k l x r ihl ihr =>
    obtain ⟨-, hk, -, -, -, hr⟩ := ordered_node_iff.1 ht
    rw [spineLength, ihr hr, rank_node, hk]

theorem two_pow_rank_le_of_mem_subtrees {t s : LeftistHeap α} (ht : ordered prec t = true)
    (hs : s ∈ t.subtrees) : 2 ^ s.rank ≤ t.size + 1 :=
  (two_pow_rank_le (ordered_of_mem_subtrees ht hs)).trans
    (Nat.succ_le_succ (size_le_of_mem_subtrees hs))

end Shape

section Increments

theorem le_sixtyFour_of_two_pow_le {k N : Nat} (hk : 2 ^ k ≤ N + 1) (hN : N < 2 ^ 64) :
    k ≤ 64 := by
  have : 2 ^ k ≤ 2 ^ 64 := by omega
  exact (Nat.pow_le_pow_iff_right (by decide)).1 this

theorem size_meld (prec : α → α → Bool) (a b : LeftistHeap α) :
    (meld prec a b).size = a.size + b.size := by
  rw [size_eq_length, (toList_meld prec a b).length_eq, List.length_append, ← size_eq_length,
    ← size_eq_length]

theorem size_of_cut {p : α → Bool} {t t' : LeftistHeap α} {y : α} {d : Bool}
    (h : cut prec p t = some (y, t', d)) : t'.size + 1 = t.size := by
  rw [size_eq_length, size_eq_length, (toList_of_cut h).2.length_eq, List.length_cons]

theorem two_pow_increment_le {l r : LeftistHeap α} (hl : ordered prec l = true)
    (hr : ordered prec r = true) : 2 ^ (increment l r + 1) ≤ l.size + r.size + 2 := by
  have hl' : 2 ^ increment l r ≤ l.size + 1 :=
    le_trans (Nat.pow_le_pow_right (by decide) (Nat.min_le_left _ _)) (two_pow_rank_le hl)
  have hr' : 2 ^ increment l r ≤ r.size + 1 :=
    le_trans (Nat.pow_le_pow_right (by decide) (Nat.min_le_right _ _)) (two_pow_rank_le hr)
  rw [Nat.pow_succ]
  omega

theorem increment_comm (l r : LeftistHeap α) : increment l r = increment r l :=
  Nat.min_comm _ _

variable (hp : StrictWeakOrder prec)
include hp

theorem meld_step_bound {l r o : LeftistHeap α} (hl : ordered prec l = true)
    (hr : ordered prec r = true) (ho : ordered prec o = true)
    (ih : ∀ n ∈ meldIncrements prec r o, 2 ^ (n + 1) ≤ r.size + o.size + 1) :
    ∀ n ∈ meldIncrements prec r o ++ [increment l (meld prec r o)],
      2 ^ (n + 1) ≤ l.size + r.size + o.size + 2 := by
  intro n hn
  rcases List.mem_append.1 hn with hn | hn
  · have := ih n hn
    omega
  · rw [List.mem_singleton.1 hn]
    have := two_pow_increment_le hl (ordered_meld hp hr ho)
    rw [size_meld] at this
    omega

theorem meldIncrements_bound {a b : LeftistHeap α} (ha : ordered prec a = true)
    (hb : ordered prec b = true) :
    ∀ n ∈ meldIncrements prec a b, 2 ^ (n + 1) ≤ a.size + b.size + 1 := by
  fun_induction meldIncrements prec a b with
  | case1 b => simp
  | case2 k l x r => simp
  | case3 ka al x ar kb bl y br _ ih =>
    -- the second root wins and the first tree is melded into its right subtree
    obtain ⟨-, -, -, -, hbl, hbr⟩ := ordered_node_iff.1 hb
    intro n hn
    have := meld_step_bound hp hbl hbr ha (ih hbr ha) n hn
    simp only [size] at this ⊢
    omega
  | case4 ka al x ar kb bl y br _ ih =>
    obtain ⟨-, -, -, -, hal, har⟩ := ordered_node_iff.1 ha
    intro n hn
    have := meld_step_bound hp hal har hb (ih har hb) n hn
    simp only [size] at this ⊢
    omega

theorem cut_step_bound {p : α → Bool} {c c' o : LeftistHeap α} {y : α} {dirty : Bool}
    (hc : ordered prec c = true) (ho : ordered prec o = true)
    (hcut : cut prec p c = some (y, c', dirty))
    (ih : ∀ n ∈ cutIncrements prec p c, 2 ^ (n + 1) ≤ c.size + 1) :
    ∀ n ∈ cutIncrements prec p c ++ (if dirty then [increment c' o] else []),
      2 ^ (n + 1) ≤ c.size + o.size + 1 := by
  intro n hn
  rcases List.mem_append.1 hn with hn | hn
  · have := ih n hn
    omega
  · split at hn
    · rw [List.mem_singleton.1 hn]
      have := two_pow_increment_le (ordered_of_cut hp hc hcut).1 ho
      have := size_of_cut hcut
      omega
    · simp at hn

theorem cutIncrements_bound (p : α → Bool) {t : LeftistHeap α} (ht : ordered prec t = true) :
    ∀ n ∈ cutIncrements prec p t, 2 ^ (n + 1) ≤ t.size + 1 := by
  induction t with
  | leaf => simp [cutIncrements]
  | node k l x r ihl ihr =>
    obtain ⟨-, -, -, -, hl, hr⟩ := ordered_node_iff.1 ht
    intro n hn
    simp only [cutIncrements] at hn
    split at hn
    · -- the node itself leaves: its subtrees are melded
      have := meldIncrements_bound hp hl hr n hn
      simp only [size]
      omega
    · split at hn
      · rename_i y l' dirty hcut
        have := cut_step_bound hp hl hr hcut (ihl hl) n hn
        simp only [size]
        omega
      · split at hn
        · rename_i y r' dirty hcut
          rw [increment_comm] at hn
          have := cut_step_bound hp hr hl hcut (ihr hr) n hn
          simp only [size]
          omega
        · simp at hn

theorem reprioritizeIncrements_bound (p : α → Bool) (f : α → α) {t : LeftistHeap α}
    (ht : ordered prec t = true) :
    ∀ n ∈ reprioritizeIncrements prec p f t, 2 ^ (n + 1) ≤ t.size + 1 := by
  intro n hn
  cases t with
  | leaf => simp [reprioritizeIncrements] at hn
  | node k l x r =>
    simp only [reprioritizeIncrements] at hn
    split at hn
    · simp at hn
    · split at hn
      · rename_i y t' d hcut
        rcases List.mem_append.1 hn with hn | hn
        · exact cutIncrements_bound hp p ht n hn
        · -- the changed element comes back as a one-element tree
          have := meldIncrements_bound hp (ordered_of_cut hp ht hcut).1 (ordered_singleton (f y))
            n hn
          have hsize := size_of_cut hcut
          simp only [singleton, size] at this hsize ⊢
          omega
      · simp at hn

end Increments

/-- Stored ranks are null-path lengths, logarithmic in the size, and every increment during a
restore stays below 64 for fewer than `2 ^ 64` elements. -/
theorem leftist_ranks_stay_logarithmic {lt : α → α → Bool} (hlt : StrictWeakOrder lt) :
    (∀ t : LeftistHeap α, Meldable.Reachable lt t →
      (∀ s ∈ t.subtrees, s.rank = s.nullPath ∧ 2 ^ s.rank ≤ s.size + 1 ∧
        s.rank ≤ Nat.log 2 (t.size + 1) ∧ (t.size < 2 ^ 64 → s.rank ≤ 64)) ∧
      ∀ k l x r, .node k l x r ∈ t.subtrees → r.spineLength = k - 1) ∧
    (∀ a b : LeftistHeap α, ordered lt a = true → ordered lt b = true →
      ∀ n ∈ meldIncrements lt a b, 2 ^ (n + 1) ≤ a.size + b.size + 1 ∧
        (a.size + b.size < 2 ^ 64 → n < 64)) ∧
    (∀ (p : α → Bool) (t : LeftistHeap α), ordered lt t = true →
      ∀ n ∈ cutIncrements lt p t, 2 ^ (n + 1) ≤ t.size + 1 ∧ (t.size < 2 ^ 64 → n < 64)) ∧
    (∀ (p : α → Bool) (f : α → α) (t : LeftistHeap α), ordered lt t = true →
      ∀ n ∈ reprioritizeIncrements lt p f t, 2 ^ (n + 1) ≤ t.size + 1 ∧
        (t.size < 2 ^ 64 → n < 64)) := by
  refine ⟨fun t hr => ⟨fun s hs => ?_, fun k l x r hs => ?_⟩, fun a b ha hb n hn => ?_,
    fun p t ht n hn => ?_, fun p f t ht n hn => ?_⟩
  · have hs' := ordered_of_mem_subtrees (hr.verify hlt) hs
    have hpow := two_pow_rank_le_of_mem_subtrees (hr.verify hlt) hs
    exact ⟨rank_eq_nullPath hs', two_pow_rank_le hs', Nat.le_log_of_pow_le (by decide) hpow,
      le_sixtyFour_of_two_pow_le hpow⟩
  · -- the right child's spine is the node's spine without the node
    have hs' := ordered_of_mem_subtrees (hr.verify hlt) hs
    obtain ⟨-, hk, -, -, -, hr'⟩ := ordered_node_iff.1 hs'
    rw [spineLength_eq_rank hr', hk, Nat.add_sub_cancel]
  · have := meldIncrements_bound hlt ha hb n hn
    exact ⟨this, fun hN => le_sixtyFour_of_two_pow_le this hN⟩
  · have := cutIncrements_bound hlt p ht n hn
    exact ⟨this, fun hN => le_sixtyFour_of_two_pow_le this hN⟩
  · have := reprioritizeIncrements_bound hlt p f ht n hn
    exact ⟨this, fun hN => le_sixtyFour_of_two_pow_le this hN⟩

theorem leftist_meld_of_singletons_increments_zero :
    StrictWeakOrder Ranking.ascending.precedes ∧
      ordered Ranking.ascending.precedes (singleton (3 : Int)) = true ∧
      ordered Ranking.ascending.precedes (singleton (1 : Int)) = true ∧
      0 ∈ meldIncrements Ranking.ascending.precedes (singleton (3 : Int)) (singleton 1) ∧
      2 ^ (0 + 1) ≤ (singleton (3 : Int)).size + (singleton (1 : Int)).size + 1 :=
  ⟨Ranking.strictWeakOrder .ascending, ordered_singleton 3, ordered_singleton 1, by decide +kernel,
    ((leftist_ranks_stay_logarithmic (Ranking.strictWeakOrder .ascending)).2.1 _ _
      (ordered_singleton 3) (ordered_singleton 1) 0 (by decide +kernel)).1⟩

end PriorityQueues.LeftistHeap
