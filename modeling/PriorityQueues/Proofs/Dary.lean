import Mathlib
import PriorityQueues.Proofs.Queue
import PriorityQueues.Dary.Basic

/-!
Array heaps as multiset priority queues: sifts keep the entries and restore heap order around
one position (`UpReady`, `DownReady`), so pops return an entry no other precedes.
-/

namespace PriorityQueues

namespace DaryHeap

section Positions

variable {V P : Type} {prec : P → P → Bool}

theorem getElem?_swapIfInBounds {α : Type} {a : Array α} {i j : Nat} (hi : i < a.size)
    (hj : j < a.size) (k : Nat) : (a.swapIfInBounds i j)[k]? = a[Equiv.swap i j k]? := by
  rw [Array.swapIfInBounds_def, dif_pos hi, dif_pos hj, Array.getElem?_swap,
    Equiv.swap_apply_def]
  by_cases hki : k = i
  · subst hki
    by_cases hkj : k = j
    · subst hkj
      simp
    · simp [Ne.symm hkj, hj]
  · by_cases hkj : k = j
    · subst hkj
      simp [hki, hi]
    · simp [hki, hkj, Ne.symm hki, Ne.symm hkj]

theorem beforeAt_eq_true_iff {a : Array (Entry V P)} {i j : Nat} :
    beforeAt prec a i j = true ↔
      ∃ x y, a[i]? = some x ∧ a[j]? = some y ∧ prec x.priority y.priority = true := by
  unfold beforeAt
  split <;> simp_all

theorem lt_size_of_beforeAt {a : Array (Entry V P)} {i j : Nat}
    (h : beforeAt prec a i j = true) : i < a.size ∧ j < a.size := by
  obtain ⟨x, y, hx, hy, -⟩ := beforeAt_eq_true_iff.1 h
  exact ⟨(Array.getElem?_eq_some_iff.1 hx).1, (Array.getElem?_eq_some_iff.1 hy).1⟩

theorem beforeAt_of_size_le {a : Array (Entry V P)} {i : Nat} (hi : a.size ≤ i) (j : Nat) :
    beforeAt prec a i j = false := by
  cases h : beforeAt prec a i j
  · rfl
  · exact absurd (lt_size_of_beforeAt h).1 (Nat.not_lt.2 hi)

theorem beforeAt_swap {a : Array (Entry V P)} {i j : Nat} (hi : i < a.size) (hj : j < a.size)
    (x y : Nat) :
    beforeAt prec (a.swapIfInBounds i j) x y =
      beforeAt prec a (Equiv.swap i j x) (Equiv.swap i j y) := by
  simp only [beforeAt, getElem?_swapIfInBounds hi hj]

theorem beforeAt_push {a : Array (Entry V P)} {i j : Nat} (hi : i < a.size) (hj : j < a.size)
    (e : Entry V P) : beforeAt prec (a.push e) i j = beforeAt prec a i j := by
  simp only [beforeAt, Array.getElem?_push_lt hi, Array.getElem?_push_lt hj,
    Array.getElem?_eq_getElem hi, Array.getElem?_eq_getElem hj]

theorem parent_lt (d : Nat) {j : Nat} (hj : 0 < j) : (j - 1) / d < j :=
  Nat.lt_of_le_of_lt (Nat.div_le_self _ _) (by omega)

theorem children_end_le {d j n : Nat} (hj : j < n) : d * j + 1 + d ≤ d * n + 1 := by
  have : d * (j + 1) ≤ d * n := Nat.mul_le_mul_left d hj
  rw [Nat.mul_succ] at this
  omega

theorem parent_eq_iff {d i j : Nat} (hd : 0 < d) (hj : 0 < j) :
    (j - 1) / d = i ↔ d * i + 1 ≤ j ∧ j < d * i + 1 + d := by
  rw [Nat.div_eq_iff hd, Nat.mul_comm i d]
  omega

end Positions

section Laws

variable {V P : Type} {prec : P → P → Bool} (hp : StrictWeakOrder prec)
  {a : Array (Entry V P)}
include hp

theorem beforeAt_self (i : Nat) : beforeAt prec a i i = false := by
  cases h : beforeAt prec a i i
  · rfl
  · obtain ⟨x, y, hx, hy, hxy⟩ := beforeAt_eq_true_iff.1 h
    rw [hx, Option.some.injEq] at hy
    subst hy
    rw [hp.irrefl] at hxy
    cases hxy

theorem beforeAt_asymm {i j : Nat} (h : beforeAt prec a i j = true) :
    beforeAt prec a j i = false := by
  obtain ⟨x, y, hx, hy, hxy⟩ := beforeAt_eq_true_iff.1 h
  simp [beforeAt, hx, hy, hp.asymm hxy]

theorem beforeAt_trans {i j k : Nat} (hij : beforeAt prec a i j = true)
    (hjk : beforeAt prec a j k = true) : beforeAt prec a i k = true := by
  obtain ⟨x, y, hx, hy, hxy⟩ := beforeAt_eq_true_iff.1 hij
  obtain ⟨y', z, hy', hz, hyz⟩ := beforeAt_eq_true_iff.1 hjk
  rw [hy, Option.some.injEq] at hy'
  subst hy'
  exact beforeAt_eq_true_iff.2 ⟨x, z, hx, hz, hp.trans _ _ _ hxy hyz⟩

theorem beforeAt_not_trans {i j k : Nat} (hj : j < a.size) (hij : beforeAt prec a i j = false)
    (hjk : beforeAt prec a j k = false) : beforeAt prec a i k = false := by
  unfold beforeAt at *
  rw [Array.getElem?_eq_getElem hj] at hij hjk
  split
  · rename_i x z hx hz
    simp only [hx] at hij
    simp only [hz] at hjk
    exact hp.not_prec_trans hij hjk
  · rfl

end Laws

section Order

variable {V P : Type} {prec : P → P → Bool} {d : Nat}

variable (prec) in
def HeapOrdered (d : Nat) (a : Array (Entry V P)) : Prop :=
  ∀ j, 0 < j → beforeAt prec a j ((j - 1) / d) = false

theorem HeapOrdered.not_before_root (hp : StrictWeakOrder prec) {a : Array (Entry V P)}
    (h : HeapOrdered prec d a) (j : Nat) : beforeAt prec a j 0 = false := by
  induction j using Nat.strong_induction_on with
  | _ j ih =>
    by_cases hj : j = 0
    · subst hj
      exact beforeAt_self hp 0
    by_cases hs : j < a.size
    · -- through the parent, which precedes neither the root nor is preceded by the entry
      have hpar := parent_lt d (Nat.pos_of_ne_zero hj)
      exact beforeAt_not_trans hp (Nat.lt_trans hpar hs) (h j (Nat.pos_of_ne_zero hj))
        (ih _ hpar)
    · exact beforeAt_of_size_le (Nat.le_of_not_lt hs) 0

variable (prec d) in
/-- Heap order may fail only between `i` and its parent, and the children of `i` do not precede the
parent of `i`: the state while an entry moves up from `i`. -/
structure UpReady (a : Array (Entry V P)) (i : Nat) : Prop where
  ordered_except : ∀ j, 0 < j → j ≠ i → beforeAt prec a j ((j - 1) / d) = false
  below_grandparent : 0 < i → ∀ j, 0 < j → (j - 1) / d = i →
    beforeAt prec a j ((i - 1) / d) = false

variable (prec d) in
/-- Heap order may fail only between `i` and its children, and those children do not precede the
parent of `i`: the state while an entry moves down from `i`. -/
structure DownReady (a : Array (Entry V P)) (i : Nat) : Prop where
  ordered_except : ∀ j, 0 < j → (j - 1) / d ≠ i → beforeAt prec a j ((j - 1) / d) = false
  below_parent : 0 < i → ∀ j, 0 < j → (j - 1) / d = i →
    beforeAt prec a j ((i - 1) / d) = false

variable (prec d) in
def OrderedFrom (k : Nat) (a : Array (Entry V P)) : Prop :=
  ∀ j, 0 < j → k ≤ (j - 1) / d → beforeAt prec a j ((j - 1) / d) = false

variable (prec d) in
/-- `DownReady` within the part of the array from `k` on: an entry moves down from `i`, which is at
`k` or after, and only edges whose parents are at `k` or after are asked to be in order. -/
structure DownReadyFrom (k : Nat) (a : Array (Entry V P)) (i : Nat) : Prop where
  start_le : k ≤ i
  ordered_except : ∀ j, 0 < j → k ≤ (j - 1) / d → (j - 1) / d ≠ i →
    beforeAt prec a j ((j - 1) / d) = false
  below_parent : k < i → ∀ j, 0 < j → (j - 1) / d = i →
    beforeAt prec a j ((i - 1) / d) = false

section Up

variable (hp : StrictWeakOrder prec) {a : Array (Entry V P)} {i : Nat}
include hp

theorem UpReady.swap (h : UpReady prec d a i) (hi : 0 < i)
    (hb : beforeAt prec a i ((i - 1) / d) = true) :
    UpReady prec d (a.swapIfInBounds i ((i - 1) / d)) ((i - 1) / d) := by
  obtain ⟨his, hps⟩ := lt_size_of_beforeAt hb
  have hpi := parent_lt d hi
  constructor
  · intro j hj hjp
    rw [beforeAt_swap his hps]
    by_cases hji : j = i
    · -- the entry that came down sits below the one that went up
      subst hji
      rw [Equiv.swap_apply_left, Equiv.swap_apply_right]
      exact beforeAt_asymm hp hb
    by_cases hpar : (j - 1) / d = i
    · -- a child of `i` does not precede the entry that came down
      have hjgt : i < j := hpar ▸ parent_lt d hj
      rw [Equiv.swap_apply_of_ne_of_ne hji hjp, hpar, Equiv.swap_apply_left]
      exact h.below_grandparent hi j hj hpar
    by_cases hpar' : (j - 1) / d = (i - 1) / d
    · -- a sibling of `i` does not precede the entry that went up, or it would precede its parent
      rw [Equiv.swap_apply_of_ne_of_ne hji hjp, hpar', Equiv.swap_apply_right]
      cases hji' : beforeAt prec a j i
      · rfl
      · have := h.ordered_except j hj hji
        rw [hpar', beforeAt_trans hp hji' hb] at this
        cases this
    · rw [Equiv.swap_apply_of_ne_of_ne hji hjp, Equiv.swap_apply_of_ne_of_ne hpar hpar']
      exact h.ordered_except j hj hji
  · intro hp0 j hj hpar
    have hgp := parent_lt d hp0
    have hpi' : (i - 1) / d ≠ i := Nat.ne_of_lt hpi
    have hg : Equiv.swap i ((i - 1) / d) (((i - 1) / d - 1) / d) = ((i - 1) / d - 1) / d :=
      Equiv.swap_apply_of_ne_of_ne (by omega) (by omega)
    rw [beforeAt_swap his hps, hg]
    have hedge := h.ordered_except _ hp0 hpi'
    by_cases hji : j = i
    · subst hji
      rw [Equiv.swap_apply_left]
      exact hedge
    · have hjp : j ≠ (i - 1) / d := fun hjp => by
        have := parent_lt d hj
        omega
      rw [Equiv.swap_apply_of_ne_of_ne hji hjp]
      have hj' := h.ordered_except j hj hji
      rw [hpar] at hj'
      exact beforeAt_not_trans hp hps hj' hedge

omit hp in
theorem UpReady.ordered (h : UpReady prec d a i)
    (hstop : i = 0 ∨ beforeAt prec a i ((i - 1) / d) = false) : HeapOrdered prec d a := by
  intro j hj
  by_cases hji : j = i
  · subst hji
    rcases hstop with h0 | hb
    · omega
    · exact hb
  · exact h.ordered_except j hj hji

theorem siftUp_ordered (h : UpReady prec d a i) : HeapOrdered prec d (siftUp prec d a i).1 := by
  fun_induction siftUp prec d a i with
  | case1 a => exact UpReady.ordered h (.inl rfl)
  | case2 a i hi p hb r ih =>
    exact ih (UpReady.swap hp h (Nat.pos_of_ne_zero hi) hb)
  | case3 a i hi p hb => exact UpReady.ordered h (.inr (by simpa using hb))

end Up

section Down

variable (hp : StrictWeakOrder prec) {a : Array (Entry V P)} {i : Nat}
include hp

omit hp in
theorem foldl_choose_mem (l : List Nat) (b : Nat) :
    l.foldl (fun best c => if beforeAt prec a c best then c else best) b ∈ b :: l := by
  induction l generalizing b with
  | nil => exact List.mem_singleton_self b
  | cons x l ih =>
    rw [List.foldl_cons]
    by_cases hxb : beforeAt prec a x b = true
    · rw [if_pos hxb]
      rcases List.mem_cons.1 (ih x) with h | h
      · rw [h]
        exact List.mem_cons_of_mem _ List.mem_cons_self
      · exact List.mem_cons_of_mem _ (List.mem_cons_of_mem _ h)
    · rw [if_neg hxb]
      rcases List.mem_cons.1 (ih b) with h | h
      · rw [h]
        exact List.mem_cons_self
      · exact List.mem_cons_of_mem _ (List.mem_cons_of_mem _ h)

theorem foldl_choose_min (l : List Nat) (b : Nat) (hb : b < a.size)
    (hl : ∀ c ∈ l, c < a.size) :
    ∀ c ∈ b :: l,
      beforeAt prec a c (l.foldl (fun best c => if beforeAt prec a c best then c else best) b) =
        false := by
  induction l generalizing b with
  | nil =>
    intro c hc
    rw [List.mem_singleton.1 hc]
    exact beforeAt_self hp b
  | cons x l ih =>
    intro c hc
    rw [List.foldl_cons]
    have hx : x < a.size := hl x List.mem_cons_self
    have hl' : ∀ c ∈ l, c < a.size := fun c hc => hl c (List.mem_cons_of_mem x hc)
    by_cases hxb : beforeAt prec a x b = true
    · -- the scan moves to `x`; the old choice is preceded by `x`, so it cannot precede the end
      have ih' := ih x hx hl'
      simp only [hxb, if_true] at ih' ⊢
      rcases List.mem_cons.1 hc with rfl | hc
      · cases hcr : beforeAt prec a c (l.foldl _ x)
        · rfl
        · have := ih' x List.mem_cons_self
          rw [beforeAt_trans hp hxb hcr] at this
          cases this
      · exact ih' c hc
    · have hxb' : beforeAt prec a x b = false := by simpa using hxb
      have ih' := ih b hb hl'
      simp only [hxb', Bool.false_eq_true, if_false] at ih' ⊢
      rcases List.mem_cons.1 hc with rfl | hc
      · exact ih' c List.mem_cons_self
      rcases List.mem_cons.1 hc with rfl | hc
      · exact beforeAt_not_trans hp hb hxb' (ih' b List.mem_cons_self)
      · exact ih' c (List.mem_cons_of_mem b hc)

omit hp in
theorem bestChild_lt {first last : Nat} (hfirst : first < last) :
    bestChild prec a first last < last := by
  have hmem : bestChild prec a first last ∈ first :: List.range' (first + 1) (last - (first + 1)) :=
    foldl_choose_mem _ _
  rcases List.mem_cons.1 hmem with h | h
  · omega
  · rw [List.mem_range'_1] at h
    omega

theorem bestChild_spec {first last : Nat} (hfirst : first < last) (hlast : last ≤ a.size) :
    first ≤ bestChild prec a first last ∧ bestChild prec a first last < last ∧
      ∀ c, first ≤ c → c < last → beforeAt prec a c (bestChild prec a first last) = false := by
  have hrange : ∀ c, c ∈ List.range' (first + 1) (last - (first + 1)) ↔ first < c ∧ c < last := by
    intro c
    rw [List.mem_range'_1]
    omega
  have hmem : bestChild prec a first last ∈ first :: List.range' (first + 1) (last - (first + 1)) :=
    foldl_choose_mem _ _
  have hmin : ∀ c ∈ first :: List.range' (first + 1) (last - (first + 1)),
      beforeAt prec a c (bestChild prec a first last) = false :=
    foldl_choose_min hp _ first (by omega) fun c hc => by have := (hrange c).1 hc; omega
  refine ⟨?_, ?_, fun c hc hcl => hmin c ?_⟩
  · rcases List.mem_cons.1 hmem with h | h
    · omega
    · have := (hrange _).1 h
      omega
  · rcases List.mem_cons.1 hmem with h | h
    · omega
    · exact ((hrange _).1 h).2
  · rcases Nat.eq_or_lt_of_le hc with rfl | hc
    · exact List.mem_cons_self
    · exact List.mem_cons_of_mem _ ((hrange c).2 ⟨hc, hcl⟩)

theorem DownReadyFrom.swap {k : Nat} (h : DownReadyFrom prec d k a i) {b : Nat} (hb0 : 0 < b)
    (hbpar : (b - 1) / d = i) (hbest : ∀ c, 0 < c → (c - 1) / d = i → beforeAt prec a c b = false)
    (hb : beforeAt prec a b i = true) : DownReadyFrom prec d k (a.swapIfInBounds i b) b := by
  obtain ⟨hbs, his⟩ := lt_size_of_beforeAt hb
  have hib : i < b := hbpar ▸ parent_lt d hb0
  have hki := h.start_le
  refine ⟨by omega, ?_, ?_⟩
  · intro j hj hkj hjb
    rw [beforeAt_swap his hbs]
    by_cases hjb' : j = b
    · -- the entry that went down sits below the one that came up
      subst hjb'
      rw [Equiv.swap_apply_right, hbpar, Equiv.swap_apply_left]
      exact beforeAt_asymm hp hb
    by_cases hji : j = i
    · -- the entry that came up does not precede the parent of `i`
      subst hji
      have hgi := parent_lt d hj
      rw [Equiv.swap_apply_left, Equiv.swap_apply_of_ne_of_ne (by omega) (by omega)]
      exact h.below_parent (by omega) b hb0 hbpar
    rw [Equiv.swap_apply_of_ne_of_ne hji hjb']
    by_cases hpar : (j - 1) / d = i
    · -- a sibling does not precede the best child
      rw [hpar, Equiv.swap_apply_left]
      exact hbest j hj hpar
    · rw [Equiv.swap_apply_of_ne_of_ne hpar hjb]
      exact h.ordered_except j hj hkj hpar
  · intro _ j hj hjpar
    have hbj : b < j := hjpar ▸ parent_lt d hj
    rw [beforeAt_swap his hbs, hbpar, Equiv.swap_apply_left,
      Equiv.swap_apply_of_ne_of_ne (by omega) (by omega)]
    have := h.ordered_except j hj (by omega) (by omega)
    rwa [hjpar] at this

omit hp in
theorem DownReadyFrom.ordered_of_leaf {k : Nat} (h : DownReadyFrom prec d k a i) (hd : 0 < d)
    (hleaf : ¬ d * i + 1 < a.size) : OrderedFrom prec d k a := by
  intro j hj hkj
  by_cases hpar : (j - 1) / d = i
  · exact beforeAt_of_size_le (by have := ((parent_eq_iff hd hj).1 hpar).1; omega) _
  · exact h.ordered_except j hj hkj hpar

theorem DownReadyFrom.ordered_of_stop {k : Nat} (h : DownReadyFrom prec d k a i) {b : Nat}
    (hbs : b < a.size) (hbest : ∀ c, 0 < c → (c - 1) / d = i → beforeAt prec a c b = false)
    (hb : beforeAt prec a b i = false) : OrderedFrom prec d k a := by
  intro j hj hkj
  by_cases hpar : (j - 1) / d = i
  · rw [hpar]
    exact beforeAt_not_trans hp hbs (hbest j hj hpar) hb
  · exact h.ordered_except j hj hkj hpar

theorem bestChild_child (hd : 0 < d) (hfirst : d * i + 1 < a.size) :
    let b := bestChild prec a (d * i + 1) (min (d * i + 1 + d) a.size)
    0 < b ∧ b < a.size ∧ (b - 1) / d = i ∧
      ∀ c, 0 < c → (c - 1) / d = i → beforeAt prec a c b = false := by
  have hfirst' : d * i + 1 < min (d * i + 1 + d) a.size := by omega
  obtain ⟨hlo, hhi, hmin⟩ := bestChild_spec hp hfirst' (Nat.min_le_right _ _)
  refine ⟨by omega, by omega, (parent_eq_iff hd (by omega)).2 ⟨hlo, by omega⟩, fun c hc hpar => ?_⟩
  obtain ⟨hclo, hchi⟩ := (parent_eq_iff hd hc).1 hpar
  by_cases hcs : c < a.size
  · exact hmin c hclo (by omega)
  · exact beforeAt_of_size_le (Nat.le_of_not_lt hcs) _

theorem siftDown_orderedFrom {k : Nat} (hd : 0 < d) (h : DownReadyFrom prec d k a i) :
    OrderedFrom prec d k (siftDown prec d hd a i).1 := by
  fun_induction siftDown prec d hd a i with
  | case1 a i first hfirst best hb r ih =>
    obtain ⟨hb0, -, hbpar, hbest⟩ := bestChild_child hp hd hfirst
    exact ih (DownReadyFrom.swap hp h hb0 hbpar hbest hb)
  | case2 a i first hfirst best hb =>
    obtain ⟨-, hbs, -, hbest⟩ := bestChild_child hp hd hfirst
    exact DownReadyFrom.ordered_of_stop hp h hbs hbest (by simpa using hb)
  | case3 a i first hfirst => exact DownReadyFrom.ordered_of_leaf h hd hfirst

theorem siftDown_ordered (hd : 0 < d) (h : DownReady prec d a i) :
    HeapOrdered prec d (siftDown prec d hd a i).1 := by
  -- the whole array is the part from position 0 on
  have h0 : DownReadyFrom prec d 0 a i :=
    ⟨Nat.zero_le i, fun j hj _ hpar => h.ordered_except j hj hpar, h.below_parent⟩
  exact fun j hj => siftDown_orderedFrom hp hd h0 j hj (Nat.zero_le _)

end Down

section Perm

variable {α : Type}

theorem swapIfInBounds_perm (a : Array α) (i j : Nat) :
    (a.swapIfInBounds i j).toList.Perm a.toList := by
  rw [Array.swapIfInBounds_def]
  split
  · split
    · exact Array.perm_iff_toList_perm.1 (Array.swap_perm _ _)
    · exact .refl _
  · exact .refl _

theorem swapIfInBounds_self (a : Array α) (i : Nat) : a.swapIfInBounds i i = a := by
  by_cases hi : i < a.size
  · refine Array.ext_getElem? fun k => ?_
    rw [getElem?_swapIfInBounds hi hi, Equiv.swap_self, Equiv.refl_apply]
  · rw [Array.swapIfInBounds_def, dif_neg hi]

theorem siftUp_perm (a : Array (Entry V P)) (i : Nat) :
    (siftUp prec d a i).1.toList.Perm a.toList := by
  fun_induction siftUp prec d a i with
  | case1 a => exact .refl _
  | case2 a i hi p hb r ih => exact ih.trans (swapIfInBounds_perm a i p)
  | case3 a i hi p hb => exact .refl _

theorem siftDown_perm (hd : 0 < d) (a : Array (Entry V P)) (i : Nat) :
    (siftDown prec d hd a i).1.toList.Perm a.toList := by
  fun_induction siftDown prec d hd a i with
  | case1 a i first hfirst best hb r ih => exact ih.trans (swapIfInBounds_perm a i best)
  | case2 a i first hfirst best hb => exact .refl _
  | case3 a i first hfirst => exact .refl _

def lastToRoot (a : Array α) : Array α := (a.swapIfInBounds 0 (a.size - 1)).pop

theorem getElem?_lastToRoot {a : Array α} (hs : 0 < a.size) (k : Nat) :
    (lastToRoot a)[k]? = if k < a.size - 1 then a[Equiv.swap 0 (a.size - 1) k]? else none := by
  rw [lastToRoot, Array.getElem?_pop, Array.size_swapIfInBounds,
    getElem?_swapIfInBounds hs (by omega)]

theorem size_lastToRoot (a : Array α) : (lastToRoot a).size = a.size - 1 := by
  rw [lastToRoot, Array.size_pop, Array.size_swapIfInBounds]

theorem swap_pop_perm {a : Array α} {i : Nat} (hi : i < a.size) :
    a.toList.Perm (a[i] :: (a.swapIfInBounds i (a.size - 1)).pop.toList) := by
  set b := a.swapIfInBounds i (a.size - 1) with hb
  have hbs : b.size = a.size := Array.size_swapIfInBounds
  have hne : b.toList ≠ [] := by
    rw [ne_eq, Array.toList_eq_nil_iff, ← Array.size_eq_zero_iff]
    omega
  have hlast : b.toList.getLast hne = a[i] := by
    rw [List.getLast_eq_getElem]
    simp only [Array.getElem_toList, Array.length_toList, hb, Array.size_swapIfInBounds]
    exact Array.getElem_swapIfInBounds_right hi _
  have hsplit : b.toList = b.pop.toList ++ [a[i]] := by
    rw [Array.toList_pop, ← hlast, List.dropLast_concat_getLast]
  have hperm : a.toList.Perm b.toList := (swapIfInBounds_perm a i (a.size - 1)).symm
  rw [hsplit] at hperm
  exact hperm.trans (List.perm_append_singleton _ _)

theorem lastToRoot_perm {a : Array α} (hs : 0 < a.size) :
    a.toList.Perm (a[0] :: (lastToRoot a).toList) :=
  swap_pop_perm hs

end Perm

section Words

variable {a : Array (Entry V P)} {i : Nat}

theorem downStep_eq_some {b : Array (Entry V P)} {j : Nat}
    (h : downStep prec d a i = some (b, j)) :
    b = a.swapIfInBounds i j ∧ beforeAt prec a j i = true := by
  simp only [downStep] at h
  split at h
  · split at h
    · rename_i hb
      simp only [Option.some.injEq, Prod.mk.injEq] at h
      obtain ⟨rfl, rfl⟩ := h
      exact ⟨rfl, hb⟩
    · cases h
  · cases h

theorem siftDownFor_succ_of_some {b : Array (Entry V P)} {j fuel : Nat}
    (h : downStep prec d a i = some (b, j)) :
    siftDownFor prec d (fuel + 1) a i =
      ((siftDownFor prec d fuel b j).1, (i, j) :: (siftDownFor prec d fuel b j).2) := by
  simp only [siftDownFor, h]

theorem siftDownFor_succ_of_none {fuel : Nat} (h : downStep prec d a i = none) :
    siftDownFor prec d (fuel + 1) a i = (a, []) := by
  simp only [siftDownFor, h]

theorem siftDownFor_perm : ∀ (fuel : Nat) (a : Array (Entry V P)) (i : Nat),
    (siftDownFor prec d fuel a i).1.toList.Perm a.toList
  | 0, _, _ => .refl _
  | fuel + 1, a, i => by
    cases hs : downStep prec d a i with
    | none => rw [siftDownFor_succ_of_none hs]
    | some r =>
      obtain ⟨b, j⟩ := r
      rw [siftDownFor_succ_of_some hs, (downStep_eq_some hs).1]
      exact (siftDownFor_perm fuel _ j).trans (swapIfInBounds_perm a i j)

theorem siftDownWrapping_perm (a : Array (Entry V P)) (i : Nat) :
    (siftDownWrapping prec d a i).1.toList.Perm a.toList :=
  siftDownFor_perm _ a i

theorem siftDownFor_eq_siftDown (hd : 0 < d) : ∀ (fuel : Nat) (a : Array (Entry V P)) (i : Nat),
    i < a.size → a.size - i < fuel → d * a.size + 1 < wordSize →
      siftDownFor prec d fuel a i = siftDown prec d hd a i
  | 0, _, _, _, hf, _ => absurd hf (Nat.not_lt_zero _)
  | fuel + 1, a, i, hi, hf, hw => by
    have hend := children_end_le (d := d) hi
    have hid : i ≤ d * i := Nat.le_mul_of_pos_left i hd
    have hfirst : (d * i + 1) % wordSize = d * i + 1 := Nat.mod_eq_of_lt (by omega)
    have hlast : (d * i + 1 + d) % wordSize = d * i + 1 + d := Nat.mod_eq_of_lt (by omega)
    rw [siftDown]
    by_cases hc : d * i + 1 < a.size
    · by_cases hb : beforeAt prec a
          (bestChild prec a (d * i + 1) (min (d * i + 1 + d) a.size)) i = true
      · -- the entry moves to its best child, a later position of the same array
        have hs : downStep prec d a i = some
            (a.swapIfInBounds i (bestChild prec a (d * i + 1) (min (d * i + 1 + d) a.size)),
              bestChild prec a (d * i + 1) (min (d * i + 1 + d) a.size)) := by
          simp only [downStep, hfirst, hlast, hc, if_true, hb]
        have hlt : bestChild prec a (d * i + 1) (min (d * i + 1 + d) a.size) <
            min (d * i + 1 + d) a.size :=
          bestChild_lt (show d * i + 1 < min (d * i + 1 + d) a.size by omega)
        have hge := le_bestChild prec a (d * i + 1) (min (d * i + 1 + d) a.size)
        rw [siftDownFor_succ_of_some hs, siftDownFor_eq_siftDown hd fuel _ _
          (by rw [Array.size_swapIfInBounds]; omega) (by rw [Array.size_swapIfInBounds]; omega)
          (by rwa [Array.size_swapIfInBounds])]
        simp only [hc, if_true, hb]
      · have hs : downStep prec d a i = none := by
          simp only [downStep, hfirst, hlast, hc, if_true, hb, Bool.false_eq_true, if_false]
        rw [siftDownFor_succ_of_none hs]
        simp only [hc, if_true, hb, Bool.false_eq_true, if_false]
    · have hs : downStep prec d a i = none := by simp only [downStep, hfirst, hc, if_false]
      rw [siftDownFor_succ_of_none hs]
      simp only [hc, if_false]

theorem siftDownWrapping_eq_siftDown (hd : 0 < d) (hi : i < a.size)
    (hw : d * a.size + 1 < wordSize) : siftDownWrapping prec d a i = siftDown prec d hd a i := by
  apply siftDownFor_eq_siftDown hd _ a i hi _ hw
  -- as many rounds as positions are plenty: `n ≤ n ^ n * n`
  have hpow : 0 < Nat.pow a.size a.size := Nat.pow_pos (by omega)
  have : a.size ≤ Nat.pow a.size a.size * a.size := Nat.le_mul_of_pos_left _ hpow
  omega

end Words

theorem downReady_lastToRoot {a : Array (Entry V P)} (hs : 0 < a.size)
    (h : HeapOrdered prec d a) : DownReady prec d (lastToRoot a) 0 := by
  constructor
  · intro j hj hpar
    by_cases hjs : j < a.size - 1
    · -- away from the root and the last position nothing moved
      have hg := parent_lt d hj
      have hfix : ∀ k, 0 < k → k < a.size - 1 → (lastToRoot a)[k]? = a[k]? := fun k hk hks => by
        rw [getElem?_lastToRoot hs, if_pos hks, Equiv.swap_apply_of_ne_of_ne (by omega) (by omega)]
      have := h j hj
      unfold beforeAt at this ⊢
      rwa [hfix j hj hjs, hfix _ (Nat.pos_of_ne_zero hpar) (by omega)]
    · exact beforeAt_of_size_le (by rw [size_lastToRoot]; omega) _
  · intro h0
    cases h0

end Order

section Heap

variable {V P R : Type} {prec : P → P → Bool}

def elems (h : DaryHeap V P prec R) : Multiset (Entry V P) := (h.toList : Multiset _)

theorem size_eq_card (h : DaryHeap V P prec R) : h.size = Multiset.card h.elems := by
  rw [size, elems, toList, Multiset.coe_card, Array.length_toList]

def Fits (h : DaryHeap V P prec R) : Prop := h.arity * h.size + 1 < wordSize

instance (h : DaryHeap V P prec R) : Decidable h.Fits := inferInstanceAs (Decidable (_ < _))

variable {K L : Type} [Registry R K L]

/-- What every operation does to the multiset of entries. -/
structure MeetsSpec (h : DaryHeap V P prec R) : Prop where
  size : h.size = Multiset.card h.elems
  pop : PopsMinimal prec h.elems (h.pop.map fun r => (r.1, r.2.1.elems))
  /-- A peek answers what the next pop would. -/
  peek : h.peek = h.pop.map Prod.fst
  push : ∀ e, (h.push e).1.elems = e ::ₘ h.elems
  clear : h.clear.elems = 0
  copy : h.copy.elems = h.elems
  drain : Drains prec h.elems h.drain.1

variable {h : DaryHeap V P prec R}

theorem elems_eq_cons_of_perm {h' : DaryHeap V P prec R} {e : Entry V P}
    (hperm : h.toList.Perm (e :: h'.toList)) : h.elems = e ::ₘ h'.elems :=
  (Multiset.coe_eq_coe.2 hperm).trans (Multiset.cons_coe _ _).symm

theorem size_pos_iff : 0 < h.data.size ↔ h.elems ≠ 0 := by
  rw [← Multiset.card_pos, ← size_eq_card]
  rfl

theorem push_ordered (hp : StrictWeakOrder prec) (ho : HeapOrdered prec h.arity h.data)
    (e : Entry V P) : HeapOrdered prec (h.push e).1.arity (h.push e).1.data := by
  show HeapOrdered prec h.arity (siftUp prec h.arity (h.data.push e) _).1
  rw [Array.size_push, Nat.add_sub_cancel]
  apply siftUp_ordered hp
  constructor
  · intro j hj hjn
    by_cases hjs : j < h.data.size
    · rw [beforeAt_push hjs (Nat.lt_trans (parent_lt _ hj) hjs)]
      exact ho j hj
    · exact beforeAt_of_size_le (by rw [Array.size_push]; omega) _
  · intro _ j hj hpar
    exact beforeAt_of_size_le (by have := parent_lt h.arity hj; rw [Array.size_push]; omega) _

theorem elems_push (e : Entry V P) : (h.push e).1.elems = e ::ₘ h.elems := by
  apply elems_eq_cons_of_perm
  refine (siftUp_perm (h.data.push e) _).trans ?_
  rw [Array.toList_push]
  exact List.perm_append_singleton _ _

theorem size_push (e : Entry V P) : (h.push e).1.size = h.size + 1 := by
  rw [size_eq_card, elems_push, Multiset.card_cons, ← size_eq_card]

theorem pop_of_size_eq_zero (hs : h.data.size = 0) : h.pop = .error .empty := by
  rw [pop, if_pos (show h.size = 0 from hs)]

theorem size_pos_of_pop {r : Entry V P × DaryHeap V P prec R × Swaps} (hpop : h.pop = .ok r) :
    0 < h.data.size := by
  rcases Nat.eq_zero_or_pos h.data.size with hs | hs
  · rw [pop_of_size_eq_zero hs] at hpop
    cases hpop
  · exact hs

theorem pop_of_pos (hs : 0 < h.data.size) :
    ∃ sw, h.pop = .ok (h.data[0], { h with data :=
      (if 0 < (lastToRoot h.data).size then
        (siftDownWrapping prec h.arity (lastToRoot h.data) 0).1
      else lastToRoot h.data) }, sw) := by
  have hrepair : ∀ a : Array (Entry V P), repair prec h.arity a 0 =
      siftDownWrapping prec h.arity a 0 := fun a => by
    simp [repair]
  unfold pop removeAt
  simp only [size, Nat.ne_of_gt hs, if_false, hs, if_true]
  by_cases hlast : h.data.size - 1 = 0
  · -- a single entry: nothing is swapped
    have hl : lastToRoot h.data = h.data.pop := by rw [lastToRoot, hlast, swapIfInBounds_self]
    have hback : h.data.back? = some h.data[0] := by
      rw [Array.back?_eq_getElem?, hlast]
      exact Array.getElem?_eq_getElem hs
    simp only [hlast, ne_eq, not_true_eq_false, if_false, hback, hrepair, hl]
    exact ⟨_, by simp only [apply_ite Prod.fst]; rfl⟩
  · have hne : 0 ≠ h.data.size - 1 := Ne.symm hlast
    have hback : (h.data.swapIfInBounds 0 (h.data.size - 1)).back? = some h.data[0] := by
      rw [Array.back?_eq_getElem?, Array.size_swapIfInBounds,
        getElem?_swapIfInBounds hs (by omega), Equiv.swap_apply_right]
      exact Array.getElem?_eq_getElem hs
    simp only [hne, ne_eq, not_false_eq_true, if_true, hback, hrepair]
    exact ⟨_, by simp only [apply_ite Prod.fst]; rfl⟩

theorem pop_rest (hp : StrictWeakOrder prec) (ho : HeapOrdered prec h.arity h.data)
    (hw : h.Fits) (hs : 0 < h.data.size) :
    ∃ h' sw, h.pop = .ok (h.data[0], h', sw) ∧ HeapOrdered prec h'.arity h'.data ∧
      h.elems = h.data[0] ::ₘ h'.elems := by
  obtain ⟨sw, hpop⟩ := pop_of_pos hs
  refine ⟨_, sw, hpop, ?_,
    elems_eq_cons_of_perm ((lastToRoot_perm hs).trans (List.Perm.cons _ ?_))⟩
  · show HeapOrdered prec h.arity (if 0 < (lastToRoot h.data).size then _ else _)
    split
    · rename_i hl
      have hw' : h.arity * (lastToRoot h.data).size + 1 < wordSize := by
        have : h.arity * (lastToRoot h.data).size ≤ h.arity * h.size :=
          Nat.mul_le_mul_left _ (by rw [size_lastToRoot]; exact Nat.sub_le _ _)
        exact Nat.lt_of_le_of_lt (Nat.add_le_add_right this 1) hw
      rw [siftDownWrapping_eq_siftDown h.arity_pos hl hw']
      exact siftDown_ordered hp h.arity_pos (downReady_lastToRoot hs ho)
    · exact fun j _ => beforeAt_of_size_le (by omega) _
  · show (lastToRoot h.data).toList.Perm
      (Array.toList (if 0 < (lastToRoot h.data).size then _ else _))
    split
    · exact (siftDownWrapping_perm _ _).symm
    · exact .refl _

theorem root_minimal (hp : StrictWeakOrder prec) (ho : HeapOrdered prec h.arity h.data)
    (hs : 0 < h.data.size) : ∀ e ∈ h.elems, prec e.priority h.data[0].priority = false := by
  intro e he
  obtain ⟨k, hk⟩ := Array.mem_iff_getElem?.1 (Array.mem_toList_iff.1 (Multiset.mem_coe.1 he))
  have := ho.not_before_root hp k
  rwa [beforeAt, hk, Array.getElem?_eq_getElem hs] at this

theorem pop_spec (hp : StrictWeakOrder prec) (ho : HeapOrdered prec h.arity h.data)
    (hw : h.Fits) : PopsMinimal prec h.elems (h.pop.map fun r => (r.1, r.2.1.elems)) := by
  constructor
  · intro h0
    have hs : h.data.size = 0 := Nat.eq_zero_of_not_pos fun hs => size_pos_iff.1 hs h0
    rw [pop_of_size_eq_zero hs]
    rfl
  · intro h0
    have hs : 0 < h.data.size := size_pos_iff.2 h0
    obtain ⟨h', sw, hpop, -, helems⟩ := pop_rest hp ho hw hs
    exact ⟨h.data[0], h'.elems, helems, by rw [hpop]; rfl, root_minimal hp ho hs⟩

theorem peek_eq_pop : h.peek = h.pop.map Prod.fst := by
  by_cases hs : h.data.size = 0
  · rw [pop_of_size_eq_zero hs, peek, Array.getElem?_eq_none (by omega)]
    rfl
  · obtain ⟨sw, hpop⟩ := pop_of_pos (Nat.pos_of_ne_zero hs)
    rw [hpop, peek, Array.getElem?_eq_getElem (Nat.pos_of_ne_zero hs)]
    rfl

theorem pop_frame {e : Entry V P} {h' : DaryHeap V P prec R} {sw : Swaps}
    (hpop : h.pop = .ok (e, h', sw)) : h'.arity = h.arity ∧ h'.listeners = h.listeners := by
  obtain ⟨sw', hpop'⟩ := pop_of_pos (size_pos_of_pop hpop)
  rw [hpop', Except.ok.injEq, Prod.mk.injEq, Prod.mk.injEq] at hpop
  obtain ⟨-, rfl, -⟩ := hpop
  exact ⟨rfl, rfl⟩

theorem size_of_pop {e : Entry V P} {h' : DaryHeap V P prec R} {sw : Swaps}
    (hpop : h.pop = .ok (e, h', sw)) : h'.size + 1 = h.size := by
  have hs := size_pos_of_pop hpop
  obtain ⟨sw', hpop'⟩ := pop_of_pos hs
  rw [hpop', Except.ok.injEq, Prod.mk.injEq, Prod.mk.injEq] at hpop
  obtain ⟨-, rfl, -⟩ := hpop
  show Array.size (if 0 < (lastToRoot h.data).size then _ else _) + 1 = h.data.size
  have hl := size_lastToRoot h.data
  split
  · rw [← Array.length_toList, (siftDownWrapping_perm _ _).length_eq, Array.length_toList]
    omega
  · omega

theorem Fits.of_size_le {h' : DaryHeap V P prec R} (hw : h.Fits) (ha : h'.arity = h.arity)
    (hs : h'.size ≤ h.size) : h'.Fits := by
  unfold Fits at hw ⊢
  rw [ha]
  have : h.arity * h'.size ≤ h.arity * h.size := Nat.mul_le_mul_left _ hs
  omega

def FitsFor (k : Nat) (h : DaryHeap V P prec R) : Prop := h.arity * (h.size + k) + 1 < wordSize

theorem FitsFor.of_size_le {h' : DaryHeap V P prec R} {j k : Nat} (hw : h.FitsFor j)
    (ha : h'.arity = h.arity) (hs : h'.size + k ≤ h.size + j) : h'.FitsFor k := by
  unfold FitsFor at hw ⊢
  rw [ha]
  have : h.arity * (h'.size + k) ≤ h.arity * (h.size + j) := Nat.mul_le_mul_left _ hs
  omega

theorem FitsFor.fits {k : Nat} (hw : h.FitsFor k) : h.Fits := by
  unfold Fits
  have : h.arity * h.size ≤ h.arity * (h.size + k) :=
    Nat.mul_le_mul_left _ (Nat.le_add_right _ _)
  exact Nat.lt_of_le_of_lt (Nat.add_le_add_right this 1) hw

theorem popMany_drains (hp : StrictWeakOrder prec) :
    ∀ (n : Nat) (h : DaryHeap V P prec R), HeapOrdered prec h.arity h.data → h.Fits →
      Multiset.card h.elems = n → Drains prec h.elems (popMany n h).1
  | 0, h, _, _, hn => by
    rw [Multiset.card_eq_zero.1 hn]
    exact drains_zero
  | n + 1, h, ho, hw, hn => by
    have hs : 0 < h.data.size := size_pos_iff.2 fun h0 => by simp [h0] at hn
    obtain ⟨h', sw, hpop, ho', helems⟩ := pop_rest hp ho hw hs
    have hcard : Multiset.card h'.elems = n := by
      rw [helems, Multiset.card_cons] at hn
      omega
    -- what is left after a pop is smaller, so its positions fit as well
    have hw' : h'.Fits := hw.of_size_le (pop_frame hpop).1
      (by rw [size_eq_card, size_eq_card, helems, Multiset.card_cons]; omega)
    rw [popMany, hpop]
    exact Drains.cons helems (root_minimal hp ho hs) (popMany_drains hp n h' ho' hw' hcard)

theorem drain_spec (hp : StrictWeakOrder prec) (ho : HeapOrdered prec h.arity h.data)
    (hw : h.Fits) : Drains prec h.elems h.drain.1 :=
  popMany_drains hp _ h ho hw (size_eq_card h).symm

/-- The heaps that sequences of pushes, pops, clears and copies build from new heaps, where every
pop sifts in an array whose positions fit in words. -/
inductive Reachable : DaryHeap V P prec R → Prop
  | new (arity : Nat) : Reachable (new arity)
  | push {h : DaryHeap V P prec R} (e : Entry V P) : Reachable h → Reachable (h.push e).1
  | pop {h h' : DaryHeap V P prec R} {e : Entry V P} {sw : Swaps} : Reachable h → h.Fits →
      h.pop = .ok (e, h', sw) → Reachable h'
  | clear {h : DaryHeap V P prec R} : Reachable h → Reachable h.clear
  | copy {h : DaryHeap V P prec R} : Reachable h → Reachable h.copy

theorem heapOrdered_empty (d : Nat) : HeapOrdered prec d (#[] : Array (Entry V P)) :=
  fun _ _ => beforeAt_of_size_le (Nat.zero_le _) _

theorem Reachable.heapOrdered (hp : StrictWeakOrder prec) (hr : h.Reachable) :
    HeapOrdered prec h.arity h.data := by
  induction hr with
  | new arity => exact heapOrdered_empty _
  | push e _ ih => exact push_ordered hp ih e
  | @pop h h' e sw _ hw hpop ih =>
    have hs := size_pos_of_pop hpop
    obtain ⟨h'', sw', hpop', ho', -⟩ := pop_rest hp ih hw hs
    rw [hpop'] at hpop
    cases hpop
    exact ho'
  | clear _ _ => exact heapOrdered_empty _
  | copy _ ih => exact ih

theorem Reachable.meetsSpec (hp : StrictWeakOrder prec) (hr : h.Reachable) (hw : h.Fits) :
    h.MeetsSpec := by
  have ho := hr.heapOrdered hp
  exact {
    size := size_eq_card h
    pop := pop_spec hp ho hw
    peek := peek_eq_pop
    push := elems_push
    clear := Multiset.coe_nil
    copy := rfl
    drain := drain_spec hp ho hw }

theorem Reachable.listeners_eq_empty (hr : h.Reachable) : h.listeners = Registry.empty := by
  induction hr with
  | new arity => rfl
  | push e _ ih => exact ih
  | pop _ _ hpop ih => rw [(pop_frame hpop).2, ih]
  | clear _ ih => exact ih
  | copy _ => rfl

end Heap

end DaryHeap

end PriorityQueues
