import Mathlib
import PriorityQueues.Proofs.Radix

/-!
Radix heaps as monotone stable queues: pops answer least priorities, peeks answer the next pop,
and the entries of each priority (`line`) leave first in, first out.
-/

namespace PriorityQueues

theorem filter_flatten_of_unique {α : Type} {P : α → Bool} :
    ∀ (L : List (List α)) (k : Nat), (∀ j b, L[j]? = some b → j ≠ k → b.filter P = []) →
      L.flatten.filter P = (L[k]?.getD []).filter P
  | [], _, _ => rfl
  | b :: L, 0, hL => by
    have hrest := filter_flatten_of_unique L L.length fun j c hc _ => hL (j + 1) c hc (by omega)
    simp [List.filter_append, hrest]
  | b :: L, k + 1, hL => by
    have hb := hL 0 b rfl (by omega)
    have hrest := filter_flatten_of_unique L k fun j c hc hjk => hL (j + 1) c hc (by omega)
    simp [List.filter_append, hb, hrest]

theorem flatten_eq_append_set {α : Type} :
    ∀ (L : List (List α)) (i : Nat) (b : List α), (∀ j c, j < i → L[j]? = some c → c = []) →
      L[i]? = some b → L.flatten = b ++ (L.set i []).flatten
  | [], _, _, _, hb => by simp at hb
  | c :: L, 0, b, _, hb => by
    simp only [List.getElem?_cons_zero, Option.some.injEq] at hb
    simp [hb]
  | c :: L, i + 1, b, hlow, hb => by
    have hc := hlow 0 c (by omega) rfl
    simp only [List.getElem?_cons_succ] at hb
    rw [List.flatten_cons, List.set_cons_succ, List.flatten_cons, hc, List.nil_append,
      List.nil_append, flatten_eq_append_set L i b (fun j d hj hd => hlow (j + 1) d (by omega) hd) hb]

namespace RadixHeap

variable {V : Type}

section Filing

theorem getElem?_foldl_file (l : List (Entry V Nat)) (h : RadixHeap V) (j : Nat) :
    (l.foldl file h).buckets[j]? =
      (h.buckets[j]?).map (· ++ l.filter fun e => bucketOf h.baseline e.priority = j) := by
  induction l generalizing h with
  | nil => simp
  | cons e l ih =>
    rw [List.foldl_cons, ih, file_baseline, getElem?_file]
    split
    · rename_i he
      simp [he, Function.comp_def]
    · rename_i he
      simp [he]

@[simp]
theorem bucketOf_self (b : Nat) : bucketOf b b = 0 := bucketOf_eq_zero_iff.2 rfl

end Filing

def line (h : RadixHeap V) (p : Nat) : List (Entry V Nat) :=
  h.toList.filter fun e => e.priority = p

section Lines

variable {h : RadixHeap V}

theorem perm_of_filter_priority {l₁ l₂ : List (Entry V Nat)}
    (hl : ∀ p, (l₁.filter fun e => e.priority = p).Perm (l₂.filter fun e => e.priority = p)) :
    l₁.Perm l₂ := by
  classical
  rw [List.perm_iff_count]
  intro x
  have hx := (hl x.priority).count_eq x
  rwa [List.count_filter (by simp), List.count_filter (by simp)] at hx

theorem Placed.line_eq (hf : Placed h) (p : Nat) :
    h.line p = ((h.buckets[bucketOf h.baseline p]?).getD []).filter fun e => e.priority = p := by
  unfold line toList
  rw [filter_flatten_of_unique _ (bucketOf h.baseline p), Array.getElem?_toList]
  intro j b hb hj
  rw [Array.getElem?_toList] at hb
  rw [List.filter_eq_nil_iff]
  intro e he hep
  have hej := (hf.filed j b hb e he).2.2
  rw [of_decide_eq_true hep] at hej
  exact hj hej.symm

@[simp] theorem line_insert (e : Entry V Nat) (p : Nat) : (h.insert e).line p = (h.file e).line p :=
  rfl

theorem Placed.line_file (hf : Placed h) {e : Entry V Nat} (hb : h.baseline ≤ e.priority)
    (hp : e.priority < 2 ^ h.bits) (p : Nat) :
    (h.file e).line p = h.line p ++ [e].filter fun x => x.priority = p := by
  rw [(hf.file hb hp).line_eq, hf.line_eq, file_baseline, getElem?_file]
  by_cases hep : e.priority = p
  · subst hep
    have hk : bucketOf h.baseline e.priority < h.buckets.size := by
      rw [hf.size_buckets]
      exact Nat.lt_succ_of_le (bucketOf_le_bits hf.baseline_lt hp)
    simp [Array.getElem?_eq_getElem hk]
  · split <;> cases h.buckets[bucketOf h.baseline p]? <;> simp [hep]

theorem Placed.line_foldl_file (hf : Placed h) (l : List (Entry V Nat))
    (hl : ∀ e ∈ l, h.baseline ≤ e.priority ∧ e.priority < 2 ^ h.bits) (p : Nat) :
    (l.foldl RadixHeap.file h).line p = h.line p ++ l.filter fun x => x.priority = p := by
  induction l generalizing h with
  | nil => simp
  | cons e l ih =>
    obtain ⟨hb, hp⟩ := hl e List.mem_cons_self
    rw [List.foldl_cons, ih (hf.file hb hp) fun x hx => hl x (List.mem_cons_of_mem e hx),
      hf.line_file hb hp, List.append_assoc, ← List.filter_append, List.singleton_append]

theorem Placed.line_popFront (hf : Placed h) {x : Entry V Nat} {xs : List (Entry V Nat)}
    (h0 : h.buckets[0]? = some (x :: xs)) (n p : Nat) :
    h.line p = ([x].filter fun y => y.priority = p) ++
      ({ h with buckets := h.buckets.setIfInBounds 0 xs, len := n } : RadixHeap V).line p := by
  have hx : x.priority = h.baseline :=
    bucketOf_eq_zero_iff.1 (hf.filed 0 _ h0 x List.mem_cons_self).2.2
  rw [(hf.popFront h0 n).line_eq, hf.line_eq]
  simp only [Array.getElem?_setIfInBounds]
  by_cases hp : p = h.baseline
  · subst hp
    have h0' : 0 < h.buckets.size := (Array.getElem?_eq_some_iff.1 h0).1
    rw [bucketOf_self, h0]
    simp [h0', hx]
  · have hk : 0 ≠ bucketOf h.baseline p := fun hk => hp (bucketOf_eq_zero_iff.1 hk.symm)
    simp [hk, hx, Ne.symm hp]

@[simp]
theorem line_clear (h : RadixHeap V) (p : Nat) : h.clear.line p = [] := by
  simp [line, toList, clear, emptyLike]

theorem Filed.line_merge {o : RadixHeap V} (hf : Filed h) (ho : Filed o) (hbits : o.bits = h.bits)
    (p : Nat) :
    (h.merge o).line p =
      if o.baseline < h.baseline then o.line p ++ h.line p else h.line p ++ o.line p := by
  unfold RadixHeap.merge
  -- inserting files and counts, and lines do not read the count
  split
  · rename_i hlt
    rw [RadixHeap.foldl_insert]
    refine (ho.line_foldl_file _ (fun e he => ?_) p).trans rfl
    obtain ⟨hb, hp⟩ := hf.bounds_of_mem he
    exact ⟨by omega, hbits ▸ hp⟩
  · rename_i hge
    rw [RadixHeap.foldl_insert]
    refine (hf.line_foldl_file _ (fun e he => ?_) p).trans rfl
    obtain ⟨hb, hp⟩ := ho.bounds_of_mem he
    exact ⟨by omega, hbits.symm ▸ hp⟩

theorem merge_baseline (h o : RadixHeap V) : (h.merge o).baseline = min h.baseline o.baseline := by
  unfold merge
  split <;> rw [RadixHeap.foldl_insert] <;> dsimp only <;> rw [foldl_file_baseline] <;> omega

end Lines

section Redistribution

variable {h : RadixHeap V}

theorem Filed.eq_nil_of_size_eq_zero (hf : Filed h) (hs : h.size = 0) {j : Nat}
    {b : List (Entry V Nat)} (hb : h.buckets[j]? = some b) : b = [] := by
  rw [hf.size_eq_length, List.length_eq_zero_iff] at hs
  rw [List.eq_nil_iff_forall_not_mem]
  intro x hx
  have hmem : x ∈ h.toList := mem_toList.2 ⟨j, b, hb, hx⟩
  rw [hs] at hmem
  cases hmem

theorem Filed.firstFilled_of_size_eq_zero (hf : Filed h) (hs : h.size = 0) :
    h.firstFilled = none := by
  cases hff : h.firstFilled with
  | none => rfl
  | some r =>
    obtain ⟨i, l⟩ := r
    obtain ⟨-, -, hb, hne, -⟩ := firstFilled_spec hff
    exact absurd (hf.eq_nil_of_size_eq_zero hs hb) hne

theorem Filed.firstFilled_of_pos (hf : Filed h) (hpos : 0 < h.size)
    (h0 : h.buckets[0]? = some []) : ∃ i e es, h.firstFilled = some (i, e :: es) := by
  obtain ⟨x, hx⟩ := List.exists_mem_of_length_pos (hf.size_eq_length ▸ hpos)
  obtain ⟨j, b, hb, hxb⟩ := mem_toList.1 hx
  have hj0 : j ≠ 0 := by
    rintro rfl
    rw [h0, Option.some.injEq] at hb
    subst hb
    cases hxb
  have hjb : j ≤ h.bits := by
    have := (Array.getElem?_eq_some_iff.1 hb).1
    rw [hf.size_buckets] at this
    omega
  cases hff : h.firstFilled with
  | some r =>
    obtain ⟨i, l⟩ := r
    obtain ⟨-, -, -, hl, -⟩ := firstFilled_spec hff
    obtain ⟨e, es, rfl⟩ := List.exists_cons_of_ne_nil hl
    exact ⟨i, e, es, rfl⟩
  | none =>
    -- the search passes bucket `j`, which holds `x`
    unfold firstFilled at hff
    have hj := List.findSome?_eq_none_iff.1 hff j
      (List.mem_map.2 ⟨j - 1, List.mem_range.2 (by omega), by omega⟩)
    rw [hb] at hj
    cases b with
    | nil => cases hxb
    | cons y ys => cases hj

theorem rebalance_eq_ok {h' : RadixHeap V} (hr : h.rebalance = .ok h') :
    ∃ i e es, (h.buckets[0]?.getD []) = [] ∧ h.firstFilled = some (i, e :: es) ∧
      h' = (e :: es).foldl RadixHeap.file
        { h with buckets := h.buckets.setIfInBounds i [], baseline := leastPriority e es } := by
  unfold rebalance at hr
  split at hr
  · cases hr
  split at hr
  · cases hr
  rename_i h0
  split at hr
  · rename_i i e es hff
    cases hr
    exact ⟨i, e, es, by simpa using h0, hff, rfl⟩
  · cases hr

theorem rebalance_of_firstFilled {i : Nat} {e : Entry V Nat} {es : List (Entry V Nat)}
    (hs : h.size ≠ 0) (h0 : h.buckets[0]? = some []) (hff : h.firstFilled = some (i, e :: es)) :
    h.rebalance = .ok ((e :: es).foldl RadixHeap.file
      { h with buckets := h.buckets.setIfInBounds i [], baseline := leastPriority e es }) := by
  simp [rebalance, hs, h0, hff]

theorem getElem?_zero_rebalanced {i : Nat} (e : Entry V Nat) (es : List (Entry V Nat))
    (h0 : h.buckets[0]? = some []) (hi : 0 < i) :
    ((e :: es).foldl RadixHeap.file
      { h with buckets := h.buckets.setIfInBounds i [], baseline := leastPriority e es }).buckets[0]? =
      some ((e :: es).filter fun x => x.priority = leastPriority e es) := by
  rw [getElem?_foldl_file]
  simp [Nat.ne_of_gt hi, h0]

theorem Filed.priority_ne_of_mem_cleared (hf : Filed h) {i : Nat} {c : List (Entry V Nat)}
    (hc : h.buckets[i]? = some c) {x z : Entry V Nat} (hx : x ∈ c) (b : Nat)
    (hz : z ∈ ({ h with buckets := h.buckets.setIfInBounds i [], baseline := b } :
      RadixHeap V).toList) :
    z.priority ≠ x.priority := by
  obtain ⟨j, d, hd, hzd⟩ := mem_toList.1 hz
  simp only [Array.getElem?_setIfInBounds] at hd
  split at hd
  · -- bucket `i` itself is empty now
    split at hd
    · cases hd
      cases hzd
    · cases hd
  · rename_i hij
    intro hzx
    have hzj := (hf.filed j d hd z hzd).2.2
    have hxi := (hf.filed i c hc x hx).2.2
    rw [hzx] at hzj
    exact hij (hxi.symm.trans hzj)

theorem Filed.line_rebalance {h' : RadixHeap V} (hf : Filed h) (hr : h.rebalance = .ok h')
    (p : Nat) : h'.line p = h.line p := by
  obtain ⟨i, e, es, h0, hff, rfl⟩ := rebalance_eq_ok hr
  obtain ⟨hi0, -, hbi, -, hempty⟩ := firstFilled_spec hff
  set cleared : RadixHeap V :=
    { h with buckets := h.buckets.setIfInBounds i [], baseline := leastPriority e es }
  have hsrc := hf.filed i _ hbi
  obtain ⟨y, hy, hym⟩ := leastPriority_mem e es
  obtain ⟨-, hyw, hyb⟩ := hsrc y hy
  rw [hym] at hyw hyb
  have hlow : ∀ j c, j < i → h.buckets[j]? = some c → c = [] := fun j c hj hc => by
    rcases Nat.eq_zero_or_pos j with rfl | hj0
    · simpa [hc] using h0
    · exact hempty j c hj0 hj hc
  have hcl : Placed cleared := hf.rebase hyb hyw hlow
  have hsplit : h.toList = (e :: es) ++ cleared.toList := by
    unfold toList
    rw [Array.toList_setIfInBounds]
    refine flatten_eq_append_set _ i _ (fun j c hj hc => hlow j c hj ?_) ?_
    · rwa [Array.getElem?_toList] at hc
    · rwa [Array.getElem?_toList]
  rw [hcl.line_foldl_file _ fun x hx => ⟨leastPriority_le e es x hx, (hsrc x hx).2.1⟩]
  simp only [line, hsplit, List.filter_append]
  -- the entries of priority `p` lie in the source bucket or in a later one, never in both
  by_cases hL : ((e :: es).filter fun x => x.priority = p) = []
  · rw [hL, List.append_nil, List.nil_append]
  · have hc : (cleared.toList.filter fun x => x.priority = p) = [] := by
      obtain ⟨x, hx⟩ := List.exists_mem_of_ne_nil _ hL
      obtain ⟨hx, hxp⟩ := List.mem_filter.1 hx
      rw [List.filter_eq_nil_iff]
      intro z hz hzp
      exact hf.priority_ne_of_mem_cleared hbi hx _ hz
        ((of_decide_eq_true hzp).trans (of_decide_eq_true hxp).symm)
    rw [hc, List.append_nil, List.nil_append]

theorem Filed.baseline_le_rebalance {h' : RadixHeap V} (hf : Filed h)
    (hr : h.rebalance = .ok h') : h.baseline ≤ h'.baseline := by
  obtain ⟨i, e, es, hff, hbase, -⟩ := hf.rebalance hr
  obtain ⟨-, -, hbi, -, -⟩ := firstFilled_spec hff
  obtain ⟨y, hy, hym⟩ := leastPriority_mem e es
  rw [hbase, ← hym]
  exact (hf.filed i _ hbi y hy).1

end Redistribution

section Least

theorem leastPriority_cons (e x : Entry V Nat) (xs : List (Entry V Nat)) :
    leastPriority e (x :: xs) = leastPriority (if x.priority < e.priority then x else e) xs := by
  unfold leastPriority
  rw [List.foldl_cons]
  congr 1
  split <;> omega

theorem firstLeast_cons (e x : Entry V Nat) (xs : List (Entry V Nat)) :
    firstLeast e (x :: xs) = firstLeast (if x.priority < e.priority then x else e) xs := rfl

theorem head?_filter_leastPriority (e : Entry V Nat) (es : List (Entry V Nat)) :
    ((e :: es).filter fun y => y.priority = leastPriority e es).head? = some (firstLeast e es) := by
  induction es generalizing e with
  | nil => simp [leastPriority, firstLeast]
  | cons x xs ih =>
    rw [leastPriority_cons, firstLeast_cons, ← ih]
    split
    · -- `x` takes over, and `e` lies above the least priority
      rename_i hxe
      have he : ¬e.priority = leastPriority x xs := by
        have := leastPriority_le x xs x List.mem_cons_self
        omega
      simp [List.filter_cons, he]
    · rename_i hxe
      by_cases he : e.priority = leastPriority e xs
      · simp [List.filter_cons, he]
      · -- neither `e` nor `x` has the least priority
        have hx : ¬x.priority = leastPriority e xs := by
          have := leastPriority_le e xs e List.mem_cons_self
          omega
        simp [he, hx]

theorem firstLeast_spec (e : Entry V Nat) (es : List (Entry V Nat)) :
    firstLeast e es ∈ e :: es ∧ (∀ y ∈ e :: es, (firstLeast e es).priority ≤ y.priority) ∧
      (firstLeast e es).priority = leastPriority e es := by
  have hhead := head?_filter_leastPriority e es
  have hmem := List.mem_of_mem_head? hhead
  obtain ⟨hmem, hp⟩ := List.mem_filter.1 hmem
  have hp := of_decide_eq_true hp
  exact ⟨hmem, fun y hy => hp ▸ leastPriority_le e es y hy, hp⟩

end Least

section Pop

variable {h : RadixHeap V}

theorem pop_of_getElem?_zero {x : Entry V Nat} {xs : List (Entry V Nat)}
    (h0 : h.buckets[0]? = some (x :: xs)) :
    h.pop = .ok (x, { h with buckets := h.buckets.setIfInBounds 0 xs, len := h.len - 1 }) := by
  simp [pop, h0, bind, Except.bind, pure, Except.pure]

theorem pop_of_rebalance {h₁ : RadixHeap V} {x : Entry V Nat} {xs : List (Entry V Nat)}
    (h0 : h.buckets[0]? = some []) (hr : h.rebalance = .ok h₁)
    (h10 : h₁.buckets[0]? = some (x :: xs)) :
    h.pop = .ok (x, { h₁ with buckets := h₁.buckets.setIfInBounds 0 xs, len := h₁.len - 1 }) := by
  simp [pop, h0, hr, h10, bind, Except.bind, pure, Except.pure]

theorem pop_of_firstFilled {i : Nat} {e : Entry V Nat} {es : List (Entry V Nat)}
    (hs : h.size ≠ 0) (h0 : h.buckets[0]? = some []) (hff : h.firstFilled = some (i, e :: es)) :
    ∃ h', h.pop = .ok (firstLeast e es, h') := by
  obtain ⟨t, ht⟩ := List.head?_eq_some_iff.1 (head?_filter_leastPriority e es)
  have h10 := getElem?_zero_rebalanced e es h0 (firstFilled_spec hff).1
  rw [ht] at h10
  exact ⟨_, pop_of_rebalance h0 (rebalance_of_firstFilled hs h0 hff) h10⟩

theorem Filed.pop_of_size_eq_zero (hf : Filed h) (hs : h.size = 0) : h.pop = .error .empty := by
  have h0 : (h.buckets[0]?.getD []).isEmpty = true := by
    cases hb : h.buckets[0]? with
    | none => rfl
    | some b => simp [hf.eq_nil_of_size_eq_zero hs hb]
  unfold RadixHeap.pop
  simp only [h0, if_true]
  unfold RadixHeap.rebalance
  simp only [hs]
  rfl

theorem Filed.pop_isOk (hf : Filed h) (hpos : 0 < h.size) : ∃ x h', h.pop = .ok (x, h') := by
  have hb0 : 0 < h.buckets.size := by
    rw [hf.size_buckets]
    omega
  cases hb : h.buckets[0] with
  | cons x xs => exact ⟨x, _, pop_of_getElem?_zero (by rw [Array.getElem?_eq_getElem hb0, hb])⟩
  | nil =>
    have h0 : h.buckets[0]? = some [] := by rw [Array.getElem?_eq_getElem hb0, hb]
    obtain ⟨i, e, es, hff⟩ := hf.firstFilled_of_pos hpos h0
    obtain ⟨h', hp⟩ := pop_of_firstFilled (Nat.pos_iff_ne_zero.1 hpos) h0 hff
    exact ⟨_, h', hp⟩

theorem Filed.pop_eq_error_iff (hf : Filed h) {err : HeapError} :
    h.pop = .error err ↔ h.size = 0 ∧ err = .empty := by
  constructor
  · intro hp
    have hs : h.size = 0 := by
      by_contra hs
      obtain ⟨x, h', hx⟩ := hf.pop_isOk (Nat.pos_of_ne_zero hs)
      rw [hx] at hp
      cases hp
    rw [hf.pop_of_size_eq_zero hs] at hp
    cases hp
    exact ⟨hs, rfl⟩
  · rintro ⟨hs, rfl⟩
    exact hf.pop_of_size_eq_zero hs

theorem Filed.pop_spec (hf : Filed h) {x : Entry V Nat} {h' : RadixHeap V}
    (hp : h.pop = .ok (x, h')) :
    h.baseline ≤ x.priority ∧ (∀ y ∈ h.toList, x.priority ≤ y.priority) ∧
      h'.baseline = x.priority ∧ Filed h' ∧
      ∀ p, h.line p = ([x].filter fun y => y.priority = p) ++ h'.line p := by
  obtain ⟨h₁, xs, hh₁, h0, rfl⟩ := pop_eq_ok hp
  -- the heap the front is taken from: `h` itself, or its redistribution
  have hf₁ : Filed h₁ ∧ h.baseline ≤ h₁.baseline ∧ ∀ p, h₁.line p = h.line p := by
    rcases hh₁ with rfl | hr
    · exact ⟨hf, le_refl _, fun _ => rfl⟩
    · obtain ⟨-, -, -, -, -, -, hf₁, -⟩ := hf.rebalance hr
      exact ⟨hf₁, hf.baseline_le_rebalance hr, hf.line_rebalance hr⟩
  obtain ⟨hf₁, hb₁, hl₁⟩ := hf₁
  have hx : x.priority = h₁.baseline :=
    bucketOf_eq_zero_iff.1 (hf₁.filed 0 _ h0 x List.mem_cons_self).2.2
  have hperm : h.toList.Perm h₁.toList :=
    perm_of_filter_priority fun p => List.Perm.of_eq (hl₁ p).symm
  refine ⟨hx ▸ hb₁, fun y hy => hx ▸ (hf₁.bounds_of_mem (hperm.mem_iff.1 hy)).1, hx.symm,
    hf₁.popFront h0, fun p => ?_⟩
  rw [← hl₁ p]
  exact hf₁.line_popFront h0 _ p

theorem Filed.toList_perm_of_pop (hf : Filed h) {x : Entry V Nat} {h' : RadixHeap V}
    (hp : h.pop = .ok (x, h')) : h.toList.Perm (x :: h'.toList) := by
  obtain ⟨-, -, -, -, hl⟩ := hf.pop_spec hp
  refine perm_of_filter_priority fun p => List.Perm.of_eq ?_
  rw [← List.singleton_append, List.filter_append]
  exact hl p

end Pop

section Peek

variable {h : RadixHeap V}

theorem peek_of_getElem?_zero {x : Entry V Nat} {xs : List (Entry V Nat)}
    (h0 : h.buckets[0]? = some (x :: xs)) : h.peek = .ok x := by
  simp [peek, h0]

theorem peek_of_firstFilled {i : Nat} {e : Entry V Nat} {es : List (Entry V Nat)}
    (h0 : h.buckets[0]? = some []) (hff : h.firstFilled = some (i, e :: es)) :
    h.peek = .ok (firstLeast e es) := by
  simp [peek, h0, hff]

theorem Filed.peek_of_size_eq_zero (hf : Filed h) (hs : h.size = 0) : h.peek = .error .empty := by
  have hff := hf.firstFilled_of_size_eq_zero hs
  cases hb : h.buckets[0]? with
  | none => simp [peek, hb, hff]
  | some b => simp [peek, hb, hff, hf.eq_nil_of_size_eq_zero hs hb]

theorem Filed.peek_eq_pop (hf : Filed h) (hpos : 0 < h.size) :
    ∃ x h', h.peek = .ok x ∧ h.pop = .ok (x, h') := by
  have hb0 : 0 < h.buckets.size := by
    rw [hf.size_buckets]
    omega
  cases hb : h.buckets[0] with
  | cons x xs =>
    have h0 : h.buckets[0]? = some (x :: xs) := by rw [Array.getElem?_eq_getElem hb0, hb]
    exact ⟨x, _, peek_of_getElem?_zero h0, pop_of_getElem?_zero h0⟩
  | nil =>
    have h0 : h.buckets[0]? = some [] := by rw [Array.getElem?_eq_getElem hb0, hb]
    obtain ⟨i, e, es, hff⟩ := hf.firstFilled_of_pos hpos h0
    obtain ⟨h', hp⟩ := pop_of_firstFilled (Nat.pos_iff_ne_zero.1 hpos) h0 hff
    exact ⟨_, h', peek_of_firstFilled h0 hff, hp⟩

theorem Filed.peek_eq_error_iff (hf : Filed h) {err : HeapError} :
    h.peek = .error err ↔ h.size = 0 ∧ err = .empty := by
  constructor
  · intro hp
    have hs : h.size = 0 := by
      by_contra hs
      obtain ⟨x, h', hx, -⟩ := hf.peek_eq_pop (Nat.pos_of_ne_zero hs)
      rw [hx] at hp
      cases hp
    rw [hf.peek_of_size_eq_zero hs] at hp
    cases hp
    exact ⟨hs, rfl⟩
  · rintro ⟨hs, rfl⟩
    exact hf.peek_of_size_eq_zero hs

end Peek

section Push

variable {h : RadixHeap V} {e : Entry V Nat}

theorem push_eq_ok_iff {h' : RadixHeap V} :
    h.push e = .ok h' ↔ h.baseline ≤ e.priority ∧ h' = h.insert e := by
  unfold push
  split
  · simp only [reduceCtorEq, false_iff, not_and]
    omega
  · simp only [Except.ok.injEq]
    constructor
    · rintro rfl
      exact ⟨by omega, rfl⟩
    · rintro ⟨-, rfl⟩
      rfl

theorem push_eq_error_iff {err : HeapError} :
    h.push e = .error err ↔ e.priority < h.baseline ∧ err = .belowBaseline := by
  unfold push
  split
  · simp only [Except.error.injEq]
    constructor
    · rintro rfl
      exact ⟨by omega, rfl⟩
    · rintro ⟨-, rfl⟩
      rfl
  · simp only [reduceCtorEq, false_iff, not_and]
    omega

end Push

theorem Filed.toList_perm_merge {h o : RadixHeap V} (hf : Filed h) (ho : Filed o)
    (hbits : o.bits = h.bits) : (h.merge o).toList.Perm (h.toList ++ o.toList) := by
  refine perm_of_filter_priority fun p => ?_
  have hl := hf.line_merge ho hbits p
  unfold line at hl
  rw [hl, List.filter_append]
  split
  · exact List.perm_append_comm
  · exact List.Perm.refl _

section Runs

/-- What one operation of a run on a radix heap does, melds apart: take in an entry, hand one out,
redistribute, or drop every entry. -/
inductive Event (V : Type) where
  | push (e : Entry V Nat)
  | pop (e : Entry V Nat)
  | rebalance
  | clear

def Event.pushed : Event V → List (Entry V Nat)
  | .push e => [e]
  | _ => []

def Event.popped : Event V → List (Entry V Nat)
  | .pop e => [e]
  | _ => []

/-- One successful operation of a run, melds apart, labelled by its event. -/
inductive Step : RadixHeap V → Event V → RadixHeap V → Prop
  | push {h h' : RadixHeap V} {e : Entry V Nat} :
      e.priority < 2 ^ h.bits → h.push e = .ok h' → Step h (.push e) h'
  | pop {h h' : RadixHeap V} {e : Entry V Nat} : h.pop = .ok (e, h') → Step h (.pop e) h'
  | rebalance {h h' : RadixHeap V} : h.rebalance = .ok h' → Step h .rebalance h'
  | clear (h : RadixHeap V) : Step h .clear h.clear

/-- A run of operations with no meld. -/
inductive Run : RadixHeap V → List (Event V) → RadixHeap V → Prop
  | nil (h : RadixHeap V) : Run h [] h
  | cons {h h₁ h₂ : RadixHeap V} {ev : Event V} {evs : List (Event V)} :
      Step h ev h₁ → Run h₁ evs h₂ → Run h (ev :: evs) h₂

variable {h h' : RadixHeap V} {ev : Event V} {evs : List (Event V)}

theorem Step.filed (hs : Step h ev h') (hf : Filed h) : Filed h' := by
  cases hs with
  | push hp hpush => exact hf.push hp hpush
  | pop hpop => exact hf.pop hpop
  | rebalance hr =>
    obtain ⟨-, -, -, -, -, -, hf', -⟩ := hf.rebalance hr
    exact hf'
  | clear => exact hf.emptyLike

theorem Step.baseline_le (hs : Step h ev h') (hf : Filed h) :
    h.baseline ≤ h'.baseline ∧ ∀ x ∈ ev.popped, x.priority = h'.baseline := by
  cases hs with
  | push _ hpush =>
    obtain ⟨-, rfl⟩ := push_eq_ok_iff.1 hpush
    exact ⟨le_refl _, by simp [Event.popped]⟩
  | pop hpop =>
    obtain ⟨hb, -, hx, -⟩ := hf.pop_spec hpop
    exact ⟨hx ▸ hb, by simp [Event.popped, hx]⟩
  | rebalance hr => exact ⟨hf.baseline_le_rebalance hr, by simp [Event.popped]⟩
  | clear => exact ⟨le_refl _, by simp [Event.popped]⟩

theorem Step.line (hs : Step h ev h') (hf : Filed h) (hc : ev ≠ .clear) (p : Nat) :
    h.line p ++ (ev.pushed.filter fun x => x.priority = p) =
      (ev.popped.filter fun x => x.priority = p) ++ h'.line p := by
  cases hs with
  | push hp hpush =>
    obtain ⟨hb, rfl⟩ := push_eq_ok_iff.1 hpush
    simp [Event.pushed, Event.popped, hf.line_file hb hp]
  | pop hpop =>
    obtain ⟨-, -, -, -, hl⟩ := hf.pop_spec hpop
    simp [Event.pushed, Event.popped, hl p]
  | rebalance hr => simp [Event.pushed, Event.popped, hf.line_rebalance hr]
  | clear => exact absurd rfl hc

theorem Run.filed (hr : Run h evs h') (hf : Filed h) : Filed h' := by
  induction hr with
  | nil => exact hf
  | cons hs _ ih => exact ih (hs.filed hf)

theorem Run.popped_sorted (hr : Run h evs h') (hf : Filed h) :
    (evs.flatMap Event.popped).Pairwise (fun x y => x.priority ≤ y.priority) ∧
      ∀ x ∈ evs.flatMap Event.popped, h.baseline ≤ x.priority := by
  induction hr with
  | nil => simp
  | @cons h₀ h₁ h₂ ev evs hs _ ih =>
    obtain ⟨hsorted, hge⟩ := ih (hs.filed hf)
    obtain ⟨hb, hx⟩ := hs.baseline_le hf
    rw [List.flatMap_cons, List.pairwise_append]
    refine ⟨⟨?_, hsorted, fun x hx' y hy => (hx x hx').trans_le (hge y hy)⟩, fun x hx' => ?_⟩
    · -- an event pops at most one entry
      cases ev <;> simp [Event.popped]
    · rcases List.mem_append.1 hx' with hx' | hx'
      · exact hb.trans_eq (hx x hx').symm
      · exact hb.trans (hge x hx')

theorem Run.lines_eq (hr : Run h evs h') (hf : Filed h) (hc : ∀ ev ∈ evs, ev ≠ .clear)
    (p : Nat) :
    h.line p ++ ((evs.flatMap Event.pushed).filter fun x => x.priority = p) =
      ((evs.flatMap Event.popped).filter fun x => x.priority = p) ++ h'.line p := by
  induction hr with
  | nil => simp
  | @cons h₀ h₁ h₂ ev evs hs _ ih =>
    have hrest := ih (hs.filed hf) fun e he => hc e (List.mem_cons_of_mem ev he)
    simp only [List.flatMap_cons, List.filter_append, List.append_assoc]
    rw [← List.append_assoc (h₀.line p), hs.line hf (hc ev List.mem_cons_self) p,
      List.append_assoc, hrest]

theorem Run.lines_sublist (hr : Run h evs h') (hf : Filed h) (p : Nat) :
    (((evs.flatMap Event.popped).filter fun x => x.priority = p) ++ h'.line p).Sublist
      (h.line p ++ ((evs.flatMap Event.pushed).filter fun x => x.priority = p)) := by
  induction hr with
  | nil => simp
  | @cons h₀ h₁ h₂ ev evs hs _ ih =>
    have hrest := ih (hs.filed hf)
    simp only [List.flatMap_cons, List.filter_append, List.append_assoc]
    by_cases hc : ev = .clear
    · subst hc
      cases hs
      rw [line_clear, List.nil_append] at hrest
      simpa [Event.pushed, Event.popped] using hrest.trans (List.sublist_append_right _ _)
    · rw [← List.append_assoc (h₀.line p), hs.line hf hc p, List.append_assoc]
      exact hrest.append_left _

end Runs

/-- Pops answer least priorities and never decrease between melds. -/
theorem radix_pops_least_and_never_decrease {V : Type} {h o : RadixHeap V} (hr : h.Reachable)
    (ho : o.Reachable) (hbits : o.bits = h.bits) :
    (∀ err, h.pop = .error err ↔ h.size = 0 ∧ err = .empty) ∧
    (0 < h.size → ∃ x h', h.pop = .ok (x, h') ∧ h.toList.Perm (x :: h'.toList) ∧
      (∀ y ∈ h.toList, x.priority ≤ y.priority) ∧ h'.baseline = x.priority) ∧
    (∀ e : Entry V Nat, (∃ h', h.push e = .ok h') ↔ h.baseline ≤ e.priority) ∧
    (∀ evs h', Run h evs h' →
      (evs.flatMap Event.popped).Pairwise fun x y => x.priority ≤ y.priority) ∧
    (h.merge o).baseline = min h.baseline o.baseline ∧
      (h.merge o).toList.Perm (h.toList ++ o.toList) := by
  have hf := hr.filed
  refine ⟨fun _ => hf.pop_eq_error_iff, fun hpos => ?_, fun e => ?_,
    fun _ _ hrun => (hrun.popped_sorted hf).1, merge_baseline h o,
    hf.toList_perm_merge ho.filed hbits⟩
  · obtain ⟨x, h', hp⟩ := hf.pop_isOk hpos
    obtain ⟨-, hmin, hbase, -⟩ := hf.pop_spec hp
    exact ⟨x, h', hp, hf.toList_perm_of_pop hp, hmin, hbase⟩
  · constructor
    · rintro ⟨h', hp⟩
      exact (push_eq_ok_iff.1 hp).1
    · intro hb
      exact ⟨_, push_eq_ok_iff.2 ⟨hb, rfl⟩⟩

theorem radix_pops_least_then_meld_lowers_baseline :
    let h : RadixHeap String := (((new 8).insert ⟨"a", 5⟩).insert ⟨"b", 3⟩).insert ⟨"c", 3⟩
    let o : RadixHeap String := (new 8).insert ⟨"d", 1⟩
    h.Reachable ∧ o.Reachable ∧
      ∃ x h', h.pop = .ok (x, h') ∧ x.priority = 3 ∧ h'.baseline = 3 ∧ (h'.merge o).baseline = 0 := by
  intro h o
  have hr : h.Reachable := .push (.push (.push (.new 8) (by decide) rfl) (by decide) rfl) (by decide) rfl
  have hro : o.Reachable := .push (.new 8) (by decide) rfl
  obtain ⟨-, hpop, -⟩ := radix_pops_least_and_never_decrease hr hr rfl
  obtain ⟨x, h', hp, hperm, hmin, hbase⟩ := hpop (by decide)
  have hx : x.priority = 3 := by
    have hle : x.priority ≤ 3 := hmin ⟨"b", 3⟩ (by decide)
    have hge : ∀ y ∈ h.toList, 3 ≤ y.priority := by decide
    have := hge x (hperm.mem_iff.2 List.mem_cons_self)
    omega
  have hr' : h'.Reachable := .pop hr hp
  obtain ⟨-, -, -, -, hmerge, -⟩ :=
    radix_pops_least_and_never_decrease hr' hro (by rw [hr.filed.bits_of_pop hp]; rfl)
  exact ⟨hr, hro, x, h', hp, hx, hx ▸ hbase, by rw [hmerge, hbase, hx]; rfl⟩

/-- A peek answers the entry the next pop takes. -/
theorem radix_peek_answers_next_pop {V : Type} {h : RadixHeap V} (hr : h.Reachable)
    (hpos : 0 < h.size) :
    (∃ x h', h.peek = .ok x ∧ h.pop = .ok (x, h')) ∧
    (h.buckets[0]? = some [] →
      ∃ i e es, 0 < i ∧ h.buckets[i]? = some (e :: es) ∧
        (∀ j c, j < i → h.buckets[j]? = some c → c = []) ∧
        ∃ x h₁, h.peek = .ok x ∧ x ∈ e :: es ∧ (∀ y ∈ e :: es, x.priority ≤ y.priority) ∧
          ((e :: es).filter fun y => y.priority = x.priority).head? = some x ∧
          h.rebalance = .ok h₁ ∧
          h₁.buckets[0]? = some ((e :: es).filter fun y => y.priority = x.priority)) := by
  have hf := hr.filed
  refine ⟨hf.peek_eq_pop hpos, fun h0 => ?_⟩
  obtain ⟨i, e, es, hff⟩ := hf.firstFilled_of_pos hpos h0
  obtain ⟨hi, -, hbi, -, hempty⟩ := firstFilled_spec hff
  obtain ⟨hmem, hmin, hleast⟩ := firstLeast_spec e es
  refine ⟨i, e, es, hi, hbi, fun j c hj hc => ?_, firstLeast e es, _, peek_of_firstFilled h0 hff,
    hmem, hmin, ?_, rebalance_of_firstFilled (Nat.pos_iff_ne_zero.1 hpos) h0 hff, ?_⟩
  · rcases Nat.eq_zero_or_pos j with rfl | hj0
    · rw [h0, Option.some.injEq] at hc
      exact hc.symm
    · exact hempty j c hj0 hj hc
  · rw [hleast]
    exact head?_filter_leastPriority e es
  · rw [hleast]
    exact getElem?_zero_rebalanced e es h0 hi

theorem radix_peek_answers_next_pop_of_tied_entries :
    let h : RadixHeap String := (((new 8).insert ⟨"a", 5⟩).insert ⟨"b", 3⟩).insert ⟨"c", 3⟩
    h.Reachable ∧ 0 < h.size ∧ h.buckets[0]? = some [] ∧
      (∃ x h', h.peek = .ok x ∧ h.pop = .ok (x, h')) ∧
      ∃ x h₁, h.peek = .ok x ∧ h.rebalance = .ok h₁ ∧
        h₁.buckets[0]? = some ([⟨"b", 3⟩, ⟨"c", 3⟩].filter fun y => y.priority = x.priority) := by
  intro h
  have hr : h.Reachable := .push (.push (.push (.new 8) (by decide) rfl) (by decide) rfl) (by decide) rfl
  have h0 : h.buckets[0]? = some [] := by decide
  obtain ⟨hnext, hlow⟩ := radix_peek_answers_next_pop hr (by decide)
  obtain ⟨i, e, es, hi0, hbi, hbefore, x, h₁, hx, -, -, -, hreb, hb0⟩ := hlow h0
  have h1 : h.buckets[1]? = some [] := by decide
  have h2 : h.buckets[2]? = some [⟨"b", 3⟩, ⟨"c", 3⟩] := by decide
  -- bucket 2 is the first filled one, so it is the one redistributed
  have hi : i = 2 := by
    rcases Nat.lt_trichotomy i 2 with hlt | rfl | hgt
    · obtain rfl : i = 1 := by omega
      rw [h1] at hbi
      cases hbi
    · rfl
    · exact absurd (hbefore 2 _ hgt h2) (by simp)
  subst hi
  have hes : e :: es = [⟨"b", 3⟩, ⟨"c", 3⟩] := by
    rw [h2] at hbi
    exact (Option.some.inj hbi).symm
  exact ⟨hr, by decide, h0, hnext, x, h₁, hx, hreb, hes ▸ hb0⟩

/-- Entries of equal priority leave in the order they came. -/
theorem radix_equal_priorities_leave_in_order {V : Type} {h o : RadixHeap V} (hr : h.Reachable)
    (ho : o.Reachable) (hbits : o.bits = h.bits) :
    (∀ evs h', Run h evs h' → ∀ p,
      (((evs.flatMap Event.popped).filter fun x => x.priority = p) ++ h'.line p).Sublist
        (h.line p ++ (evs.flatMap Event.pushed).filter fun x => x.priority = p)) ∧
    (∀ evs h', Run h evs h' → (∀ ev ∈ evs, ev ≠ .clear) → ∀ p,
      h.line p ++ ((evs.flatMap Event.pushed).filter fun x => x.priority = p) =
        ((evs.flatMap Event.popped).filter fun x => x.priority = p) ++ h'.line p) ∧
    ∀ p, (h.merge o).line p =
      if o.baseline < h.baseline then o.line p ++ h.line p else h.line p ++ o.line p :=
  ⟨fun _ _ hrun p => hrun.lines_sublist hr.filed p, fun _ _ hrun hc p => hrun.lines_eq hr.filed hc p,
    hr.filed.line_merge ho.filed hbits⟩

theorem radix_equal_priorities_leave_in_order_of_ties :
    let h : RadixHeap String := ((new 8).insert ⟨"a", 5⟩).insert ⟨"c", 5⟩
    let o : RadixHeap String := ((new 8).insert ⟨"d", 5⟩).insert ⟨"e", 3⟩
    h.Reachable ∧ o.Reachable ∧
      (∃ h', Run h [.push ⟨"f", 5⟩, .pop ⟨"a", 5⟩] h' ∧ h'.line 5 = [⟨"c", 5⟩, ⟨"f", 5⟩]) ∧
      (h.merge o).line 5 = [⟨"a", 5⟩, ⟨"c", 5⟩, ⟨"d", 5⟩] := by
  intro h o
  have hr : h.Reachable := .push (.push (.new 8) (by decide) rfl) (by decide) rfl
  have hro : o.Reachable := .push (.push (.new 8) (by decide) rfl) (by decide) rfl
  obtain ⟨-, hfifo, hmerge⟩ := radix_equal_priorities_leave_in_order hr hro rfl
  -- the pop after the push takes the front of the redistributed bucket, which the peek names
  have hpush : (h.insert ⟨"f", 5⟩).Reachable := .push hr (by decide) rfl
  obtain ⟨x, h', hpk, hp⟩ := hpush.filed.peek_eq_pop (by decide)
  have hx : (h.insert ⟨"f", 5⟩).peek = .ok ⟨"a", 5⟩ := by decide
  rw [hx, Except.ok.injEq] at hpk
  subst hpk
  have hrun : Run h [.push ⟨"f", 5⟩, .pop ⟨"a", 5⟩] h' :=
    .cons (.push (by decide) rfl) (.cons (.pop hp) (.nil _))
  have hline := hfifo _ _ hrun (by simp) 5
  have hh : h.line 5 = [⟨"a", 5⟩, ⟨"c", 5⟩] := by decide
  simp only [hh, List.flatMap_cons, List.flatMap_nil, Event.pushed, Event.popped] at hline
  refine ⟨hr, hro, ⟨h', hrun, ?_⟩, ?_⟩
  · simpa using hline.symm
  · rw [hmerge 5, if_neg (by decide), hh]
    decide

end RadixHeap

end PriorityQueues
