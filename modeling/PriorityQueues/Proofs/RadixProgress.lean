import Mathlib
import PriorityQueues.Proofs.RadixQueue

/-!
Progress of radix heaps: a redistribution on a heap with entries always fills bucket 0, and
without melds the bucket of every entry only falls.
-/

namespace PriorityQueues

theorem bucketOf_le_of_baseline_le {b b' p : Nat} (hb : b ≤ b') (hp : b' ≤ p) :
    bucketOf b' p ≤ bucketOf b p := by
  -- the priority agrees with the old baseline above its bucket's bit, and the new baseline
  -- lies between the two
  have hagree : p / 2 ^ bucketOf b p = b / 2 ^ bucketOf b p := bucketOf_le_iff.1 le_rfl
  have hlo : b / 2 ^ bucketOf b p ≤ b' / 2 ^ bucketOf b p := Nat.div_le_div_right hb
  have hhi : b' / 2 ^ bucketOf b p ≤ p / 2 ^ bucketOf b p := Nat.div_le_div_right hp
  apply bucketOf_le_iff.2
  omega

namespace RadixHeap

variable {V : Type} {h : RadixHeap V}

section Redistribution

theorem Filed.getElem?_rebalanced_of_lt (hf : Filed h) (h0 : h.buckets[0]? = some [])
    {i : Nat} {e : Entry V Nat} {es : List (Entry V Nat)}
    (hff : h.firstFilled = some (i, e :: es)) {j : Nat} (hj : j < i) :
    ((e :: es).foldl RadixHeap.file
        { h with buckets := h.buckets.setIfInBounds i [], baseline := leastPriority e es }
      ).buckets[j]? =
      some ((e :: es).filter fun x => bucketOf (leastPriority e es) x.priority = j) := by
  obtain ⟨-, hib, -, -, hempty⟩ := firstFilled_spec hff
  have hjs : j < h.buckets.size := by
    rw [hf.size_buckets]
    omega
  -- bucket `j` lies before the first non-empty bucket, so it held nothing
  have hnil : h.buckets[j] = [] := by
    rcases Nat.eq_zero_or_pos j with rfl | hj0
    · simpa [Array.getElem?_eq_getElem hjs] using h0
    · exact hempty j _ hj0 hj (Array.getElem?_eq_getElem hjs)
  rw [getElem?_foldl_file]
  simp [Nat.ne_of_gt hj, Array.getElem?_eq_getElem hjs, hnil]

theorem Filed.rebalance_spec (hf : Filed h) (h0 : h.buckets[0]? = some []) (hpos : 0 < h.size) :
    ∃ s e es h', h.firstFilled = some (s, e :: es) ∧ h.rebalance = .ok h' ∧
      h'.baseline = leastPriority e es ∧ Filed h' ∧
      (∀ j, j < s →
        h'.buckets[j]? = some ((e :: es).filter fun x => bucketOf h'.baseline x.priority = j)) ∧
      h'.buckets[s]? = some [] ∧ ∀ j, s < j → h'.buckets[j]? = h.buckets[j]? := by
  obtain ⟨s, e, es, hff⟩ := hf.firstFilled_of_pos hpos h0
  have hr := rebalance_of_firstFilled (Nat.pos_iff_ne_zero.1 hpos) h0 hff
  obtain ⟨s', e', es', hff', hbase, -, hf', hs, hlater⟩ := hf.rebalance hr
  rw [hff] at hff'
  obtain ⟨rfl, rfl, rfl⟩ : s = s' ∧ e = e' ∧ es = es' := by simpa using hff'
  refine ⟨s, e, es, _, hff, hr, hbase, hf', fun j hj => ?_, hs, hlater⟩
  rw [hbase]
  exact hf.getElem?_rebalanced_of_lt h0 hff hj

end Redistribution

section Runs

variable {evs : List (Event V)} {h' : RadixHeap V}

theorem Run.baseline_le (hr : Run h evs h') (hf : Filed h) : h.baseline ≤ h'.baseline := by
  induction hr with
  | nil => exact le_rfl
  | cons hs _ ih => exact (hs.baseline_le hf).1.trans (ih (hs.filed hf))

theorem Run.bucketOf_le (hr : Run h evs h') (hf : Filed h) {x : Entry V Nat}
    (hx : x ∈ h'.toList) : bucketOf h'.baseline x.priority ≤ bucketOf h.baseline x.priority :=
  bucketOf_le_of_baseline_le (hr.baseline_le hf) ((hr.filed hf).bounds_of_mem hx).1

end Runs

/-- Redistribution succeeds on a reachable heap with an empty bucket 0, and buckets only fall
along runs without melds. -/
theorem radix_rebalance_moves_entries_down {V : Type} :
    (∀ h : RadixHeap V, h.Reachable → h.buckets[0]? = some [] → 0 < h.size →
      ∃ s bs h', 0 < s ∧ h.buckets[s]? = some bs ∧ bs ≠ [] ∧
        (∀ j c, 0 < j → j < s → h.buckets[j]? = some c → c = []) ∧ h.rebalance = .ok h' ∧
        (∃ x ∈ bs, x.priority = h'.baseline) ∧ (∀ x ∈ bs, h'.baseline ≤ x.priority) ∧
        (∀ x ∈ bs, bucketOf h'.baseline x.priority < s) ∧
        (∀ j, j < s →
          h'.buckets[j]? = some (bs.filter fun x => bucketOf h'.baseline x.priority = j)) ∧
        h'.buckets[0]? = some (bs.filter fun x => x.priority = h'.baseline) ∧
        h'.buckets[s]? = some [] ∧ (∀ j, s < j → h'.buckets[j]? = h.buckets[j]?) ∧
        (∀ x ∈ h'.toList, h'.baseline ≤ x.priority) ∧
        ∃ x xs, h'.buckets[0]? = some (x :: xs) ∧
          h.pop = .ok (x, { h' with buckets := h'.buckets.setIfInBounds 0 xs, len := h'.len - 1 })) ∧
    ∀ h : RadixHeap V, h.Reachable → ∀ evs h', Run h evs h' → ∀ x ∈ h'.toList,
      bucketOf h'.baseline x.priority ≤ bucketOf h.baseline x.priority := by
  refine ⟨fun h hr h0 hpos => ?_, fun h hr _ _ hrun _ hx => hrun.bucketOf_le hr.filed hx⟩
  have hf := hr.filed
  obtain ⟨s, e, es, h', hff, hreb, hbase, hf', hlow, hs, hlater⟩ := hf.rebalance_spec h0 hpos
  obtain ⟨hs0, -, hbs, -, hempty⟩ := firstFilled_spec hff
  obtain ⟨y, hy, hym⟩ := leastPriority_mem e es
  -- bucket 0 receives the entries of least priority, of which `y` is one
  have h0' : h'.buckets[0]? = some ((e :: es).filter fun x => x.priority = h'.baseline) := by
    simpa using hlow 0 hs0
  obtain ⟨x, xs, hxs⟩ := List.exists_cons_of_ne_nil (List.ne_nil_of_mem
    (List.mem_filter.2 ⟨hy, by simp [hym, hbase]⟩ :
      y ∈ (e :: es).filter fun x => x.priority = h'.baseline))
  rw [hxs] at h0'
  refine ⟨s, e :: es, h', hs0, hbs, List.cons_ne_nil e es, hempty, hreb,
    ⟨y, hy, hym.trans hbase.symm⟩, fun z hz => hbase ▸ leastPriority_le e es z hz,
    fun z hz => hbase ▸ hf.bucketOf_lt_of_firstFilled hff z hz, hlow, hxs ▸ h0', hs, hlater,
    fun z hz => (hf'.bounds_of_mem hz).1, x, xs, h0', pop_of_rebalance h0 hreb h0'⟩

theorem radix_rebalance_moves_entries_down_of_three_pushes :
    let h : RadixHeap String := (((new 8).insert ⟨"a", 7⟩).insert ⟨"b", 5⟩).insert ⟨"c", 5⟩
    h.Reachable ∧ h.buckets[0]? = some [] ∧ 0 < h.size ∧
      ∃ s bs h', 0 < s ∧ h.buckets[s]? = some bs ∧ h.rebalance = .ok h' ∧
        ∃ x ∈ bs, x.priority = h'.baseline := by
  intro h
  have hr : h.Reachable := .push (.push (.push (.new 8) (by decide) rfl) (by decide) rfl) (by decide) rfl
  have h0 : h.buckets[0]? = some [] := by decide
  have hpos : 0 < h.size := by decide
  obtain ⟨s, bs, h', hs, hbs, -, -, hreb, hmin, -⟩ := radix_rebalance_moves_entries_down.1 _ hr h0 hpos
  exact ⟨hr, h0, hpos, s, bs, h', hs, hbs, hreb, hmin⟩

end RadixHeap

end PriorityQueues
