import Mathlib
import PriorityQueues.Radix

/-!
Radix heaps keep every entry filed against the baseline (`Filed`). A redistribution moves the
baseline within the bits the first non-empty bucket shares with it, so higher buckets stay put.
-/

namespace PriorityQueues

section Bits

theorem xor_lt_two_pow_iff {a b n : Nat} : a ^^^ b < 2 ^ n ↔ a / 2 ^ n = b / 2 ^ n := by
  rw [← Nat.xor_eq_zero_iff, ← Nat.xor_div_two_pow, Nat.div_eq_zero_iff_lt (Nat.two_pow_pos n)]

theorem div_two_pow_succ (x k : Nat) : x / 2 ^ (k + 1) = x / 2 ^ k / 2 := by
  rw [Nat.div_div_eq_div_mul, Nat.pow_succ]

theorem div_two_pow_eq_of_le {a b i j : Nat} (h : a / 2 ^ i = b / 2 ^ i) (hij : i ≤ j) :
    a / 2 ^ j = b / 2 ^ j := by
  obtain ⟨k, rfl⟩ := Nat.exists_eq_add_of_le hij
  rw [Nat.pow_add, ← Nat.div_div_eq_div_mul, ← Nat.div_div_eq_div_mul, h]

@[simp]
theorem bucketOf_eq_zero_iff {b p : Nat} : bucketOf b p = 0 ↔ p = b := by
  unfold bucketOf
  split <;> simp_all

theorem bucketOf_eq_succ_iff {b p k : Nat} :
    bucketOf b p = k + 1 ↔ p / 2 ^ (k + 1) = b / 2 ^ (k + 1) ∧ p / 2 ^ k ≠ b / 2 ^ k := by
  unfold bucketOf
  split
  · rename_i hpb
    subst hpb
    simp
  · rename_i hpb
    have hx : p ^^^ b ≠ 0 := fun h => hpb (Nat.xor_eq_zero_iff.1 h)
    rw [Nat.add_right_cancel_iff, ne_eq, ← xor_lt_two_pow_iff, ← xor_lt_two_pow_iff, Nat.not_lt,
      ← Nat.le_log2 hx, ← Nat.log2_lt hx]
    omega

theorem bucketOf_le_iff {b p n : Nat} : bucketOf b p ≤ n ↔ p / 2 ^ n = b / 2 ^ n := by
  constructor
  · intro h
    rcases hk : bucketOf b p with _ | k
    · rw [bucketOf_eq_zero_iff.1 hk]
    · exact div_two_pow_eq_of_le (bucketOf_eq_succ_iff.1 hk).1 (by omega)
  · intro h
    by_contra hlt
    obtain ⟨k, hk⟩ := Nat.exists_eq_succ_of_ne_zero (show bucketOf b p ≠ 0 by omega)
    exact (bucketOf_eq_succ_iff.1 hk).2 (div_two_pow_eq_of_le h (by omega))

theorem bucketOf_eq_sub_clz {w b p : Nat} (hb : b < 2 ^ w) (hp : p < 2 ^ w) (hpb : p ≠ b) :
    bucketOf b p = w - (BitVec.ofNat w (p ^^^ b)).clz.toNat ∧ 1 ≤ bucketOf b p ∧
      bucketOf b p ≤ w := by
  have hx : p ^^^ b ≠ 0 := fun h => hpb (Nat.xor_eq_zero_iff.1 h)
  have hxw : p ^^^ b < 2 ^ w := Nat.xor_lt_two_pow hp hb
  have hw : 0 < w := by
    rcases Nat.eq_zero_or_pos w with rfl | hw
    · simp only [Nat.pow_zero, Nat.lt_one_iff] at hb hp
      exact absurd (hp.trans hb.symm) hpb
    · exact hw
  set x := BitVec.ofNat w (p ^^^ b)
  have hxn : x.toNat = p ^^^ b := by rw [BitVec.toNat_ofNat, Nat.mod_eq_of_lt hxw]
  have hx0 : x ≠ 0#w := fun h => hx (by rw [← hxn, h, BitVec.toNat_zero])
  -- the highest bit of the difference sits right below `w - clz`
  have hlo : w - 1 - x.clz.toNat ≤ Nat.log2 (p ^^^ b) :=
    (Nat.le_log2 hx).2 (hxn ▸ BitVec.two_pow_sub_clz_le_toNat_of_ne_zero hw hx0)
  have hhi : Nat.log2 (p ^^^ b) < w - x.clz.toNat :=
    (Nat.log2_lt hx).2 (hxn ▸ BitVec.toNat_lt_two_pow_sub_clz)
  simp only [bucketOf, if_neg hpb]
  omega

/-- Baseline 5 and priority 12 first differ in bit 3 (`0101` against `1100`), so an 8-bit key files
12 in bucket 4, which is 8 less the four leading zeros of `00001001`. -/
example : bucketOf 5 12 = 4 ∧ bucketOf 5 12 = 8 - (BitVec.ofNat 8 (12 ^^^ 5)).clz.toNat := by
  decide

theorem bucketOf_rebase {b m p i j : Nat} (hij : i < j) (hm : bucketOf b m = i)
    (hp : bucketOf b p = j) (hbp : b ≤ p) : m ≤ p ∧ bucketOf m p = j := by
  obtain ⟨k, rfl⟩ := Nat.exists_eq_succ_of_ne_zero (show j ≠ 0 by omega)
  obtain ⟨hp1, hp0⟩ := bucketOf_eq_succ_iff.1 hp
  -- `m` agrees with the old baseline from bit `k` up
  have hmk : m / 2 ^ k = b / 2 ^ k := bucketOf_le_iff.1 (by omega)
  have hmk1 : m / 2 ^ (k + 1) = b / 2 ^ (k + 1) := div_two_pow_eq_of_le hmk (by omega)
  have hle : b / 2 ^ k ≤ p / 2 ^ k := Nat.div_le_div_right hbp
  refine ⟨?_, bucketOf_eq_succ_iff.2 ⟨hp1.trans hmk1.symm, hmk ▸ hp0⟩⟩
  by_contra hpm
  have := Nat.div_le_div_right (c := 2 ^ k) (Nat.le_of_not_le hpm)
  omega

theorem bucketOf_lt_of_same_bucket {b m q k : Nat} (hm : bucketOf b m = k + 1)
    (hq : bucketOf b q = k + 1) (hbm : b ≤ m) (hbq : b ≤ q) : bucketOf m q < k + 1 := by
  obtain ⟨hm1, hm0⟩ := bucketOf_eq_succ_iff.1 hm
  obtain ⟨hq1, hq0⟩ := bucketOf_eq_succ_iff.1 hq
  have hbm' : b / 2 ^ k ≤ m / 2 ^ k := Nat.div_le_div_right hbm
  have hbq' : b / 2 ^ k ≤ q / 2 ^ k := Nat.div_le_div_right hbq
  simp only [div_two_pow_succ] at hm1 hq1
  -- each quotient by `2 ^ k` is the baseline's or one more, and the baseline's is even
  have key : q / 2 ^ k = m / 2 ^ k := by
    generalize m / 2 ^ k = M at *
    generalize q / 2 ^ k = Q at *
    generalize b / 2 ^ k = B at *
    omega
  exact Nat.lt_succ_of_le (bucketOf_le_iff.2 key)

theorem bucketOf_le_bits {bits b p : Nat} (hb : b < 2 ^ bits) (hp : p < 2 ^ bits) :
    bucketOf b p ≤ bits :=
  bucketOf_le_iff.2 (by rw [Nat.div_eq_of_lt hp, Nat.div_eq_of_lt hb])

end Bits

section Lists

variable {α : Type}

theorem flatten_modify_append_perm (x : α) :
    ∀ (L : List (List α)) (i : Nat), i < L.length →
      (L.modify i (· ++ [x])).flatten.Perm (L.flatten ++ [x])
  | [], _, hi => absurd hi (Nat.not_lt_zero _)
  | b :: L, 0, _ => by
    simp only [List.modify_zero_cons, List.flatten_cons, List.append_assoc]
    exact (List.perm_append_comm.append_left b)
  | b :: L, i + 1, hi => by
    simp only [List.modify_succ_cons, List.flatten_cons, List.append_assoc]
    exact (flatten_modify_append_perm x L i (by simpa using hi)).append_left b

theorem flatten_set_perm (c : List α) :
    ∀ (L : List (List α)) (i : Nat) (b : List α), L[i]? = some b →
      (L.flatten ++ c).Perm (b ++ (L.set i c).flatten)
  | [], _, _, hb => by simp at hb
  | d :: L, 0, b, hb => by
    simp only [List.getElem?_cons_zero, Option.some.injEq] at hb
    subst hb
    simp only [List.flatten_cons, List.set_cons_zero, List.append_assoc]
    exact List.perm_append_comm.append_left d
  | d :: L, i + 1, b, hb => by
    simp only [List.getElem?_cons_succ] at hb
    simp only [List.flatten_cons, List.set_cons_succ, List.append_assoc]
    refine ((flatten_set_perm c L i b hb).append_left d).trans ?_
    rw [← List.append_assoc, ← List.append_assoc]
    exact List.perm_append_comm.append_right _

end Lists

namespace RadixHeap

variable {V : Type}

section Basic

@[simp]
theorem file_bits (h : RadixHeap V) (e : Entry V Nat) : (h.file e).bits = h.bits := rfl

@[simp]
theorem file_baseline (h : RadixHeap V) (e : Entry V Nat) : (h.file e).baseline = h.baseline := rfl

@[simp]
theorem file_len (h : RadixHeap V) (e : Entry V Nat) : (h.file e).len = h.len := rfl

@[simp]
theorem size_file_buckets (h : RadixHeap V) (e : Entry V Nat) :
    (h.file e).buckets.size = h.buckets.size := Array.size_modify

theorem getElem?_file (h : RadixHeap V) (e : Entry V Nat) (j : Nat) :
    (h.file e).buckets[j]? =
      if bucketOf h.baseline e.priority = j then (h.buckets[j]?).map (· ++ [e])
      else h.buckets[j]? :=
  Array.getElem?_modify

theorem foldl_file_bits (l : List (Entry V Nat)) (h : RadixHeap V) :
    (l.foldl file h).bits = h.bits := by
  induction l generalizing h with
  | nil => rfl
  | cons e l ih => rw [List.foldl_cons, ih, file_bits]

theorem foldl_file_baseline (l : List (Entry V Nat)) (h : RadixHeap V) :
    (l.foldl file h).baseline = h.baseline := by
  induction l generalizing h with
  | nil => rfl
  | cons e l ih => rw [List.foldl_cons, ih, file_baseline]

theorem foldl_file_len (l : List (Entry V Nat)) (h : RadixHeap V) :
    (l.foldl file h).len = h.len := by
  induction l generalizing h with
  | nil => rfl
  | cons e l ih => rw [List.foldl_cons, ih, file_len]

theorem foldl_insert (l : List (Entry V Nat)) (h : RadixHeap V) :
    l.foldl insert h = { l.foldl file h with len := h.len + l.length } := by
  induction l generalizing h with
  | nil => rfl
  | cons e l ih =>
    rw [List.foldl_cons, List.foldl_cons, ih]
    -- filing does not read the count
    have hfile : ∀ (l : List (Entry V Nat)) (h : RadixHeap V) (n : Nat),
        l.foldl file { h with len := n } = { l.foldl file h with len := n } := by
      intro l
      induction l with
      | nil => intro h n; rfl
      | cons x l ihl => intro h n; exact ihl (h.file x) n
    rw [insert, hfile]
    simp only [List.length_cons]
    congr 1
    omega

theorem getElem?_foldl_file_of_ne {j : Nat} (l : List (Entry V Nat)) (h : RadixHeap V)
    (hl : ∀ e ∈ l, bucketOf h.baseline e.priority ≠ j) :
    (l.foldl file h).buckets[j]? = h.buckets[j]? := by
  induction l generalizing h with
  | nil => rfl
  | cons e l ih =>
    rw [List.foldl_cons, ih (h.file e) (fun x hx => by rw [file_baseline]; exact hl x (by simp [hx])),
      getElem?_file, if_neg (hl e (by simp))]

theorem mem_toList {h : RadixHeap V} {e : Entry V Nat} :
    e ∈ h.toList ↔ ∃ i : Nat, ∃ b : List (Entry V Nat), h.buckets[i]? = some b ∧ e ∈ b := by
  simp only [toList, List.mem_flatten, Array.mem_toList_iff, Array.mem_iff_getElem?]
  constructor
  · rintro ⟨b, ⟨i, hi⟩, he⟩
    exact ⟨i, b, hi, he⟩
  · rintro ⟨i, b, hi, he⟩
    exact ⟨b, ⟨i, hi⟩, he⟩

theorem toList_file_perm {h : RadixHeap V} {e : Entry V Nat}
    (hk : bucketOf h.baseline e.priority < h.buckets.size) :
    (h.file e).toList.Perm (h.toList ++ [e]) := by
  unfold toList file
  rw [Array.toList_modify]
  exact flatten_modify_append_perm e _ _ (by rwa [Array.length_toList])

theorem toList_set_perm {h : RadixHeap V} {i : Nat} {b : List (Entry V Nat)}
    (hb : h.buckets[i]? = some b) (c : List (Entry V Nat)) (m n : Nat) :
    (h.toList ++ c).Perm
      (b ++ ({ h with buckets := h.buckets.setIfInBounds i c, baseline := m, len := n } :
        RadixHeap V).toList) := by
  unfold toList
  rw [Array.toList_setIfInBounds]
  exact flatten_set_perm c _ i b (by rwa [Array.getElem?_toList])

theorem leastPriority_le (e : Entry V Nat) (es : List (Entry V Nat)) :
    ∀ x ∈ e :: es, leastPriority e es ≤ x.priority := by
  have hle : ∀ (l : List (Entry V Nat)) (a : Nat),
      l.foldl (fun m x => min m x.priority) a ≤ a ∧
        ∀ x ∈ l, l.foldl (fun m x => min m x.priority) a ≤ x.priority := by
    intro l
    induction l with
    | nil => simp
    | cons y l ih =>
      intro a
      obtain ⟨h1, h2⟩ := ih (min a y.priority)
      refine ⟨by rw [List.foldl_cons]; omega, fun x hx => ?_⟩
      rw [List.foldl_cons]
      rcases List.mem_cons.1 hx with rfl | hx
      · omega
      · exact h2 x hx
  intro x hx
  rcases List.mem_cons.1 hx with rfl | hx
  · exact (hle es x.priority).1
  · exact (hle es e.priority).2 x hx

theorem leastPriority_mem (e : Entry V Nat) (es : List (Entry V Nat)) :
    ∃ x ∈ e :: es, x.priority = leastPriority e es := by
  have hmem : ∀ (l : List (Entry V Nat)) (y : Entry V Nat),
      ∃ x ∈ y :: l, x.priority = l.foldl (fun m x => min m x.priority) y.priority := by
    intro l
    induction l with
    | nil => exact fun y => ⟨y, List.mem_singleton_self y, rfl⟩
    | cons z l ih =>
      intro y
      rw [List.foldl_cons]
      -- the running minimum is the priority of `y` or of `z`
      by_cases hyz : y.priority ≤ z.priority
      · obtain ⟨x, hx, hxp⟩ := ih y
        rw [Nat.min_eq_left hyz]
        exact ⟨x, by simp only [List.mem_cons] at hx ⊢; tauto, hxp⟩
      · obtain ⟨x, hx, hxp⟩ := ih z
        rw [Nat.min_eq_right (by omega)]
        exact ⟨x, by simp only [List.mem_cons] at hx ⊢; tauto, hxp⟩
  exact hmem es e

theorem firstFilled_spec {h : RadixHeap V} {i : Nat} {es : List (Entry V Nat)}
    (hf : h.firstFilled = some (i, es)) :
    0 < i ∧ i ≤ h.bits ∧ h.buckets[i]? = some es ∧ es ≠ [] ∧
      ∀ j b, 0 < j → j < i → h.buckets[j]? = some b → b = [] := by
  unfold firstFilled at hf
  obtain ⟨l₁, a, l₂, hl, ha, hnone⟩ := List.findSome?_eq_some_iff.1 hf
  have hpw : ((List.range h.bits).map (· + 1)).Pairwise (· < ·) := by
    rw [List.pairwise_map]
    exact List.pairwise_lt_range.imp fun hxy => by omega
  rw [hl, List.pairwise_append, List.pairwise_cons] at hpw
  obtain ⟨-, ⟨hafter, -⟩, hbefore⟩ := hpw
  have hamem : a ∈ (List.range h.bits).map (· + 1) := by rw [hl]; simp
  simp only [List.mem_map, List.mem_range] at hamem
  obtain ⟨a', ha', rfl⟩ := hamem
  split at ha
  · rename_i e es' hb
    simp only [Option.some.injEq, Prod.mk.injEq] at ha
    obtain ⟨rfl, rfl⟩ := ha
    refine ⟨by omega, by omega, hb, List.cons_ne_nil e es', fun j b hj hji hjb => ?_⟩
    -- a position before the first hit is one the search already passed
    have hjmem : j ∈ (List.range h.bits).map (· + 1) := by
      simp only [List.mem_map, List.mem_range]
      exact ⟨j - 1, by omega, by omega⟩
    rw [hl, List.mem_append, List.mem_cons] at hjmem
    rcases hjmem with hj1 | rfl | hj2
    · have := hnone j hj1
      rw [hjb] at this
      cases b with
      | nil => rfl
      | cons x xs => cases this
    · omega
    · have := hafter j hj2
      omega
  · cases ha

end Basic

/-- Every entry is placed against the baseline: there is a bucket for every bit and one more, the
baseline and every priority have `bits` bits, and each entry sits at or above the baseline in the
bucket that `bucketOf` gives it. -/
structure Placed (h : RadixHeap V) : Prop where
  size_buckets : h.buckets.size = h.bits + 1
  baseline_lt : h.baseline < 2 ^ h.bits
  filed : ∀ i b, h.buckets[i]? = some b → ∀ e ∈ b,
    h.baseline ≤ e.priority ∧ e.priority < 2 ^ h.bits ∧ bucketOf h.baseline e.priority = i

/-- Every entry is placed against the baseline, and the count is the number of entries. -/
structure Filed (h : RadixHeap V) : Prop extends Placed h where
  len_eq : h.len = h.toList.length

section Placed

variable {h : RadixHeap V}

theorem Placed.withLen (hf : Placed h) (n : Nat) : Placed { h with len := n } :=
  ⟨hf.size_buckets, hf.baseline_lt, hf.filed⟩

theorem Placed.emptyLike (hf : Placed h) : Placed h.emptyLike := by
  refine ⟨by simp [RadixHeap.emptyLike], hf.baseline_lt, fun i b hb e he => ?_⟩
  simp only [RadixHeap.emptyLike, Array.getElem?_replicate] at hb
  split at hb
  · cases hb
    cases he
  · cases hb

theorem Placed.bounds_of_mem (hf : Placed h) {e : Entry V Nat} (he : e ∈ h.toList) :
    h.baseline ≤ e.priority ∧ e.priority < 2 ^ h.bits := by
  obtain ⟨i, b, hb, heb⟩ := RadixHeap.mem_toList.1 he
  obtain ⟨h1, h2, -⟩ := hf.filed i b hb e heb
  exact ⟨h1, h2⟩

theorem Placed.bucketOf_lt_size (hf : Placed h) {p : Nat} (hp : p < 2 ^ h.bits) :
    bucketOf h.baseline p < h.buckets.size := by
  rw [hf.size_buckets]
  exact Nat.lt_succ_of_le (bucketOf_le_bits hf.baseline_lt hp)

theorem Placed.file (hf : Placed h) {e : Entry V Nat} (hb : h.baseline ≤ e.priority)
    (hp : e.priority < 2 ^ h.bits) : Placed (h.file e) := by
  refine ⟨by rw [size_file_buckets, file_bits, hf.size_buckets], hf.baseline_lt,
    fun i c hc x hx => ?_⟩
  rw [getElem?_file] at hc
  split at hc
  · rename_i hi
    obtain ⟨c', hc', rfl⟩ := Option.map_eq_some_iff.1 hc
    rcases List.mem_append.1 hx with hx | hx
    · exact hf.filed i c' hc' x hx
    · rw [List.mem_singleton.1 hx]
      exact ⟨hb, hp, hi⟩
  · exact hf.filed i c hc x hx

theorem Placed.foldl_file (l : List (Entry V Nat)) (hf : Placed h)
    (hl : ∀ e ∈ l, h.baseline ≤ e.priority ∧ e.priority < 2 ^ h.bits) :
    Placed (l.foldl RadixHeap.file h) := by
  induction l generalizing h with
  | nil => exact hf
  | cons e l ih =>
    obtain ⟨hb, hp⟩ := hl e List.mem_cons_self
    exact ih (hf.file hb hp) fun x hx => hl x (List.mem_cons_of_mem e hx)

theorem Placed.length_foldl_file (l : List (Entry V Nat)) (hf : Placed h)
    (hl : ∀ e ∈ l, h.baseline ≤ e.priority ∧ e.priority < 2 ^ h.bits) :
    (l.foldl RadixHeap.file h).toList.length = h.toList.length + l.length := by
  induction l generalizing h with
  | nil => rfl
  | cons e l ih =>
    obtain ⟨hb, hp⟩ := hl e List.mem_cons_self
    rw [List.foldl_cons, ih (hf.file hb hp) fun x hx => hl x (List.mem_cons_of_mem e hx),
      (toList_file_perm (hf.bucketOf_lt_size hp)).length_eq, List.length_append,
      List.length_singleton, List.length_cons]
    omega

theorem Placed.rebase {i m : Nat} (hf : Placed h) (hm : bucketOf h.baseline m = i)
    (hmw : m < 2 ^ h.bits) (hlow : ∀ j b, j < i → h.buckets[j]? = some b → b = []) :
    Placed { h with buckets := h.buckets.setIfInBounds i [], baseline := m } := by
  refine ⟨by simp [hf.size_buckets], hmw, fun j c hc x hx => ?_⟩
  simp only [Array.getElem?_setIfInBounds] at hc
  split at hc
  · split at hc
    · cases hc
      cases hx
    · cases hc
  · rename_i hij
    obtain ⟨hbx, hxw, hxb⟩ := hf.filed j c hc x hx
    rcases Nat.lt_trichotomy j i with hj | rfl | hj
    · rw [hlow j c hj hc] at hx
      cases hx
    · exact absurd rfl hij
    · obtain ⟨hmx, hxj⟩ := bucketOf_rebase hj hm hxb hbx
      exact ⟨hmx, hxw, hxj⟩

theorem Placed.bucketOf_lt_of_firstFilled (hf : Placed h) {i : Nat} {e : Entry V Nat}
    {es : List (Entry V Nat)} (hff : h.firstFilled = some (i, e :: es)) :
    ∀ x ∈ e :: es, bucketOf (leastPriority e es) x.priority < i := by
  obtain ⟨hi0, -, hbi, -, -⟩ := firstFilled_spec hff
  obtain ⟨k, rfl⟩ := Nat.exists_eq_succ_of_ne_zero (Nat.ne_of_gt hi0)
  have hsrc := hf.filed _ _ hbi
  obtain ⟨y, hy, hym⟩ := leastPriority_mem e es
  obtain ⟨hby, -, hyb⟩ := hsrc y hy
  intro x hx
  obtain ⟨hbx, -, hxb⟩ := hsrc x hx
  rw [← hym]
  exact bucketOf_lt_of_same_bucket hyb hxb hby hbx

theorem Placed.popFront {e : Entry V Nat} {es : List (Entry V Nat)} (hf : Placed h)
    (h0 : h.buckets[0]? = some (e :: es)) (n : Nat) :
    Placed { h with buckets := h.buckets.setIfInBounds 0 es, len := n } := by
  refine ⟨by simp [hf.size_buckets], hf.baseline_lt, fun j c hc x hx => ?_⟩
  simp only [Array.getElem?_setIfInBounds] at hc
  split at hc
  · rename_i hj
    subst hj
    split at hc
    · cases hc
      exact hf.filed 0 _ h0 x (List.mem_cons_of_mem e hx)
    · cases hc
  · exact hf.filed j c hc x hx

end Placed

section Filed

variable {h : RadixHeap V}

theorem Filed.size_eq_length (hf : Filed h) : h.size = h.toList.length := hf.len_eq

theorem filed_new (bits : Nat) : Filed (new bits : RadixHeap V) := by
  refine ⟨⟨by simp [new], Nat.two_pow_pos bits, fun i b hb e he => ?_⟩, by simp [new, toList]⟩
  simp only [new, Array.getElem?_replicate] at hb
  split at hb
  · cases hb
    cases he
  · cases hb

theorem Filed.emptyLike (hf : Filed h) : Filed h.emptyLike :=
  ⟨hf.toPlaced.emptyLike, by simp [RadixHeap.emptyLike, toList]⟩

theorem Filed.insert (hf : Filed h) {e : Entry V Nat} (hb : h.baseline ≤ e.priority)
    (hp : e.priority < 2 ^ h.bits) : Filed (h.insert e) := by
  refine ⟨(hf.toPlaced.file hb hp).withLen _, ?_⟩
  show h.len + 1 = (h.file e).toList.length
  rw [(toList_file_perm (hf.bucketOf_lt_size hp)).length_eq, List.length_append, hf.len_eq,
    List.length_singleton]

theorem Filed.foldl_insert (l : List (Entry V Nat)) (hf : Filed h)
    (hl : ∀ e ∈ l, h.baseline ≤ e.priority ∧ e.priority < 2 ^ h.bits) :
    Filed (l.foldl RadixHeap.insert h) := by
  induction l generalizing h with
  | nil => exact hf
  | cons e l ih =>
    obtain ⟨hb, hp⟩ := hl e List.mem_cons_self
    exact ih (hf.insert hb hp) fun x hx => hl x (List.mem_cons_of_mem e hx)

theorem Filed.merge {o : RadixHeap V} (hf : Filed h) (ho : Filed o) (hbits : o.bits = h.bits) :
    Filed (h.merge o) := by
  unfold RadixHeap.merge
  split
  · rename_i hlt
    refine ho.foldl_insert _ fun e he => ?_
    obtain ⟨hb, hp⟩ := hf.bounds_of_mem he
    exact ⟨by omega, hbits ▸ hp⟩
  · rename_i hge
    refine hf.foldl_insert _ fun e he => ?_
    obtain ⟨hb, hp⟩ := ho.bounds_of_mem he
    exact ⟨by omega, hbits ▸ hp⟩

theorem Filed.push {h' : RadixHeap V} {e : Entry V Nat} (hf : Filed h)
    (hp : e.priority < 2 ^ h.bits) (hpush : h.push e = .ok h') : Filed h' := by
  unfold RadixHeap.push at hpush
  split at hpush
  · cases hpush
  · cases hpush
    exact hf.insert (by omega) hp

theorem Filed.rebalance {h' : RadixHeap V} (hf : Filed h) (hr : h.rebalance = .ok h') :
    ∃ i e es, h.firstFilled = some (i, e :: es) ∧ h'.baseline = leastPriority e es ∧
      h'.bits = h.bits ∧ Filed h' ∧ h'.buckets[i]? = some [] ∧
      ∀ j, i < j → h'.buckets[j]? = h.buckets[j]? := by
  unfold RadixHeap.rebalance at hr
  split at hr
  · cases hr
  split at hr
  · cases hr
  rename_i h0
  split at hr
  · rename_i i e es hff
    cases hr
    obtain ⟨hi0, -, hbi, -, hempty⟩ := firstFilled_spec hff
    obtain ⟨k, rfl⟩ := Nat.exists_eq_succ_of_ne_zero (Nat.ne_of_gt hi0)
    have hsrc := hf.filed _ _ hbi
    -- the new baseline is the priority of an entry of the source bucket
    obtain ⟨y, hy, hym⟩ := leastPriority_mem e es
    obtain ⟨-, hyw, hyb⟩ := hsrc y hy
    rw [hym] at hyw hyb
    -- bucket 0 is empty, or the heap would not redistribute, and so is every bucket before
    -- the source
    have hlow : ∀ j b, j < k + 1 → h.buckets[j]? = some b → b = [] := fun j b hj hb => by
      rcases Nat.eq_zero_or_pos j with rfl | hj0
      · simpa [hb] using h0
      · exact hempty j b hj0 hj hb
    have hcl := hf.rebase hyb hyw hlow
    have hin : ∀ x ∈ e :: es, leastPriority e es ≤ x.priority ∧ x.priority < 2 ^ h.bits :=
      fun x hx => ⟨leastPriority_le e es x hx, (hsrc x hx).2.1⟩
    -- the entries of the source bucket all go below it
    have hbelow := hf.bucketOf_lt_of_firstFilled hff
    have hkeep : ∀ j, k + 1 ≤ j →
        ((e :: es).foldl RadixHeap.file
          { h with
            buckets := h.buckets.setIfInBounds (k + 1) []
            baseline := leastPriority e es }).buckets[j]? =
          (h.buckets.setIfInBounds (k + 1) [])[j]? := by
      intro j hj
      refine getElem?_foldl_file_of_ne _ _ fun x hx => ?_
      show bucketOf (leastPriority e es) x.priority ≠ j
      have := hbelow x hx
      exact Nat.ne_of_lt (by omega)
    -- the entries taken out of the source bucket all come back
    have hcount : h.len = ((e :: es).foldl RadixHeap.file
        { h with
          buckets := h.buckets.setIfInBounds (k + 1) []
          baseline := leastPriority e es }).toList.length := by
      have hset := (toList_set_perm hbi [] (leastPriority e es) h.len).length_eq
      rw [hcl.length_foldl_file _ hin]
      simp only [List.length_append, List.length_nil, Nat.add_zero] at hset
      rw [hf.len_eq, hset]
      exact Nat.add_comm _ _
    refine ⟨k + 1, e, es, hff, foldl_file_baseline _ _, foldl_file_bits _ _,
      ⟨hcl.foldl_file _ hin, by rw [foldl_file_len]; exact hcount⟩, ?_, ?_⟩
    · rw [hkeep _ (Nat.le_refl _)]
      simp [(Array.getElem?_eq_some_iff.1 hbi).1]
    · intro j hj
      rw [hkeep _ (by omega)]
      simp [Nat.ne_of_lt hj]
  · cases hr

theorem pop_eq_ok {h' : RadixHeap V} {e : Entry V Nat} (hp : h.pop = .ok (e, h')) :
    ∃ h₁ es, (h₁ = h ∨ h.rebalance = .ok h₁) ∧ h₁.buckets[0]? = some (e :: es) ∧
      h' = { h₁ with buckets := h₁.buckets.setIfInBounds 0 es, len := h₁.len - 1 } := by
  unfold RadixHeap.pop at hp
  split at hp
  · -- bucket 0 is empty: redistribute first
    cases hr : h.rebalance with
    | error err => simp [hr, bind, Except.bind] at hp
    | ok h₁ =>
      simp only [hr, bind, Except.bind] at hp
      split at hp
      · rename_i x xs hx
        simp only [pure, Except.pure, Except.ok.injEq, Prod.mk.injEq] at hp
        obtain ⟨rfl, rfl⟩ := hp
        exact ⟨h₁, xs, .inr rfl, hx, rfl⟩
      · cases hp
  · simp only [pure, Except.pure, bind, Except.bind] at hp
    split at hp
    · rename_i x xs hx
      simp only [Except.ok.injEq, Prod.mk.injEq] at hp
      obtain ⟨rfl, rfl⟩ := hp
      exact ⟨h, xs, .inl rfl, hx, rfl⟩
    · cases hp

theorem Filed.popFront {e : Entry V Nat} {es : List (Entry V Nat)} (hf : Filed h)
    (h0 : h.buckets[0]? = some (e :: es)) :
    Filed { h with buckets := h.buckets.setIfInBounds 0 es, len := h.len - 1 } := by
  refine ⟨hf.toPlaced.popFront h0 _, ?_⟩
  have hset := (toList_set_perm h0 es h.baseline (h.len - 1)).length_eq
  simp only [List.length_append, List.length_cons] at hset
  have hlen := hf.len_eq
  show h.len - 1 = _
  omega

theorem Filed.pop {h' : RadixHeap V} {e : Entry V Nat} (hf : Filed h) (hp : h.pop = .ok (e, h')) :
    Filed h' := by
  obtain ⟨h₁, es, hh₁ | hr, h0, rfl⟩ := pop_eq_ok hp
  · subst hh₁
    exact hf.popFront h0
  · obtain ⟨-, -, -, -, -, -, hf₁, -⟩ := hf.rebalance hr
    exact hf₁.popFront h0

theorem Filed.bits_of_pop {h' : RadixHeap V} {e : Entry V Nat} (hf : Filed h)
    (hp : h.pop = .ok (e, h')) : h'.bits = h.bits := by
  obtain ⟨h₁, es, hh₁ | hr, -, rfl⟩ := pop_eq_ok hp
  · subst hh₁
    rfl
  · obtain ⟨-, -, -, -, -, hbits, -⟩ := hf.rebalance hr
    exact hbits

end Filed

/-- The radix heaps that sequences of operations build from new heaps, for keys of any width:
pushes of priorities of that width, pops, redistributions, clears, melds of heaps of the same
width, and both halves of a take. -/
inductive Reachable : RadixHeap V → Prop
  | new (bits : Nat) : Reachable (new bits)
  | push {h h' : RadixHeap V} {e : Entry V Nat} : Reachable h → e.priority < 2 ^ h.bits →
      h.push e = .ok h' → Reachable h'
  | pop {h h' : RadixHeap V} {e : Entry V Nat} : Reachable h → h.pop = .ok (e, h') → Reachable h'
  | rebalance {h h' : RadixHeap V} : Reachable h → h.rebalance = .ok h' → Reachable h'
  | clear {h : RadixHeap V} : Reachable h → Reachable h.clear
  | merge {h o : RadixHeap V} : Reachable h → Reachable o → o.bits = h.bits →
      Reachable (h.merge o)
  | takeLeft {h : RadixHeap V} : Reachable h → Reachable h.take.1
  | takeRight {h : RadixHeap V} : Reachable h → Reachable h.take.2

theorem Reachable.filed {h : RadixHeap V} (hr : h.Reachable) : Filed h := by
  induction hr with
  | new bits => exact filed_new bits
  | push _ hp hpush ih => exact ih.push hp hpush
  | pop _ hpop ih => exact ih.pop hpop
  | rebalance _ hreb ih =>
    obtain ⟨-, -, -, -, -, -, hf, -⟩ := ih.rebalance hreb
    exact hf
  | clear _ ih => exact ih.emptyLike
  | merge _ _ hbits ihh iho => exact ihh.merge iho hbits
  | takeLeft _ ih => exact ih.emptyLike
  | takeRight _ ih => exact ih

/-- Every entry of a reachable radix heap sits in the bucket its priority has against the
baseline, and the count is the number of entries. -/
theorem radix_entries_stay_filed {V : Type} :
    (∀ h : RadixHeap V, h.Reachable →
      h.buckets.size = h.bits + 1 ∧ h.size = h.toList.length ∧
      ∀ i b, h.buckets[i]? = some b → ∀ e ∈ b,
        h.baseline ≤ e.priority ∧ bucketOf h.baseline e.priority = i ∧
        (i = 0 ↔ e.priority = h.baseline) ∧
        (e.priority ≠ h.baseline →
          i = h.bits - (BitVec.ofNat h.bits (e.priority ^^^ h.baseline)).clz.toNat ∧
            1 ≤ i ∧ i ≤ h.bits)) ∧
    (∀ h h' : RadixHeap V, h.Reachable → h.rebalance = .ok h' →
      ∃ i e es, h.firstFilled = some (i, e :: es) ∧ h'.baseline = leastPriority e es ∧
        h'.buckets[i]? = some [] ∧ ∀ j, i < j → h'.buckets[j]? = h.buckets[j]?) := by
  refine ⟨fun h hr => ?_, fun h h' hr hreb => ?_⟩
  · have hf := hr.filed
    refine ⟨hf.size_buckets, hf.size_eq_length, fun i b hb e he => ?_⟩
    obtain ⟨hbe, hew, hei⟩ := hf.filed i b hb e he
    refine ⟨hbe, hei, hei ▸ bucketOf_eq_zero_iff, fun hne => ?_⟩
    rw [← hei]
    exact bucketOf_eq_sub_clz hf.baseline_lt hew hne
  · obtain ⟨i, e, es, hff, hbase, -, -, hi, hj⟩ := hr.filed.rebalance hreb
    exact ⟨i, e, es, hff, hbase, hi, hj⟩

end RadixHeap

end PriorityQueues
