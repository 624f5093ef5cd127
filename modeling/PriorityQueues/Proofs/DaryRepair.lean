import Mathlib
import PriorityQueues.Proofs.DaryBuild

/-!
Array heaps changed at any position. `repair` sifts in one direction only, which suffices because
not preceding is transitive; so every heap that operations build is in heap order.
-/

namespace PriorityQueues

namespace DaryHeap

variable {V P R : Type} {prec : P → P → Bool} {d : Nat}

section Write

variable {a : Array (Entry V P)} {i : Nat}

theorem beforeAt_setIfInBounds_of_ne (e : Entry V P) {j k : Nat} (hj : j ≠ i) (hk : k ≠ i) :
    beforeAt prec (a.setIfInBounds i e) j k = beforeAt prec a j k := by
  simp only [beforeAt, Array.getElem?_setIfInBounds_ne (Ne.symm hj),
    Array.getElem?_setIfInBounds_ne (Ne.symm hk)]

variable (hp : StrictWeakOrder prec)
include hp

theorem child_not_before_grandparent (ho : HeapOrdered prec d a) (hi : i < a.size) (h0 : 0 < i)
    {j : Nat} (hj : 0 < j) (hpar : (j - 1) / d = i) :
    beforeAt prec a j ((i - 1) / d) = false := by
  have hji := ho j hj
  rw [hpar] at hji
  exact beforeAt_not_trans hp hi hji (ho i h0)

theorem child_not_before_of_up (ho : HeapOrdered prec d a) (hi : i < a.size) (e : Entry V P)
    (hup : beforeAt prec (a.setIfInBounds i e) i ((i - 1) / d) = true) {j : Nat} (hj : 0 < j)
    (hpar : (j - 1) / d = i) : beforeAt prec (a.setIfInBounds i e) j i = false := by
  have h0 : 0 < i := by
    rcases Nat.eq_zero_or_pos i with rfl | h0
    · simp only [Nat.zero_sub, Nat.zero_div, beforeAt_self hp, Bool.false_eq_true] at hup
    · exact h0
  have hji : j ≠ i := Nat.ne_of_gt (hpar ▸ parent_lt d hj)
  have hgi : (i - 1) / d ≠ i := Nat.ne_of_lt (parent_lt d h0)
  cases hc : beforeAt prec (a.setIfInBounds i e) j i
  · rfl
  · -- the child would precede the old parent of `i`, through the new entry
    have hjg := beforeAt_trans hp hc hup
    rw [beforeAt_setIfInBounds_of_ne e hji hgi,
      child_not_before_grandparent hp ho hi h0 hj hpar] at hjg
    cases hjg

theorem repair_ordered (hd : 0 < d) (hw : d * a.size + 1 < wordSize) (ho : HeapOrdered prec d a)
    (hi : i < a.size) (e : Entry V P) :
    HeapOrdered prec d (repair prec d (a.setIfInBounds i e) i).1 := by
  have hgrand : 0 < i → ∀ j, 0 < j → (j - 1) / d = i →
      beforeAt prec (a.setIfInBounds i e) j ((i - 1) / d) = false := fun h0 j hj hpar => by
    rw [beforeAt_setIfInBounds_of_ne e (Nat.ne_of_gt (hpar ▸ parent_lt d hj))
      (Nat.ne_of_lt (parent_lt d h0))]
    exact child_not_before_grandparent hp ho hi h0 hj hpar
  -- every edge away from `i` is as it was
  have hother : ∀ j, 0 < j → j ≠ i → (j - 1) / d ≠ i →
      beforeAt prec (a.setIfInBounds i e) j ((j - 1) / d) = false := fun j hj hji hpar => by
    rw [beforeAt_setIfInBounds_of_ne e hji hpar]
    exact ho j hj
  unfold repair
  split
  · rename_i hup
    simp only [Bool.and_eq_true, ne_eq] at hup
    apply siftUp_ordered hp
    refine ⟨fun j hj hji => ?_, hgrand⟩
    by_cases hpar : (j - 1) / d = i
    · rw [hpar]
      exact child_not_before_of_up hp ho hi e (by simpa using hup.2) hj hpar
    · exact hother j hj hji hpar
  · rename_i hdown
    rw [siftDownWrapping_eq_siftDown hd (by rwa [Array.size_setIfInBounds])
      (by rwa [Array.size_setIfInBounds])]
    apply siftDown_ordered hp hd
    refine ⟨fun j hj hpar => ?_, hgrand⟩
    by_cases hji : j = i
    · -- the written entry does not precede its parent, or repair would have sifted up
      subst hji
      simpa [Nat.ne_of_gt hj] using hdown
    · exact hother j hj hji hpar

omit hp in
theorem repair_perm (a : Array (Entry V P)) (i : Nat) :
    (repair prec d a i).1.toList.Perm a.toList := by
  unfold repair
  split
  · exact siftUp_perm a i
  · exact siftDownWrapping_perm a i

omit hp in
theorem repair_zero (a : Array (Entry V P)) :
    repair prec d a 0 = siftDownWrapping prec d a 0 := by
  simp [repair]

end Write

section Heap

variable {h : DaryHeap V P prec R}

theorem get_eq_ok_iff {i : Nat} {x : Entry V P} : h.get i = .ok x ↔ h.data[i]? = some x := by
  unfold get
  split <;> simp_all

theorem update_of_lt {i : Nat} (hi : i < h.data.size) (e : Entry V P) :
    h.update i e = .ok ({ h with data :=
      (repair prec h.arity (h.data.setIfInBounds i e) i).1 },
      (repair prec h.arity (h.data.setIfInBounds i e) i).2) := by
  simp [update, size, hi]

theorem swap_last_pop {α : Type} {a : Array α} {i : Nat} (hi : i + 1 < a.size) :
    (a.swapIfInBounds i (a.size - 1)).pop = a.pop.setIfInBounds i a[a.size - 1] := by
  refine Array.ext_getElem? fun k => ?_
  rw [Array.getElem?_pop, Array.size_swapIfInBounds, getElem?_swapIfInBounds (by omega) (by omega),
    Array.getElem?_setIfInBounds, Array.size_pop, Array.getElem?_pop]
  by_cases hk : i = k
  · subst hk
    simp [Equiv.swap_apply_left, Array.getElem?_eq_getElem (show a.size - 1 < a.size by omega)]
  · by_cases hkl : k < a.size - 1
    · rw [Equiv.swap_apply_of_ne_of_ne (Ne.symm hk) (by omega)]
      simp [hk, hkl]
    · simp [hk, hkl]

theorem removeAt_of_lt_last {i : Nat} (hi : i + 1 < h.data.size) :
    h.removeAt i = .ok (h.data[i], { h with data :=
      (repair prec h.arity (h.data.swapIfInBounds i (h.data.size - 1)).pop i).1 },
      (i, h.data.size - 1) ::
        (repair prec h.arity (h.data.swapIfInBounds i (h.data.size - 1)).pop i).2)
    := by
  have hback : (h.data.swapIfInBounds i (h.data.size - 1)).back? = some h.data[i] := by
    rw [Array.back?_eq_getElem?, Array.size_swapIfInBounds,
      getElem?_swapIfInBounds (by omega) (by omega), Equiv.swap_apply_right]
    exact Array.getElem?_eq_getElem (by omega)
  have hsize : i < (h.data.swapIfInBounds i (h.data.size - 1)).pop.size := by
    simp only [Array.size_pop, Array.size_swapIfInBounds]
    omega
  unfold removeAt
  simp only [size, show i < h.data.size by omega, if_true, ne_eq,
    show i ≠ h.data.size - 1 by omega, not_false_eq_true, hback, hsize]
  rfl

theorem removeAt_last {i : Nat} (hi : i + 1 = h.data.size) :
    h.removeAt i = .ok (h.data[i], { h with data := h.data.pop }, []) := by
  have hback : h.data.back? = some h.data[i] := by
    rw [Array.back?_eq_getElem?, show h.data.size - 1 = i by omega]
    exact Array.getElem?_eq_getElem (by omega)
  have hlast : h.data.size - 1 = i := by omega
  unfold removeAt
  simp only [size, show i < h.data.size by omega, if_true, hlast, ne_eq, not_true_eq_false,
    if_false, hback, Array.size_pop, Nat.lt_irrefl, List.append_nil]

theorem removeAt_of_size_le {i : Nat} (hi : h.data.size ≤ i) :
    h.removeAt i = .error (.indexOutOfBounds i h.size) := by
  simp [removeAt, size, Nat.not_lt.2 hi]

theorem beforeAt_pop {a : Array (Entry V P)} {j k : Nat} (hj : j < a.size - 1)
    (hk : k < a.size - 1) : beforeAt prec a.pop j k = beforeAt prec a j k := by
  simp only [beforeAt, Array.getElem?_pop, if_pos hj, if_pos hk]

theorem HeapOrdered.pop {a : Array (Entry V P)} (ho : HeapOrdered prec d a) :
    HeapOrdered prec d a.pop := by
  intro j hj
  by_cases hjs : j < a.size - 1
  · rw [beforeAt_pop hjs (Nat.lt_trans (parent_lt d hj) hjs)]
    exact ho j hj
  · exact beforeAt_of_size_le (by rw [Array.size_pop]; omega) _

theorem removeAt_eq_ok {i : Nat} {x : Entry V P} {h' : DaryHeap V P prec R} {sw : Swaps}
    (hr : h.removeAt i = .ok (x, h', sw)) :
    ∃ hi : i < h.data.size, h.data[i] = x ∧
      ((i + 1 < h.data.size ∧
        h' = { h with data :=
          (repair prec h.arity (h.data.swapIfInBounds i (h.data.size - 1)).pop i).1 } ∧
        sw = (i, h.data.size - 1) ::
          (repair prec h.arity (h.data.swapIfInBounds i (h.data.size - 1)).pop i).2) ∨
      (i + 1 = h.data.size ∧ h' = { h with data := h.data.pop } ∧ sw = [])) := by
  rcases Nat.lt_or_ge (i + 1) h.data.size with hi | hi
  · rw [removeAt_of_lt_last hi] at hr
    cases hr
    exact ⟨by omega, rfl, .inl ⟨hi, rfl, rfl⟩⟩
  · rcases Nat.eq_or_lt_of_le hi with hi | hi
    · rw [removeAt_last hi.symm] at hr
      cases hr
      exact ⟨by omega, rfl, .inr ⟨hi.symm, rfl, rfl⟩⟩
    · rw [removeAt_of_size_le (by omega)] at hr
      cases hr

theorem removeAt_of_pop {r : Entry V P × DaryHeap V P prec R × Swaps} (hpop : h.pop = .ok r) :
    h.removeAt 0 = .ok r := by
  unfold pop at hpop
  split at hpop
  · cases hpop
  · exact hpop

theorem removeAt_elems {i : Nat} {x : Entry V P} {h' : DaryHeap V P prec R} {sw : Swaps}
    (hr : h.removeAt i = .ok (x, h', sw)) :
    h.data[i]? = some x ∧ h.elems = x ::ₘ h'.elems := by
  obtain ⟨hi, rfl, ⟨-, rfl, -⟩ | ⟨hl, rfl, -⟩⟩ := removeAt_eq_ok hr
  · exact ⟨Array.getElem?_eq_getElem hi, elems_eq_cons_of_perm
      ((swap_pop_perm hi).trans (.cons _ (repair_perm _ _).symm))⟩
  · -- removing the last entry swaps nothing
    have hpop : (h.data.swapIfInBounds i (h.data.size - 1)).pop = h.data.pop := by
      rw [show h.data.size - 1 = i by omega, swapIfInBounds_self]
    exact ⟨Array.getElem?_eq_getElem hi, elems_eq_cons_of_perm (hpop ▸ swap_pop_perm hi)⟩

variable (hp : StrictWeakOrder prec)
include hp

theorem removeAt_ordered (ho : HeapOrdered prec h.arity h.data) (hw : h.Fits) {i : Nat}
    {x : Entry V P} {h' : DaryHeap V P prec R} {sw : Swaps} (hr : h.removeAt i = .ok (x, h', sw)) :
    HeapOrdered prec h'.arity h'.data := by
  obtain ⟨hi, -, ⟨hl, rfl, -⟩ | ⟨-, rfl, -⟩⟩ := removeAt_eq_ok hr
  · show HeapOrdered prec h.arity (repair prec h.arity _ i).1
    rw [swap_last_pop hl]
    have hw' : h.arity * h.data.pop.size + 1 < wordSize := by
      have : h.arity * h.data.pop.size ≤ h.arity * h.size :=
        Nat.mul_le_mul_left _ (by rw [Array.size_pop]; exact Nat.sub_le _ _)
      exact Nat.lt_of_le_of_lt (Nat.add_le_add_right this 1) hw
    exact repair_ordered hp h.arity_pos hw' ho.pop (by rw [Array.size_pop]; omega) _
  · exact ho.pop

omit hp in
theorem update_elems {i : Nat} {x e : Entry V P} {h' : DaryHeap V P prec R} {sw : Swaps}
    (hx : h.data[i]? = some x) (hu : h.update i e = .ok (h', sw)) :
    ∃ rest, h.elems = x ::ₘ rest ∧ h'.elems = e ::ₘ rest := by
  obtain ⟨hi, rfl⟩ := Array.getElem?_eq_some_iff.1 hx
  rw [update_of_lt hi] at hu
  cases hu
  have hl : i < h.data.toList.length := by simpa using hi
  refine ⟨(h.data.toList.eraseIdx i : Multiset _), ?_, ?_⟩
  · rw [elems, toList, Multiset.cons_coe, Multiset.coe_eq_coe]
    exact (List.getElem_cons_eraseIdx_perm hl).symm.trans (by simp)
  · rw [elems, toList, Multiset.cons_coe, Multiset.coe_eq_coe]
    refine (repair_perm _ _).trans ?_
    rw [Array.toList_setIfInBounds]
    exact List.set_perm_cons_eraseIdx hl e

theorem update_ordered (ho : HeapOrdered prec h.arity h.data) (hw : h.Fits) {i : Nat}
    {e : Entry V P} {h' : DaryHeap V P prec R} {sw : Swaps} (hu : h.update i e = .ok (h', sw)) :
    HeapOrdered prec h'.arity h'.data := by
  by_cases hi : i < h.data.size
  · rw [update_of_lt hi] at hu
    cases hu
    exact repair_ordered hp h.arity_pos hw ho hi e
  · simp [update, size, hi] at hu

theorem pop_ordered (ho : HeapOrdered prec h.arity h.data) (hw : h.Fits) {e : Entry V P}
    {h' : DaryHeap V P prec R} {sw : Swaps} (hpop : h.pop = .ok (e, h', sw)) :
    HeapOrdered prec h'.arity h'.data :=
  removeAt_ordered hp ho hw (removeAt_of_pop hpop)

theorem pushPop_ordered (ho : HeapOrdered prec h.arity h.data) (hw : h.Fits) (e : Entry V P) :
    HeapOrdered prec (h.pushPop e).2.1.arity (h.pushPop e).2.1.data := by
  unfold pushPop
  split
  · rename_i top htop
    split
    · show HeapOrdered prec h.arity (siftDownWrapping prec h.arity _ 0).1
      rw [← repair_zero]
      exact repair_ordered hp h.arity_pos hw ho (Array.getElem?_eq_some_iff.1 htop).1 e
    · exact ho
  · exact ho

theorem popPush_ordered (ho : HeapOrdered prec h.arity h.data) (hw : h.Fits) {e x : Entry V P}
    {h' : DaryHeap V P prec R} {sw : Swaps} (hpp : h.popPush e = .ok (x, h', sw)) :
    HeapOrdered prec h'.arity h'.data := by
  unfold popPush at hpp
  split at hpp
  · rename_i top htop
    cases hpp
    show HeapOrdered prec h.arity (siftDownWrapping prec h.arity _ 0).1
    rw [← repair_zero]
    exact repair_ordered hp h.arity_pos hw ho (Array.getElem?_eq_some_iff.1 htop).1 e
  · cases hpp

omit hp in
theorem data_of_deregister {K L : Type} [Registry R K L] {k : K} {h' : DaryHeap V P prec R}
    (hd : h.deregister k = .ok h') : h'.arity = h.arity ∧ h'.data = h.data := by
  unfold deregister at hd
  split at hd
  · cases hd
    exact ⟨rfl, rfl⟩
  · cases hd

end Heap

section Built

variable {K L : Type} [Registry R K L]

/-- The heaps that any sequence of operations builds, from an empty heap or from a list of entries:
pushes and pops, writes and removals at a position, push-pop and pop-push, clears, copies, and
registering or deregistering listeners; every operation that sifts down does so in an array whose
positions fit in words. -/
inductive Built : DaryHeap V P prec R → Prop
  | new (arity : Nat) : Built (new arity)
  | ofList (arity : Nat) (es : List (Entry V P)) : max arity 2 * es.length + 1 < wordSize →
      Built (ofList arity es)
  | push {h : DaryHeap V P prec R} (e : Entry V P) : Built h → Built (h.push e).1
  | pop {h h' : DaryHeap V P prec R} {e : Entry V P} {sw : Swaps} : Built h → h.Fits →
      h.pop = .ok (e, h', sw) → Built h'
  | update {h h' : DaryHeap V P prec R} {i : Nat} {e : Entry V P} {sw : Swaps} : Built h →
      h.Fits → h.update i e = .ok (h', sw) → Built h'
  | removeAt {h h' : DaryHeap V P prec R} {i : Nat} {e : Entry V P} {sw : Swaps} : Built h →
      h.Fits → h.removeAt i = .ok (e, h', sw) → Built h'
  | pushPop {h : DaryHeap V P prec R} (e : Entry V P) : Built h → h.Fits →
      Built (h.pushPop e).2.1
  | popPush {h h' : DaryHeap V P prec R} {e x : Entry V P} {sw : Swaps} : Built h → h.Fits →
      h.popPush e = .ok (x, h', sw) → Built h'
  | clear {h : DaryHeap V P prec R} : Built h → Built h.clear
  | copy {h : DaryHeap V P prec R} : Built h → Built h.copy
  | register {h : DaryHeap V P prec R} (l : L) : Built h → Built (h.register l).2
  | deregister {h h' : DaryHeap V P prec R} {k : K} : Built h →
      h.deregister k = .ok h' → Built h'

theorem Built.heapOrdered (hp : StrictWeakOrder prec) {h : DaryHeap V P prec R}
    (hb : h.Built) : HeapOrdered prec h.arity h.data := by
  induction hb with
  | new arity => exact heapOrdered_empty _
  | ofList arity es hw =>
    -- with positions that fit, construction in words is construction
    have hd : 0 < max arity 2 := Nat.lt_of_lt_of_le (by decide) (Nat.le_max_right _ _)
    rw [ofList_arity, ofList_data, heapifyWrapping_eq_heapify hd _ (by rwa [List.size_toArray])]
    exact heapify_ordered hd _ hp
  | push e _ ih => exact push_ordered hp ih e
  | pop _ hw hpop ih => exact pop_ordered hp ih hw hpop
  | update _ hw hu ih => exact update_ordered hp ih hw hu
  | removeAt _ hw hr ih => exact removeAt_ordered hp ih hw hr
  | pushPop e _ hw ih => exact pushPop_ordered hp ih hw e
  | popPush _ hw hpp ih => exact popPush_ordered hp ih hw hpp
  | clear _ _ => exact heapOrdered_empty _
  | copy _ ih => exact ih
  | register l _ ih => exact ih
  | deregister _ hd ih =>
    obtain ⟨harity, hdata⟩ := data_of_deregister hd
    rw [harity, hdata]
    exact ih

end Built

end DaryHeap

end PriorityQueues
