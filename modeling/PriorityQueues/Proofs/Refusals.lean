import Mathlib
import PriorityQueues.Proofs.RadixQueue
import PriorityQueues.Proofs.Refinement
import PriorityQueues.Proofs.DaryTracking

/-!
Refusals: the exact condition under which each operation fails, with the error that names it.
-/

namespace PriorityQueues

section Refusal

variable {α : Type} {p : Prop} {e err : HeapError}

theorem error_eq_error_iff_of (hp : p) :
    (Except.error e : Except HeapError α) = .error err ↔ p ∧ err = e := by
  rw [Except.error.injEq]
  exact ⟨fun he => ⟨hp, he.symm⟩, fun hc => hc.2.symm⟩

theorem ok_eq_error_iff_of {a : α} (hp : ¬p) :
    (Except.ok a : Except HeapError α) = .error err ↔ p ∧ err = e :=
  iff_of_false (fun h => by cases h) fun hc => hp hc.1

theorem refusal_eq_iff_of {s s' : Nat} (hp : p) :
    ((.error e, s) : Except HeapError α × Nat) = (.error err, s') ↔ p ∧ err = e ∧ s' = s := by
  rw [Prod.mk.injEq, Except.error.injEq]
  exact ⟨fun hc => ⟨hp, hc.1.symm, hc.2.symm⟩, fun hc => ⟨hc.2.1.symm, hc.2.2.symm⟩⟩

theorem ok_eq_refusal_iff_of {a : α} {t s s' : Nat} (hp : ¬p) :
    ((.ok a, t) : Except HeapError α × Nat) = (.error err, s') ↔ p ∧ err = e ∧ s' = s :=
  iff_of_false (fun h => by cases h) fun hc => hp hc.1

end Refusal

namespace DaryHeap

variable {V P R : Type} {prec : P → P → Bool} {h : DaryHeap V P prec R} {err : HeapError}

theorem get_eq_error_iff {i : Nat} :
    h.get i = .error err ↔ h.size ≤ i ∧ err = .indexOutOfBounds i h.size := by
  unfold get
  split
  · rename_i x hx
    exact ok_eq_error_iff_of (Nat.not_le.2 (Array.getElem?_eq_some_iff.1 hx).1)
  · rename_i hx
    exact error_eq_error_iff_of (Array.getElem?_eq_none_iff.1 hx)

theorem update_eq_error_iff {i : Nat} {e : Entry V P} :
    h.update i e = .error err ↔ h.size ≤ i ∧ err = .indexOutOfBounds i h.size := by
  unfold update
  split
  · rename_i hi
    exact ok_eq_error_iff_of (Nat.not_le.2 hi)
  · rename_i hi
    exact error_eq_error_iff_of (Nat.le_of_not_lt hi)

theorem removeAt_eq_error_iff {i : Nat} :
    h.removeAt i = .error err ↔ h.size ≤ i ∧ err = .indexOutOfBounds i h.size := by
  -- the three shapes of a removal: before the last position, at it, and past the end
  rcases Nat.lt_or_ge (i + 1) h.data.size with hi | hi
  · rw [removeAt_of_lt_last hi]
    exact ok_eq_error_iff_of (by unfold size; omega)
  · rcases Nat.lt_or_ge i h.data.size with hi' | hi'
    · rw [removeAt_last (by omega)]
      exact ok_eq_error_iff_of (by unfold size; omega)
    · rw [removeAt_of_size_le hi']
      exact error_eq_error_iff_of hi'

theorem pop_eq_error_iff : h.pop = .error err ↔ h.size = 0 ∧ err = .empty := by
  rcases Nat.eq_zero_or_pos h.data.size with hs | hs
  · rw [pop_of_size_eq_zero hs]
    exact error_eq_error_iff_of hs
  · obtain ⟨sw, hp⟩ := pop_of_pos hs
    rw [hp]
    exact ok_eq_error_iff_of (by unfold size; omega)

theorem peek_eq_error_iff : h.peek = .error err ↔ h.size = 0 ∧ err = .empty := by
  unfold peek
  split
  · rename_i x hx
    exact ok_eq_error_iff_of (Nat.pos_iff_ne_zero.1 (Array.getElem?_eq_some_iff.1 hx).1)
  · rename_i hx
    exact error_eq_error_iff_of (Nat.le_zero.1 (Array.getElem?_eq_none_iff.1 hx))

theorem popPush_eq_error_iff {e : Entry V P} :
    h.popPush e = .error err ↔ h.size = 0 ∧ err = .empty := by
  unfold popPush
  split
  · rename_i x hx
    exact ok_eq_error_iff_of (Nat.pos_iff_ne_zero.1 (Array.getElem?_eq_some_iff.1 hx).1)
  · rename_i hx
    exact error_eq_error_iff_of (Nat.le_zero.1 (Array.getElem?_eq_none_iff.1 hx))

end DaryHeap

namespace DaryHeap

variable {V P R K L : Type} [Registry R K L] [LawfulRegistry R K L] {prec : P → P → Bool}
  {h : DaryHeap V P prec R} {err : HeapError}

theorem deregister_eq_error_iff {k : K} :
    h.deregister k = .error err ↔ Registry.get h.listeners k = none ∧ err = .listenerNotFound := by
  rw [← LawfulRegistry.remove_eq_none_iff]
  unfold deregister
  split
  · rename_i ls hls
    exact ok_eq_error_iff_of (by simp [hls])
  · rename_i hls
    exact error_eq_error_iff_of hls

theorem deregister_refused_after_deregister {k : K} {h' h'' : DaryHeap V P prec R}
    (hd : h.deregister k = .ok h') (hl : Registry.Later h'.listeners h''.listeners) :
    h''.deregister k = .error .listenerNotFound :=
  deregister_eq_error_iff.2 ⟨Registry.removed_key_stays_dead (deregister_eq_ok hd) hl, rfl⟩

end DaryHeap

namespace TreeHeap

variable {T : Type → Type} [Meldable T] {V P : Type} {prec : P → P → Bool}
  {h : TreeHeap T V P prec} {err : HeapError}

theorem pop_shared_of_error {s s' : Nat} (hp : h.pop s = (.error err, s')) : s' = s := by
  cases ht : Meldable.popTop (Entry.before prec) h.tree with
  | none =>
    rw [pop_of_popTop_none s ht] at hp
    exact (Prod.mk.inj hp).2.symm
  | some r =>
    obtain ⟨e, t⟩ := r
    rw [pop_of_popTop s ht] at hp
    cases hp

variable [LawfulMeldable T]

theorem size_eq_zero_iff : h.size = 0 ↔ Meldable.popTop (Entry.before prec) h.tree = none := by
  rw [size, LawfulMeldable.size_eq_length, List.length_eq_zero_iff, LawfulMeldable.popTop_eq_none]

theorem pop_eq_error_iff {s s' : Nat} :
    h.pop s = (.error err, s') ↔ h.size = 0 ∧ err = .empty ∧ s' = s := by
  cases ht : Meldable.popTop (Entry.before prec) h.tree with
  | none =>
    rw [pop_of_popTop_none s ht]
    exact refusal_eq_iff_of (size_eq_zero_iff.2 ht)
  | some r =>
    obtain ⟨e, t⟩ := r
    rw [pop_of_popTop s ht]
    exact ok_eq_refusal_iff_of (by rw [size_eq_zero_iff, ht]; exact Option.some_ne_none _)

theorem peek_eq_error_iff : h.peek = .error err ↔ h.size = 0 ∧ err = .empty := by
  unfold peek
  rw [LawfulMeldable.top?_eq_popTop (Entry.before prec), size_eq_zero_iff]
  cases Meldable.popTop (Entry.before prec) h.tree <;> simp [eq_comm]

end TreeHeap

namespace TrackedHeap

variable {T : Type → Type} [Meldable T] {V P : Type} {prec : P → P → Bool}
  {h : TrackedHeap T V P prec} {err : HeapError} {k : UInt64}

theorem get_eq_error_iff : h.get k = .error err ↔ h.contains k = false ∧ err = .nodeNotFound := by
  unfold get contains
  cases Meldable.find? (Tagged.hasId k) h.tree <;> simp [eq_comm]

theorem updateValue_eq_error_iff {v : V} :
    h.updateValue k v = .error err ↔ h.contains k = false ∧ err = .nodeNotFound := by
  cases hk : h.contains k with
  | true => simp [updateValue_of_contains v hk]
  | false => simp [updateValue_of_not_contains v hk, eq_comm]

theorem updatePriority_eq_error_iff {p : P} :
    h.updatePriority k p = .error err ↔ h.contains k = false ∧ err = .nodeNotFound := by
  cases hk : h.contains k with
  | true => simp [updatePriority_of_contains p hk]
  | false => simp [updatePriority_of_not_contains p hk, eq_comm]

theorem merge_eq_error_iff {o : TrackedHeap T V P prec} :
    h.merge o = .error err ↔ (∃ k ∈ o.liveIds, h.contains k = true) ∧ err = .idCollision := by
  cases hd : o.liveIds.any h.contains with
  | true =>
    rw [merge_of_not_disjoint hd]
    exact error_eq_error_iff_of (List.any_eq_true.1 hd)
  | false =>
    rw [merge_of_disjoint hd]
    exact ok_eq_error_iff_of (by simpa using hd)

theorem push_eq_error_iff {e : Entry V P} {s s' : Nat} {h' : TrackedHeap T V P prec} :
    h.push e s = (.error err, h', s') ↔
      h.contains h.ids.next = true ∧ err = .idCollision ∧ h' = { h with ids := h.ids.issue.2 } ∧
        s' = s := by
  cases hk : h.contains h.ids.next with
  | true =>
    rw [push_of_contains e s hk]
    simp only [Prod.mk.injEq, Except.error.injEq, true_and]
    exact ⟨fun hc => ⟨hc.1.symm, hc.2.1.symm, hc.2.2.symm⟩,
      fun hc => ⟨hc.1.symm, hc.2.1.symm, hc.2.2.symm⟩⟩
  | false =>
    rw [push_of_not_contains e s hk]
    simp

theorem merge_ne_error_of_checkMerge {o : TrackedHeap T V P prec} (hc : h.checkMerge o = .ok ()) :
    h.merge o ≠ .error err := by
  cases hd : o.liveIds.any h.contains with
  | true => simp [checkMerge, hd] at hc
  | false =>
    rw [merge_of_disjoint hd]
    intro hm
    cases hm

theorem pop_shared_of_error {s s' : Nat} (hp : h.pop s = (.error err, s')) : s' = s := by
  cases ht : Meldable.popTop (Tagged.before prec) h.tree with
  | none =>
    rw [pop_of_popTop_none s ht] at hp
    exact (Prod.mk.inj hp).2.symm
  | some r =>
    obtain ⟨a, t⟩ := r
    rw [pop_of_popTop s ht] at hp
    cases hp

theorem remove_shared_of_error {s s' : Nat} (hr : h.remove k s = (.error err, s')) : s' = s := by
  cases ht : Meldable.extract (Tagged.before prec) (Tagged.hasId k) h.tree with
  | none =>
    rw [remove_of_extract_none s ht] at hr
    exact (Prod.mk.inj hr).2.symm
  | some r =>
    obtain ⟨a, t⟩ := r
    rw [remove_of_extract s ht] at hr
    cases hr

variable [LawfulMeldable T]

theorem contains_eq_true_iff : h.contains k = true ↔ ∃ a ∈ Meldable.toList h.tree, a.id = k := by
  rw [contains, LawfulMeldable.find?_eq, List.find?_isSome]
  simp [Tagged.hasId]

theorem contains_of_updateValue {v : V} {h' : TrackedHeap T V P prec}
    (hu : h.updateValue k v = .ok h') : h'.contains k = true := by
  cases hk : h.contains k with
  | true =>
    rw [updateValue_of_contains v hk, Except.ok.injEq] at hu
    subst hu
    obtain ⟨a, ha, hid⟩ := contains_eq_true_iff.1 hk
    refine contains_eq_true_iff.2 ⟨mapIf (Tagged.hasId k) (setValue v) a, ?_, ?_⟩
    · rw [LawfulMeldable.toList_modify]
      exact List.mem_map_of_mem ha
    · unfold mapIf
      split <;> exact hid
  | false => simp [updateValue_of_not_contains v hk] at hu

theorem update_eq_error_iff {v : V} {p : P} :
    h.update k v p = .error err ↔ h.contains k = false ∧ err = .nodeNotFound := by
  rw [update_eq]
  cases hv : h.updateValue k v with
  | error e =>
    rw [← updateValue_eq_error_iff, hv]
    simp [Except.bind]
  | ok h₁ =>
    have hk : h.contains k = true := by
      by_contra hk
      rw [updateValue_of_not_contains v (by simpa using hk)] at hv
      cases hv
    simp only [Except.bind, hk, Bool.true_eq_false, false_and, iff_false]
    rw [updatePriority_of_contains p (contains_of_updateValue hv)]
    simp

theorem remove_eq_error_iff {s s' : Nat} :
    h.remove k s = (.error err, s') ↔ h.contains k = false ∧ err = .nodeNotFound ∧ s' = s := by
  have hnone : Meldable.extract (Tagged.before prec) (Tagged.hasId k) h.tree = none ↔
      h.contains k = false := by
    rw [LawfulMeldable.extract_eq_none, ← Bool.not_eq_true, contains_eq_true_iff]
    simp [Tagged.hasId]
  cases hx : Meldable.extract (Tagged.before prec) (Tagged.hasId k) h.tree with
  | none =>
    rw [remove_of_extract_none s hx]
    exact refusal_eq_iff_of (hnone.1 hx)
  | some r =>
    obtain ⟨a, t⟩ := r
    rw [remove_of_extract s hx]
    exact ok_eq_refusal_iff_of (by rw [← hnone, hx]; exact Option.some_ne_none _)

theorem size_eq_zero_iff : h.size = 0 ↔ Meldable.popTop (Tagged.before prec) h.tree = none := by
  rw [size, LawfulMeldable.size_eq_length, List.length_eq_zero_iff, LawfulMeldable.popTop_eq_none]

theorem pop_eq_error_iff {s s' : Nat} :
    h.pop s = (.error err, s') ↔ h.size = 0 ∧ err = .empty ∧ s' = s := by
  cases ht : Meldable.popTop (Tagged.before prec) h.tree with
  | none =>
    rw [pop_of_popTop_none s ht]
    exact refusal_eq_iff_of (size_eq_zero_iff.2 ht)
  | some r =>
    obtain ⟨a, t⟩ := r
    rw [pop_of_popTop s ht]
    exact ok_eq_refusal_iff_of (by rw [size_eq_zero_iff, ht]; exact Option.some_ne_none _)

theorem peek_eq_error_iff : h.peek = .error err ↔ h.size = 0 ∧ err = .empty := by
  unfold peek
  rw [LawfulMeldable.top?_eq_popTop (Tagged.before prec), size_eq_zero_iff]
  cases Meldable.popTop (Tagged.before prec) h.tree <;> simp [eq_comm]

end TrackedHeap

namespace RadixHeap

variable {V : Type} {h : RadixHeap V} {err : HeapError}

theorem Filed.rebalance_eq_error_iff (hf : Filed h) :
    h.rebalance = .error err ↔
      (h.size = 0 ∧ err = .empty) ∨
        (h.size ≠ 0 ∧ (∃ x xs, h.buckets[0]? = some (x :: xs)) ∧ err = .rebalanceNotNeeded) := by
  by_cases hs : h.size = 0
  · simp [RadixHeap.rebalance, hs, eq_comm]
  · have hb0 : 0 < h.buckets.size := by
      rw [hf.size_buckets]
      omega
    cases hb : h.buckets[0] with
    | cons x xs =>
      have h0 : h.buckets[0]? = some (x :: xs) := by rw [Array.getElem?_eq_getElem hb0, hb]
      simp [RadixHeap.rebalance, hs, h0, eq_comm]
    | nil =>
      -- bucket 0 is empty, so a first non-empty bucket exists and the redistribution succeeds
      have h0 : h.buckets[0]? = some [] := by rw [Array.getElem?_eq_getElem hb0, hb]
      obtain ⟨i, e, es, hff⟩ := hf.firstFilled_of_pos (Nat.pos_of_ne_zero hs) h0
      rw [rebalance_of_firstFilled hs h0 hff]
      simp [hs, h0]

end RadixHeap

end PriorityQueues
