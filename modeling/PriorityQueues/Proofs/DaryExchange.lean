import Mathlib
import PriorityQueues.Proofs.DaryRepair

/-!
Pushing and popping in one step: `popPush` leaves what a pop then a push leave, and `pushPop`
agrees with a push then a pop up to a tie.
-/

namespace PriorityQueues

namespace DaryHeap

variable {V P R : Type} {prec : P → P → Bool} {h : DaryHeap V P prec R} {e : Entry V P}

theorem popPush_of_root {top : Entry V P} (htop : h.data[0]? = some top) :
    ∃ h' sw, h.update 0 e = .ok (h', sw) ∧ h.popPush e = .ok (top, h', sw) := by
  have hs : 0 < h.data.size := (Array.getElem?_eq_some_iff.1 htop).1
  refine ⟨_, _, update_of_lt hs e, ?_⟩
  simp only [popPush, htop, repair_zero]

theorem pushPop_of_prec {top : Entry V P} (htop : h.data[0]? = some top)
    (hprec : prec top.priority e.priority = true) :
    h.popPush e = .ok (h.pushPop e) := by
  simp only [popPush, pushPop, htop, hprec, if_true]

theorem pushPop_of_not_prec {top : Entry V P} (htop : h.data[0]? = some top)
    (hprec : prec top.priority e.priority = false) : h.pushPop e = (e, h, []) := by
  simp only [pushPop, htop, hprec, Bool.false_eq_true, if_false]

theorem pushPop_of_empty (htop : h.data[0]? = none) : h.pushPop e = (e, h, []) := by
  simp only [pushPop, htop]

theorem popPush_elems {top : Entry V P} (htop : h.data[0]? = some top) :
    ∃ h' sw, h.popPush e = .ok (top, h', sw) ∧ ∃ rest, h.elems = top ::ₘ rest ∧
      h'.elems = e ::ₘ rest := by
  obtain ⟨h', sw, hu, hpp⟩ := popPush_of_root (e := e) htop
  exact ⟨h', sw, hpp, update_elems htop hu⟩

theorem popPush_eq_pop_push (hs : 0 < h.size) (e : Entry V P) :
    ∃ x h' sw h₁ sw₁, h.popPush e = .ok (x, h', sw) ∧ h.pop = .ok (x, h₁, sw₁) ∧
      h'.elems = (h₁.push e).1.elems := by
  have htop : h.data[0]? = some h.data[0] := Array.getElem?_eq_getElem hs
  obtain ⟨h', sw, hpp, rest, hrest, hh'⟩ := popPush_elems (e := e) htop
  obtain ⟨sw₁, hpop⟩ := pop_of_pos hs
  have hremoved := (removeAt_elems (removeAt_of_pop hpop)).2
  refine ⟨_, h', sw, _, sw₁, hpp, hpop, ?_⟩
  -- the pop leaves exactly the entries the write at the root kept
  rw [elems_push, hh', (Multiset.cons_inj_right _).1 (hrest.symm.trans hremoved)]

section Ordered

variable (hp : StrictWeakOrder prec) (ho : HeapOrdered prec h.arity h.data)
include hp ho

theorem root_minimal_of_getElem? {top : Entry V P} (htop : h.data[0]? = some top) :
    ∀ y ∈ h.elems, prec y.priority top.priority = false := by
  obtain ⟨hs, rfl⟩ := Array.getElem?_eq_some_iff.1 htop
  exact root_minimal hp ho hs

theorem pushPop_spec (hw : h.Fits) (e : Entry V P) :
    e ::ₘ h.elems = (h.pushPop e).1 ::ₘ (h.pushPop e).2.1.elems ∧
      (∀ y ∈ e ::ₘ h.elems, prec y.priority (h.pushPop e).1.priority = false) ∧
      HeapOrdered prec (h.pushPop e).2.1.arity (h.pushPop e).2.1.data := by
  have hord := pushPop_ordered hp ho hw e
  cases htop : h.data[0]? with
  | none =>
    rw [pushPop_of_empty htop] at hord ⊢
    have h0 : h.elems = 0 := by
      rw [← Multiset.card_eq_zero, ← size_eq_card]
      exact Nat.eq_zero_of_le_zero (Array.getElem?_eq_none_iff.1 htop)
    refine ⟨rfl, fun y hy => ?_, hord⟩
    rw [h0] at hy
    rw [Multiset.mem_singleton.1 hy]
    exact hp.irrefl _
  | some top =>
    cases hprec : prec top.priority e.priority with
    | false =>
      -- the fast path: whatever does not precede the root does not precede the new entry
      rw [pushPop_of_not_prec htop hprec] at hord ⊢
      refine ⟨rfl, fun y hy => ?_, hord⟩
      rcases Multiset.mem_cons.1 hy with rfl | hy
      · exact hp.irrefl _
      · exact hp.not_prec_trans (root_minimal_of_getElem? hp ho htop y hy) hprec
    | true =>
      obtain ⟨h', sw, hpp, rest, hrest, hh'⟩ := popPush_elems (e := e) htop
      have hpush : h.pushPop e = (top, h', sw) := by
        have := pushPop_of_prec htop hprec
        rw [hpp] at this
        exact (Except.ok.inj this).symm
      rw [hpush] at hord ⊢
      refine ⟨by rw [hrest, hh', Multiset.cons_swap], fun y hy => ?_, hord⟩
      rcases Multiset.mem_cons.1 hy with rfl | hy
      · exact hp.asymm hprec
      · exact root_minimal_of_getElem? hp ho htop y hy

theorem pushPop_tied_with_push_pop (hw : h.arity * (h.size + 1) + 1 < wordSize) (e : Entry V P) :
    ∃ y h₁ sw, (h.push e).1.pop = .ok (y, h₁, sw) ∧
      prec y.priority (h.pushPop e).1.priority = false ∧
      prec (h.pushPop e).1.priority y.priority = false ∧
      (h.pushPop e).1 ::ₘ (h.pushPop e).2.1.elems = y ::ₘ h₁.elems := by
  -- the heap and the heap with the new entry both fit
  have hfits : h.Fits := by
    unfold Fits
    have : h.arity * h.size ≤ h.arity * (h.size + 1) := Nat.mul_le_mul_left _ (Nat.le_succ _)
    omega
  have hfits₂ : (h.push e).1.Fits := by
    unfold Fits
    rw [size_eq_card, elems_push, Multiset.card_cons, ← size_eq_card]
    exact hw
  obtain ⟨hunion, hmin, -⟩ := pushPop_spec hp ho hfits e
  have ho₂ := push_ordered hp ho e
  have hs : 0 < (h.push e).1.data.size := size_pos_iff.2 (by simp [elems_push])
  obtain ⟨h₁, sw, hpop, -, helems⟩ := pop_rest hp ho₂ hfits₂ hs
  have hunion₂ : e ::ₘ h.elems = (h.push e).1.data[0] ::ₘ h₁.elems := by
    rw [← elems_push, helems]
  refine ⟨_, h₁, sw, hpop, hmin _ (by simp [hunion₂]), ?_, hunion.symm.trans hunion₂⟩
  -- the answer of the push-pop is among the pushed heap's entries, so no better than its root
  apply root_minimal hp ho₂ hs
  rw [elems_push, hunion]
  exact Multiset.mem_cons_self _ _

end Ordered

end DaryHeap

end PriorityQueues
