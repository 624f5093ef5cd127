import Mathlib
import PriorityQueues.Order
import PriorityQueues.Entry
import PriorityQueues.Tracked.Heap

/-!
What the strict-weak-order laws give: asymmetry, transitivity of not preceding, and their transfer
to entries and tagged entries.
-/

namespace PriorityQueues

namespace StrictWeakOrder

variable {P : Type} {prec : P → P → Bool}

theorem asymm (h : StrictWeakOrder prec) {a b : P} (hab : prec a b = true) :
    prec b a = false := by
  cases hba : prec b a
  . rfl
  . have := h.trans a b a hab hba
    rw [h.irrefl a] at this
    contradiction

theorem not_prec_trans (h : StrictWeakOrder prec) {a b c : P} (hab : prec a b = false)
    (hbc : prec b c = false) : prec a c = false := by
  cases hac : prec a c
  . rfl
  . have hba : prec b a = false := by
      cases hba : prec b a
      . rfl
      . have := h.trans b a c hba hac
        rw [hbc] at this
        contradiction
    have hcb : prec c b = false := by
      cases hcb : prec c b
      . rfl
      . have := h.trans a c b hac hcb
        rw [hab] at this
        contradiction
    have := (h.tie_trans a b c hab hba hbc hcb).1
    rw [hac] at this
    contradiction

theorem comap (h : StrictWeakOrder prec) {β : Type} (f : β → P) :
    StrictWeakOrder (fun a b => prec (f a) (f b)) where
  irrefl a := h.irrefl (f a)
  trans a b c := h.trans (f a) (f b) (f c)
  tie_trans a b c := h.tie_trans (f a) (f b) (f c)

theorem entry (h : StrictWeakOrder prec) {V : Type} :
    StrictWeakOrder (Entry.before (V := V) prec) :=
  h.comap Entry.priority

theorem tagged (h : StrictWeakOrder prec) {V : Type} :
    StrictWeakOrder (Tagged.before (V := V) prec) :=
  h.comap fun a : Tagged V P => a.entry.priority

theorem ofLT {β γ : Type} [LinearOrder γ] (f : β → γ) :
    StrictWeakOrder (fun a b => decide (f a < f b)) where
  irrefl a := by simp
  trans a b c hab hbc := by
    simp only [decide_eq_true_eq] at *
    exact lt_trans hab hbc
  tie_trans a b c hab hba hbc hcb := by
    simp only [decide_eq_false_iff_not, not_lt] at *
    exact ⟨by simp [le_antisymm hba hab, le_antisymm hcb hbc],
      by simp [le_antisymm hba hab, le_antisymm hcb hbc]⟩

end StrictWeakOrder

def TotalOrder {P : Type} (prec : P → P → Bool) : Prop :=
  StrictWeakOrder prec ∧ ∀ a b, prec a b = false → prec b a = false → a = b

namespace Ranking

theorem strictWeakOrder (r : Ranking) : StrictWeakOrder r.precedes := by
  cases r with
  | ascending => exact StrictWeakOrder.ofLT (fun a : Int => a)
  | descending => exact StrictWeakOrder.ofLT (fun a : Int => OrderDual.toDual a)
  | lastDigit => exact StrictWeakOrder.ofLT (fun a : Int => a % 10)
  | magnitude => exact StrictWeakOrder.ofLT Int.natAbs
  | flat =>
    exact ⟨fun _ => rfl, fun _ _ _ h => by simp [precedes] at h,
      fun _ _ _ _ _ _ _ => ⟨rfl, rfl⟩⟩

theorem ascending_totalOrder : TotalOrder Ranking.ascending.precedes := by
  refine ⟨strictWeakOrder .ascending, fun a b hab hba => ?_⟩
  simp only [precedes, decide_eq_false_iff_not, not_lt] at hab hba
  omega

theorem descending_totalOrder : TotalOrder Ranking.descending.precedes := by
  refine ⟨strictWeakOrder .descending, fun a b hab hba => ?_⟩
  simp only [precedes, decide_eq_false_iff_not, not_lt] at hab hba
  omega

end Ranking

end PriorityQueues
