import Mathlib
import PriorityQueues.Script.Session

/-!
Sessions slot by slot: two sessions correspond under a relation on heaps when their slots do.
-/

namespace PriorityQueues.Script

section OptionRel

variable {α β γ : Type} {r : α → β → Prop}

theorem optionRel_eq_none_iff {a : Option α} {b : Option β} (h : Option.Rel r a b) :
    a = none ↔ b = none := by
  cases h <;> simp

theorem optionRel_bind_id {a : Option (Option α)} {b : Option (Option β)}
    (h : Option.Rel (Option.Rel r) a b) : Option.Rel r (a.bind id) (b.bind id) := by
  cases h with
  | none => exact .none
  | some hab => exact hab

theorem optionRel_map_eq {f : α → γ} {g : β → γ} {a : Option α} {b : Option β}
    (h : Option.Rel r a b) (hfg : ∀ x y, r x y → f x = g y) : a.map f = b.map g := by
  cases h with
  | none => rfl
  | some hxy => rw [Option.map_some, Option.map_some, hfg _ _ hxy]

end OptionRel

section Slots

variable {H₁ H₂ : Type} {R : H₁ → H₂ → Prop}

variable (R) in
def SlotsRel (s₁ : Session H₁) (s₂ : Session H₂) : Prop :=
  ∀ n : Nat, Option.Rel (Option.Rel R) s₁.slots[n]? s₂.slots[n]?

variable {s₁ : Session H₁} {s₂ : Session H₂}

theorem SlotsRel.size_eq (hs : SlotsRel R s₁ s₂) : s₁.slots.size = s₂.slots.size := by
  -- a slot is missing from one session exactly when it is missing from the other
  have hle : ∀ n, s₁.slots.size ≤ n ↔ s₂.slots.size ≤ n := fun n => by
    rw [← Array.getElem?_eq_none_iff, ← Array.getElem?_eq_none_iff]
    exact optionRel_eq_none_iff (hs n)
  exact Nat.le_antisymm ((hle _).2 le_rfl) ((hle _).1 le_rfl)

theorem SlotsRel.heap? (hs : SlotsRel R s₁ s₂) (n : Nat) :
    Option.Rel R (s₁.heap? n) (s₂.heap? n) :=
  optionRel_bind_id (hs n)

theorem SlotsRel.lens {size₁ : H₁ → Nat} {size₂ : H₂ → Nat} (hs : SlotsRel R s₁ s₂)
    (hsize : ∀ h₁ h₂, R h₁ h₂ → size₁ h₁ = size₂ h₂) : s₁.lens size₁ = s₂.lens size₂ := by
  apply List.ext_getElem?
  intro n
  simp only [Session.lens, List.getElem?_map, Array.getElem?_toList]
  -- slot by slot: both empty, or heaps of the same size
  exact optionRel_map_eq (hs n) fun _ _ hab => optionRel_map_eq hab hsize

theorem SlotsRel.put (hs : SlotsRel R s₁ s₂) (n : Nat) {o₁ : Option H₁} {o₂ : Option H₂}
    (ho : Option.Rel R o₁ o₂) : SlotsRel R (s₁.put n o₁) (s₂.put n o₂) := by
  intro k
  simp only [Session.put, Array.getElem?_setIfInBounds, hs.size_eq]
  split
  · split
    · exact .some ho
    · exact .none
  · exact hs k

theorem SlotsRel.add (hs : SlotsRel R s₁ s₂) {h₁ : H₁} {h₂ : H₂} (hh : R h₁ h₂) :
    (s₁.add h₁).1 = (s₂.add h₂).1 ∧ SlotsRel R (s₁.add h₁).2 (s₂.add h₂).2 := by
  refine ⟨hs.size_eq, fun k => ?_⟩
  simp only [Session.add, Array.getElem?_push, hs.size_eq]
  split
  · exact .some (.some hh)
  · exact hs k

theorem slotsRel_refl {H : Type} {R : H → H → Prop} (hR : ∀ h, R h h) (s : Session H) :
    SlotsRel R s s := by
  intro n
  cases s.slots[n]? with
  | none => exact .none
  | some o =>
    cases o with
    | none => exact .some .none
    | some h => exact .some (.some (hR h))

theorem slotsRel_start {h₁ : H₁} {h₂ : H₂} (hh : R h₁ h₂) :
    SlotsRel R (Session.start h₁) (Session.start h₂) := by
  intro k
  cases k with
  | zero => exact .some (.some hh)
  | succ k => exact .none

theorem SlotsRel.mono {R' : H₁ → H₂ → Prop} (hR : ∀ h₁ h₂, R h₁ h₂ → R' h₁ h₂)
    (hs : SlotsRel R s₁ s₂) : SlotsRel R' s₁ s₂ := by
  intro n
  have h := hs n
  generalize s₁.slots[n]? = a at h ⊢
  generalize s₂.slots[n]? = b at h ⊢
  cases h with
  | none => exact .none
  | some ho =>
    cases ho with
    | none => exact .some .none
    | some hh => exact .some (.some (hR _ _ hh))

theorem SlotsRel.slot_bind {α β : Type} (hs : SlotsRel R s₁ s₂) (op : Json) (key : String)
    (d : Option Nat) {Q : Check α → Check β → Prop} (hq : ∀ w, Q (.error w) (.error w))
    {k₁ : Nat × H₁ → Check α} {k₂ : Nat × H₂ → Check β}
    (hk : ∀ n h₁ h₂, R h₁ h₂ → Q (k₁ (n, h₁)) (k₂ (n, h₂))) :
    Q (s₁.slot op key d >>= k₁) (s₂.slot op key d >>= k₂) := by
  simp only [Session.slot, bind_assoc]
  cases slotField op key d with
  | error w => exact hq w
  | ok n =>
    have h := hs.heap? n
    simp only [bind, Except.bind]
    generalize s₁.heap? n = a at h ⊢
    generalize s₂.heap? n = b at h ⊢
    cases h with
    | none => exact hq _
    | some hh => exact hk n _ _ hh

end Slots

end PriorityQueues.Script
