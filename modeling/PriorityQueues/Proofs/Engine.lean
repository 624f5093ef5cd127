import Mathlib
import PriorityQueues.Proofs.Order
import PriorityQueues.Tree.Meldable

/-!
Tree engines in general: `LawfulMeldable` says what each operation does to the list of elements,
and every tree the operations build (`Meldable.Reachable`) passes `verify`.
-/

namespace PriorityQueues

def mapIf {α : Type} (p : α → Bool) (f : α → α) (a : α) : α := if p a then f a else a

@[simp]
theorem mapIf_of_pass {α : Type} {p : α → Bool} (f : α → α) {a : α} (h : p a = true) :
    mapIf p f a = f a := by
  simp [mapIf, h]

@[simp]
theorem mapIf_of_fail {α : Type} {p : α → Bool} (f : α → α) {a : α} (h : p a = false) :
    mapIf p f a = a := by
  simp [mapIf, h]

theorem prec_mapIf {α : Type} {prec : α → α → Bool} (p : α → Bool) {f : α → α}
    (hf : ∀ a b, prec (f a) b = prec a b) (hf' : ∀ a b, prec a (f b) = prec a b) (a b : α) :
    prec (mapIf p f a) (mapIf p f b) = prec a b := by
  unfold mapIf
  split <;> split <;> simp [hf, hf']

theorem map_mapIf_of_none {α : Type} {p : α → Bool} (f : α → α) {l : List α}
    (h : ∀ a ∈ l, p a = false) : l.map (mapIf p f) = l := by
  exact (List.map_congr_left fun a ha => mapIf_of_fail f (h a ha)).trans (List.map_id' l)

theorem map_mapIf_perm {α : Type} {p : α → Bool} (f : α → α) {l l' : List α} {y : α}
    (hl : l.Perm (y :: l')) (hy : p y = true) (hone : l.countP p ≤ 1) :
    (l.map (mapIf p f)).Perm (f y :: l') := by
  have hrest : ∀ a ∈ l', p a = false := by
    have hc := hl.countP_eq p
    rw [List.countP_cons_of_pos hy] at hc
    have h0 : l'.countP p = 0 := by omega
    simpa [List.countP_eq_zero] using h0
  have := hl.map (mapIf p f)
  rwa [List.map_cons, mapIf_of_pass f hy, map_mapIf_of_none f hrest] at this

open Meldable

/-- What a tree engine guarantees. -/
class LawfulMeldable (T : Type → Type) [Meldable T] : Prop where
  toList_empty {α : Type} : toList (empty : T α) = []
  size_eq_length {α : Type} (t : T α) : size t = (toList t).length
  top?_eq_popTop {α : Type} (prec : α → α → Bool) (t : T α) :
    top? t = (popTop prec t).map Prod.fst
  toList_meld {α : Type} (prec : α → α → Bool) (a b : T α) :
    (toList (meld prec a b)).Perm (toList a ++ toList b)
  toList_insert {α : Type} (prec : α → α → Bool) (x : α) (t : T α) :
    (toList (insert prec x t)).Perm (x :: toList t)
  popTop_eq_none {α : Type} (prec : α → α → Bool) (t : T α) :
    popTop prec t = none ↔ toList t = []
  toList_of_popTop {α : Type} {prec : α → α → Bool} {t t' : T α} {x : α} :
    popTop prec t = some (x, t') → (toList t).Perm (x :: toList t')
  extract_eq_none {α : Type} (prec : α → α → Bool) (p : α → Bool) (t : T α) :
    extract prec p t = none ↔ ∀ x ∈ toList t, p x = false
  toList_of_extract {α : Type} {prec : α → α → Bool} {p : α → Bool} {t t' : T α} {x : α} :
    extract prec p t = some (x, t') → p x = true ∧ (toList t).Perm (x :: toList t')
  toList_reprioritize {α : Type} (prec : α → α → Bool) (p : α → Bool) (f : α → α) (t : T α) :
    (toList t).countP p ≤ 1 →
      (toList (reprioritize prec p f t)).Perm ((toList t).map (mapIf p f))
  toList_modify {α : Type} (p : α → Bool) (f : α → α) (t : T α) :
    toList (modify p f t) = (toList t).map (mapIf p f)
  find?_eq {α : Type} (p : α → Bool) (t : T α) : find? p t = (toList t).find? p
  verify_empty {α : Type} (prec : α → α → Bool) : verify prec (empty : T α) = true
  verify_meld {α : Type} {prec : α → α → Bool} {a b : T α} : StrictWeakOrder prec →
    verify prec a = true → verify prec b = true → verify prec (meld prec a b) = true
  verify_insert {α : Type} {prec : α → α → Bool} (x : α) {t : T α} : StrictWeakOrder prec →
    verify prec t = true → verify prec (insert prec x t) = true
  verify_of_popTop {α : Type} {prec : α → α → Bool} {t t' : T α} {x : α} :
    StrictWeakOrder prec → verify prec t = true → popTop prec t = some (x, t') →
      verify prec t' = true
  verify_of_extract {α : Type} {prec : α → α → Bool} {p : α → Bool} {t t' : T α} {x : α} :
    StrictWeakOrder prec → verify prec t = true → extract prec p t = some (x, t') →
      verify prec t' = true
  verify_reprioritize {α : Type} {prec : α → α → Bool} (p : α → Bool) (f : α → α) {t : T α} :
    StrictWeakOrder prec → verify prec t = true → verify prec (reprioritize prec p f t) = true
  verify_modify {α : Type} {prec : α → α → Bool} (p : α → Bool) (f : α → α) {t : T α} :
    (∀ a b, prec (f a) b = prec a b) → (∀ a b, prec a (f b) = prec a b) →
      verify prec t = true → verify prec (modify p f t) = true
  not_prec_of_popTop {α : Type} {prec : α → α → Bool} {t t' : T α} {x : α} :
    StrictWeakOrder prec → verify prec t = true → popTop prec t = some (x, t') →
      ∀ y ∈ toList t', prec y x = false

namespace Meldable

variable {T : Type → Type} [Meldable T] {α : Type}

/-- The trees that engine operations build from empty trees. -/
inductive Reachable (prec : α → α → Bool) : T α → Prop
  | empty : Reachable prec Meldable.empty
  | insert (x : α) {t : T α} : Reachable prec t → Reachable prec (Meldable.insert prec x t)
  | meld {a b : T α} : Reachable prec a → Reachable prec b →
      Reachable prec (Meldable.meld prec a b)
  | popTop {t t' : T α} {x : α} : Reachable prec t → Meldable.popTop prec t = some (x, t') →
      Reachable prec t'
  | extract (p : α → Bool) {t t' : T α} {x : α} : Reachable prec t →
      Meldable.extract prec p t = some (x, t') → Reachable prec t'
  | reprioritize (p : α → Bool) (f : α → α) {t : T α} : Reachable prec t →
      Reachable prec (Meldable.reprioritize prec p f t)
  | modify (p : α → Bool) (f : α → α) {t : T α} : (∀ a b, prec (f a) b = prec a b) →
      (∀ a b, prec a (f b) = prec a b) → Reachable prec t →
      Reachable prec (Meldable.modify p f t)

theorem Reachable.verify [LawfulMeldable T] {prec : α → α → Bool} (hp : StrictWeakOrder prec)
    {t : T α} (h : Reachable prec t) : Meldable.verify prec t = true := by
  induction h with
  | empty => exact LawfulMeldable.verify_empty prec
  | insert x _ ih => exact LawfulMeldable.verify_insert x hp ih
  | meld _ _ iha ihb => exact LawfulMeldable.verify_meld hp iha ihb
  | popTop _ hpop ih => exact LawfulMeldable.verify_of_popTop hp ih hpop
  | extract p _ hex ih => exact LawfulMeldable.verify_of_extract hp ih hex
  | reprioritize p f _ ih => exact LawfulMeldable.verify_reprioritize p f hp ih
  | modify p f hf hf' _ ih => exact LawfulMeldable.verify_modify p f hf hf' ih

end Meldable

end PriorityQueues
