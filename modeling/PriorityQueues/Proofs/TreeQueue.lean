import Mathlib
import PriorityQueues.Proofs.Heaps
import PriorityQueues.Proofs.Queue

/-!
Untracked tree heaps as multiset priority queues (`MeetsSpec`), over every lawful engine.
-/

namespace PriorityQueues

namespace TreeHeap

open Meldable

variable {T : Type → Type} [Meldable T] [LawfulMeldable T] {V P : Type} {prec : P → P → Bool}

def elems (h : TreeHeap T V P prec) : Multiset (Entry V P) := (toList h.tree : Multiset _)

/-- What every operation does to the multiset of entries. -/
structure MeetsSpec (h : TreeHeap T V P prec) : Prop where
  size : h.size = Multiset.card h.elems
  pop : ∀ s, PopsMinimal prec h.elems ((h.pop s).1.map fun r => (r.1, r.2.elems))
  /-- A peek answers what the next pop would. -/
  peek : ∀ s, h.peek = (h.pop s).1.map Prod.fst
  push : ∀ e s, (h.push e s).1.elems = e ::ₘ h.elems
  clear : ∀ s, (h.clear s).1.elems = 0
  copy : ∀ s, (h.copy s).1.elems = h.elems
  merge : ∀ o : TreeHeap T V P prec, (h.merge o).elems = h.elems + o.elems
  /-- A take moves every entry into the returned heap and leaves the source empty. -/
  take : h.take.1.elems = 0 ∧ h.take.2.elems = h.elems
  drain : ∀ s, Drains prec h.elems (h.drain s).1

section Spec

variable {h : TreeHeap T V P prec}

theorem size_eq_card (h : TreeHeap T V P prec) : h.size = Multiset.card h.elems := by
  rw [size, LawfulMeldable.size_eq_length, elems, Multiset.coe_card]

omit [LawfulMeldable T] in
theorem elems_eq_zero_iff : h.elems = 0 ↔ toList h.tree = [] := by
  rw [elems, Multiset.coe_eq_zero]

theorem minimal_of_popTop (hp : StrictWeakOrder prec) {t t' : T (Entry V P)} {e : Entry V P}
    (hv : Meldable.verify (Entry.before prec) t = true)
    (ht : popTop (Entry.before prec) t = some (e, t')) :
    ∀ e' ∈ (toList t : Multiset (Entry V P)), prec e'.priority e.priority = false := by
  intro e' he'
  rcases List.mem_cons.1 ((LawfulMeldable.toList_of_popTop ht).mem_iff.1 he') with rfl | hmem
  · exact hp.irrefl _
  · exact LawfulMeldable.not_prec_of_popTop hp.entry hv ht e' hmem

theorem pop_spec (hp : StrictWeakOrder prec) (hv : h.verify = true) (s : Nat) :
    PopsMinimal prec h.elems ((h.pop s).1.map fun r => (r.1, r.2.elems)) := by
  cases ht : popTop (Entry.before prec) h.tree with
  | none =>
    have hnil := (LawfulMeldable.popTop_eq_none _ _).1 ht
    rw [pop_of_popTop_none s ht]
    exact ⟨fun _ => rfl, fun hne => absurd (elems_eq_zero_iff.2 hnil) hne⟩
  | some r =>
    obtain ⟨e, t⟩ := r
    have hperm := LawfulMeldable.toList_of_popTop ht
    have helems : h.elems = e ::ₘ (toList t : Multiset (Entry V P)) := by
      rw [elems, Multiset.cons_coe, Multiset.coe_eq_coe]
      exact hperm
    rw [pop_of_popTop s ht]
    refine ⟨fun h0 => absurd h0 (by simp [helems]), fun _ => ⟨e, _, helems, rfl, ?_⟩⟩
    exact minimal_of_popTop hp hv ht

theorem peek_eq_pop (s : Nat) : h.peek = (h.pop s).1.map Prod.fst := by
  rw [peek, pop, LawfulMeldable.top?_eq_popTop]
  cases popTop (Entry.before prec) h.tree with
  | none => rfl
  | some r => rfl

theorem elems_push (e : Entry V P) (s : Nat) : (h.push e s).1.elems = e ::ₘ h.elems := by
  have hperm := LawfulMeldable.toList_insert (Entry.before prec) e h.tree
  exact (Multiset.coe_eq_coe.2 hperm).trans (Multiset.cons_coe _ _).symm

theorem elems_merge (o : TreeHeap T V P prec) : (h.merge o).elems = h.elems + o.elems := by
  rw [elems, merge, Multiset.coe_eq_coe.2 (LawfulMeldable.toList_meld _ _ _),
    ← Multiset.coe_add]
  rfl

theorem elems_of_tree_eq_empty (ht : h.tree = Meldable.empty) : h.elems = 0 := by
  rw [elems, ht, LawfulMeldable.toList_empty, Multiset.coe_nil]

theorem popMany_drains (hp : StrictWeakOrder prec) :
    ∀ (n : Nat) (h : TreeHeap T V P prec) (s : Nat), h.verify = true →
      Multiset.card h.elems = n → Drains prec h.elems (popMany n h s).1
  | 0, h, s, _, hn => by
    rw [Multiset.card_eq_zero.1 hn]
    exact drains_zero
  | n + 1, h, s, hv, hn => by
    obtain ⟨_, hne⟩ := pop_spec hp hv s
    have h0 : h.elems ≠ 0 := fun h0 => by simp [h0] at hn
    obtain ⟨e, rest, helems, hr, hmin⟩ := hne h0
    -- the pop succeeds; the rest of the drain comes from the heap it leaves
    cases hpop : h.pop s with
    | mk r s' =>
      rw [hpop] at hr
      cases r with
      | error err => simp [Except.map] at hr
      | ok r =>
        obtain ⟨e', h'⟩ := r
        simp only [Except.map, Except.ok.injEq, Prod.mk.injEq] at hr
        obtain ⟨rfl, rfl⟩ := hr
        obtain ⟨htop, -, -⟩ := pop_eq_ok hpop
        have hv' : h'.verify = true := LawfulMeldable.verify_of_popTop hp.entry hv htop
        have hcard : Multiset.card h'.elems = n := by
          rw [helems, Multiset.card_cons] at hn
          omega
        rw [popMany, hpop]
        exact Drains.cons helems hmin (popMany_drains hp n h' s' hv' hcard)

theorem drain_spec (hp : StrictWeakOrder prec) (hv : h.verify = true) (s : Nat) :
    Drains prec h.elems (h.drain s).1 :=
  popMany_drains hp _ h s hv (size_eq_card h).symm

end Spec

theorem Reachable.meetsSpec (hp : StrictWeakOrder prec) {h : TreeHeap T V P prec}
    (hr : h.Reachable) : h.MeetsSpec := by
  have hv : h.verify = true := hr.tree.verify hp.entry
  exact {
    size := size_eq_card h
    pop := pop_spec hp hv
    peek := peek_eq_pop
    push := elems_push
    clear := fun _ => elems_of_tree_eq_empty rfl
    copy := fun _ => rfl
    merge := elems_merge
    take := ⟨elems_of_tree_eq_empty rfl, rfl⟩
    drain := drain_spec hp hv }

end TreeHeap

end PriorityQueues
