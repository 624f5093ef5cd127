import Mathlib
import PriorityQueues.Proofs.Order
import PriorityQueues.Error

/-!
Multiset priority queues: pops return an entry no other precedes (`PopsMinimal`), and under a
total order the answers depend on the priorities alone.
-/

namespace PriorityQueues

variable {V P : Type} (prec : P → P → Bool)

def PopsMinimal (M : Multiset (Entry V P))
    (r : Except HeapError (Entry V P × Multiset (Entry V P))) : Prop :=
  (M = 0 → r = .error .empty) ∧
    (M ≠ 0 → ∃ e rest, M = e ::ₘ rest ∧ r = .ok (e, rest) ∧
      ∀ e' ∈ M, prec e'.priority e.priority = false)

def Drains (M : Multiset (Entry V P)) (l : List (Entry V P)) : Prop :=
  (l : Multiset (Entry V P)) = M ∧ l.Pairwise fun a b => prec b.priority a.priority = false

variable {prec}

theorem drains_zero : Drains prec (0 : Multiset (Entry V P)) [] := ⟨rfl, .nil⟩

theorem Drains.cons {M rest : Multiset (Entry V P)} {e : Entry V P} {l : List (Entry V P)}
    (hM : M = e ::ₘ rest) (hmin : ∀ e' ∈ M, prec e'.priority e.priority = false)
    (hl : Drains prec rest l) : Drains prec M (e :: l) := by
  obtain ⟨hperm, hsorted⟩ := hl
  refine ⟨by rw [← Multiset.cons_coe, hperm, hM], List.pairwise_cons.2 ⟨fun b hb => ?_, hsorted⟩⟩
  have hb' : b ∈ (l : Multiset (Entry V P)) := Multiset.mem_coe.2 hb
  rw [hperm] at hb'
  exact hmin b (hM ▸ Multiset.mem_cons_of_mem hb')

section Total

variable (ht : TotalOrder prec)
include ht

theorem PopsMinimal.priority_eq {M M' : Multiset (Entry V P)}
    {r r' : Except HeapError (Entry V P × Multiset (Entry V P))} (h : PopsMinimal prec M r)
    (h' : PopsMinimal prec M' r') (hM : M.map Entry.priority = M'.map Entry.priority) :
    (M = 0 ∧ M' = 0 ∧ r = .error .empty ∧ r' = .error .empty) ∨
      ∃ e e' L L', r = .ok (e, L) ∧ r' = .ok (e', L') ∧ e.priority = e'.priority ∧
        L.map Entry.priority = L'.map Entry.priority := by
  by_cases h0 : M = 0
  · have h0' : M' = 0 := by simpa [h0, eq_comm] using hM
    exact .inl ⟨h0, h0', h.1 h0, h'.1 h0'⟩
  · have h0' : M' ≠ 0 := fun h0' => h0 (by simpa [h0'] using hM)
    obtain ⟨e, L, hM₁, hr, hmin⟩ := h.2 h0
    obtain ⟨e', L', hM₁', hr', hmin'⟩ := h'.2 h0'
    -- both priorities are minimal among the same priorities, so they are equal
    have hmin'' : ∀ x ∈ M, prec x.priority e'.priority = false := fun x hx => by
      have : x.priority ∈ M'.map Entry.priority := hM ▸ Multiset.mem_map_of_mem _ hx
      obtain ⟨y, hy, hxy⟩ := Multiset.mem_map.1 this
      rw [← hxy]
      exact hmin' y hy
    have he : e ∈ M := hM₁ ▸ Multiset.mem_cons_self e L
    have hp : e.priority = e'.priority := by
      have hpe' : e'.priority ∈ M.map Entry.priority :=
        hM ▸ Multiset.mem_map_of_mem _ (hM₁' ▸ Multiset.mem_cons_self e' L')
      obtain ⟨y, hy, hye⟩ := Multiset.mem_map.1 hpe'
      exact ht.2 _ _ (hmin'' e he) (hye ▸ hmin y hy)
    refine .inr ⟨e, e', L, L', hr, hr', hp, ?_⟩
    rw [hM₁, hM₁', Multiset.map_cons, Multiset.map_cons, hp] at hM
    exact (Multiset.cons_inj_right _).1 hM

theorem Drains.map_priority_eq {M M' : Multiset (Entry V P)} {l l' : List (Entry V P)}
    (h : Drains prec M l) (h' : Drains prec M' l')
    (hM : M.map Entry.priority = M'.map Entry.priority) :
    l.map Entry.priority = l'.map Entry.priority := by
  have hperm : (l.map Entry.priority).Perm (l'.map Entry.priority) := by
    rw [← Multiset.coe_eq_coe, ← Multiset.map_coe, ← Multiset.map_coe, h.1, h'.1, hM]
  have hs : (l.map Entry.priority).Pairwise fun a b => prec b a = false :=
    List.pairwise_map.2 h.2
  have hs' : (l'.map Entry.priority).Pairwise fun a b => prec b a = false :=
    List.pairwise_map.2 h'.2
  exact hperm.eq_of_pairwise (fun a b _ _ hab hba => ht.2 _ _ hba hab) hs hs'

end Total

end PriorityQueues
