import Mathlib
import PriorityQueues.Proofs.Engine
import PriorityQueues.Tree.Heap
import PriorityQueues.Tracked.Heap

/-!
Untracked and tracked tree heaps: one equation per branch of each operation, and the heaps that
operations build from new heaps.
-/

namespace PriorityQueues

namespace TreeHeap

variable {T : Type → Type} [Meldable T] {V P : Type} {prec : P → P → Bool}

theorem pop_of_popTop {h : TreeHeap T V P prec} {e : Entry V P} {t : T (Entry V P)} (s : Nat)
    (ht : Meldable.popTop (Entry.before prec) h.tree = some (e, t)) :
    h.pop s = (.ok (e, ⟨t, (h.pool.retire 1 s).1⟩), (h.pool.retire 1 s).2) := by
  simp [pop, ht]

theorem pop_of_popTop_none {h : TreeHeap T V P prec} (s : Nat)
    (ht : Meldable.popTop (Entry.before prec) h.tree = none) :
    h.pop s = (.error .empty, s) := by
  simp [pop, ht]

theorem pop_eq_ok {h h' : TreeHeap T V P prec} {e : Entry V P} {s s' : Nat}
    (hpop : h.pop s = (.ok (e, h'), s')) :
    Meldable.popTop (Entry.before prec) h.tree = some (e, h'.tree) ∧
      h'.pool = (h.pool.retire 1 s).1 ∧ s' = (h.pool.retire 1 s).2 := by
  cases ht : Meldable.popTop (Entry.before prec) h.tree with
  | none => simp [pop_of_popTop_none s ht] at hpop
  | some r =>
    obtain ⟨e', t⟩ := r
    rw [pop_of_popTop s ht] at hpop
    simp only [Prod.mk.injEq, Except.ok.injEq] at hpop
    obtain ⟨⟨rfl, rfl⟩, rfl⟩ := hpop
    exact ⟨rfl, rfl, rfl⟩

/-- The untracked heaps that sequences of operations build from new heaps. -/
inductive Reachable : TreeHeap T V P prec → Prop
  | new (pool : ShellPool) : Reachable (TreeHeap.new pool)
  | push {h : TreeHeap T V P prec} (e : Entry V P) (s : Nat) : Reachable h →
      Reachable (h.push e s).1
  | pop {h h' : TreeHeap T V P prec} {e : Entry V P} {s s' : Nat} : Reachable h →
      h.pop s = (.ok (e, h'), s') → Reachable h'
  | clear {h : TreeHeap T V P prec} (s : Nat) : Reachable h → Reachable (h.clear s).1
  | merge {h o : TreeHeap T V P prec} : Reachable h → Reachable o → Reachable (h.merge o)
  | takeLeft {h : TreeHeap T V P prec} : Reachable h → Reachable h.take.1
  | takeRight {h : TreeHeap T V P prec} : Reachable h → Reachable h.take.2
  | copy {h : TreeHeap T V P prec} (s : Nat) : Reachable h → Reachable (h.copy s).1

theorem Reachable.tree {h : TreeHeap T V P prec} (hr : h.Reachable) :
    Meldable.Reachable (Entry.before prec) h.tree := by
  induction hr with
  | new pool => exact .empty
  | push e s _ ih => exact .insert e ih
  | pop _ hpop ih => exact .popTop ih (pop_eq_ok hpop).1
  | clear s _ _ => exact .empty
  | merge _ _ ihh iho => exact .meld ihh iho
  | takeLeft _ _ => exact .empty
  | takeRight _ ih => exact ih
  | copy s _ ih => exact ih

end TreeHeap

namespace TrackedHeap

variable {T : Type → Type} [Meldable T] {V P : Type} {prec : P → P → Bool}

def pushed (h : TrackedHeap T V P prec) (e : Entry V P) (s : Nat) : TrackedHeap T V P prec :=
  ⟨Meldable.insert (Tagged.before prec) ⟨h.ids.next, e⟩ h.tree, h.ids.issue.2,
    (h.pool.draw 1 s).1⟩

theorem push_of_contains {h : TrackedHeap T V P prec} (e : Entry V P) (s : Nat)
    (hk : h.contains h.ids.next = true) :
    h.push e s = (.error .idCollision, { h with ids := h.ids.issue.2 }, s) := by
  simp [push, IdSequence.issue, hk]

theorem push_of_not_contains {h : TrackedHeap T V P prec} (e : Entry V P) (s : Nat)
    (hk : h.contains h.ids.next = false) :
    h.push e s = (.ok (h.ids.next, h.pushed e s), h.pushed e s, (h.pool.draw 1 s).2) := by
  simp [push, pushed, IdSequence.issue, hk]

theorem pop_of_popTop {h : TrackedHeap T V P prec} {a : Tagged V P} {t : T (Tagged V P)}
    (s : Nat) (ht : Meldable.popTop (Tagged.before prec) h.tree = some (a, t)) :
    h.pop s = (.ok (a.entry, { h with tree := t, pool := (h.pool.retire 1 s).1 }),
      (h.pool.retire 1 s).2) := by
  simp [pop, ht]

theorem pop_of_popTop_none {h : TrackedHeap T V P prec} (s : Nat)
    (ht : Meldable.popTop (Tagged.before prec) h.tree = none) :
    h.pop s = (.error .empty, s) := by
  simp [pop, ht]

theorem pop_eq_ok {h h' : TrackedHeap T V P prec} {e : Entry V P} {s s' : Nat}
    (hpop : h.pop s = (.ok (e, h'), s')) :
    ∃ a, Meldable.popTop (Tagged.before prec) h.tree = some (a, h'.tree) ∧ a.entry = e ∧
      h' = { h with tree := h'.tree, pool := (h.pool.retire 1 s).1 } := by
  cases ht : Meldable.popTop (Tagged.before prec) h.tree with
  | none => simp [pop_of_popTop_none s ht] at hpop
  | some r =>
    obtain ⟨a, t⟩ := r
    rw [pop_of_popTop s ht] at hpop
    simp only [Prod.mk.injEq, Except.ok.injEq] at hpop
    obtain ⟨⟨rfl, rfl⟩, -⟩ := hpop
    exact ⟨a, rfl, rfl, rfl⟩

def setValue (v : V) (a : Tagged V P) : Tagged V P :=
  { a with entry := { a.entry with value := v } }

def setPriority (p : P) (a : Tagged V P) : Tagged V P :=
  { a with entry := a.entry.withPriority p }

theorem updateValue_of_contains {h : TrackedHeap T V P prec} {k : UInt64} (v : V)
    (hk : h.contains k = true) :
    h.updateValue k v =
      .ok { h with tree := Meldable.modify (Tagged.hasId k) (setValue v) h.tree } := by
  simp [updateValue, hk]
  rfl

theorem updateValue_of_not_contains {h : TrackedHeap T V P prec} {k : UInt64} (v : V)
    (hk : h.contains k = false) : h.updateValue k v = .error .nodeNotFound := by
  simp [updateValue, hk]

theorem updatePriority_of_contains {h : TrackedHeap T V P prec} {k : UInt64} (p : P)
    (hk : h.contains k = true) :
    h.updatePriority k p = .ok { h with
      tree := Meldable.reprioritize (Tagged.before prec) (Tagged.hasId k) (setPriority p)
        h.tree } := by
  simp [updatePriority, hk]
  rfl

theorem updatePriority_of_not_contains {h : TrackedHeap T V P prec} {k : UInt64} (p : P)
    (hk : h.contains k = false) : h.updatePriority k p = .error .nodeNotFound := by
  simp [updatePriority, hk]

theorem update_eq (h : TrackedHeap T V P prec) (k : UInt64) (v : V) (p : P) :
    h.update k v p = (h.updateValue k v).bind fun h' => h'.updatePriority k p := rfl

theorem remove_of_extract {h : TrackedHeap T V P prec} {k : UInt64} {a : Tagged V P}
    {t : T (Tagged V P)} (s : Nat)
    (ht : Meldable.extract (Tagged.before prec) (Tagged.hasId k) h.tree = some (a, t)) :
    h.remove k s = (.ok (a.entry, { h with tree := t, pool := (h.pool.retire 1 s).1 }),
      (h.pool.retire 1 s).2) := by
  simp [remove, ht]

theorem remove_of_extract_none {h : TrackedHeap T V P prec} {k : UInt64} (s : Nat)
    (ht : Meldable.extract (Tagged.before prec) (Tagged.hasId k) h.tree = none) :
    h.remove k s = (.error .nodeNotFound, s) := by
  simp [remove, ht]

theorem remove_eq_ok {h h' : TrackedHeap T V P prec} {k : UInt64} {e : Entry V P} {s s' : Nat}
    (hrem : h.remove k s = (.ok (e, h'), s')) :
    ∃ a, Meldable.extract (Tagged.before prec) (Tagged.hasId k) h.tree = some (a, h'.tree) ∧
      a.entry = e ∧ h' = { h with tree := h'.tree, pool := (h.pool.retire 1 s).1 } := by
  cases ht : Meldable.extract (Tagged.before prec) (Tagged.hasId k) h.tree with
  | none => simp [remove_of_extract_none s ht] at hrem
  | some r =>
    obtain ⟨a, t⟩ := r
    rw [remove_of_extract s ht] at hrem
    simp only [Prod.mk.injEq, Except.ok.injEq] at hrem
    obtain ⟨⟨rfl, rfl⟩, -⟩ := hrem
    exact ⟨a, rfl, rfl, rfl⟩

theorem merge_of_disjoint {h o : TrackedHeap T V P prec}
    (hd : (o.liveIds.any h.contains) = false) :
    h.merge o = .ok ⟨Meldable.meld (Tagged.before prec) h.tree o.tree,
      o.liveIds.foldl IdSequence.observe h.ids, h.pool⟩ := by
  simp [merge, mergeObserving, checkMerge, hd]

theorem merge_of_not_disjoint {h o : TrackedHeap T V P prec}
    (hd : (o.liveIds.any h.contains) = true) : h.merge o = .error .idCollision := by
  simp [merge, mergeObserving, checkMerge, hd]

/-- The tracked heaps that sequences of operations build from new heaps, whatever counter and pool
they start with. -/
inductive Reachable : TrackedHeap T V P prec → Prop
  | new (ids : IdSequence) (pool : ShellPool) : Reachable (TrackedHeap.new ids pool)
  | push {h : TrackedHeap T V P prec} (e : Entry V P) (s : Nat) : Reachable h →
      Reachable (h.push e s).2.1
  | pop {h h' : TrackedHeap T V P prec} {e : Entry V P} {s s' : Nat} : Reachable h →
      h.pop s = (.ok (e, h'), s') → Reachable h'
  | updateValue {h h' : TrackedHeap T V P prec} {k : UInt64} {v : V} : Reachable h →
      h.updateValue k v = .ok h' → Reachable h'
  | updatePriority {h h' : TrackedHeap T V P prec} {k : UInt64} {p : P} : Reachable h →
      h.updatePriority k p = .ok h' → Reachable h'
  | remove {h h' : TrackedHeap T V P prec} {k : UInt64} {e : Entry V P} {s s' : Nat} :
      Reachable h → h.remove k s = (.ok (e, h'), s') → Reachable h'
  | resetIds {h : TrackedHeap T V P prec} : Reachable h → Reachable h.resetIds
  | clear {h : TrackedHeap T V P prec} (s : Nat) : Reachable h → Reachable (h.clear s).1
  | merge {h o h' : TrackedHeap T V P prec} : Reachable h → Reachable o →
      h.merge o = .ok h' → Reachable h'
  | takeLeft {h : TrackedHeap T V P prec} : Reachable h → Reachable h.take.1
  | takeRight {h : TrackedHeap T V P prec} : Reachable h → Reachable h.take.2
  | copy {h : TrackedHeap T V P prec} (s : Nat) : Reachable h → Reachable (h.copy s).1

theorem Reachable.update {h h' : TrackedHeap T V P prec} {k : UInt64} {v : V} {p : P}
    (hr : h.Reachable) (hu : h.update k v p = .ok h') : h'.Reachable := by
  rw [update_eq] at hu
  cases hv : h.updateValue k v with
  | error err => simp [hv, Except.bind] at hu
  | ok h₁ =>
    rw [hv] at hu
    exact .updatePriority (.updateValue hr hv) hu

theorem Reachable.tree {h : TrackedHeap T V P prec} (hr : h.Reachable) :
    Meldable.Reachable (Tagged.before prec) h.tree := by
  induction hr with
  | new ids pool => exact .empty
  | @push h e s _ ih =>
    cases hk : h.contains h.ids.next with
    | true => rw [push_of_contains e s hk]; exact ih
    | false => rw [push_of_not_contains e s hk]; exact .insert _ ih
  | pop _ hpop ih =>
    obtain ⟨a, ht, -, -⟩ := pop_eq_ok hpop
    exact .popTop ih ht
  | @updateValue h h' k v _ hu ih =>
    cases hk : h.contains k with
    | true =>
      rw [updateValue_of_contains v hk, Except.ok.injEq] at hu
      subst hu
      exact .modify _ _ (fun _ _ => rfl) (fun _ _ => rfl) ih
    | false => simp [updateValue_of_not_contains v hk] at hu
  | @updatePriority h h' k p _ hu ih =>
    cases hk : h.contains k with
    | true =>
      rw [updatePriority_of_contains p hk, Except.ok.injEq] at hu
      subst hu
      exact .reprioritize _ _ ih
    | false => simp [updatePriority_of_not_contains p hk] at hu
  | remove _ hrem ih =>
    obtain ⟨a, ht, -, -⟩ := remove_eq_ok hrem
    exact .extract _ ih ht
  | resetIds _ ih => exact ih
  | clear s _ _ => exact .empty
  | @merge h o h' _ _ hm ihh iho =>
    cases hd : o.liveIds.any h.contains with
    | false =>
      rw [merge_of_disjoint hd, Except.ok.injEq] at hm
      subst hm
      exact .meld ihh iho
    | true => simp [merge_of_not_disjoint hd] at hm
  | takeLeft _ _ => exact .empty
  | takeRight _ ih => exact ih
  | copy s _ ih => exact ih

end TrackedHeap

end PriorityQueues
