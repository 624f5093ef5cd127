import Mathlib
import PriorityQueues.Proofs.Refinement

/-!
Fresh ids: without a reset and without the largest id, every live id stays below the counter, so
pushes are never refused.
-/

namespace PriorityQueues

namespace IdSequence

def lastId : UInt64 := 18446744073709551615

theorem lt_add_one_of_ne_lastId {k : UInt64} (hk : k ≠ lastId) : k < k + 1 := by
  grind [lastId]

theorem observe_spec (s : IdSequence) {k : UInt64} (hk : k ≠ lastId) :
    s.next ≤ (s.observe k).next ∧ k < (s.observe k).next := by
  have hlt := lt_add_one_of_ne_lastId hk
  unfold observe
  split
  · rename_i hle
    exact ⟨UInt64.le_of_lt (UInt64.lt_of_le_of_lt hle hlt), hlt⟩
  · rename_i hle
    exact ⟨UInt64.le_refl _, UInt64.not_le.1 hle⟩

theorem foldl_observe_spec : ∀ (l : List UInt64) (s : IdSequence), (∀ k ∈ l, k ≠ lastId) →
    s.next ≤ (l.foldl observe s).next ∧ ∀ k ∈ l, k < (l.foldl observe s).next
  | [], s, _ => ⟨UInt64.le_refl s.next, fun k hk => absurd hk List.not_mem_nil⟩
  | k :: l, s, hl => by
    obtain ⟨hs, hk⟩ := observe_spec s (hl k (List.mem_cons_self ..))
    obtain ⟨hrest, hmem⟩ := foldl_observe_spec l (s.observe k) fun j hj =>
      hl j (List.mem_cons_of_mem k hj)
    refine ⟨UInt64.le_trans hs hrest, fun j hj => ?_⟩
    rcases List.mem_cons.1 hj with rfl | hj
    · exact UInt64.lt_of_lt_of_le hk hrest
    · exact hmem j hj

theorem toNat_observe {s : IdSequence} {k : UInt64} (hk : k ≠ lastId) :
    (s.observe k).next.toNat = max s.next.toNat (k.toNat + 1) := by
  have hlt : k.toNat + 1 < 2 ^ 64 := by
    have := UInt64.toNat_lt k
    have : k.toNat ≠ lastId.toNat := fun h => hk (UInt64.toNat_inj.1 h)
    simp [lastId] at *
    omega
  have hadd : (k + 1).toNat = k.toNat + 1 := by
    rw [UInt64.toNat_add, UInt64.toNat_one, Nat.mod_eq_of_lt hlt]
  unfold observe
  split
  · rename_i hle
    rw [UInt64.le_iff_toNat_le] at hle
    rw [hadd]
    omega
  · rename_i hle
    rw [UInt64.le_iff_toNat_le] at hle
    omega

theorem observe_comm (s : IdSequence) {a b : UInt64} (ha : a ≠ lastId) (hb : b ≠ lastId) :
    (s.observe a).observe b = (s.observe b).observe a := by
  have h1 := toNat_observe (s := s.observe a) hb
  have h2 := toNat_observe (s := s.observe b) ha
  rw [toNat_observe ha] at h1
  rw [toNat_observe hb] at h2
  cases h₁ : (s.observe a).observe b
  cases h₂ : (s.observe b).observe a
  simp only [h₁, h₂] at h1 h2
  congr 1
  apply UInt64.toNat_inj.1
  omega

theorem foldl_observe_perm {l₁ l₂ : List UInt64} (hp : l₁.Perm l₂) (hl : ∀ k ∈ l₁, k ≠ lastId)
    (s : IdSequence) : l₁.foldl observe s = l₂.foldl observe s :=
  hp.foldl_eq' (fun a ha b hb s => observe_comm s (hl a ha) (hl b hb)) s

-- with the largest id among them, the order shows: it sends the counter back to 0
example : ([lastId, 5].foldl observe ⟨0⟩).next = 6 ∧ ([5, lastId].foldl observe ⟨0⟩).next = 0 := by
  decide

end IdSequence

namespace TrackedHeap

open Meldable IdSequence

variable {T : Type → Type} [Meldable T] {V P : Type} {prec : P → P → Bool}

theorem mergeObserving_eq_merge {h o : TrackedHeap T V P prec} {keys : List UInt64}
    (hk : keys.Perm o.liveIds) (hlast : lastId ∉ o.liveIds) :
    h.mergeObserving keys o = h.merge o := by
  have hkeys : ∀ k ∈ keys, k ≠ lastId := fun k hmem heq => hlast (heq ▸ hk.subset hmem)
  unfold merge mergeObserving
  rw [foldl_observe_perm hk hkeys]

/-- The tracked heaps that runs build from new heaps, whatever counter and pool they start with,
without ever resetting a counter and without issuing or absorbing the largest id. -/
inductive FreshlyReachable : TrackedHeap T V P prec → Prop
  | new (ids : IdSequence) (pool : ShellPool) : FreshlyReachable (TrackedHeap.new ids pool)
  | push {h : TrackedHeap T V P prec} (e : Entry V P) (s : Nat) : FreshlyReachable h →
      h.ids.next ≠ lastId → FreshlyReachable (h.push e s).2.1
  | pop {h h' : TrackedHeap T V P prec} {e : Entry V P} {s s' : Nat} : FreshlyReachable h →
      h.pop s = (.ok (e, h'), s') → FreshlyReachable h'
  | updateValue {h h' : TrackedHeap T V P prec} {k : UInt64} {v : V} : FreshlyReachable h →
      h.updateValue k v = .ok h' → FreshlyReachable h'
  | updatePriority {h h' : TrackedHeap T V P prec} {k : UInt64} {p : P} : FreshlyReachable h →
      h.updatePriority k p = .ok h' → FreshlyReachable h'
  | remove {h h' : TrackedHeap T V P prec} {k : UInt64} {e : Entry V P} {s s' : Nat} :
      FreshlyReachable h → h.remove k s = (.ok (e, h'), s') → FreshlyReachable h'
  | clear {h : TrackedHeap T V P prec} (s : Nat) : FreshlyReachable h →
      FreshlyReachable (h.clear s).1
  | merge {h o h' : TrackedHeap T V P prec} : FreshlyReachable h → o.Reachable →
      (∀ k ∈ o.contents, k ≠ lastId) → h.merge o = .ok h' → FreshlyReachable h'
  | takeLeft {h : TrackedHeap T V P prec} : FreshlyReachable h → FreshlyReachable h.take.1
  | takeRight {h : TrackedHeap T V P prec} : FreshlyReachable h → FreshlyReachable h.take.2
  | copy {h : TrackedHeap T V P prec} (s : Nat) : FreshlyReachable h →
      FreshlyReachable (h.copy s).1

theorem FreshlyReachable.reachable {h : TrackedHeap T V P prec} (hr : h.FreshlyReachable) :
    h.Reachable := by
  induction hr with
  | new ids pool => exact .new ids pool
  | push e s _ _ ih => exact .push e s ih
  | pop _ hpop ih => exact .pop ih hpop
  | updateValue _ hu ih => exact .updateValue ih hu
  | updatePriority _ hu ih => exact .updatePriority ih hu
  | remove _ hrem ih => exact .remove ih hrem
  | clear s _ ih => exact .clear s ih
  | merge _ ho _ hm ih => exact .merge ih ho hm
  | takeLeft _ ih => exact .takeLeft ih
  | takeRight _ ih => exact .takeRight ih
  | copy s _ ih => exact .copy s ih

def IdsBelowCounter (h : TrackedHeap T V P prec) : Prop := ∀ k ∈ h.contents, k < h.ids.next

section Steps

variable [LawfulMeldable T] {h : TrackedHeap T V P prec}

theorem IdsBelowCounter.contains_next (hb : h.IdsBelowCounter) : h.contains h.ids.next = false := by
  rw [contains_eq_decide, decide_eq_false_iff_not]
  exact fun hn => UInt64.lt_irrefl _ (hb _ hn)

theorem push_of_idsBelowCounter (hb : h.IdsBelowCounter) (e : Entry V P) (s : Nat) :
    (h.push e s).1 = .ok (h.ids.next, (h.push e s).2.1) ∧ (h.push e s).2.1 = h.pushed e s := by
  rw [push_of_not_contains e s hb.contains_next]
  exact ⟨rfl, rfl⟩

theorem IdsBelowCounter.push (hu : h.UniqueIds) (hb : h.IdsBelowCounter) (e : Entry V P)
    (s : Nat) (hk : h.ids.next ≠ lastId) : (h.push e s).2.1.IdsBelowCounter := by
  have hlt := lt_add_one_of_ne_lastId hk
  rw [(push_of_idsBelowCounter hb e s).2]
  intro k hmem
  -- the new id is the old counter; every other id was below it already
  rw [(pushed_spec hu hb.contains_next e s).2, Finmap.mem_insert] at hmem
  rcases hmem with rfl | hmem
  · exact hlt
  · exact UInt64.lt_trans (hb k hmem) hlt

theorem IdsBelowCounter.pop (hb : h.IdsBelowCounter) {h' : TrackedHeap T V P prec} {e : Entry V P}
    {s s' : Nat} (hpop : h.pop s = (.ok (e, h'), s')) : h'.IdsBelowCounter := by
  obtain ⟨a, ht, -, hh'⟩ := pop_eq_ok hpop
  have hperm := LawfulMeldable.toList_of_popTop ht
  intro k hk
  obtain ⟨b, hb', rfl⟩ := Tagged.mem_idMap.1 hk
  rw [hh']
  exact hb _ (Tagged.mem_idMap.2 ⟨b, hperm.mem_iff.2 (List.mem_cons_of_mem a hb'), rfl⟩)

theorem IdsBelowCounter.remove (hu : h.UniqueIds) (hb : h.IdsBelowCounter)
    {h' : TrackedHeap T V P prec} {k : UInt64} {e : Entry V P} {s s' : Nat}
    (hrem : h.remove k s = (.ok (e, h'), s')) : h'.IdsBelowCounter := by
  have hmem : k ∈ h.contents := by
    by_contra hk
    have := ((remove_spec hu k s).1 hk)
    rw [hrem] at this
    cases this
  obtain ⟨e', he'⟩ := Finmap.mem_iff.1 hmem
  obtain ⟨h'', hr, hcontents, hids⟩ := (remove_spec hu k s).2 e' he'
  rw [hrem] at hr
  cases hr
  intro j hj
  rw [hcontents, Finmap.mem_erase] at hj
  rw [hids]
  exact hb j hj.2

omit [LawfulMeldable T] in
theorem IdsBelowCounter.of_changesAt (hb : h.IdsBelowCounter) {k : UInt64}
    {g : Entry V P → Entry V P} {h' : TrackedHeap T V P prec} (hc : h.ChangesAt k g (.ok h')) :
    h'.IdsBelowCounter := by
  have hmem : k ∈ h.contents := by
    by_contra hk
    cases hc.1 hk
  obtain ⟨e, he⟩ := Finmap.mem_iff.1 hmem
  obtain ⟨h'', hr, hcontents, hids⟩ := hc.2 e he
  cases hr
  intro j hj
  rw [hcontents, Finmap.mem_insert] at hj
  rw [hids]
  rcases hj with rfl | hj
  · exact hb j hmem
  · exact hb j hj

theorem IdsBelowCounter.of_tree_eq_empty (ht : h.tree = Meldable.empty) : h.IdsBelowCounter := by
  intro k hk
  rw [contents_of_tree_eq_empty ht] at hk
  exact absurd hk (Finmap.notMem_empty (a := k))

theorem IdsBelowCounter.lt_next_of_merge (hb : h.IdsBelowCounter) {o h' : TrackedHeap T V P prec}
    (hlast : ∀ k ∈ o.contents, k ≠ lastId) (hm : h.merge o = .ok h') :
    ∀ k, k ∈ h.contents ∨ k ∈ o.contents → k < h'.ids.next := by
  rw [merge_eq] at hm
  split at hm
  · cases hm
    -- the counter moves forward and past every absorbed id
    obtain ⟨hle, hpast⟩ := foldl_observe_spec o.liveIds h.ids fun k hk => hlast k (mem_liveIds.1 hk)
    rintro k (hk | hk)
    · exact UInt64.lt_of_lt_of_le (hb k hk) hle
    · exact hpast k (mem_liveIds.2 hk)
  · cases hm

theorem IdsBelowCounter.of_merge (hu : h.UniqueIds) (hb : h.IdsBelowCounter)
    {o h' : TrackedHeap T V P prec} (hou : o.UniqueIds) (hlast : ∀ k ∈ o.contents, k ≠ lastId)
    (hm : h.merge o = .ok h') : h'.IdsBelowCounter := by
  have hdisj : h.contents.Disjoint o.contents := by
    by_contra hd
    rw [(merge_spec hu hou).1 hd] at hm
    cases hm
  obtain ⟨h'', hr, hcontents, -⟩ := (merge_spec hu hou).2 hdisj
  rw [hm] at hr
  cases hr
  intro k hk
  rw [hcontents, Finmap.mem_union] at hk
  exact hb.lt_next_of_merge hlast hm k hk

end Steps

theorem FreshlyReachable.idsBelowCounter [LawfulMeldable T] {h : TrackedHeap T V P prec}
    (hr : h.FreshlyReachable) : h.IdsBelowCounter := by
  induction hr with
  | new ids pool => exact .of_tree_eq_empty rfl
  | push e s hr' hk ih => exact ih.push hr'.reachable.uniqueIds e s hk
  | pop _ hpop ih => exact ih.pop hpop
  | updateValue hr' hup ih =>
    exact ih.of_changesAt (hup ▸ updateValue_changesAt hr'.reachable.uniqueIds _ _)
  | updatePriority hr' hup ih =>
    exact ih.of_changesAt (hup ▸ updatePriority_changesAt hr'.reachable.uniqueIds _ _)
  | remove hr' hrem ih => exact ih.remove hr'.reachable.uniqueIds hrem
  | clear s _ _ => exact .of_tree_eq_empty rfl
  | merge hr' ho hlast hm ih => exact ih.of_merge hr'.reachable.uniqueIds ho.uniqueIds hlast hm
  | takeLeft _ _ => exact .of_tree_eq_empty rfl
  | takeRight _ ih => exact ih
  | copy s _ ih => exact ih

/-- Without resets and without the largest id, pushes always issue fresh ids, also after merges. -/
theorem pushes_draw_fresh_ids_without_reset [LawfulMeldable T] {h : TrackedHeap T V P prec}
    (hr : h.FreshlyReachable) :
    (∀ k ∈ h.contents, k < h.ids.next) ∧
      (∀ e s, (h.push e s).1 = .ok (h.ids.next, (h.push e s).2.1)) ∧
      ∀ o h' : TrackedHeap T V P prec, o.Reachable → (∀ k ∈ o.contents, k ≠ lastId) →
        h.merge o = .ok h' →
          (∀ k, k ∈ h.contents ∨ k ∈ o.contents → k < h'.ids.next) ∧
          ∀ e s, (h'.push e s).1 = .ok (h'.ids.next, (h'.push e s).2.1) := by
  have hb := hr.idsBelowCounter
  refine ⟨hb, fun e s => (push_of_idsBelowCounter hb e s).1, fun o h' ho hlast hm => ?_⟩
  have hb' : h'.IdsBelowCounter := (FreshlyReachable.merge hr ho hlast hm).idsBelowCounter
  exact ⟨hb.lt_next_of_merge hlast hm, fun e s => (push_of_idsBelowCounter hb' e s).1⟩

theorem pushes_draw_fresh_ids_after_merge :
    let h : TrackedHeap PairingHeap String Int Ranking.ascending.precedes :=
      (((TrackedHeap.new (.startingAt 5) (.own 0)).push ⟨"a", 1⟩ 0).2.1.push ⟨"b", 1⟩ 0).2.1
    let o : TrackedHeap PairingHeap String Int Ranking.ascending.precedes :=
      ((TrackedHeap.new (.startingAt 9) (.own 0)).push ⟨"c", 1⟩ 0).2.1
    FreshlyReachable h ∧ o.Reachable ∧ (∀ k ∈ o.contents, k ≠ lastId) ∧
      ∃ h', h.merge o = .ok h' ∧ h'.ids.next = 10 ∧
        ∀ e s, (h'.push e s).1 = .ok (10, (h'.push e s).2.1) := by
  intro h o
  have hr : FreshlyReachable h := .push _ _ (.push _ _ (.new _ _) (by decide)) (by decide)
  have ho : o.Reachable := .push _ _ (.new _ _)
  have hidh : (Meldable.toList h.tree).map Tagged.id = [5, 6] := by decide
  have hido : (Meldable.toList o.tree).map Tagged.id = [9] := by decide
  have hlast : ∀ k ∈ o.contents, k ≠ lastId := by
    intro k hk
    rw [mem_contents, hido, List.mem_singleton] at hk
    rw [hk]
    decide
  have hd : h.contents.Disjoint o.contents := by
    rw [contents_disjoint_iff, hidh, hido]
    simp
  obtain ⟨h', hm, -, -, hnext⟩ := (merge_spec hr.reachable.uniqueIds ho.uniqueIds).2 hd
  obtain ⟨-, -, hmerge⟩ := pushes_draw_fresh_ids_without_reset hr
  obtain ⟨-, hpush⟩ := hmerge o h' ho hlast hm
  -- the largest absorbed id is 9, past the counter at 7
  have h9 : (9 : UInt64) ∈ o.contents := by
    rw [mem_contents, hido]
    simp
  have hmax : ∀ k ∈ o.contents, k ≤ 9 := by
    intro k hk
    rw [mem_contents, hido, List.mem_singleton] at hk
    rw [hk]
    decide
  have h10 : h'.ids.next = 10 := by
    rw [hnext 9 h9 hmax]
    decide
  exact ⟨hr, ho, hlast, h', hm, h10, fun e s => h10 ▸ hpush e s⟩

end TrackedHeap

end PriorityQueues
