import Mathlib
import PriorityQueues.Proofs.Failures
import PriorityQueues.Proofs.TreeQueue
import PriorityQueues.Proofs.RadixQueue

/-!
Melding one session slot into another: the meld after the take never refuses what the check
passed, so "merge_from" either refuses and keeps the session or moves everything.
-/

namespace PriorityQueues.Script

section Generic

variable {H P : Type} [Queue H P] [MeldQueue H]

def MergedFrom (unites : H → H → H → Prop) (empties : H → H → Prop) (s : Session H) (n m : Nat)
    (a b : H) (r : Ran H) : Prop :=
  (∃ e, MeldQueue.checkMerge a b = .error e ∧ r = (.failed e, s, [])) ∨
    (MeldQueue.checkMerge a b = .ok () ∧ ∃ a', MeldQueue.merge a (MeldQueue.take b).2 = .ok a' ∧
      unites a b a' ∧ empties b (MeldQueue.take b).1 ∧
      r = (.ok .unit, (s.put m (some (MeldQueue.take b).1)).put n (some a'), []))

theorem mergeFrom_spec {unites : H → H → H → Prop} {empties : H → H → Prop} {s : Session H}
    {op : Json} {n m : Nat} {a b : H} (ht : s.target op = .ok (n, a))
    (ho : s.slot op "other" none = .ok (m, b))
    (hmerge : MeldQueue.checkMerge a b = .ok () →
      ∃ a', MeldQueue.merge a (MeldQueue.take b).2 = .ok a' ∧ unites a b a')
    (htake : empties b (MeldQueue.take b).1) :
    ∃ run, meldHandler "merge_from" = some run ∧ (n = m → run op s = .ok (.ok .unit, s, [])) ∧
      (n ≠ m → ∃ r, run op s = .ok r ∧ MergedFrom unites empties s n m a b r) := by
  refine ⟨_, rfl, fun hnm => ?_, fun hnm => ?_⟩
  · simp only [ht, ho, bind, Except.bind, hnm]
    rfl
  · simp only [ht, ho, bind, Except.bind, hnm, if_false]
    cases hc : MeldQueue.checkMerge a b with
    | error e => exact ⟨_, rfl, .inl ⟨e, hc, rfl⟩⟩
    | ok u =>
      cases u
      -- the check passed, so the meld after the take succeeds
      obtain ⟨a', hm, hu⟩ := hmerge hc
      simp only [hm]
      exact ⟨_, rfl, .inr ⟨hc, a', hm, hu, htake, rfl⟩⟩

end Generic

section Engines

variable {T : Type → Type} [Meldable T] [LawfulMeldable T] {prec : Int → Int → Bool}

theorem tree_mergeFrom_laws (a b : TreeHeap T String Int prec) :
    (MeldQueue.checkMerge a b = .ok () → ∃ a', MeldQueue.merge a (MeldQueue.take b).2 = .ok a' ∧
      a'.elems = a.elems + b.elems) ∧
    (MeldQueue.take b).1.elems = 0 ∧ (MeldQueue.take b).1.pool = b.pool.fork :=
  ⟨fun _ => ⟨_, rfl, TreeHeap.elems_merge b⟩, TreeHeap.elems_of_tree_eq_empty rfl, rfl⟩

theorem tracked_mergeFrom_laws {a b : TrackedHeap T String Int prec} (ha : a.UniqueIds)
    (hb : b.UniqueIds) :
    (MeldQueue.checkMerge a b = .ok () → ∃ a', MeldQueue.merge a (MeldQueue.take b).2 = .ok a' ∧
      a'.contents = a.contents ∪ b.contents) ∧
    (MeldQueue.take b).1.contents = ∅ ∧ (MeldQueue.take b).1.ids = b.ids ∧
      (MeldQueue.take b).1.pool = b.pool.fork := by
  refine ⟨fun hc => ?_, TrackedHeap.contents_of_tree_eq_empty rfl, rfl, rfl⟩
  have hd : a.contents.Disjoint b.contents := by
    have hc' : a.checkMerge b = .ok () := hc
    rw [TrackedHeap.checkMerge_eq] at hc'
    split at hc'
    · assumption
    · cases hc'
  obtain ⟨a', hm, hu, -⟩ := (TrackedHeap.merge_spec ha hb).2 hd
  exact ⟨a', hm, hu⟩

theorem radix_mergeFrom_laws {a b : RadixHeap String} (ha : RadixHeap.Filed a)
    (hb : RadixHeap.Filed b) (hbits : b.bits = a.bits) :
    (MeldQueue.checkMerge a b = .ok () → ∃ a', MeldQueue.merge a (MeldQueue.take b).2 = .ok a' ∧
      a'.toList.Perm (a.toList ++ b.toList)) ∧
    (MeldQueue.take b).1.toList = [] ∧ (MeldQueue.take b).1.bits = b.bits ∧
      (MeldQueue.take b).1.baseline = b.baseline := by
  refine ⟨fun _ => ⟨_, rfl, ha.toList_perm_merge hb hbits⟩, ?_, rfl, rfl⟩
  simp [MeldQueue.take, RadixHeap.take, RadixHeap.emptyLike, RadixHeap.toList]

end Engines

/-- "merge_from" is a no-op on one slot, and between two slots either refuses and keeps the
session or moves everything into the first slot. -/
theorem merge_from_refuses_or_moves_everything :
    (∀ {T : Type → Type} [Meldable T] [LawfulMeldable T] {prec : Int → Int → Bool}
        (s : Session (TreeHeap T String Int prec)) (op : Json) (n m : Nat)
        (a b : TreeHeap T String Int prec),
      s.target op = .ok (n, a) → s.slot op "other" none = .ok (m, b) →
      ∃ run, meldHandler "merge_from" = some run ∧
        (n = m → run op s = .ok (.ok .unit, s, [])) ∧
        (n ≠ m → ∃ r, run op s = .ok r ∧
          MergedFrom (fun a b a' => a'.elems = a.elems + b.elems)
            (fun b b' => b'.elems = 0 ∧ b'.pool = b.pool.fork) s n m a b r)) ∧
    (∀ {T : Type → Type} [Meldable T] [LawfulMeldable T] {prec : Int → Int → Bool}
        (s : Session (TrackedHeap T String Int prec)) (op : Json) (n m : Nat)
        (a b : TrackedHeap T String Int prec),
      a.Reachable → b.Reachable → s.target op = .ok (n, a) →
      s.slot op "other" none = .ok (m, b) →
      ∃ run, meldHandler "merge_from" = some run ∧
        (n = m → run op s = .ok (.ok .unit, s, [])) ∧
        (n ≠ m → ∃ r, run op s = .ok r ∧
          MergedFrom (fun a b a' => a'.contents = a.contents ∪ b.contents)
            (fun b b' => b'.contents = ∅ ∧ b'.ids = b.ids ∧ b'.pool = b.pool.fork) s n m a b r)) ∧
    (∀ (s : Session (RadixHeap String)) (op : Json) (n m : Nat) (a b : RadixHeap String),
      a.Reachable → b.Reachable → b.bits = a.bits → s.target op = .ok (n, a) →
      s.slot op "other" none = .ok (m, b) →
      ∃ run, meldHandler "merge_from" = some run ∧
        (n = m → run op s = .ok (.ok .unit, s, [])) ∧
        (n ≠ m → ∃ r, run op s = .ok r ∧
          MergedFrom (fun a b a' => a'.toList.Perm (a.toList ++ b.toList))
            (fun b b' => b'.toList = [] ∧ b'.bits = b.bits ∧ b'.baseline = b.baseline)
            s n m a b r)) := by
  refine ⟨fun s op n m a b ht ho => ?_, fun s op n m a b ha hb ht ho => ?_,
    fun s op n m a b ha hb hbits ht ho => ?_⟩
  · obtain ⟨hmerge, hempty, hpool⟩ := tree_mergeFrom_laws a b
    exact mergeFrom_spec ht ho hmerge ⟨hempty, hpool⟩
  · obtain ⟨hmerge, htake⟩ := tracked_mergeFrom_laws ha.uniqueIds hb.uniqueIds
    exact mergeFrom_spec ht ho hmerge htake
  · obtain ⟨hmerge, htake⟩ := radix_mergeFrom_laws ha.filed hb.filed hbits
    exact mergeFrom_spec ht ho hmerge htake

theorem merge_from_moves_disjoint_tracked_heap :
    let a : TrackedHeap PairingHeap String Int Ranking.ascending.precedes :=
      (((TrackedHeap.new (.startingAt 0) (.own 0)).push ⟨"x", 3⟩ 0).2.1.push ⟨"y", 1⟩ 0).2.1
    let b : TrackedHeap PairingHeap String Int Ranking.ascending.precedes :=
      (((TrackedHeap.new (.startingAt 10) (.own 0)).push ⟨"z", 1⟩ 0).2.1.push ⟨"w", 2⟩ 0).2.1
    let s := ((Session.start a).add b).2
    let op : Json := .obj [("h", .num "0"), ("other", .num "1")]
    let same : Json := .obj [("h", .num "0"), ("other", .num "0")]
    a.Reachable ∧ b.Reachable ∧ s.target op = .ok (0, a) ∧ s.slot op "other" none = .ok (1, b) ∧
      s.target same = .ok (0, a) ∧ s.slot same "other" none = .ok (0, a) ∧
      a.contents.Disjoint b.contents ∧
      ∃ run, meldHandler "merge_from" = some run ∧ run same s = .ok (.ok .unit, s, []) ∧
        ∃ r, run op s = .ok r ∧ r.1 = .ok .unit ∧
          MergedFrom (fun a b a' => a'.contents = a.contents ∪ b.contents)
            (fun b b' => b'.contents = ∅ ∧ b'.ids = b.ids ∧ b'.pool = b.pool.fork) s 0 1 a b r := by
  intro a b s op same
  have ha : a.Reachable := .push _ _ (.push _ _ (.new _ _))
  have hb : b.Reachable := .push _ _ (.push _ _ (.new _ _))
  have ht : s.target op = .ok (0, a) := rfl
  have ho : s.slot op "other" none = .ok (1, b) := rfl
  -- the two heaps hold ids 1, 0 and 10, 11, root first
  have hida : (Meldable.toList a.tree).map Tagged.id = [1, 0] := by decide
  have hidb : (Meldable.toList b.tree).map Tagged.id = [10, 11] := by decide
  have hd : a.contents.Disjoint b.contents := by
    rw [TrackedHeap.contents_disjoint_iff, hida, hidb]
    simp
  have hc : MeldQueue.checkMerge a b = .ok () := by
    show a.checkMerge b = .ok ()
    rw [TrackedHeap.checkMerge_eq, if_pos hd]
  obtain ⟨run, hrun, -, hne⟩ :=
    merge_from_refuses_or_moves_everything.2.1 s op 0 1 a b ha hb ht ho
  obtain ⟨run', hrun', hsame, -⟩ :=
    merge_from_refuses_or_moves_everything.2.1 s same 0 0 a a ha ha rfl rfl
  obtain rfl : run = run' := Option.some.inj (hrun.symm.trans hrun')
  obtain ⟨r, hr, hm⟩ := hne (by decide)
  refine ⟨ha, hb, ht, ho, rfl, rfl, hd, run, hrun, hsame rfl, r, hr, ?_, hm⟩
  -- the merge check passes, so the merge is the branch taken
  rcases hm with ⟨e, he, -⟩ | ⟨-, -, -, -, -, rfl⟩
  · rw [hc] at he
    cases he
  · rfl

end PriorityQueues.Script
