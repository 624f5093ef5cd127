import Mathlib
import PriorityQueues.Tree.Leftist
import PriorityQueues.Proofs.Heaps

/-!
Leftist heaps keep heap order, the leftist rule and exact ranks. After a removal inside the tree
the ranks above are restored only while a restore changes one, which `cut`'s invariant justifies.
-/

namespace PriorityQueues.LeftistHeap

variable {α : Type} {prec : α → α → Bool}

def Below (prec : α → α → Bool) (z : α) : LeftistHeap α → Prop
  | .leaf => True
  | .node _ _ y _ => prec y z = false

@[simp]
theorem below_leaf (z : α) : Below prec z .leaf := trivial

@[simp]
theorem below_node (z : α) (k : Nat) (l : LeftistHeap α) (y : α) (r : LeftistHeap α) :
    Below prec z (.node k l y r) ↔ prec y z = false := Iff.rfl

theorem Below.trans (hp : StrictWeakOrder prec) {x z : α} {t : LeftistHeap α}
    (ht : Below prec x t) (hxz : prec x z = false) : Below prec z t := by
  cases t with
  | leaf => trivial
  | node k l y r => exact hp.not_prec_trans ht hxz

@[simp]
theorem toList_leaf : (LeftistHeap.leaf : LeftistHeap α).toList = [] := rfl

@[simp]
theorem toList_node (k : Nat) (l : LeftistHeap α) (x : α) (r : LeftistHeap α) :
    (LeftistHeap.node k l x r).toList = x :: (l.toList ++ r.toList) := rfl

@[simp]
theorem rank_leaf : (LeftistHeap.leaf : LeftistHeap α).rank = 0 := rfl

@[simp]
theorem rank_node (k : Nat) (l : LeftistHeap α) (x : α) (r : LeftistHeap α) :
    (LeftistHeap.node k l x r).rank = k := rfl

theorem size_eq_length (t : LeftistHeap α) : t.size = t.toList.length := by
  induction t with
  | leaf => rfl
  | node k l x r ihl ihr =>
    simp only [size, toList_node, List.length_cons, List.length_append, ihl, ihr]

@[simp]
theorem ordered_leaf : ordered prec (LeftistHeap.leaf : LeftistHeap α) = true := rfl

theorem ordered_node_iff {k : Nat} {l : LeftistHeap α} {x : α} {r : LeftistHeap α} :
    ordered prec (.node k l x r) = true ↔
      r.rank ≤ l.rank ∧ k = r.rank + 1 ∧ Below prec x l ∧ Below prec x r ∧
        ordered prec l = true ∧ ordered prec r = true := by
  simp only [ordered, Bool.and_eq_true, decide_eq_true_eq, beq_iff_eq, and_assoc]
  cases l <;> cases r <;> simp

theorem not_prec_of_mem (hp : StrictWeakOrder prec) {z y : α} :
    ∀ {t : LeftistHeap α}, ordered prec t = true → Below prec z t → y ∈ t.toList →
      prec y z = false
  | .leaf, _, _, hy => by simp at hy
  | .node k l x r, ht, hz, hy => by
    obtain ⟨-, -, hxl, hxr, hl, hr⟩ := ordered_node_iff.1 ht
    simp only [toList_node, List.mem_cons, List.mem_append] at hy
    rcases hy with rfl | hy | hy
    . exact hz
    . exact not_prec_of_mem hp hl (hxl.trans hp hz) hy
    . exact not_prec_of_mem hp hr (hxr.trans hp hz) hy

section Restore

variable {k : Nat} {l : LeftistHeap α} {x : α} {r : LeftistHeap α}

theorem toList_restore : (restore k l x r).1.toList.Perm (x :: (l.toList ++ r.toList)) := by
  unfold restore
  split
  . simpa using List.perm_append_comm
  . simp

@[simp]
theorem below_restore {z : α} : Below prec z (restore k l x r).1 ↔ prec x z = false := by
  unfold restore
  split <;> rfl

theorem ordered_restore (hl : ordered prec l = true) (hr : ordered prec r = true)
    (hxl : Below prec x l) (hxr : Below prec x r) : ordered prec (restore k l x r).1 = true := by
  unfold restore
  split
  . exact ordered_node_iff.2 ⟨by omega, rfl, hxr, hxl, hr, hl⟩
  . exact ordered_node_iff.2 ⟨by omega, rfl, hxl, hxr, hl, hr⟩

theorem rank_restore_of_unchanged (h : (restore k l x r).2 = false) :
    (restore k l x r).1.rank = k := by
  unfold restore at h ⊢
  split <;> simp_all

end Restore

section Meld

theorem toList_meld (prec : α → α → Bool) (a b : LeftistHeap α) :
    (meld prec a b).toList.Perm (a.toList ++ b.toList) := by
  fun_induction meld prec a b with
  | case1 b => simp
  | case2 k l x r => simp
  | case3 ka al x ar kb bl y br _ ih =>
    classical
    refine toList_restore.trans ?_
    rw [List.perm_iff_count] at *
    intro z
    have := ih z
    simp only [toList_node, List.count_cons, List.count_append] at *
    omega
  | case4 ka al x ar kb bl y br _ ih =>
    classical
    refine toList_restore.trans ?_
    rw [List.perm_iff_count] at *
    intro z
    have := ih z
    simp only [toList_node, List.count_cons, List.count_append] at *
    omega

theorem below_meld {z : α} {a b : LeftistHeap α} (ha : Below prec z a) (hb : Below prec z b) :
    Below prec z (meld prec a b) := by
  fun_cases meld prec a b with
  | case1 => exact hb
  | case2 => exact ha
  | case3 => exact below_restore.2 hb
  | case4 => exact below_restore.2 ha

theorem ordered_meld (hp : StrictWeakOrder prec) {a b : LeftistHeap α}
    (ha : ordered prec a = true) (hb : ordered prec b = true) :
    ordered prec (meld prec a b) = true := by
  fun_induction meld prec a b with
  | case1 => exact hb
  | case2 => exact ha
  | case3 ka al x ar kb bl y br hyx ih =>
    -- the second root wins: the first tree hangs below it, since precedence is asymmetric
    obtain ⟨-, -, hybl, hybr, hbl, hbr⟩ := ordered_node_iff.1 hb
    have hxy : Below prec y (.node ka al x ar) := hp.asymm hyx
    exact ordered_restore hbl (ih hbr ha) hybl (below_meld hybr hxy)
  | case4 ka al x ar kb bl y br hyx ih =>
    obtain ⟨-, -, hxal, hxar, hal, har⟩ := ordered_node_iff.1 ha
    have hyx : Below prec x (.node kb bl y br) := by simpa using hyx
    exact ordered_restore hal (ih har hb) hxal (below_meld hxar hyx)

end Meld

section Cut

variable {p : α → Bool}

def rebuild (dirty : Bool) (k : Nat) (l : LeftistHeap α) (x : α) (r : LeftistHeap α) :
    LeftistHeap α × Bool :=
  if dirty then restore k l x r else (.node k l x r, false)

theorem cut_node (k : Nat) (l : LeftistHeap α) (x : α) (r : LeftistHeap α) :
    cut prec p (.node k l x r) =
      if p x then some (x, meld prec l r, true)
      else
        match cut prec p l with
        | some (y, l', dirty) => some (y, rebuild dirty k l' x r)
        | none =>
          match cut prec p r with
          | some (y, r', dirty) => some (y, rebuild dirty k l x r')
          | none => none := rfl

theorem toList_rebuild (dirty : Bool) (k : Nat) (l : LeftistHeap α) (x : α)
    (r : LeftistHeap α) : (rebuild dirty k l x r).1.toList.Perm (x :: (l.toList ++ r.toList)) := by
  cases dirty
  . simp [rebuild]
  . exact toList_restore

theorem ordered_rebuild {dirty : Bool} {k : Nat} {l : LeftistHeap α} {x : α} {r : LeftistHeap α}
    (hl : ordered prec l = true) (hr : ordered prec r = true) (hxl : Below prec x l)
    (hxr : Below prec x r) (hkeep : dirty = false → r.rank ≤ l.rank ∧ k = r.rank + 1) :
    ordered prec (rebuild dirty k l x r).1 = true ∧
      ((rebuild dirty k l x r).2 = false → (rebuild dirty k l x r).1.rank = k) ∧
      ∀ z, Below prec z (rebuild dirty k l x r).1 ↔ prec x z = false := by
  cases dirty
  . obtain ⟨hrl, hk⟩ := hkeep rfl
    exact ⟨ordered_node_iff.2 ⟨hrl, hk, hxl, hxr, hl, hr⟩, fun _ => rfl, fun _ => Iff.rfl⟩
  . exact ⟨ordered_restore hl hr hxl hxr, rank_restore_of_unchanged, fun _ => below_restore⟩

theorem toList_of_cut : ∀ {t t' : LeftistHeap α} {y : α} {d : Bool},
    cut prec p t = some (y, t', d) → p y = true ∧ t.toList.Perm (y :: t'.toList)
  | .leaf, _, _, _, h => by simp [cut] at h
  | .node k l x r, t', y, d, h => by
    classical
    rw [cut_node] at h
    split at h
    . simp only [Option.some.injEq, Prod.mk.injEq] at h
      obtain ⟨rfl, rfl, -⟩ := h
      exact ⟨by assumption, .cons _ (toList_meld prec l r).symm⟩
    . split at h
      . rename_i y' l' dirty hcl
        obtain ⟨hy, hperm⟩ := toList_of_cut hcl
        simp only [Option.some.injEq, Prod.mk.injEq] at h
        obtain ⟨rfl, hrb⟩ := h
        have ht' := toList_rebuild dirty k l' x r
        rw [hrb] at ht'
        refine ⟨hy, ?_⟩
        rw [List.perm_iff_count] at *
        intro z
        have := hperm z
        have := ht' z
        simp only [toList_node, List.count_cons, List.count_append] at *
        omega
      . split at h
        . rename_i y' r' dirty hcr
          obtain ⟨hy, hperm⟩ := toList_of_cut hcr
          simp only [Option.some.injEq, Prod.mk.injEq] at h
          obtain ⟨rfl, hrb⟩ := h
          have ht' := toList_rebuild dirty k l x r'
          rw [hrb] at ht'
          refine ⟨hy, ?_⟩
          rw [List.perm_iff_count] at *
          intro z
          have := hperm z
          have := ht' z
          simp only [toList_node, List.count_cons, List.count_append] at *
          omega
        . simp at h

theorem cut_eq_none : ∀ {t : LeftistHeap α}, cut prec p t = none ↔ ∀ y ∈ t.toList, p y = false
  | .leaf => by simp [cut]
  | .node k l x r => by
    have ihl := cut_eq_none (t := l)
    have ihr := cut_eq_none (t := r)
    rw [cut_node]
    split
    . simp_all
    . rename_i hx
      simp only [toList_node, List.mem_cons, List.mem_append, forall_eq_or_imp,
        Bool.not_eq_true] at hx ⊢
      split
      . rename_i hcl
        refine iff_of_false (by simp) fun h => ?_
        rw [ihl.2 fun y hy => h.2 y (.inl hy)] at hcl
        contradiction
      . rename_i hcl
        have hl := ihl.1 hcl
        split
        . rename_i hcr
          refine iff_of_false (by simp) fun h => ?_
          rw [ihr.2 fun y hy => h.2 y (.inr hy)] at hcr
          contradiction
        . rename_i hcr
          exact iff_of_true rfl ⟨hx, fun a ha => ha.elim (hl a) (ihr.1 hcr a)⟩

theorem ordered_of_cut (hp : StrictWeakOrder prec) : ∀ {t t' : LeftistHeap α} {y : α} {d : Bool},
    ordered prec t = true → cut prec p t = some (y, t', d) →
      ordered prec t' = true ∧ (d = false → t'.rank = t.rank) ∧
        ∀ z, Below prec z t → Below prec z t'
  | .leaf, _, _, _, _, h => by simp [cut] at h
  | .node k l x r, t', y, d, ht, h => by
    obtain ⟨hrl, hk, hxl, hxr, hl, hr⟩ := ordered_node_iff.1 ht
    rw [cut_node] at h
    split at h
    . -- the root leaves: the meld of its subtrees hangs wherever the root could
      simp only [Option.some.injEq, Prod.mk.injEq] at h
      obtain ⟨-, rfl, rfl⟩ := h
      refine ⟨ordered_meld hp hl hr, by simp, fun z hz => ?_⟩
      exact below_meld (hxl.trans hp hz) (hxr.trans hp hz)
    . split at h
      . rename_i y' l' dirty hcl
        obtain ⟨hl', hrank, hbelow⟩ := ordered_of_cut hp hl hcl
        simp only [Option.some.injEq, Prod.mk.injEq] at h
        obtain ⟨-, hrb⟩ := h
        have := ordered_rebuild (k := k) hl' hr (hbelow x hxl) hxr
          fun (hd : dirty = false) => ⟨hrank hd ▸ hrl, hk⟩
        rw [hrb] at this
        exact ⟨this.1, this.2.1, fun z hz => (this.2.2 z).2 hz⟩
      . split at h
        . rename_i y' r' dirty hcr
          obtain ⟨hr', hrank, hbelow⟩ := ordered_of_cut hp hr hcr
          simp only [Option.some.injEq, Prod.mk.injEq] at h
          obtain ⟨-, hrb⟩ := h
          have := ordered_rebuild (k := k) hl hr' hxl (hbelow x hxr)
            fun (hd : dirty = false) => ⟨hrank hd ▸ hrl, hrank hd ▸ hk⟩
          rw [hrb] at this
          exact ⟨this.1, this.2.1, fun z hz => (this.2.2 z).2 hz⟩
        . simp at h

end Cut

section Update

variable {p : α → Bool} {f : α → α}

theorem ordered_singleton (x : α) : ordered prec (singleton x) = true := by
  simp [singleton, ordered_node_iff]

theorem ordered_reprioritize (hp : StrictWeakOrder prec) (p : α → Bool) (f : α → α)
    {t : LeftistHeap α} (ht : ordered prec t = true) :
    ordered prec (reprioritize prec p f t) = true := by
  cases t with
  | leaf => rfl
  | node k l x r =>
    simp only [reprioritize]
    split
    . -- in place at the root: the children still hang below the image, which is no worse
      rename_i hc
      simp only [Bool.and_eq_true, Bool.not_eq_eq_eq_not, Bool.not_true] at hc
      obtain ⟨hrl, hk, hxl, hxr, hl, hr⟩ := ordered_node_iff.1 ht
      exact ordered_node_iff.2 ⟨hrl, hk, hxl.trans hp hc.2, hxr.trans hp hc.2, hl, hr⟩
    . split
      . rename_i hcut
        exact ordered_meld hp (ordered_of_cut hp ht hcut).1 (ordered_singleton _)
      . exact ht

theorem toList_reprioritize (prec : α → α → Bool) (p : α → Bool) (f : α → α)
    {t : LeftistHeap α} (hone : t.toList.countP p ≤ 1) :
    (reprioritize prec p f t).toList.Perm (t.toList.map (mapIf p f)) := by
  cases t with
  | leaf => simp [reprioritize]
  | node k l x r =>
    simp only [reprioritize]
    split
    . rename_i hc
      simp only [Bool.and_eq_true] at hc
      exact (map_mapIf_perm f (.refl _) hc.1 hone).symm
    . split
      . rename_i y t' d hcut
        obtain ⟨hy, hperm⟩ := toList_of_cut hcut
        refine (toList_meld prec t' (singleton (f y))).trans ?_
        refine List.Perm.trans ?_ (map_mapIf_perm f hperm hy hone).symm
        simp [singleton]
      . rename_i hcut
        rw [map_mapIf_of_none f (cut_eq_none.1 hcut)]

theorem toList_modify (p : α → Bool) (f : α → α) (t : LeftistHeap α) :
    (t.modify p f).toList = t.toList.map (mapIf p f) := by
  induction t with
  | leaf => rfl
  | node k l x r ihl ihr => simp [modify, mapIf, ihl, ihr]

theorem rank_modify (t : LeftistHeap α) : (t.modify p f).rank = t.rank := by
  cases t <;> rfl

theorem below_modify (hf : ∀ a b, prec (f a) b = prec a b) (hf' : ∀ a b, prec a (f b) = prec a b)
    {z : α} {t : LeftistHeap α} : Below prec (mapIf p f z) (t.modify p f) ↔ Below prec z t := by
  cases t with
  | leaf => simp [modify]
  | node k l y r =>
    show prec (mapIf p f y) (mapIf p f z) = false ↔ prec y z = false
    rw [prec_mapIf p hf hf']

theorem ordered_modify (hf : ∀ a b, prec (f a) b = prec a b)
    (hf' : ∀ a b, prec a (f b) = prec a b) {t : LeftistHeap α} (ht : ordered prec t = true) :
    ordered prec (t.modify p f) = true := by
  induction t with
  | leaf => rfl
  | node k l x r ihl ihr =>
    obtain ⟨hrl, hk, hxl, hxr, hl, hr⟩ := ordered_node_iff.1 ht
    refine ordered_node_iff.2 ⟨?_, ?_, (below_modify hf hf').2 hxl, (below_modify hf hf').2 hxr,
      ihl hl, ihr hr⟩
    . rw [rank_modify, rank_modify]
      exact hrl
    . rw [rank_modify]
      exact hk

end Update

theorem not_prec_of_popTop (hp : StrictWeakOrder prec) {k : Nat} {l : LeftistHeap α} {x : α}
    {r : LeftistHeap α} (ht : ordered prec (.node k l x r) = true) :
    ∀ y ∈ (meld prec l r).toList, prec y x = false := by
  obtain ⟨-, -, hxl, hxr, hl, hr⟩ := ordered_node_iff.1 ht
  intro y hy
  rcases List.mem_append.1 ((toList_meld prec l r).subset hy) with hy | hy
  . exact not_prec_of_mem hp hl hxl hy
  . exact not_prec_of_mem hp hr hxr hy

instance : LawfulMeldable LeftistHeap where
  toList_empty := rfl
  size_eq_length := size_eq_length
  top?_eq_popTop _ t := by cases t <;> rfl
  toList_meld := toList_meld
  toList_insert prec x t :=
    (toList_meld prec t (singleton x)).trans (List.perm_append_singleton x t.toList)
  popTop_eq_none _ t := by cases t <;> simp [Meldable.popTop, Meldable.toList]
  toList_of_popTop {_ prec t t' x} h := by
    cases t with
    | leaf => cases h
    | node k l y r =>
      cases h
      exact .cons _ (toList_meld prec l r).symm
  extract_eq_none prec p t := by
    simp only [Meldable.extract, Option.map_eq_none_iff]
    exact cut_eq_none
  toList_of_extract h := by
    obtain ⟨⟨y, t', d⟩, hcut, h⟩ := Option.map_eq_some_iff.1 h
    cases h
    exact toList_of_cut hcut
  toList_reprioritize prec p f _ hone := toList_reprioritize prec p f hone
  toList_modify := toList_modify
  find?_eq _ _ := rfl
  verify_empty _ := rfl
  verify_meld := fun hp ha hb => ordered_meld hp ha hb
  verify_insert x := fun hp ht => ordered_meld hp ht (ordered_singleton x)
  verify_of_popTop {_ prec t t' x} hp ht h := by
    cases t with
    | leaf => cases h
    | node k l y r =>
      cases h
      obtain ⟨-, -, -, -, hl, hr⟩ := ordered_node_iff.1 ht
      exact ordered_meld hp hl hr
  verify_of_extract hp ht h := by
    obtain ⟨⟨y, t', d⟩, hcut, h⟩ := Option.map_eq_some_iff.1 h
    cases h
    exact (ordered_of_cut hp ht hcut).1
  verify_reprioritize p f := fun hp ht => ordered_reprioritize hp p f ht
  verify_modify p f := fun hf hf' ht => ordered_modify hf hf' ht
  not_prec_of_popTop {_ prec t t' x} hp ht h := by
    cases t with
    | leaf => cases h
    | node k l y r =>
      cases h
      exact not_prec_of_popTop hp ht

/-- Every leftist tree that the engine operations build, and the tree of every untracked or
tracked leftist heap that a sequence of operations builds, passes `verify`: heap order, the
leftist rule and exact stored ranks hold at every node. -/
theorem reachable_ranked_ordered {V P : Type} {lt : α → α → Bool} {prec : P → P → Bool}
    (hlt : StrictWeakOrder lt) (hp : StrictWeakOrder prec) :
    (∀ t : LeftistHeap α, Meldable.Reachable lt t → t.ordered lt = true) ∧
      (∀ h : TreeHeap LeftistHeap V P prec, h.Reachable → h.verify = true) ∧
      (∀ h : TrackedHeap LeftistHeap V P prec, h.Reachable → h.verify = true) :=
  ⟨fun _ ht => ht.verify hlt, fun _ hh => hh.tree.verify hp.entry,
    fun _ hh => hh.tree.verify hp.tagged⟩

end PriorityQueues.LeftistHeap
