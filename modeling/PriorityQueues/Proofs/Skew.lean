import Mathlib
import PriorityQueues.Tree.Skew
import PriorityQueues.Proofs.Heaps

/-!
Skew heaps stay in heap order; lemmas about the meld loop go through `meldIter_eq`.
-/

namespace PriorityQueues.SkewHeap

variable {α : Type} {prec : α → α → Bool}

def Below (prec : α → α → Bool) (z : α) : SkewHeap α → Prop
  | .leaf => True
  | .node _ y _ => prec y z = false

@[simp]
theorem below_leaf (z : α) : Below prec z .leaf := trivial

@[simp]
theorem below_node (z : α) (l : SkewHeap α) (y : α) (r : SkewHeap α) :
    Below prec z (.node l y r) ↔ prec y z = false := Iff.rfl

theorem Below.trans (hp : StrictWeakOrder prec) {x z : α} {t : SkewHeap α}
    (ht : Below prec x t) (hxz : prec x z = false) : Below prec z t := by
  cases t with
  | leaf => trivial
  | node l y r => exact hp.not_prec_trans ht hxz

@[simp]
theorem toList_leaf : (SkewHeap.leaf : SkewHeap α).toList = [] := rfl

@[simp]
theorem toList_node (l : SkewHeap α) (x : α) (r : SkewHeap α) :
    (SkewHeap.node l x r).toList = x :: (l.toList ++ r.toList) := rfl

theorem size_eq_length (t : SkewHeap α) : t.size = t.toList.length := by
  induction t with
  | leaf => rfl
  | node l x r ihl ihr =>
    simp only [size, toList_node, List.length_cons, List.length_append, ihl, ihr]

@[simp]
theorem ordered_leaf : ordered prec (SkewHeap.leaf : SkewHeap α) = true := rfl

theorem ordered_node_iff {l : SkewHeap α} {x : α} {r : SkewHeap α} :
    ordered prec (.node l x r) = true ↔
      Below prec x l ∧ Below prec x r ∧ ordered prec l = true ∧ ordered prec r = true := by
  simp only [ordered, Bool.and_eq_true, and_assoc]
  cases l <;> cases r <;> simp

theorem not_prec_of_mem (hp : StrictWeakOrder prec) {z y : α} :
    ∀ {t : SkewHeap α}, ordered prec t = true → Below prec z t → y ∈ t.toList →
      prec y z = false
  | .leaf, _, _, hy => by simp at hy
  | .node l x r, ht, hz, hy => by
    obtain ⟨hxl, hxr, hl, hr⟩ := ordered_node_iff.1 ht
    simp only [toList_node, List.mem_cons, List.mem_append] at hy
    rcases hy with rfl | hy | hy
    . exact hz
    . exact not_prec_of_mem hp hl (hxl.trans hp hz) hy
    . exact not_prec_of_mem hp hr (hxr.trans hp hz) hy

section Meld

theorem toList_meld (prec : α → α → Bool) (a b : SkewHeap α) :
    (meld prec a b).toList.Perm (a.toList ++ b.toList) := by
  classical
  fun_induction meld prec a b with
  | case1 b => simp
  | case2 l x r => simp
  | case3 al x ar bl y br _ ih =>
    rw [List.perm_iff_count] at *
    intro z
    have := ih z
    simp only [toList_node, List.count_cons, List.count_append] at *
    omega
  | case4 al x ar bl y br _ ih =>
    rw [List.perm_iff_count] at *
    intro z
    have := ih z
    simp only [toList_node, List.count_cons, List.count_append] at *
    omega

theorem below_meld {z : α} {a b : SkewHeap α} (ha : Below prec z a) (hb : Below prec z b) :
    Below prec z (meld prec a b) := by
  fun_cases meld prec a b with
  | case1 => exact hb
  | case2 => exact ha
  | case3 => exact hb
  | case4 => exact ha

theorem ordered_meld (hp : StrictWeakOrder prec) {a b : SkewHeap α}
    (ha : ordered prec a = true) (hb : ordered prec b = true) :
    ordered prec (meld prec a b) = true := by
  fun_induction meld prec a b with
  | case1 => exact hb
  | case2 => exact ha
  | case3 al x ar bl y br hyx ih =>
    -- the second root wins: the first tree hangs below it, since precedence is asymmetric
    obtain ⟨hybl, hybr, hbl, hbr⟩ := ordered_node_iff.1 hb
    have hxy : Below prec y (.node al x ar) := hp.asymm hyx
    exact ordered_node_iff.2 ⟨below_meld hybr hxy, hybl, ih hbr ha, hbl⟩
  | case4 al x ar bl y br hyx ih =>
    obtain ⟨hxal, hxar, hal, har⟩ := ordered_node_iff.1 ha
    have hyx : Below prec x (.node bl y br) := by simpa using hyx
    exact ordered_node_iff.2 ⟨below_meld hxar hyx, hxal, ih har hb, hal⟩

def pathElems (path : List (α × SkewHeap α)) : List α :=
  path.flatMap fun e => e.1 :: e.2.toList

theorem toList_rebuild (path : List (α × SkewHeap α)) (t : SkewHeap α) :
    (rebuild path t).toList.Perm (pathElems path ++ t.toList) := by
  classical
  induction path generalizing t with
  | nil => simp [rebuild, pathElems]
  | cons e path ih =>
    obtain ⟨x, l⟩ := e
    have := ih (.node t x l)
    rw [List.perm_iff_count] at *
    intro z
    have := this z
    simp only [rebuild, pathElems, List.flatMap_cons, toList_node, List.count_cons,
      List.count_append] at *
    omega

def Walk.carried (w : Walk α) : List α :=
  pathElems w.path ++ w.top :: (w.left.toList ++ w.right.toList ++ w.other.toList)

theorem Walk.toList_run (prec : α → α → Bool) (w : Walk α) :
    (w.run prec).toList.Perm w.carried := by
  classical
  rw [Walk.run_eq]
  have hr := toList_rebuild w.path (.node (meld prec w.right w.other) w.top w.left)
  have hm := toList_meld prec w.right w.other
  rw [List.perm_iff_count] at *
  intro z
  have := hr z
  have := hm z
  simp only [carried, toList_node, List.count_cons, List.count_append] at *
  omega

end Meld

section Cut

variable {p : α → Bool}

theorem cut_node (l : SkewHeap α) (x : α) (r : SkewHeap α) :
    cut prec p (.node l x r) =
      if p x then some (x, meldIter prec l r)
      else
        match cut prec p l with
        | some (y, l') => some (y, .node l' x r)
        | none => (cut prec p r).map fun s => (s.1, .node l x s.2) := rfl

theorem toList_of_cut : ∀ {t t' : SkewHeap α} {y : α},
    cut prec p t = some (y, t') → p y = true ∧ t.toList.Perm (y :: t'.toList)
  | .leaf, _, _, h => by simp [cut] at h
  | .node l x r, t', y, h => by
    classical
    rw [cut_node] at h
    split at h
    . simp only [Option.some.injEq, Prod.mk.injEq] at h
      obtain ⟨rfl, rfl⟩ := h
      rw [meldIter_eq]
      exact ⟨by assumption, .cons _ (toList_meld prec l r).symm⟩
    . split at h
      . rename_i y' l' hcl
        obtain ⟨hy, hperm⟩ := toList_of_cut hcl
        simp only [Option.some.injEq, Prod.mk.injEq] at h
        obtain ⟨rfl, rfl⟩ := h
        refine ⟨hy, ?_⟩
        rw [List.perm_iff_count] at *
        intro z
        have := hperm z
        simp only [toList_node, List.count_cons, List.count_append] at *
        omega
      . obtain ⟨⟨y', r'⟩, hcr, h⟩ := Option.map_eq_some_iff.1 h
        obtain ⟨hy, hperm⟩ := toList_of_cut hcr
        simp only [Prod.mk.injEq] at h
        obtain ⟨rfl, rfl⟩ := h
        refine ⟨hy, ?_⟩
        rw [List.perm_iff_count] at *
        intro z
        have := hperm z
        simp only [toList_node, List.count_cons, List.count_append] at *
        omega

theorem cut_eq_none : ∀ {t : SkewHeap α}, cut prec p t = none ↔ ∀ y ∈ t.toList, p y = false
  | .leaf => by simp [cut]
  | .node l x r => by
    have ihl := cut_eq_none (t := l)
    have ihr := cut_eq_none (t := r)
    rw [cut_node]
    split
    . simp_all
    . rename_i hx
      simp only [toList_node, List.mem_cons, List.mem_append, forall_eq_or_imp,
        Bool.not_eq_true] at hx ⊢
      split
      . rename_i hcl
        refine iff_of_false (by simp) fun h => ?_
        rw [ihl.2 fun y hy => h.2 y (.inl hy)] at hcl
        contradiction
      . rename_i hcl
        rw [Option.map_eq_none_iff, ihr]
        exact ⟨fun h => ⟨hx, fun a ha => ha.elim (ihl.1 hcl a) (h a)⟩,
          fun h a ha => h.2 a (.inr ha)⟩

theorem ordered_of_cut (hp : StrictWeakOrder prec) : ∀ {t t' : SkewHeap α} {y : α},
    ordered prec t = true → cut prec p t = some (y, t') →
      ordered prec t' = true ∧ ∀ z, Below prec z t → Below prec z t'
  | .leaf, _, _, _, h => by simp [cut] at h
  | .node l x r, t', y, ht, h => by
    obtain ⟨hxl, hxr, hl, hr⟩ := ordered_node_iff.1 ht
    rw [cut_node] at h
    split at h
    . simp only [Option.some.injEq, Prod.mk.injEq] at h
      obtain ⟨-, rfl⟩ := h
      rw [meldIter_eq]
      exact ⟨ordered_meld hp hl hr, fun z hz => below_meld (hxl.trans hp hz) (hxr.trans hp hz)⟩
    . split at h
      . rename_i y' l' hcl
        obtain ⟨hl', hbelow⟩ := ordered_of_cut hp hl hcl
        simp only [Option.some.injEq, Prod.mk.injEq] at h
        obtain ⟨-, rfl⟩ := h
        exact ⟨ordered_node_iff.2 ⟨hbelow x hxl, hxr, hl', hr⟩, fun _ hz => hz⟩
      . obtain ⟨⟨y', r'⟩, hcr, h⟩ := Option.map_eq_some_iff.1 h
        obtain ⟨hr', hbelow⟩ := ordered_of_cut hp hr hcr
        simp only [Prod.mk.injEq] at h
        obtain ⟨-, rfl⟩ := h
        exact ⟨ordered_node_iff.2 ⟨hxl, hbelow x hxr, hl, hr'⟩, fun _ hz => hz⟩

end Cut

section Update

variable {p : α → Bool} {f : α → α}

theorem ordered_single (x : α) : ordered prec (.node .leaf x .leaf) = true := rfl

theorem ordered_reprioritize (hp : StrictWeakOrder prec) (p : α → Bool) (f : α → α)
    {t : SkewHeap α} (ht : ordered prec t = true) :
    ordered prec (reprioritize prec p f t) = true := by
  cases t with
  | leaf => rfl
  | node l x r =>
    simp only [reprioritize]
    split
    . -- in place at the root: the children still hang below the image, which is no worse
      rename_i hc
      simp only [Bool.and_eq_true, Bool.not_eq_eq_eq_not, Bool.not_true] at hc
      obtain ⟨hxl, hxr, hl, hr⟩ := ordered_node_iff.1 ht
      exact ordered_node_iff.2 ⟨hxl.trans hp hc.2, hxr.trans hp hc.2, hl, hr⟩
    . split
      . rename_i hcut
        rw [meldIter_eq]
        exact ordered_meld hp (ordered_of_cut hp ht hcut).1 (ordered_single _)
      . exact ht

theorem toList_reprioritize (prec : α → α → Bool) (p : α → Bool) (f : α → α)
    {t : SkewHeap α} (hone : t.toList.countP p ≤ 1) :
    (reprioritize prec p f t).toList.Perm (t.toList.map (mapIf p f)) := by
  cases t with
  | leaf => simp [reprioritize]
  | node l x r =>
    simp only [reprioritize]
    split
    . rename_i hc
      simp only [Bool.and_eq_true] at hc
      exact (map_mapIf_perm f (.refl _) hc.1 hone).symm
    . split
      . rename_i y t' hcut
        obtain ⟨hy, hperm⟩ := toList_of_cut hcut
        rw [meldIter_eq]
        refine (toList_meld prec t' (.node .leaf (f y) .leaf)).trans ?_
        refine List.Perm.trans ?_ (map_mapIf_perm f hperm hy hone).symm
        simp
      . rename_i hcut
        rw [map_mapIf_of_none f (cut_eq_none.1 hcut)]

theorem toList_modify (p : α → Bool) (f : α → α) (t : SkewHeap α) :
    (t.modify p f).toList = t.toList.map (mapIf p f) := by
  induction t with
  | leaf => rfl
  | node l x r ihl ihr => simp [modify, mapIf, ihl, ihr]

theorem below_modify (hf : ∀ a b, prec (f a) b = prec a b) (hf' : ∀ a b, prec a (f b) = prec a b)
    {z : α} {t : SkewHeap α} : Below prec (mapIf p f z) (t.modify p f) ↔ Below prec z t := by
  cases t with
  | leaf => simp [modify]
  | node l y r =>
    show prec (mapIf p f y) (mapIf p f z) = false ↔ prec y z = false
    rw [prec_mapIf p hf hf']

theorem ordered_modify (hf : ∀ a b, prec (f a) b = prec a b)
    (hf' : ∀ a b, prec a (f b) = prec a b) {t : SkewHeap α} (ht : ordered prec t = true) :
    ordered prec (t.modify p f) = true := by
  induction t with
  | leaf => rfl
  | node l x r ihl ihr =>
    obtain ⟨hxl, hxr, hl, hr⟩ := ordered_node_iff.1 ht
    exact ordered_node_iff.2 ⟨(below_modify hf hf').2 hxl, (below_modify hf hf').2 hxr,
      ihl hl, ihr hr⟩

end Update

theorem not_prec_of_popTop (hp : StrictWeakOrder prec) {l : SkewHeap α} {x : α}
    {r : SkewHeap α} (ht : ordered prec (.node l x r) = true) :
    ∀ y ∈ (meldIter prec l r).toList, prec y x = false := by
  obtain ⟨hxl, hxr, hl, hr⟩ := ordered_node_iff.1 ht
  intro y hy
  rw [meldIter_eq] at hy
  rcases List.mem_append.1 ((toList_meld prec l r).subset hy) with hy | hy
  . exact not_prec_of_mem hp hl hxl hy
  . exact not_prec_of_mem hp hr hxr hy

instance : LawfulMeldable SkewHeap where
  toList_empty := rfl
  size_eq_length := size_eq_length
  top?_eq_popTop _ t := by cases t <;> rfl
  toList_meld prec a b := by
    show (meldIter prec a b).toList.Perm _
    rw [meldIter_eq]
    exact toList_meld prec a b
  toList_insert prec x t := by
    show (meldIter prec t (.node .leaf x .leaf)).toList.Perm _
    rw [meldIter_eq]
    exact (toList_meld prec t _).trans (List.perm_append_singleton x t.toList)
  popTop_eq_none _ t := by cases t <;> simp [Meldable.popTop, Meldable.toList]
  toList_of_popTop {_ prec t t' x} h := by
    cases t with
    | leaf => cases h
    | node l y r =>
      cases h
      show (_ :: (l.toList ++ r.toList)).Perm (_ :: (meldIter prec l r).toList)
      rw [meldIter_eq]
      exact .cons _ (toList_meld prec l r).symm
  extract_eq_none _ _ _ := cut_eq_none
  toList_of_extract h := toList_of_cut h
  toList_reprioritize prec p f _ hone := toList_reprioritize prec p f hone
  toList_modify := toList_modify
  find?_eq _ _ := rfl
  verify_empty _ := rfl
  verify_meld := fun hp ha hb => by
    show ordered _ (meldIter _ _ _) = true
    rw [meldIter_eq]
    exact ordered_meld hp ha hb
  verify_insert x := fun hp ht => by
    show ordered _ (meldIter _ _ _) = true
    rw [meldIter_eq]
    exact ordered_meld hp ht (ordered_single x)
  verify_of_popTop {_ prec t t' x} hp ht h := by
    cases t with
    | leaf => cases h
    | node l y r =>
      cases h
      obtain ⟨-, -, hl, hr⟩ := ordered_node_iff.1 ht
      show ordered _ (meldIter _ _ _) = true
      rw [meldIter_eq]
      exact ordered_meld hp hl hr
  verify_of_extract hp ht h := (ordered_of_cut hp ht h).1
  verify_reprioritize p f := fun hp ht => ordered_reprioritize hp p f ht
  verify_modify p f := fun hf hf' ht => ordered_modify hf hf' ht
  not_prec_of_popTop {_ prec t t' x} hp ht h := by
    cases t with
    | leaf => cases h
    | node l y r =>
      cases h
      exact not_prec_of_popTop hp ht

/-- Every skew tree that the engine operations build, and the tree of every untracked or tracked
skew heap that a sequence of operations builds, is in heap order, so `verify` passes; its nodes
number exactly its size; and the meld loop, from any state, returns each element it carries
exactly once. -/
theorem reachable_skew_ordered {V P : Type} {lt : α → α → Bool} {prec : P → P → Bool}
    (hlt : StrictWeakOrder lt) (hp : StrictWeakOrder prec) :
    (∀ w : Walk α, (w.run lt).toList.Perm w.carried) ∧
      (∀ t : SkewHeap α, Meldable.Reachable lt t →
        t.ordered lt = true ∧ t.size = t.toList.length) ∧
      (∀ h : TreeHeap SkewHeap V P prec, h.Reachable → h.verify = true) ∧
      (∀ h : TrackedHeap SkewHeap V P prec, h.Reachable → h.verify = true) :=
  ⟨Walk.toList_run lt, fun t ht => ⟨ht.verify hlt, size_eq_length t⟩,
    fun _ hh => hh.tree.verify hp.entry, fun _ hh => hh.tree.verify hp.tagged⟩

end PriorityQueues.SkewHeap
