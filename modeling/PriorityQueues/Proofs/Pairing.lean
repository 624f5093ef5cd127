import Mathlib
import PriorityQueues.Tree.Pairing
import PriorityQueues.Proofs.Heaps

/-!
Pairing heaps stay in heap order under every operation; the fast path of a change that is no
worse keeps the subtree because not preceding is transitive.
-/

namespace PriorityQueues

namespace PairingTree

variable {α : Type} {prec : α → α → Bool}

@[simp]
theorem top_node (x : α) (cs : List (PairingTree α)) : (node x cs).top = x := rfl

@[simp]
theorem children_node (x : α) (cs : List (PairingTree α)) : (node x cs).children = cs := rfl

@[simp]
theorem toList_node (x : α) (cs : List (PairingTree α)) :
    (node x cs).toList = x :: toListList cs := by
  simp [toList]

@[simp]
theorem toListList_nil : toListList ([] : List (PairingTree α)) = [] := by
  simp [toListList]

@[simp]
theorem toListList_cons (t : PairingTree α) (ts : List (PairingTree α)) :
    toListList (t :: ts) = t.toList ++ toListList ts := by
  simp [toListList]

theorem toList_eq (t : PairingTree α) : t.toList = t.top :: toListList t.children := by
  cases t
  simp

mutual
theorem size_eq_length : ∀ t : PairingTree α, t.size = t.toList.length
  | .node x cs => by
    simp only [size, toList_node, List.length_cons, sizeList_eq_length cs]

theorem sizeList_eq_length :
    ∀ ts : List (PairingTree α), sizeList ts = (toListList ts).length
  | [] => by simp [sizeList]
  | t :: ts => by
    simp only [sizeList, toListList_cons, List.length_append, size_eq_length t,
      sizeList_eq_length ts]
end

@[simp]
theorem orderedList_nil (x : α) : orderedList prec x [] = true := by
  simp [orderedList]

@[simp]
theorem orderedList_cons (x : α) (t : PairingTree α) (ts : List (PairingTree α)) :
    orderedList prec x (t :: ts) = true ↔
      prec t.top x = false ∧ ordered prec t = true ∧ orderedList prec x ts = true := by
  simp [orderedList, and_assoc]

@[simp]
theorem ordered_node (x : α) (cs : List (PairingTree α)) :
    ordered prec (node x cs) = orderedList prec x cs := by
  simp [ordered]

theorem orderedList_iff {x : α} {ts : List (PairingTree α)} :
    orderedList prec x ts = true ↔ ∀ t ∈ ts, prec t.top x = false ∧ ordered prec t = true := by
  induction ts with
  | nil => simp
  | cons t ts ih => simp [ih, and_assoc]

theorem orderedList_trans (hp : StrictWeakOrder prec) {x z : α} {ts : List (PairingTree α)}
    (h : orderedList prec x ts = true) (hxz : prec x z = false) :
    orderedList prec z ts = true :=
  orderedList_iff.2 fun t ht =>
    ⟨hp.not_prec_trans (orderedList_iff.1 h t ht).1 hxz, (orderedList_iff.1 h t ht).2⟩

mutual
theorem not_prec_of_mem (hp : StrictWeakOrder prec) :
    ∀ {t : PairingTree α} {z y : α}, ordered prec t = true → prec t.top z = false →
      y ∈ t.toList → prec y z = false
  | .node x cs, z, y, ht, hz, hy => by
    simp only [toList_node, List.mem_cons] at hy
    rcases hy with rfl | hy
    . exact hz
    . exact not_prec_of_memList hp ht hz hy

theorem not_prec_of_memList (hp : StrictWeakOrder prec) :
    ∀ {ts : List (PairingTree α)} {x z y : α}, orderedList prec x ts = true →
      prec x z = false → y ∈ toListList ts → prec y z = false
  | [], _, _, _, _, _, hy => by simp at hy
  | t :: ts, x, z, y, h, hz, hy => by
    obtain ⟨htx, ht, hts⟩ := (orderedList_cons x t ts).1 h
    rcases List.mem_append.1 (by simpa using hy) with hy | hy
    . exact not_prec_of_mem hp ht (hp.not_prec_trans htx hz) hy
    . exact not_prec_of_memList hp hts hz hy
end

section Link

theorem toList_link (prec : α → α → Bool) (a b : PairingTree α) :
    (link prec a b).toList.Perm (a.toList ++ b.toList) := by
  classical
  cases a with
  | node x xs =>
    cases b with
    | node y ys =>
      simp only [link]
      split <;>
      . rw [List.perm_iff_count]
        intro z
        simp only [toList_node, toListList_cons, List.count_cons, List.count_append]
        omega

theorem ordered_link (hp : StrictWeakOrder prec) {a b : PairingTree α}
    (ha : ordered prec a = true) (hb : ordered prec b = true) :
    ordered prec (link prec a b) = true := by
  cases a with
  | node x xs =>
    cases b with
    | node y ys =>
      simp only [link]
      split
      . -- the second root wins; the first tree becomes its first child
        rename_i hyx
        simp only [ordered_node, orderedList_cons, top_node] at ha hb ⊢
        exact ⟨hp.asymm hyx, ha, hb⟩
      . rename_i hyx
        simp only [ordered_node, orderedList_cons, top_node] at ha hb ⊢
        exact ⟨by simpa using hyx, hb, ha⟩

end Link

section Combine

theorem toListList_pairUp (prec : α → α → Bool) (ts : List (PairingTree α)) :
    (toListList (pairUp prec ts)).Perm (toListList ts) := by
  fun_induction pairUp prec ts with
  | case1 a b rest ih =>
    simp only [toListList_cons, ← List.append_assoc]
    exact (toList_link prec a b).append ih
  | case2 rest => exact .refl _

theorem ordered_pairUp (hp : StrictWeakOrder prec) {ts : List (PairingTree α)}
    (h : ∀ t ∈ ts, ordered prec t = true) : ∀ t ∈ pairUp prec ts, ordered prec t = true := by
  fun_induction pairUp prec ts with
  | case1 a b rest ih =>
    intro t ht
    simp only [List.mem_cons] at ht
    rcases ht with rfl | ht
    . exact ordered_link hp (h a (by simp)) (h b (by simp))
    . exact ih (fun t ht => h t (by simp [ht])) t ht
  | case2 rest => exact h

theorem pairUp_eq_nil {ts : List (PairingTree α)} : pairUp prec ts = [] ↔ ts = [] := by
  fun_cases pairUp prec ts <;> simp_all

theorem linkAll_eq_none {ts : List (PairingTree α)} : linkAll prec ts = none ↔ ts = [] := by
  fun_induction linkAll prec ts with
  | case1 => simp
  | case2 t => simp
  | case3 t rest hrest ih =>
    have hne : rest ≠ [] := hrest
    simp [ih, hne]

theorem toList_of_linkAll {ts : List (PairingTree α)} {t : PairingTree α}
    (h : linkAll prec ts = some t) : t.toList.Perm (toListList ts) := by
  fun_induction linkAll prec ts generalizing t with
  | case1 => simp at h
  | case2 t' =>
    cases h
    simp
  | case3 t' rest _ ih =>
    obtain ⟨u, hu, rfl⟩ := Option.map_eq_some_iff.1 h
    exact (toList_link prec t' u).trans ((ih hu).append_left _)

theorem ordered_of_linkAll (hp : StrictWeakOrder prec) {ts : List (PairingTree α)}
    {t : PairingTree α} (hts : ∀ t ∈ ts, ordered prec t = true) (h : linkAll prec ts = some t) :
    ordered prec t = true := by
  fun_induction linkAll prec ts generalizing t with
  | case1 => simp at h
  | case2 t' =>
    cases h
    exact hts _ (by simp)
  | case3 t' rest _ ih =>
    obtain ⟨u, hu, rfl⟩ := Option.map_eq_some_iff.1 h
    exact ordered_link hp (hts t' (by simp)) (ih (fun t ht => hts t (by simp [ht])) hu)

theorem linkAll_append_singleton (prec : α → α → Bool) :
    ∀ (ws : List (PairingTree α)) (u : PairingTree α),
      linkAll prec (ws ++ [u]) = some (ws.foldr (link prec) u)
  | [], _ => rfl
  | w :: ws, u => by
    obtain ⟨x, xs, hx⟩ := List.exists_cons_of_ne_nil (List.append_ne_nil_of_right_ne_nil ws
      (List.cons_ne_nil u []))
    rw [List.cons_append, hx]
    show (linkAll prec (x :: xs)).map (link prec w) = _
    rw [← hx, linkAll_append_singleton prec ws u]
    rfl

theorem combine_eq_none {ts : List (PairingTree α)} : combine prec ts = none ↔ ts = [] := by
  simp [combine, linkAll_eq_none, pairUp_eq_nil]

theorem toList_of_combine {ts : List (PairingTree α)} {t : PairingTree α}
    (h : combine prec ts = some t) : t.toList.Perm (toListList ts) :=
  (toList_of_linkAll h).trans (toListList_pairUp prec ts)

theorem ordered_of_combine (hp : StrictWeakOrder prec) {ts : List (PairingTree α)}
    {t : PairingTree α} (hts : ∀ t ∈ ts, ordered prec t = true) (h : combine prec ts = some t) :
    ordered prec t = true :=
  ordered_of_linkAll hp (ordered_pairUp hp hts) h

end Combine

section Ties

def pick (prec : α → α → Bool) (x y : α) : α := if prec y x then y else x

def leftmostLeast (prec : α → α → Bool) : List α → Option α
  | [] => none
  | x :: xs => some ((leftmostLeast prec xs).elim x (pick prec x))

@[simp]
theorem top_link (prec : α → α → Bool) (a b : PairingTree α) :
    (link prec a b).top = pick prec a.top b.top := by
  cases a with
  | node x xs =>
    cases b with
    | node y ys =>
      by_cases hyx : prec y x = true <;> simp [link, pick, hyx]

theorem pick_assoc (hp : StrictWeakOrder prec) (x y z : α) :
    pick prec (pick prec x y) z = pick prec x (pick prec y z) := by
  cases hyx : prec y x <;> cases hzy : prec z y
  · -- neither later root precedes the one before it, so `z` does not precede `x` either
    simp [pick, hyx, hzy, hp.not_prec_trans hzy hyx]
  · simp [pick, hyx, hzy]
  · simp [pick, hyx, hzy]
  · simp [pick, hyx, hzy, hp.trans z y x hzy hyx]

theorem leftmostLeast_eq_none {xs : List α} : leftmostLeast prec xs = none ↔ xs = [] := by
  cases xs <;> simp [leftmostLeast]

theorem leftmostLeast_pairUp (hp : StrictWeakOrder prec) (ts : List (PairingTree α)) :
    leftmostLeast prec ((pairUp prec ts).map top) = leftmostLeast prec (ts.map top) := by
  fun_induction pairUp prec ts with
  | case1 a b rest ih =>
    simp only [List.map_cons, leftmostLeast, top_link, ih]
    cases leftmostLeast prec (rest.map top) with
    | none => rfl
    | some m => simp [pick_assoc hp]
  | case2 rest => rfl

theorem top_of_linkAll {ts : List (PairingTree α)} {t : PairingTree α}
    (h : linkAll prec ts = some t) : leftmostLeast prec (ts.map top) = some t.top := by
  fun_induction linkAll prec ts generalizing t with
  | case1 => simp at h
  | case2 t' =>
    cases h
    rfl
  | case3 t' rest _ ih =>
    obtain ⟨u, hu, rfl⟩ := Option.map_eq_some_iff.1 h
    simp [leftmostLeast, ih hu]

theorem leftmostLeast_eq_find? (hp : StrictWeakOrder prec) :
    ∀ xs : List α, leftmostLeast prec xs = xs.find? fun x => xs.all fun y => !prec y x
  | [] => rfl
  | x :: xs => by
    cases hm : leftmostLeast prec xs with
    | none =>
      obtain rfl := leftmostLeast_eq_none.1 hm
      simp [leftmostLeast, hp.irrefl]
    | some m =>
      have hfind := (leftmostLeast_eq_find? hp xs).symm.trans hm
      have hmin : ∀ y ∈ xs, prec y m = false := by simpa using List.find?_some hfind
      have hmem : m ∈ xs := List.mem_of_find?_eq_some hfind
      simp only [leftmostLeast, hm, Option.elim_some, pick, List.all_cons]
      by_cases hmx : prec m x = true
      · -- `m` beats `x`, and `x` precedes nothing that nothing in `xs` precedes
        have hx : ∀ z ∈ xs, (xs.all fun y => !prec y z) = true → prec x z = false :=
          fun z hz hzmin => by
            cases hxz : prec x z
            · rfl
            · have := hp.trans m x z hmx hxz
              simp_all
        rw [if_pos hmx, List.find?_cons_of_neg (by simpa [hp.irrefl] using ⟨m, hmem, hmx⟩),
          ← hfind]
        apply List.find?_congr
        intro z hz
        cases hzmin : xs.all fun y => !prec y z
        · simp
        · simp [hx z hz hzmin]
      · -- nothing in `xs` beats `m`, and `m` does not beat `x`
        have hmx' : prec m x = false := by simpa using hmx
        rw [if_neg hmx, List.find?_cons_of_pos]
        simp only [hp.irrefl, Bool.not_false, Bool.true_and, List.all_eq_true,
          Bool.not_eq_eq_eq_not, Bool.not_true]
        exact fun y hy => hp.not_prec_trans (hmin y hy) hmx'

theorem top_of_combine (hp : StrictWeakOrder prec) {ts : List (PairingTree α)}
    {t : PairingTree α} (h : combine prec ts = some t) :
    (ts.map top).find? (fun x => (ts.map top).all fun y => !prec y x) = some t.top := by
  rw [← leftmostLeast_eq_find? hp, ← leftmostLeast_pairUp hp]
  exact top_of_linkAll h

end Ties

section Cut

variable {p : α → Bool}

theorem cut_node (x : α) (cs : List (PairingTree α)) :
    cut p (node x cs) = (cutList p cs).map fun r => (node x r.1, r.2) := by
  simp [cut]

theorem cutList_cons (t : PairingTree α) (ts : List (PairingTree α)) :
    cutList p (t :: ts) =
      if p t.top then some (ts, t)
      else
        match cut p t with
        | some r => some (r.1 :: ts, r.2)
        | none => (cutList p ts).map fun r => (t :: r.1, r.2) :=
  cutList.eq_2 p t ts

mutual
theorem toList_of_cut : ∀ {t rest s : PairingTree α}, cut p t = some (rest, s) →
    p s.top = true ∧ t.toList.Perm (s.toList ++ rest.toList) ∧ rest.top = t.top
  | .node x cs, rest, s, h => by
    rw [cut_node] at h
    obtain ⟨⟨cs', s'⟩, hc, h⟩ := Option.map_eq_some_iff.1 h
    simp only [Prod.mk.injEq] at h
    obtain ⟨rfl, rfl⟩ := h
    obtain ⟨hs, hperm⟩ := toList_of_cutList hc
    refine ⟨hs, ?_, rfl⟩
    simpa using (hperm.cons x).trans List.perm_middle.symm

theorem toList_of_cutList : ∀ {ts ts' : List (PairingTree α)} {s : PairingTree α},
    cutList p ts = some (ts', s) →
      p s.top = true ∧ (toListList ts).Perm (s.toList ++ toListList ts')
  | [], _, _, h => by simp [cutList] at h
  | t :: ts, ts', s, h => by
    rw [cutList_cons] at h
    split at h
    . simp only [Option.some.injEq, Prod.mk.injEq] at h
      obtain ⟨rfl, rfl⟩ := h
      exact ⟨by assumption, by simp⟩
    . split at h
      . rename_i r hct
        simp only [Option.some.injEq, Prod.mk.injEq] at h
        obtain ⟨rfl, rfl⟩ := h
        obtain ⟨hs, hperm, -⟩ := toList_of_cut hct
        refine ⟨hs, ?_⟩
        simpa using hperm.append_right (toListList ts)
      . obtain ⟨⟨ts'', s'⟩, hc, h⟩ := Option.map_eq_some_iff.1 h
        simp only [Prod.mk.injEq] at h
        obtain ⟨rfl, rfl⟩ := h
        obtain ⟨hs, hperm⟩ := toList_of_cutList hc
        refine ⟨hs, ?_⟩
        simp only [toListList_cons]
        exact (hperm.append_left t.toList).trans (List.perm_append_comm_assoc _ _ _)
end

mutual
theorem ordered_of_cut : ∀ {t rest s : PairingTree α}, ordered prec t = true →
    cut p t = some (rest, s) → ordered prec rest = true ∧ ordered prec s = true
  | .node x cs, rest, s, ht, h => by
    rw [cut_node] at h
    obtain ⟨⟨cs', s'⟩, hc, h⟩ := Option.map_eq_some_iff.1 h
    simp only [Prod.mk.injEq] at h
    obtain ⟨rfl, rfl⟩ := h
    simpa using ordered_of_cutList ht hc

theorem ordered_of_cutList : ∀ {ts ts' : List (PairingTree α)} {x : α} {s : PairingTree α},
    orderedList prec x ts = true → cutList p ts = some (ts', s) →
      orderedList prec x ts' = true ∧ ordered prec s = true
  | [], _, _, _, _, h => by simp [cutList] at h
  | t :: ts, ts', x, s, hts, h => by
    obtain ⟨htx, ht, hts⟩ := (orderedList_cons x t ts).1 hts
    rw [cutList_cons] at h
    split at h
    . simp only [Option.some.injEq, Prod.mk.injEq] at h
      obtain ⟨rfl, rfl⟩ := h
      exact ⟨hts, ht⟩
    . split at h
      . -- the cut happened inside `t`, whose root stays where it was
        rename_i r hct
        simp only [Option.some.injEq, Prod.mk.injEq] at h
        obtain ⟨rfl, rfl⟩ := h
        obtain ⟨-, -, htop⟩ := toList_of_cut hct
        obtain ⟨hrest, hs⟩ := ordered_of_cut ht hct
        exact ⟨(orderedList_cons x _ ts).2 ⟨htop ▸ htx, hrest, hts⟩, hs⟩
      . obtain ⟨⟨ts'', s'⟩, hc, h⟩ := Option.map_eq_some_iff.1 h
        simp only [Prod.mk.injEq] at h
        obtain ⟨rfl, rfl⟩ := h
        obtain ⟨hts'', hs⟩ := ordered_of_cutList hts hc
        exact ⟨(orderedList_cons x t ts'').2 ⟨htx, ht, hts''⟩, hs⟩
end

mutual
theorem cut_eq_none : ∀ {t : PairingTree α},
    cut p t = none ↔ ∀ y ∈ toListList t.children, p y = false
  | .node x cs => by
    rw [cut_node, Option.map_eq_none_iff, children_node]
    exact cutList_eq_none

theorem cutList_eq_none : ∀ {ts : List (PairingTree α)},
    cutList p ts = none ↔ ∀ y ∈ toListList ts, p y = false
  | [] => by simp [cutList]
  | t :: ts => by
    have iht := cut_eq_none (t := t)
    have ihts : cutList p ts = none ↔ ∀ y ∈ toListList ts, p y = false := cutList_eq_none
    rw [cutList_cons, toListList_cons, toList_eq]
    simp only [List.cons_append, List.mem_cons, List.mem_append, forall_eq_or_imp]
    split
    . rename_i htop
      exact iff_of_false (by simp) fun h => by simp [h.1] at htop
    . rename_i htop
      split
      . rename_i r hct
        refine iff_of_false (by simp) fun h => ?_
        rw [iht.2 fun y hy => h.2 y (.inl hy)] at hct
        contradiction
      . rename_i hct
        rw [Option.map_eq_none_iff, ihts]
        simp only [Bool.not_eq_true] at htop
        exact ⟨fun h => ⟨htop, fun y hy => hy.elim (iht.1 hct y) (h y)⟩,
          fun h y hy => h.2 y (.inr hy)⟩
end

end Cut

section Modify

variable {p : α → Bool} {f : α → α}

mutual
theorem toList_modify (p : α → Bool) (f : α → α) :
    ∀ t : PairingTree α, (modify p f t).toList = t.toList.map (mapIf p f)
  | .node x cs => by
    simp only [modify, toList_node, List.map_cons, toListList_modifyList p f cs]
    rfl

theorem toListList_modifyList (p : α → Bool) (f : α → α) :
    ∀ ts : List (PairingTree α), toListList (modifyList p f ts) = (toListList ts).map (mapIf p f)
  | [] => by simp [modifyList]
  | t :: ts => by
    simp only [modifyList, toListList_cons, List.map_append, toList_modify p f t,
      toListList_modifyList p f ts]
end

theorem top_modify (t : PairingTree α) : (modify p f t).top = mapIf p f t.top := by
  cases t
  rfl

mutual
theorem ordered_modify (hf : ∀ a b, prec (f a) b = prec a b)
    (hf' : ∀ a b, prec a (f b) = prec a b) :
    ∀ {t : PairingTree α}, ordered prec t = true → ordered prec (modify p f t) = true
  | .node x cs, ht => by
    simp only [modify, ordered_node] at ht ⊢
    exact orderedList_modifyList hf hf' ht

theorem orderedList_modifyList (hf : ∀ a b, prec (f a) b = prec a b)
    (hf' : ∀ a b, prec a (f b) = prec a b) :
    ∀ {ts : List (PairingTree α)} {x : α}, orderedList prec x ts = true →
      orderedList prec (mapIf p f x) (modifyList p f ts) = true
  | [], _, _ => by simp [modifyList]
  | t :: ts, x, h => by
    obtain ⟨htx, ht, hts⟩ := (orderedList_cons x t ts).1 h
    simp only [modifyList, orderedList_cons, top_modify, prec_mapIf p hf hf']
    exact ⟨htx, ordered_modify hf hf' ht, orderedList_modifyList hf hf' hts⟩
end

end Modify

end PairingTree

namespace PairingHeap

variable {α : Type} {prec : α → α → Bool}

open PairingTree

def elements : Option (PairingTree α) → List α
  | none => []
  | some t => t.toList

def RootOrdered (prec : α → α → Bool) : Option (PairingTree α) → Prop
  | none => True
  | some t => t.ordered prec = true

@[simp]
theorem elements_none : elements (none : Option (PairingTree α)) = [] := rfl

@[simp]
theorem elements_some (t : PairingTree α) : elements (some t) = t.toList := rfl

@[simp]
theorem rootOrdered_none : RootOrdered prec none := trivial

@[simp]
theorem rootOrdered_some {t : PairingTree α} : RootOrdered prec (some t) ↔ t.ordered prec = true :=
  Iff.rfl

theorem toList_def (h : PairingHeap α) : Meldable.toList h = elements h.root := by
  obtain ⟨_ | t⟩ := h <;> rfl

theorem verify_iff (h : PairingHeap α) :
    Meldable.verify prec h = true ↔ RootOrdered prec h.root := by
  obtain ⟨_ | t⟩ := h <;> simp [Meldable.verify, RootOrdered]

@[simp]
theorem root_meld (a b : PairingHeap α) :
    (Meldable.meld prec a b).root = meldRoots prec a.root b.root := rfl

@[simp]
theorem root_insert (x : α) (h : PairingHeap α) :
    (Meldable.insert prec x h).root = meldRoots prec h.root (some (.node x [])) := rfl

theorem elements_meldRoots (prec : α → α → Bool) (a b : Option (PairingTree α)) :
    (elements (meldRoots prec a b)).Perm (elements a ++ elements b) := by
  cases a <;> cases b <;> simp [meldRoots, toList_link]

theorem rootOrdered_meldRoots (hp : StrictWeakOrder prec) {a b : Option (PairingTree α)}
    (ha : RootOrdered prec a) (hb : RootOrdered prec b) :
    RootOrdered prec (meldRoots prec a b) := by
  cases a <;> cases b <;> simp_all [meldRoots, ordered_link hp]

theorem elements_combine (prec : α → α → Bool) (ts : List (PairingTree α)) :
    (elements (combine prec ts)).Perm (toListList ts) := by
  cases h : combine prec ts with
  | none =>
    rw [combine_eq_none.1 h]
    simp
  | some t => exact toList_of_combine h

theorem rootOrdered_combine (hp : StrictWeakOrder prec) {ts : List (PairingTree α)}
    (hts : ∀ t ∈ ts, ordered prec t = true) : RootOrdered prec (combine prec ts) := by
  cases h : combine prec ts with
  | none => trivial
  | some t => exact ordered_of_combine hp hts h

theorem ordered_children {t : PairingTree α} (ht : ordered prec t = true) :
    ∀ c ∈ t.children, ordered prec c = true := by
  cases t with
  | node x cs => exact fun c hc => (orderedList_iff.1 ht c hc).2

section Extract

variable {p : α → Bool}

theorem extract_eq_none {h : PairingHeap α} :
    extract prec p h = none ↔ ∀ y ∈ elements h.root, p y = false := by
  obtain ⟨_ | t⟩ := h
  . simp [extract]
  . simp only [extract, elements_some]
    rw [PairingTree.toList_eq t]
    split
    . rename_i htop
      exact iff_of_false (by simp) fun h => by simp [h t.top (by simp)] at htop
    . rename_i htop
      rw [Option.map_eq_none_iff, cut_eq_none]
      simp only [List.mem_cons, forall_eq_or_imp, Bool.not_eq_true] at htop ⊢
      exact ⟨fun h => ⟨htop, h⟩, fun h => h.2⟩

theorem toList_of_extract {h h' : PairingHeap α} {x : α} (hx : extract prec p h = some (x, h')) :
    p x = true ∧ (elements h.root).Perm (x :: elements h'.root) := by
  obtain ⟨_ | t⟩ := h
  . simp [extract] at hx
  . simp only [extract] at hx
    split at hx
    . simp only [Option.some.injEq, Prod.mk.injEq] at hx
      obtain ⟨rfl, rfl⟩ := hx
      refine ⟨by assumption, ?_⟩
      rw [elements_some, PairingTree.toList_eq t]
      exact (elements_combine prec t.children).symm.cons _
    . obtain ⟨⟨rest, s⟩, hcut, hx⟩ := Option.map_eq_some_iff.1 hx
      simp only [Prod.mk.injEq] at hx
      obtain ⟨rfl, rfl⟩ := hx
      obtain ⟨hs, hperm, -⟩ := toList_of_cut hcut
      refine ⟨hs, hperm.trans ?_⟩
      have hmeld := elements_meldRoots prec (some rest) (combine prec s.children)
      have hcomb := elements_combine prec s.children
      classical
      rw [List.perm_iff_count] at *
      intro z
      have := hmeld z
      have := hcomb z
      simp only [elements_some, PairingTree.toList_eq s, List.cons_append, List.count_cons,
        List.count_append] at *
      omega

theorem rootOrdered_of_extract (hp : StrictWeakOrder prec) {h h' : PairingHeap α} {x : α}
    (hh : RootOrdered prec h.root) (hx : extract prec p h = some (x, h')) :
    RootOrdered prec h'.root := by
  obtain ⟨_ | t⟩ := h
  . simp [extract] at hx
  . simp only [extract] at hx
    split at hx
    . simp only [Option.some.injEq, Prod.mk.injEq] at hx
      obtain ⟨-, rfl⟩ := hx
      exact rootOrdered_combine hp (ordered_children hh)
    . obtain ⟨⟨rest, s⟩, hcut, hx⟩ := Option.map_eq_some_iff.1 hx
      simp only [Prod.mk.injEq] at hx
      obtain ⟨-, rfl⟩ := hx
      obtain ⟨hrest, hs⟩ := ordered_of_cut hh hcut
      exact rootOrdered_meldRoots hp hrest (rootOrdered_combine hp (ordered_children hs))

end Extract

section Reprioritize

variable {p : α → Bool} {f : α → α}

theorem rootOrdered_reprioritize (hp : StrictWeakOrder prec) (p : α → Bool) (f : α → α)
    {h : PairingHeap α} (hh : RootOrdered prec h.root) :
    RootOrdered prec (reprioritize prec p f h).root := by
  obtain ⟨_ | t⟩ := h
  . trivial
  . simp only [reprioritize]
    split
    . split
      . -- in place at the root: the children hang below a value that is no worse
        rename_i hkeep
        simp only [Bool.not_eq_eq_eq_not, Bool.not_true] at hkeep
        cases t with
        | node y cs => exact orderedList_trans hp hh hkeep
      . exact rootOrdered_meldRoots hp (rootOrdered_combine hp (ordered_children hh)) rfl
    . split
      . exact hh
      . rename_i rest s hcut
        obtain ⟨hrest, hs⟩ := ordered_of_cut hh hcut
        split
        . -- kept with its subtree and linked back at the top
          rename_i hkeep
          simp only [Bool.not_eq_eq_eq_not, Bool.not_true] at hkeep
          cases s with
          | node y cs => exact ordered_link hp hrest (orderedList_trans hp hs hkeep)
        . exact rootOrdered_meldRoots hp
            (rootOrdered_meldRoots hp hrest (rootOrdered_combine hp (ordered_children hs))) rfl

theorem elements_meldRoots_single (prec : α → α → Bool) (a : Option (PairingTree α)) (x : α) :
    (elements (meldRoots prec a (some (.node x [])))).Perm (x :: elements a) := by
  have h := elements_meldRoots prec a (some (.node x []))
  rw [elements_some, toList_node, toListList_nil] at h
  exact h.trans (List.perm_append_singleton _ _)

theorem elements_reprioritize (prec : α → α → Bool) (p : α → Bool) (f : α → α)
    {h : PairingHeap α} (hone : (elements h.root).countP p ≤ 1) :
    (elements (reprioritize prec p f h).root).Perm ((elements h.root).map (mapIf p f)) := by
  classical
  obtain ⟨_ | t⟩ := h
  . simp [reprioritize]
  . simp only [elements_some] at hone ⊢
    have hroot := PairingTree.toList_eq t
    simp only [reprioritize]
    split
    . -- the root is changed: kept in place, or cut off and melded back in
      rename_i htop
      have hmap := map_mapIf_perm f (List.Perm.of_eq hroot) htop hone
      split
      . simpa using hmap.symm
      . refine List.Perm.trans ?_ hmap.symm
        exact (elements_meldRoots_single prec _ _).trans ((elements_combine prec t.children).cons _)
    . split
      . rename_i htop _ hcut
        have hnone : ∀ y ∈ t.toList, p y = false := by
          intro y hy
          rw [hroot, List.mem_cons] at hy
          rcases hy with rfl | hy
          . simpa using htop
          . exact cut_eq_none.1 hcut y hy
        rw [map_mapIf_of_none f hnone]
        exact .refl _
      . -- a subtree is cut out, changed at its root, and linked or melded back
        rename_i rest s hcut
        obtain ⟨hs, hperm, -⟩ := toList_of_cut hcut
        have hperm' : t.toList.Perm (s.top :: (toListList s.children ++ rest.toList)) := by
          simpa [PairingTree.toList_eq s] using hperm
        have hmap := map_mapIf_perm f hperm' hs hone
        refine List.Perm.trans ?_ hmap.symm
        split
        . have hlink := toList_link prec rest (.node (f s.top) s.children)
          rw [toList_node] at hlink
          exact hlink.trans List.perm_append_comm
        . refine (elements_meldRoots_single prec _ _).trans (List.Perm.cons _ ?_)
          exact (elements_meldRoots prec _ _).trans
            (((elements_combine prec s.children).append_left rest.toList).trans
              List.perm_append_comm)

end Reprioritize

theorem not_prec_of_popTop (hp : StrictWeakOrder prec) {t : PairingTree α}
    (ht : ordered prec t = true) :
    ∀ y ∈ elements (combine prec t.children), prec y t.top = false := by
  intro y hy
  cases t with
  | node x cs =>
    exact not_prec_of_memList hp ht (hp.irrefl x) ((elements_combine prec cs).subset hy)

instance : LawfulMeldable PairingHeap where
  toList_empty := rfl
  size_eq_length h := by
    obtain ⟨_ | t⟩ := h
    . rfl
    . exact size_eq_length t
  top?_eq_popTop _ h := by
    obtain ⟨_ | t⟩ := h <;> rfl
  toList_meld prec a b := by
    simpa only [toList_def, root_meld] using elements_meldRoots prec a.root b.root
  toList_insert prec x h := by
    simp only [toList_def, root_insert]
    exact (elements_meldRoots prec h.root (some (.node x []))).trans
      (by simp)
  popTop_eq_none _ h := by
    obtain ⟨_ | t⟩ := h
    . simp [Meldable.popTop, popTop, toList_def]
    . simp [Meldable.popTop, popTop, toList_def, PairingTree.toList_eq t]
  toList_of_popTop {_ prec h h' x} hx := by
    obtain ⟨_ | t⟩ := h
    . cases hx
    . simp only [Meldable.popTop, popTop, Option.map_some, Option.some.injEq,
        Prod.mk.injEq] at hx
      obtain ⟨rfl, rfl⟩ := hx
      rw [toList_def, toList_def, elements_some, PairingTree.toList_eq]
      exact (elements_combine prec t.children).symm.cons _
  extract_eq_none prec p h := by
    rw [toList_def]
    exact extract_eq_none
  toList_of_extract hx := by
    rw [toList_def, toList_def]
    exact toList_of_extract hx
  toList_reprioritize prec p f h hone := by
    rw [toList_def] at hone ⊢
    rw [toList_def]
    exact elements_reprioritize prec p f hone
  toList_modify p f h := by
    obtain ⟨_ | t⟩ := h
    . rfl
    . exact PairingTree.toList_modify p f t
  find?_eq p h := by
    obtain ⟨_ | t⟩ := h <;> rfl
  verify_empty _ := rfl
  verify_meld := fun hp ha hb => by
    rw [verify_iff] at *
    exact rootOrdered_meldRoots hp ha hb
  verify_insert x := fun hp ht => by
    rw [verify_iff] at *
    exact rootOrdered_meldRoots hp ht rfl
  verify_of_popTop {_ prec h h' x} hp ht hx := by
    rw [verify_iff] at *
    obtain ⟨_ | t⟩ := h
    . cases hx
    . simp only [Meldable.popTop, popTop, Option.map_some, Option.some.injEq,
        Prod.mk.injEq] at hx
      obtain ⟨rfl, rfl⟩ := hx
      exact rootOrdered_combine hp (ordered_children ht)
  verify_of_extract hp ht hx := by
    rw [verify_iff] at *
    exact rootOrdered_of_extract hp ht hx
  verify_reprioritize p f := fun hp ht => by
    rw [verify_iff] at *
    exact rootOrdered_reprioritize hp p f ht
  verify_modify p f := @fun h hf hf' ht => by
    rw [verify_iff] at *
    obtain ⟨_ | t⟩ := h
    . trivial
    . exact ordered_modify hf hf' ht
  not_prec_of_popTop {_ prec h h' x} hp ht hx := by
    rw [verify_iff] at ht
    obtain ⟨_ | t⟩ := h
    . cases hx
    . simp only [Meldable.popTop, popTop, Option.map_some, Option.some.injEq,
        Prod.mk.injEq] at hx
      obtain ⟨rfl, rfl⟩ := hx
      rw [toList_def]
      exact not_prec_of_popTop hp ht

/-- Every pairing heap that the engine operations build, and the tree of every untracked or
tracked pairing heap that a sequence of operations builds, passes `verify`: no child precedes
its parent anywhere in the tree. -/
theorem reachable_heap_ordered {V P : Type} {lt : α → α → Bool} {prec : P → P → Bool}
    (hlt : StrictWeakOrder lt) (hp : StrictWeakOrder prec) :
    (∀ h : PairingHeap α, Meldable.Reachable lt h → ∀ t ∈ h.root, t.ordered lt = true) ∧
      (∀ h : TreeHeap PairingHeap V P prec, h.Reachable → h.verify = true) ∧
      (∀ h : TrackedHeap PairingHeap V P prec, h.Reachable → h.verify = true) := by
  refine ⟨fun h hh t ht => ?_, fun _ hh => hh.tree.verify hp.entry,
    fun _ hh => hh.tree.verify hp.tagged⟩
  have := (verify_iff h).1 (hh.verify hlt)
  rw [Option.mem_def] at ht
  rw [ht] at this
  exact this

end PairingHeap

end PriorityQueues
