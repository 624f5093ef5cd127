import Mathlib
import PriorityQueues.Tree.SkewArena
import PriorityQueues.Proofs.Skew
import PriorityQueues.Proofs.ArenaSlots
import PriorityQueues.Proofs.PairingArena

/-!
Skew heaps laid out in an arena. `Stores` says that an arena holds the records of a tree whose
elements carry their node numbers, each node pointing to its children and back to its parent. The
meld loop stores the tree of the recursive `SkewHeap.meld`, whatever stale parent link the tree it
melds in still has.
-/

namespace PriorityQueues

namespace SkewHeap

/-- One step down a tree, kept to climb back: the node passed and its subtree on the other side. -/
inductive Frame (α : Type) where
  /-- The step went to the left child; `r` is the right subtree. -/
  | left (x : α) (r : SkewHeap α)
  /-- The step went to the right child; `l` is the left subtree. -/
  | right (l : SkewHeap α) (x : α)

namespace Frame

variable {α : Type}

/-- The element of the node passed. -/
def top : Frame α → α
  | .left x _ => x
  | .right _ x => x

/-- The subtree the step did not enter. -/
def other : Frame α → SkewHeap α
  | .left _ r => r
  | .right l _ => l

/-- Puts a subtree back where the step left. -/
def plug : Frame α → SkewHeap α → SkewHeap α
  | .left x r, s => .node s x r
  | .right l x, s => .node l x s

end Frame

variable {α : Type}

/-- Puts a subtree back under a path of steps, the innermost first. -/
def plug (ctx : List (Frame α)) (s : SkewHeap α) : SkewHeap α := ctx.foldl (fun t f => f.plug t) s

@[simp]
theorem plug_nil (s : SkewHeap α) : plug [] s = s := rfl

@[simp]
theorem plug_cons (f : Frame α) (ctx : List (Frame α)) (s : SkewHeap α) :
    plug (f :: ctx) s = plug ctx (f.plug s) := rfl

theorem plug_append_singleton (ctx : List (Frame α)) (f : Frame α) (s : SkewHeap α) :
    plug (ctx ++ [f]) s = f.plug (plug ctx s) := by
  simp [plug, List.foldl_append]

/-- The elements of a path: each node passed and its other subtree. -/
def pathItems (ctx : List (Frame α)) : List α :=
  ctx.flatMap fun f => f.top :: f.other.toList

@[simp]
theorem pathItems_nil : pathItems ([] : List (Frame α)) = [] := rfl

@[simp]
theorem pathItems_cons (f : Frame α) (ctx : List (Frame α)) :
    pathItems (f :: ctx) = f.top :: (f.other.toList ++ pathItems ctx) := rfl

theorem toList_plug (ctx : List (Frame α)) (s : SkewHeap α) :
    (plug ctx s).toList.Perm (pathItems ctx ++ s.toList) := by
  induction ctx generalizing s with
  | nil => simp
  | cons f ctx ih =>
    have hf : (f.plug s).toList.Perm ((f.top :: f.other.toList) ++ s.toList) := by
      cases f with
      | left x r => exact (List.perm_append_comm.cons x).trans (by simp [Frame.top, Frame.other])
      | right l x => simp [Frame.plug, Frame.top, Frame.other]
    calc List.Perm (plug (f :: ctx) s).toList (pathItems ctx ++ (f.plug s).toList) := ih _
      List.Perm _ (pathItems ctx ++ ((f.top :: f.other.toList) ++ s.toList)) := hf.append_left _
      List.Perm _ (pathItems (f :: ctx) ++ s.toList) := by
        rw [pathItems_cons, ← List.cons_append, ← List.append_assoc]
        exact List.perm_append_comm.append_right _

/-- A node in a tree sits at the end of a path. -/
theorem exists_plug_of_mem : ∀ {t : SkewHeap α} {y : α}, y ∈ t.toList →
    ∃ ctx sl sr, t = plug ctx (.node sl y sr)
  | .leaf, _, h => by simp at h
  | .node l x r, y, h => by
    rw [toList_node, List.mem_cons, List.mem_append] at h
    rcases h with rfl | h | h
    · exact ⟨[], l, r, rfl⟩
    · obtain ⟨ctx, sl, sr, rfl⟩ := exists_plug_of_mem h
      exact ⟨ctx ++ [.left x r], sl, sr, by rw [plug_append_singleton]; rfl⟩
    · obtain ⟨ctx, sl, sr, rfl⟩ := exists_plug_of_mem h
      exact ⟨ctx ++ [.right l x], sl, sr, by rw [plug_append_singleton]; rfl⟩

/-- A search along a path that none of its elements passes goes on into the subtree at its
end. -/
theorem cut_plug (prec : α → α → Bool) {p : α → Bool} (ctx : List (Frame α)) (u : SkewHeap α)
    (hctx : ∀ y ∈ pathItems ctx, p y = false) :
    cut prec p (plug ctx u) = (cut prec p u).map fun s => (s.1, plug ctx s.2) := by
  induction ctx generalizing u with
  | nil => cases h : cut prec p u <;> simp [h]
  | cons f ctx ih =>
    rw [plug_cons, ih (f.plug u) fun y hy => hctx y (by simp [hy])]
    have hf : cut prec p (f.plug u) = (cut prec p u).map fun s => (s.1, f.plug s.2) := by
      have htop : p f.top = false := hctx _ (by simp)
      have hother : cut prec p f.other = none :=
        cut_eq_none.2 fun y hy => hctx y (by simp [hy])
      cases f with
      | left x r =>
        simp only [Frame.top, Frame.other] at htop hother
        rw [Frame.plug, cut_node, if_neg (by simp [htop])]
        cases cut prec p u <;> simp [hother, Frame.plug]
      | right l x =>
        simp only [Frame.top, Frame.other] at htop hother
        rw [Frame.plug, cut_node, if_neg (by simp [htop])]
        simp [hother, Frame.plug]
    rw [hf, Option.map_map]
    rfl

end SkewHeap

namespace SkewArena

open PairingArena (byItem)

variable {α : Type}

/-- The number of the root node, if any. -/
def rootRef : SkewHeap (NodeRef × α) → Link
  | .leaf => none
  | .node _ x _ => some x.1

/-- The records the nodes of a tree must have, its root pointing back to `parent`. -/
def layout (parent : Link) : SkewHeap (NodeRef × α) → List (NodeRef × SkewNode α)
  | .leaf => []
  | .node l x r =>
    (x.1, ⟨x.2, rootRef l, rootRef r, parent⟩) :: (layout (some x.1) l ++ layout (some x.1) r)

def Stores (st : Arena (SkewNode α)) (parent : Link) (t : SkewHeap (NodeRef × α)) : Prop :=
  ∀ e ∈ layout parent t, st.get e.1 = some e.2

def nodes (t : SkewHeap (NodeRef × α)) : List NodeRef := t.toList.map Prod.fst

section Layout

variable {st st' : Arena (SkewNode α)} {p p' : Link}

@[simp]
theorem rootRef_leaf : rootRef (.leaf : SkewHeap (NodeRef × α)) = none := rfl

@[simp]
theorem rootRef_node (l : SkewHeap (NodeRef × α)) (x : NodeRef × α) (r : SkewHeap (NodeRef × α)) :
    rootRef (.node l x r) = some x.1 := rfl

@[simp]
theorem nodes_leaf : nodes (.leaf : SkewHeap (NodeRef × α)) = [] := rfl

theorem nodes_node (l : SkewHeap (NodeRef × α)) (x : NodeRef × α) (r : SkewHeap (NodeRef × α)) :
    nodes (.node l x r) = x.1 :: (nodes l ++ nodes r) := by
  simp [nodes]

theorem length_nodes (t : SkewHeap (NodeRef × α)) : (nodes t).length = t.size := by
  simp [nodes, SkewHeap.size_eq_length]

theorem mem_nodes_of_rootRef {t : SkewHeap (NodeRef × α)} {q : NodeRef} (h : rootRef t = some q) :
    q ∈ nodes t := by
  cases t with
  | leaf => cases h
  | node l x r =>
    simp only [rootRef_node, Option.some.injEq] at h
    simp [nodes_node, h]

@[simp]
theorem stores_leaf : Stores st p (.leaf : SkewHeap (NodeRef × α)) := by
  simp [Stores, layout]

theorem stores_node {l : SkewHeap (NodeRef × α)} {x : NodeRef × α} {r : SkewHeap (NodeRef × α)} :
    Stores st p (.node l x r) ↔
      st.get x.1 = some ⟨x.2, rootRef l, rootRef r, p⟩ ∧ Stores st (some x.1) l ∧
        Stores st (some x.1) r := by
  simp only [Stores, layout, List.forall_mem_cons, List.forall_mem_append]

theorem map_fst_layout (p : Link) : ∀ t : SkewHeap (NodeRef × α),
    (layout p t).map Prod.fst = nodes t
  | .leaf => rfl
  | .node l x r => by
    simp only [layout, List.map_cons, List.map_append, map_fst_layout, nodes_node]

theorem Stores.isSome_get {t : SkewHeap (NodeRef × α)} (hs : Stores st p t) {q : NodeRef}
    (hq : q ∈ nodes t) : (st.get q).isSome := by
  rw [← map_fst_layout p t] at hq
  obtain ⟨e, he, rfl⟩ := List.mem_map.1 hq
  simp [hs e he]

theorem Stores.frame {t : SkewHeap (NodeRef × α)} (hs : Stores st p t)
    (h : ∀ q ∈ nodes t, st'.get q = st.get q) : Stores st' p t := by
  intro e he
  rw [h e.1 (map_fst_layout p t ▸ List.mem_map_of_mem he)]
  exact hs e he

theorem Stores.get_item {t : SkewHeap (NodeRef × α)} (hs : Stores st p t) {e : NodeRef × α}
    (he : e ∈ t.toList) : ∃ n, st.get e.1 = some n ∧ n.item = e.2 := by
  induction t generalizing p with
  | leaf => simp at he
  | node l x r ihl ihr =>
    obtain ⟨hx, hl, hr⟩ := stores_node.1 hs
    rw [SkewHeap.toList_node, List.mem_cons, List.mem_append] at he
    rcases he with rfl | he | he
    · exact ⟨_, hx, rfl⟩
    · exact ihl hl he
    · exact ihr hr he

/-- A stored tree whose root now points to another parent. -/
theorem Stores.reparent {l : SkewHeap (NodeRef × α)} {x : NodeRef × α} {r : SkewHeap (NodeRef × α)}
    (hs : Stores st p (.node l x r))
    (hroot : st'.get x.1 = (st.get x.1).map fun n => { n with parent := p' })
    (hrest : ∀ q ∈ nodes l ++ nodes r, st'.get q = st.get q) : Stores st' p' (.node l x r) := by
  obtain ⟨hx, hl, hr⟩ := stores_node.1 hs
  refine stores_node.2 ⟨by rw [hroot, hx]; rfl,
    hl.frame fun q hq => hrest q (List.mem_append_left _ hq),
    hr.frame fun q hq => hrest q (List.mem_append_right _ hq)⟩

theorem nodes_meld (p : NodeRef × α → NodeRef × α → Bool) (a b : SkewHeap (NodeRef × α)) :
    (nodes (SkewHeap.meld p a b)).Perm (nodes a ++ nodes b) := by
  simpa [nodes] using (SkewHeap.toList_meld p a b).map Prod.fst

theorem nodup_node_iff {l : SkewHeap (NodeRef × α)} {x : NodeRef × α} {r : SkewHeap (NodeRef × α)}
    {rest : List NodeRef} :
    (nodes (.node l x r) ++ rest).Nodup ↔
      x.1 ∉ nodes l ∧ x.1 ∉ nodes r ∧ x.1 ∉ rest ∧ (nodes l ++ (nodes r ++ rest)).Nodup := by
  simp only [nodes_node, List.cons_append, List.nodup_cons, List.mem_append, List.append_assoc]
  tauto

end Layout

section Writes

variable {st : Arena (SkewNode α)}

theorem get_attachLeft (parent child q : NodeRef) :
    (attachLeft st parent child).get q =
      if child = q then
        ((if parent = q then (st.get q).map fun n => { n with left := some child } else st.get q).map
          fun n => { n with parent := some parent })
      else if parent = q then (st.get q).map fun n => { n with left := some child } else st.get q := by
  simp only [attachLeft, Arena.get_modify]

theorem get_orphan (l : Link) (q : NodeRef) :
    (orphan st l).get q =
      if l = some q then (st.get q).map fun n => { n with parent := none } else st.get q := by
  cases l with
  | none => simp [orphan]
  | some r => simp [orphan, Arena.get_modify]

theorem edits_attachLeft (st : Arena (SkewNode α)) (parent child : NodeRef) :
    st.Edits (attachLeft st parent child) :=
  (Arena.edits_modify _ _ _).trans (Arena.edits_modify _ _ _)

theorem edits_orphan (st : Arena (SkewNode α)) (l : Link) : st.Edits (orphan st l) := by
  cases l with
  | none => exact .refl _
  | some r => exact Arena.edits_modify _ _ _

theorem precedes_eq {a b : NodeRef} {x y : SkewNode α} (ha : st.get a = some x)
    (hb : st.get b = some y) (prec : α → α → Bool) : precedes prec st a b = prec x.item y.item := by
  simp [precedes, ha, hb]

/-- One pass of the loop at `c`: its old left child moves right and `w` becomes its left child,
pointing back to it; nothing else changes. -/
theorem get_loopStep {c w : NodeRef} {n : SkewNode α} (hc : st.get c = some n) (hcw : c ≠ w) :
    (attachLeft (st.modify c fun m => { m with right := n.left }) c w).get c =
        some { n with right := n.left, left := some w } ∧
      (attachLeft (st.modify c fun m => { m with right := n.left }) c w).get w =
        (st.get w).map (fun m => { m with parent := some c }) ∧
      ∀ q, q ≠ c → q ≠ w →
        (attachLeft (st.modify c fun m => { m with right := n.left }) c w).get q = st.get q := by
  refine ⟨?_, ?_, fun q hqc hqw => ?_⟩
  · simp [get_attachLeft, Arena.get_modify, Ne.symm hcw, hc]
  · simp [get_attachLeft, Arena.get_modify, hcw]
  · simp [get_attachLeft, Arena.get_modify, Ne.symm hqc, Ne.symm hqw]

end Writes

section Meld

variable (prec : α → α → Bool) {st : Arena (SkewNode α)}

theorem meldLoop_of_right_none {fuel : Nat} {c o : NodeRef} {n : SkewNode α}
    (hc : st.get c = some n) (hr : n.right = none) :
    meldLoop prec (fuel + 1) st c o =
      some (attachLeft (st.modify c fun m => { m with right := n.left }) c o) := by
  simp [meldLoop, hc, hr]

theorem meldLoop_of_right_some {fuel : Nat} {c o y : NodeRef} {n : SkewNode α}
    (hc : st.get c = some n) (hr : n.right = some y) :
    meldLoop prec (fuel + 1) st c o =
      if precedes prec (st.modify c fun m => { m with right := n.left }) o y then
        meldLoop prec fuel (attachLeft (st.modify c fun m => { m with right := n.left }) c o) o y
      else
        meldLoop prec fuel (attachLeft (st.modify c fun m => { m with right := n.left }) c y) y o := by
  simp [meldLoop, hc, hr]

/-- The meld loop from the root `x` of one tree against the root of another, `b`, whose parent
link may be stale: the arena ends up storing `x` over the meld of its right subtree with `b`, its
old left subtree moved right, under its old parent. Nothing outside the two trees changes. -/
theorem Stores.meldLoop : ∀ (fuel : Nat) {st : Arena (SkewNode α)} {P Q : Link}
    {al : SkewHeap (NodeRef × α)} {x : NodeRef × α} {ar b : SkewHeap (NodeRef × α)} {o : NodeRef},
    Stores st P (.node al x ar) → Stores st Q b → rootRef b = some o →
    (nodes (.node al x ar) ++ nodes b).Nodup → ar.size + b.size < fuel →
    ∃ st', meldLoop prec fuel st x.1 o = some st' ∧
      Stores st' P (.node (SkewHeap.meld (byItem prec) ar b) x al) ∧
      (∀ q, q ∉ nodes (.node al x ar) ++ nodes b → st'.get q = st.get q) ∧ st.Edits st'
  | 0, _, _, _, _, _, _, _, _, _, _, _, _, hfuel => absurd hfuel (Nat.not_lt_zero _)
  | fuel + 1, st, P, Q, al, x, ar, b, o, ha, hb, ho, hnd, hfuel => by
    obtain ⟨hx, hal, har⟩ := stores_node.1 ha
    cases b with
    | leaf => cases ho
    | node bl z br =>
    simp only [rootRef_node, Option.some.injEq] at ho
    subst ho
    obtain ⟨hxal, hxar, hxb, hnd'⟩ := nodup_node_iff.1 hnd
    have hxz : x.1 ≠ z.1 := fun h => hxb (by simp [nodes_node, h])
    have hout : ∀ q ∈ nodes al, q ∉ nodes ar ++ nodes (.node bl z br) := fun q hq hq' =>
      (List.nodup_append.1 hnd').2.2 q hq q hq' rfl
    cases ar with
    | leaf =>
      -- the right spine ends: `b` goes left
      obtain ⟨hgx, hgz, hgo⟩ := get_loopStep hx hxz
      refine ⟨_, meldLoop_of_right_none prec hx rfl, ?_, fun q hq => ?_,
        (Arena.edits_modify _ _ _).trans (edits_attachLeft _ _ _)⟩
      · have hzb : ∀ q ∈ nodes bl ++ nodes br, q ≠ z.1 := by
          have := (nodup_node_iff.1 (by simpa using hnd'.sublist (List.sublist_append_right _ _) :
            (nodes (.node bl z br) ++ []).Nodup))
          exact fun q hq he => by subst he; simp at hq; tauto
        simp only [SkewHeap.meld]
        refine stores_node.2 ⟨by rw [hgx]; rfl, ?_, hal.frame fun q hq => hgo q ?_ ?_⟩
        · refine hb.reparent hgz fun q hq => hgo q (fun he => hxb ?_) (hzb q hq)
          rw [← he]
          simp only [nodes_node, List.mem_cons, List.mem_append]
          simp only [List.mem_append] at hq
          tauto
        · exact fun he => hxal (he ▸ hq)
        · exact fun he => hout q hq (by simp [nodes_node, he])
      · simp only [List.mem_append, nodes_node, List.mem_cons, not_or] at hq
        exact hgo q hq.1.1 hq.2.1
    | node arl y arr =>
      obtain ⟨hy, -, -⟩ := stores_node.1 har
      obtain ⟨hz, -, -⟩ := stores_node.1 hb
      simp only [nodes_node, List.cons_append, List.append_assoc, List.nodup_cons,
        List.nodup_append, List.mem_append, List.mem_cons, not_or] at hnd
      have hxy : x.1 ≠ y.1 := by grind
      have hnd₂ : ∀ (u v : SkewHeap (NodeRef × α)), u = .node bl z br ∧ v = .node arl y arr ∨
          u = .node arl y arr ∧ v = .node bl z br → (nodes u ++ nodes v).Nodup := by
        rintro u v (⟨rfl, rfl⟩ | ⟨rfl, rfl⟩) <;>
          simp only [nodes_node, List.cons_append, List.append_assoc, List.nodup_cons,
            List.nodup_append, List.mem_append, List.mem_cons, not_or] <;> grind
      -- the loop compares the two roots by their stored elements
      have hprec : precedes prec (st.modify x.1 fun m => { m with right := rootRef al }) z.1 y.1 =
          byItem prec z y := by
        rw [precedes_eq (by rw [Arena.get_modify, if_neg hxz]; exact hz)
          (by rw [Arena.get_modify, if_neg hxy]; exact hy) prec]
        rfl
      rw [meldLoop_of_right_some prec hx rfl]
      by_cases hw : byItem prec z y = true
      · -- `b` wins: it goes left, and the loop goes on from its root against the old right child
        rw [show _ = byItem prec z y from hprec, if_pos hw]
        obtain ⟨hgx, hgz, hgo⟩ := get_loopStep hx hxz
        have he₂ := (Arena.edits_modify st x.1 fun m : SkewNode α => { m with right := rootRef al }).trans
          (edits_attachLeft _ x.1 z.1)
        generalize attachLeft (st.modify x.1 fun m => { m with right := rootRef al }) x.1 z.1 = st₂
          at hgx hgz hgo he₂ ⊢
        have h₁ : Stores st₂ (some x.1) (.node bl z br) :=
          hb.reparent hgz fun q hq => hgo q (by grind) (by grind)
        have h₂ : Stores st₂ (some x.1) (.node arl y arr) :=
          har.frame fun q hq => hgo q (by simp only [nodes_node, List.mem_cons, List.mem_append] at hq; grind)
            (by simp only [nodes_node, List.mem_cons, List.mem_append] at hq; grind)
        obtain ⟨st', hrun, hst', hframe, he'⟩ := Stores.meldLoop fuel h₁ h₂ rfl
          (hnd₂ _ _ (.inl ⟨rfl, rfl⟩)) (by simp only [SkewHeap.size] at hfuel ⊢; omega)
        refine ⟨st', hrun, ?_, fun q hq => ?_, he₂.trans he'⟩
        · rw [SkewHeap.meld, if_pos hw]
          refine stores_node.2 ⟨?_, hst', hal.frame fun q hq => ?_⟩
          · rw [hframe x.1 (by simp only [nodes_node, List.mem_cons, List.mem_append]; grind), hgx]
            rfl
          · rw [hframe q (by simp only [nodes_node, List.mem_cons, List.mem_append]; grind),
              hgo q (by grind) (by grind)]
        · simp only [nodes_node, List.mem_cons, List.mem_append, not_or] at hq
          rw [hframe q (by simp only [nodes_node, List.mem_cons, List.mem_append]; grind),
            hgo q (by grind) (by grind)]
      · -- the old right child wins: it stays left, and the loop goes on from it against `b`
        rw [show _ = byItem prec z y from hprec, if_neg hw]
        obtain ⟨hgx, hgy, hgo⟩ := get_loopStep hx hxy
        have he₂ := (Arena.edits_modify st x.1 fun m : SkewNode α => { m with right := rootRef al }).trans
          (edits_attachLeft _ x.1 y.1)
        generalize attachLeft (st.modify x.1 fun m => { m with right := rootRef al }) x.1 y.1 = st₂
          at hgx hgy hgo he₂ ⊢
        have h₁ : Stores st₂ (some x.1) (.node arl y arr) :=
          har.reparent hgy fun q hq => hgo q (by grind) (by grind)
        have h₂ : Stores st₂ Q (.node bl z br) :=
          hb.frame fun q hq => hgo q (by simp only [nodes_node, List.mem_cons, List.mem_append] at hq; grind)
            (by simp only [nodes_node, List.mem_cons, List.mem_append] at hq; grind)
        obtain ⟨st', hrun, hst', hframe, he'⟩ := Stores.meldLoop fuel h₁ h₂ rfl
          (hnd₂ _ _ (.inr ⟨rfl, rfl⟩)) (by simp only [SkewHeap.size] at hfuel ⊢; omega)
        refine ⟨st', hrun, ?_, fun q hq => ?_, he₂.trans he'⟩
        · rw [SkewHeap.meld, if_neg hw]
          refine stores_node.2 ⟨?_, hst', hal.frame fun q hq => ?_⟩
          · rw [hframe x.1 (by simp only [nodes_node, List.mem_cons, List.mem_append]; grind), hgx]
            rfl
          · rw [hframe q (by simp only [nodes_node, List.mem_cons, List.mem_append]; grind),
              hgo q (by grind) (by grind)]
        · simp only [nodes_node, List.mem_cons, List.mem_append, not_or] at hq
          rw [hframe q (by simp only [nodes_node, List.mem_cons, List.mem_append]; grind),
            hgo q (by grind) (by grind)]

theorem meld_some_some (a b : NodeRef) :
    meld prec st (some a) (some b) =
      (if precedes prec st b a then (meldLoop prec st.slotCount st b a).map fun st' => (st', some b)
        else (meldLoop prec st.slotCount st a b).map fun st' => (st', some a)).map
        fun m => (orphan m.1 m.2, m.2) := rfl

/-- A root left without its parent link: the tree is stored as a tree of its own. -/
theorem Stores.orphan {t : SkewHeap (NodeRef × α)} {P : Link} (hs : Stores st P t)
    (hnd : (nodes t).Nodup) : Stores (orphan st (rootRef t)) none t := by
  cases t with
  | leaf => exact stores_leaf
  | node l x r =>
    rw [nodes_node, List.nodup_cons, List.mem_append, not_or] at hnd
    refine hs.reparent (by rw [get_orphan, if_pos (rootRef_node l x r)]) fun q hq => ?_
    rw [get_orphan, if_neg fun he => ?_]
    simp only [rootRef_node, Option.some.injEq] at he
    exact (List.mem_append.1 hq).elim (fun h => hnd.1.1 (he ▸ h)) (fun h => hnd.1.2 (he ▸ h))

/-- `meld` stores the tree of `SkewHeap.meld`, its root without a parent, whatever parent links
the two roots had; nothing outside the two trees changes. -/
theorem Stores.meld {a b : SkewHeap (NodeRef × α)} {P Q : Link} (ha : Stores st P a)
    (hb : Stores st Q b) (hnd : (nodes a ++ nodes b).Nodup)
    (hfuel : a.size + b.size ≤ st.slotCount) :
    ∃ st', meld prec st (rootRef a) (rootRef b) =
        some (st', rootRef (SkewHeap.meld (byItem prec) a b)) ∧
      Stores st' none (SkewHeap.meld (byItem prec) a b) ∧
      (∀ q, q ∉ nodes a ++ nodes b → st'.get q = st.get q) ∧ st.Edits st' := by
  have horphan : ∀ (st' : Arena (SkewNode α)) (l : Link) q, q ∉ l.toList →
      (SkewArena.orphan st' l).get q = st'.get q := fun st' l q hq => by
    rw [get_orphan, if_neg fun he => hq (by simp [he])]
  cases a with
  | leaf =>
    refine ⟨SkewArena.orphan st (rootRef b), by simp only [SkewHeap.meld]; rfl, ?_,
      fun q hq => horphan st _ q ?_, edits_orphan st _⟩
    · simpa [SkewHeap.meld] using hb.orphan (by simpa using hnd)
    · cases b <;> simp_all [nodes_node]
  | node al x ar =>
    cases b with
    | leaf =>
      refine ⟨SkewArena.orphan st (some x.1), by simp only [SkewHeap.meld]; rfl, ?_,
        fun q hq => horphan st _ q ?_, edits_orphan st _⟩
      · simpa [SkewHeap.meld] using ha.orphan (by simpa using hnd)
      · simp_all [nodes_node]
    | node bl z br =>
      obtain ⟨hx, -, -⟩ := stores_node.1 ha
      obtain ⟨hz, -, -⟩ := stores_node.1 hb
      have hsize : (SkewHeap.node al x ar).size + (SkewHeap.node bl z br).size ≤ st.slotCount :=
        hfuel
      simp only [SkewHeap.size] at hsize
      simp only [rootRef_node]
      rw [meld_some_some, precedes_eq hz hx prec]
      by_cases hw : byItem prec z x = true
      · -- `b` wins and the loop runs from its root
        rw [show prec _ _ = byItem prec z x from rfl, if_pos hw]
        obtain ⟨st', hrun, hst', hframe, he⟩ := Stores.meldLoop prec st.slotCount hb ha rfl
          (List.nodup_append_comm.1 hnd) (by simp only [SkewHeap.size]; omega)
        have heq : SkewHeap.meld (byItem prec) (.node al x ar) (.node bl z br) =
            .node (SkewHeap.meld (byItem prec) br (.node al x ar)) z bl := by
          rw [SkewHeap.meld, if_pos hw]
        rw [hrun, heq]
        refine ⟨_, rfl, hst'.orphan ?_, fun q hq => ?_, he.trans (edits_orphan _ _)⟩
        · rw [← heq]
          exact (nodes_meld _ _ _).nodup_iff.2 hnd
        · rw [horphan _ _ q fun h => hq (by simp at h; simp [h, nodes_node]),
            hframe q fun h => hq (List.perm_append_comm.mem_iff.1 h)]
      · rw [show prec _ _ = byItem prec z x from rfl, if_neg hw]
        obtain ⟨st', hrun, hst', hframe, he⟩ := Stores.meldLoop prec st.slotCount ha hb rfl hnd
          (by simp only [SkewHeap.size]; omega)
        have heq : SkewHeap.meld (byItem prec) (.node al x ar) (.node bl z br) =
            .node (SkewHeap.meld (byItem prec) ar (.node bl z br)) x al := by
          rw [SkewHeap.meld, if_neg hw]
        rw [hrun, heq]
        refine ⟨_, rfl, hst'.orphan ?_, fun q hq => ?_, he.trans (edits_orphan _ _)⟩
        · rw [← heq]
          exact (nodes_meld _ _ _).nodup_iff.2 hnd
        · rw [horphan _ _ q fun h => hq (by simp at h; simp [h, nodes_node]), hframe q hq]

end Meld

section Path

/-! The records along a path down a stored tree. -/

/-- The record of the node a step passed, its child on the path having root `hole`. -/
def frameRecord : SkewHeap.Frame (NodeRef × α) → Link → Link → NodeRef × SkewNode α
  | .left x r, hole, parent => (x.1, ⟨x.2, hole, rootRef r, parent⟩)
  | .right l x, hole, parent => (x.1, ⟨x.2, rootRef l, hole, parent⟩)

/-- The parent of the subtree at the end of a path, the whole tree hanging from `P`. -/
def holeParent (P : Link) : List (SkewHeap.Frame (NodeRef × α)) → Link
  | [] => P
  | f :: _ => some f.top.1

/-- The records of the nodes along a path and beside it, the subtree at its end having root
`hole`. -/
def pathLayout (P : Link) :
    List (SkewHeap.Frame (NodeRef × α)) → Link → List (NodeRef × SkewNode α)
  | [], _ => []
  | f :: ctx, hole =>
    frameRecord f hole (holeParent P ctx) ::
      (layout (some f.top.1) f.other ++ pathLayout P ctx (some f.top.1))

variable {st st' : Arena (SkewNode α)} {P : Link}

theorem rootRef_framePlug (f : SkewHeap.Frame (NodeRef × α)) (s : SkewHeap (NodeRef × α)) :
    rootRef (f.plug s) = some f.top.1 := by
  cases f <;> rfl

theorem stores_framePlug {f : SkewHeap.Frame (NodeRef × α)} {s : SkewHeap (NodeRef × α)} {q : Link} :
    Stores st q (f.plug s) ↔
      st.get f.top.1 = some (frameRecord f (rootRef s) q).2 ∧ Stores st (some f.top.1) s ∧
        Stores st (some f.top.1) f.other := by
  cases f with
  | left x r => simp [SkewHeap.Frame.plug, stores_node, frameRecord, SkewHeap.Frame.top,
      SkewHeap.Frame.other]
  | right l x =>
    simp only [SkewHeap.Frame.plug, stores_node, frameRecord, SkewHeap.Frame.top,
      SkewHeap.Frame.other]
    tauto

theorem frameRecord_fst (f : SkewHeap.Frame (NodeRef × α)) (hole parent : Link) :
    (frameRecord f hole parent).1 = f.top.1 := by
  cases f <;> rfl

/-- A tree stored down a path: the records along and beside the path, and the subtree at its
end under the last node passed. -/
theorem stores_plug {ctx : List (SkewHeap.Frame (NodeRef × α))} {s : SkewHeap (NodeRef × α)} :
    Stores st P (SkewHeap.plug ctx s) ↔
      (∀ e ∈ pathLayout P ctx (rootRef s), st.get e.1 = some e.2) ∧
        Stores st (holeParent P ctx) s := by
  induction ctx generalizing s with
  | nil => simp [pathLayout, holeParent]
  | cons f ctx ih =>
    rw [SkewHeap.plug_cons, ih, rootRef_framePlug, stores_framePlug]
    simp only [pathLayout, holeParent, List.forall_mem_cons, List.forall_mem_append,
      frameRecord_fst]
    constructor
    · rintro ⟨hpath, hget, hs, hother⟩
      exact ⟨⟨hget, hother, hpath⟩, hs⟩
    · rintro ⟨⟨hget, hother, hpath⟩, hs⟩
      exact ⟨hpath, hget, hs, hother⟩

theorem map_fst_pathLayout (P : Link) : ∀ (ctx : List (SkewHeap.Frame (NodeRef × α))) (hole : Link),
    (pathLayout P ctx hole).map Prod.fst = (SkewHeap.pathItems ctx).map Prod.fst
  | [], _ => rfl
  | f :: ctx, _ => by
    simp only [pathLayout, List.map_cons, List.map_append, map_fst_layout, frameRecord_fst,
      map_fst_pathLayout P ctx, SkewHeap.pathItems_cons, nodes]

theorem nodes_plug (ctx : List (SkewHeap.Frame (NodeRef × α))) (s : SkewHeap (NodeRef × α)) :
    (nodes (SkewHeap.plug ctx s)).Perm ((SkewHeap.pathItems ctx).map Prod.fst ++ nodes s) := by
  simpa [nodes] using (SkewHeap.toList_plug ctx s).map Prod.fst

theorem rootRef_plug_cons (f : SkewHeap.Frame (NodeRef × α)) (ctx : List (SkewHeap.Frame (NodeRef × α)))
    (s s' : SkewHeap (NodeRef × α)) :
    rootRef (SkewHeap.plug (f :: ctx) s) = rootRef (SkewHeap.plug (f :: ctx) s') := by
  induction ctx generalizing f s s' with
  | nil => simp [rootRef_framePlug]
  | cons g ctx ih => exact ih g (f.plug s) (f.plug s')

theorem get_replaceChild_of_ne {p r q : NodeRef} {l : Link} (hqp : q ≠ p) (hq : l ≠ some q) :
    (replaceChild st p r l).get q = st.get q := by
  cases l with
  | none => simp [replaceChild, Arena.get_modify, Ne.symm hqp]
  | some c =>
    have hcq : c ≠ q := fun h => hq (h ▸ rfl)
    simp [replaceChild, Arena.get_modify, Ne.symm hqp, hcq]

theorem get_replaceChild_parent {p r : NodeRef} {l : Link} (hl : l ≠ some p) :
    (replaceChild st p r l).get p = (st.get p).map fun m =>
      if m.left = some r then { m with left := l } else { m with right := l } := by
  cases l with
  | none => simp [replaceChild, Arena.get_modify]
  | some c =>
    have hcp : c ≠ p := fun h => hl (h ▸ rfl)
    simp [replaceChild, Arena.get_modify, hcp]

theorem get_replaceChild_child {p r c : NodeRef} (hcp : c ≠ p) :
    (replaceChild st p r (some c)).get c = (st.get c).map fun m => { m with parent := some p } := by
  simp [replaceChild, Arena.get_modify, Ne.symm hcp]

theorem edits_replaceChild (st : Arena (SkewNode α)) (p r : NodeRef) (l : Link) :
    st.Edits (replaceChild st p r l) := by
  cases l with
  | none => exact Arena.edits_modify _ _ _
  | some c => exact (Arena.edits_modify _ _ _).trans (Arena.edits_modify _ _ _)

/-- Putting a tree in the child slot that held `r`, under the last node of a path, stores the
path with the new tree at its end. Only that node and the new tree's root change. -/
theorem stores_replaceChild {f : SkewHeap.Frame (NodeRef × α)}
    {ctx : List (SkewHeap.Frame (NodeRef × α))} {r : NodeRef} {s : SkewHeap (NodeRef × α)}
    (hpath : ∀ e ∈ pathLayout P (f :: ctx) (some r), st.get e.1 = some e.2)
    (hs : Stores st none s) (hnd : ((SkewHeap.pathItems (f :: ctx)).map Prod.fst ++ nodes s).Nodup)
    (hr : r ∉ (SkewHeap.pathItems (f :: ctx)).map Prod.fst) :
    Stores (replaceChild st f.top.1 r (rootRef s)) P (SkewHeap.plug (f :: ctx) s) ∧
      ∀ q, q ≠ f.top.1 → q ∉ nodes s → (replaceChild st f.top.1 r (rootRef s)).get q = st.get q := by
  have hp : f.top.1 ∈ (SkewHeap.pathItems (f :: ctx)).map Prod.fst := by simp
  have hps : f.top.1 ∉ nodes s := fun h => List.disjoint_of_nodup_append hnd hp h
  have hroot : rootRef s ≠ some f.top.1 := fun h => hps (mem_nodes_of_rootRef h)
  have hkeep : ∀ q, q ≠ f.top.1 → q ∉ nodes s →
      (replaceChild st f.top.1 r (rootRef s)).get q = st.get q :=
    fun q hqp hqs => get_replaceChild_of_ne hqp fun h => hqs (mem_nodes_of_rootRef h)
  refine ⟨stores_plug.2 ⟨fun e he => ?_, ?_⟩, hkeep⟩
  · simp only [pathLayout, List.mem_cons, List.mem_append] at he
    rcases he with rfl | he
    · -- the node above: its child slot that held `r` now holds the new root
      have hget := hpath (frameRecord f (some r) (holeParent P ctx)) (by simp [pathLayout])
      rw [frameRecord_fst] at hget ⊢
      rw [get_replaceChild_parent hroot, hget]
      cases f with
      | left x o => simp [frameRecord]
      | right o x =>
        have hro : rootRef o ≠ some r := fun h => by
          apply hr
          rw [SkewHeap.pathItems_cons, List.map_cons, List.map_append]
          exact List.mem_cons_of_mem _ (List.mem_append_left _ (mem_nodes_of_rootRef h))
        simp [frameRecord, hro]
    · -- the other records along and beside the path are as they were
      have he₁ : e.1 ∈ nodes f.other ++ (SkewHeap.pathItems ctx).map Prod.fst := by
        rcases he with he | he
        · exact List.mem_append_left _ (map_fst_layout _ f.other ▸ List.mem_map_of_mem he)
        · exact List.mem_append_right _ (map_fst_pathLayout P ctx _ ▸ List.mem_map_of_mem he)
      have hpnd := hnd.of_append_left
      simp only [SkewHeap.pathItems_cons, List.map_cons, List.map_append, List.nodup_cons] at hpnd
      have hin : e.1 ∈ (SkewHeap.pathItems (f :: ctx)).map Prod.fst := by
        simp only [SkewHeap.pathItems_cons, List.map_cons, List.map_append]
        exact List.mem_cons_of_mem _ he₁
      rw [hkeep e.1 (fun h => hpnd.1 (h ▸ he₁)) (List.disjoint_of_nodup_append hnd hin)]
      exact hpath e (by simp only [pathLayout, List.mem_cons, List.mem_append]; exact .inr he)
  · -- the new tree hangs from the node above
    cases s with
    | leaf => exact stores_leaf
    | node l z o =>
      have hsnd := nodup_node_iff.1
        (show (nodes (.node l z o) ++ ([] : List NodeRef)).Nodup by simpa using hnd.of_append_right)
      refine hs.reparent (get_replaceChild_child fun h => hps (by simp [nodes_node, h]))
        fun q hq => get_replaceChild_of_ne (fun h => hps ?_) fun h => ?_
      · rw [← h, nodes_node]
        exact List.mem_cons_of_mem _ hq
      · simp only [rootRef_node, Option.some.injEq] at h
        rw [h] at hsnd
        exact (List.mem_append.1 hq).elim hsnd.1 hsnd.2.1

end Path

section Holds

/-- The arena holds exactly the detached trees `ts`, whose elements carry their node numbers: each
tree's records are stored, its root without a parent, and the live nodes are the nodes of the
trees, each once. -/
structure Holds (st : Arena (SkewNode α)) (ts : List (SkewHeap (NodeRef × α))) : Prop where
  owns : st.Owns (ts.flatMap nodes)
  stores : ∀ u ∈ ts, Stores st none u

variable {st st' : Arena (SkewNode α)} {ts ts' : List (SkewHeap (NodeRef × α))}

theorem Holds.perm (h : Holds st ts) (hp : ts.Perm ts') : Holds st ts' :=
  ⟨h.owns.perm (hp.flatMap_right nodes), fun u hu => h.stores u (hp.symm.subset hu)⟩

theorem Holds.transfer (h : Holds st ts) (he : st.Edits st')
    (hp : (ts.flatMap nodes).Perm (ts'.flatMap nodes)) (hs : ∀ u ∈ ts', Stores st' none u) :
    Holds st' ts' :=
  ⟨(h.owns.edits he).perm hp, hs⟩

theorem Holds.size_le (h : Holds st ts) {u : SkewHeap (NodeRef × α)} (hu : u ∈ ts) :
    u.size ≤ st.slotCount := by
  have hlen := h.owns.length_le
  rw [List.length_flatMap] at hlen
  have hmem : (nodes u).length ∈ ts.map fun a => (nodes a).length := List.mem_map_of_mem hu
  rw [← length_nodes]
  exact le_trans (List.le_sum_of_mem hmem) hlen

/-- The two trees in front are melded into one, as `SkewHeap.meld` does; the others stay. -/
theorem Holds.meld (prec : α → α → Bool) (a b : SkewHeap (NodeRef × α))
    (rest : List (SkewHeap (NodeRef × α))) (h : Holds st (a :: b :: rest)) :
    ∃ st', meld prec st (rootRef a) (rootRef b) =
        some (st', rootRef (SkewHeap.meld (byItem prec) a b)) ∧
      Holds st' (SkewHeap.meld (byItem prec) a b :: rest) := by
  have hnd := h.owns.nodup
  simp only [List.flatMap_cons] at hnd
  have hfuel : a.size + b.size ≤ st.slotCount := by
    have hlen := h.owns.length_le
    simp only [List.flatMap_cons, List.length_append, length_nodes] at hlen
    omega
  obtain ⟨st', hm, hs, hframe, he⟩ := Stores.meld prec (h.stores a (by simp))
    (h.stores b (by simp)) (by rw [← List.append_assoc] at hnd; exact hnd.of_append_left) hfuel
  refine ⟨st', hm, h.transfer he ?_ fun u hu => ?_⟩
  · simp only [List.flatMap_cons, ← List.append_assoc]
    exact ((nodes_meld _ a b).symm.append_right _)
  · rcases List.mem_cons.1 hu with rfl | hu
    · exact hs
    · refine (h.stores u (by simp [hu])).frame fun q hq => hframe q fun hq' => ?_
      rw [← List.append_assoc] at hnd
      exact List.disjoint_of_nodup_append hnd hq' (List.mem_flatMap.2 ⟨u, hu, hq⟩)

/-- A new node stored by `alloc` is a one-node tree after the others. -/
theorem Holds.alloc (h : Holds st ts) (x : α) (shared : Nat) :
    Holds (st.alloc ⟨x, none, none, none⟩ shared).1
      (ts ++ [.node .leaf ((st.alloc ⟨x, none, none, none⟩ shared).2.1, x) .leaf]) := by
  obtain ⟨howns, hfresh⟩ := h.owns.alloc ⟨x, none, none, none⟩ shared
  refine ⟨by simpa [nodes_node] using howns, fun u hu => ?_⟩
  rcases List.mem_append.1 hu with hu | hu
  · refine (h.stores u hu).frame fun q hq => ?_
    rw [h.owns.wf.get_alloc, if_neg (by rintro rfl; exact hfresh (List.mem_flatMap.2 ⟨u, hu, hq⟩))]
  · rw [List.mem_singleton] at hu
    subst hu
    refine stores_node.2 ⟨?_, stores_leaf, stores_leaf⟩
    rw [h.owns.wf.get_alloc, if_pos rfl]
    rfl

/-- Freeing the node of a loose one-node tree drops the tree. -/
theorem Holds.free {r : NodeRef} {x : α} (h : Holds st (ts ++ [.node .leaf (r, x) .leaf]))
    (shared : Nat) :
    ∃ st' shared', st.free r shared = some (st', ⟨x, none, none, none⟩, shared') ∧
      Holds st' ts := by
  have hget : st.get r = some ⟨x, none, none, none⟩ :=
    (stores_node.1 (h.stores (.node .leaf (r, x) .leaf) (by simp))).1
  have howns : st.Owns (ts.flatMap nodes ++ [r]) := by simpa [nodes_node] using h.owns
  obtain ⟨st', shared', hf, howns'⟩ := howns.free hget shared
  have hr : r ∉ ts.flatMap nodes := fun hm =>
    (List.nodup_append.1 howns.nodup).2.2 r hm r (List.mem_singleton_self r) rfl
  refine ⟨st', shared', hf, howns', fun u hu => (h.stores u (by simp [hu])).frame fun q hq => ?_⟩
  rw [Arena.get_free hf, if_neg (by rintro rfl; exact hr (List.mem_flatMap.2 ⟨u, hu, hq⟩))]

/-- Changing the element at the root of the last tree. -/
theorem Holds.setItem {l r : SkewHeap (NodeRef × α)} {x : NodeRef × α}
    (h : Holds st (ts ++ [.node l x r])) (y : α) :
    Holds (st.modify x.1 fun m => { m with item := y }) (ts ++ [.node l (x.1, y) r]) := by
  have hnd := h.owns.nodup
  simp only [List.flatMap_append, List.flatMap_cons, List.flatMap_nil, List.append_nil,
    nodes_node] at hnd
  have hx : x.1 ∉ ts.flatMap nodes := fun hm =>
    (List.nodup_append.1 hnd).2.2 x.1 hm x.1 (List.mem_cons_self) rfl
  have hxlr := (List.nodup_cons.1 (List.nodup_append.1 hnd).2.1).1
  refine h.transfer (Arena.edits_modify _ _ _) (by simp [nodes_node]) fun u hu => ?_
  rcases List.mem_append.1 hu with hu | hu
  · refine (h.stores u (List.mem_append_left _ hu)).frame fun q hq => ?_
    rw [Arena.get_modify, if_neg (by rintro rfl; exact hx (List.mem_flatMap.2 ⟨u, hu, hq⟩))]
  · rw [List.mem_singleton] at hu
    subst hu
    obtain ⟨hget, hl, hr⟩ := stores_node.1 (h.stores (.node l x r) (by simp))
    refine stores_node.2 ⟨by simp [Arena.get_modify, hget], hl.frame fun q hq => ?_,
      hr.frame fun q hq => ?_⟩
    · rw [Arena.get_modify, if_neg (by rintro rfl; exact hxlr (List.mem_append_left _ hq))]
    · rw [Arena.get_modify, if_neg (by rintro rfl; exact hxlr (List.mem_append_right _ hq))]

end Holds

end SkewArena

end PriorityQueues
