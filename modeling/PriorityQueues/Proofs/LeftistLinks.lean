import Mathlib
import PriorityQueues.Tree.LeftistArena
import PriorityQueues.Proofs.Leftist
import PriorityQueues.Proofs.ArenaSlots
import PriorityQueues.Proofs.PairingArena

/-!
Leftist heaps laid out in an arena. `Stores` says that an arena holds the records of a tree whose
elements carry their node numbers, each node pointing to its children and back to its parent and
storing the tree's rank. The recursive meld stores the tree of `LeftistHeap.meld`, and the upward
repair after a removal stores the tree that `cut` rebuilds, stopping where `cut` stops restoring.
-/

namespace PriorityQueues

namespace LeftistHeap

/-- One step down a tree, kept to climb back: the node passed, its rank, and its subtree on the
other side. -/
inductive Frame (α : Type) where
  /-- The step went to the left child; `r` is the right subtree. -/
  | left (k : Nat) (x : α) (r : LeftistHeap α)
  /-- The step went to the right child; `l` is the left subtree. -/
  | right (k : Nat) (l : LeftistHeap α) (x : α)

namespace Frame

variable {α : Type}

/-- The element of the node passed. -/
def top : Frame α → α
  | .left _ x _ => x
  | .right _ _ x => x

/-- The subtree the step did not enter. -/
def other : Frame α → LeftistHeap α
  | .left _ _ r => r
  | .right _ l _ => l

/-- Puts a subtree back where the step left, under the node's old rank. -/
def plug : Frame α → LeftistHeap α → LeftistHeap α
  | .left k x r, s => .node k s x r
  | .right k l x, s => .node k l x s

/-- Puts a subtree back where the step left, restoring the node if `dirty`, and tells whether
its rank changed. -/
def rebuild (dirty : Bool) : Frame α → LeftistHeap α → LeftistHeap α × Bool
  | .left k x r, s => LeftistHeap.rebuild dirty k s x r
  | .right k l x, s => LeftistHeap.rebuild dirty k l x s

theorem rebuild_false (f : Frame α) (s : LeftistHeap α) : f.rebuild false s = (f.plug s, false) := by
  cases f <;> rfl

end Frame

variable {α : Type}

/-- Puts a subtree back under a path of steps, the innermost first. -/
def plug (ctx : List (Frame α)) (s : LeftistHeap α) : LeftistHeap α :=
  ctx.foldl (fun t f => f.plug t) s

@[simp]
theorem plug_nil (s : LeftistHeap α) : plug [] s = s := rfl

@[simp]
theorem plug_cons (f : Frame α) (ctx : List (Frame α)) (s : LeftistHeap α) :
    plug (f :: ctx) s = plug ctx (f.plug s) := rfl

theorem plug_append_singleton (ctx : List (Frame α)) (f : Frame α) (s : LeftistHeap α) :
    plug (ctx ++ [f]) s = f.plug (plug ctx s) := by
  simp [plug, List.foldl_append]

/-- Climbs a path from a new subtree at its end, rebuilding each node passed while the one below
changed its rank. -/
def climb : List (Frame α) → LeftistHeap α → Bool → LeftistHeap α × Bool
  | [], s, dirty => (s, dirty)
  | f :: ctx, s, dirty => climb ctx (f.rebuild dirty s).1 (f.rebuild dirty s).2

/-- Once a rank stays, the rest of the path is put back as it was. -/
theorem climb_false (ctx : List (Frame α)) (s : LeftistHeap α) :
    climb ctx s false = (plug ctx s, false) := by
  induction ctx generalizing s with
  | nil => rfl
  | cons f ctx ih => rw [climb, Frame.rebuild_false, ih, plug_cons]

/-- The elements of a path: each node passed and its other subtree. -/
def pathItems (ctx : List (Frame α)) : List α :=
  ctx.flatMap fun f => f.top :: f.other.toList

@[simp]
theorem pathItems_nil : pathItems ([] : List (Frame α)) = [] := rfl

@[simp]
theorem pathItems_cons (f : Frame α) (ctx : List (Frame α)) :
    pathItems (f :: ctx) = f.top :: (f.other.toList ++ pathItems ctx) := rfl

theorem toList_plug (ctx : List (Frame α)) (s : LeftistHeap α) :
    (plug ctx s).toList.Perm (pathItems ctx ++ s.toList) := by
  induction ctx generalizing s with
  | nil => simp
  | cons f ctx ih =>
    have hf : (f.plug s).toList.Perm ((f.top :: f.other.toList) ++ s.toList) := by
      cases f with
      | left k x r => exact (List.perm_append_comm.cons x).trans (by simp [Frame.top, Frame.other])
      | right k l x => simp [Frame.plug, Frame.top, Frame.other]
    calc List.Perm (plug (f :: ctx) s).toList (pathItems ctx ++ (f.plug s).toList) := ih _
      List.Perm _ (pathItems ctx ++ ((f.top :: f.other.toList) ++ s.toList)) := hf.append_left _
      List.Perm _ (pathItems (f :: ctx) ++ s.toList) := by
        rw [pathItems_cons, ← List.cons_append, ← List.append_assoc]
        exact List.perm_append_comm.append_right _

theorem length_le_pathItems (ctx : List (Frame α)) : ctx.length ≤ (pathItems ctx).length := by
  induction ctx with
  | nil => simp
  | cons f ctx ih => simp only [pathItems_cons, List.length_cons, List.length_append]; omega

theorem toList_climb (ctx : List (Frame α)) (s : LeftistHeap α) (dirty : Bool) :
    (climb ctx s dirty).1.toList.Perm (pathItems ctx ++ s.toList) := by
  induction ctx generalizing s dirty with
  | nil => simp [climb]
  | cons f ctx ih =>
    have hf : (f.rebuild dirty s).1.toList.Perm ((f.top :: f.other.toList) ++ s.toList) := by
      cases f with
      | left k x r =>
        exact (toList_rebuild dirty k s x r).trans
          ((List.perm_append_comm.cons x).trans (by simp [Frame.top, Frame.other]))
      | right k l x => exact toList_rebuild dirty k l x s
    calc List.Perm (climb (f :: ctx) s dirty).1.toList (pathItems ctx ++ (f.rebuild dirty s).1.toList) :=
          ih _ _
      List.Perm _ (pathItems ctx ++ ((f.top :: f.other.toList) ++ s.toList)) := hf.append_left _
      List.Perm _ (pathItems (f :: ctx) ++ s.toList) := by
        rw [pathItems_cons, ← List.cons_append, ← List.append_assoc]
        exact List.perm_append_comm.append_right _

/-- A node in a tree sits at the end of a path. -/
theorem exists_plug_of_mem : ∀ {t : LeftistHeap α} {y : α}, y ∈ t.toList →
    ∃ ctx k sl sr, t = plug ctx (.node k sl y sr)
  | .leaf, _, h => by simp at h
  | .node k l x r, y, h => by
    rw [toList_node, List.mem_cons, List.mem_append] at h
    rcases h with rfl | h | h
    · exact ⟨[], k, l, r, rfl⟩
    · obtain ⟨ctx, k', sl, sr, rfl⟩ := exists_plug_of_mem h
      exact ⟨ctx ++ [.left k x r], k', sl, sr, by rw [plug_append_singleton]; rfl⟩
    · obtain ⟨ctx, k', sl, sr, rfl⟩ := exists_plug_of_mem h
      exact ⟨ctx ++ [.right k l x], k', sl, sr, by rw [plug_append_singleton]; rfl⟩

/-- A search along a path that none of its elements passes goes on into the subtree at its end,
and the path is climbed back from what the search left there. -/
theorem cut_plug (prec : α → α → Bool) {p : α → Bool} (ctx : List (Frame α)) (u : LeftistHeap α)
    (hctx : ∀ y ∈ pathItems ctx, p y = false) :
    cut prec p (plug ctx u) = (cut prec p u).map fun c => (c.1, climb ctx c.2.1 c.2.2) := by
  induction ctx generalizing u with
  | nil => cases h : cut prec p u <;> simp [h, climb]
  | cons f ctx ih =>
    rw [plug_cons, ih (f.plug u) fun y hy => hctx y (by simp [hy])]
    have hf : cut prec p (f.plug u) = (cut prec p u).map fun c => (c.1, f.rebuild c.2.2 c.2.1) := by
      have htop : p f.top = false := hctx _ (by simp)
      have hother : cut prec p f.other = none :=
        cut_eq_none.2 fun y hy => hctx y (by simp [hy])
      cases f with
      | left k x r =>
        simp only [Frame.top, Frame.other] at htop hother
        rw [Frame.plug, cut_node, if_neg (by simp [htop])]
        cases cut prec p u <;> simp [hother, Frame.rebuild]
      | right k l x =>
        simp only [Frame.top, Frame.other] at htop hother
        rw [Frame.plug, cut_node, if_neg (by simp [htop])]
        cases cut prec p u <;> simp [hother, Frame.rebuild]
    rw [hf, Option.map_map]
    rfl

end LeftistHeap

namespace LeftistArena

open PairingArena (byItem)

variable {α : Type}

/-- The number of the root node, if any. -/
def rootRef : LeftistHeap (NodeRef × α) → Link
  | .leaf => none
  | .node _ _ x _ => some x.1

/-- The records the nodes of a tree must have, its root pointing back to `parent`. -/
def layout (parent : Link) : LeftistHeap (NodeRef × α) → List (NodeRef × LeftistNode α)
  | .leaf => []
  | .node k l x r =>
    (x.1, ⟨x.2, rootRef l, rootRef r, parent, k⟩) :: (layout (some x.1) l ++ layout (some x.1) r)

def Stores (st : Arena (LeftistNode α)) (parent : Link) (t : LeftistHeap (NodeRef × α)) : Prop :=
  ∀ e ∈ layout parent t, st.get e.1 = some e.2

def nodes (t : LeftistHeap (NodeRef × α)) : List NodeRef := t.toList.map Prod.fst

section Layout

variable {st st' : Arena (LeftistNode α)} {p p' : Link}

@[simp]
theorem rootRef_leaf : rootRef (.leaf : LeftistHeap (NodeRef × α)) = none := rfl

@[simp]
theorem rootRef_node (k : Nat) (l : LeftistHeap (NodeRef × α)) (x : NodeRef × α)
    (r : LeftistHeap (NodeRef × α)) : rootRef (.node k l x r) = some x.1 := rfl

@[simp]
theorem nodes_leaf : nodes (.leaf : LeftistHeap (NodeRef × α)) = [] := rfl

theorem nodes_node (k : Nat) (l : LeftistHeap (NodeRef × α)) (x : NodeRef × α)
    (r : LeftistHeap (NodeRef × α)) : nodes (.node k l x r) = x.1 :: (nodes l ++ nodes r) := by
  simp [nodes]

theorem length_nodes (t : LeftistHeap (NodeRef × α)) : (nodes t).length = t.size := by
  simp [nodes, LeftistHeap.size_eq_length]

theorem mem_nodes_of_rootRef {t : LeftistHeap (NodeRef × α)} {q : NodeRef}
    (h : rootRef t = some q) : q ∈ nodes t := by
  cases t with
  | leaf => cases h
  | node k l x r =>
    simp only [rootRef_node, Option.some.injEq] at h
    simp [nodes_node, h]

@[simp]
theorem stores_leaf : Stores st p (.leaf : LeftistHeap (NodeRef × α)) := by
  simp [Stores, layout]

theorem stores_node {k : Nat} {l : LeftistHeap (NodeRef × α)} {x : NodeRef × α}
    {r : LeftistHeap (NodeRef × α)} :
    Stores st p (.node k l x r) ↔
      st.get x.1 = some ⟨x.2, rootRef l, rootRef r, p, k⟩ ∧ Stores st (some x.1) l ∧
        Stores st (some x.1) r := by
  simp only [Stores, layout, List.forall_mem_cons, List.forall_mem_append]

theorem map_fst_layout (p : Link) : ∀ t : LeftistHeap (NodeRef × α),
    (layout p t).map Prod.fst = nodes t
  | .leaf => rfl
  | .node k l x r => by
    simp only [layout, List.map_cons, List.map_append, map_fst_layout, nodes_node]

theorem Stores.isSome_get {t : LeftistHeap (NodeRef × α)} (hs : Stores st p t) {q : NodeRef}
    (hq : q ∈ nodes t) : (st.get q).isSome := by
  rw [← map_fst_layout p t] at hq
  obtain ⟨e, he, rfl⟩ := List.mem_map.1 hq
  simp [hs e he]

theorem Stores.frame {t : LeftistHeap (NodeRef × α)} (hs : Stores st p t)
    (h : ∀ q ∈ nodes t, st'.get q = st.get q) : Stores st' p t := by
  intro e he
  rw [h e.1 (map_fst_layout p t ▸ List.mem_map_of_mem he)]
  exact hs e he

theorem Stores.get_item {t : LeftistHeap (NodeRef × α)} (hs : Stores st p t) {e : NodeRef × α}
    (he : e ∈ t.toList) : ∃ n, st.get e.1 = some n ∧ n.item = e.2 := by
  induction t generalizing p with
  | leaf => simp at he
  | node k l x r ihl ihr =>
    obtain ⟨hx, hl, hr⟩ := stores_node.1 hs
    rw [LeftistHeap.toList_node, List.mem_cons, List.mem_append] at he
    rcases he with rfl | he | he
    · exact ⟨_, hx, rfl⟩
    · exact ihl hl he
    · exact ihr hr he

/-- The rank the arena stores at a tree's root is the tree's rank. -/
theorem Stores.rankOf {t : LeftistHeap (NodeRef × α)} (hs : Stores st p t) :
    rankOf st (rootRef t) = t.rank := by
  cases t with
  | leaf => rfl
  | node k l x r => simp [LeftistArena.rankOf, (stores_node.1 hs).1]

/-- A stored tree whose root now points to another parent. -/
theorem Stores.reparent {k : Nat} {l : LeftistHeap (NodeRef × α)} {x : NodeRef × α}
    {r : LeftistHeap (NodeRef × α)} (hs : Stores st p (.node k l x r))
    (hroot : st'.get x.1 = (st.get x.1).map fun n => { n with parent := p' })
    (hrest : ∀ q ∈ nodes l ++ nodes r, st'.get q = st.get q) : Stores st' p' (.node k l x r) := by
  obtain ⟨hx, hl, hr⟩ := stores_node.1 hs
  refine stores_node.2 ⟨by rw [hroot, hx]; rfl,
    hl.frame fun q hq => hrest q (List.mem_append_left _ hq),
    hr.frame fun q hq => hrest q (List.mem_append_right _ hq)⟩

theorem nodes_meld (p : NodeRef × α → NodeRef × α → Bool) (a b : LeftistHeap (NodeRef × α)) :
    (nodes (LeftistHeap.meld p a b)).Perm (nodes a ++ nodes b) := by
  simpa [nodes] using (LeftistHeap.toList_meld p a b).map Prod.fst

theorem nodes_restore (k : Nat) (l : LeftistHeap (NodeRef × α)) (x : NodeRef × α)
    (r : LeftistHeap (NodeRef × α)) :
    (nodes (LeftistHeap.restore k l x r).1).Perm (x.1 :: (nodes l ++ nodes r)) := by
  simpa [nodes] using (LeftistHeap.toList_restore (k := k) (l := l) (x := x) (r := r)).map Prod.fst

theorem rootRef_restore (k : Nat) (l : LeftistHeap (NodeRef × α)) (x : NodeRef × α)
    (r : LeftistHeap (NodeRef × α)) : rootRef (LeftistHeap.restore k l x r).1 = some x.1 := by
  unfold LeftistHeap.restore
  split <;> rfl

theorem nodup_node_iff {k : Nat} {l : LeftistHeap (NodeRef × α)} {x : NodeRef × α}
    {r : LeftistHeap (NodeRef × α)} {rest : List NodeRef} :
    (nodes (.node k l x r) ++ rest).Nodup ↔
      x.1 ∉ nodes l ∧ x.1 ∉ nodes r ∧ x.1 ∉ rest ∧ (nodes l ++ (nodes r ++ rest)).Nodup := by
  simp only [nodes_node, List.cons_append, List.nodup_cons, List.mem_append, List.append_assoc]
  tauto

end Layout

section Writes

variable {st : Arena (LeftistNode α)}

theorem get_attachRight_parent {parent : NodeRef} {child : Link} (hc : child ≠ some parent) :
    (attachRight st parent child).get parent =
      (st.get parent).map fun n => { n with right := child } := by
  cases child with
  | none => simp [attachRight, Arena.get_modify]
  | some c =>
    have hcp : c ≠ parent := fun h => hc (h ▸ rfl)
    simp [attachRight, Arena.get_modify, hcp]

theorem get_attachRight_child {parent c : NodeRef} (hc : c ≠ parent) :
    (attachRight st parent (some c)).get c = (st.get c).map fun n => { n with parent := some parent } := by
  simp [attachRight, Arena.get_modify, Ne.symm hc]

theorem get_attachRight_of_ne {parent q : NodeRef} {child : Link} (hqp : q ≠ parent)
    (hq : child ≠ some q) : (attachRight st parent child).get q = st.get q := by
  cases child with
  | none => simp [attachRight, Arena.get_modify, Ne.symm hqp]
  | some c =>
    have hcq : c ≠ q := fun h => hq (h ▸ rfl)
    simp [attachRight, Arena.get_modify, Ne.symm hqp, hcq]

theorem edits_attachRight (st : Arena (LeftistNode α)) (parent : NodeRef) (child : Link) :
    st.Edits (attachRight st parent child) := by
  cases child with
  | none => exact Arena.edits_modify _ _ _
  | some c => exact (Arena.edits_modify _ _ _).trans (Arena.edits_modify _ _ _)

theorem get_orphan (l : Link) (q : NodeRef) :
    (orphan st l).get q =
      if l = some q then (st.get q).map fun n => { n with parent := none } else st.get q := by
  cases l with
  | none => simp [orphan]
  | some r => simp [orphan, Arena.get_modify]

theorem edits_orphan (st : Arena (LeftistNode α)) (l : Link) : st.Edits (orphan st l) := by
  cases l with
  | none => exact .refl _
  | some r => exact Arena.edits_modify _ _ _

theorem precedes_eq {a b : NodeRef} {x y : LeftistNode α} (ha : st.get a = some x)
    (hb : st.get b = some y) (prec : α → α → Bool) : precedes prec st a b = prec x.item y.item := by
  simp [precedes, ha, hb]

theorem get_restoreRank_of_ne {node q : NodeRef} (hq : q ≠ node) :
    (restoreRank st node).1.get q = st.get q := by
  unfold restoreRank
  split
  · rfl
  · split <;> simp [Arena.get_modify, Ne.symm hq]

theorem edits_restoreRank (st : Arena (LeftistNode α)) (node : NodeRef) :
    st.Edits (restoreRank st node).1 := by
  unfold restoreRank
  split
  · exact .refl _
  · split <;> exact Arena.edits_modify _ _ _

/-- Restoring the rank of a stored node stores the tree `LeftistHeap.restore` builds, and tells
whether the rank changed as `restore` does. -/
theorem Stores.restoreRank {Q : Link} {k : Nat} {l : LeftistHeap (NodeRef × α)} {x : NodeRef × α}
    {r : LeftistHeap (NodeRef × α)} (hs : Stores st Q (.node k l x r))
    (hnd : x.1 ∉ nodes l ++ nodes r) :
    Stores (restoreRank st x.1).1 Q (LeftistHeap.restore k l x r).1 ∧
      (restoreRank st x.1).2 = (LeftistHeap.restore k l x r).2 := by
  obtain ⟨hx, hl, hr⟩ := stores_node.1 hs
  -- only the node's own record is rewritten
  have hkeep : ∀ (f : LeftistNode α → LeftistNode α) (q : NodeRef), q ∈ nodes l ++ nodes r →
      (st.modify x.1 f).get q = st.get q :=
    fun f q hq => by rw [Arena.get_modify, if_neg (by rintro rfl; exact hnd hq)]
  unfold LeftistArena.restoreRank LeftistHeap.restore
  simp only [hx, hl.rankOf, hr.rankOf]
  by_cases hlt : l.rank < r.rank
  · simp only [if_pos hlt]
    refine ⟨stores_node.2 ⟨by simp [Arena.get_modify, hx],
      hr.frame fun q hq => hkeep _ q (List.mem_append_right _ hq),
      hl.frame fun q hq => hkeep _ q (List.mem_append_left _ hq)⟩, bne_comm⟩
  · simp only [if_neg hlt]
    refine ⟨stores_node.2 ⟨by simp [Arena.get_modify, hx],
      hl.frame fun q hq => hkeep _ q (List.mem_append_left _ hq),
      hr.frame fun q hq => hkeep _ q (List.mem_append_right _ hq)⟩, bne_comm⟩

end Writes

section Meld

variable (prec : α → α → Bool) {st : Arena (LeftistNode α)}

theorem meldSpines_none_left (fuel : Nat) (st : Arena (LeftistNode α)) (b : Link) :
    meldSpines prec fuel st none b = some (st, b) := by
  cases fuel <;> rfl

theorem meldSpines_none_right (fuel : Nat) (st : Arena (LeftistNode α)) (a : NodeRef) :
    meldSpines prec fuel st (some a) none = some (st, some a) := by
  cases fuel <;> rfl

theorem meldSpines_of_precedes {fuel : Nat} {a b : NodeRef} {n : LeftistNode α}
    (hw : precedes prec st b a = true) (hn : st.get b = some n) :
    meldSpines prec (fuel + 1) st (some a) (some b) =
      (meldSpines prec fuel st n.right (some a)).map fun m =>
        ((restoreRank (attachRight m.1 b m.2) b).1, some b) := by
  simp [meldSpines, hw, hn]

theorem meldSpines_of_not_precedes {fuel : Nat} {a b : NodeRef} {n : LeftistNode α}
    (hw : precedes prec st b a = false) (hn : st.get a = some n) :
    meldSpines prec (fuel + 1) st (some a) (some b) =
      (meldSpines prec fuel st n.right (some b)).map fun m =>
        ((restoreRank (attachRight m.1 a m.2) a).1, some a) := by
  simp [meldSpines, hw, hn]

variable {prec}

/-- One step of the meld at a winning root `x`: once the meld `M` of its right subtree with the
other tree `O` is stored, the root takes `M` as its right child and has its rank restored, which
stores the tree `LeftistHeap.meld` builds at that step. Only `x` and the nodes of `M` change. -/
theorem Stores.spineStep {st₁ : Arena (LeftistNode α)} {Q R : Link} {k : Nat}
    {l r O M : LeftistHeap (NodeRef × α)} {x : NodeRef × α} (hx : Stores st Q (.node k l x r))
    (hM : Stores st₁ R M) (hnodes : (nodes M).Perm (nodes r ++ nodes O))
    (hframe : ∀ q, q ∉ nodes r ++ nodes O → st₁.get q = st.get q)
    (hnd : (nodes (.node k l x r) ++ nodes O).Nodup) :
    Stores (LeftistArena.restoreRank (attachRight st₁ x.1 (rootRef M)) x.1).1 Q
        (LeftistHeap.restore k l x M).1 ∧
      ∀ q, q ∉ nodes (.node k l x r) ++ nodes O →
        (LeftistArena.restoreRank (attachRight st₁ x.1 (rootRef M)) x.1).1.get q = st.get q := by
  obtain ⟨hxget, hl, -⟩ := stores_node.1 hx
  obtain ⟨hxl, hxr, hxO, hnd'⟩ := nodup_node_iff.1 hnd
  have hxM : x.1 ∉ nodes M := fun h => (List.mem_append.1 (hnodes.subset h)).elim hxr hxO
  have hMnd : (nodes M).Nodup := hnodes.nodup_iff.2 hnd'.of_append_right
  have hlM : ∀ q ∈ nodes l, q ∉ nodes M := fun q hq hqM =>
    List.disjoint_of_nodup_append hnd' hq (hnodes.subset hqM)
  have hroot : rootRef M ≠ some x.1 := fun h => hxM (mem_nodes_of_rootRef h)
  have hrootq : ∀ q, q ∉ nodes M → rootRef M ≠ some q := fun q hq h => hq (mem_nodes_of_rootRef h)
  -- the root takes the meld as its right child, which points back to it
  have hst₂ : Stores (attachRight st₁ x.1 (rootRef M)) Q (.node k l x M) := by
    refine stores_node.2 ⟨?_, hl.frame fun q hq => ?_, ?_⟩
    · rw [get_attachRight_parent hroot, hframe x.1 fun h => (List.mem_append.1 h).elim hxr hxO,
        hxget]
      rfl
    · have hqx : q ≠ x.1 := by rintro rfl; exact hxl hq
      rw [get_attachRight_of_ne hqx (hrootq q (hlM q hq)),
        hframe q fun h => List.disjoint_of_nodup_append hnd' hq h]
    · cases M with
      | leaf => exact stores_leaf
      | node km ml z mr =>
        have hzx : z.1 ≠ x.1 := fun h => hroot (by rw [rootRef_node, h])
        obtain ⟨hz, -, -, -⟩ := nodup_node_iff.1 (show (nodes (.node km ml z mr) ++ []).Nodup by
          simpa using hMnd)
        obtain ⟨-, hz', -, -⟩ := nodup_node_iff.1 (show (nodes (.node km ml z mr) ++ []).Nodup by
          simpa using hMnd)
        refine hM.reparent (get_attachRight_child hzx) fun q hq => ?_
        have hqx : q ≠ x.1 := by
          rintro rfl
          exact hxM (by rw [nodes_node]; exact List.mem_cons_of_mem _ hq)
        refine get_attachRight_of_ne hqx fun h => ?_
        simp only [rootRef_node, Option.some.injEq] at h
        subst h
        exact (List.mem_append.1 hq).elim hz hz'
  have hnd₂ : x.1 ∉ nodes l ++ nodes M := fun h => (List.mem_append.1 h).elim hxl hxM
  refine ⟨(hst₂.restoreRank hnd₂).1, fun q hq => ?_⟩
  have hqx : q ≠ x.1 := fun h => hq (by simp [h, nodes_node])
  have hqrO : q ∉ nodes r ++ nodes O := fun h => hq (by
    rw [nodes_node, List.cons_append, List.append_assoc]
    exact List.mem_cons_of_mem _ (List.mem_append_right _ h))
  rw [get_restoreRank_of_ne hqx,
    get_attachRight_of_ne hqx (hrootq q fun h => hqrO (hnodes.subset h)), hframe q hqrO]

theorem edits_spineStep (st₁ : Arena (LeftistNode α)) (x : NodeRef) (c : Link) :
    st₁.Edits (restoreRank (attachRight st₁ x c) x).1 :=
  (edits_attachRight st₁ x c).trans (edits_restoreRank _ x)

variable (prec)

/-- The recursive meld of two stored trees stores the tree of `LeftistHeap.meld`, its root still
pointing to the parent the winning root had; nothing outside the two trees changes. -/
theorem Stores.meldSpines (a b : LeftistHeap (NodeRef × α)) :
    ∀ {fuel : Nat} {st : Arena (LeftistNode α)} {P Q : Link}, Stores st P a → Stores st Q b →
      (nodes a ++ nodes b).Nodup → a.size + b.size ≤ fuel →
      ∃ st' R, meldSpines prec fuel st (rootRef a) (rootRef b) =
          some (st', rootRef (LeftistHeap.meld (byItem prec) a b)) ∧
        Stores st' R (LeftistHeap.meld (byItem prec) a b) ∧
        (∀ q, q ∉ nodes a ++ nodes b → st'.get q = st.get q) ∧ st.Edits st' := by
  fun_induction LeftistHeap.meld (byItem prec) a b with
  | case1 b =>
    intro fuel st P Q _ hb _ _
    exact ⟨st, Q, meldSpines_none_left prec fuel st _, hb, fun _ _ => rfl, .refl _⟩
  | case2 k l x r =>
    intro fuel st P Q ha _ _ _
    exact ⟨st, P, meldSpines_none_right prec fuel st _, ha, fun _ _ => rfl, .refl _⟩
  | case3 ka al x ar kb bl y br hyx ih =>
    -- the second root wins: the first tree is melded into its right subtree
    intro fuel st P Q ha hb hnd hfuel
    obtain ⟨fuel, rfl⟩ : ∃ n, fuel = n + 1 :=
      ⟨fuel - 1, by simp only [LeftistHeap.size] at hfuel; omega⟩
    obtain ⟨hx, -, -⟩ := stores_node.1 ha
    obtain ⟨hy, -, hbr⟩ := stores_node.1 hb
    have hw : precedes prec st y.1 x.1 = true := by rw [precedes_eq hy hx]; exact hyx
    have hnd' : (nodes (.node kb bl y br) ++ nodes (.node ka al x ar)).Nodup :=
      List.nodup_append_comm.1 hnd
    obtain ⟨st₁, R₁, hrun, hM, hframe, he⟩ := @ih fuel st _ _ hbr ha
      (hnd'.sublist (by simp [nodes_node]))
      (by simp only [LeftistHeap.size] at hfuel ⊢; omega)
    obtain ⟨hst, hkeep⟩ := Stores.spineStep hb hM (nodes_meld _ _ _) hframe hnd'
    refine ⟨_, Q, ?_, hst, fun q hq => hkeep q fun h => hq (List.perm_append_comm.subset h),
      he.trans (edits_spineStep _ _ _)⟩
    rw [rootRef_node, rootRef_node, meldSpines_of_precedes prec hw hy, show some x.1 =
      rootRef (.node ka al x ar) from rfl, hrun, rootRef_restore]
    rfl
  | case4 ka al x ar kb bl y br hyx ih =>
    -- the first root wins: the second tree is melded into its right subtree
    intro fuel st P Q ha hb hnd hfuel
    obtain ⟨fuel, rfl⟩ : ∃ n, fuel = n + 1 :=
      ⟨fuel - 1, by simp only [LeftistHeap.size] at hfuel; omega⟩
    obtain ⟨hx, -, har⟩ := stores_node.1 ha
    obtain ⟨hy, -, -⟩ := stores_node.1 hb
    have hw : precedes prec st y.1 x.1 = false := by
      rw [precedes_eq hy hx]
      simpa [byItem] using hyx
    obtain ⟨st₁, R₁, hrun, hM, hframe, he⟩ := @ih fuel st _ _ har hb
      (hnd.sublist (by simp [nodes_node]))
      (by simp only [LeftistHeap.size] at hfuel ⊢; omega)
    obtain ⟨hst, hkeep⟩ := Stores.spineStep ha hM (nodes_meld _ _ _) hframe hnd
    refine ⟨_, P, ?_, hst, hkeep, he.trans (edits_spineStep _ _ _)⟩
    rw [rootRef_node, rootRef_node, meldSpines_of_not_precedes prec hw hx, show some y.1 =
      rootRef (.node kb bl y br) from rfl, hrun, rootRef_restore]
    rfl

/-- A root left without its parent link: the tree is stored as a tree of its own. -/
theorem Stores.orphan {t : LeftistHeap (NodeRef × α)} {P : Link} (hs : Stores st P t)
    (hnd : (nodes t).Nodup) : Stores (orphan st (rootRef t)) none t := by
  cases t with
  | leaf => exact stores_leaf
  | node k l x r =>
    rw [nodes_node, List.nodup_cons, List.mem_append, not_or] at hnd
    refine hs.reparent (by rw [get_orphan, if_pos (rootRef_node k l x r)]) fun q hq => ?_
    rw [get_orphan, if_neg fun he => ?_]
    simp only [rootRef_node, Option.some.injEq] at he
    exact (List.mem_append.1 hq).elim (fun h => hnd.1.1 (he ▸ h)) (fun h => hnd.1.2 (he ▸ h))

/-- `meld` stores the tree of `LeftistHeap.meld`, its root without a parent, whatever parent
links the two roots had; nothing outside the two trees changes. -/
theorem Stores.meld {a b : LeftistHeap (NodeRef × α)} {P Q : Link} (ha : Stores st P a)
    (hb : Stores st Q b) (hnd : (nodes a ++ nodes b).Nodup)
    (hfuel : a.size + b.size ≤ st.slotCount) :
    ∃ st', meld prec st (rootRef a) (rootRef b) =
        some (st', rootRef (LeftistHeap.meld (byItem prec) a b)) ∧
      Stores st' none (LeftistHeap.meld (byItem prec) a b) ∧
      (∀ q, q ∉ nodes a ++ nodes b → st'.get q = st.get q) ∧ st.Edits st' := by
  obtain ⟨st₁, R, hrun, hs, hframe, he⟩ := Stores.meldSpines prec a b ha hb hnd hfuel
  have hmnd := (nodes_meld (byItem prec) a b).nodup_iff.2 hnd
  refine ⟨LeftistArena.orphan st₁ (rootRef (LeftistHeap.meld (byItem prec) a b)),
    by simp [LeftistArena.meld, hrun],
    hs.orphan hmnd, fun q hq => ?_, he.trans (edits_orphan _ _)⟩
  rw [get_orphan, if_neg fun h => hq ((nodes_meld _ a b).subset (mem_nodes_of_rootRef h)),
    hframe q hq]

end Meld

section Path

/-! The records along a path down a stored tree. -/

/-- The record of the node a step passed, its child on the path having root `hole`. -/
def frameRecord : LeftistHeap.Frame (NodeRef × α) → Link → Link → NodeRef × LeftistNode α
  | .left k x r, hole, parent => (x.1, ⟨x.2, hole, rootRef r, parent, k⟩)
  | .right k l x, hole, parent => (x.1, ⟨x.2, rootRef l, hole, parent, k⟩)

/-- The parent of the subtree at the end of a path, the whole tree hanging from `P`. -/
def holeParent (P : Link) : List (LeftistHeap.Frame (NodeRef × α)) → Link
  | [] => P
  | f :: _ => some f.top.1

/-- The records of the nodes along a path and beside it, the subtree at its end having root
`hole`. -/
def pathLayout (P : Link) :
    List (LeftistHeap.Frame (NodeRef × α)) → Link → List (NodeRef × LeftistNode α)
  | [], _ => []
  | f :: ctx, hole =>
    frameRecord f hole (holeParent P ctx) ::
      (layout (some f.top.1) f.other ++ pathLayout P ctx (some f.top.1))

variable {st st' : Arena (LeftistNode α)} {P : Link}

theorem rootRef_framePlug (f : LeftistHeap.Frame (NodeRef × α)) (s : LeftistHeap (NodeRef × α)) :
    rootRef (f.plug s) = some f.top.1 := by
  cases f <;> rfl

theorem rootRef_frameRebuild (d : Bool) (f : LeftistHeap.Frame (NodeRef × α))
    (s : LeftistHeap (NodeRef × α)) : rootRef (f.rebuild d s).1 = some f.top.1 := by
  cases f <;> cases d <;> simp [LeftistHeap.Frame.rebuild, LeftistHeap.rebuild, rootRef_restore] <;> rfl

theorem nodes_frameRebuild (d : Bool) (f : LeftistHeap.Frame (NodeRef × α))
    (s : LeftistHeap (NodeRef × α)) :
    (nodes (f.rebuild d s).1).Perm (f.top.1 :: (nodes f.other ++ nodes s)) := by
  cases f with
  | left k x r =>
    have h := (LeftistHeap.toList_rebuild d k s x r).map Prod.fst
    simp only [List.map_cons, List.map_append] at h
    exact h.trans (List.perm_append_comm.cons _)
  | right k l x =>
    have h := (LeftistHeap.toList_rebuild d k l x s).map Prod.fst
    simp only [List.map_cons, List.map_append] at h
    exact h

theorem stores_framePlug {f : LeftistHeap.Frame (NodeRef × α)} {s : LeftistHeap (NodeRef × α)}
    {q : Link} :
    Stores st q (f.plug s) ↔
      st.get f.top.1 = some (frameRecord f (rootRef s) q).2 ∧ Stores st (some f.top.1) s ∧
        Stores st (some f.top.1) f.other := by
  cases f with
  | left k x r => simp [LeftistHeap.Frame.plug, stores_node, frameRecord, LeftistHeap.Frame.top,
      LeftistHeap.Frame.other]
  | right k l x =>
    simp only [LeftistHeap.Frame.plug, stores_node, frameRecord, LeftistHeap.Frame.top,
      LeftistHeap.Frame.other]
    tauto

theorem frameRecord_fst (f : LeftistHeap.Frame (NodeRef × α)) (hole parent : Link) :
    (frameRecord f hole parent).1 = f.top.1 := by
  cases f <;> rfl

/-- A tree stored down a path: the records along and beside the path, and the subtree at its
end under the last node passed. -/
theorem stores_plug {ctx : List (LeftistHeap.Frame (NodeRef × α))} {s : LeftistHeap (NodeRef × α)} :
    Stores st P (LeftistHeap.plug ctx s) ↔
      (∀ e ∈ pathLayout P ctx (rootRef s), st.get e.1 = some e.2) ∧
        Stores st (holeParent P ctx) s := by
  induction ctx generalizing s with
  | nil => simp [pathLayout, holeParent]
  | cons f ctx ih =>
    rw [LeftistHeap.plug_cons, ih, rootRef_framePlug, stores_framePlug]
    simp only [pathLayout, holeParent, List.forall_mem_cons, List.forall_mem_append,
      frameRecord_fst]
    constructor
    · rintro ⟨hpath, hget, hs, hother⟩
      exact ⟨⟨hget, hother, hpath⟩, hs⟩
    · rintro ⟨⟨hget, hother, hpath⟩, hs⟩
      exact ⟨hpath, hget, hs, hother⟩

theorem map_fst_pathLayout (P : Link) :
    ∀ (ctx : List (LeftistHeap.Frame (NodeRef × α))) (hole : Link),
      (pathLayout P ctx hole).map Prod.fst = (LeftistHeap.pathItems ctx).map Prod.fst
  | [], _ => rfl
  | f :: ctx, _ => by
    simp only [pathLayout, List.map_cons, List.map_append, map_fst_layout, frameRecord_fst,
      map_fst_pathLayout P ctx, LeftistHeap.pathItems_cons, nodes]

theorem nodes_plug (ctx : List (LeftistHeap.Frame (NodeRef × α))) (s : LeftistHeap (NodeRef × α)) :
    (nodes (LeftistHeap.plug ctx s)).Perm ((LeftistHeap.pathItems ctx).map Prod.fst ++ nodes s) := by
  simpa [nodes] using (LeftistHeap.toList_plug ctx s).map Prod.fst

theorem nodes_climb (ctx : List (LeftistHeap.Frame (NodeRef × α))) (s : LeftistHeap (NodeRef × α))
    (d : Bool) :
    (nodes (LeftistHeap.climb ctx s d).1).Perm ((LeftistHeap.pathItems ctx).map Prod.fst ++ nodes s) := by
  simpa [nodes] using (LeftistHeap.toList_climb ctx s d).map Prod.fst

theorem rootRef_plug_cons (f : LeftistHeap.Frame (NodeRef × α))
    (ctx : List (LeftistHeap.Frame (NodeRef × α))) (s s' : LeftistHeap (NodeRef × α)) :
    rootRef (LeftistHeap.plug (f :: ctx) s) = rootRef (LeftistHeap.plug (f :: ctx) s') := by
  induction ctx generalizing f s s' with
  | nil => simp [rootRef_framePlug]
  | cons g ctx ih => exact ih g (f.plug s) (f.plug s')

/-- Climbing a path that is not empty keeps the root of the whole tree. -/
theorem rootRef_climb_cons (f : LeftistHeap.Frame (NodeRef × α))
    (ctx : List (LeftistHeap.Frame (NodeRef × α))) (s : LeftistHeap (NodeRef × α)) (d : Bool) :
    rootRef (LeftistHeap.climb (f :: ctx) s d).1 = rootRef (LeftistHeap.plug (f :: ctx) s) := by
  induction ctx generalizing f s d with
  | nil => simp [LeftistHeap.climb, rootRef_framePlug, rootRef_frameRebuild]
  | cons g ctx ih =>
    rw [LeftistHeap.climb, ih, LeftistHeap.plug_cons f (g :: ctx)]
    exact rootRef_plug_cons g ctx _ _

/-- The parent link stored at a tree's root. -/
theorem Stores.root_parent {t : LeftistHeap (NodeRef × α)} (hs : Stores st P t) {q : NodeRef}
    (hq : rootRef t = some q) : (st.get q).bind LeftistNode.parent = P := by
  cases t with
  | leaf => cases hq
  | node k l x r =>
    simp only [rootRef_node, Option.some.injEq] at hq
    subst hq
    simp [(stores_node.1 hs).1]

theorem get_replaceChild_of_ne {p r q : NodeRef} {l : Link} (hqp : q ≠ p) (hq : l ≠ some q) :
    (replaceChild st p r l).get q = st.get q := by
  cases l with
  | none => simp [replaceChild, Arena.get_modify, Ne.symm hqp]
  | some c =>
    have hcq : c ≠ q := fun h => hq (h ▸ rfl)
    simp [replaceChild, Arena.get_modify, Ne.symm hqp, hcq]

theorem get_replaceChild_parent {p r : NodeRef} {l : Link} (hl : l ≠ some p) :
    (replaceChild st p r l).get p = (st.get p).map fun m =>
      if m.left = some r then { m with left := l } else { m with right := l } := by
  cases l with
  | none => simp [replaceChild, Arena.get_modify]
  | some c =>
    have hcp : c ≠ p := fun h => hl (h ▸ rfl)
    simp [replaceChild, Arena.get_modify, hcp]

theorem get_replaceChild_child {p r c : NodeRef} (hcp : c ≠ p) :
    (replaceChild st p r (some c)).get c = (st.get c).map fun m => { m with parent := some p } := by
  simp [replaceChild, Arena.get_modify, Ne.symm hcp]

theorem edits_replaceChild (st : Arena (LeftistNode α)) (p r : NodeRef) (l : Link) :
    st.Edits (replaceChild st p r l) := by
  cases l with
  | none => exact Arena.edits_modify _ _ _
  | some c => exact (Arena.edits_modify _ _ _).trans (Arena.edits_modify _ _ _)

/-- Putting a tree in the child slot that held `r`, under the last node of a path, stores the
path with the new tree at its end, the ranks along the path as they were. Only that node and the
new tree's root change. -/
theorem stores_replaceChild {f : LeftistHeap.Frame (NodeRef × α)}
    {ctx : List (LeftistHeap.Frame (NodeRef × α))} {r : NodeRef} {s : LeftistHeap (NodeRef × α)}
    (hpath : ∀ e ∈ pathLayout P (f :: ctx) (some r), st.get e.1 = some e.2)
    (hs : Stores st none s)
    (hnd : ((LeftistHeap.pathItems (f :: ctx)).map Prod.fst ++ nodes s).Nodup)
    (hr : r ∉ (LeftistHeap.pathItems (f :: ctx)).map Prod.fst) :
    (∀ e ∈ pathLayout P (f :: ctx) (rootRef s),
        (replaceChild st f.top.1 r (rootRef s)).get e.1 = some e.2) ∧
      Stores (replaceChild st f.top.1 r (rootRef s)) (some f.top.1) s ∧
      ∀ q, q ≠ f.top.1 → q ∉ nodes s → (replaceChild st f.top.1 r (rootRef s)).get q = st.get q := by
  have hp : f.top.1 ∈ (LeftistHeap.pathItems (f :: ctx)).map Prod.fst := by simp
  have hps : f.top.1 ∉ nodes s := fun h => List.disjoint_of_nodup_append hnd hp h
  have hroot : rootRef s ≠ some f.top.1 := fun h => hps (mem_nodes_of_rootRef h)
  have hkeep : ∀ q, q ≠ f.top.1 → q ∉ nodes s →
      (replaceChild st f.top.1 r (rootRef s)).get q = st.get q :=
    fun q hqp hqs => get_replaceChild_of_ne hqp fun h => hqs (mem_nodes_of_rootRef h)
  refine ⟨fun e he => ?_, ?_, hkeep⟩
  · simp only [pathLayout, List.mem_cons, List.mem_append] at he
    rcases he with rfl | he
    · -- the node above: its child slot that held `r` now holds the new root
      have hget := hpath (frameRecord f (some r) (holeParent P ctx)) (by simp [pathLayout])
      rw [frameRecord_fst] at hget ⊢
      rw [get_replaceChild_parent hroot, hget]
      cases f with
      | left k x o => simp [frameRecord]
      | right k o x =>
        have hro : rootRef o ≠ some r := fun h => by
          apply hr
          rw [LeftistHeap.pathItems_cons, List.map_cons, List.map_append]
          exact List.mem_cons_of_mem _ (List.mem_append_left _ (mem_nodes_of_rootRef h))
        simp [frameRecord, hro]
    · -- the other records along and beside the path are as they were
      have he₁ : e.1 ∈ nodes f.other ++ (LeftistHeap.pathItems ctx).map Prod.fst := by
        rcases he with he | he
        · exact List.mem_append_left _ (map_fst_layout _ f.other ▸ List.mem_map_of_mem he)
        · exact List.mem_append_right _ (map_fst_pathLayout P ctx _ ▸ List.mem_map_of_mem he)
      have hpnd := hnd.of_append_left
      simp only [LeftistHeap.pathItems_cons, List.map_cons, List.map_append, List.nodup_cons] at hpnd
      have hin : e.1 ∈ (LeftistHeap.pathItems (f :: ctx)).map Prod.fst := by
        simp only [LeftistHeap.pathItems_cons, List.map_cons, List.map_append]
        exact List.mem_cons_of_mem _ he₁
      rw [hkeep e.1 (fun h => hpnd.1 (h ▸ he₁)) (List.disjoint_of_nodup_append hnd hin)]
      exact hpath e (by simp only [pathLayout, List.mem_cons, List.mem_append]; exact .inr he)
  · -- the new tree hangs from the node above
    cases s with
    | leaf => exact stores_leaf
    | node k l z o =>
      have hsnd := nodup_node_iff.1
        (show (nodes (.node k l z o) ++ ([] : List NodeRef)).Nodup by simpa using hnd.of_append_right)
      refine hs.reparent (get_replaceChild_child fun h => hps (by simp [nodes_node, h]))
        fun q hq => get_replaceChild_of_ne (fun h => hps ?_) fun h => ?_
      · rw [← h, nodes_node]
        exact List.mem_cons_of_mem _ hq
      · simp only [rootRef_node, Option.some.injEq] at h
        rw [h] at hsnd
        exact (List.mem_append.1 hq).elim hsnd.1 hsnd.2.1

end Path

section Climb

variable {st : Arena (LeftistNode α)}

theorem restoreUp_none (fuel : Nat) (st : Arena (LeftistNode α)) :
    restoreUp fuel st none = some st := by
  cases fuel <;> rfl

theorem restoreUp_some (fuel : Nat) (st : Arena (LeftistNode α)) (node : NodeRef) :
    restoreUp (fuel + 1) st (some node) =
      if (restoreRank st node).2 then
        restoreUp fuel (restoreRank st node).1
          (((restoreRank st node).1.get node).bind LeftistNode.parent)
      else some (restoreRank st node).1 := rfl

/-- Restoring the node a step passed stores the tree the step rebuilds. -/
theorem Stores.restoreFrame {Q : Link} {f : LeftistHeap.Frame (NodeRef × α)}
    {s : LeftistHeap (NodeRef × α)} (hs : Stores st Q (f.plug s))
    (hnd : f.top.1 ∉ nodes f.other ++ nodes s) :
    Stores (LeftistArena.restoreRank st f.top.1).1 Q (f.rebuild true s).1 ∧
      (LeftistArena.restoreRank st f.top.1).2 = (f.rebuild true s).2 := by
  cases f with
  | left k x r =>
    exact hs.restoreRank fun h => hnd (List.perm_append_comm.subset h)
  | right k l x => exact hs.restoreRank hnd

/-- The upward repair from the node above a new subtree, in a tree that hangs from no parent:
each node passed has its rank restored, and the loop stops after the first whose rank stays.
The arena then stores the tree `climb` builds; only the nodes along the path change. -/
theorem Stores.restoreUp : ∀ (ctx : List (LeftistHeap.Frame (NodeRef × α)))
    {s : LeftistHeap (NodeRef × α)} {st : Arena (LeftistNode α)} {fuel : Nat}, ctx.length ≤ fuel →
    (∀ e ∈ pathLayout none ctx (rootRef s), st.get e.1 = some e.2) →
    Stores st (holeParent none ctx) s →
    ((LeftistHeap.pathItems ctx).map Prod.fst ++ nodes s).Nodup →
    ∃ st', LeftistArena.restoreUp fuel st (holeParent none ctx) = some st' ∧
      Stores st' none (LeftistHeap.climb ctx s true).1 ∧
      (∀ q, q ∉ (LeftistHeap.pathItems ctx).map Prod.fst → st'.get q = st.get q) ∧ st.Edits st'
  | [], s, st, fuel, _, _, hs, _ => ⟨st, restoreUp_none fuel st, hs, fun _ _ => rfl, .refl _⟩
  | f :: ctx, s, st, fuel, hlen, hpath, hs, hnd => by
    obtain ⟨fuel, rfl⟩ : ∃ n, fuel = n + 1 := ⟨fuel - 1, by simp only [List.length_cons] at hlen; omega⟩
    simp only [pathLayout, List.forall_mem_cons, List.forall_mem_append, frameRecord_fst] at hpath
    obtain ⟨htop, hother, hrest⟩ := hpath
    have hnd' : (f.top.1 :: ((nodes f.other ++ (LeftistHeap.pathItems ctx).map Prod.fst) ++
        nodes s)).Nodup := by
      simpa [nodes, List.append_assoc] using hnd
    obtain ⟨hf, -⟩ := List.nodup_cons.1 hnd'
    have hfp : f.top.1 ∉ (LeftistHeap.pathItems ctx).map Prod.fst :=
      fun h => hf (List.mem_append_left _ (List.mem_append_right _ h))
    -- the node above the subtree is restored first
    have hplug : Stores st (holeParent none ctx) (f.plug s) :=
      stores_framePlug.2 ⟨htop, hs, fun e he => hother e he⟩
    have hfnd : f.top.1 ∉ nodes f.other ++ nodes s := fun h => (List.mem_append.1 h).elim
      (fun h => hf (List.mem_append_left _ (List.mem_append_left _ h)))
      (fun h => hf (List.mem_append_right _ h))
    obtain ⟨hst₁, hflag⟩ := hplug.restoreFrame hfnd
    have hkeep₁ : ∀ q, q ≠ f.top.1 → (LeftistArena.restoreRank st f.top.1).1.get q = st.get q :=
      fun q hq => get_restoreRank_of_ne hq
    have hrest₁ : ∀ e ∈ pathLayout none ctx (rootRef (f.rebuild true s).1),
        (LeftistArena.restoreRank st f.top.1).1.get e.1 = some e.2 := by
      rw [rootRef_frameRebuild]
      intro e he
      have hin : e.1 ∈ (LeftistHeap.pathItems ctx).map Prod.fst :=
        map_fst_pathLayout none ctx _ ▸ List.mem_map_of_mem he
      rw [hkeep₁ e.1 fun h => hfp (h ▸ hin)]
      exact hrest e he
    have hnd₁ : ((LeftistHeap.pathItems ctx).map Prod.fst ++ nodes (f.rebuild true s).1).Nodup := by
      refine ((nodes_frameRebuild true f s).append_left _).nodup_iff.2
        (List.perm_middle.nodup_iff.2 ((List.Perm.cons _ ?_).nodup_iff.2 hnd'))
      rw [← List.append_assoc]
      exact List.perm_append_comm.append_right _
    have hframe₁ : ∀ q, q ∉ (LeftistHeap.pathItems (f :: ctx)).map Prod.fst →
        (LeftistArena.restoreRank st f.top.1).1.get q = st.get q :=
      fun q hq => hkeep₁ q fun h => hq (by simp [h])
    rw [holeParent, restoreUp_some]
    cases hd : (f.rebuild true s).2 with
    | true =>
      -- the rank changed: the repair goes on from the parent, which the record names
      rw [if_pos (hflag.trans hd), hst₁.root_parent (rootRef_frameRebuild true f s)]
      obtain ⟨st', hrun, hst', hframe, he⟩ := Stores.restoreUp ctx
        (show ctx.length ≤ fuel by simp only [List.length_cons] at hlen; omega) hrest₁ hst₁ hnd₁
      refine ⟨st', hrun, by rw [LeftistHeap.climb, hd]; exact hst', fun q hq => ?_,
        (edits_restoreRank st f.top.1).trans he⟩
      rw [hframe q fun h => hq (by simp [h]), hframe₁ q hq]
    | false =>
      -- the rank stayed: the path above is stored as it was
      rw [if_neg (by rw [hflag, hd]; decide)]
      refine ⟨_, rfl, ?_, hframe₁, edits_restoreRank st f.top.1⟩
      rw [LeftistHeap.climb, hd, LeftistHeap.climb_false]
      exact stores_plug.2 ⟨hrest₁, hst₁⟩

end Climb

section Holds

/-- The arena holds exactly the detached trees `ts`, whose elements carry their node numbers: each
tree's records are stored, its root without a parent, and the live nodes are the nodes of the
trees, each once. -/
structure Holds (st : Arena (LeftistNode α)) (ts : List (LeftistHeap (NodeRef × α))) : Prop where
  owns : st.Owns (ts.flatMap nodes)
  stores : ∀ u ∈ ts, Stores st none u

variable {st st' : Arena (LeftistNode α)} {ts ts' : List (LeftistHeap (NodeRef × α))}

theorem Holds.perm (h : Holds st ts) (hp : ts.Perm ts') : Holds st ts' :=
  ⟨h.owns.perm (hp.flatMap_right nodes), fun u hu => h.stores u (hp.symm.subset hu)⟩

theorem Holds.transfer (h : Holds st ts) (he : st.Edits st')
    (hp : (ts.flatMap nodes).Perm (ts'.flatMap nodes)) (hs : ∀ u ∈ ts', Stores st' none u) :
    Holds st' ts' :=
  ⟨(h.owns.edits he).perm hp, hs⟩

/-- The two trees in front are melded into one, as `LeftistHeap.meld` does; the others stay. -/
theorem Holds.meld (prec : α → α → Bool) (a b : LeftistHeap (NodeRef × α))
    (rest : List (LeftistHeap (NodeRef × α))) (h : Holds st (a :: b :: rest)) :
    ∃ st', meld prec st (rootRef a) (rootRef b) =
        some (st', rootRef (LeftistHeap.meld (byItem prec) a b)) ∧
      Holds st' (LeftistHeap.meld (byItem prec) a b :: rest) := by
  have hnd := h.owns.nodup
  simp only [List.flatMap_cons] at hnd
  have hfuel : a.size + b.size ≤ st.slotCount := by
    have hlen := h.owns.length_le
    simp only [List.flatMap_cons, List.length_append, length_nodes] at hlen
    omega
  obtain ⟨st', hm, hs, hframe, he⟩ := Stores.meld prec (h.stores a (by simp))
    (h.stores b (by simp)) (by rw [← List.append_assoc] at hnd; exact hnd.of_append_left) hfuel
  refine ⟨st', hm, h.transfer he ?_ fun u hu => ?_⟩
  · simp only [List.flatMap_cons, ← List.append_assoc]
    exact ((nodes_meld _ a b).symm.append_right _)
  · rcases List.mem_cons.1 hu with rfl | hu
    · exact hs
    · refine (h.stores u (by simp [hu])).frame fun q hq => hframe q fun hq' => ?_
      rw [← List.append_assoc] at hnd
      exact List.disjoint_of_nodup_append hnd hq' (List.mem_flatMap.2 ⟨u, hu, hq⟩)

/-- A new node of rank 1 stored by `alloc` is a one-node tree after the others. -/
theorem Holds.alloc (h : Holds st ts) (x : α) (shared : Nat) :
    Holds (st.alloc ⟨x, none, none, none, 1⟩ shared).1
      (ts ++ [LeftistHeap.singleton ((st.alloc ⟨x, none, none, none, 1⟩ shared).2.1, x)]) := by
  obtain ⟨howns, hfresh⟩ := h.owns.alloc ⟨x, none, none, none, 1⟩ shared
  refine ⟨by simpa [LeftistHeap.singleton, nodes_node] using howns, fun u hu => ?_⟩
  rcases List.mem_append.1 hu with hu | hu
  · refine (h.stores u hu).frame fun q hq => ?_
    rw [h.owns.wf.get_alloc, if_neg (by rintro rfl; exact hfresh (List.mem_flatMap.2 ⟨u, hu, hq⟩))]
  · rw [List.mem_singleton] at hu
    subst hu
    refine stores_node.2 ⟨?_, stores_leaf, stores_leaf⟩
    rw [h.owns.wf.get_alloc, if_pos rfl]
    rfl

/-- Freeing the node of a loose one-node tree drops the tree. -/
theorem Holds.free {r : NodeRef} {x : α}
    (h : Holds st (ts ++ [LeftistHeap.singleton (r, x)])) (shared : Nat) :
    ∃ st' shared', st.free r shared = some (st', ⟨x, none, none, none, 1⟩, shared') ∧
      Holds st' ts := by
  have hget : st.get r = some ⟨x, none, none, none, 1⟩ :=
    (stores_node.1 (h.stores (LeftistHeap.singleton (r, x)) (by simp))).1
  have howns : st.Owns (ts.flatMap nodes ++ [r]) := by
    simpa [LeftistHeap.singleton, nodes_node] using h.owns
  obtain ⟨st', shared', hf, howns'⟩ := howns.free hget shared
  have hr : r ∉ ts.flatMap nodes := fun hm =>
    (List.nodup_append.1 howns.nodup).2.2 r hm r (List.mem_singleton_self r) rfl
  refine ⟨st', shared', hf, howns', fun u hu => (h.stores u (by simp [hu])).frame fun q hq => ?_⟩
  rw [Arena.get_free hf, if_neg (by rintro rfl; exact hr (List.mem_flatMap.2 ⟨u, hu, hq⟩))]

/-- Changing the element at the root of the last tree. -/
theorem Holds.setItem {k : Nat} {l r : LeftistHeap (NodeRef × α)} {x : NodeRef × α}
    (h : Holds st (ts ++ [.node k l x r])) (y : α) :
    Holds (st.modify x.1 fun m => { m with item := y }) (ts ++ [.node k l (x.1, y) r]) := by
  have hnd := h.owns.nodup
  simp only [List.flatMap_append, List.flatMap_cons, List.flatMap_nil, List.append_nil,
    nodes_node] at hnd
  have hx : x.1 ∉ ts.flatMap nodes := fun hm =>
    (List.nodup_append.1 hnd).2.2 x.1 hm x.1 (List.mem_cons_self) rfl
  have hxlr := (List.nodup_cons.1 (List.nodup_append.1 hnd).2.1).1
  refine h.transfer (Arena.edits_modify _ _ _) (by simp [nodes_node]) fun u hu => ?_
  rcases List.mem_append.1 hu with hu | hu
  · refine (h.stores u (List.mem_append_left _ hu)).frame fun q hq => ?_
    rw [Arena.get_modify, if_neg (by rintro rfl; exact hx (List.mem_flatMap.2 ⟨u, hu, hq⟩))]
  · rw [List.mem_singleton] at hu
    subst hu
    obtain ⟨hget, hl, hr⟩ := stores_node.1 (h.stores (.node k l x r) (by simp))
    refine stores_node.2 ⟨by simp [Arena.get_modify, hget], hl.frame fun q hq => ?_,
      hr.frame fun q hq => ?_⟩
    · rw [Arena.get_modify, if_neg (by rintro rfl; exact hxlr (List.mem_append_left _ hq))]
    · rw [Arena.get_modify, if_neg (by rintro rfl; exact hxlr (List.mem_append_right _ hq))]

end Holds

end LeftistArena

end PriorityQueues
