import Mathlib
import PriorityQueues.Proofs.SkewLinks
import PriorityQueues.Proofs.PairingReach

/-!
The operations of a skew heap in an arena keep its links: each one returns a heap that lays out
the tree the operation on `SkewHeap` builds, so every reachable heap passes `verify`.
-/

namespace PriorityQueues

namespace SkewHeap

variable {α β : Type}

/-- The tree with every element replaced by its image. -/
def map (f : α → β) : SkewHeap α → SkewHeap β
  | .leaf => .leaf
  | .node l x r => .node (l.map f) (f x) (r.map f)

@[simp]
theorem map_leaf (f : α → β) : (SkewHeap.leaf : SkewHeap α).map f = .leaf := rfl

@[simp]
theorem map_node (f : α → β) (l : SkewHeap α) (x : α) (r : SkewHeap α) :
    (SkewHeap.node l x r).map f = .node (l.map f) (f x) (r.map f) := rfl

theorem toList_map (f : α → β) (t : SkewHeap α) : (t.map f).toList = t.toList.map f := by
  induction t with
  | leaf => rfl
  | node l x r ihl ihr => simp [ihl, ihr]

/-- Order is kept by an image whose order is the pulled-back one. -/
theorem ordered_map {p : α → α → Bool} {q : β → β → Bool} {f : α → β}
    (hf : ∀ a b, q (f a) (f b) = p a b) (t : SkewHeap α) :
    (t.map f).ordered q = t.ordered p := by
  induction t with
  | leaf => rfl
  | node l x r ihl ihr =>
    cases l <;> cases r <;> simp_all [ordered]

end SkewHeap

namespace SkewArena

open PairingArena (byItem renumber)

variable {α : Type}

section Renumber

variable (m : NodeRef → NodeRef)

@[simp]
theorem rootRef_map (t : SkewHeap (NodeRef × α)) :
    rootRef (t.map (renumber m)) = (rootRef t).map m := by
  cases t <;> rfl

theorem nodes_map (t : SkewHeap (NodeRef × α)) :
    nodes (t.map (renumber m)) = (nodes t).map m := by
  simp [nodes, SkewHeap.toList_map, renumber]

theorem layout_map (p : Link) : ∀ t : SkewHeap (NodeRef × α),
    layout (p.map m) (t.map (renumber m)) =
      (layout p t).map fun e => (m e.1, Relink.relink m e.2)
  | .leaf => rfl
  | .node l x r => by
    simp only [SkewHeap.map_node, layout, List.map_cons, List.map_append, rootRef_map]
    rw [show some (renumber m x).1 = (some x.1).map m from rfl, layout_map (some x.1) l,
      layout_map (some x.1) r]
    rfl

/-- Stored trees are stored again, renumbered, wherever each node went with its links
rewritten. -/
theorem Stores.renumber {st st' : Arena (SkewNode α)} {p : Link} {t : SkewHeap (NodeRef × α)}
    (hm : ∀ q n, st.get q = some n → st'.get (m q) = some (Relink.relink m n))
    (hs : Stores st p t) : Stores st' (p.map m) (t.map (PairingArena.renumber m)) := by
  intro e he
  rw [layout_map, List.mem_map] at he
  obtain ⟨e₀, he₀, rfl⟩ := he
  exact hm _ _ (hs e₀ he₀)

end Renumber

section Moves

variable {a o : Arena (SkewNode α)} {ts os : List (SkewHeap (NodeRef × α))}

theorem flatMap_nodes_map (m : NodeRef → NodeRef) (ts : List (SkewHeap (NodeRef × α))) :
    (ts.map fun u => u.map (renumber m)).flatMap nodes = (ts.flatMap nodes).map m := by
  simp [List.flatMap_map, nodes_map, List.map_flatMap]

/-- Absorbing an arena moves its trees, renumbered, next to this arena's own. -/
theorem Holds.absorb (h : Holds a ts) (ho : Holds o os) :
    Holds (a.absorb o).1 (ts ++ os.map fun u => u.map (renumber (a.absorb o).2.get)) := by
  obtain ⟨-, -, -, hkeep, hmoved, -⟩ := h.owns.wf.absorb_spec o
  refine ⟨?_, fun u hu => ?_⟩
  · rw [List.flatMap_append, flatMap_nodes_map]
    exact h.owns.absorb ho.owns
  · rcases List.mem_append.1 hu with hu | hu
    · refine (h.stores u hu).frame fun q hq => ?_
      obtain ⟨n, hn⟩ := Option.isSome_iff_exists.1
        ((h.owns.live q).2 (List.mem_flatMap.2 ⟨u, hu, hq⟩))
      rw [hn, hkeep q n hn]
    · obtain ⟨u₀, hu₀, rfl⟩ := List.mem_map.1 hu
      exact Stores.renumber _ (fun q n hq => (hmoved q n hq).2) (ho.stores u₀ hu₀)

/-- A compacted copy holds the trees, renumbered. -/
theorem Holds.compacted (h : Holds a ts) (shared : Nat) :
    Holds (a.compacted shared).1.1 (ts.map fun u => u.map (renumber (a.compacted shared).1.2.get)) := by
  refine ⟨?_, fun u hu => ?_⟩
  · rw [flatMap_nodes_map]
    exact h.owns.compacted shared
  · obtain ⟨u₀, hu₀, rfl⟩ := List.mem_map.1 hu
    exact Stores.renumber _ (fun q n hq => Arena.compacted_get shared hq) (h.stores u₀ hu₀)

end Moves

section Walk

/-- The tree as the walk of `verify` sees it: each node over its children, left first. -/
def roseOf {β : Type} : SkewHeap β → List (PairingTree β)
  | .leaf => []
  | .node l x r => [.node x (roseOf l ++ roseOf r)]

theorem sizeList_roseOf {β : Type} (t : SkewHeap β) : PairingTree.sizeList (roseOf t) = t.size := by
  induction t with
  | leaf => rfl
  | node l x r ihl ihr =>
    simp only [roseOf, Arena.sizeList_eq_sum, List.map_cons, List.map_nil, List.sum_cons,
      List.sum_nil, PairingTree.size, List.map_append, List.sum_append] at ihl ihr ⊢
    simp only [SkewHeap.size]
    omega

theorem map_top_roseOf (t : SkewHeap (NodeRef × α)) :
    (roseOf t).map (fun c => c.top.1) = (rootRef t).toList := by
  cases t <;> rfl

/-- Every stored node in heap order passes the check of its children, so the walk goes down each
of them. -/
theorem walks_of_stores (prec : α → α → Bool) {st : Arena (SkewNode α)} :
    ∀ {t : SkewHeap (NodeRef × α)} {p : Link}, Stores st p t → t.ordered (byItem prec) = true →
      Arena.WalksList (checkChildren prec st) Prod.fst (roseOf t)
  | .leaf, _, _, _ => trivial
  | .node l x r, _, hs, hord => by
    obtain ⟨hx, hl, hr⟩ := stores_node.1 hs
    obtain ⟨hxl, hxr, hol, hor⟩ := SkewHeap.ordered_node_iff.1 hord
    -- a child points back to `x` and does not precede it
    have hchild : ∀ c : SkewHeap (NodeRef × α), Stores st (some x.1) c →
        SkewHeap.Below (byItem prec) x c →
        ∀ q ∈ (rootRef c).toList, (st.get q).any fun m => m.parent == some x.1 && !prec m.item x.2 := by
      intro c hc hxc q hq
      cases c with
      | leaf => simp at hq
      | node cl y cr =>
        simp only [rootRef_node, Option.toList_some, List.mem_singleton] at hq
        subst hq
        obtain ⟨hy, -, -⟩ := stores_node.1 hc
        simp only [SkewHeap.below_node, byItem] at hxc
        simp [hy, hxc]
    refine ⟨⟨?_, (Arena.walksList_iff).2 fun u hu => ?_⟩, trivial⟩
    · simp only [checkChildren, hx, List.map_append, map_top_roseOf]
      rw [if_pos]
      · cases rootRef l <;> cases rootRef r <;> rfl
      · simp only [List.all_eq_true]
        intro q hq
        have hq' : q ∈ (rootRef l).toList ++ (rootRef r).toList := by
          cases hl' : rootRef l <;> cases hr' : rootRef r <;> simp_all
        rcases List.mem_append.1 hq' with hq' | hq'
        · exact hchild l hl hxl q hq'
        · exact hchild r hr hxr q hq'
    · rcases List.mem_append.1 hu with hu | hu
      · exact (Arena.walksList_iff).1 (walks_of_stores prec hl hol) u hu
      · exact (Arena.walksList_iff).1 (walks_of_stores prec hr hor) u hu

end Walk

end SkewArena

namespace SkewArenaHeap

open SkewArena
open PairingArena (byItem renumber)

variable {α : Type}

/-- The arena and root of `h` hold exactly the tree `t`, whose elements carry their node
numbers. -/
structure Lays (h : SkewArenaHeap α) (t : SkewHeap (NodeRef × α)) : Prop where
  holds : Holds h.arena [t]
  root : h.root = rootRef t

variable (prec : α → α → Bool) {h : SkewArenaHeap α} {t : SkewHeap (NodeRef × α)}

section Operations

theorem lays_new (pool : ShellPool) : (new pool : SkewArenaHeap α).Lays .leaf :=
  ⟨⟨by simpa [new] using Arena.owns_new pool, by simp⟩, rfl⟩

theorem lays_clear (h : SkewArenaHeap α) (shared : Nat) : (h.clear shared).1.Lays .leaf :=
  ⟨⟨by simpa [clear] using Arena.owns_clear h.arena shared, by simp⟩, rfl⟩

theorem lays_emptyLike (h : SkewArenaHeap α) : h.emptyLike.Lays .leaf :=
  ⟨⟨by simpa [emptyLike, Arena.emptyLike] using Arena.owns_new h.arena.pool.fork, by simp⟩, rfl⟩

/-- A push stores the new element in a node of its own and melds it in after the tree. -/
theorem Lays.push (hl : h.Lays t) (x : α) (shared : Nat) :
    ∃ h' r shared', h.push prec x shared = some (h', r, shared') ∧
      h'.Lays (Meldable.insert (byItem prec) (r, x) t) := by
  have ha := hl.holds.alloc x shared
  generalize hr : (h.arena.alloc ⟨x, none, none, none⟩ shared).2.1 = r at ha
  obtain ⟨st', hm, hh⟩ := Holds.meld prec t (.node .leaf (r, x) .leaf) [] (by simpa using ha)
  refine ⟨⟨st', rootRef (SkewHeap.meld (byItem prec) t (.node .leaf (r, x) .leaf))⟩, r,
    (h.arena.alloc ⟨x, none, none, none⟩ shared).2.2, ?_, ?_⟩
  · simp only [SkewArenaHeap.push, hl.root, hr]
    rw [show some r = rootRef (.node .leaf (r, x) .leaf) from rfl, hm]
    rfl
  · show Lays _ (SkewHeap.meldIter _ _ _)
    rw [SkewHeap.meldIter_eq]
    exact ⟨hh, rfl⟩

/-- Detaching the node at the end of a path puts the meld of its subtrees in its place and leaves
the node loose, without links. -/
theorem Lays.detach (hl : h.Lays t) {ctx : List (SkewHeap.Frame (NodeRef × α))}
    {sl sr : SkewHeap (NodeRef × α)} {y : NodeRef × α}
    (ht : t = SkewHeap.plug ctx (.node sl y sr)) :
    ∃ h₁, h.detach prec y.1 = some h₁ ∧
      Holds h₁.arena
        [SkewHeap.plug ctx (SkewHeap.meld (byItem prec) sl sr), .node .leaf y .leaf] ∧
      h₁.root = rootRef (SkewHeap.plug ctx (SkewHeap.meld (byItem prec) sl sr)) := by
  subst ht
  obtain ⟨hpath, hsub⟩ := stores_plug.1 (hl.holds.stores _ (List.mem_singleton_self _))
  obtain ⟨hy, hsl, hsr⟩ := stores_node.1 hsub
  have hnd₀ := hl.holds.owns.nodup
  simp only [List.flatMap_cons, List.flatMap_nil, List.append_nil] at hnd₀
  have hnd : ((SkewHeap.pathItems ctx).map Prod.fst ++ (y.1 :: (nodes sl ++ nodes sr))).Nodup := by
    simpa [nodes_node] using (nodes_plug ctx _).nodup_iff.1 hnd₀
  have hyp : y.1 ∉ (SkewHeap.pathItems ctx).map Prod.fst := fun hm =>
    List.disjoint_of_nodup_append hnd hm List.mem_cons_self
  obtain ⟨hysub, hsubnd⟩ := List.nodup_cons.1 hnd.of_append_right
  -- the node's links are cleared first; its subtrees stay stored under it
  have hget₁ : ∀ q, q ≠ y.1 → (h.arena.modify y.1 fun m =>
      { m with left := none, right := none, parent := none }).get q = h.arena.get q :=
    fun q hq => by rw [Arena.get_modify, if_neg (Ne.symm hq)]
  have hsl₁ := hsl.frame fun q hq => hget₁ q fun he => hysub (List.mem_append_left _ (he ▸ hq))
  have hsr₁ := hsr.frame fun q hq => hget₁ q fun he => hysub (List.mem_append_right _ (he ▸ hq))
  have hfuel : sl.size + sr.size ≤ (h.arena.modify y.1 fun m =>
      { m with left := none, right := none, parent := none }).slotCount := by
    have hlen := hl.holds.owns.length_le
    simp only [List.flatMap_cons, List.flatMap_nil, List.append_nil] at hlen
    rw [(nodes_plug ctx _).length_eq] at hlen
    simp only [List.length_append, nodes_node, List.length_cons, length_nodes] at hlen
    simp only [Arena.slotCount, Arena.modify, Array.size_modify]
    exact le_trans (by omega) hlen
  obtain ⟨st₂, hm, hs₂, hframe₂, he₂⟩ := Stores.meld prec hsl₁ hsr₁ hsubnd hfuel
  have he := (Arena.edits_modify h.arena y.1 fun m : SkewNode α =>
    { m with left := none, right := none, parent := none }).trans he₂
  -- the node is loose, and the records along the path are as they were
  have hloose : st₂.get y.1 = some ⟨y.2, none, none, none⟩ := by
    rw [hframe₂ y.1 hysub, Arena.get_modify, if_pos rfl, hy]
    rfl
  have hpath₂ : ∀ e ∈ pathLayout none ctx (some y.1), st₂.get e.1 = some e.2 := by
    intro e he
    have hin : e.1 ∈ (SkewHeap.pathItems ctx).map Prod.fst :=
      map_fst_pathLayout none ctx _ ▸ List.mem_map_of_mem he
    rw [hframe₂ e.1 fun h' => List.disjoint_of_nodup_append hnd hin (List.mem_cons_of_mem _ h'),
      hget₁ e.1 fun h' => hyp (h' ▸ hin)]
    exact hpath e he
  have hperm : ([SkewHeap.plug ctx (.node sl y sr)].flatMap nodes).Perm
      ([SkewHeap.plug ctx (SkewHeap.meld (byItem prec) sl sr), .node .leaf y .leaf].flatMap nodes) := by
    simp only [List.flatMap_cons, List.flatMap_nil, List.append_nil, nodes_node, nodes_leaf]
    calc List.Perm (nodes (SkewHeap.plug ctx (.node sl y sr)))
          ((SkewHeap.pathItems ctx).map Prod.fst ++ (y.1 :: (nodes sl ++ nodes sr))) := by
          simpa [nodes_node] using nodes_plug ctx (.node sl y sr)
      List.Perm _ ((SkewHeap.pathItems ctx).map Prod.fst ++
          nodes (SkewHeap.meld (byItem prec) sl sr) ++ [y.1]) := by
          rw [List.append_assoc]
          exact ((List.perm_append_singleton _ _).symm.trans
            ((nodes_meld _ sl sr).symm.append_right _)).append_left _
      List.Perm _ (nodes (SkewHeap.plug ctx (SkewHeap.meld (byItem prec) sl sr)) ++ [y.1]) :=
          (nodes_plug ctx _).symm.append_right _
  cases ctx with
  | nil =>
    refine ⟨⟨st₂, rootRef (SkewHeap.meld (byItem prec) sl sr)⟩, ?_, ?_, rfl⟩
    · simp only [SkewArenaHeap.detach, hy, Option.bind_some, holeParent]
      rw [hm]
      rfl
    · refine hl.holds.transfer he hperm fun u hu => ?_
      simp only [List.mem_cons, List.not_mem_nil, or_false] at hu
      rcases hu with rfl | rfl
      · exact hs₂
      · exact stores_node.2 ⟨hloose, stores_leaf, stores_leaf⟩
  | cons f ctx =>
    -- the meld goes into the parent's slot that held the node
    have hmeld := (nodes_meld (byItem prec) sl sr).nodup_iff.2 hsubnd
    have hnd' : ((SkewHeap.pathItems (f :: ctx)).map Prod.fst ++
        nodes (SkewHeap.meld (byItem prec) sl sr)).Nodup :=
      (((nodes_meld _ sl sr).append_left _).nodup_iff.2
        (hnd.sublist (List.Sublist.append_left (List.sublist_cons_self _ _) _)))
    obtain ⟨hst, hkeep⟩ := stores_replaceChild hpath₂ hs₂ hnd' hyp
    refine ⟨⟨replaceChild st₂ f.top.1 y.1 (rootRef (SkewHeap.meld (byItem prec) sl sr)), h.root⟩,
      ?_, ?_, ?_⟩
    · simp only [SkewArenaHeap.detach, hy, Option.bind_some, holeParent]
      rw [hm]
      rfl
    · refine hl.holds.transfer (he.trans (edits_replaceChild _ _ _ _)) hperm fun u hu => ?_
      simp only [List.mem_cons, List.not_mem_nil, or_false] at hu
      rcases hu with rfl | rfl
      · exact hst
      · refine stores_node.2 ⟨?_, stores_leaf, stores_leaf⟩
        exact (hkeep y.1 (fun h' => hyp (h' ▸ by simp)) fun h' =>
          hysub ((nodes_meld _ sl sr).subset h')).trans hloose
    · rw [hl.root]
      exact rootRef_plug_cons f ctx _ _

theorem Lays.nodup (hl : h.Lays t) : (nodes t).Nodup := by
  simpa using hl.holds.owns.nodup

/-- The node a search by number finds is the one at the end of its path. -/
theorem cut_at {ctx : List (SkewHeap.Frame (NodeRef × α))} {sl sr : SkewHeap (NodeRef × α)}
    {y : NodeRef × α} (hnd : (nodes (SkewHeap.plug ctx (.node sl y sr))).Nodup) :
    SkewHeap.cut (byItem prec) (fun e => e.1 == y.1) (SkewHeap.plug ctx (.node sl y sr)) =
      some (y, SkewHeap.plug ctx (SkewHeap.meldIter (byItem prec) sl sr)) := by
  have hnd' := (nodes_plug ctx _).nodup_iff.1 hnd
  rw [SkewHeap.cut_plug _ ctx _ fun e he => ?_, SkewHeap.cut_node, if_pos (by simp)]
  · rfl
  · rw [beq_eq_false_iff_ne]
    intro he'
    exact List.disjoint_of_nodup_append hnd' (List.mem_map_of_mem he)
      (he' ▸ by simp [nodes_node])

/-- Retiring a node detaches it, as `cut` takes it out of the tree, and frees it. -/
theorem Lays.retire (hl : h.Lays t) {r : NodeRef} (hr : r ∈ nodes t) (shared : Nat) :
    ∃ x h' shared' t', h.retire prec r shared = some (x, h', shared') ∧
      Meldable.extract (byItem prec) (fun e => e.1 == r) t = some ((r, x), t') ∧ h'.Lays t' := by
  obtain ⟨y, hy, rfl⟩ := List.mem_map.1 hr
  obtain ⟨ctx, sl, sr, ht⟩ := SkewHeap.exists_plug_of_mem hy
  obtain ⟨h₁, hd, hh₁, hroot₁⟩ := hl.detach prec ht
  obtain ⟨st', shared', hf, hh'⟩ :=
    Holds.free (show Holds h₁.arena ([SkewHeap.plug ctx (SkewHeap.meld (byItem prec) sl sr)] ++
      [.node .leaf (y.1, y.2) .leaf]) from hh₁) shared
  refine ⟨y.2, ⟨st', h₁.root⟩, shared', SkewHeap.plug ctx (SkewHeap.meldIter (byItem prec) sl sr),
    ?_, ?_, ?_, ?_⟩
  · simp only [SkewArenaHeap.retire, hd, Option.bind_some, hf, Option.map_some]
  · rw [ht]
    exact cut_at prec (ht ▸ hl.nodup)
  · rw [SkewHeap.meldIter_eq]
    exact hh'
  · rw [hroot₁, SkewHeap.meldIter_eq]

/-- Popping retires the root: its subtrees are melded, as `popTop` does. -/
theorem Lays.pop (hl : h.Lays t) {l r : SkewHeap (NodeRef × α)} {x : NodeRef × α}
    (ht : t = .node l x r) (shared : Nat) :
    ∃ h' shared', h.pop prec shared = some (x.2, h', shared') ∧
      h'.Lays (SkewHeap.meldIter (byItem prec) l r) := by
  obtain ⟨x', h', shared', t', hret, hcut, hl'⟩ := hl.retire prec
    (show x.1 ∈ nodes t by simp [ht, nodes_node]) shared
  have hcut' := cut_at prec
    (show (nodes (SkewHeap.plug [] (.node l x r))).Nodup by rw [SkewHeap.plug_nil, ← ht]; exact hl.nodup)
  simp only [SkewHeap.plug_nil] at hcut'
  rw [ht] at hcut
  rw [show Meldable.extract (byItem prec) (fun e => e.1 == x.1) (SkewHeap.node l x r) =
    SkewHeap.cut (byItem prec) (fun e => e.1 == x.1) (.node l x r) from rfl, hcut'] at hcut
  simp only [Option.some.injEq, Prod.mk.injEq] at hcut
  obtain ⟨hx, rfl⟩ := hcut
  have hx' : x.2 = x' := by rw [hx]
  refine ⟨h', shared', ?_, hl'⟩
  rw [SkewArenaHeap.pop, hl.root, ht, rootRef_node, Option.bind_some, hret, hx']

theorem Lays.pop_eq_none (hl : h.Lays .leaf) (shared : Nat) : h.pop prec shared = none := by
  simp [SkewArenaHeap.pop, hl.root]

/-- Reprioritizing changes the root in place when its element does not get worse, and otherwise
detaches the node and melds it back alone, as `SkewHeap.reprioritize` does. -/
theorem Lays.reprioritize (hl : h.Lays t) {r : NodeRef} (hr : r ∈ nodes t) (f : α → α) :
    ∃ h', h.reprioritize prec r f = some h' ∧
      h'.Lays (Meldable.reprioritize (byItem prec) (fun e => e.1 == r) (fun e => (e.1, f e.2)) t) := by
  obtain ⟨y, hy, rfl⟩ := List.mem_map.1 hr
  obtain ⟨ctx, sl, sr, ht⟩ := SkewHeap.exists_plug_of_mem hy
  obtain ⟨n, hn, hni⟩ := (hl.holds.stores t (by simp)).get_item hy
  cases t with
  | leaf => simp at hy
  | node l0 x0 r0 =>
  obtain ⟨hx0, -, -⟩ := stores_node.1 (hl.holds.stores _ (List.mem_singleton_self _))
  -- the arena's test for the in-place change is the tree's
  have hcond : (!prec n.item (f n.item) && decide (h.root = some y.1)) =
      ((x0.1 == y.1) && !byItem prec x0 (x0.1, f x0.2)) := by
    by_cases hxy : x0.1 = y.1
    · have hitem : n.item = x0.2 := by
        rw [← hxy, hx0, Option.some.injEq] at hn
        rw [← hn]
      simp [hl.root, hxy, byItem, hitem]
    · simp [hl.root, hxy]
  by_cases hw : ((x0.1 == y.1) && !byItem prec x0 (x0.1, f x0.2)) = true
  · -- no worse at the root: changed in place
    have hxy : x0.1 = y.1 := by
      simp only [Bool.and_eq_true, beq_iff_eq] at hw
      exact hw.1
    have hitem : n.item = x0.2 := by
      rw [← hxy, hx0, Option.some.injEq] at hn
      rw [← hn]
    have hs := Holds.setItem (show Holds h.arena ([] ++ [.node l0 x0 r0]) from hl.holds) (f x0.2)
    have habs : Meldable.reprioritize (byItem prec) (fun e => e.1 == y.1) (fun e => (e.1, f e.2))
        (SkewHeap.node l0 x0 r0) = .node l0 (x0.1, f x0.2) r0 := by
      rw [show Meldable.reprioritize (byItem prec) (fun e => e.1 == y.1) (fun e => (e.1, f e.2))
        (SkewHeap.node l0 x0 r0) = SkewHeap.reprioritize (byItem prec) (fun e => e.1 == y.1)
          (fun e => (e.1, f e.2)) (.node l0 x0 r0) from rfl, SkewHeap.reprioritize, if_pos hw]
    rw [habs]
    refine ⟨⟨h.arena.modify x0.1 fun m => { m with item := f x0.2 }, h.root⟩, ?_,
      by simpa using hs, by rw [hl.root]; rfl⟩
    simp only [SkewArenaHeap.reprioritize, hn, Option.bind_some]
    rw [if_pos (hcond ▸ hw), hitem, hxy]
  · -- detached and melded back alone
    have habs : Meldable.reprioritize (byItem prec) (fun e => e.1 == y.1) (fun e => (e.1, f e.2))
        (SkewHeap.node l0 x0 r0) = SkewHeap.meldIter (byItem prec)
          (SkewHeap.plug ctx (SkewHeap.meldIter (byItem prec) sl sr)) (.node .leaf (y.1, f y.2) .leaf) := by
      rw [show Meldable.reprioritize (byItem prec) (fun e => e.1 == y.1) (fun e => (e.1, f e.2))
        (SkewHeap.node l0 x0 r0) = SkewHeap.reprioritize (byItem prec) (fun e => e.1 == y.1)
          (fun e => (e.1, f e.2)) (.node l0 x0 r0) from rfl, SkewHeap.reprioritize, if_neg hw, ht,
        cut_at prec (ht ▸ hl.nodup)]
    obtain ⟨h₁, hd, hh₁, hroot₁⟩ := hl.detach prec ht
    have hs := Holds.setItem (show Holds h₁.arena
      ([SkewHeap.plug ctx (SkewHeap.meld (byItem prec) sl sr)] ++ [.node .leaf y .leaf]) from hh₁)
      (f y.2)
    obtain ⟨st', hm, hh'⟩ := Holds.meld prec (SkewHeap.plug ctx (SkewHeap.meld (byItem prec) sl sr))
      (.node .leaf (y.1, f y.2) .leaf) [] (by simpa using hs)
    rw [habs, SkewHeap.meldIter_eq, SkewHeap.meldIter_eq]
    refine ⟨⟨st', _⟩, ?_, hh', rfl⟩
    simp only [SkewArenaHeap.reprioritize, hn, Option.bind_some]
    rw [if_neg (hcond ▸ hw), hd, Option.bind_some, hni, hroot₁,
      show some y.1 = rootRef (.node .leaf (y.1, f y.2) .leaf) from rfl, hm]
    rfl

/-- Absorbing a heap melds in its tree, renumbered where its nodes went. -/
theorem Lays.absorb {o : SkewArenaHeap α} {s : SkewHeap (NodeRef × α)} (hl : h.Lays t)
    (ho : o.Lays s) :
    ∃ h', h.absorb prec o = some (h', (h.arena.absorb o.arena).2) ∧
      h'.Lays (Meldable.meld (byItem prec) t
        (s.map (renumber (h.arena.absorb o.arena).2.get))) := by
  have hh := hl.holds.absorb ho.holds
  obtain ⟨st', hm, hh'⟩ := Holds.meld prec t (s.map (renumber (h.arena.absorb o.arena).2.get)) []
    (by simpa using hh)
  refine ⟨⟨st', rootRef (SkewHeap.meld (byItem prec) t
    (s.map (renumber (h.arena.absorb o.arena).2.get)))⟩, ?_, ?_⟩
  · simp only [SkewArenaHeap.absorb, hl.root, Remap.link, ho.root]
    rw [← rootRef_map, hm]
    rfl
  · show Lays _ (SkewHeap.meldIter _ _ _)
    rw [SkewHeap.meldIter_eq]
    exact ⟨hh', rfl⟩

/-- A duplicate lays out the same tree, renumbered where compaction put its nodes. -/
theorem Lays.duplicate (hl : h.Lays t) (shared : Nat) :
    (h.duplicate shared).1.1.Lays (t.map (renumber (h.arena.compacted shared).1.2.get)) := by
  refine ⟨by simpa [SkewArenaHeap.duplicate] using hl.holds.compacted shared, ?_⟩
  simp [SkewArenaHeap.duplicate, Remap.link, hl.root]

theorem Lays.mem_of_retire (hl : h.Lays t) {r : NodeRef} {shared : Nat}
    {res : α × SkewArenaHeap α × Nat} (hret : h.retire prec r shared = some res) :
    r ∈ nodes t := by
  rw [← show r ∈ [t].flatMap nodes ↔ r ∈ nodes t by simp, ← hl.holds.owns.live r]
  cases hget : h.arena.get r with
  | none => simp [SkewArenaHeap.retire, SkewArenaHeap.detach, hget] at hret
  | some n => rfl

theorem Lays.mem_of_reprioritize (hl : h.Lays t) {r : NodeRef} {f : α → α}
    {h' : SkewArenaHeap α} (hre : h.reprioritize prec r f = some h') : r ∈ nodes t := by
  rw [← show r ∈ [t].flatMap nodes ↔ r ∈ nodes t by simp, ← hl.holds.owns.live r]
  cases hget : h.arena.get r with
  | none => simp [SkewArenaHeap.reprioritize, hget] at hre
  | some n => rfl

theorem Lays.len_eq (hl : h.Lays t) : h.arena.len = t.size := by
  rw [Arena.len, hl.holds.owns.wf.live_eq_length hl.holds.owns.nodup hl.holds.owns.live]
  simp [length_nodes]

theorem Lays.root_parent (hl : h.Lays t) {r : NodeRef} {n : SkewNode α} (hr : h.root = some r)
    (hn : h.arena.get r = some n) : n.parent = none := by
  cases t with
  | leaf => simp [hl.root] at hr
  | node l x rr =>
    rw [hl.root, rootRef_node, Option.some.injEq] at hr
    subst hr
    -- the root is stored as a tree of its own, without a parent
    obtain ⟨hget, -, -⟩ := stores_node.1 (hl.holds.stores _ (List.mem_singleton_self _))
    rw [hn, Option.some.injEq] at hget
    rw [hget]

/-- A laid-out tree in heap order passes `verify`: the root has no parent, and the walk checks
every child and counts every live node. -/
theorem Lays.verify (hl : h.Lays t) (hord : t.ordered (byItem prec) = true) :
    h.verify prec = true := by
  have hlen := hl.len_eq
  cases t with
  | leaf => simp [SkewArenaHeap.verify, hl.root, hlen, SkewHeap.size]
  | node l x r =>
    have hs := hl.holds.stores _ (List.mem_singleton_self _)
    obtain ⟨hget, -, -⟩ := stores_node.1 hs
    have hsize : PairingTree.sizeList (roseOf (.node l x r)) ≤ h.arena.slotCount := by
      rw [sizeList_roseOf, ← hlen]
      exact hl.holds.owns.wf.live_le_size
    have hwalk := Arena.walkCount_eq h.arena.slotCount _ 0 (walks_of_stores prec hs hord) hsize
    rw [map_top_roseOf, sizeList_roseOf] at hwalk
    simp only [SkewArenaHeap.verify, hl.root, rootRef_node, hget, Option.isNone_none,
      Bool.true_and]
    rw [show (rootRef (.node l x r)).toList = [x.1] from rfl] at hwalk
    rw [hwalk, hlen]
    simp

end Operations

/-- The heaps that operations build from new ones: pushes, pops, retiring or reprioritizing a
node, clears, absorbing another such heap, duplicates, and the empty heap `take` leaves behind. -/
inductive Reachable : SkewArenaHeap α → Prop
  | new (pool : ShellPool) : Reachable (SkewArenaHeap.new pool)
  | push {h h' : SkewArenaHeap α} {x : α} {shared shared' : Nat} {r : NodeRef} :
      Reachable h → h.push prec x shared = some (h', r, shared') → Reachable h'
  | pop {h h' : SkewArenaHeap α} {x : α} {shared shared' : Nat} :
      Reachable h → h.pop prec shared = some (x, h', shared') → Reachable h'
  | retire {h h' : SkewArenaHeap α} {r : NodeRef} {x : α} {shared shared' : Nat} :
      Reachable h → h.retire prec r shared = some (x, h', shared') → Reachable h'
  | reprioritize {h h' : SkewArenaHeap α} {r : NodeRef} {f : α → α} :
      Reachable h → h.reprioritize prec r f = some h' → Reachable h'
  | clear {h : SkewArenaHeap α} (shared : Nat) : Reachable h → Reachable (h.clear shared).1
  | absorb {h o h' : SkewArenaHeap α} {m : Remap} :
      Reachable h → Reachable o → h.absorb prec o = some (h', m) → Reachable h'
  | duplicate {h : SkewArenaHeap α} (shared : Nat) :
      Reachable h → Reachable (h.duplicate shared).1.1
  | emptyLike {h : SkewArenaHeap α} : Reachable h → Reachable h.emptyLike

variable {prec}

/-- Every reachable heap lays out a skew heap in heap order. -/
theorem Reachable.lays (hp : StrictWeakOrder prec) {h : SkewArenaHeap α} (hr : h.Reachable prec) :
    ∃ t : SkewHeap (NodeRef × α), h.Lays t ∧ t.ordered (byItem prec) = true := by
  have hp' := PairingArena.strictWeakOrder_byItem hp
  induction hr with
  | new pool => exact ⟨.leaf, lays_new pool, rfl⟩
  | push _ hpush ih =>
    obtain ⟨t, hl, ho⟩ := ih
    obtain ⟨h', r, shared', hpush', hl'⟩ := hl.push prec _ _
    rw [hpush] at hpush'
    simp only [Option.some.injEq, Prod.mk.injEq] at hpush'
    obtain ⟨rfl, rfl, -⟩ := hpush'
    refine ⟨_, hl', ?_⟩
    show (SkewHeap.meldIter _ _ _).ordered _ = true
    rw [SkewHeap.meldIter_eq]
    exact SkewHeap.ordered_meld hp' ho (SkewHeap.ordered_single _)
  | pop _ hpop ih =>
    obtain ⟨t, hl, ho⟩ := ih
    cases t with
    | leaf => simp [hl.pop_eq_none prec] at hpop
    | node l x r =>
      obtain ⟨h', shared', hpop', hl'⟩ := hl.pop prec rfl _
      rw [hpop] at hpop'
      simp only [Option.some.injEq, Prod.mk.injEq] at hpop'
      obtain ⟨-, rfl, -⟩ := hpop'
      obtain ⟨-, -, hol, hor⟩ := SkewHeap.ordered_node_iff.1 ho
      refine ⟨_, hl', ?_⟩
      rw [SkewHeap.meldIter_eq]
      exact SkewHeap.ordered_meld hp' hol hor
  | retire _ hret ih =>
    obtain ⟨t, hl, ho⟩ := ih
    obtain ⟨x, h', shared', t', hret', hext, hl'⟩ := hl.retire prec (hl.mem_of_retire prec hret) _
    rw [hret] at hret'
    simp only [Option.some.injEq, Prod.mk.injEq] at hret'
    obtain ⟨-, rfl, -⟩ := hret'
    exact ⟨t', hl', (SkewHeap.ordered_of_cut hp' ho hext).1⟩
  | reprioritize _ hre ih =>
    obtain ⟨t, hl, ho⟩ := ih
    obtain ⟨h', hre', hl'⟩ := hl.reprioritize prec (hl.mem_of_reprioritize prec hre) _
    rw [hre] at hre'
    cases hre'
    exact ⟨_, hl', SkewHeap.ordered_reprioritize hp' _ _ ho⟩
  | clear shared _ _ => exact ⟨.leaf, lays_clear _ shared, rfl⟩
  | absorb _ _ habs ih ih' =>
    obtain ⟨t, hl, ho⟩ := ih
    obtain ⟨s, hs, hso⟩ := ih'
    obtain ⟨h', habs', hl'⟩ := hl.absorb prec hs
    rw [habs] at habs'
    simp only [Option.some.injEq, Prod.mk.injEq] at habs'
    obtain ⟨rfl, -⟩ := habs'
    refine ⟨_, hl', ?_⟩
    show (SkewHeap.meldIter _ _ _).ordered _ = true
    rw [SkewHeap.meldIter_eq]
    exact SkewHeap.ordered_meld hp' ho
      ((SkewHeap.ordered_map (PairingArena.byItem_renumber _ prec) s).trans hso)
  | duplicate shared _ ih =>
    obtain ⟨t, hl, ho⟩ := ih
    exact ⟨_, hl.duplicate shared,
      (SkewHeap.ordered_map (PairingArena.byItem_renumber _ prec) t).trans ho⟩
  | emptyLike _ _ => exact ⟨.leaf, lays_emptyLike _, rfl⟩

/-- Every reachable skew heap keeps its links: the root has no parent, and the child and parent
links lay out a heap-ordered tree whose nodes occur once each and are exactly the live nodes, so
`verify` accepts it. Pushing always succeeds, and so do retiring and reprioritizing a live
node. -/
theorem reachable_skew_heap_keeps_links (hp : StrictWeakOrder prec) {h : SkewArenaHeap α}
    (hr : h.Reachable prec) :
    (∀ r n, h.root = some r → h.arena.get r = some n → n.parent = none) ∧
      (∃ t : SkewHeap (NodeRef × α), h.root = rootRef t ∧ Stores h.arena none t ∧
        t.ordered (byItem prec) = true ∧ (nodes t).Nodup ∧
        (∀ q, (h.arena.get q).isSome ↔ q ∈ nodes t) ∧ h.verify prec = true) ∧
      (∀ x shared, (h.push prec x shared).isSome) ∧
      ∀ r, (h.arena.get r).isSome → ∀ shared f,
        (h.retire prec r shared).isSome ∧ (h.reprioritize prec r f).isSome := by
  obtain ⟨t, hl, ho⟩ := hr.lays hp
  have hlive : ∀ q, (h.arena.get q).isSome ↔ q ∈ nodes t := fun q => by
    simpa using hl.holds.owns.live q
  refine ⟨fun r n hr hn => hl.root_parent hr hn,
    ⟨t, hl.root, hl.holds.stores t (List.mem_singleton_self _), ho, hl.nodup, hlive,
      hl.verify prec ho⟩, fun x shared => ?_, fun r hr shared f => ⟨?_, ?_⟩⟩
  · obtain ⟨_, _, _, hpush, -⟩ := hl.push prec x shared
    simp [hpush]
  · obtain ⟨_, _, _, _, hret, -⟩ := hl.retire prec ((hlive r).1 hr) shared
    simp [hret]
  · obtain ⟨_, hre, -⟩ := hl.reprioritize prec ((hlive r).1 hr) f
    simp [hre]

/-- Pushes `x` into `h`, keeping `h` if the push gives up. -/
def samplePush (h : SkewArenaHeap Int) (x : Int) : SkewArenaHeap Int :=
  ((h.push Ranking.ascending.precedes x 0).map (·.1)).getD h

/-- Pushes 5, 3 and 8, lifts 8 to 1 below the root, and retires the node of 5. -/
def liftedSkew : SkewArenaHeap Int :=
  let h := samplePush (samplePush (samplePush (new (.own 0)) 5) 3) 8
  let h' := (h.reprioritize Ranking.ascending.precedes ⟨2⟩ fun _ => 1).getD h
  ((h'.retire Ranking.ascending.precedes ⟨0⟩ 0).map fun r => r.2.1).getD h'

theorem skew_heap_keeps_links_after_lift_and_retire :
    (∀ r n, liftedSkew.root = some r → liftedSkew.arena.get r = some n → n.parent = none) ∧
      (∃ t : SkewHeap (NodeRef × Int), liftedSkew.root = rootRef t ∧
        Stores liftedSkew.arena none t ∧ t.ordered (byItem Ranking.ascending.precedes) = true ∧
        (nodes t).Nodup ∧ (∀ q, (liftedSkew.arena.get q).isSome ↔ q ∈ nodes t) ∧
        liftedSkew.verify Ranking.ascending.precedes = true) ∧
      (∀ x shared, (liftedSkew.push Ranking.ascending.precedes x shared).isSome) ∧
      ∀ r, (liftedSkew.arena.get r).isSome → ∀ shared f,
        (liftedSkew.retire Ranking.ascending.precedes r shared).isSome ∧
          (liftedSkew.reprioritize Ranking.ascending.precedes r f).isSome := by
  have h₁ : (samplePush (new (.own 0)) 5).Reachable Ranking.ascending.precedes := .push (.new _) rfl
  have h₂ : (samplePush (samplePush (new (.own 0)) 5) 3).Reachable Ranking.ascending.precedes :=
    .push (x := 3) h₁ (show _ = some (_, ⟨1⟩, 0) from rfl)
  have h₃ : (samplePush (samplePush (samplePush (new (.own 0)) 5) 3) 8).Reachable Ranking.ascending.precedes :=
    .push (x := 8) h₂ (show _ = some (_, ⟨2⟩, 0) from rfl)
  have h₄ : Reachable Ranking.ascending.precedes
      (((samplePush (samplePush (samplePush (new (.own 0)) 5) 3) 8).reprioritize Ranking.ascending.precedes
        ⟨2⟩ fun _ => 1).getD (samplePush (samplePush (samplePush (new (.own 0)) 5) 3) 8)) :=
    .reprioritize (r := ⟨2⟩) (f := fun _ => 1) h₃ rfl
  exact reachable_skew_heap_keeps_links (Ranking.strictWeakOrder .ascending)
    (.retire (r := ⟨0⟩) (x := 5) h₄ (show _ = some (_, _, 0) from rfl))

end SkewArenaHeap

end PriorityQueues
