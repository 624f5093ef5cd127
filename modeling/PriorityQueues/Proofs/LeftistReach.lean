import Mathlib
import PriorityQueues.Proofs.LeftistLinks
import PriorityQueues.Proofs.PairingReach

/-!
The operations of a leftist heap in an arena keep its links and ranks: each one returns a heap that
lays out the tree the operation on `LeftistHeap` builds, so every node of a reachable heap meets the
rules `verify` checks, and `verify` accepts it.
-/

namespace PriorityQueues

namespace LeftistHeap

variable {α β : Type}

/-- The tree with every element replaced by its image. -/
def map (f : α → β) : LeftistHeap α → LeftistHeap β
  | .leaf => .leaf
  | .node k l x r => .node k (l.map f) (f x) (r.map f)

@[simp]
theorem map_leaf (f : α → β) : (LeftistHeap.leaf : LeftistHeap α).map f = .leaf := rfl

@[simp]
theorem map_node (f : α → β) (k : Nat) (l : LeftistHeap α) (x : α) (r : LeftistHeap α) :
    (LeftistHeap.node k l x r).map f = .node k (l.map f) (f x) (r.map f) := rfl

theorem toList_map (f : α → β) (t : LeftistHeap α) : (t.map f).toList = t.toList.map f := by
  induction t with
  | leaf => rfl
  | node k l x r ihl ihr => simp [ihl, ihr]

@[simp]
theorem rank_map (f : α → β) (t : LeftistHeap α) : (t.map f).rank = t.rank := by
  cases t <;> rfl

theorem below_map {p : α → α → Bool} {q : β → β → Bool} {f : α → β}
    (hf : ∀ a b, q (f a) (f b) = p a b) (z : α) (t : LeftistHeap α) :
    Below q (f z) (t.map f) ↔ Below p z t := by
  cases t <;> simp [hf]

/-- Order and ranks are kept by an image whose order is the pulled-back one. -/
theorem ordered_map {p : α → α → Bool} {q : β → β → Bool} {f : α → β}
    (hf : ∀ a b, q (f a) (f b) = p a b) (t : LeftistHeap α) :
    (t.map f).ordered q = t.ordered p := by
  induction t with
  | leaf => rfl
  | node k l x r ihl ihr =>
    rw [Bool.eq_iff_iff, map_node, ordered_node_iff, ordered_node_iff, ihl, ihr, below_map hf,
      below_map hf, rank_map, rank_map]

end LeftistHeap

namespace LeftistArena

open PairingArena (byItem renumber)

variable {α : Type}

section Renumber

variable (m : NodeRef → NodeRef)

@[simp]
theorem rootRef_map (t : LeftistHeap (NodeRef × α)) :
    rootRef (t.map (renumber m)) = (rootRef t).map m := by
  cases t <;> rfl

theorem nodes_map (t : LeftistHeap (NodeRef × α)) :
    nodes (t.map (renumber m)) = (nodes t).map m := by
  simp [nodes, LeftistHeap.toList_map, renumber]

theorem layout_map (p : Link) : ∀ t : LeftistHeap (NodeRef × α),
    layout (p.map m) (t.map (renumber m)) =
      (layout p t).map fun e => (m e.1, Relink.relink m e.2)
  | .leaf => rfl
  | .node k l x r => by
    simp only [LeftistHeap.map_node, layout, List.map_cons, List.map_append, rootRef_map]
    rw [show some (renumber m x).1 = (some x.1).map m from rfl, layout_map (some x.1) l,
      layout_map (some x.1) r]
    rfl

/-- Stored trees are stored again, renumbered, wherever each node went with its links
rewritten. -/
theorem Stores.renumber {st st' : Arena (LeftistNode α)} {p : Link} {t : LeftistHeap (NodeRef × α)}
    (hm : ∀ q n, st.get q = some n → st'.get (m q) = some (Relink.relink m n))
    (hs : Stores st p t) : Stores st' (p.map m) (t.map (PairingArena.renumber m)) := by
  intro e he
  rw [layout_map, List.mem_map] at he
  obtain ⟨e₀, he₀, rfl⟩ := he
  exact hm _ _ (hs e₀ he₀)

end Renumber

section Moves

variable {a o : Arena (LeftistNode α)} {ts os : List (LeftistHeap (NodeRef × α))}

theorem flatMap_nodes_map (m : NodeRef → NodeRef) (ts : List (LeftistHeap (NodeRef × α))) :
    (ts.map fun u => u.map (renumber m)).flatMap nodes = (ts.flatMap nodes).map m := by
  simp [List.flatMap_map, nodes_map, List.map_flatMap]

/-- Absorbing an arena moves its trees, renumbered, next to this arena's own. -/
theorem Holds.absorb (h : Holds a ts) (ho : Holds o os) :
    Holds (a.absorb o).1 (ts ++ os.map fun u => u.map (renumber (a.absorb o).2.get)) := by
  obtain ⟨-, -, -, hkeep, hmoved, -⟩ := h.owns.wf.absorb_spec o
  refine ⟨?_, fun u hu => ?_⟩
  · rw [List.flatMap_append, flatMap_nodes_map]
    exact h.owns.absorb ho.owns
  · rcases List.mem_append.1 hu with hu | hu
    · refine (h.stores u hu).frame fun q hq => ?_
      obtain ⟨n, hn⟩ := Option.isSome_iff_exists.1
        ((h.owns.live q).2 (List.mem_flatMap.2 ⟨u, hu, hq⟩))
      rw [hn, hkeep q n hn]
    · obtain ⟨u₀, hu₀, rfl⟩ := List.mem_map.1 hu
      exact Stores.renumber _ (fun q n hq => (hmoved q n hq).2) (ho.stores u₀ hu₀)

/-- A compacted copy holds the trees, renumbered. -/
theorem Holds.compacted (h : Holds a ts) (shared : Nat) :
    Holds (a.compacted shared).1.1
      (ts.map fun u => u.map (renumber (a.compacted shared).1.2.get)) := by
  refine ⟨?_, fun u hu => ?_⟩
  · rw [flatMap_nodes_map]
    exact h.owns.compacted shared
  · obtain ⟨u₀, hu₀, rfl⟩ := List.mem_map.1 hu
    exact Stores.renumber _ (fun q n hq => Arena.compacted_get shared hq) (h.stores u₀ hu₀)

end Moves

section Walk

/-- What `verify` checks at one node: the left child's rank is at least the right one's, the
node's rank is one more than the right one's, and each child points back to the node and does not
strictly precede it. -/
def NodeRules (prec : α → α → Bool) (st : Arena (LeftistNode α)) (q : NodeRef) (n : LeftistNode α) :
    Prop :=
  rankOf st n.right ≤ rankOf st n.left ∧ n.rank = rankOf st n.right + 1 ∧
    ∀ c ∈ [n.left, n.right].filterMap id,
      ∃ m, st.get c = some m ∧ m.parent = some q ∧ prec m.item n.item = false

variable (prec : α → α → Bool) {st : Arena (LeftistNode α)}

theorem checkChildren_of_rules {q : NodeRef} {n : LeftistNode α} (hn : st.get q = some n)
    (hr : NodeRules prec st q n) :
    checkChildren prec st q = some ([n.left, n.right].filterMap id) := by
  obtain ⟨hrank, hk, hcs⟩ := hr
  have hcheck : ([n.left, n.right].filterMap id).all
      (fun c => (st.get c).any fun m => m.parent == some q && !prec m.item n.item) = true := by
    rw [List.all_eq_true]
    intro c hc
    obtain ⟨m, hm, hp, hprec⟩ := hcs c hc
    simp [hm, hp, hprec]
  simp only [checkChildren, hn]
  rw [if_neg (by simp [hk]; omega), if_pos hcheck]

/-- Every node of a stored tree in heap order, with the leftist rule and exact ranks, meets the
rules `verify` checks. -/
theorem Stores.nodeRules : ∀ {t : LeftistHeap (NodeRef × α)} {p : Link}, Stores st p t →
    t.ordered (byItem prec) = true → ∀ e ∈ layout p t, NodeRules prec st e.1 e.2
  | .leaf, _, _, _, e, he => by simp [layout] at he
  | .node k l x r, p, hs, hord, e, he => by
    obtain ⟨hx, hl, hr⟩ := stores_node.1 hs
    obtain ⟨hrl, hk, hxl, hxr, hol, hor⟩ := LeftistHeap.ordered_node_iff.1 hord
    simp only [layout, List.mem_cons, List.mem_append] at he
    rcases he with rfl | he | he
    · -- the node itself: its ranks are the tree's, and each child hangs below it
      have hchild : ∀ c : LeftistHeap (NodeRef × α), Stores st (some x.1) c →
          LeftistHeap.Below (byItem prec) x c → ∀ q ∈ (rootRef c).toList,
            ∃ m, st.get q = some m ∧ m.parent = some x.1 ∧ prec m.item x.2 = false := by
        intro c hc hxc q hq
        cases c with
        | leaf => simp at hq
        | node kc cl y cr =>
          simp only [rootRef_node, Option.toList_some, List.mem_singleton] at hq
          subst hq
          exact ⟨_, (stores_node.1 hc).1, rfl, hxc⟩
      refine ⟨by rw [hl.rankOf, hr.rankOf]; exact hrl, by rw [hr.rankOf]; exact hk, ?_⟩
      intro c hc
      have hc' : c ∈ (rootRef l).toList ++ (rootRef r).toList := by
        cases hl' : rootRef l <;> cases hr' : rootRef r <;> simp_all
      rcases List.mem_append.1 hc' with hc' | hc'
      · exact hchild l hl hxl c hc'
      · exact hchild r hr hxr c hc'
    · exact Stores.nodeRules hl hol e he
    · exact Stores.nodeRules hr hor e he

/-- The tree as the walk of `verify` sees it: each node over its children, left first. -/
def roseOf {β : Type} : LeftistHeap β → List (PairingTree β)
  | .leaf => []
  | .node _ l x r => [.node x (roseOf l ++ roseOf r)]

theorem sizeList_roseOf {β : Type} (t : LeftistHeap β) :
    PairingTree.sizeList (roseOf t) = t.size := by
  induction t with
  | leaf => rfl
  | node k l x r ihl ihr =>
    simp only [roseOf, Arena.sizeList_eq_sum, List.map_cons, List.map_nil, List.sum_cons,
      List.sum_nil, PairingTree.size, List.map_append, List.sum_append] at ihl ihr ⊢
    simp only [LeftistHeap.size]
    omega

theorem map_top_roseOf (t : LeftistHeap (NodeRef × α)) :
    (roseOf t).map (fun c => c.top.1) = (rootRef t).toList := by
  cases t <;> rfl

/-- Every node of a stored tree meeting its rules pushes its children, so the walk goes down each
of them. -/
theorem walks_of_stores : ∀ {t : LeftistHeap (NodeRef × α)} {p : Link}, Stores st p t →
    t.ordered (byItem prec) = true → Arena.WalksList (checkChildren prec st) Prod.fst (roseOf t)
  | .leaf, _, _, _ => trivial
  | .node k l x r, p, hs, hord => by
    obtain ⟨hx, hl, hr⟩ := stores_node.1 hs
    obtain ⟨-, -, -, -, hol, hor⟩ := LeftistHeap.ordered_node_iff.1 hord
    have hrules := hs.nodeRules prec hord _ List.mem_cons_self
    refine ⟨⟨?_, (Arena.walksList_iff).2 fun u hu => ?_⟩, trivial⟩
    · rw [checkChildren_of_rules prec hx hrules, List.map_append, map_top_roseOf,
        map_top_roseOf]
      cases rootRef l <;> cases rootRef r <;> rfl
    · rcases List.mem_append.1 hu with hu | hu
      · exact (Arena.walksList_iff).1 (walks_of_stores hl hol) u hu
      · exact (Arena.walksList_iff).1 (walks_of_stores hr hor) u hu

end Walk

end LeftistArena

namespace LeftistArenaHeap

open LeftistArena
open PairingArena (byItem renumber)

variable {α : Type}

/-- The arena and root of `h` hold exactly the tree `t`, whose elements carry their node
numbers. -/
structure Lays (h : LeftistArenaHeap α) (t : LeftistHeap (NodeRef × α)) : Prop where
  holds : Holds h.arena [t]
  root : h.root = rootRef t

variable (prec : α → α → Bool) {h : LeftistArenaHeap α} {t : LeftistHeap (NodeRef × α)}

section Operations

theorem lays_new (pool : ShellPool) : (new pool : LeftistArenaHeap α).Lays .leaf :=
  ⟨⟨by simpa [new] using Arena.owns_new pool, by simp⟩, rfl⟩

theorem lays_clear (h : LeftistArenaHeap α) (shared : Nat) : (h.clear shared).1.Lays .leaf :=
  ⟨⟨by simpa [clear] using Arena.owns_clear h.arena shared, by simp⟩, rfl⟩

theorem lays_emptyLike (h : LeftistArenaHeap α) : h.emptyLike.Lays .leaf :=
  ⟨⟨by simpa [emptyLike, Arena.emptyLike] using Arena.owns_new h.arena.pool.fork, by simp⟩, rfl⟩

theorem Lays.nodup (hl : h.Lays t) : (nodes t).Nodup := by
  simpa using hl.holds.owns.nodup

/-- A push stores the new element in a node of rank 1 and melds it in after the tree. -/
theorem Lays.push (hl : h.Lays t) (x : α) (shared : Nat) :
    ∃ h' r shared', h.push prec x shared = some (h', r, shared') ∧
      h'.Lays (Meldable.insert (byItem prec) (r, x) t) := by
  have ha := hl.holds.alloc x shared
  generalize hr : (h.arena.alloc ⟨x, none, none, none, 1⟩ shared).2.1 = r at ha
  obtain ⟨st', hm, hh⟩ := Holds.meld prec t (LeftistHeap.singleton (r, x)) [] (by simpa using ha)
  refine ⟨⟨st', rootRef (LeftistHeap.meld (byItem prec) t (LeftistHeap.singleton (r, x)))⟩, r,
    (h.arena.alloc ⟨x, none, none, none, 1⟩ shared).2.2, ?_, ⟨hh, rfl⟩⟩
  simp only [LeftistArenaHeap.push, hl.root, hr]
  rw [show some r = rootRef (LeftistHeap.singleton (r, x)) from rfl, hm]
  rfl

/-- Detaching the node at the end of a path puts the meld of its subtrees in its place, restores
the ranks above while they change, and leaves the node loose, of rank 1, without links. -/
theorem Lays.detach (hl : h.Lays t) {ctx : List (LeftistHeap.Frame (NodeRef × α))} {k : Nat}
    {sl sr : LeftistHeap (NodeRef × α)} {y : NodeRef × α}
    (ht : t = LeftistHeap.plug ctx (.node k sl y sr)) :
    ∃ h₁, h.detach prec y.1 = some h₁ ∧
      Holds h₁.arena [(LeftistHeap.climb ctx (LeftistHeap.meld (byItem prec) sl sr) true).1,
        LeftistHeap.singleton y] ∧
      h₁.root = rootRef (LeftistHeap.climb ctx (LeftistHeap.meld (byItem prec) sl sr) true).1 := by
  subst ht
  obtain ⟨hpath, hsub⟩ := stores_plug.1 (hl.holds.stores _ (List.mem_singleton_self _))
  obtain ⟨hy, hsl, hsr⟩ := stores_node.1 hsub
  have hnd₀ := hl.holds.owns.nodup
  simp only [List.flatMap_cons, List.flatMap_nil, List.append_nil] at hnd₀
  have hnd : ((LeftistHeap.pathItems ctx).map Prod.fst ++ (y.1 :: (nodes sl ++ nodes sr))).Nodup := by
    simpa [nodes_node] using (nodes_plug ctx _).nodup_iff.1 hnd₀
  have hyp : y.1 ∉ (LeftistHeap.pathItems ctx).map Prod.fst := fun hm =>
    List.disjoint_of_nodup_append hnd hm List.mem_cons_self
  obtain ⟨hysub, hsubnd⟩ := List.nodup_cons.1 hnd.of_append_right
  -- the node's links are cleared and its rank reset first; its subtrees stay stored under it
  have hget₁ : ∀ q, q ≠ y.1 → (h.arena.modify y.1 fun m =>
      { m with left := none, right := none, parent := none, rank := 1 }).get q = h.arena.get q :=
    fun q hq => by rw [Arena.get_modify, if_neg (Ne.symm hq)]
  have hsl₁ := hsl.frame fun q hq => hget₁ q fun he => hysub (List.mem_append_left _ (he ▸ hq))
  have hsr₁ := hsr.frame fun q hq => hget₁ q fun he => hysub (List.mem_append_right _ (he ▸ hq))
  have he₁ := Arena.edits_modify h.arena y.1 fun m : LeftistNode α =>
    { m with left := none, right := none, parent := none, rank := 1 }
  have hlen : (nodes (LeftistHeap.plug ctx (.node k sl y sr))).length ≤ (h.arena.modify y.1 fun m =>
      { m with left := none, right := none, parent := none, rank := 1 }).slotCount := by
    have := (hl.holds.owns.edits he₁).length_le
    simpa using this
  have hfuel : sl.size + sr.size ≤ (h.arena.modify y.1 fun m =>
      { m with left := none, right := none, parent := none, rank := 1 }).slotCount := by
    rw [(nodes_plug ctx _).length_eq] at hlen
    simp only [List.length_append, nodes_node, List.length_cons, length_nodes] at hlen
    omega
  obtain ⟨st₂, hm, hs₂, hframe₂, he₂⟩ := Stores.meld prec hsl₁ hsr₁ hsubnd hfuel
  have he := he₁.trans he₂
  -- the node is loose, and the records along the path are as they were
  have hloose : st₂.get y.1 = some ⟨y.2, none, none, none, 1⟩ := by
    rw [hframe₂ y.1 hysub, Arena.get_modify, if_pos rfl, hy]
    rfl
  have hpath₂ : ∀ e ∈ pathLayout none ctx (some y.1), st₂.get e.1 = some e.2 := by
    intro e he
    have hin : e.1 ∈ (LeftistHeap.pathItems ctx).map Prod.fst :=
      map_fst_pathLayout none ctx _ ▸ List.mem_map_of_mem he
    rw [hframe₂ e.1 fun h' => List.disjoint_of_nodup_append hnd hin (List.mem_cons_of_mem _ h'),
      hget₁ e.1 fun h' => hyp (h' ▸ hin)]
    exact hpath e he
  have hperm : ([LeftistHeap.plug ctx (.node k sl y sr)].flatMap nodes).Perm
      ([(LeftistHeap.climb ctx (LeftistHeap.meld (byItem prec) sl sr) true).1,
        LeftistHeap.singleton y].flatMap nodes) := by
    simp only [List.flatMap_cons, List.flatMap_nil, List.append_nil, LeftistHeap.singleton,
      nodes_node, nodes_leaf, List.append_nil]
    calc List.Perm (nodes (LeftistHeap.plug ctx (.node k sl y sr)))
          ((LeftistHeap.pathItems ctx).map Prod.fst ++ (y.1 :: (nodes sl ++ nodes sr))) := by
          simpa [nodes_node] using nodes_plug ctx (.node k sl y sr)
      List.Perm _ ((LeftistHeap.pathItems ctx).map Prod.fst ++
          nodes (LeftistHeap.meld (byItem prec) sl sr) ++ [y.1]) := by
          rw [List.append_assoc]
          exact ((List.perm_append_singleton _ _).symm.trans
            ((nodes_meld _ sl sr).symm.append_right _)).append_left _
      List.Perm _ (nodes (LeftistHeap.climb ctx (LeftistHeap.meld (byItem prec) sl sr) true).1 ++
          [y.1]) :=
          (nodes_climb ctx _ true).symm.append_right _
  have hmeld := (nodes_meld (byItem prec) sl sr).nodup_iff.2 hsubnd
  cases ctx with
  | nil =>
    refine ⟨⟨st₂, rootRef (LeftistHeap.meld (byItem prec) sl sr)⟩, ?_, ?_, rfl⟩
    · simp only [LeftistArenaHeap.detach, hy, Option.bind_some, holeParent]
      rw [hm]
      rfl
    · refine hl.holds.transfer he hperm fun u hu => ?_
      simp only [List.mem_cons, List.not_mem_nil, or_false] at hu
      rcases hu with rfl | rfl
      · exact hs₂
      · exact stores_node.2 ⟨hloose, stores_leaf, stores_leaf⟩
  | cons f ctx =>
    -- the meld goes into the parent's slot that held the node, and the repair climbs from there
    have hnd' : ((LeftistHeap.pathItems (f :: ctx)).map Prod.fst ++
        nodes (LeftistHeap.meld (byItem prec) sl sr)).Nodup :=
      (((nodes_meld _ sl sr).append_left _).nodup_iff.2
        (hnd.sublist (List.Sublist.append_left (List.sublist_cons_self _ _) _)))
    obtain ⟨hpath₃, hs₃, hkeep₃⟩ := stores_replaceChild hpath₂ hs₂ hnd' hyp
    have hctx : (f :: ctx).length ≤ st₂.slotCount := by
      have hsize : st₂.slotCount = (h.arena.modify y.1 fun m =>
          { m with left := none, right := none, parent := none, rank := 1 }).slotCount :=
        Arena.size_of_sameShape he₂.shape
      rw [(nodes_plug _ _).length_eq, List.length_append, List.length_map] at hlen
      have := LeftistHeap.length_le_pathItems (f :: ctx)
      omega
    obtain ⟨st₄, hup, hs₄, hframe₄, he₄⟩ := Stores.restoreUp (f :: ctx) hctx hpath₃ hs₃ hnd'
    refine ⟨⟨st₄, h.root⟩, ?_, ?_, ?_⟩
    · simp only [LeftistArenaHeap.detach, hy, Option.bind_some, holeParent]
      rw [hm]
      simp only [Option.bind_some]
      rw [show some f.top.1 = holeParent none (f :: ctx) from rfl, hup]
      rfl
    · refine hl.holds.transfer ((he.trans (edits_replaceChild _ _ _ _)).trans he₄) hperm
        fun u hu => ?_
      simp only [List.mem_cons, List.not_mem_nil, or_false] at hu
      rcases hu with rfl | rfl
      · exact hs₄
      · refine stores_node.2 ⟨?_, stores_leaf, stores_leaf⟩
        rw [hframe₄ y.1 hyp, hkeep₃ y.1 (fun h' => hyp (h' ▸ by simp)) fun h' =>
          hysub ((nodes_meld _ sl sr).subset h')]
        exact hloose
    · rw [hl.root, rootRef_climb_cons]
      exact rootRef_plug_cons f ctx _ _

/-- The node a search by number finds is the one at the end of its path; the tree is climbed back
from the meld of its subtrees. -/
theorem cut_at {ctx : List (LeftistHeap.Frame (NodeRef × α))} {k : Nat}
    {sl sr : LeftistHeap (NodeRef × α)} {y : NodeRef × α}
    (hnd : (nodes (LeftistHeap.plug ctx (.node k sl y sr))).Nodup) :
    LeftistHeap.cut (byItem prec) (fun e => e.1 == y.1) (LeftistHeap.plug ctx (.node k sl y sr)) =
      some (y, LeftistHeap.climb ctx (LeftistHeap.meld (byItem prec) sl sr) true) := by
  have hnd' := (nodes_plug ctx _).nodup_iff.1 hnd
  rw [LeftistHeap.cut_plug _ ctx _ fun e he => ?_, LeftistHeap.cut_node, if_pos (by simp)]
  · rfl
  · rw [beq_eq_false_iff_ne]
    intro he'
    exact List.disjoint_of_nodup_append hnd' (List.mem_map_of_mem he)
      (he' ▸ by simp [nodes_node])

/-- Retiring a node detaches it, as `cut` takes it out of the tree, and frees it. -/
theorem Lays.retire (hl : h.Lays t) {r : NodeRef} (hr : r ∈ nodes t) (shared : Nat) :
    ∃ x h' shared' t', h.retire prec r shared = some (x, h', shared') ∧
      Meldable.extract (byItem prec) (fun e => e.1 == r) t = some ((r, x), t') ∧ h'.Lays t' := by
  obtain ⟨y, hy, rfl⟩ := List.mem_map.1 hr
  obtain ⟨ctx, k, sl, sr, ht⟩ := LeftistHeap.exists_plug_of_mem hy
  obtain ⟨h₁, hd, hh₁, hroot₁⟩ := hl.detach prec ht
  obtain ⟨st', shared', hf, hh'⟩ :=
    Holds.free (show Holds h₁.arena
      ([(LeftistHeap.climb ctx (LeftistHeap.meld (byItem prec) sl sr) true).1] ++
        [LeftistHeap.singleton (y.1, y.2)]) from hh₁) shared
  refine ⟨y.2, ⟨st', h₁.root⟩, shared',
    (LeftistHeap.climb ctx (LeftistHeap.meld (byItem prec) sl sr) true).1, ?_, ?_, hh', hroot₁⟩
  · simp only [LeftistArenaHeap.retire, hd, Option.bind_some, hf, Option.map_some]
  · rw [ht]
    show Option.map _ (LeftistHeap.cut _ _ _) = _
    rw [cut_at prec (ht ▸ hl.nodup)]
    rfl

/-- Popping retires the root: its subtrees are melded, as `popTop` does. -/
theorem Lays.pop (hl : h.Lays t) {k : Nat} {l r : LeftistHeap (NodeRef × α)} {x : NodeRef × α}
    (ht : t = .node k l x r) (shared : Nat) :
    ∃ h' shared', h.pop prec shared = some (x.2, h', shared') ∧
      h'.Lays (LeftistHeap.meld (byItem prec) l r) := by
  obtain ⟨x', h', shared', t', hret, hcut, hl'⟩ := hl.retire prec
    (show x.1 ∈ nodes t by simp [ht, nodes_node]) shared
  have hcut' := cut_at prec
    (show (nodes (LeftistHeap.plug [] (.node k l x r))).Nodup by
      rw [LeftistHeap.plug_nil, ← ht]; exact hl.nodup)
  simp only [LeftistHeap.plug_nil, LeftistHeap.climb] at hcut'
  rw [ht] at hcut
  rw [show Meldable.extract (byItem prec) (fun e => e.1 == x.1) (LeftistHeap.node k l x r) =
    (LeftistHeap.cut (byItem prec) (fun e => e.1 == x.1) (.node k l x r)).map
      (fun c => (c.1, c.2.1)) from rfl, hcut'] at hcut
  simp only [Option.map_some, Option.some.injEq, Prod.mk.injEq] at hcut
  obtain ⟨hx, rfl⟩ := hcut
  have hx' : x.2 = x' := by rw [hx]
  refine ⟨h', shared', ?_, hl'⟩
  rw [LeftistArenaHeap.pop, hl.root, ht, rootRef_node, Option.bind_some, hret, hx']

theorem Lays.pop_eq_none (hl : h.Lays .leaf) (shared : Nat) : h.pop prec shared = none := by
  simp [LeftistArenaHeap.pop, hl.root]

/-- Reprioritizing changes the root in place when its element does not get worse, and otherwise
detaches the node and melds it back alone, as `LeftistHeap.reprioritize` does. -/
theorem Lays.reprioritize (hl : h.Lays t) {r : NodeRef} (hr : r ∈ nodes t) (f : α → α) :
    ∃ h', h.reprioritize prec r f = some h' ∧
      h'.Lays (Meldable.reprioritize (byItem prec) (fun e => e.1 == r) (fun e => (e.1, f e.2)) t) := by
  obtain ⟨y, hy, rfl⟩ := List.mem_map.1 hr
  obtain ⟨ctx, k, sl, sr, ht⟩ := LeftistHeap.exists_plug_of_mem hy
  obtain ⟨n, hn, hni⟩ := (hl.holds.stores t (by simp)).get_item hy
  cases t with
  | leaf => simp at hy
  | node k0 l0 x0 r0 =>
  obtain ⟨hx0, -, -⟩ := stores_node.1 (hl.holds.stores _ (List.mem_singleton_self _))
  -- the arena's test for the in-place change is the tree's
  have hcond : (!prec n.item (f n.item) && decide (h.root = some y.1)) =
      ((x0.1 == y.1) && !byItem prec x0 (x0.1, f x0.2)) := by
    by_cases hxy : x0.1 = y.1
    · have hitem : n.item = x0.2 := by
        rw [← hxy, hx0, Option.some.injEq] at hn
        rw [← hn]
      simp [hl.root, hxy, byItem, hitem]
    · simp [hl.root, hxy]
  have habs : Meldable.reprioritize (byItem prec) (fun e => e.1 == y.1) (fun e => (e.1, f e.2))
      (LeftistHeap.node k0 l0 x0 r0) = LeftistHeap.reprioritize (byItem prec) (fun e => e.1 == y.1)
        (fun e => (e.1, f e.2)) (.node k0 l0 x0 r0) := rfl
  by_cases hw : ((x0.1 == y.1) && !byItem prec x0 (x0.1, f x0.2)) = true
  · -- no worse at the root: changed in place
    have hxy : x0.1 = y.1 := by
      simp only [Bool.and_eq_true, beq_iff_eq] at hw
      exact hw.1
    have hitem : n.item = x0.2 := by
      rw [← hxy, hx0, Option.some.injEq] at hn
      rw [← hn]
    have hs := Holds.setItem (show Holds h.arena ([] ++ [.node k0 l0 x0 r0]) from hl.holds) (f x0.2)
    rw [habs, LeftistHeap.reprioritize, if_pos hw]
    refine ⟨⟨h.arena.modify x0.1 fun m => { m with item := f x0.2 }, h.root⟩, ?_,
      by simpa using hs, by rw [hl.root]; rfl⟩
    simp only [LeftistArenaHeap.reprioritize, hn, Option.bind_some]
    rw [if_pos (hcond ▸ hw), hitem, hxy]
  · -- detached and melded back alone
    rw [habs, LeftistHeap.reprioritize, if_neg hw, ht, cut_at prec (ht ▸ hl.nodup)]
    obtain ⟨h₁, hd, hh₁, hroot₁⟩ := hl.detach prec ht
    have hs := Holds.setItem (show Holds h₁.arena
      ([(LeftistHeap.climb ctx (LeftistHeap.meld (byItem prec) sl sr) true).1] ++
        [.node 1 .leaf y .leaf]) from hh₁) (f y.2)
    obtain ⟨st', hm, hh'⟩ := Holds.meld prec
      (LeftistHeap.climb ctx (LeftistHeap.meld (byItem prec) sl sr) true).1
      (LeftistHeap.singleton (y.1, f y.2)) [] (by simpa [LeftistHeap.singleton] using hs)
    refine ⟨⟨st', _⟩, ?_, hh', rfl⟩
    simp only [LeftistArenaHeap.reprioritize, hn, Option.bind_some]
    rw [if_neg (hcond ▸ hw), hd, Option.bind_some, hni, hroot₁,
      show some y.1 = rootRef (LeftistHeap.singleton (y.1, f y.2)) from rfl, hm]
    rfl

/-- Absorbing a heap melds in its tree, renumbered where its nodes went. -/
theorem Lays.absorb {o : LeftistArenaHeap α} {s : LeftistHeap (NodeRef × α)} (hl : h.Lays t)
    (ho : o.Lays s) :
    ∃ h', h.absorb prec o = some (h', (h.arena.absorb o.arena).2) ∧
      h'.Lays (Meldable.meld (byItem prec) t
        (s.map (renumber (h.arena.absorb o.arena).2.get))) := by
  have hh := hl.holds.absorb ho.holds
  obtain ⟨st', hm, hh'⟩ := Holds.meld prec t (s.map (renumber (h.arena.absorb o.arena).2.get)) []
    (by simpa using hh)
  refine ⟨⟨st', rootRef (LeftistHeap.meld (byItem prec) t
    (s.map (renumber (h.arena.absorb o.arena).2.get)))⟩, ?_, hh', rfl⟩
  simp only [LeftistArenaHeap.absorb, hl.root, Remap.link, ho.root]
  rw [← rootRef_map, hm]
  rfl

/-- A duplicate lays out the same tree, renumbered where compaction put its nodes. -/
theorem Lays.duplicate (hl : h.Lays t) (shared : Nat) :
    (h.duplicate shared).1.1.Lays (t.map (renumber (h.arena.compacted shared).1.2.get)) := by
  refine ⟨by simpa [LeftistArenaHeap.duplicate] using hl.holds.compacted shared, ?_⟩
  simp [LeftistArenaHeap.duplicate, Remap.link, hl.root]

theorem Lays.mem_of_retire (hl : h.Lays t) {r : NodeRef} {shared : Nat}
    {res : α × LeftistArenaHeap α × Nat} (hret : h.retire prec r shared = some res) :
    r ∈ nodes t := by
  rw [← show r ∈ [t].flatMap nodes ↔ r ∈ nodes t by simp, ← hl.holds.owns.live r]
  cases hget : h.arena.get r with
  | none => simp [LeftistArenaHeap.retire, LeftistArenaHeap.detach, hget] at hret
  | some n => rfl

theorem Lays.mem_of_reprioritize (hl : h.Lays t) {r : NodeRef} {f : α → α}
    {h' : LeftistArenaHeap α} (hre : h.reprioritize prec r f = some h') : r ∈ nodes t := by
  rw [← show r ∈ [t].flatMap nodes ↔ r ∈ nodes t by simp, ← hl.holds.owns.live r]
  cases hget : h.arena.get r with
  | none => simp [LeftistArenaHeap.reprioritize, hget] at hre
  | some n => rfl

theorem Lays.len_eq (hl : h.Lays t) : h.arena.len = t.size := by
  rw [Arena.len, hl.holds.owns.wf.live_eq_length hl.holds.owns.nodup hl.holds.owns.live]
  simp [length_nodes]

theorem Lays.root_parent (hl : h.Lays t) {r : NodeRef} {n : LeftistNode α} (hr : h.root = some r)
    (hn : h.arena.get r = some n) : n.parent = none := by
  have hpar := (hl.holds.stores t (List.mem_singleton_self _)).root_parent (hl.root ▸ hr)
  rw [hn] at hpar
  exact hpar

/-- Every live node of a laid-out tree in heap order meets the rules `verify` checks at it. -/
theorem Lays.nodeRules (hl : h.Lays t) (hord : t.ordered (byItem prec) = true) {q : NodeRef}
    {n : LeftistNode α} (hn : h.arena.get q = some n) : NodeRules prec h.arena q n := by
  have hs := hl.holds.stores t (List.mem_singleton_self _)
  have hq : q ∈ (layout none t).map Prod.fst := by
    rw [map_fst_layout]
    simpa using (hl.holds.owns.live q).1 (by simp [hn])
  obtain ⟨e, he, rfl⟩ := List.mem_map.1 hq
  rw [hs e he, Option.some.injEq] at hn
  subst hn
  exact hs.nodeRules prec hord e he

/-- A laid-out tree in heap order passes `verify`: the root has no parent, and the walk checks
every node and counts every live node. -/
theorem Lays.verify (hl : h.Lays t) (hord : t.ordered (byItem prec) = true) :
    h.verify prec = true := by
  have hlen := hl.len_eq
  cases t with
  | leaf => simp [LeftistArenaHeap.verify, hl.root, hlen, LeftistHeap.size]
  | node k l x r =>
    have hs := hl.holds.stores _ (List.mem_singleton_self _)
    obtain ⟨hget, -, -⟩ := stores_node.1 hs
    have hsize : PairingTree.sizeList (roseOf (.node k l x r)) ≤ h.arena.slotCount := by
      rw [sizeList_roseOf, ← hlen]
      exact hl.holds.owns.wf.live_le_size
    have hwalk := Arena.walkCount_eq h.arena.slotCount _ 0 (walks_of_stores prec hs hord) hsize
    rw [map_top_roseOf, sizeList_roseOf] at hwalk
    simp only [LeftistArenaHeap.verify, hl.root, rootRef_node, hget, Option.isNone_none,
      Bool.true_and]
    rw [show (rootRef (.node k l x r)).toList = [x.1] from rfl] at hwalk
    rw [hwalk, hlen]
    simp

end Operations

/-- The heaps that operations build from new ones: pushes, pops, retiring or reprioritizing a
node, clears, absorbing another such heap, duplicates, and the empty heap `take` leaves behind. -/
inductive Reachable : LeftistArenaHeap α → Prop
  | new (pool : ShellPool) : Reachable (LeftistArenaHeap.new pool)
  | push {h h' : LeftistArenaHeap α} {x : α} {shared shared' : Nat} {r : NodeRef} :
      Reachable h → h.push prec x shared = some (h', r, shared') → Reachable h'
  | pop {h h' : LeftistArenaHeap α} {x : α} {shared shared' : Nat} :
      Reachable h → h.pop prec shared = some (x, h', shared') → Reachable h'
  | retire {h h' : LeftistArenaHeap α} {r : NodeRef} {x : α} {shared shared' : Nat} :
      Reachable h → h.retire prec r shared = some (x, h', shared') → Reachable h'
  | reprioritize {h h' : LeftistArenaHeap α} {r : NodeRef} {f : α → α} :
      Reachable h → h.reprioritize prec r f = some h' → Reachable h'
  | clear {h : LeftistArenaHeap α} (shared : Nat) : Reachable h → Reachable (h.clear shared).1
  | absorb {h o h' : LeftistArenaHeap α} {m : Remap} :
      Reachable h → Reachable o → h.absorb prec o = some (h', m) → Reachable h'
  | duplicate {h : LeftistArenaHeap α} (shared : Nat) :
      Reachable h → Reachable (h.duplicate shared).1.1
  | emptyLike {h : LeftistArenaHeap α} : Reachable h → Reachable h.emptyLike

variable {prec}

/-- Every reachable heap lays out a leftist heap in heap order with exact ranks. -/
theorem Reachable.lays (hp : StrictWeakOrder prec) {h : LeftistArenaHeap α}
    (hr : h.Reachable prec) :
    ∃ t : LeftistHeap (NodeRef × α), h.Lays t ∧ t.ordered (byItem prec) = true := by
  have hp' := PairingArena.strictWeakOrder_byItem hp
  induction hr with
  | new pool => exact ⟨.leaf, lays_new pool, rfl⟩
  | push _ hpush ih =>
    obtain ⟨t, hl, ho⟩ := ih
    obtain ⟨h', r, shared', hpush', hl'⟩ := hl.push prec _ _
    rw [hpush] at hpush'
    simp only [Option.some.injEq, Prod.mk.injEq] at hpush'
    obtain ⟨rfl, rfl, -⟩ := hpush'
    exact ⟨_, hl', LeftistHeap.ordered_meld hp' ho (LeftistHeap.ordered_singleton _)⟩
  | pop _ hpop ih =>
    obtain ⟨t, hl, ho⟩ := ih
    cases t with
    | leaf => simp [hl.pop_eq_none prec] at hpop
    | node k l x r =>
      obtain ⟨h', shared', hpop', hl'⟩ := hl.pop prec rfl _
      rw [hpop] at hpop'
      simp only [Option.some.injEq, Prod.mk.injEq] at hpop'
      obtain ⟨-, rfl, -⟩ := hpop'
      obtain ⟨-, -, -, -, hol, hor⟩ := LeftistHeap.ordered_node_iff.1 ho
      exact ⟨_, hl', LeftistHeap.ordered_meld hp' hol hor⟩
  | retire _ hret ih =>
    obtain ⟨t, hl, ho⟩ := ih
    obtain ⟨x, h', shared', t', hret', hext, hl'⟩ := hl.retire prec (hl.mem_of_retire prec hret) _
    rw [hret] at hret'
    simp only [Option.some.injEq, Prod.mk.injEq] at hret'
    obtain ⟨-, rfl, -⟩ := hret'
    obtain ⟨c, hc, hct⟩ := Option.map_eq_some_iff.1 hext
    obtain ⟨y, t'', d⟩ := c
    simp only [Prod.mk.injEq] at hct
    obtain ⟨-, rfl⟩ := hct
    exact ⟨_, hl', (LeftistHeap.ordered_of_cut hp' ho hc).1⟩
  | reprioritize _ hre ih =>
    obtain ⟨t, hl, ho⟩ := ih
    obtain ⟨h', hre', hl'⟩ := hl.reprioritize prec (hl.mem_of_reprioritize prec hre) _
    rw [hre] at hre'
    cases hre'
    exact ⟨_, hl', LeftistHeap.ordered_reprioritize hp' _ _ ho⟩
  | clear shared _ _ => exact ⟨.leaf, lays_clear _ shared, rfl⟩
  | absorb _ _ habs ih ih' =>
    obtain ⟨t, hl, ho⟩ := ih
    obtain ⟨s, hs, hso⟩ := ih'
    obtain ⟨h', habs', hl'⟩ := hl.absorb prec hs
    rw [habs] at habs'
    simp only [Option.some.injEq, Prod.mk.injEq] at habs'
    obtain ⟨rfl, -⟩ := habs'
    exact ⟨_, hl', LeftistHeap.ordered_meld hp' ho
      ((LeftistHeap.ordered_map (PairingArena.byItem_renumber _ prec) s).trans hso)⟩
  | duplicate shared _ ih =>
    obtain ⟨t, hl, ho⟩ := ih
    exact ⟨_, hl.duplicate shared,
      (LeftistHeap.ordered_map (PairingArena.byItem_renumber _ prec) t).trans ho⟩
  | emptyLike _ _ => exact ⟨.leaf, lays_emptyLike _, rfl⟩

/-- Every reachable leftist heap keeps its links and ranks: the root has no parent; the child and
parent links lay out a tree in heap order, with the leftist rule and exact ranks, whose nodes occur
once each and are exactly the live nodes; every live node meets the rules `verify` checks at it,
and `verify` accepts the heap. Pushing always succeeds, and so do retiring and reprioritizing a
live node. -/
theorem reachable_leftist_heap_keeps_links (hp : StrictWeakOrder prec) {h : LeftistArenaHeap α}
    (hr : h.Reachable prec) :
    (∀ r n, h.root = some r → h.arena.get r = some n → n.parent = none) ∧
      (∃ t : LeftistHeap (NodeRef × α), h.root = rootRef t ∧ Stores h.arena none t ∧
        t.ordered (byItem prec) = true ∧ (nodes t).Nodup ∧
        ∀ q, (h.arena.get q).isSome ↔ q ∈ nodes t) ∧
      (∀ q n, h.arena.get q = some n → NodeRules prec h.arena q n) ∧
      h.verify prec = true ∧
      (∀ x shared, (h.push prec x shared).isSome) ∧
      ∀ r, (h.arena.get r).isSome → ∀ shared f,
        (h.retire prec r shared).isSome ∧ (h.reprioritize prec r f).isSome := by
  obtain ⟨t, hl, ho⟩ := hr.lays hp
  have hlive : ∀ q, (h.arena.get q).isSome ↔ q ∈ nodes t := fun q => by
    simpa using hl.holds.owns.live q
  refine ⟨fun r n hr hn => hl.root_parent hr hn,
    ⟨t, hl.root, hl.holds.stores t (List.mem_singleton_self _), ho, hl.nodup, hlive⟩,
    fun q n hn => hl.nodeRules prec ho hn, hl.verify prec ho, fun x shared => ?_,
    fun r hr shared f => ⟨?_, ?_⟩⟩
  · obtain ⟨_, _, _, hpush, -⟩ := hl.push prec x shared
    simp [hpush]
  · obtain ⟨_, _, _, _, hret, -⟩ := hl.retire prec ((hlive r).1 hr) shared
    simp [hret]
  · obtain ⟨_, hre, -⟩ := hl.reprioritize prec ((hlive r).1 hr) f
    simp [hre]

/-- Pushes `x` into `h`, keeping `h` if the push gives up. -/
def samplePush (h : LeftistArenaHeap Int) (x : Int) : LeftistArenaHeap Int :=
  ((h.push Ranking.ascending.precedes x 0).map (·.1)).getD h

/-- Pushes 5, 3, 8, 1, 9 and 4. -/
def sixPushed : LeftistArenaHeap Int :=
  samplePush (samplePush (samplePush (samplePush (samplePush (samplePush (new (.own 0)) 5) 3) 8) 1)
    9) 4

/-- Retires the node of 5, a leaf under the node of 3, whose rank then drops while the root's
stays, and lifts 9, under the node of 4, to 0. -/
def liftedLeftist : LeftistArenaHeap Int :=
  let h := ((sixPushed.retire Ranking.ascending.precedes ⟨0⟩ 0).map fun r => r.2.1).getD sixPushed
  (h.reprioritize Ranking.ascending.precedes ⟨4⟩ fun _ => 0).getD h

theorem leftist_heap_keeps_links_after_retire_and_lift :
    (∀ r n, liftedLeftist.root = some r → liftedLeftist.arena.get r = some n → n.parent = none) ∧
      (∃ t : LeftistHeap (NodeRef × Int), liftedLeftist.root = rootRef t ∧
        Stores liftedLeftist.arena none t ∧
        t.ordered (byItem Ranking.ascending.precedes) = true ∧ (nodes t).Nodup ∧
        ∀ q, (liftedLeftist.arena.get q).isSome ↔ q ∈ nodes t) ∧
      (∀ q n, liftedLeftist.arena.get q = some n →
        NodeRules Ranking.ascending.precedes liftedLeftist.arena q n) ∧
      liftedLeftist.verify Ranking.ascending.precedes = true ∧
      (∀ x shared, (liftedLeftist.push Ranking.ascending.precedes x shared).isSome) ∧
      ∀ r, (liftedLeftist.arena.get r).isSome → ∀ shared f,
        (liftedLeftist.retire Ranking.ascending.precedes r shared).isSome ∧
          (liftedLeftist.reprioritize Ranking.ascending.precedes r f).isSome := by
  have h₁ : (samplePush (new (.own 0)) 5).Reachable Ranking.ascending.precedes := .push (.new _) rfl
  have h₂ : (samplePush (samplePush (new (.own 0)) 5) 3).Reachable Ranking.ascending.precedes :=
    .push (x := 3) h₁ (show _ = some (_, ⟨1⟩, 0) from rfl)
  have h₃ : (samplePush (samplePush (samplePush (new (.own 0)) 5) 3) 8).Reachable
      Ranking.ascending.precedes :=
    .push (x := 8) h₂ (show _ = some (_, ⟨2⟩, 0) from rfl)
  have h₄ : (samplePush (samplePush (samplePush (samplePush (new (.own 0)) 5) 3) 8) 1).Reachable
      Ranking.ascending.precedes :=
    .push (x := 1) h₃ (show _ = some (_, ⟨3⟩, 0) from rfl)
  have h₅ : (samplePush (samplePush (samplePush (samplePush (samplePush (new (.own 0)) 5) 3) 8) 1)
      9).Reachable Ranking.ascending.precedes :=
    .push (x := 9) h₄ (show _ = some (_, ⟨4⟩, 0) from rfl)
  have h₆ : sixPushed.Reachable Ranking.ascending.precedes :=
    .push (x := 4) h₅ (show _ = some (_, ⟨5⟩, 0) from rfl)
  have h₇ : Reachable Ranking.ascending.precedes
      (((sixPushed.retire Ranking.ascending.precedes ⟨0⟩ 0).map fun r => r.2.1).getD sixPushed) :=
    .retire (r := ⟨0⟩) (x := 5) h₆ (show _ = some (_, _, 0) from rfl)
  exact reachable_leftist_heap_keeps_links (Ranking.strictWeakOrder .ascending)
    (.reprioritize (r := ⟨4⟩) (f := fun _ => 0) h₇ rfl)

end LeftistArenaHeap

end PriorityQueues
