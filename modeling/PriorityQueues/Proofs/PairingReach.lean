import Mathlib
import PriorityQueues.Proofs.PairingLinks

/-!
Pairing heaps in an arena keep their links along every history. Absorbing another heap and
compacting renumber the nodes and rewrite their links; the renumbered trees are laid out again.
-/

namespace PriorityQueues

namespace PairingTree

variable {α β : Type}

mutual
/-- Applies `f` to every element. -/
def map (f : α → β) : PairingTree α → PairingTree β
  | .node x cs => .node (f x) (mapList f cs)

/-- Applies `f` to every element of a list of trees. -/
def mapList (f : α → β) : List (PairingTree α) → List (PairingTree β)
  | [] => []
  | t :: ts => map f t :: mapList f ts
end

variable (f : α → β)

@[simp]
theorem map_node (x : α) (cs : List (PairingTree α)) :
    map f (.node x cs) = .node (f x) (mapList f cs) := by
  simp [map]

@[simp]
theorem mapList_nil : mapList f [] = [] := by
  simp [mapList]

@[simp]
theorem mapList_cons (t : PairingTree α) (ts : List (PairingTree α)) :
    mapList f (t :: ts) = map f t :: mapList f ts := by
  simp [mapList]

theorem mapList_eq_map (ts : List (PairingTree α)) : mapList f ts = ts.map (map f) := by
  induction ts with
  | nil => simp
  | cons t ts ih => simp [ih]

@[simp]
theorem top_map (t : PairingTree α) : (map f t).top = f t.top := by
  cases t
  simp

@[simp]
theorem children_map (t : PairingTree α) : (map f t).children = mapList f t.children := by
  cases t
  simp

mutual
theorem toList_map : ∀ t : PairingTree α, (map f t).toList = t.toList.map f
  | .node x cs => by simp [toListList_mapList cs]

theorem toListList_mapList : ∀ ts : List (PairingTree α),
    toListList (mapList f ts) = (toListList ts).map f
  | [] => by simp
  | t :: ts => by simp [toList_map t, toListList_mapList ts]
end

variable {f} {p : α → α → Bool} {q : β → β → Bool}

mutual
theorem ordered_map (hf : ∀ a b, q (f a) (f b) = p a b) :
    ∀ t : PairingTree α, (map f t).ordered q = t.ordered p
  | .node x cs => by simp [ordered_node, orderedList_map hf x cs]

theorem orderedList_map (hf : ∀ a b, q (f a) (f b) = p a b) :
    ∀ (x : α) (ts : List (PairingTree α)),
      orderedList q (f x) (mapList f ts) = orderedList p x ts
  | _, [] => by simp
  | x, t :: ts => by
    rw [mapList_cons, Bool.eq_iff_iff, orderedList_cons, orderedList_cons, top_map, hf,
      ordered_map hf t, orderedList_map hf x ts]
end

end PairingTree

namespace PairingHeap

variable {α β : Type}

/-- Applies `f` to every element. -/
def map (f : α → β) (h : PairingHeap α) : PairingHeap β := ⟨h.root.map (PairingTree.map f)⟩

theorem rootOrdered_map {f : α → β} {p : α → α → Bool} {q : β → β → Bool}
    (hf : ∀ a b, q (f a) (f b) = p a b) {h : PairingHeap α} :
    RootOrdered q (h.map f).root ↔ RootOrdered p h.root := by
  obtain ⟨_ | t⟩ := h
  · simp [map]
  · simp [map, PairingTree.ordered_map hf]

end PairingHeap

namespace PairingArena

open PairingTree

variable {α : Type}

/-- Gives an element's node a new number. -/
def renumber (m : NodeRef → NodeRef) (e : NodeRef × α) : NodeRef × α := (m e.1, e.2)

section Renumber

variable (m : NodeRef → NodeRef)

theorem byItem_renumber (prec : α → α → Bool) (a b : NodeRef × α) :
    byItem prec (renumber m a) (renumber m b) = byItem prec a b := rfl

@[simp]
theorem firstRef_mapList (ts : List (PairingTree (NodeRef × α))) :
    firstRef (mapList (renumber m) ts) = (firstRef ts).map m := by
  cases ts <;> simp [renumber]

theorem nodes_mapList (ts : List (PairingTree (NodeRef × α))) :
    nodes (mapList (renumber m) ts) = (nodes ts).map m := by
  simp [nodes, toListList_mapList, Function.comp_def, renumber]

theorem relink_pairingNode (n : PairingNode α) :
    Relink.relink m n =
      { n with child := n.child.map m, next := n.next.map m, prev := n.prev.map m } := rfl

mutual
theorem treeLayout_renumber : ∀ (next prev : Link) (t : PairingTree (NodeRef × α)),
    treeLayout (next.map m) (prev.map m) (map (renumber m) t) =
      (treeLayout next prev t).map fun e => (m e.1, Relink.relink m e.2)
  | next, prev, .node a cs => by
    simp only [map_node, treeLayout, List.map_cons, relink_pairingNode, firstRef_mapList]
    rw [show some (renumber m a).1 = (some a.1).map m from rfl, layout_renumber (some a.1) cs]
    rfl

theorem layout_renumber : ∀ (prev : Link) (ts : List (PairingTree (NodeRef × α))),
    layout (prev.map m) (mapList (renumber m) ts) =
      (layout prev ts).map fun e => (m e.1, Relink.relink m e.2)
  | _, [] => by simp [layout]
  | prev, t :: ts => by
    simp only [mapList_cons, layout, List.map_append]
    rw [← treeLayout_renumber (firstRef ts) prev t, top_map,
      show some (renumber m t.top).1 = (some t.top.1).map m from rfl, ← layout_renumber _ ts,
      firstRef_mapList]
end

/-- Stored trees are stored again, renumbered, wherever each node went with its links rewritten. -/
theorem Stores.renumber {st st' : Arena (PairingNode α)} {prev : Link}
    {ts : List (PairingTree (NodeRef × α))}
    (hm : ∀ q n, st.get q = some n → st'.get (m q) = some (Relink.relink m n))
    (hs : Stores st prev ts) : Stores st' (prev.map m) (mapList (renumber m) ts) := by
  intro e he
  rw [layout_renumber, List.mem_map] at he
  obtain ⟨e₀, he₀, rfl⟩ := he
  exact hm _ _ (hs e₀ he₀)

end Renumber

section Moves

variable {a o : Arena (PairingNode α)} {ts os : List (PairingTree (NodeRef × α))}

/-- Absorbing an arena moves its trees, renumbered, next to this arena's own. -/
theorem Holds.absorb (h : Holds a ts) (ho : Holds o os) :
    Holds (a.absorb o).1 (ts ++ mapList (renumber (a.absorb o).2.get) os) := by
  obtain ⟨hwf, -, -, hkeep, hmoved, hinj⟩ := h.wf.absorb_spec o
  have hmap : ∀ q n, o.get q = some n →
      (a.absorb o).1.get ((a.absorb o).2.get q) = some (Relink.relink (a.absorb o).2.get n) :=
    fun q n hq => (hmoved q n hq).2
  refine ⟨hwf, fun u hu => ?_, ?_, fun q => ?_⟩
  · rcases List.mem_append.1 hu with hu | hu
    · refine (h.stores u hu).frame fun q hq => ?_
      obtain ⟨n, hn⟩ := Option.isSome_iff_exists.1 ((h.live q).2 (nodes_subset_of_mem hu hq))
      rw [hn, hkeep q n hn]
    · rw [mapList_eq_map] at hu
      obtain ⟨u₀, hu₀, rfl⟩ := List.mem_map.1 hu
      simpa [mapList] using Stores.renumber _ hmap (ho.stores u₀ hu₀)
  · rw [nodes_append, nodes_mapList, List.nodup_append]
    refine ⟨h.nodup, ho.nodup.map_on fun i hi j hj hij =>
      hinj i j ((ho.live i).2 hi) ((ho.live j).2 hj) hij, ?_⟩
    -- the moved nodes went to slots that held nothing in `a`
    intro q hq q' hq' heq
    subst heq
    obtain ⟨i, hi, rfl⟩ := List.mem_map.1 hq'
    obtain ⟨n, hn⟩ := Option.isSome_iff_exists.1 ((ho.live i).2 hi)
    have := (h.live _).2 hq
    rw [(hmoved i n hn).1] at this
    cases this
  · rw [nodes_append, nodes_mapList, List.mem_append, ← h.live q]
    constructor
    · intro hq
      rcases h.wf.absorb_live ho.wf hq with hq | ⟨i, hi, rfl⟩
      · exact .inl hq
      · exact .inr (List.mem_map.2 ⟨i, (ho.live i).1 hi, rfl⟩)
    · rintro (hq | hq)
      · obtain ⟨n, hn⟩ := Option.isSome_iff_exists.1 hq
        simp [hkeep q n hn]
      · obtain ⟨i, hi, rfl⟩ := List.mem_map.1 hq
        obtain ⟨n, hn⟩ := Option.isSome_iff_exists.1 ((ho.live i).2 hi)
        simp [hmap i n hn]

/-- A compacted copy holds the trees, renumbered. -/
theorem Holds.compacted (h : Holds a ts) (shared : Nat) :
    Holds (a.compacted shared).1.1 (mapList (renumber (a.compacted shared).1.2.get) ts) := by
  obtain ⟨hwf, -, -⟩ := h.wf.compacted_spec shared
  have hmap : ∀ q n, a.get q = some n → (a.compacted shared).1.1.get
      ((a.compacted shared).1.2.get q) = some (Relink.relink (a.compacted shared).1.2.get n) :=
    fun q n hq => Arena.compacted_get shared hq
  refine ⟨hwf, fun u hu => ?_, ?_, fun q => ?_⟩
  · rw [mapList_eq_map] at hu
    obtain ⟨u₀, hu₀, rfl⟩ := List.mem_map.1 hu
    simpa [mapList] using Stores.renumber _ hmap (h.stores u₀ hu₀)
  · rw [nodes_mapList]
    exact h.nodup.map_on fun i hi j hj hij =>
      Arena.compacted_remap_injective shared ((h.live i).2 hi) ((h.live j).2 hj) hij
  · rw [nodes_mapList]
    constructor
    · intro hq
      obtain ⟨i, hi, rfl⟩ := h.wf.compacted_live shared hq
      exact List.mem_map.2 ⟨i, (h.live i).1 hi, rfl⟩
    · intro hq
      obtain ⟨i, hi, rfl⟩ := List.mem_map.1 hq
      obtain ⟨n, hn⟩ := Option.isSome_iff_exists.1 ((h.live i).2 hi)
      simp [hmap i n hn]

end Moves

end PairingArena

namespace PairingArenaHeap

open PairingArena PairingTree

variable {α : Type} (prec : α → α → Bool) {h : PairingArenaHeap α} {t : PairingHeap (NodeRef × α)}

theorem toList_map_root (m : NodeRef → NodeRef) (t : PairingHeap (NodeRef × α)) :
    mapList (renumber m) t.root.toList = (t.map (renumber m)).root.toList := by
  obtain ⟨_ | u⟩ := t <;> simp [PairingHeap.map]

theorem map_top_map_root (m : NodeRef → NodeRef) (t : PairingHeap (NodeRef × α)) :
    (t.root.map fun u => u.top.1).map m = (t.map (renumber m)).root.map fun u => u.top.1 := by
  obtain ⟨_ | u⟩ := t <;> simp [PairingHeap.map, renumber]

/-- Absorbing a heap melds in its tree, renumbered where its nodes went. -/
theorem Lays.absorb {o : PairingArenaHeap α} {s : PairingHeap (NodeRef × α)} (hl : h.Lays t)
    (ho : o.Lays s) :
    (h.absorb prec o).1.Lays
      (Meldable.meld (byItem prec) t (s.map (renumber (h.arena.absorb o.arena).2.get))) := by
  have hh := hl.holds.absorb ho.holds
  rw [toList_map_root] at hh
  have hm := Holds.meld prec t.root
    (s.map (renumber (h.arena.absorb o.arena).2.get)).root []
    (by simpa using hh)
  rw [List.append_nil] at hm
  have hroot : (h.arena.absorb o.arena).2.link o.root =
      (s.map (renumber (h.arena.absorb o.arena).2.get)).root.map fun u => u.top.1 := by
    rw [Remap.link, ho.root, map_top_map_root]
  constructor
  · simp only [PairingArenaHeap.absorb, PairingHeap.root_meld, hl.root, hroot]
    exact hm.1
  · simp only [PairingArenaHeap.absorb, PairingHeap.root_meld, hl.root, hroot]
    exact hm.2

/-- A duplicate lays out the same heap, renumbered where compaction put its nodes. -/
theorem Lays.duplicate (hl : h.Lays t) (shared : Nat) :
    (h.duplicate shared).1.1.Lays (t.map (renumber (h.arena.compacted shared).1.2.get)) := by
  have hh := hl.holds.compacted shared
  rw [toList_map_root] at hh
  refine ⟨hh, ?_⟩
  simp only [PairingArenaHeap.duplicate, Remap.link, hl.root, map_top_map_root]

theorem free_eq_none {st : Arena (PairingNode α)} {r : NodeRef} (hr : st.get r = none)
    (shared : Nat) : st.free r shared = none := by
  rcases Arena.get_eq_none_iff.1 hr with h | h <;> simp [Arena.free, h]

/-- Only a live node can be retired. -/
theorem Lays.mem_of_retire (hl : h.Lays t) {r : NodeRef} {shared : Nat}
    {res : α × PairingArenaHeap α × Nat} (hret : h.retire prec r shared = some res) :
    r ∈ nodes t.root.toList := by
  by_contra hr
  have hget := hl.holds.get_of_mem hr
  have hroot : h.root ≠ some r := by
    rw [hl.root]
    cases ht : t.root with
    | none => simp
    | some u =>
      intro he
      simp only [Option.map_some, Option.some.injEq] at he
      exact hr (by simp [ht, ← he, nodes_cons])
  -- a dead node is not unlinked and has no children, so detaching it changes no link
  have hdetach : h.detach prec r =
      some ⟨h.arena.modify r fun m => { m with child := none }, h.root⟩ := by
    have hunlink : unlink h.arena r = h.arena := by simp [unlink, hget]
    have hchild : childOf h.arena r = none := by simp [childOf, hget]
    simp only [PairingArenaHeap.detach, hroot, if_false, hunlink, hchild, Option.map_some]
    cases h.root <;> rfl
  have hfree : (h.arena.modify r fun m => { m with child := none }).free r shared = none :=
    free_eq_none (by simp [Arena.get_modify, hget]) shared
  simp [PairingArenaHeap.retire, hdetach, hfree] at hret

theorem Lays.mem_of_reprioritize (hl : h.Lays t) {r : NodeRef} {f : α → α}
    {h' : PairingArenaHeap α} (hre : h.reprioritize prec r f = some h') :
    r ∈ nodes t.root.toList := by
  rw [← hl.holds.live r]
  cases hget : h.arena.get r with
  | none => simp [PairingArenaHeap.reprioritize, hget] at hre
  | some n => rfl

/-- The heaps that operations build from new ones: pushes, pops, retiring or reprioritizing a
node, clears, absorbing another such heap, duplicates, and the empty heap `take` leaves behind. -/
inductive Reachable : PairingArenaHeap α → Prop
  | new (pool : ShellPool) : Reachable (PairingArenaHeap.new pool)
  | push {h : PairingArenaHeap α} (x : α) (shared : Nat) :
      Reachable h → Reachable (h.push prec x shared).1
  | pop {h h' : PairingArenaHeap α} {x : α} {shared shared' : Nat} :
      Reachable h → h.pop prec shared = some (x, h', shared') → Reachable h'
  | retire {h h' : PairingArenaHeap α} {r : NodeRef} {x : α} {shared shared' : Nat} :
      Reachable h → h.retire prec r shared = some (x, h', shared') → Reachable h'
  | reprioritize {h h' : PairingArenaHeap α} {r : NodeRef} {f : α → α} :
      Reachable h → h.reprioritize prec r f = some h' → Reachable h'
  | clear {h : PairingArenaHeap α} (shared : Nat) : Reachable h → Reachable (h.clear shared).1
  | absorb {h o : PairingArenaHeap α} : Reachable h → Reachable o → Reachable (h.absorb prec o).1
  | duplicate {h : PairingArenaHeap α} (shared : Nat) :
      Reachable h → Reachable (h.duplicate shared).1.1
  | emptyLike {h : PairingArenaHeap α} : Reachable h → Reachable h.emptyLike

variable {prec}

/-- Every reachable heap lays out a pairing heap in heap order. -/
theorem Reachable.lays (hp : StrictWeakOrder prec) {h : PairingArenaHeap α} (hr : h.Reachable prec) :
    ∃ t : PairingHeap (NodeRef × α), h.Lays t ∧ PairingHeap.RootOrdered (byItem prec) t.root := by
  have hp' := strictWeakOrder_byItem hp
  induction hr with
  | new pool => exact ⟨⟨none⟩, lays_new pool, trivial⟩
  | push x shared _ ih =>
    obtain ⟨t, hl, ho⟩ := ih
    exact ⟨_, hl.push prec x shared, PairingHeap.rootOrdered_meldRoots hp' ho rfl⟩
  | pop _ hpop ih =>
    obtain ⟨t, hl, ho⟩ := ih
    cases ht : t.root with
    | none => simp [hl.pop_eq_none prec ht] at hpop
    | some u =>
      obtain ⟨h', shared', t', hpop', htop, hl'⟩ := hl.pop prec ht _
      rw [hpop] at hpop'
      simp only [Option.some.injEq, Prod.mk.injEq] at hpop'
      obtain ⟨-, rfl, -⟩ := hpop'
      refine ⟨t', hl', ?_⟩
      simp only [PairingHeap.popTop, ht, Option.map_some, Option.some.injEq, Prod.mk.injEq] at htop
      rw [← htop.2]
      have hu : u.ordered (byItem prec) = true := by simpa [ht] using ho
      exact PairingHeap.rootOrdered_combine hp' (PairingHeap.ordered_children hu)
  | retire _ hret ih =>
    obtain ⟨t, hl, ho⟩ := ih
    obtain ⟨x, h', shared', t', hret', hext, hl'⟩ := hl.retire prec (hl.mem_of_retire prec hret) _
    rw [hret] at hret'
    simp only [Option.some.injEq, Prod.mk.injEq] at hret'
    obtain ⟨-, rfl, -⟩ := hret'
    exact ⟨t', hl', PairingHeap.rootOrdered_of_extract hp' ho hext⟩
  | reprioritize _ hre ih =>
    obtain ⟨t, hl, ho⟩ := ih
    obtain ⟨h', hre', hl'⟩ := hl.reprioritize prec (hl.mem_of_reprioritize prec hre) _
    rw [hre] at hre'
    cases hre'
    exact ⟨_, hl', PairingHeap.rootOrdered_reprioritize hp' _ _ ho⟩
  | clear shared _ _ => exact ⟨⟨none⟩, lays_clear _ shared, trivial⟩
  | absorb _ _ ih ih' =>
    obtain ⟨t, hl, ho⟩ := ih
    obtain ⟨s, hs, hso⟩ := ih'
    exact ⟨_, hl.absorb prec hs, PairingHeap.rootOrdered_meldRoots hp' ho
      ((PairingHeap.rootOrdered_map (byItem_renumber _ prec)).2 hso)⟩
  | duplicate shared _ ih =>
    obtain ⟨t, hl, ho⟩ := ih
    exact ⟨_, hl.duplicate shared, (PairingHeap.rootOrdered_map (byItem_renumber _ prec)).2 ho⟩
  | emptyLike _ _ => exact ⟨⟨none⟩, lays_emptyLike _, trivial⟩

theorem Lays.root_links (hl : h.Lays t) {r : NodeRef} {n : PairingNode α} (hr : h.root = some r)
    (hn : h.arena.get r = some n) : n.prev = none ∧ n.next = none := by
  cases ht : t.root with
  | none => simp [hl.root, ht] at hr
  | some u =>
    rw [hl.root_eq ht, Option.some.injEq] at hr
    subst hr
    -- the root is stored as a tree of its own: no sibling after it and no parent before it
    have hget := (stores_singleton.1 (hl.holds.stores u (by simp [ht]))).1
    rw [hn, Option.some.injEq] at hget
    subst hget
    exact ⟨rfl, rfl⟩

/-- Every reachable pairing heap keeps its links: the root has neither a back nor a sibling link,
and the child, sibling and back links lay out a heap-ordered tree whose nodes occur once each
and are exactly the live nodes, so `verify` accepts it. -/
theorem reachable_pairing_heap_keeps_links (hp : StrictWeakOrder prec) (hr : h.Reachable prec) :
    (∀ r n, h.root = some r → h.arena.get r = some n → n.prev = none ∧ n.next = none) ∧
      ∃ t : PairingHeap (NodeRef × α), h.root = t.root.map (fun u => u.top.1) ∧
        (∀ u ∈ t.root, Stores h.arena none [u] ∧ u.ordered (byItem prec) = true) ∧
        (nodes t.root.toList).Nodup ∧
        (∀ q, (h.arena.get q).isSome ↔ q ∈ nodes t.root.toList) ∧
        h.verify prec = true := by
  obtain ⟨t, hl, ho⟩ := hr.lays hp
  have hord : ∀ u ∈ t.root, u.ordered (byItem prec) = true := by
    intro u hu
    rw [Option.mem_def] at hu
    simpa [hu] using ho
  refine ⟨fun r n hr hn => hl.root_links hr hn, t, hl.root, fun u hu => ⟨?_, hord u hu⟩,
    hl.holds.nodup, hl.holds.live, hl.verify prec hord⟩
  exact hl.holds.stores u (by simpa using hu)

/-- Pushes 5, 3 and 7, then lifts 7 to 1 off the root. -/
def liftedSample : PairingArenaHeap Int :=
  let p := Ranking.ascending.precedes
  let h := ((((new (.own 0)).push p 5 0).1.push p 3 0).1.push p 7 0).1
  (h.reprioritize p ⟨2⟩ fun _ => 1).getD h

/-- The sample after one pop. -/
def poppedSample : PairingArenaHeap Int :=
  ((liftedSample.pop Ranking.ascending.precedes 0).map fun r => r.2.1).getD liftedSample

theorem pairing_heap_keeps_links_after_lift_and_pop :
    (∀ r n, poppedSample.root = some r → poppedSample.arena.get r = some n →
        n.prev = none ∧ n.next = none) ∧
      ∃ t : PairingHeap (NodeRef × Int), poppedSample.root = t.root.map (fun u => u.top.1) ∧
        (∀ u ∈ t.root, Stores poppedSample.arena none [u] ∧
          u.ordered (byItem Ranking.ascending.precedes) = true) ∧
        (nodes t.root.toList).Nodup ∧
        (∀ q, (poppedSample.arena.get q).isSome ↔ q ∈ nodes t.root.toList) ∧
        poppedSample.verify Ranking.ascending.precedes = true := by
  have hlift : liftedSample.Reachable Ranking.ascending.precedes :=
    .reprioritize (r := ⟨2⟩) (f := fun _ => 1) (.push 7 0 (.push 3 0 (.push 5 0 (.new (.own 0))))) rfl
  have hpop : liftedSample.pop Ranking.ascending.precedes 0 = some (1, poppedSample, 0) := rfl
  exact reachable_pairing_heap_keeps_links (Ranking.strictWeakOrder .ascending) (.pop hlift hpop)

end PairingArenaHeap

end PriorityQueues
