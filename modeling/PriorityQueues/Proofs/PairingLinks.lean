import Mathlib
import PriorityQueues.Proofs.PairingArena

/-!
Pairing heaps in an arena keep their links. `Lays h t` says that the arena and root of `h` hold
exactly the tree `t`, whose elements carry their node numbers: every node of `t` holds its record,
no node occurs twice, and the live nodes are the nodes of `t`.
-/

namespace PriorityQueues

namespace Arena

section Walk

variable {β : Type} (children : NodeRef → Option (List NodeRef)) (key : β → NodeRef)

mutual
/-- Every node of the tree pushes exactly its children, in order. -/
def WalksTree : PairingTree β → Prop
  | .node x cs => children (key x) = some (cs.map fun c => key c.top) ∧ WalksList cs

/-- Every node of the trees pushes exactly its children, in order. -/
def WalksList : List (PairingTree β) → Prop
  | [] => True
  | t :: ts => WalksTree t ∧ WalksList ts
end

variable {children key}

theorem walksList_iff {ts : List (PairingTree β)} :
    WalksList children key ts ↔ ∀ t ∈ ts, WalksTree children key t := by
  induction ts with
  | nil => simp [WalksList]
  | cons t ts ih => simp [WalksList, ih]

theorem sizeList_eq_sum (ts : List (PairingTree β)) :
    PairingTree.sizeList ts = (ts.map PairingTree.size).sum := by
  induction ts with
  | nil => rfl
  | cons t ts ih => simp [PairingTree.sizeList, ih]

/-- A walk from the roots of trees whose every node pushes its children counts every node. -/
theorem walkCount_eq : ∀ (fuel : Nat) (ts : List (PairingTree β)) (seen : Nat),
    WalksList children key ts → PairingTree.sizeList ts ≤ fuel →
    walkCount children fuel (ts.map fun t => key t.top) seen =
      some (seen + PairingTree.sizeList ts)
  | fuel, [], seen, _, _ => by cases fuel <;> simp [walkCount, PairingTree.sizeList]
  | 0, .node x cs :: ts, _, _, hfuel => by
    simp [PairingTree.sizeList, PairingTree.size] at hfuel
  | fuel + 1, .node x cs :: ts, seen, hw, hfuel => by
    obtain ⟨⟨hx, hcs⟩, hts⟩ := hw
    -- the popped root pushes its children, which the walk then visits before the other trees
    have hw' : WalksList children key (cs.reverse ++ ts) := by
      rw [walksList_iff] at hcs hts ⊢
      intro t ht
      rcases List.mem_append.1 ht with ht | ht
      · exact hcs t (List.mem_reverse.1 ht)
      · exact hts t ht
    have hsize : PairingTree.sizeList (cs.reverse ++ ts) + 1 =
        PairingTree.sizeList (.node x cs :: ts) := by
      simp only [sizeList_eq_sum, List.map_append, List.map_reverse, List.sum_append,
        List.sum_reverse, List.map_cons, List.sum_cons, PairingTree.size]
      omega
    have ih := walkCount_eq fuel (cs.reverse ++ ts) (seen + 1) hw' (by omega)
    simp only [List.map_append, List.map_reverse] at ih
    simp only [List.map_cons, PairingTree.top_node, walkCount, hx, Option.bind_some, ih]
    congr 1
    omega

end Walk

end Arena

namespace PairingArena

open PairingTree

variable {α : Type}

section Unlink

/-! What `unlink` writes, node by node: the node loses its sibling links, its next sibling points
back to the node's `prev`, and the node's `prev` skips over it. -/

variable {st : Arena (PairingNode α)} {r q : NodeRef} {n : PairingNode α}

theorem get_skipOver (p : NodeRef) (next : Link) (q : NodeRef) :
    (if childOf st p = some r then st.modify p fun m => { m with child := next }
      else st.modify p fun m => { m with next := next }).get q =
    if p = q then (st.get q).map fun m =>
        if m.child = some r then { m with child := next } else { m with next := next }
    else st.get q := by
  by_cases hq : p = q
  · subst hq
    cases hm : st.get p with
    | none =>
      have hc : childOf st p ≠ some r := by simp [childOf, hm]
      simp [hc, Arena.get_modify, hm]
    | some m =>
      by_cases hmc : m.child = some r
      · have hc : childOf st p = some r := by simp [childOf, hm, hmc]
        simp [hc, Arena.get_modify, hm, hmc]
      · have hc : childOf st p ≠ some r := by simp [childOf, hm, hmc]
        simp [hc, Arena.get_modify, hm, hmc]
  · split <;> simp [Arena.get_modify, hq]

theorem get_unlink_of_ne (hr : st.get r = some n) (hqr : q ≠ r) (hqn : n.next ≠ some q)
    (hqp : n.prev ≠ some q) : (unlink st r).get q = st.get q := by
  simp only [unlink, hr]
  rw [get_isolate_of_ne (Ne.symm hqr), get_setPrev, if_neg hqn]
  split
  · rename_i p hp
    rw [get_skipOver, if_neg fun (h : p = q) => hqp (h ▸ hp)]
  · rfl

theorem get_unlink_self (hr : st.get r = some n) (hpr : n.prev ≠ some r) :
    (unlink st r).get r = some { n with next := none, prev := none } := by
  simp only [unlink, hr]
  split
  · rename_i p hp
    have hpr' : p ≠ r := fun h => hpr (h ▸ hp)
    by_cases hnr : n.next = some r
    · -- the node is its own next sibling: its `prev` is rewritten and then cleared again
      rw [get_isolate_self (n := { n with prev := some p })]
      rw [get_setPrev, if_pos hnr, get_skipOver, if_neg hpr', hr, hp]
      rfl
    · rw [get_isolate_self (n := n)]
      rw [get_setPrev, if_neg hnr, get_skipOver, if_neg hpr', hr]
  · rename_i hp
    by_cases hnr : n.next = some r
    · rw [get_isolate_self (n := { n with prev := none })]
      rw [get_setPrev, if_pos hnr, hr, hp]
      rfl
    · rw [get_isolate_self (n := n)]
      rw [get_setPrev, if_neg hnr, hr]

theorem get_unlink_next (hr : st.get r = some n) (hq : n.next = some q) (hqr : q ≠ r)
    (hqp : n.prev ≠ some q) :
    (unlink st r).get q = (st.get q).map fun m => { m with prev := n.prev } := by
  simp only [unlink, hr]
  rw [get_isolate_of_ne (Ne.symm hqr), get_setPrev, if_pos hq]
  split
  · rename_i p hp
    rw [get_skipOver, if_neg fun (h : p = q) => hqp (h ▸ hp), hp]
  · rename_i hp
    rw [hp]

theorem get_unlink_prev {p : NodeRef} (hr : st.get r = some n) (hp : n.prev = some p)
    (hpr : p ≠ r) (hnp : n.next ≠ some p) :
    (unlink st r).get p = (st.get p).map fun m =>
      if m.child = some r then { m with child := n.next } else { m with next := n.next } := by
  simp only [unlink, hr, hp]
  rw [get_isolate_of_ne (Ne.symm hpr), get_setPrev, if_neg hnp, get_skipOver, if_pos rfl]

end Unlink

section Cut

/-! Cutting the subtree of a node other than the root out of stored trees is what `unlink` does to
the arena: the cut subtree is stored on its own, and the rest is stored without it. -/

variable {st : Arena (PairingNode α)} {r : NodeRef} {n : PairingNode α}

theorem node_top_children (t : PairingTree (NodeRef × α)) : PairingTree.node t.top t.children = t := by
  cases t
  rfl

theorem nodup_nodes_cons {t : PairingTree (NodeRef × α)} {ts : List (PairingTree (NodeRef × α))} :
    (nodes (t :: ts)).Nodup ↔ t.top.1 ∉ nodes t.children ∧ t.top.1 ∉ nodes ts ∧
      (nodes t.children).Nodup ∧ (nodes ts).Nodup ∧ ∀ q ∈ nodes t.children, q ∉ nodes ts := by
  rw [nodes_cons, List.nodup_cons, List.mem_append, not_or, List.nodup_append]
  constructor
  · rintro ⟨⟨h₁, h₂⟩, h₃, h₄, h₅⟩
    exact ⟨h₁, h₂, h₃, h₄, fun q hq hq' => h₅ q hq q hq' rfl⟩
  · rintro ⟨h₁, h₂, h₃, h₄, h₅⟩
    exact ⟨⟨h₁, h₂⟩, h₃, h₄, fun q hq q' hq' h => h₅ q hq (h ▸ hq')⟩

theorem top_mem_nodes (t : PairingTree (NodeRef × α)) (ts : List (PairingTree (NodeRef × α))) :
    t.top.1 ∈ nodes (t :: ts) := by
  simp [nodes_cons]

theorem mem_nodes_cons_of_children {t : PairingTree (NodeRef × α)}
    {ts : List (PairingTree (NodeRef × α))} {q : NodeRef} (hq : q ∈ nodes t.children) :
    q ∈ nodes (t :: ts) := by
  simp [nodes_cons, hq]

theorem mem_nodes_cons_of_rest {t : PairingTree (NodeRef × α)}
    {ts : List (PairingTree (NodeRef × α))} {q : NodeRef} (hq : q ∈ nodes ts) :
    q ∈ nodes (t :: ts) := by
  simp [nodes_cons, hq]

/-- The node heads its sibling list: the list goes on from its next sibling, which now points back
to the node's `prev`. -/
theorem Stores.unlink_head (hr : st.get r = some n) {t : PairingTree (NodeRef × α)}
    {ts : List (PairingTree (NodeRef × α))} {prev : Link} (hs : Stores st prev (t :: ts))
    (hnd : (nodes (t :: ts)).Nodup) (hprev : ∀ q ∈ nodes (t :: ts), prev ≠ some q)
    (ht : t.top.1 = r) :
    Stores (unlink st r) prev ts ∧ Stores (unlink st r) none [t] ∧ n.prev = prev ∧
      n.next = firstRef ts := by
  obtain ⟨hget, hcs, hts⟩ := stores_cons.1 hs
  subst ht
  obtain rfl : n = ⟨t.top.2, firstRef t.children, firstRef ts, prev⟩ :=
    Option.some.inj (hr.symm.trans hget)
  obtain ⟨htc, htts, -, hndts, hdisj⟩ := nodup_nodes_cons.1 hnd
  refine ⟨?_, ?_, rfl, rfl⟩
  · cases ts with
    | nil => exact stores_nil
    | cons u us =>
      obtain ⟨-, huus, -, -, -⟩ := nodup_nodes_cons.1 hndts
      have hu : u.top.1 ≠ t.top.1 := fun h => htts (h ▸ top_mem_nodes u us)
      refine hts.repoint (get_unlink_next hr rfl hu
        (hprev _ (mem_nodes_cons_of_rest (top_mem_nodes u us)))) fun q hq => ?_
      have hq' : q ∈ nodes (u :: us) := by
        rw [nodes_cons]
        exact List.mem_cons_of_mem _ hq
      refine get_unlink_of_ne hr (fun h => htts (h ▸ hq')) ?_
        (hprev q (mem_nodes_cons_of_rest hq'))
      -- the next sibling heads the rest, so it is none of the nodes after it
      rintro ⟨⟩
      rw [nodes_cons, List.nodup_cons] at hndts
      exact hndts.1 hq
  · -- the node keeps its element and children and loses both sibling links
    rw [stores_singleton]
    refine ⟨get_unlink_self hr (hprev _ (top_mem_nodes t ts)), hcs.frame fun q hq => ?_⟩
    refine get_unlink_of_ne hr (fun h => htc (h ▸ hq)) ?_
      (hprev q (mem_nodes_cons_of_children hq))
    intro h
    exact hdisj q hq (mem_nodes_of_firstRef h)

/-- The node lies below the first tree `node x cs`: it was cut out of `cs`, and `x` points to the
new first child if the node was the old one. -/
theorem Stores.unlink_below (hr : st.get r = some n) {x : NodeRef × α}
    {cs cs' ts : List (PairingTree (NodeRef × α))} {prev : Link}
    (hs : Stores st prev (.node x cs :: ts)) (hnd : (nodes (.node x cs :: ts)).Nodup)
    (hcs' : Stores (unlink st r) (some x.1) cs') (hrmem : r ∈ nodes cs)
    (hnext : ∀ y, n.next = some y → y ∈ nodes cs)
    (hlink : firstRef cs = some r ∧ n.prev = some x.1 ∧ firstRef cs' = n.next ∨
      firstRef cs ≠ some r ∧ firstRef cs' = firstRef cs ∧ ∃ y ∈ nodes cs, n.prev = some y) :
    Stores (unlink st r) prev (.node x cs' :: ts) := by
  obtain ⟨hget, -, hts⟩ := stores_cons.1 hs
  obtain ⟨hxcs, hxts, -, -, hdisj⟩ := nodup_nodes_cons.1 hnd
  simp only [top_node, children_node] at hget hts hxcs hxts hdisj
  have hxr : x.1 ≠ r := fun h => hxcs (h ▸ hrmem)
  have hnx : n.next ≠ some x.1 := fun h => hxcs (hnext _ h)
  -- the nodes after the first tree are none of the nodes `unlink` writes
  have hframe : ∀ q ∈ nodes ts, n.prev ≠ some q → (unlink st r).get q = st.get q := fun q hq hp =>
    get_unlink_of_ne hr (fun h => hdisj r hrmem (h ▸ hq)) (fun h => hdisj q (hnext q h) hq) hp
  rcases hlink with ⟨hfirst, hprev, hfirst'⟩ | ⟨-, hfirst', y, hy, hprev⟩
  · -- the node was the first child: `x` now points to its next sibling
    refine stores_cons.2 ⟨?_, hcs', hts.frame fun q hq => hframe q hq ?_⟩
    · simp only [top_node, children_node]
      rw [get_unlink_prev hr hprev hxr hnx, hget]
      simp [hfirst, hfirst']
    · rw [hprev, Ne, Option.some.injEq]
      rintro rfl
      exact hxts hq
  · refine stores_cons.2 ⟨?_, hcs', hts.frame fun q hq => hframe q hq ?_⟩
    · simp only [top_node, children_node]
      rw [get_unlink_of_ne hr hxr hnx (by rw [hprev]; rintro ⟨⟩; exact hxcs hy), hget, hfirst']
    · rw [hprev, Ne, Option.some.injEq]
      rintro rfl
      exact hdisj _ hy hq

/-- The node lies in a later tree: it was cut out of `ts`, and the first tree `t` points past it if
it was `t`'s next sibling. -/
theorem Stores.unlink_later (hr : st.get r = some n) {t : PairingTree (NodeRef × α)}
    {ts ts' : List (PairingTree (NodeRef × α))} {prev : Link} (hs : Stores st prev (t :: ts))
    (hnd : (nodes (t :: ts)).Nodup) (hts' : Stores (unlink st r) (some t.top.1) ts')
    (hrmem : r ∈ nodes ts) (hnext : ∀ y, n.next = some y → y ∈ nodes ts)
    (hlink : firstRef ts = some r ∧ n.prev = some t.top.1 ∧ firstRef ts' = n.next ∨
      firstRef ts ≠ some r ∧ firstRef ts' = firstRef ts ∧ ∃ y ∈ nodes ts, n.prev = some y) :
    Stores (unlink st r) prev (t :: ts') := by
  obtain ⟨hget, hcs, -⟩ := stores_cons.1 hs
  obtain ⟨htc, htts, -, -, hdisj⟩ := nodup_nodes_cons.1 hnd
  have htr : t.top.1 ≠ r := fun h => htts (h ▸ hrmem)
  have hnt : n.next ≠ some t.top.1 := fun h => htts (hnext _ h)
  -- the children of the first tree are none of the nodes `unlink` writes
  have hframe : ∀ q ∈ nodes t.children, n.prev ≠ some q → (unlink st r).get q = st.get q :=
    fun q hq hp => get_unlink_of_ne hr (fun h => hdisj q hq (h ▸ hrmem))
      (fun h => hdisj q hq (hnext q h)) hp
  rcases hlink with ⟨-, hprev, hfirst'⟩ | ⟨-, hfirst', y, hy, hprev⟩
  · -- the node was the next sibling of `t`: `t` now points past it
    refine stores_cons.2 ⟨?_, hcs.frame fun q hq => hframe q hq ?_, hts'⟩
    · have hc : firstRef t.children ≠ some r := fun h =>
        hdisj r (mem_nodes_of_firstRef h) hrmem
      rw [get_unlink_prev hr hprev htr hnt, hget]
      simp [hc, hfirst']
    · rw [hprev, Ne, Option.some.injEq]
      rintro rfl
      exact htc hq
  · refine stores_cons.2 ⟨?_, hcs.frame fun q hq => hframe q hq ?_, hts'⟩
    · have hnp : n.prev ≠ some t.top.1 := by
        rw [hprev, Ne, Option.some.injEq]
        rintro rfl
        exact htts hy
      rw [get_unlink_of_ne hr htr hnt hnp, hget, hfirst']
    · rw [hprev, Ne, Option.some.injEq]
      rintro rfl
      exact hdisj _ hq hy

mutual
theorem Stores.unlink_cut (hr : st.get r = some n) :
    ∀ {t rest s : PairingTree (NodeRef × α)} {ts : List (PairingTree (NodeRef × α))}
      {prev : Link}, Stores st prev (t :: ts) → (nodes (t :: ts)).Nodup →
      (∀ q ∈ nodes (t :: ts), prev ≠ some q) → cut (fun e => e.1 == r) t = some (rest, s) →
      Stores (unlink st r) prev (rest :: ts) ∧ Stores (unlink st r) none [s] ∧ s.top.1 = r ∧
        (nodes t.children).Perm (nodes [s] ++ nodes rest.children) ∧ rest.top = t.top ∧
        (∀ y, n.next = some y → y ∈ nodes t.children) ∧ ∃ y ∈ nodes [t], n.prev = some y
  | .node x cs, rest, s, ts, prev, hs, hnd, _, h => by
    rw [cut_node] at h
    obtain ⟨⟨cs', s'⟩, hcut, h⟩ := Option.map_eq_some_iff.1 h
    simp only [Prod.mk.injEq] at h
    obtain ⟨rfl, rfl⟩ := h
    obtain ⟨-, hcsS, -⟩ := stores_cons.1 hs
    obtain ⟨hxcs, -, hndcs, -, -⟩ := nodup_nodes_cons.1 hnd
    simp only [top_node, children_node] at hcsS hxcs hndcs
    obtain ⟨hcs', hs', hsr, hperm, hnext, hlink⟩ := Stores.unlink_cutList hr hcsS hndcs
      (fun q hq h => hxcs (Option.some.inj h ▸ hq)) hcut
    have hrmem : r ∈ nodes cs := hperm.symm.subset (List.mem_append_left _ (hsr ▸ top_mem_nodes s' []))
    refine ⟨Stores.unlink_below hr hs hnd hcs' hrmem hnext hlink, hs', hsr, hperm, rfl, hnext, ?_⟩
    rcases hlink with ⟨-, hprev, -⟩ | ⟨-, -, y, hy, hprev⟩
    · exact ⟨x.1, top_mem_nodes (.node x cs) [], hprev⟩
    · exact ⟨y, mem_nodes_cons_of_children hy, hprev⟩

theorem Stores.unlink_cutList (hr : st.get r = some n) :
    ∀ {ts ts' : List (PairingTree (NodeRef × α))} {s : PairingTree (NodeRef × α)} {prev : Link},
      Stores st prev ts → (nodes ts).Nodup → (∀ q ∈ nodes ts, prev ≠ some q) →
      cutList (fun e => e.1 == r) ts = some (ts', s) →
      Stores (unlink st r) prev ts' ∧ Stores (unlink st r) none [s] ∧ s.top.1 = r ∧
        (nodes ts).Perm (nodes [s] ++ nodes ts') ∧ (∀ y, n.next = some y → y ∈ nodes ts) ∧
        (firstRef ts = some r ∧ n.prev = prev ∧ firstRef ts' = n.next ∨
          firstRef ts ≠ some r ∧ firstRef ts' = firstRef ts ∧ ∃ y ∈ nodes ts, n.prev = some y)
  | [], _, _, _, _, _, _, h => by simp [cutList] at h
  | t :: ts, ts', s, prev, hs, hnd, hprev, h => by
    rw [cutList_cons] at h
    split at h
    · -- the node heads the list
      rename_i htop
      simp only [Option.some.injEq, Prod.mk.injEq] at h
      obtain ⟨rfl, rfl⟩ := h
      have ht : t.top.1 = r := by simpa using htop
      obtain ⟨hts, hs', hp, hn⟩ := Stores.unlink_head hr hs hnd hprev ht
      refine ⟨hts, hs', ht, by rw [← nodes_append]; rfl, fun y hy => ?_,
        .inl ⟨by rw [firstRef_cons, ht], hp, hn.symm⟩⟩
      rw [hn] at hy
      exact mem_nodes_cons_of_rest (mem_nodes_of_firstRef hy)
    · rename_i htop
      have htr : t.top.1 ≠ r := by simpa using htop
      obtain ⟨-, -, -, hndts, hdisj⟩ := nodup_nodes_cons.1 hnd
      split at h
      · -- the node lies below the first tree
        rename_i res hcut
        simp only [Option.some.injEq, Prod.mk.injEq] at h
        obtain ⟨rfl, rfl⟩ := h
        obtain ⟨hrest, hs', hsr, hperm, hrtop, hnext, y, hy, hprev'⟩ :=
          Stores.unlink_cut hr hs hnd hprev hcut
        have hperm' : (nodes (t :: ts)).Perm (nodes [res.2] ++ nodes (res.1 :: ts)) := by
          rw [nodes_cons t ts, nodes_cons res.1 ts, hrtop]
          refine ((hperm.append_right _).cons _).trans ?_
          rw [List.append_assoc]
          exact List.perm_middle.symm
        refine ⟨hrest, hs', hsr, hperm', fun z hz => mem_nodes_cons_of_children (hnext z hz),
          .inr ⟨by rw [firstRef_cons]; exact fun h => htr (Option.some.inj h),
            by rw [firstRef_cons, firstRef_cons, hrtop], y, ?_, hprev'⟩⟩
        rw [nodes_cons, nodes_nil, List.append_nil] at hy
        rw [nodes_cons]
        rcases List.mem_cons.1 hy with rfl | hy
        · exact List.mem_cons_self
        · exact List.mem_cons_of_mem _ (List.mem_append_left _ hy)
      · -- the node lies in a later tree
        rename_i hcut
        obtain ⟨⟨ts'', s'⟩, hcutl, h⟩ := Option.map_eq_some_iff.1 h
        simp only [Prod.mk.injEq] at h
        obtain ⟨rfl, rfl⟩ := h
        obtain ⟨-, -, htsS⟩ := stores_cons.1 hs
        obtain ⟨-, htts, -, -, -⟩ := nodup_nodes_cons.1 hnd
        obtain ⟨hts', hs', hsr, hperm, hnext, hlink⟩ := Stores.unlink_cutList hr htsS hndts
          (fun q hq h => htts (Option.some.inj h ▸ hq)) hcutl
        have hrmem : r ∈ nodes ts :=
          hperm.symm.subset (List.mem_append_left _ (hsr ▸ top_mem_nodes s' []))
        refine ⟨Stores.unlink_later hr hs hnd hts' hrmem hnext hlink, hs', hsr, ?_,
          fun z hz => mem_nodes_cons_of_rest (hnext z hz), .inr ⟨?_, ?_, ?_⟩⟩
        · rw [nodes_cons t ts, nodes_cons t ts'']
          exact ((hperm.append_left _).cons _).trans
            ((List.perm_append_comm_assoc _ _ _).cons _ |>.trans List.perm_middle.symm)
        · rw [firstRef_cons]
          exact fun h => htr (Option.some.inj h)
        · rfl
        · rcases hlink with ⟨-, hprev', -⟩ | ⟨-, -, y, hy, hprev'⟩
          · exact ⟨t.top.1, top_mem_nodes t ts, hprev'⟩
          · exact ⟨y, mem_nodes_cons_of_rest hy, hprev'⟩
end

end Cut

section Check

/-! The walk of `verify` over stored trees: each node lists exactly its children, in order. -/

variable (prec : α → α → Bool) {st : Arena (PairingNode α)}

theorem length_nodes (ts : List (PairingTree (NodeRef × α))) : (nodes ts).length = sizeList ts := by
  rw [nodes, List.length_map, sizeList_eq_length]

theorem checkChildren_eq {parent : NodeRef} {pn : PairingNode α}
    (hpar : st.get parent = some pn) :
    ∀ (cs : List (PairingTree (NodeRef × α))) (before : NodeRef) (fuel : Nat),
      Stores st (some before) cs → (∀ c ∈ cs, prec c.top.2 pn.item = false) →
      cs.length ≤ fuel →
      checkChildren prec st parent fuel before (firstRef cs) = some (cs.map fun c => c.top.1)
  | [], _, fuel, _, _, _ => by cases fuel <;> simp [checkChildren]
  | c :: cs, before, fuel, hs, hord, hlen => by
    obtain ⟨f, rfl⟩ : ∃ f, fuel = f + 1 := ⟨fuel - 1, by simp at hlen; omega⟩
    obtain ⟨hget, -, hcs⟩ := stores_cons.1 hs
    have hprec : precedes prec st c.top.1 parent = false := by
      rw [precedes, hget, hpar]
      exact hord c List.mem_cons_self
    have ih := checkChildren_eq hpar cs c.top.1 f hcs (fun d hd => hord d (List.mem_cons_of_mem _ hd))
      (by simp at hlen; omega)
    simp only [firstRef_cons, checkChildren, hget, hprec, and_self, if_true, ih, Option.map_some,
      List.map_cons]

/-- The children the walk of `verify` pushes for a node. -/
def verifyChildren (st : Arena (PairingNode α)) (p : NodeRef) : Option (List NodeRef) :=
  checkChildren prec st p st.slotCount p (childOf st p)

mutual
theorem walksTree_of_stores :
    ∀ {t : PairingTree (NodeRef × α)} {ts : List (PairingTree (NodeRef × α))} {prev : Link},
      Stores st prev (t :: ts) → t.ordered (byItem prec) = true → t.size ≤ st.slotCount →
      Arena.WalksTree (verifyChildren prec st) Prod.fst t
  | .node x cs, ts, prev, hs, hord, hsize => by
    obtain ⟨hget, hcs, -⟩ := stores_cons.1 hs
    simp only [top_node, children_node] at hget hcs
    have hord' : ∀ c ∈ cs, byItem prec c.top x = false ∧ c.ordered (byItem prec) = true :=
      orderedList_iff.1 hord
    refine ⟨?_, walksList_of_stores hcs (fun c hc => (hord' c hc).2) ?_⟩
    · have hchild : childOf st x.1 = firstRef cs := by simp [childOf, hget]
      have hlen : cs.length ≤ st.slotCount := by
        have := length_le_nodes cs
        rw [length_nodes] at this
        simp only [size] at hsize
        omega
      rw [verifyChildren, hchild]
      exact checkChildren_eq prec hget cs x.1 _ hcs (fun c hc => (hord' c hc).1) hlen
    · simp only [size] at hsize
      omega

theorem walksList_of_stores :
    ∀ {ts : List (PairingTree (NodeRef × α))} {prev : Link}, Stores st prev ts →
      (∀ t ∈ ts, t.ordered (byItem prec) = true) → sizeList ts ≤ st.slotCount →
      Arena.WalksList (verifyChildren prec st) Prod.fst ts
  | [], _, _, _, _ => trivial
  | t :: ts, prev, hs, hord, hsize => by
    obtain ⟨-, -, hts⟩ := stores_cons.1 hs
    simp only [sizeList] at hsize
    exact ⟨walksTree_of_stores hs (hord t List.mem_cons_self) (by omega),
      walksList_of_stores hts (fun u hu => hord u (List.mem_cons_of_mem _ hu)) (by omega)⟩
end

end Check

section Items

mutual
theorem map_item_treeLayout : ∀ (next prev : Link) (t : PairingTree (NodeRef × α)),
    (treeLayout next prev t).map (fun e => (e.1, e.2.item)) = t.toList
  | _, _, .node a cs => by
    simp only [treeLayout, List.map_cons, map_item_layout (some a.1) cs, toList_node]

theorem map_item_layout : ∀ (prev : Link) (ts : List (PairingTree (NodeRef × α))),
    (layout prev ts).map (fun e => (e.1, e.2.item)) = toListList ts
  | _, [] => by simp [layout]
  | _, t :: ts => by
    simp only [layout, List.map_append, map_item_treeLayout, map_item_layout (some t.top.1) ts,
      toListList_cons]
end

/-- Every element of stored trees sits in the record of its node. -/
theorem Stores.get_of_mem {st : Arena (PairingNode α)} {prev : Link}
    {ts : List (PairingTree (NodeRef × α))} (hs : Stores st prev ts) {e : NodeRef × α}
    (he : e ∈ toListList ts) : ∃ n, st.get e.1 = some n ∧ n.item = e.2 := by
  rw [← map_item_layout prev ts, List.mem_map] at he
  obtain ⟨e', he', rfl⟩ := he
  exact ⟨e'.2, hs e' he', rfl⟩

end Items

section Edits

/-! The link rewrites change nodes in place: they occupy no slot and free none. -/

variable (prec : α → α → Bool) (st : Arena (PairingNode α))

theorem edits_isolate (r : NodeRef) : st.Edits (isolate st r) := Arena.edits_modify _ _ _

theorem edits_setPrev (l p : Link) : st.Edits (setPrev st l p) := by
  cases l with
  | none => exact Arena.Edits.refl _
  | some f => exact Arena.edits_modify _ _ _

theorem edits_adopt (w l : NodeRef) : st.Edits (adopt st w l) :=
  ((Arena.edits_modify _ _ _).trans (edits_setPrev _ _ _)).trans (Arena.edits_modify _ _ _)

theorem edits_link (a b : NodeRef) : st.Edits (link prec st a b).1 := by
  unfold link
  split
  · exact edits_adopt _ _ _
  · exact edits_adopt _ _ _

theorem edits_meld (a b : Link) : st.Edits (meld prec st a b).1 := by
  cases a with
  | none => exact Arena.Edits.refl _
  | some a =>
    cases b with
    | none => exact Arena.Edits.refl _
    | some b => exact edits_link prec st a b

theorem edits_unlink (r : NodeRef) : st.Edits (unlink st r) := by
  unfold unlink
  split
  · exact Arena.Edits.refl _
  · refine Arena.Edits.trans ?_ ((edits_setPrev _ _ _).trans (edits_isolate _ _))
    split
    · split
      · exact Arena.edits_modify _ _ _
      · exact Arena.edits_modify _ _ _
    · exact Arena.Edits.refl _

theorem edits_pairPass : ∀ (fuel : Nat) (st : Arena (PairingNode α)) (l : Link)
    (pairs : List NodeRef) {st' : Arena (PairingNode α)} {pairs' : List NodeRef},
    pairPass prec fuel st l pairs = some (st', pairs') → st.Edits st'
  | _, st, none, _, _, _, h => by
    simp only [pairPass, Option.some.injEq, Prod.mk.injEq] at h
    exact h.1 ▸ Arena.Edits.refl _
  | 0, _, some _, _, _, _, h => by simp [pairPass] at h
  | fuel + 1, st, some a, pairs, _, _, h => by
    simp only [pairPass] at h
    split at h
    · exact ((edits_isolate _ _).trans ((edits_isolate _ _).trans (edits_link _ _ _ _))).trans
        (edits_pairPass fuel _ _ _ h)
    · simp only [Option.some.injEq, Prod.mk.injEq] at h
      exact h.1 ▸ edits_isolate _ _

theorem edits_foldPass : ∀ (st : Arena (PairingNode α)) (result : NodeRef) (rest : List NodeRef),
    st.Edits (foldPass prec st result rest).1
  | _, _, [] => Arena.Edits.refl _
  | st, result, pair :: rest => (edits_link prec st pair result).trans (edits_foldPass _ _ rest)

theorem edits_combineSiblings {first root : NodeRef} {st' : Arena (PairingNode α)}
    (h : combineSiblings prec st first = some (st', root)) : st.Edits st' := by
  obtain ⟨⟨st₁, pairs⟩, hpass, h⟩ := Option.map_eq_some_iff.1 h
  have he := edits_pairPass prec _ _ _ _ hpass
  cases pairs with
  | nil =>
    simp only [Prod.mk.injEq] at h
    exact h.1 ▸ he
  | cons last rest =>
    have h' : (foldPass prec st₁ last rest).1 = st' := congrArg Prod.fst (h : _ = (st', root))
    rw [← h']
    exact he.trans (edits_foldPass prec _ _ _)

end Edits

section Holds

/-- The arena holds exactly the detached trees `ts`, whose elements carry their node numbers: each
tree's records are stored, no node occurs twice, and the live nodes are the nodes of the trees. -/
structure Holds (st : Arena (PairingNode α)) (ts : List (PairingTree (NodeRef × α))) : Prop where
  wf : st.WellFormed
  stores : ∀ u ∈ ts, Stores st none [u]
  nodup : (nodes ts).Nodup
  live : ∀ q, (st.get q).isSome ↔ q ∈ nodes ts

variable {st st' : Arena (PairingNode α)} {ts ts' : List (PairingTree (NodeRef × α))}

theorem Holds.perm (h : Holds st ts) (hp : ts.Perm ts') : Holds st ts' where
  wf := h.wf
  stores u hu := h.stores u (hp.symm.subset hu)
  nodup := (nodes_perm hp).nodup_iff.1 h.nodup
  live q := (h.live q).trans (nodes_perm hp).mem_iff

theorem Holds.transfer (h : Holds st ts) (he : st.Edits st') (hp : (nodes ts').Perm (nodes ts))
    (hs : ∀ u ∈ ts', Stores st' none [u]) : Holds st' ts' where
  wf := he.wellFormed h.wf
  stores := hs
  nodup := hp.nodup_iff.2 h.nodup
  live q := by rw [he.isSome_get, h.live q, hp.mem_iff]

theorem Holds.get_of_mem (h : Holds st ts) {q : NodeRef} (hq : q ∉ nodes ts) : st.get q = none :=
  Option.not_isSome_iff_eq_none.1 fun hs => hq ((h.live q).1 hs)

theorem Holds.disjoint (h : Holds st (ts ++ ts')) :
    ∀ q ∈ nodes ts, q ∉ nodes ts' := by
  have := h.nodup
  rw [nodes_append, List.nodup_append] at this
  exact fun q hq hq' => this.2.2 q hq q hq' rfl

@[simp]
theorem nodes_leaf (e : NodeRef × α) : nodes [PairingTree.node e []] = [e.1] := by
  simp [nodes_cons]

theorem nodes_combine {p : NodeRef × α → NodeRef × α → Bool} {cs : List (PairingTree (NodeRef × α))}
    {t : PairingTree (NodeRef × α)} (h : combine p cs = some t) : (nodes [t]).Perm (nodes cs) := by
  simpa [nodes] using (toList_of_combine h).map Prod.fst

theorem nodes_meldRoots (p : NodeRef × α → NodeRef × α → Bool) (a b : Option (PairingTree (NodeRef × α))) :
    (nodes (PairingHeap.meldRoots p a b).toList).Perm (nodes (a.toList ++ b.toList)) := by
  cases a <;> cases b <;> simp [PairingHeap.meldRoots, nodes_link]

theorem nodes_combine_toList (p : NodeRef × α → NodeRef × α → Bool)
    (cs : List (PairingTree (NodeRef × α))) : (nodes (combine p cs).toList).Perm (nodes cs) := by
  cases h : combine p cs with
  | none => simp [combine_eq_none.1 h]
  | some t => exact nodes_combine h

/-- `meld` links the two trees it is given, as `meldRoots` does, and keeps the other trees. -/
theorem Holds.meld (prec : α → α → Bool) (a b : Option (PairingTree (NodeRef × α)))
    (rest : List (PairingTree (NodeRef × α))) (h : Holds st (a.toList ++ b.toList ++ rest)) :
    Holds (meld prec st (a.map fun u => u.top.1) (b.map fun u => u.top.1)).1
        ((PairingHeap.meldRoots (byItem prec) a b).toList ++ rest) ∧
      (meld prec st (a.map fun u => u.top.1) (b.map fun u => u.top.1)).2 =
        (PairingHeap.meldRoots (byItem prec) a b).map fun u => u.top.1 := by
  cases a with
  | none => exact ⟨by simpa [PairingArena.meld, PairingHeap.meldRoots] using h, rfl⟩
  | some ta =>
    cases b with
    | none => exact ⟨by simpa [PairingArena.meld, PairingHeap.meldRoots] using h, rfl⟩
    | some tb =>
      have hnd : (nodes [ta, tb]).Nodup := (nodes_append [ta, tb] rest ▸ h.nodup).of_append_left
      obtain ⟨hl, hroot, hout⟩ := Stores.link prec (h.stores ta (by simp)) (h.stores tb (by simp))
        hnd
      have hdisj := (show Holds st ([ta, tb] ++ rest) by simpa using h).disjoint
      refine ⟨h.transfer (edits_link prec st _ _) ?_ fun u hu => ?_, by
        simp [PairingArena.meld, PairingHeap.meldRoots, hroot]⟩
      · simp only [PairingHeap.meldRoots, Option.toList_some, List.singleton_append, nodes_append]
        rw [← List.singleton_append, nodes_append]
        exact (nodes_link _ ta tb).append_right _
      · simp only [PairingHeap.meldRoots, Option.toList_some, List.singleton_append,
          List.mem_cons] at hu
        rcases hu with rfl | hu
        · exact hl
        · exact (h.stores u (by simp [hu])).frame fun q hq =>
            hout q (hdisj q · (nodes_subset_of_mem hu hq))

/-- A new node stored by `alloc` is a one-node tree after the others. -/
theorem Holds.alloc (h : Holds st ts) (x : α) (shared : Nat) :
    Holds (st.alloc ⟨x, none, none, none⟩ shared).1
      (ts ++ [.node ((st.alloc ⟨x, none, none, none⟩ shared).2.1, x) []]) := by
  have hfresh : (st.alloc ⟨x, none, none, none⟩ shared).2.1 ∉ nodes ts := fun hm => by
    have := (h.live _).2 hm
    rw [h.wf.get_alloc_ref] at this
    cases this
  have hkeep : ∀ q ∈ nodes ts, (st.alloc ⟨x, none, none, none⟩ shared).1.get q = st.get q :=
    fun q hq => by rw [h.wf.get_alloc, if_neg fun he => hfresh (by rw [he]; exact hq)]
  refine ⟨h.wf.alloc _ _, fun u hu => ?_, ?_, fun q => ?_⟩
  · rcases List.mem_append.1 hu with hu | hu
    · exact (h.stores u hu).frame fun q hq => hkeep q (nodes_subset_of_mem hu hq)
    · rw [List.mem_singleton] at hu
      subst hu
      rw [stores_singleton]
      refine ⟨?_, stores_nil⟩
      rw [h.wf.get_alloc]
      simp
  · rw [nodes_append, List.nodup_append]
    refine ⟨h.nodup, by simp [nodes_leaf], ?_⟩
    rw [nodes_leaf]
    intro q hq b hb heq
    rw [List.mem_singleton] at hb
    rw [hb] at heq
    exact hfresh (heq ▸ hq)
  · rw [h.wf.get_alloc, nodes_append, List.mem_append, ← h.live q]
    simp only [nodes_cons, nodes_nil, List.append_nil, top_node]
    by_cases hq : (st.alloc ⟨x, none, none, none⟩ shared).2.1 = q
    · simp [hq]
    · simp [hq, Ne.symm hq]

/-- Freeing the node of a loose one-node tree drops the tree. -/
theorem Holds.free {r : NodeRef} {x : α} (h : Holds st (ts ++ [.node (r, x) []])) (shared : Nat) :
    ∃ st' shared', st.free r shared = some (st', ⟨x, none, none, none⟩, shared') ∧
      Holds st' ts := by
  have hget : st.get r = some ⟨x, none, none, none⟩ :=
    (stores_singleton.1 (h.stores (.node (r, x) []) (by simp))).1
  have hr : r ∉ nodes ts := fun hm => Holds.disjoint h r hm (by simp [nodes_cons])
  have hf : st.free r shared = _ := Arena.free_of_get hget
  refine ⟨_, _, hf, h.wf.free hf, fun u hu => ?_, ?_, fun q => ?_⟩
  · exact (h.stores u (by simp [hu])).frame fun q hq => by
      rw [Arena.get_free hf, if_neg fun he => hr (by rw [he]; exact nodes_subset_of_mem hu hq)]
  · exact (nodes_append ts _ ▸ h.nodup).of_append_left
  · rw [Arena.get_free hf]
    by_cases hq : r = q
    · subst hq
      simp [hr]
    · rw [if_neg hq, h.live q, nodes_append, List.mem_append]
      simp [nodes_cons, Ne.symm hq]

/-- Changing the element at the root of the last tree. -/
theorem Holds.setItem (ts : List (PairingTree (NodeRef × α))) (x : NodeRef × α)
    (cs : List (PairingTree (NodeRef × α)))
    (h : Holds st (ts ++ [.node x cs])) (y : α) :
    Holds (st.modify x.1 fun m => { m with item := y }) (ts ++ [.node (x.1, y) cs]) := by
  obtain ⟨hget, hcs⟩ := stores_singleton.1 (h.stores (.node x cs) (by simp))
  simp only [top_node, children_node] at hget hcs
  have hx : x.1 ∉ nodes ts := fun hm => Holds.disjoint h x.1 hm (by simp [nodes_cons])
  have hxcs : x.1 ∉ nodes cs := by
    have := (nodes_append ts _ ▸ h.nodup).of_append_right
    rw [nodes_cons, List.nodup_cons] at this
    simpa using this.1
  refine h.transfer (Arena.edits_modify _ _ _) (by simp [nodes_append, nodes_cons]) fun u hu => ?_
  rcases List.mem_append.1 hu with hu | hu
  · exact (h.stores u (by simp [hu])).frame fun q hq => by
      rw [Arena.get_modify, if_neg fun he => hx (by rw [he]; exact nodes_subset_of_mem hu hq)]
  · rw [List.mem_singleton] at hu
    subst hu
    rw [stores_singleton]
    refine ⟨by simp [Arena.get_modify, hget], hcs.frame fun q hq => ?_⟩
    rw [Arena.get_modify, if_neg fun he => hxcs (by rw [he]; exact hq)]

/-- Clearing the child link of a node without children changes nothing. -/
theorem Holds.emptyLeaf {x : NodeRef × α} (h : Holds st (ts ++ [.node x []])) :
    Holds (st.modify x.1 fun m => { m with child := none }) (ts ++ [.node x []]) := by
  have hget : st.get x.1 = some ⟨x.2, none, none, none⟩ :=
    (stores_singleton.1 (h.stores (.node x []) (by simp))).1
  have hx : x.1 ∉ nodes ts := fun hm => Holds.disjoint h x.1 hm (by simp [nodes_cons])
  refine h.transfer (Arena.edits_modify _ _ _) (.refl _) fun u hu => ?_
  rcases List.mem_append.1 hu with hu | hu
  · exact (h.stores u (by simp [hu])).frame fun q hq => by
      rw [Arena.get_modify, if_neg fun he => hx (by rw [he]; exact nodes_subset_of_mem hu hq)]
  · rw [List.mem_singleton] at hu
    subst hu
    rw [stores_singleton]
    exact ⟨by simp [Arena.get_modify, hget], stores_nil⟩

/-- The children of the root of the last tree, cut off by clearing its child link, are melded by
the two passes into one tree, which goes before the now childless node. -/
theorem Holds.combineChildren (prec : α → α → Bool) {x : NodeRef × α}
    {c : PairingTree (NodeRef × α)} {cs : List (PairingTree (NodeRef × α))}
    (h : Holds st (ts ++ [.node x (c :: cs)])) :
    ∃ st' t', combineSiblings prec (st.modify x.1 fun m => { m with child := none }) c.top.1 =
        some (st', t'.top.1) ∧ combine (byItem prec) (c :: cs) = some t' ∧
      Holds st' (ts ++ [t', .node x []]) := by
  obtain ⟨hget, hcs⟩ := stores_singleton.1 (h.stores (.node x (c :: cs)) (by simp))
  simp only [top_node, children_node] at hget hcs
  have hx : x.1 ∉ nodes ts := fun hm => Holds.disjoint h x.1 hm (by simp [nodes_cons])
  have hdisj : ∀ q ∈ nodes ts, q ∉ nodes (c :: cs) := fun q hq hq' =>
    Holds.disjoint h q hq (by rw [nodes_cons]; exact List.mem_cons_of_mem _ (by simpa using hq'))
  have hnd : (x.1 :: nodes (c :: cs)).Nodup := by
    have := (nodes_append ts _ ▸ h.nodup).of_append_right
    simpa [nodes_cons] using this
  rw [List.nodup_cons] at hnd
  -- the children stay stored under the node once its child link is cleared
  have hcs' : Stores (st.modify x.1 fun m => { m with child := none }) (some x.1) (c :: cs) :=
    hcs.frame fun q hq => by rw [Arena.get_modify, if_neg fun he => hnd.1 (by rw [he]; exact hq)]
  obtain ⟨st', t', hrun, hcomb, hst', hkeep⟩ := Stores.combineSiblings prec rfl hcs' hnd.2
  beta_reduce at hrun
  refine ⟨st', t', hrun, hcomb, h.transfer ((Arena.edits_modify _ _ _).trans
    (edits_combineSiblings prec _ hrun)) ?_ fun u hu => ?_⟩
  · rw [nodes_append, nodes_append]
    refine List.Perm.append_left _ ?_
    calc nodes [t', .node x []] = nodes [t'] ++ [x.1] := by
          rw [show [t', .node x []] = [t'] ++ [.node x []] from rfl, nodes_append, nodes_leaf]
      List.Perm _ (x.1 :: nodes [t']) := List.perm_append_singleton _ _
      List.Perm _ (x.1 :: nodes (c :: cs)) := (nodes_combine hcomb).cons _
      _ = nodes [.node x (c :: cs)] := by simp [nodes_cons]
  · simp only [List.mem_append, List.mem_cons, List.not_mem_nil, or_false] at hu
    rcases hu with hu | rfl | rfl
    · refine (h.stores u (by simp [hu])).frame fun q hq => ?_
      have hq' := nodes_subset_of_mem hu hq
      rw [hkeep q (hdisj q hq'), Arena.get_modify, if_neg fun he => hx (by rw [he]; exact hq')]
    · exact hst'
    · rw [stores_singleton]
      refine ⟨?_, stores_nil⟩
      simp only [top_node, children_node]
      rw [hkeep x.1 hnd.1]
      simp [Arena.get_modify, hget]

end Holds

end PairingArena

namespace PairingArenaHeap

open PairingArena PairingTree

variable {α : Type}

/-- The arena and root of `h` hold exactly the pairing heap `t`, whose elements carry their node
numbers. -/
structure Lays (h : PairingArenaHeap α) (t : PairingHeap (NodeRef × α)) : Prop where
  holds : Holds h.arena t.root.toList
  root : h.root = t.root.map fun u => u.top.1

section Lays

variable {h : PairingArenaHeap α} {t : PairingHeap (NodeRef × α)}

theorem Lays.len_eq (hl : h.Lays t) : h.arena.len = sizeList t.root.toList := by
  rw [Arena.len, hl.holds.wf.live_eq_length hl.holds.nodup hl.holds.live, length_nodes]

theorem Lays.verify (prec : α → α → Bool) (hl : h.Lays t)
    (hord : ∀ u ∈ t.root, u.ordered (byItem prec) = true) : h.verify prec = true := by
  cases ht : t.root with
  | none =>
    have hlen := hl.len_eq
    rw [ht] at hlen
    simp [PairingArenaHeap.verify, hl.root, ht, hlen, sizeList]
  | some u =>
    have hs := hl.holds.stores u (by simp [ht])
    obtain ⟨hget, -⟩ := stores_singleton.1 hs
    have hlen := hl.len_eq
    rw [ht, Option.toList_some] at hlen
    -- the walk visits every node of the one tree, and they are all the live nodes
    have hsize : sizeList [u] ≤ h.arena.slotCount := by
      rw [← hlen]
      exact hl.holds.wf.live_le_size
    have hwalk := Arena.walkCount_eq h.arena.slotCount [u] 0
      (walksList_of_stores prec hs (fun v hv => by
        rw [List.mem_singleton] at hv
        exact hv ▸ hord u ht) hsize) hsize
    simp only [List.map_cons, List.map_nil, Nat.zero_add] at hwalk
    simp only [PairingArenaHeap.verify, hl.root, ht, Option.map_some, hget, Option.isNone_none,
      Bool.and_self, Bool.true_and]
    rw [show (fun p => checkChildren prec h.arena p h.arena.slotCount p (childOf h.arena p)) =
      verifyChildren prec h.arena from rfl, hwalk, hlen]
    simp

end Lays

section Detach

variable (prec : α → α → Bool) {h : PairingArenaHeap α} {t : PairingHeap (NodeRef × α)}

theorem Lays.holds_root {u : PairingTree (NodeRef × α)} (hl : h.Lays t) (ht : t.root = some u) :
    Holds h.arena ([] ++ [u]) := by
  simpa [ht] using hl.holds

theorem Lays.root_eq {u : PairingTree (NodeRef × α)} (hl : h.Lays t) (ht : t.root = some u) :
    h.root = some u.top.1 := by
  rw [hl.root, ht]
  rfl

/-- Detaching the root melds its children into the new root, as `popTop` does, and leaves the old
root loose. -/
theorem Lays.detach_root (hl : h.Lays t) {u : PairingTree (NodeRef × α)} (ht : t.root = some u) :
    ∃ h₁, h.detach prec u.top.1 = some h₁ ∧
      Holds h₁.arena ((combine (byItem prec) u.children).toList ++ [.node u.top []]) ∧
      h₁.root = (combine (byItem prec) u.children).map fun v => v.top.1 := by
  have hroot := hl.root_eq ht
  have hh := hl.holds_root ht
  cases u with
  | node x cs =>
    obtain ⟨hget, -⟩ := stores_singleton.1 (hh.stores (.node x cs) (by simp))
    simp only [top_node, children_node] at hget hroot
    have hchild : childOf h.arena x.1 = firstRef cs := by simp [childOf, hget]
    cases cs with
    | nil =>
      refine ⟨⟨h.arena.modify x.1 fun m => { m with child := none }, none⟩, ?_, ?_, rfl⟩
      · simp [PairingArenaHeap.detach, hroot, hchild]
      · simpa [combine, pairUp, linkAll] using hh.emptyLeaf
    | cons c cs =>
      obtain ⟨st', t', hrun, hcomb, hh'⟩ := hh.combineChildren prec
      refine ⟨⟨st', some t'.top.1⟩, ?_, by simpa [hcomb] using hh', by simp [hcomb]⟩
      simp [PairingArenaHeap.detach, hroot, hchild, hrun]

/-- Unlinking a node below the root leaves the rest of the tree and the node's subtree apart. -/
theorem Lays.unlink_inner (hl : h.Lays t) {u rest s : PairingTree (NodeRef × α)} {r : NodeRef}
    (ht : t.root = some u) (hcut : cut (fun e => e.1 == r) u = some (rest, s)) :
    Holds (unlink h.arena r) ([rest] ++ [s]) ∧ s.top.1 = r ∧ rest.top = u.top ∧ r ≠ u.top.1 := by
  have hh := hl.holds_root ht
  have hs := hh.stores u (by simp)
  have hnd : (nodes [u]).Nodup := by simpa using hh.nodup
  obtain ⟨hsr, hperm, -⟩ := toList_of_cut hcut
  -- the node is live, so `unlink` sees its record
  obtain ⟨n, hn, -⟩ := hs.get_of_mem (e := s.top) (by
    simpa using hperm.symm.subset (List.mem_append_left _ (by simp [toList_eq])))
  simp only [beq_iff_eq] at hsr
  rw [hsr] at hn
  obtain ⟨hrest, hs', hsr', hperm, hrtop, -, -⟩ :=
    Stores.unlink_cut hn hs hnd (fun q _ h => by cases h) hcut
  have hru : r ≠ u.top.1 := by
    intro he
    have hnd' := hnd
    rw [nodes_cons, List.nodup_cons] at hnd'
    refine hnd'.1 (List.mem_append_left _ (hperm.symm.subset (List.mem_append_left _ ?_)))
    rw [← he, ← hsr']
    exact top_mem_nodes s []
  refine ⟨hh.transfer (edits_unlink _ _) ?_ fun v hv => ?_, hsr', hrtop, hru⟩
  · rw [List.nil_append]
    calc nodes ([rest] ++ [s]) = rest.top.1 :: (nodes rest.children ++ nodes [s]) := by
          simp [nodes_cons]
      List.Perm _ (rest.top.1 :: (nodes [s] ++ nodes rest.children)) :=
        (List.perm_append_comm).cons _
      List.Perm _ (u.top.1 :: nodes u.children) := by rw [hrtop]; exact hperm.symm.cons _
      _ = nodes [u] := by simp [nodes_cons]
  · simp only [List.singleton_append, List.mem_cons, List.not_mem_nil, or_false] at hv
    rcases hv with rfl | rfl
    · simpa using hrest
    · exact hs'

/-- Detaching a node below the root cuts its subtree out, melds its children by the two passes and
melds the result in after the root, as `extract` does, and leaves the node loose. -/
theorem Lays.detach_inner (hl : h.Lays t) {u rest s : PairingTree (NodeRef × α)} {r : NodeRef}
    (ht : t.root = some u) (hcut : cut (fun e => e.1 == r) u = some (rest, s)) :
    ∃ h₁, h.detach prec r = some h₁ ∧
      Holds h₁.arena ((PairingHeap.meldRoots (byItem prec) (some rest)
        (combine (byItem prec) s.children)).toList ++ [.node s.top []]) ∧
      h₁.root = (PairingHeap.meldRoots (byItem prec) (some rest)
        (combine (byItem prec) s.children)).map fun v => v.top.1 := by
  have hroot := hl.root_eq ht
  obtain ⟨hh₁, hsr, hrtop, hru⟩ := hl.unlink_inner ht hcut
  have hroot' : h.root = (some rest).map fun v => v.top.1 := by simp [hroot, hrtop]
  cases s with
  | node y cs =>
    simp only [top_node] at hsr
    subst hsr
    obtain ⟨hget, -⟩ := stores_singleton.1 (hh₁.stores (.node y cs) (by simp))
    simp only [top_node, children_node] at hget
    have hchild : childOf (unlink h.arena y.1) y.1 = firstRef cs := by simp [childOf, hget]
    cases cs with
    | nil =>
      refine ⟨⟨(unlink h.arena y.1).modify y.1 fun m => { m with child := none }, h.root⟩, ?_,
        ?_, ?_⟩
      · simp [PairingArenaHeap.detach, hroot, Ne.symm hru, hchild, PairingArena.meld]
      · simpa [combine, pairUp, linkAll, PairingHeap.meldRoots] using hh₁.emptyLeaf
      · simp [combine, pairUp, linkAll, PairingHeap.meldRoots, hroot, hrtop]
    | cons c cs =>
      obtain ⟨st', t', hrun, hcomb, hh'⟩ := hh₁.combineChildren prec
      have hm := Holds.meld prec (some rest) (some t') [.node y []]
        (by simpa using hh')
      refine ⟨⟨(PairingArena.meld prec st' h.root (some t'.top.1)).1,
        (PairingArena.meld prec st' h.root (some t'.top.1)).2⟩, ?_, ?_, ?_⟩
      · simp [PairingArenaHeap.detach, hroot, Ne.symm hru, hchild, hrun]
      · simp only [top_node, children_node]
        rw [hroot', hcomb]
        exact hm.1
      · simp only [children_node]
        rw [hroot', hcomb]
        exact hm.2

end Detach

section Operations

/-! Each operation keeps `Lays`, and the laid-out heap moves as the pairing-heap operation of the
same name moves it, with elements carrying their node numbers and compared by their items. -/

variable (prec : α → α → Bool) {h : PairingArenaHeap α} {t : PairingHeap (NodeRef × α)}

theorem lays_new (pool : ShellPool) : (PairingArenaHeap.new pool : PairingArenaHeap α).Lays ⟨none⟩ :=
  ⟨⟨Arena.wellFormed_new pool, by simp, by simp, fun q => by
    simp [PairingArenaHeap.new, Arena.new, Arena.get]⟩, rfl⟩

theorem lays_emptyLike (h : PairingArenaHeap α) : h.emptyLike.Lays ⟨none⟩ :=
  lays_new h.arena.pool.fork

theorem lays_clear (h : PairingArenaHeap α) (shared : Nat) : (h.clear shared).1.Lays ⟨none⟩ :=
  ⟨⟨Arena.wellFormed_clear _ _, by simp, by simp, fun q => by
    simp [PairingArenaHeap.clear, Arena.get_clear]⟩, rfl⟩

theorem Lays.push (hl : h.Lays t) (x : α) (shared : Nat) :
    (h.push prec x shared).1.Lays
      (Meldable.insert (byItem prec) ((h.push prec x shared).2.1, x) t) := by
  have ha := hl.holds.alloc x shared
  have hm := Holds.meld prec t.root (some (.node ((h.arena.alloc ⟨x, none, none, none⟩
    shared).2.1, x) [])) [] (by simpa using ha)
  rw [List.append_nil] at hm
  constructor
  · simp only [PairingArenaHeap.push, hl.root, PairingHeap.root_insert]
    exact hm.1
  · simp only [PairingArenaHeap.push, hl.root, PairingHeap.root_insert]
    exact hm.2

theorem nodes_root_ne_nil {u : PairingTree (NodeRef × α)} (ht : t.root = some u) {r : NodeRef}
    (hr : r ∈ nodes t.root.toList) (hru : u.top.1 ≠ r) :
    ∃ rest s, cut (fun e => e.1 == r) u = some (rest, s) := by
  rw [ht, Option.toList_some, nodes_cons, List.mem_cons] at hr
  have hr' : r ∈ nodes u.children := by simpa using hr.resolve_left (Ne.symm hru)
  rw [nodes, List.mem_map] at hr'
  obtain ⟨y, hy, rfl⟩ := hr'
  cases hc : cut (fun e => e.1 == y.1) u with
  | none =>
    have := cut_eq_none.1 hc y hy
    simp at this
  | some p => exact ⟨p.1, p.2, rfl⟩

/-- Retiring a node returns its element and drops it from the tree as `extract` does. -/
theorem Lays.retire (hl : h.Lays t) {r : NodeRef} (hr : r ∈ nodes t.root.toList)
    (shared : Nat) :
    ∃ x h' shared' t', h.retire prec r shared = some (x, h', shared') ∧
      PairingHeap.extract (byItem prec) (fun e => e.1 == r) t = some ((r, x), t') ∧ h'.Lays t' := by
  obtain ⟨u, ht⟩ : ∃ u, t.root = some u := by
    cases ht : t.root with
    | none => simp [ht] at hr
    | some u => exact ⟨u, rfl⟩
  by_cases hru : u.top.1 = r
  · -- the root: its children become the tree
    subst hru
    obtain ⟨h₁, hd, hh₁, hroot₁⟩ := hl.detach_root prec ht
    obtain ⟨st', shared', hf, hh'⟩ := Holds.free (r := u.top.1) (x := u.top.2) hh₁ shared
    refine ⟨u.top.2, ⟨st', h₁.root⟩, shared', ⟨combine (byItem prec) u.children⟩, ?_, ?_,
      ⟨hh', hroot₁⟩⟩
    · simp [PairingArenaHeap.retire, hd, hf]
    · simp [PairingHeap.extract, ht]
  · obtain ⟨rest, s, hcut⟩ := nodes_root_ne_nil ht hr hru
    obtain ⟨-, hsr, -, -⟩ := hl.unlink_inner ht hcut
    obtain ⟨h₁, hd, hh₁, hroot₁⟩ := hl.detach_inner prec ht hcut
    obtain ⟨st', shared', hf, hh'⟩ := Holds.free (r := s.top.1) (x := s.top.2) hh₁ shared
    rw [hsr] at hf
    refine ⟨s.top.2, ⟨st', h₁.root⟩, shared',
      ⟨PairingHeap.meldRoots (byItem prec) (some rest) (combine (byItem prec) s.children)⟩, ?_, ?_,
      ⟨hh', hroot₁⟩⟩
    · simp [PairingArenaHeap.retire, hd, hf]
    · have hp : (u.top.1 == r) = false := by simpa using hru
      rw [show ((r, s.top.2) : NodeRef × α) = s.top by rw [← hsr]]
      simp [PairingHeap.extract, ht, hp, hcut]

theorem Lays.pop_eq_none (hl : h.Lays t) (ht : t.root = none) (shared : Nat) :
    h.pop prec shared = none := by
  simp [PairingArenaHeap.pop, hl.root, ht]

/-- Popping returns the element at the root and leaves what `popTop` leaves. -/
theorem Lays.pop (hl : h.Lays t) {u : PairingTree (NodeRef × α)} (ht : t.root = some u)
    (shared : Nat) :
    ∃ h' shared' t', h.pop prec shared = some (u.top.2, h', shared') ∧
      PairingHeap.popTop (byItem prec) t = some (u.top, t') ∧ h'.Lays t' := by
  obtain ⟨x, h', shared', t', hret, hext, hl'⟩ :=
    hl.retire prec (r := u.top.1) (by simp [ht, nodes_cons]) shared
  have hext' : PairingHeap.extract (byItem prec) (fun e => e.1 == u.top.1) t =
      some (u.top, ⟨combine (byItem prec) u.children⟩) := by
    simp [PairingHeap.extract, ht]
  rw [hext'] at hext
  simp only [Option.some.injEq, Prod.mk.injEq] at hext
  obtain ⟨hx, rfl⟩ := hext
  have hx' : x = u.top.2 := (congrArg Prod.snd hx).symm
  subst hx'
  refine ⟨h', shared', _, ?_, by simp [PairingHeap.popTop, ht], hl'⟩
  simp [PairingArenaHeap.pop, hl.root_eq ht, hret]

/-- A change of element either keeps the node in place at the root, cuts it out with its subtree
and links it back, or detaches it and melds it back alone, as `PairingHeap.reprioritize` does. -/
theorem Lays.reprioritize (hl : h.Lays t) {r : NodeRef} (hr : r ∈ nodes t.root.toList)
    (f : α → α) :
    ∃ h', h.reprioritize prec r f = some h' ∧
      h'.Lays (PairingHeap.reprioritize (byItem prec) (fun e => e.1 == r) (fun e => (e.1, f e.2))
        t) := by
  obtain ⟨u, ht⟩ : ∃ u, t.root = some u := by
    cases ht : t.root with
    | none => simp [ht] at hr
    | some u => exact ⟨u, rfl⟩
  have hroot := hl.root_eq ht
  by_cases hru : u.top.1 = r
  · -- the root changes its element
    subst hru
    have hh := hl.holds_root ht
    obtain ⟨hget, -⟩ := stores_singleton.1 (hh.stores u (by simp))
    have habs : PairingHeap.reprioritize (byItem prec) (fun e => e.1 == u.top.1)
        (fun e => (e.1, f e.2)) t =
        if prec u.top.2 (f u.top.2) then
          ⟨PairingHeap.meldRoots (byItem prec) (combine (byItem prec) u.children)
            (some (.node (u.top.1, f u.top.2) []))⟩
        else ⟨some (.node (u.top.1, f u.top.2) u.children)⟩ := by
      by_cases hw : prec u.top.2 (f u.top.2) = true <;> simp [PairingHeap.reprioritize, ht, byItem, hw]
    by_cases hw : prec u.top.2 (f u.top.2) = true
    · -- worse: detached, then melded back alone
      obtain ⟨h₁, hd, hh₁, hroot₁⟩ := hl.detach_root prec ht
      have hs := Holds.setItem _ u.top [] hh₁ (f u.top.2)
      have hm := Holds.meld prec (combine (byItem prec) u.children)
        (some (.node (u.top.1, f u.top.2) [])) [] (by simpa using hs)
      rw [habs, if_pos hw]
      refine ⟨⟨(PairingArena.meld prec (h₁.arena.modify u.top.1 fun m => { m with item := f u.top.2 })
        h₁.root (some u.top.1)).1, (PairingArena.meld prec (h₁.arena.modify u.top.1 fun m =>
          { m with item := f u.top.2 }) h₁.root (some u.top.1)).2⟩, ?_, ?_, ?_⟩
      · simp [PairingArenaHeap.reprioritize, hget, hw, hd]
      · rw [hroot₁]
        simpa using hm.1
      · rw [hroot₁]
        exact hm.2
    · -- no worse: changed in place
      have hs := Holds.setItem [] u.top u.children
        (by rw [node_top_children]; simpa using hh) (f u.top.2)
      rw [habs, if_neg hw]
      refine ⟨⟨h.arena.modify u.top.1 fun m => { m with item := f u.top.2 }, h.root⟩, ?_,
        by simpa using hs, by simp [hroot]⟩
      simp [PairingArenaHeap.reprioritize, hget, hw, hroot]
  · obtain ⟨rest, s, hcut⟩ := nodes_root_ne_nil ht hr hru
    obtain ⟨hh₁, hsr, hrtop, hru'⟩ := hl.unlink_inner ht hcut
    obtain ⟨n, hn, hitem⟩ : ∃ n, h.arena.get r = some n ∧ n.item = s.top.2 := by
      obtain ⟨-, hperm, -⟩ := toList_of_cut hcut
      obtain ⟨n, hn, hitem⟩ := ((hl.holds_root ht).stores u (by simp)).get_of_mem (e := s.top)
        (by simpa using hperm.symm.subset (List.mem_append_left _ (by simp [toList_eq])))
      exact ⟨n, hsr ▸ hn, hitem⟩
    have hroot' : h.root ≠ some r := by
      rw [hroot]
      exact fun he => hru (Option.some.inj he)
    have hp : (u.top.1 == r) = false := by simpa using hru
    have habs : PairingHeap.reprioritize (byItem prec) (fun e => e.1 == r)
        (fun e => (e.1, f e.2)) t =
        if prec s.top.2 (f s.top.2) then
          ⟨PairingHeap.meldRoots (byItem prec) (PairingHeap.meldRoots (byItem prec) (some rest)
            (combine (byItem prec) s.children)) (some (.node (r, f s.top.2) []))⟩
        else ⟨some (PairingTree.link (byItem prec) rest (.node (r, f s.top.2) s.children))⟩ := by
      by_cases hw : prec s.top.2 (f s.top.2) = true <;>
        simp [PairingHeap.reprioritize, ht, hp, hcut, byItem, hw, hsr]
    by_cases hw : prec s.top.2 (f s.top.2) = true
    · -- worse: detached, then melded back alone
      obtain ⟨h₁, hd, hh₂, hroot₁⟩ := hl.detach_inner prec ht hcut
      have hs := Holds.setItem _ s.top [] hh₂ (f s.top.2)
      rw [hsr] at hs
      have hm := Holds.meld prec (PairingHeap.meldRoots (byItem prec) (some rest)
        (combine (byItem prec) s.children)) (some (.node (r, f s.top.2) [])) []
        (by simpa using hs)
      rw [habs, if_pos hw]
      refine ⟨⟨(PairingArena.meld prec (h₁.arena.modify r fun m => { m with item := f s.top.2 })
        h₁.root (some r)).1, (PairingArena.meld prec (h₁.arena.modify r fun m =>
          { m with item := f s.top.2 }) h₁.root (some r)).2⟩, ?_, ?_, ?_⟩
      · simp [PairingArenaHeap.reprioritize, hn, hitem, hw, hd]
      · rw [hroot₁]
        simpa using hm.1
      · rw [hroot₁]
        exact hm.2
    · -- no worse: cut out with its subtree and linked back
      have hs := Holds.setItem [rest] s.top s.children
        (by rw [node_top_children]; simpa using hh₁) (f s.top.2)
      rw [hsr] at hs
      have hm := Holds.meld prec (some rest) (some (.node (r, f s.top.2) s.children)) [] (by simpa using hs)
      have hroot'' : h.root = (some rest).map fun v => v.top.1 := by simp [hroot, hrtop]
      rw [habs, if_neg hw]
      refine ⟨⟨(PairingArena.meld prec ((unlink h.arena r).modify r fun m =>
        { m with item := f s.top.2 }) h.root (some r)).1, (PairingArena.meld prec
          ((unlink h.arena r).modify r fun m => { m with item := f s.top.2 }) h.root (some r)).2⟩,
        ?_, ?_, ?_⟩
      · simp [PairingArenaHeap.reprioritize, hn, hitem, hw, hroot']
      · rw [hroot'']
        simpa [PairingHeap.meldRoots] using hm.1
      · rw [hroot'']
        simpa [PairingHeap.meldRoots] using hm.2

end Operations

end PairingArenaHeap

end PriorityQueues
