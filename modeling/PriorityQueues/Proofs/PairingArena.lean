import Mathlib
import PriorityQueues.Tree.PairingArena
import PriorityQueues.Proofs.Pairing
import PriorityQueues.Proofs.ArenaSlots

/-!
Two-pass consolidation over linked nodes. `Stores` says that an arena holds the records of a list
of sibling trees whose elements carry their node numbers (`layout`); `link` and both passes of
`combineSiblings` store the trees that `PairingTree.combine` builds.
-/

namespace PriorityQueues

namespace PairingArena

open PairingTree

variable {α : Type}

def byItem (prec : α → α → Bool) (a b : NodeRef × α) : Bool := prec a.2 b.2

theorem strictWeakOrder_byItem {prec : α → α → Bool} (hp : StrictWeakOrder prec) :
    StrictWeakOrder (byItem prec) :=
  hp.comap Prod.snd

def firstRef (ts : List (PairingTree (NodeRef × α))) : Link := ts.head?.map fun t => t.top.1

mutual
def treeLayout (next prev : Link) : PairingTree (NodeRef × α) → List (NodeRef × PairingNode α)
  | .node a cs => (a.1, ⟨a.2, firstRef cs, next, prev⟩) :: layout (some a.1) cs

def layout (prev : Link) : List (PairingTree (NodeRef × α)) → List (NodeRef × PairingNode α)
  | [] => []
  | t :: ts => treeLayout (firstRef ts) prev t ++ layout (some t.top.1) ts
end

def Stores (st : Arena (PairingNode α)) (prev : Link) (ts : List (PairingTree (NodeRef × α))) :
    Prop :=
  ∀ e ∈ layout prev ts, st.get e.1 = some e.2

instance [DecidableEq α] (st : Arena (PairingNode α)) (prev : Link)
    (ts : List (PairingTree (NodeRef × α))) : Decidable (Stores st prev ts) :=
  inferInstanceAs (Decidable (∀ e ∈ layout prev ts, st.get e.1 = some e.2))

def nodes (ts : List (PairingTree (NodeRef × α))) : List NodeRef := (toListList ts).map Prod.fst

section Layout

@[simp]
theorem firstRef_nil : firstRef ([] : List (PairingTree (NodeRef × α))) = none := rfl

@[simp]
theorem firstRef_cons (t : PairingTree (NodeRef × α)) (ts : List (PairingTree (NodeRef × α))) :
    firstRef (t :: ts) = some t.top.1 := rfl

@[simp]
theorem nodes_nil : nodes ([] : List (PairingTree (NodeRef × α))) = [] := by
  simp [nodes]

theorem nodes_cons (t : PairingTree (NodeRef × α)) (ts : List (PairingTree (NodeRef × α))) :
    nodes (t :: ts) = t.top.1 :: (nodes t.children ++ nodes ts) := by
  simp [nodes, toList_eq]

theorem nodes_append (ts us : List (PairingTree (NodeRef × α))) :
    nodes (ts ++ us) = nodes ts ++ nodes us := by
  induction ts with
  | nil => simp
  | cons t ts ih => simp [nodes_cons, ih]

theorem nodes_singleton (t : PairingTree (NodeRef × α)) :
    nodes [t] = t.top.1 :: nodes t.children := by
  simp [nodes_cons]

theorem nodes_perm {ts us : List (PairingTree (NodeRef × α))} (h : ts.Perm us) :
    (nodes ts).Perm (nodes us) := by
  induction h with
  | nil => exact .refl _
  | cons t _ ih =>
    rw [nodes_cons, nodes_cons]
    exact (ih.append_left _).cons _
  | swap t u ts =>
    change (nodes ([u] ++ ([t] ++ ts))).Perm (nodes ([t] ++ ([u] ++ ts)))
    simp only [nodes_append, ← List.append_assoc]
    exact List.perm_append_comm.append_right _
  | trans _ _ ih₁ ih₂ => exact ih₁.trans ih₂

theorem nodes_link (p : NodeRef × α → NodeRef × α → Bool) (ta tb : PairingTree (NodeRef × α)) :
    (nodes [PairingTree.link p ta tb]).Perm (nodes [ta, tb]) := by
  simpa [nodes] using (toList_link p ta tb).map Prod.fst

theorem nodes_pairUp (p : NodeRef × α → NodeRef × α → Bool)
    (ts : List (PairingTree (NodeRef × α))) :
    (nodes (pairUp p ts)).Perm (nodes ts) :=
  (toListList_pairUp p ts).map Prod.fst

theorem nodes_subset_of_mem {t : PairingTree (NodeRef × α)} {ts : List (PairingTree (NodeRef × α))}
    (h : t ∈ ts) : nodes [t] ⊆ nodes ts := by
  obtain ⟨as, bs, rfl⟩ := List.append_of_mem h
  rw [nodes_append, show t :: bs = [t] ++ bs from rfl, nodes_append]
  exact fun q hq => List.mem_append_right _ (List.mem_append_left _ hq)

theorem mem_nodes_of_firstRef {ts : List (PairingTree (NodeRef × α))} {f : NodeRef}
    (h : firstRef ts = some f) : f ∈ nodes ts := by
  cases ts with
  | nil => simp at h
  | cons t ts =>
    simp only [firstRef_cons, Option.some.injEq] at h
    simp [nodes_cons, h]

theorem length_le_nodes (ts : List (PairingTree (NodeRef × α))) :
    ts.length ≤ (nodes ts).length := by
  induction ts with
  | nil => simp
  | cons t ts ih =>
    simp only [nodes_cons, List.length_cons, List.length_append]
    omega

theorem layout_cons (prev : Link) (t : PairingTree (NodeRef × α))
    (ts : List (PairingTree (NodeRef × α))) :
    layout prev (t :: ts) = (t.top.1, ⟨t.top.2, firstRef t.children, firstRef ts, prev⟩) ::
      (layout (some t.top.1) t.children ++ layout (some t.top.1) ts) := by
  cases t
  simp [layout, treeLayout]

mutual
theorem map_fst_treeLayout : ∀ (next prev : Link) (t : PairingTree (NodeRef × α)),
    (treeLayout next prev t).map Prod.fst = t.toList.map Prod.fst
  | _, _, .node a cs => by
    simp only [treeLayout, List.map_cons, map_fst_layout (some a.1) cs, nodes, toList_node]

theorem map_fst_layout : ∀ (prev : Link) (ts : List (PairingTree (NodeRef × α))),
    (layout prev ts).map Prod.fst = nodes ts
  | _, [] => by simp [layout]
  | _, t :: ts => by
    simp only [layout, List.map_append, map_fst_treeLayout, map_fst_layout (some t.top.1) ts,
      nodes, toListList_cons]
end

end Layout

section Stores

variable {st st' : Arena (PairingNode α)} {prev : Link} {ts : List (PairingTree (NodeRef × α))}

@[simp]
theorem stores_nil : Stores st prev [] := by
  simp [Stores, layout]

theorem stores_cons {t : PairingTree (NodeRef × α)} {ts : List (PairingTree (NodeRef × α))} :
    Stores st prev (t :: ts) ↔
      st.get t.top.1 = some ⟨t.top.2, firstRef t.children, firstRef ts, prev⟩ ∧
        Stores st (some t.top.1) t.children ∧ Stores st (some t.top.1) ts := by
  simp only [Stores, layout_cons, List.forall_mem_cons, List.forall_mem_append]

theorem stores_singleton {t : PairingTree (NodeRef × α)} :
    Stores st prev [t] ↔
      st.get t.top.1 = some ⟨t.top.2, firstRef t.children, none, prev⟩ ∧
        Stores st (some t.top.1) t.children := by
  simp [stores_cons]

theorem Stores.isSome_get (hs : Stores st prev ts) {q : NodeRef} (hq : q ∈ nodes ts) :
    (st.get q).isSome := by
  rw [← map_fst_layout prev ts] at hq
  obtain ⟨e, he, rfl⟩ := List.mem_map.1 hq
  simp [hs e he]

theorem Stores.frame (hs : Stores st prev ts) (h : ∀ q ∈ nodes ts, st'.get q = st.get q) :
    Stores st' prev ts := by
  intro e he
  rw [h e.1 (map_fst_layout prev ts ▸ List.mem_map_of_mem he)]
  exact hs e he

theorem Stores.repoint {p' : Link} {t : PairingTree (NodeRef × α)} (hs : Stores st prev (t :: ts))
    (hroot : st'.get t.top.1 = (st.get t.top.1).map fun n => { n with prev := p' })
    (hrest : ∀ q ∈ nodes t.children ++ nodes ts, st'.get q = st.get q) :
    Stores st' p' (t :: ts) := by
  obtain ⟨hget, hcs, hts⟩ := stores_cons.1 hs
  refine stores_cons.2 ⟨?_, hcs.frame fun q hq => hrest q (List.mem_append_left _ hq),
    hts.frame fun q hq => hrest q (List.mem_append_right _ hq)⟩
  rw [hroot, hget]
  rfl

theorem Stores.length_le (hs : Stores st prev ts) (hnd : (nodes ts).Nodup) :
    ts.length ≤ st.slotCount := by
  have hsub : ((nodes ts).map NodeRef.index).Subperm (List.range st.slots.size) := by
    apply (hnd.map (fun _ _ h => NodeRef.ext h)).subperm
    intro i hi
    obtain ⟨q, hq, rfl⟩ := List.mem_map.1 hi
    obtain ⟨n, hn⟩ := Option.isSome_iff_exists.1 (hs.isSome_get hq)
    exact List.mem_range.2 (Arena.lt_size_of_get hn)
  calc ts.length ≤ (nodes ts).length := length_le_nodes ts
    _ = ((nodes ts).map NodeRef.index).length := (List.length_map _).symm
    _ ≤ (List.range st.slots.size).length := hsub.length_le
    _ = st.slotCount := List.length_range

end Stores

section Writes

/-! Each write of `isolate` and `adopt`, node by node. -/

variable {st : Arena (PairingNode α)}

theorem get_isolate_self {r : NodeRef} {n : PairingNode α} (h : st.get r = some n) :
    (isolate st r).get r = some { n with next := none, prev := none } := by
  simp [isolate, Arena.get_modify, h]

theorem get_isolate_of_ne {r q : NodeRef} (h : r ≠ q) : (isolate st r).get q = st.get q := by
  simp [isolate, Arena.get_modify, h]

theorem get_setPrev (l p : Link) (q : NodeRef) :
    (setPrev st l p).get q =
      if l = some q then (st.get q).map fun n => { n with prev := p } else st.get q := by
  cases l with
  | none => simp [setPrev]
  | some f => simp [setPrev, Arena.get_modify]

theorem get_adopt_of_ne {w l q : NodeRef} (hw : w ≠ q) (hl : l ≠ q)
    (hf : childOf st w ≠ some q) : (adopt st w l).get q = st.get q := by
  simp [adopt, get_setPrev, Arena.get_modify, hw, hl, hf]

theorem get_adopt_winner {w l : NodeRef} (hl : l ≠ w) (hf : childOf st w ≠ some w) :
    (adopt st w l).get w = (st.get w).map fun n => { n with child := some l } := by
  simp [adopt, get_setPrev, Arena.get_modify, hl, hf]

theorem get_adopt_loser {w l : NodeRef} (hw : w ≠ l) (hf : childOf st w ≠ some l) :
    (adopt st w l).get l =
      (st.get l).map fun n => { n with next := childOf st w, prev := some w } := by
  simp [adopt, get_setPrev, Arena.get_modify, hw, hf]

theorem get_adopt_first {w l f : NodeRef} (hf : childOf st w = some f) (hw : w ≠ f) (hl : l ≠ f) :
    (adopt st w l).get f = (st.get f).map fun n => { n with prev := some l } := by
  simp [adopt, get_setPrev, Arena.get_modify, hw, hl, hf]

end Writes

section Link

variable {st : Arena (PairingNode α)} {prev : Link} {ts : List (PairingTree (NodeRef × α))}

theorem Stores.isolate {t : PairingTree (NodeRef × α)} (hs : Stores st prev (t :: ts))
    (hnd : (nodes (t :: ts)).Nodup) :
    Stores (isolate st t.top.1) none [t] ∧ Stores (isolate st t.top.1) (some t.top.1) ts := by
  obtain ⟨hroot, hcs, hts⟩ := stores_cons.1 hs
  rw [nodes_cons, List.nodup_cons, List.mem_append, not_or] at hnd
  obtain ⟨⟨hncs, hnts⟩, -⟩ := hnd
  refine ⟨stores_singleton.2 ⟨by rw [get_isolate_self hroot], ?_⟩, ?_⟩
  · exact hcs.frame fun q hq => get_isolate_of_ne fun h => hncs (h ▸ hq)
  · exact hts.frame fun q hq => get_isolate_of_ne fun h => hnts (h ▸ hq)

theorem Stores.adopt {a : NodeRef × α} {cs : List (PairingTree (NodeRef × α))}
    {tl : PairingTree (NodeRef × α)} (hw : Stores st none [.node a cs]) (hl : Stores st none [tl])
    (hnd : (nodes [.node a cs, tl]).Nodup) :
    Stores (adopt st a.1 tl.top.1) none [.node a (tl :: cs)] ∧
      ∀ q ∉ nodes [.node a cs, tl], (adopt st a.1 tl.top.1).get q = st.get q := by
  obtain ⟨hwget, hcs⟩ := stores_singleton.1 hw
  obtain ⟨hlget, hds⟩ := stores_singleton.1 hl
  simp only [top_node, children_node] at hwget hcs
  have hchild : childOf st a.1 = firstRef cs := by simp [childOf, hwget]
  have hnd' : (a.1 :: (nodes cs ++ tl.top.1 :: nodes tl.children)).Nodup := by
    simpa [nodes_cons] using hnd
  simp only [List.nodup_cons, List.nodup_append, List.mem_append, List.mem_cons, not_or] at hnd'
  obtain ⟨⟨hwcs, hwl, hwds⟩, hcnd, ⟨hlds, -⟩, hcsl⟩ := hnd'
  have hlcs : tl.top.1 ∉ nodes cs := fun h => hcsl _ h _ (Or.inl rfl) rfl
  -- `adopt` writes the two roots and the old first child, all inside the two trees
  have hfirst : ∀ q, q ∉ nodes cs → childOf st a.1 ≠ some q :=
    fun q hq h => hq (mem_nodes_of_firstRef (hchild ▸ h))
  refine ⟨?_, fun q hq => ?_⟩
  · rw [stores_singleton]
    simp only [top_node, children_node]
    rw [stores_cons]
    refine ⟨?_, ?_, ?_, ?_⟩
    · -- the loser is the winner's first child now
      rw [get_adopt_winner (Ne.symm hwl) (hfirst _ hwcs), hwget]
      rfl
    · -- the loser sits in front of the old children
      rw [get_adopt_loser hwl (hfirst _ hlcs), hlget, hchild]
      rfl
    · -- the loser's children are untouched
      exact hds.frame fun q hq => get_adopt_of_ne (ne_of_mem_of_not_mem hq hwds).symm
        (ne_of_mem_of_not_mem hq hlds).symm (hfirst q fun h => hcsl q h q (Or.inr hq) rfl)
    · -- the old first child points back to the loser now
      cases cs with
      | nil => exact stores_nil
      | cons c cs' =>
        have hc : childOf st a.1 = some c.top.1 := hchild
        have hcmem : c.top.1 ∈ nodes (c :: cs') := mem_nodes_of_firstRef rfl
        have hin : ∀ q ∈ nodes c.children ++ nodes cs', q ∈ nodes (c :: cs') := fun q hq => by
          rw [nodes_cons]
          exact List.mem_cons_of_mem _ hq
        rw [nodes_cons, List.nodup_cons] at hcnd
        refine hcs.repoint (get_adopt_first hc (ne_of_mem_of_not_mem hcmem hwcs).symm
          (ne_of_mem_of_not_mem hcmem hlcs).symm) fun q hq => get_adopt_of_ne
            (ne_of_mem_of_not_mem (hin q hq) hwcs).symm (ne_of_mem_of_not_mem (hin q hq) hlcs).symm
            fun h => hcnd.1 (Option.some.inj (hc.symm.trans h) ▸ hq)
  · -- outside the two trees nothing changes
    simp only [nodes_cons, nodes_nil, List.append_nil, List.mem_cons, List.mem_append, not_or,
      top_node, children_node] at hq
    obtain ⟨hqw, hqcs, hql, -⟩ := hq
    exact get_adopt_of_ne (Ne.symm hqw) (Ne.symm hql) (hfirst q hqcs)

theorem Stores.link (prec : α → α → Bool) {ta tb : PairingTree (NodeRef × α)}
    (ha : Stores st none [ta]) (hb : Stores st none [tb]) (hnd : (nodes [ta, tb]).Nodup) :
    Stores (link prec st ta.top.1 tb.top.1).1 none [PairingTree.link (byItem prec) ta tb] ∧
      (link prec st ta.top.1 tb.top.1).2 = (PairingTree.link (byItem prec) ta tb).top.1 ∧
      ∀ q ∉ nodes [ta, tb], (link prec st ta.top.1 tb.top.1).1.get q = st.get q := by
  cases ta with
  | node a as =>
    cases tb with
    | node b bs =>
      obtain ⟨haget, -⟩ := stores_singleton.1 ha
      obtain ⟨hbget, -⟩ := stores_singleton.1 hb
      simp only [top_node] at haget hbget
      have hprec : precedes prec st b.1 a.1 = prec b.2 a.2 := by
        rw [precedes, haget, hbget]
      have hswap : (nodes [node b bs, node a as]).Perm (nodes [node a as, node b bs]) :=
        nodes_perm (List.Perm.swap _ _ _)
      simp only [PairingArena.link, PairingTree.link, top_node, hprec, byItem]
      by_cases hba : prec b.2 a.2 = true
      · -- `b` wins and adopts `a`
        simp only [hba, ↓reduceIte]
        obtain ⟨hs, hout⟩ := Stores.adopt hb ha (hswap.nodup_iff.2 hnd)
        exact ⟨hs, rfl, fun q hq => hout q fun h => hq (hswap.subset h)⟩
      · simp only [hba, ↓reduceIte, Bool.false_eq_true]
        obtain ⟨hs, hout⟩ := Stores.adopt ha hb hnd
        exact ⟨hs, rfl, hout⟩

def linkCut (prec : α → α → Bool) (st : Arena (PairingNode α)) (a b : NodeRef) :
    Arena (PairingNode α) × NodeRef :=
  link prec (isolate (isolate st a) b) a b

theorem Stores.linkPair (prec : α → α → Bool) {ta tb : PairingTree (NodeRef × α)}
    (hs : Stores st prev (ta :: tb :: ts)) (hnd : (nodes (ta :: tb :: ts)).Nodup) :
    Stores (linkCut prec st ta.top.1 tb.top.1).1 none [PairingTree.link (byItem prec) ta tb] ∧
      (linkCut prec st ta.top.1 tb.top.1).2 = (PairingTree.link (byItem prec) ta tb).top.1 ∧
      Stores (linkCut prec st ta.top.1 tb.top.1).1 (some tb.top.1) ts ∧
      ∀ q ∉ nodes [ta, tb], (linkCut prec st ta.top.1 tb.top.1).1.get q = st.get q := by
  have hsplit : nodes (ta :: tb :: ts) = nodes [ta, tb] ++ nodes ts := nodes_append [ta, tb] ts
  have hab : (nodes [ta, tb]).Nodup := (hsplit ▸ hnd).of_append_left
  have hdisj := (List.nodup_append.1 (hsplit ▸ hnd)).2.2
  have hbnd : (nodes (tb :: ts)).Nodup := by
    rw [nodes_cons, List.nodup_cons] at hnd
    exact hnd.2.of_append_right
  have hbta : tb.top.1 ∉ nodes [ta] := fun h =>
    (List.nodup_append.1 (nodes_append [ta] [tb] ▸ hab)).2.2 _ h _ (by simp [nodes_cons]) rfl
  obtain ⟨hisoA, hrestA⟩ := Stores.isolate hs hnd
  obtain ⟨hisoB, hrestB⟩ := Stores.isolate hrestA hbnd
  have hA : Stores (PairingArena.isolate (PairingArena.isolate st ta.top.1) tb.top.1) none [ta] :=
    hisoA.frame fun q hq => get_isolate_of_ne (ne_of_mem_of_not_mem hq hbta).symm
  obtain ⟨hl, hroot, hout⟩ := Stores.link prec hA hisoB hab
  refine ⟨hl, hroot, hrestB.frame fun q hq => hout q fun h => hdisj q h q hq rfl, fun q hq => ?_⟩
  have hqa : ta.top.1 ≠ q := fun h => hq (h ▸ by simp [nodes_cons])
  have hqb : tb.top.1 ≠ q := fun h => hq (h ▸ by simp [nodes_cons])
  rw [linkCut, hout q hq, get_isolate_of_ne hqb, get_isolate_of_ne hqa]

theorem pairPass_pair (prec : α → α → Bool) {ta tb : PairingTree (NodeRef × α)} (fuel : Nat)
    (pairs : List NodeRef) (hs : Stores st prev (ta :: tb :: ts)) (hab : ta.top.1 ≠ tb.top.1) :
    pairPass prec (fuel + 1) st (some ta.top.1) pairs =
      pairPass prec fuel (linkCut prec st ta.top.1 tb.top.1).1 (firstRef ts)
        ((linkCut prec st ta.top.1 tb.top.1).2 :: pairs) := by
  obtain ⟨hget, -, hrest⟩ := stores_cons.1 hs
  have hnextA : nextOf st ta.top.1 = some tb.top.1 := by simp [nextOf, hget]
  have hnextB : nextOf (isolate st ta.top.1) tb.top.1 = firstRef ts := by
    simp [nextOf, get_isolate_of_ne hab, (stores_cons.1 hrest).1]
  simp only [pairPass, hnextA, hnextB, linkCut]

end Link

section Passes

variable (prec : α → α → Bool)

theorem Stores.pairPass : ∀ {ts : List (PairingTree (NodeRef × α))} {st : Arena (PairingNode α)}
    {prev : Link} (fuel : Nat) (pairs : List NodeRef), Stores st prev ts → (nodes ts).Nodup →
    ts.length ≤ fuel →
    ∃ st', pairPass prec fuel st (firstRef ts) pairs =
        some (st', ((pairUp (byItem prec) ts).map fun t => t.top.1).reverse ++ pairs) ∧
      (∀ u ∈ pairUp (byItem prec) ts, Stores st' none [u]) ∧
      ∀ q ∉ nodes ts, st'.get q = st.get q
  | [], st, _, fuel, pairs, _, _, _ =>
    ⟨st, by cases fuel <;> rfl, by simp [pairUp], fun _ _ => rfl⟩
  | [t], st, prev, fuel, pairs, hs, hnd, hfuel => by
    -- a last tree without a partner is cut loose and pushed alone
    obtain ⟨f, rfl⟩ : ∃ f, fuel = f + 1 := ⟨fuel - 1, by simp at hfuel; omega⟩
    have hnext : nextOf st t.top.1 = none := by simp [nextOf, (stores_cons.1 hs).1]
    refine ⟨PairingArena.isolate st t.top.1, by simp [PairingArena.pairPass, hnext, pairUp], ?_,
      fun q hq => get_isolate_of_ne fun h => hq (h ▸ by simp [nodes_cons])⟩
    simpa [pairUp] using (Stores.isolate hs hnd).1
  | ta :: tb :: rest, st, prev, fuel, pairs, hs, hnd, hfuel => by
    obtain ⟨f, rfl⟩ : ∃ f, fuel = f + 1 := ⟨fuel - 1, by simp at hfuel; omega⟩
    have hsplit : nodes (ta :: tb :: rest) = nodes [ta, tb] ++ nodes rest :=
      nodes_append [ta, tb] rest
    have hdisj := (List.nodup_append.1 (hsplit ▸ hnd)).2.2
    have hab : ta.top.1 ≠ tb.top.1 := by
      rw [nodes_cons, List.nodup_cons] at hnd
      exact fun h => hnd.1 (h ▸ by simp [nodes_cons])
    -- link the pair, then the rest of the pass runs on the rest of the list
    obtain ⟨hl, hroot, hrest, hout⟩ := Stores.linkPair prec hs hnd
    obtain ⟨st', hpass, hstored, hkeep⟩ := Stores.pairPass f
      ((PairingTree.link (byItem prec) ta tb).top.1 :: pairs) hrest
      (hsplit ▸ hnd).of_append_right (by simp at hfuel; omega)
    refine ⟨st', ?_, ?_, fun q hq => ?_⟩
    · rw [firstRef_cons, pairPass_pair prec f pairs hs hab, hroot, hpass]
      simp only [pairUp, List.map_cons, List.reverse_cons, List.append_assoc,
        List.singleton_append]
    · -- the pair's tree lies outside the rest, which is all the later steps touch
      intro u hu
      rcases List.mem_cons.1 hu with rfl | hu
      · exact hl.frame fun q hq => hkeep q fun h =>
          hdisj q ((nodes_link _ ta tb).subset hq) q h rfl
      · exact hstored u hu
    · rw [hsplit, List.mem_append, not_or] at hq
      rw [hkeep q hq.2, hout q hq.1]

theorem Stores.foldPass : ∀ (vs : List (PairingTree (NodeRef × α))) {st : Arena (PairingNode α)}
    {u : PairingTree (NodeRef × α)}, Stores st none [u] → (∀ v ∈ vs, Stores st none [v]) →
    (nodes (u :: vs)).Nodup →
    ∃ st', foldPass prec st u.top.1 (vs.map fun v => v.top.1) =
        (st', (vs.foldl (fun acc v => PairingTree.link (byItem prec) v acc) u).top.1) ∧
      Stores st' none [vs.foldl (fun acc v => PairingTree.link (byItem prec) v acc) u] ∧
      ∀ q ∉ nodes (u :: vs), st'.get q = st.get q
  | [], st, _, hu, _, _ => ⟨st, rfl, hu, fun _ _ => rfl⟩
  | v :: vs, st, u, hu, hvs, hnd => by
    -- the popped tree and the result so far, against the trees still on the stack
    have hperm : (nodes (u :: v :: vs)).Perm (nodes [v, u] ++ nodes vs) := by
      rw [← nodes_append]
      exact nodes_perm (List.Perm.swap v u vs)
    have hnd' := hperm.nodup_iff.1 hnd
    have hdisj := (List.nodup_append.1 hnd').2.2
    obtain ⟨hl, hroot, hout⟩ := Stores.link prec (hvs v List.mem_cons_self) hu hnd'.of_append_left
    have hvs' : ∀ w ∈ vs, Stores (PairingArena.link prec st v.top.1 u.top.1).1 none [w] :=
      fun w hw => (hvs w (List.mem_cons_of_mem _ hw)).frame fun q hq =>
        hout q fun h => hdisj q h q (nodes_subset_of_mem hw hq) rfl
    have hlinked :
        (nodes (PairingTree.link (byItem prec) v u :: vs)).Perm (nodes (u :: v :: vs)) := by
      rw [← List.singleton_append, nodes_append]
      exact ((nodes_link _ v u).append_right _).trans hperm.symm
    obtain ⟨st', hfold, hst', hkeep⟩ := Stores.foldPass vs hl hvs' (hlinked.nodup_iff.2 hnd)
    refine ⟨st', ?_, hst', fun q hq => ?_⟩
    · rw [List.map_cons, PairingArena.foldPass, hroot, hfold, List.foldl_cons]
    · rw [hkeep q fun h => hq (hlinked.subset h), hout q fun h => hq (hperm.symm.subset
        (List.mem_append_left _ h))]

theorem Stores.combineSiblings {st : Arena (PairingNode α)} {prev : Link}
    {ts : List (PairingTree (NodeRef × α))} {first : NodeRef} (hfirst : firstRef ts = some first)
    (hs : Stores st prev ts) (hnd : (nodes ts).Nodup) :
    ∃ st' t, combineSiblings prec st first = some (st', t.top.1) ∧
      combine (byItem prec) ts = some t ∧ Stores st' none [t] ∧
      ∀ q ∉ nodes ts, st'.get q = st.get q := by
  obtain ⟨st₁, hpass, hstored, hkeep₁⟩ :=
    Stores.pairPass prec st.slotCount [] hs hnd (hs.length_le hnd)
  have hne : pairUp (byItem prec) ts ≠ [] := by
    rw [Ne, pairUp_eq_nil]
    rintro rfl
    simp at hfirst
  -- the first pass leaves the last pair on top of the stack
  obtain ⟨u, vs, huv⟩ := List.exists_cons_of_ne_nil (List.reverse_ne_nil_iff.2 hne)
  have hps : pairUp (byItem prec) ts = vs.reverse ++ [u] := by
    rw [← List.reverse_reverse (pairUp (byItem prec) ts), huv, List.reverse_cons]
  have hperm : (nodes (u :: vs)).Perm (nodes ts) :=
    (nodes_perm (huv ▸ List.reverse_perm _)).trans (nodes_pairUp _ ts)
  have hmem : ∀ v ∈ u :: vs, v ∈ pairUp (byItem prec) ts := fun v hv => by
    rw [← List.mem_reverse, huv]
    exact hv
  obtain ⟨st', hfold, hst', hkeep₂⟩ := Stores.foldPass prec vs
    (hstored u (hmem u List.mem_cons_self))
    (fun v hv => hstored v (hmem v (List.mem_cons_of_mem _ hv))) (hperm.nodup_iff.2 hnd)
  refine ⟨st', _, ?_, ?_, hst', fun q hq => ?_⟩
  · rw [PairingArena.combineSiblings, ← hfirst, hpass]
    simp only [Option.map_some, List.append_nil, ← List.map_reverse, huv, List.map_cons, hfold]
  · rw [combine, hps, linkAll_append_singleton, List.foldr_reverse]
  · rw [hkeep₂ q fun h => hq (hperm.subset h), hkeep₁ q hq]

end Passes

/-- On a stored sibling list of disjoint heap-ordered trees, `combineSiblings` ends and stores the
tree `PairingTree.combine` builds, rooted at the leftmost least root. -/
theorem combine_siblings_links_leftmost_least {prec : α → α → Bool} (hp : StrictWeakOrder prec)
    {st : Arena (PairingNode α)} {prev : Link} {ts : List (PairingTree (NodeRef × α))}
    {first : NodeRef} (hfirst : firstRef ts = some first) (hs : Stores st prev ts)
    (hnd : (nodes ts).Nodup) (hord : ∀ t ∈ ts, t.ordered (byItem prec) = true) :
    ∃ (st' : Arena (PairingNode α)) (t : PairingTree (NodeRef × α)),
      combineSiblings prec st first = some (st', t.top.1) ∧
      combine (byItem prec) ts = some t ∧ Stores st' none [t] ∧
      t.toList.Perm (toListList ts) ∧ t.ordered (byItem prec) = true ∧
      (ts.map top).find? (fun x => (ts.map top).all fun y => !prec y.2 x.2) = some t.top ∧
      ∀ q ∉ nodes ts, st'.get q = st.get q := by
  obtain ⟨st', t, hrun, hcomb, hst', hkeep⟩ := Stores.combineSiblings prec hfirst hs hnd
  exact ⟨st', t, hrun, hcomb, hst', toList_of_combine hcomb,
    ordered_of_combine (strictWeakOrder_byItem hp) hord hcomb,
    top_of_combine (strictWeakOrder_byItem hp) hcomb, hkeep⟩

def tiedLeaves : List (PairingTree (NodeRef × Nat)) :=
  [.node (⟨0⟩, 5) [], .node (⟨1⟩, 3) [], .node (⟨2⟩, 3) []]

def tiedArena : Arena (PairingNode Nat) :=
  ⟨#[some ⟨5, none, some ⟨1⟩, none⟩, some ⟨3, none, some ⟨2⟩, some ⟨0⟩⟩,
    some ⟨3, none, none, some ⟨1⟩⟩], [], .none, 3⟩

theorem combine_siblings_links_leftmost_least_of_tied_leaves :
    firstRef tiedLeaves = some ⟨0⟩ ∧ Stores tiedArena none tiedLeaves ∧
      (nodes tiedLeaves).Nodup ∧
      (∀ t ∈ tiedLeaves, t.ordered (byItem fun a b : Nat => decide (a < b)) = true) ∧
      ∃ (st' : Arena (PairingNode Nat)) (t : PairingTree (NodeRef × Nat)),
        combineSiblings (fun a b : Nat => decide (a < b)) tiedArena ⟨0⟩ = some (st', t.top.1) ∧
          t.top.1 = ⟨1⟩ := by
  have hfirst : firstRef tiedLeaves = some ⟨0⟩ := rfl
  have hs : Stores tiedArena none tiedLeaves := by decide
  have hnd : (nodes tiedLeaves).Nodup := by decide
  have hord : ∀ t ∈ tiedLeaves, t.ordered (byItem fun a b : Nat => decide (a < b)) = true := by
    decide
  obtain ⟨st', t, hrun, -, -, -, -, htop, -⟩ :=
    combine_siblings_links_leftmost_least (StrictWeakOrder.ofLT id) hfirst hs hnd hord
  have hfind : (tiedLeaves.map top).find?
      (fun x => (tiedLeaves.map top).all fun y => !decide (y.2 < x.2)) = some (⟨1⟩, 3) := by
    decide
  have hroot : t.top = (⟨1⟩, 3) := Option.some.inj (htop.symm.trans hfind)
  exact ⟨hfirst, hs, hnd, hord, st', t, hrun, by rw [hroot]⟩

end PairingArena

end PriorityQueues
