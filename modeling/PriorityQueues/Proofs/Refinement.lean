import Mathlib
import PriorityQueues.Proofs.Leftist
import PriorityQueues.Proofs.Pairing
import PriorityQueues.Proofs.Skew

/-!
Tracked heaps as finite maps from live ids to entries (`contents`). Since no id occurs twice in a
reachable tree, every operation is described through the map (`MeetsSpec`).
-/

namespace PriorityQueues

open Meldable

namespace Tagged

variable {V P : Type}

def idMap (l : List (Tagged V P)) : Finmap (fun _ : UInt64 => Entry V P) :=
  (l.map fun a => (⟨a.id, a.entry⟩ : Σ _ : UInt64, Entry V P)).toFinmap

@[simp]
theorem idMap_nil : idMap ([] : List (Tagged V P)) = ∅ := Finmap.toFinmap_nil

@[simp]
theorem idMap_cons (a : Tagged V P) (l : List (Tagged V P)) :
    idMap (a :: l) = (idMap l).insert a.id a.entry := rfl

theorem idMap_append (l l' : List (Tagged V P)) : idMap (l ++ l') = idMap l ∪ idMap l' := by
  induction l with
  | nil => simp [Finmap.empty_union]
  | cons a l ih => rw [List.cons_append, idMap_cons, idMap_cons, ih, Finmap.insert_union]

theorem lookup_idMap (k : UInt64) (l : List (Tagged V P)) :
    (idMap l).lookup k = (l.find? (hasId k)).map entry := by
  induction l with
  | nil => simp
  | cons a l ih =>
    by_cases h : a.id = k
    · subst h
      simp [hasId]
    · simp [hasId, h, Finmap.lookup_insert_of_ne _ (Ne.symm h), ih]

theorem mem_idMap {k : UInt64} {l : List (Tagged V P)} : k ∈ idMap l ↔ ∃ a ∈ l, a.id = k := by
  rw [← Finmap.lookup_isSome, lookup_idMap, Option.isSome_map, List.find?_isSome]
  simp [hasId]

theorem mem_of_lookup_idMap {k : UInt64} {e : Entry V P} {l : List (Tagged V P)}
    (h : (idMap l).lookup k = some e) : ⟨k, e⟩ ∈ l := by
  rw [lookup_idMap, Option.map_eq_some_iff] at h
  obtain ⟨a, hfind, rfl⟩ := h
  have hk : a.id = k := by simpa [hasId] using List.find?_some hfind
  subst hk
  exact List.mem_of_find?_eq_some hfind

theorem keys_idMap (l : List (Tagged V P)) : (idMap l).keys = (l.map id).toFinset := by
  ext k
  simp [Finmap.mem_keys, mem_idMap]

theorem idMap_eq_of_perm {l l' : List (Tagged V P)} (hp : l.Perm l') (hl : (l.map id).Nodup) :
    idMap l = idMap l' := by
  induction hp with
  | nil => rfl
  | cons a _ ih => rw [idMap_cons, idMap_cons, ih (List.nodup_cons.1 hl).2]
  | swap a b l =>
    have hab : a.id ≠ b.id := by
      simp only [List.map_cons, List.nodup_cons, List.mem_cons, not_or] at hl
      exact Ne.symm hl.1.1
    simp only [idMap_cons]
    exact Finmap.insert_insert_of_ne _ hab
  | trans h₁ _ ih₁ ih₂ => exact (ih₁ hl).trans (ih₂ ((h₁.map id).nodup_iff.1 hl))

section Split

variable {l l' : List (Tagged V P)} {a : Tagged V P}

theorem nodup_of_perm_cons (hl : (l.map id).Nodup) (hp : l.Perm (a :: l')) :
    a.id ∉ l'.map id ∧ (l'.map id).Nodup := by
  have := (hp.map id).nodup_iff.1 hl
  exact List.nodup_cons.1 this

theorem idMap_of_perm_cons (hl : (l.map id).Nodup) (hp : l.Perm (a :: l')) :
    idMap l = (idMap l').insert a.id a.entry ∧ a.id ∉ idMap l' := by
  refine ⟨idMap_eq_of_perm hp hl, fun hmem => ?_⟩
  obtain ⟨b, hb, hba⟩ := mem_idMap.1 hmem
  exact (nodup_of_perm_cons hl hp).1 (hba ▸ List.mem_map_of_mem hb)

theorem erase_idMap_of_perm_cons (hl : (l.map id).Nodup) (hp : l.Perm (a :: l')) :
    (idMap l).erase a.id = idMap l' := by
  obtain ⟨heq, hnot⟩ := idMap_of_perm_cons hl hp
  refine Finmap.ext_lookup fun k => ?_
  by_cases hk : k = a.id
  · subst hk
    rw [Finmap.lookup_erase, Finmap.lookup_eq_none.2 hnot]
  · rw [Finmap.lookup_erase_ne hk, heq, Finmap.lookup_insert_of_ne _ hk]

theorem lookup_idMap_of_perm_cons (hl : (l.map id).Nodup) (hp : l.Perm (a :: l')) :
    (idMap l).lookup a.id = some a.entry := by
  rw [(idMap_of_perm_cons hl hp).1, Finmap.lookup_insert]

end Split

theorem countP_hasId_le_one {l : List (Tagged V P)} (hl : (l.map id).Nodup) (k : UInt64) :
    l.countP (hasId k) ≤ 1 := by
  have := List.nodup_iff_count_le_one.1 hl k
  rwa [List.count, List.countP_map] at this

theorem idMap_of_perm_map_mapIf {l l' : List (Tagged V P)} {k : UInt64} {e : Entry V P}
    (f : Tagged V P → Tagged V P) (hf : ∀ a, (f a).id = a.id) (hl : (l.map id).Nodup)
    (he : (idMap l).lookup k = some e) (hp : l'.Perm (l.map (mapIf (hasId k) f))) :
    idMap l' = (idMap l).insert k (f ⟨k, e⟩).entry := by
  classical
  have hmem := mem_of_lookup_idMap he
  have hsplit := List.perm_cons_erase hmem
  have hmap := map_mapIf_perm f hsplit (by simp [hasId]) (countP_hasId_le_one hl k)
  have hids : (l'.map id).Nodup := by
    rw [(hp.trans hmap).map id |>.nodup_iff, List.map_cons, hf, ← List.map_cons,
      ← (hsplit.map id).nodup_iff]
    exact hl
  rw [idMap_eq_of_perm (hp.trans hmap) hids, idMap_cons, hf, (idMap_of_perm_cons hl hsplit).1,
    Finmap.insert_insert]

end Tagged

namespace TrackedHeap

variable {T : Type → Type} [Meldable T] {V P : Type} {prec : P → P → Bool}

def contents (h : TrackedHeap T V P prec) : Finmap (fun _ : UInt64 => Entry V P) :=
  Tagged.idMap (toList h.tree)

def UniqueIds (h : TrackedHeap T V P prec) : Prop := ((toList h.tree).map Tagged.id).Nodup

def ChangesAt (h : TrackedHeap T V P prec) (k : UInt64) (g : Entry V P → Entry V P)
    (r : Except HeapError (TrackedHeap T V P prec)) : Prop :=
  (k ∉ h.contents → r = .error .nodeNotFound) ∧
    ∀ e, h.contents.lookup k = some e →
      ∃ h', r = .ok h' ∧ h'.contents = h.contents.insert k (g e) ∧ h'.ids = h.ids

/-- What every operation does to the map from live ids to entries and to the counter. -/
structure MeetsSpec (h : TrackedHeap T V P prec) : Prop where
  /-- A push issues the counter's id and advances the counter, wrapping after the largest id; it is
  refused, keeping the map, exactly when that id is live, and otherwise adds the entry under it. -/
  push : ∀ e s, (h.push e s).2.1.ids.next = h.ids.next + 1 ∧
    (h.ids.next ∈ h.contents →
      (h.push e s).1 = .error .idCollision ∧ (h.push e s).2.1.contents = h.contents) ∧
    (h.ids.next ∉ h.contents →
      (h.push e s).1 = .ok (h.ids.next, (h.push e s).2.1) ∧
        (h.push e s).2.1.contents = h.contents.insert h.ids.next e)
  get : ∀ k, h.get k = match h.contents.lookup k with
    | some e => .ok e
    | none => .error .nodeNotFound
  contains : ∀ k, h.contains k = decide (k ∈ h.contents)
  updateValue : ∀ k v, h.ChangesAt k (fun e => { e with value := v }) (h.updateValue k v)
  updatePriority : ∀ k p, h.ChangesAt k (fun e => { e with priority := p })
    (h.updatePriority k p)
  update : ∀ k v p, h.ChangesAt k (fun _ => ⟨v, p⟩) (h.update k v p)
  /-- A removal returns the entry under the id and deletes the id. -/
  remove : ∀ k s, (k ∉ h.contents → (h.remove k s).1 = .error .nodeNotFound) ∧
    ∀ e, h.contents.lookup k = some e →
      ∃ h', (h.remove k s).1 = .ok (e, h') ∧ h'.contents = h.contents.erase k ∧ h'.ids = h.ids
  /-- A pop fails exactly on an empty map; otherwise it returns an entry of the map that no entry
  precedes and deletes its id. -/
  pop : ∀ s, (h.contents = ∅ → (h.pop s).1 = .error .empty) ∧
    (h.contents ≠ ∅ → ∃ k e h', (h.pop s).1 = .ok (e, h') ∧ h.contents.lookup k = some e ∧
      (∀ k' e', h.contents.lookup k' = some e' → prec e'.priority e.priority = false) ∧
      h'.contents = h.contents.erase k ∧ h'.ids = h.ids)
  peek : ∀ s, h.peek = (h.pop s).1.map Prod.fst
  size : h.size = h.contents.keys.card
  liveIds : h.liveIds.Pairwise (· < ·) ∧ ∀ k, k ∈ h.liveIds ↔ k ∈ h.contents
  clear : ∀ s, (h.clear s).1.contents = ∅ ∧ (h.clear s).1.ids = h.ids
  resetIds : h.resetIds.contents = h.contents ∧ h.resetIds.ids.next = 0
  checkMerge : ∀ o : TrackedHeap T V P prec, o.Reachable →
    h.checkMerge o = if h.contents.Disjoint o.contents then .ok () else .error .idCollision
  /-- Heaps merge exactly when their ids are disjoint, into the union of their maps; the counter
  moves past the largest absorbed id when it is not already beyond it. -/
  merge : ∀ o : TrackedHeap T V P prec, o.Reachable →
    (¬ h.contents.Disjoint o.contents → h.merge o = .error .idCollision) ∧
    (h.contents.Disjoint o.contents → ∃ h', h.merge o = .ok h' ∧
      h'.contents = h.contents ∪ o.contents ∧ (o.contents = ∅ → h'.ids = h.ids) ∧
      ∀ m ∈ o.contents, (∀ k ∈ o.contents, k ≤ m) →
        h'.ids.next = if h.ids.next ≤ m then m + 1 else h.ids.next)
  take : h.take.1.contents = ∅ ∧ h.take.1.ids = h.ids ∧ h.take.2 = h
  copy : ∀ s, (h.copy s).1.contents = h.contents ∧ (h.copy s).1.ids = h.ids

section Views

variable {h : TrackedHeap T V P prec}

theorem mem_contents {k : UInt64} : k ∈ h.contents ↔ k ∈ (toList h.tree).map Tagged.id := by
  rw [contents, Tagged.mem_idMap]
  simp

theorem mem_liveIds {k : UInt64} : k ∈ h.liveIds ↔ k ∈ h.contents := by
  rw [liveIds, List.mem_mergeSort, mem_contents]

theorem contents_disjoint_iff {o : TrackedHeap T V P prec} : h.contents.Disjoint o.contents ↔
    ∀ k ∈ (toList h.tree).map Tagged.id, k ∉ (toList o.tree).map Tagged.id := by
  simp only [Finmap.Disjoint, mem_contents]

theorem contents_eq_empty_iff : h.contents = ∅ ↔ toList h.tree = [] := by
  constructor
  · intro he
    cases hl : toList h.tree with
    | nil => rfl
    | cons a l =>
      have : a.id ∈ h.contents := by
        rw [contents, hl, Tagged.idMap_cons]
        exact Finmap.mem_insert.2 (.inl rfl)
      simp [he, Finmap.notMem_empty] at this
  · intro hl
    rw [contents, hl, Tagged.idMap_nil]

theorem liveIds_sorted (hu : h.UniqueIds) : h.liveIds.Pairwise (· < ·) := by
  have hle : h.liveIds.Pairwise fun a b => decide (a ≤ b) = true :=
    List.pairwise_mergeSort (fun a b c hab hbc => by grind) (fun a b => by grind) _
  have hne := (List.mergeSort_perm ((toList h.tree).map Tagged.id)
    fun a b => decide (a ≤ b)).nodup_iff.2 hu
  exact (hle.and hne).imp fun ⟨hab, hne⟩ => by grind

variable [LawfulMeldable T]

theorem contents_of_tree_eq_empty (ht : h.tree = Meldable.empty) : h.contents = ∅ := by
  rw [contents, ht, LawfulMeldable.toList_empty, Tagged.idMap_nil]

theorem uniqueIds_of_tree_eq_empty (ht : h.tree = Meldable.empty) : h.UniqueIds := by
  rw [UniqueIds, ht, LawfulMeldable.toList_empty]
  exact List.nodup_nil

theorem contains_iff {k : UInt64} : h.contains k = true ↔ k ∈ h.contents := by
  rw [contains, LawfulMeldable.find?_eq, contents, ← Finmap.lookup_isSome, Tagged.lookup_idMap,
    Option.isSome_map]

theorem contains_eq_decide (k : UInt64) : h.contains k = decide (k ∈ h.contents) := by
  rw [Bool.eq_iff_iff, contains_iff, decide_eq_true_iff]

theorem get_eq_lookup (k : UInt64) : h.get k = match h.contents.lookup k with
    | some e => .ok e
    | none => .error .nodeNotFound := by
  rw [get, LawfulMeldable.find?_eq, contents, Tagged.lookup_idMap]
  cases (toList h.tree).find? (Tagged.hasId k) <;> rfl

theorem size_eq_card (hu : h.UniqueIds) : h.size = h.contents.keys.card := by
  rw [size, LawfulMeldable.size_eq_length, contents, Tagged.keys_idMap,
    List.toFinset_card_of_nodup hu, List.length_map]

end Views

theorem foldl_observe {l : List UInt64} (hl : l.Pairwise (· < ·)) (s : IdSequence) {m : UInt64}
    (hm : m ∈ l) (hmax : ∀ k ∈ l, k ≤ m) :
    l.foldl IdSequence.observe s = if s.next ≤ m then ⟨m + 1⟩ else s := by
  induction l generalizing s with
  | nil => simp at hm
  | cons x l ih =>
    obtain ⟨hx, hl⟩ := List.pairwise_cons.1 hl
    by_cases hmx : m = x
    · -- the last id is the first one, so it is the only one
      subst hmx
      have hnil : l = [] :=
        List.eq_nil_iff_forall_not_mem.2 fun k hk => by grind
      subst hnil
      rfl
    · have hm' : m ∈ l := by simpa [hmx] using hm
      have hxm : x < m := hx m hm'
      rw [List.foldl_cons, ih hl _ hm' fun k hk => hmax k (List.mem_cons_of_mem x hk)]
      unfold IdSequence.observe
      split <;> split <;> grind

section Operations

variable [LawfulMeldable T] {h : TrackedHeap T V P prec}

theorem pushed_spec (hu : h.UniqueIds) (hk : h.contains h.ids.next = false) (e : Entry V P)
    (s : Nat) :
    (h.pushed e s).UniqueIds ∧ (h.pushed e s).contents = h.contents.insert h.ids.next e := by
  have hn : h.ids.next ∉ h.contents := fun hn => by simp [contains_iff.2 hn] at hk
  have hperm := LawfulMeldable.toList_insert (Tagged.before prec) ⟨h.ids.next, e⟩ h.tree
  have hnodup : ((⟨h.ids.next, e⟩ :: toList h.tree).map Tagged.id).Nodup := by
    refine List.nodup_cons.2 ⟨fun hmem => hn ?_, hu⟩
    obtain ⟨a, ha, hid⟩ := List.mem_map.1 hmem
    exact Tagged.mem_idMap.2 ⟨a, ha, hid⟩
  exact ⟨(hperm.map _).nodup_iff.2 hnodup, (Tagged.idMap_eq_of_perm hperm.symm hnodup).symm⟩

theorem push_spec (hu : h.UniqueIds) (e : Entry V P) (s : Nat) :
    (h.push e s).2.1.ids.next = h.ids.next + 1 ∧
    (h.ids.next ∈ h.contents →
      (h.push e s).1 = .error .idCollision ∧ (h.push e s).2.1.contents = h.contents) ∧
    (h.ids.next ∉ h.contents →
      (h.push e s).1 = .ok (h.ids.next, (h.push e s).2.1) ∧
        (h.push e s).2.1.contents = h.contents.insert h.ids.next e) := by
  cases hk : h.contains h.ids.next with
  | true =>
    rw [push_of_contains e s hk]
    exact ⟨rfl, fun _ => ⟨rfl, rfl⟩, fun hn => absurd (contains_iff.1 hk) hn⟩
  | false =>
    rw [push_of_not_contains e s hk]
    have hn : h.ids.next ∉ h.contents := fun hn => by simp [contains_iff.2 hn] at hk
    exact ⟨rfl, fun hc => absurd hc hn, fun _ => ⟨rfl, (pushed_spec hu hk e s).2⟩⟩

theorem changesAt_modify (hu : h.UniqueIds) {k : UInt64} (f : Tagged V P → Tagged V P)
    (hf : ∀ a, (f a).id = a.id) {g : Entry V P → Entry V P} (hg : ∀ e, (f ⟨k, e⟩).entry = g e)
    {t : T (Tagged V P)} (ht : (toList t).Perm ((toList h.tree).map (mapIf (Tagged.hasId k) f)))
    {r : Except HeapError (TrackedHeap T V P prec)}
    (hfail : h.contains k = false → r = .error .nodeNotFound)
    (hok : h.contains k = true → r = .ok { h with tree := t }) : h.ChangesAt k g r := by
  refine ⟨fun hk => hfail (Bool.eq_false_iff.2 fun hc => hk (contains_iff.1 hc)), fun e he => ?_⟩
  refine ⟨_, hok (contains_iff.2 (Finmap.mem_iff.2 ⟨e, he⟩)), ?_, rfl⟩
  rw [← hg]
  exact Tagged.idMap_of_perm_map_mapIf f hf hu he ht

theorem updateValue_changesAt (hu : h.UniqueIds) (k : UInt64) (v : V) :
    h.ChangesAt k (fun e => { e with value := v }) (h.updateValue k v) :=
  changesAt_modify hu (setValue v) (fun _ => rfl) (fun _ => rfl)
    (.of_eq (LawfulMeldable.toList_modify _ _ _)) (updateValue_of_not_contains v)
    (updateValue_of_contains v)

theorem updatePriority_changesAt (hu : h.UniqueIds) (k : UInt64) (p : P) :
    h.ChangesAt k (fun e => { e with priority := p }) (h.updatePriority k p) :=
  changesAt_modify hu (setPriority p) (fun _ => rfl) (fun _ => rfl)
    (LawfulMeldable.toList_reprioritize _ _ _ _ (Tagged.countP_hasId_le_one hu k))
    (updatePriority_of_not_contains p) (updatePriority_of_contains p)

omit [LawfulMeldable T] in
theorem uniqueIds_of_perm_map {t : T (Tagged V P)} (hu : h.UniqueIds) {k : UInt64}
    (f : Tagged V P → Tagged V P) (hf : ∀ a, (f a).id = a.id)
    (ht : (toList t).Perm ((toList h.tree).map (mapIf (Tagged.hasId k) f))) :
    ({ h with tree := t } : TrackedHeap T V P prec).UniqueIds := by
  have hid : ∀ a, (mapIf (Tagged.hasId k) f a).id = a.id := fun a => by
    unfold mapIf; split <;> simp [hf]
  have hids : (toList h.tree).map (Tagged.id ∘ mapIf (Tagged.hasId k) f) =
      (toList h.tree).map Tagged.id := List.map_congr_left fun a _ => hid a
  show ((toList t).map Tagged.id).Nodup
  rw [(ht.map _).nodup_iff, List.map_map, hids]
  exact hu

theorem uniqueIds_of_updateValue {h' : TrackedHeap T V P prec} (hu : h.UniqueIds) {k : UInt64}
    {v : V} (hup : h.updateValue k v = .ok h') : h'.UniqueIds := by
  cases hk : h.contains k with
  | true =>
    rw [updateValue_of_contains v hk, Except.ok.injEq] at hup
    subst hup
    exact uniqueIds_of_perm_map hu (setValue v) (fun _ => rfl)
      (.of_eq (LawfulMeldable.toList_modify _ _ _))
  | false => simp [updateValue_of_not_contains v hk] at hup

theorem uniqueIds_of_updatePriority {h' : TrackedHeap T V P prec} (hu : h.UniqueIds)
    {k : UInt64} {p : P} (hup : h.updatePriority k p = .ok h') : h'.UniqueIds := by
  cases hk : h.contains k with
  | true =>
    rw [updatePriority_of_contains p hk, Except.ok.injEq] at hup
    subst hup
    exact uniqueIds_of_perm_map hu (setPriority p) (fun _ => rfl)
      (LawfulMeldable.toList_reprioritize _ _ _ _ (Tagged.countP_hasId_le_one hu k))
  | false => simp [updatePriority_of_not_contains p hk] at hup

theorem update_changesAt (hu : h.UniqueIds) (k : UInt64) (v : V) (p : P) :
    h.ChangesAt k (fun _ => ⟨v, p⟩) (h.update k v p) := by
  obtain ⟨hfail, hok⟩ := updateValue_changesAt hu k v
  refine ⟨fun hk => by rw [update_eq, hfail hk]; rfl, fun e he => ?_⟩
  obtain ⟨h₁, h₁eq, h₁contents, h₁ids⟩ := hok e he
  have he₁ : h₁.contents.lookup k = some { e with value := v } := by
    rw [h₁contents, Finmap.lookup_insert]
  obtain ⟨h₂, h₂eq, h₂contents, h₂ids⟩ :=
    (updatePriority_changesAt (uniqueIds_of_updateValue hu h₁eq) k p).2 _ he₁
  refine ⟨h₂, by rw [update_eq, h₁eq]; exact h₂eq, ?_, h₂ids.trans h₁ids⟩
  rw [h₂contents, h₁contents, Finmap.insert_insert]

theorem remove_spec (hu : h.UniqueIds) (k : UInt64) (s : Nat) :
    (k ∉ h.contents → (h.remove k s).1 = .error .nodeNotFound) ∧
    ∀ e, h.contents.lookup k = some e →
      ∃ h', (h.remove k s).1 = .ok (e, h') ∧ h'.contents = h.contents.erase k ∧
        h'.ids = h.ids := by
  cases hx : Meldable.extract (Tagged.before prec) (Tagged.hasId k) h.tree with
  | none =>
    rw [remove_of_extract_none s hx]
    refine ⟨fun _ => rfl, fun e he => ?_⟩
    -- no element has the id, yet the map has an entry under it
    have hall := (LawfulMeldable.extract_eq_none _ _ _).1 hx
    have := hall _ (Tagged.mem_of_lookup_idMap he)
    simp [Tagged.hasId] at this
  | some r =>
    obtain ⟨a, t⟩ := r
    obtain ⟨hka, hperm⟩ := LawfulMeldable.toList_of_extract hx
    have hid : a.id = k := by simpa [Tagged.hasId] using hka
    subst hid
    have hlook := Tagged.lookup_idMap_of_perm_cons hu hperm
    rw [remove_of_extract s hx]
    refine ⟨fun hk => absurd (Finmap.mem_iff.2 ⟨_, hlook⟩) hk, fun e he => ?_⟩
    have hae : a.entry = e := Option.some.inj (hlook.symm.trans he)
    exact ⟨{ h with tree := t, pool := (h.pool.retire 1 s).1 }, by rw [hae],
      (Tagged.erase_idMap_of_perm_cons hu hperm).symm, rfl⟩

theorem pop_spec (hp : StrictWeakOrder prec) (hv : h.verify = true) (hu : h.UniqueIds)
    (s : Nat) : (h.contents = ∅ → (h.pop s).1 = .error .empty) ∧
    (h.contents ≠ ∅ → ∃ k e h', (h.pop s).1 = .ok (e, h') ∧ h.contents.lookup k = some e ∧
      (∀ k' e', h.contents.lookup k' = some e' → prec e'.priority e.priority = false) ∧
      h'.contents = h.contents.erase k ∧ h'.ids = h.ids) := by
  cases hpop : Meldable.popTop (Tagged.before prec) h.tree with
  | none =>
    have hnil := (LawfulMeldable.popTop_eq_none _ _).1 hpop
    rw [pop_of_popTop_none s hpop]
    exact ⟨fun _ => rfl, fun hne => absurd (contents_eq_empty_iff.2 hnil) hne⟩
  | some r =>
    obtain ⟨a, t⟩ := r
    have hperm := LawfulMeldable.toList_of_popTop hpop
    have hne : h.contents ≠ ∅ := fun he => by
      simp [contents_eq_empty_iff.1 he] at hperm
    rw [pop_of_popTop s hpop]
    refine ⟨fun he => absurd he hne, fun _ => ⟨a.id, a.entry, _, rfl,
      Tagged.lookup_idMap_of_perm_cons hu hperm, fun k' e' he' => ?_,
      (Tagged.erase_idMap_of_perm_cons hu hperm).symm, rfl⟩⟩
    -- an entry of the map is the popped one or stays in the tree, which none of it precedes
    rcases List.mem_cons.1 (hperm.mem_iff.1 (Tagged.mem_of_lookup_idMap he')) with hb | hb
    · cases hb
      exact hp.irrefl _
    · exact LawfulMeldable.not_prec_of_popTop hp.tagged hv hpop _ hb

theorem peek_eq_pop (s : Nat) : h.peek = (h.pop s).1.map Prod.fst := by
  rw [peek, pop, LawfulMeldable.top?_eq_popTop]
  cases Meldable.popTop (Tagged.before prec) h.tree with
  | none => rfl
  | some r => rfl

theorem checkMerge_eq {o : TrackedHeap T V P prec} :
    h.checkMerge o = if h.contents.Disjoint o.contents then .ok () else .error .idCollision := by
  have hiff : (o.liveIds.any h.contains) = true ↔ ¬ h.contents.Disjoint o.contents := by
    simp only [List.any_eq_true, contains_iff, mem_liveIds, Finmap.Disjoint, not_forall,
      not_not]
    constructor
    · rintro ⟨k, hko, hkh⟩
      exact ⟨k, hkh, hko⟩
    · rintro ⟨k, hkh, hko⟩
      exact ⟨k, hko, hkh⟩
  rw [checkMerge]
  by_cases hd : h.contents.Disjoint o.contents
  · have : (o.liveIds.any h.contains) = false := by simpa [hd] using hiff.not
    simp [this, hd]
  · simp [hiff.2 hd, hd]

theorem merge_eq (o : TrackedHeap T V P prec) : h.merge o =
    if h.contents.Disjoint o.contents then
      .ok ⟨Meldable.meld (Tagged.before prec) h.tree o.tree,
        o.liveIds.foldl IdSequence.observe h.ids, h.pool⟩
    else .error .idCollision := by
  show (h.checkMerge o).bind _ = _
  rw [checkMerge_eq]
  split <;> rfl

theorem meld_spec {o : TrackedHeap T V P prec} (hu : h.UniqueIds) (hou : o.UniqueIds)
    (hd : h.contents.Disjoint o.contents) :
    ((toList (Meldable.meld (Tagged.before prec) h.tree o.tree)).map Tagged.id).Nodup ∧
      Tagged.idMap (toList (Meldable.meld (Tagged.before prec) h.tree o.tree)) =
        h.contents ∪ o.contents := by
  have hperm := LawfulMeldable.toList_meld (Tagged.before prec) h.tree o.tree
  have hnodup : ((toList h.tree ++ toList o.tree).map Tagged.id).Nodup := by
    rw [List.map_append, List.nodup_append]
    refine ⟨hu, hou, fun x hx y hy hxy => ?_⟩
    obtain ⟨a, ha, rfl⟩ := List.mem_map.1 hx
    obtain ⟨b, hb, rfl⟩ := List.mem_map.1 hy
    exact hd a.id (Tagged.mem_idMap.2 ⟨a, ha, rfl⟩) (Tagged.mem_idMap.2 ⟨b, hb, hxy.symm⟩)
  have hnodup' := (hperm.map Tagged.id).nodup_iff.2 hnodup
  exact ⟨hnodup', by rw [Tagged.idMap_eq_of_perm hperm hnodup', Tagged.idMap_append]; rfl⟩

theorem merge_spec (hu : h.UniqueIds) {o : TrackedHeap T V P prec} (hou : o.UniqueIds) :
    (¬ h.contents.Disjoint o.contents → h.merge o = .error .idCollision) ∧
    (h.contents.Disjoint o.contents → ∃ h', h.merge o = .ok h' ∧
      h'.contents = h.contents ∪ o.contents ∧ (o.contents = ∅ → h'.ids = h.ids) ∧
      ∀ m ∈ o.contents, (∀ k ∈ o.contents, k ≤ m) →
        h'.ids.next = if h.ids.next ≤ m then m + 1 else h.ids.next) := by
  rw [merge_eq]
  refine ⟨fun hd => if_neg hd, fun hd => ⟨_, if_pos hd, (meld_spec hu hou hd).2, fun he => ?_,
    fun m hm hmax => ?_⟩⟩
  · -- nothing is absorbed, so the counter does not move
    have hnil : o.liveIds = [] := List.eq_nil_iff_forall_not_mem.2 fun k hk => by
      have := mem_liveIds.1 hk
      rw [he] at this
      exact Finmap.notMem_empty this
    show o.liveIds.foldl IdSequence.observe h.ids = h.ids
    rw [hnil]
    rfl
  · show (o.liveIds.foldl IdSequence.observe h.ids).next = _
    rw [foldl_observe (liveIds_sorted hou) h.ids (mem_liveIds.2 hm)
      fun k hk => hmax k (mem_liveIds.1 hk)]
    split <;> rfl

end Operations

section Reachable

variable [LawfulMeldable T]

theorem Reachable.uniqueIds {h : TrackedHeap T V P prec} (hr : h.Reachable) : h.UniqueIds := by
  induction hr with
  | new ids pool => exact uniqueIds_of_tree_eq_empty rfl
  | @push h e s _ ih =>
    cases hk : h.contains h.ids.next with
    | true =>
      rw [push_of_contains e s hk]
      exact ih
    | false =>
      rw [push_of_not_contains e s hk]
      exact (pushed_spec ih hk e s).1
  | pop _ hpop ih =>
    obtain ⟨a, ht, -, -⟩ := pop_eq_ok hpop
    exact (Tagged.nodup_of_perm_cons ih (LawfulMeldable.toList_of_popTop ht)).2
  | updateValue _ hup ih => exact uniqueIds_of_updateValue ih hup
  | updatePriority _ hup ih => exact uniqueIds_of_updatePriority ih hup
  | remove _ hrem ih =>
    obtain ⟨a, ht, -, -⟩ := remove_eq_ok hrem
    exact (Tagged.nodup_of_perm_cons ih (LawfulMeldable.toList_of_extract ht).2).2
  | resetIds _ ih => exact ih
  | clear s _ _ => exact uniqueIds_of_tree_eq_empty rfl
  | @merge h o h' _ _ hm ihh iho =>
    rw [merge_eq] at hm
    split at hm
    · cases hm
      exact (meld_spec ihh iho ‹_›).1
    · cases hm
  | takeLeft _ _ => exact uniqueIds_of_tree_eq_empty rfl
  | takeRight _ ih => exact ih
  | copy s _ ih => exact ih

theorem Reachable.meetsSpec (hp : StrictWeakOrder prec) {h : TrackedHeap T V P prec}
    (hr : h.Reachable) : h.MeetsSpec := by
  have hu := hr.uniqueIds
  have hv : h.verify = true := hr.tree.verify hp.tagged
  exact {
    push := push_spec hu
    get := get_eq_lookup
    contains := contains_eq_decide
    updateValue := updateValue_changesAt hu
    updatePriority := updatePriority_changesAt hu
    update := update_changesAt hu
    remove := remove_spec hu
    pop := pop_spec hp hv hu
    peek := peek_eq_pop
    size := size_eq_card hu
    liveIds := ⟨liveIds_sorted hu, fun _ => mem_liveIds⟩
    clear := fun _ => ⟨contents_of_tree_eq_empty rfl, rfl⟩
    resetIds := ⟨rfl, rfl⟩
    checkMerge := fun _ _ => checkMerge_eq
    merge := fun _ ho => merge_spec hu ho.uniqueIds
    take := ⟨contents_of_tree_eq_empty rfl, rfl, rfl⟩
    copy := fun _ => ⟨rfl, rfl⟩ }

end Reachable

end TrackedHeap

end PriorityQueues
