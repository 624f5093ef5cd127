import Mathlib
import PriorityQueues.Arena

/-!
The slot discipline of arenas (`WellFormed`): the stack holds each empty slot once, `live` counts
the occupied slots, and along every history (`Reached`) the slot count is the peak of `live`.
-/

namespace PriorityQueues

attribute [ext] NodeRef

namespace Arena

variable {N : Type}

theorem get_eq_some_iff {a : Arena N} {r : NodeRef} {node : N} :
    a.get r = some node ↔ a.slots[r.index]? = some (some node) := by
  simp only [get]
  cases a.slots[r.index]? with
  | none => simp
  | some o => cases o <;> simp

theorem lt_size_of_get {a : Arena N} {r : NodeRef} {node : N} (h : a.get r = some node) :
    r.index < a.slots.size :=
  (Array.getElem?_eq_some_iff.1 (get_eq_some_iff.1 h)).1

theorem get_eq_none_iff {a : Arena N} {r : NodeRef} :
    a.get r = none ↔ a.slots[r.index]? = none ∨ a.slots[r.index]? = some none := by
  simp only [get]
  cases a.slots[r.index]? with
  | none => simp
  | some o => cases o <;> simp

/-- The bookkeeping of an arena agrees with its slots: the stack holds the number of each empty
slot once and nothing else, `live` counts the occupied slots, and the slots are the live and the
empty ones together. -/
structure WellFormed (a : Arena N) : Prop where
  nodup : a.vacant.Nodup
  mem_vacant : ∀ i, i ∈ a.vacant ↔ a.slots[i]? = some none
  live_eq : a.live = a.occupied
  size_eq : a.slots.size = a.live + a.vacant.length

theorem wellFormed_new (pool : ShellPool) : (new pool : Arena N).WellFormed where
  nodup := List.nodup_nil
  mem_vacant i := by simp [new]
  live_eq := rfl
  size_eq := rfl

section WellFormed

variable {a : Arena N} (h : a.WellFormed)
include h

theorem WellFormed.lt_size_of_mem {i : Nat} (hi : i ∈ a.vacant) : i < a.slots.size :=
  (Array.getElem?_eq_some_iff.1 ((h.mem_vacant i).1 hi)).1

theorem WellFormed.live_le_size : a.live ≤ a.slots.size := by
  have := h.size_eq
  omega

theorem WellFormed.withPool (p : ShellPool) : WellFormed { a with pool := p } :=
  ⟨h.nodup, h.mem_vacant, h.live_eq, h.size_eq⟩

end WellFormed

section Place

variable {a : Arena N} (node : N)

theorem place_of_cons {i : Nat} {rest : List Nat} (hv : a.vacant = i :: rest) :
    a.place node =
      ({ a with slots := a.slots.setIfInBounds i (some node), vacant := rest, live := a.live + 1 },
        ⟨i⟩) := by
  simp only [place, hv]

theorem place_of_nil (hv : a.vacant = []) :
    a.place node = ({ a with slots := a.slots.push (some node), live := a.live + 1 },
      ⟨a.slots.size⟩) := by
  simp only [place, hv]

theorem place_live : (a.place node).1.live = a.live + 1 := by
  cases hv : a.vacant with
  | nil => rw [place_of_nil node hv]
  | cons i rest => rw [place_of_cons node hv]

theorem WellFormed.place (h : a.WellFormed) : (a.place node).1.WellFormed := by
  cases hv : a.vacant with
  | nil =>
    rw [place_of_nil node hv]
    constructor
    · simp only [hv, List.nodup_nil]
    · intro j
      simp only [hv, List.not_mem_nil, false_iff, Array.getElem?_push]
      split
      · simp
      · -- with the stack empty, no slot of `a` was empty
        intro hj
        have := (h.mem_vacant j).2 hj
        simp [hv] at this
    · simp only [occupied, Array.toList_push, List.countP_append, h.live_eq]
      simp
    · simp [h.size_eq, hv]
  | cons i rest =>
    have hi : a.slots[i]? = some none := (h.mem_vacant i).1 (by simp [hv])
    have hnd : (i :: rest).Nodup := hv ▸ h.nodup
    have hlt : i < a.slots.size := h.lt_size_of_mem (by simp [hv])
    rw [place_of_cons node hv]
    constructor
    · exact hnd.of_cons
    · intro j
      simp only [Array.getElem?_setIfInBounds]
      by_cases hij : i = j
      · subst hij
        simp [(List.nodup_cons.1 hnd).1, hlt]
      · rw [if_neg hij, ← h.mem_vacant j, hv]
        simp [Ne.symm hij]
    · have hnone : a.slots[i] = none := by simpa [Array.getElem?_eq_getElem hlt] using hi
      simp only [occupied, Array.toList_setIfInBounds]
      rw [List.countP_set (by simpa using hlt), h.live_eq, occupied]
      simp [hnone]
    · simp [h.size_eq, hv]
      omega

theorem WellFormed.get_place (h : a.WellFormed) (r : NodeRef) :
    (a.place node).1.get r = if (a.place node).2 = r then some node else a.get r := by
  cases hv : a.vacant with
  | nil =>
    rw [place_of_nil node hv]
    simp only [get, Array.getElem?_push, NodeRef.ext_iff]
    by_cases hr : r.index = a.slots.size
    · simp [hr]
    · simp [hr, Ne.symm hr]
  | cons i rest =>
    have hlt : i < a.slots.size := h.lt_size_of_mem (by simp [hv])
    rw [place_of_cons node hv]
    simp only [get, Array.getElem?_setIfInBounds, NodeRef.ext_iff]
    by_cases hr : i = r.index
    · have hlt' : r.index < a.slots.size := hr ▸ hlt
      simp [hr, hlt']
    · simp [hr]

theorem WellFormed.get_place_ref (h : a.WellFormed) : a.get (a.place node).2 = none := by
  cases hv : a.vacant with
  | nil =>
    rw [place_of_nil node hv]
    simp [get]
  | cons i rest =>
    rw [place_of_cons node hv]
    simp [get, (h.mem_vacant i).1 (by simp [hv])]

theorem WellFormed.size_place (h : a.WellFormed) :
    (a.place node).1.slots.size = max a.slots.size (a.live + 1) := by
  have hs := h.size_eq
  cases hv : a.vacant with
  | nil =>
    rw [place_of_nil node hv]
    simp only [Array.size_push]
    rw [hv] at hs
    simp at hs
    omega
  | cons i rest =>
    rw [place_of_cons node hv]
    simp only [Array.size_setIfInBounds]
    rw [hv] at hs
    simp at hs
    omega

end Place

section Alloc

variable {a : Arena N} (node : N) (shared : Nat)

theorem alloc_eq : a.alloc node shared =
    (({ a with pool := (a.pool.draw 1 shared).1 }.place node).1,
      ({ a with pool := (a.pool.draw 1 shared).1 }.place node).2, (a.pool.draw 1 shared).2) :=
  rfl

theorem alloc_live : (a.alloc node shared).1.live = a.live + 1 :=
  place_live node

variable (h : a.WellFormed)
include h

theorem WellFormed.alloc : (a.alloc node shared).1.WellFormed :=
  (h.withPool _).place node

theorem WellFormed.get_alloc (r : NodeRef) :
    (a.alloc node shared).1.get r = if (a.alloc node shared).2.1 = r then some node else a.get r :=
  (h.withPool _).get_place node r

theorem WellFormed.get_alloc_ref : a.get (a.alloc node shared).2.1 = none :=
  (h.withPool _).get_place_ref node

theorem WellFormed.size_alloc :
    (a.alloc node shared).1.slots.size = max a.slots.size (a.live + 1) :=
  (h.withPool _).size_place node

end Alloc

section Free

variable {a a' : Arena N} {r : NodeRef} {shared shared' : Nat} {node : N}

theorem free_spec (hf : a.free r shared = some (a', node, shared')) :
    a.slots[r.index]? = some (some node) ∧
      a' = ⟨a.slots.setIfInBounds r.index none, r.index :: a.vacant, (a.pool.retire 1 shared).1,
        a.live - 1⟩ := by
  unfold free at hf
  split at hf
  · rename_i n hn
    simp only [Option.some.injEq, Prod.mk.injEq] at hf
    obtain ⟨rfl, rfl, -⟩ := hf
    exact ⟨hn, rfl⟩
  · cases hf

theorem free_of_get (hr : a.get r = some node) :
    a.free r shared = some (⟨a.slots.setIfInBounds r.index none, r.index :: a.vacant,
      (a.pool.retire 1 shared).1, a.live - 1⟩, node, (a.pool.retire 1 shared).2) := by
  simp only [free, get_eq_some_iff.1 hr]

theorem get_free (hf : a.free r shared = some (a', node, shared')) (q : NodeRef) :
    a'.get q = if r = q then none else a.get q := by
  obtain ⟨-, rfl⟩ := free_spec hf
  simp only [get, Array.getElem?_setIfInBounds, NodeRef.ext_iff]
  by_cases hrq : r.index = q.index
  · simp only [hrq, if_true]
    split <;> rfl
  · simp [hrq]

theorem free_live (hf : a.free r shared = some (a', node, shared')) : a'.live = a.live - 1 := by
  obtain ⟨-, rfl⟩ := free_spec hf
  rfl

theorem size_free (hf : a.free r shared = some (a', node, shared')) :
    a'.slots.size = a.slots.size := by
  obtain ⟨-, rfl⟩ := free_spec hf
  exact Array.size_setIfInBounds

theorem WellFormed.free (h : a.WellFormed) (hf : a.free r shared = some (a', node, shared')) :
    a'.WellFormed := by
  obtain ⟨hr, rfl⟩ := free_spec hf
  have hlt : r.index < a.slots.size := (Array.getElem?_eq_some_iff.1 hr).1
  have hnot : r.index ∉ a.vacant := fun hm => by simp [(h.mem_vacant _).1 hm] at hr
  -- the freed slot was occupied, so there was a live node
  have hpos : 0 < a.live := by
    rw [h.live_eq, occupied, List.countP_pos_iff]
    exact ⟨some node, by simpa using Array.mem_of_getElem? hr, rfl⟩
  constructor
  · exact List.Nodup.cons hnot h.nodup
  · intro j
    simp only [List.mem_cons, Array.getElem?_setIfInBounds]
    by_cases hj : r.index = j
    · have hlt' : j < a.slots.size := hj ▸ hlt
      simp [hj, hlt']
    · simp [hj, Ne.symm hj, h.mem_vacant j]
  · have hsome : a.slots[r.index] = some node := by
      simpa [Array.getElem?_eq_getElem hlt] using hr
    simp only [occupied, Array.toList_setIfInBounds]
    rw [List.countP_set (by simpa using hlt), h.live_eq, occupied]
    simp [hsome]
  · simp only [Array.size_setIfInBounds, List.length_cons, h.size_eq]
    omega

end Free

section Clear

variable (a : Arena N) (shared : Nat)

theorem wellFormed_clear : (a.clear shared).1.WellFormed where
  nodup := List.nodup_nil
  mem_vacant i := by simp [clear]
  live_eq := rfl
  size_eq := rfl

theorem get_clear (r : NodeRef) : (a.clear shared).1.get r = none := by
  simp [clear, get]

end Clear

section Shape

variable {a b : Arena N}

theorem WellFormed.of_sameShape (h : a.WellFormed) (hv : b.vacant = a.vacant)
    (hl : b.live = a.live)
    (hs : ∀ i : Nat, (b.slots[i]?).map Option.isSome = (a.slots[i]?).map Option.isSome) :
    b.WellFormed := by
  have hempty : ∀ x : Option (Option N), x = some none ↔ x.map Option.isSome = some false := by
    intro x
    rcases x with _ | _ | _ <;> simp
  have hmap : b.slots.toList.map Option.isSome = a.slots.toList.map Option.isSome := by
    apply List.ext_getElem?
    intro i
    simpa [List.getElem?_map] using hs i
  constructor
  · exact hv ▸ h.nodup
  · intro i
    rw [hv, h.mem_vacant i, hempty, hempty, hs i]
  · have hc := congrArg (List.countP id) hmap
    simp only [List.countP_map] at hc
    rw [hl, h.live_eq]
    exact hc.symm
  · have hlen := congrArg List.length hmap
    simp only [List.length_map, Array.length_toList] at hlen
    rw [hlen, hv, hl, h.size_eq]

theorem size_of_sameShape
    (hs : ∀ i : Nat, (b.slots[i]?).map Option.isSome = (a.slots[i]?).map Option.isSome) :
    b.slots.size = a.slots.size := by
  apply Nat.le_antisymm
  · by_contra hlt
    have := hs a.slots.size
    simp [Array.getElem?_eq_getElem (show a.slots.size < b.slots.size by omega)] at this
  · by_contra hlt
    have := hs b.slots.size
    simp [Array.getElem?_eq_getElem (show b.slots.size < a.slots.size by omega)] at this

theorem sameShape_modify (r : NodeRef) (f : N → N) (i : Nat) :
    ((a.modify r f).slots[i]?).map Option.isSome = (a.slots[i]?).map Option.isSome := by
  simp only [modify, Array.getElem?_modify]
  split <;> simp [Option.map_map, Function.comp_def]

theorem get_modify (r : NodeRef) (f : N → N) (q : NodeRef) :
    (a.modify r f).get q = if r = q then (a.get q).map f else a.get q := by
  simp only [get, modify, Array.getElem?_modify, NodeRef.ext_iff]
  split
  · cases a.slots[q.index]? with
    | none => rfl
    | some o => cases o <;> rfl
  · rfl

theorem foldl_modify_shape (g : N → N) (rs : List NodeRef) (b : Arena N) :
    (rs.foldl (fun b r => b.modify r g) b).vacant = b.vacant ∧
      (rs.foldl (fun b r => b.modify r g) b).live = b.live ∧
      ∀ i : Nat, ((rs.foldl (fun b r => b.modify r g) b).slots[i]?).map Option.isSome =
        (b.slots[i]?).map Option.isSome := by
  induction rs generalizing b with
  | nil => exact ⟨rfl, rfl, fun _ => rfl⟩
  | cons r rs ih =>
    obtain ⟨hv, hl, hs⟩ := ih (b.modify r g)
    exact ⟨hv, hl, fun i => (hs i).trans (sameShape_modify r g i)⟩

theorem get_foldl_modify (g : N → N) {rs : List NodeRef} (hnd : rs.Nodup) (b : Arena N)
    (q : NodeRef) :
    (rs.foldl (fun b r => b.modify r g) b).get q = if q ∈ rs then (b.get q).map g else b.get q := by
  induction rs generalizing b with
  | nil => simp
  | cons r rs ih =>
    obtain ⟨hr, hnd'⟩ := List.nodup_cons.1 hnd
    rw [List.foldl_cons, ih hnd' (b.modify r g), get_modify]
    by_cases hrq : r = q
    · subst hrq
      simp [hr]
    · simp [hrq, Ne.symm hrq]

/-- `b` is `a` with nodes changed in place: the same slots are occupied, and the stack, the pool
and the live count are as they were. -/
structure Edits (a b : Arena N) : Prop where
  vacant : b.vacant = a.vacant
  pool : b.pool = a.pool
  live : b.live = a.live
  shape : ∀ i : Nat, (b.slots[i]?).map Option.isSome = (a.slots[i]?).map Option.isSome

theorem Edits.refl (a : Arena N) : a.Edits a := ⟨rfl, rfl, rfl, fun _ => rfl⟩

theorem Edits.trans {c : Arena N} (h₁ : a.Edits b) (h₂ : b.Edits c) : a.Edits c :=
  ⟨h₂.vacant.trans h₁.vacant, h₂.pool.trans h₁.pool, h₂.live.trans h₁.live,
    fun i => (h₂.shape i).trans (h₁.shape i)⟩

theorem edits_modify (a : Arena N) (r : NodeRef) (f : N → N) : a.Edits (a.modify r f) :=
  ⟨rfl, rfl, rfl, sameShape_modify r f⟩

theorem Edits.wellFormed (he : a.Edits b) (h : a.WellFormed) : b.WellFormed :=
  h.of_sameShape he.vacant he.live he.shape

theorem Edits.isSome_get (he : a.Edits b) (q : NodeRef) : (b.get q).isSome = (a.get q).isSome := by
  have hq := he.shape q.index
  simp only [get]
  cases hb : b.slots[q.index]? <;> cases ha : a.slots[q.index]? <;> simp_all

end Shape

section Absorb

variable {a o : Arena N}

/-- What holds once the nodes of `o`'s slots before `k` are placed into `a`: the arena `acc.1` is
well-formed and keeps `a`'s nodes; the node of each occupied slot `i < k` of `o` is at
`acc.2.1[i]`, listed in `acc.2.2`; the listed slots are distinct, filled, and held nothing in `a`;
and distinct occupied slots went to distinct places. -/
structure AbsorbInv (a o : Arena N) (k : Nat) (acc : Arena N × Array NodeRef × List NodeRef) :
    Prop where
  wf : acc.1.WellFormed
  keeps : ∀ r node, a.get r = some node → acc.1.get r = some node
  size_to : acc.2.1.size = o.slots.size
  moved : ∀ r ∈ acc.2.2, (acc.1.get r).isSome ∧ a.get r = none
  nodup : acc.2.2.Nodup
  placed : ∀ i < k, ∀ node, o.get ⟨i⟩ = some node →
    ∃ r, acc.2.1[i]? = some r ∧ acc.1.get r = some node ∧ r ∈ acc.2.2
  inj : ∀ i j, i < k → j < k → ∀ r, acc.2.1[i]? = some r → acc.2.1[j]? = some r →
    (o.get ⟨i⟩).isSome → (o.get ⟨j⟩).isSome → i = j
  live : acc.1.live = a.live + (o.slots.toList.take k).countP Option.isSome
  size : acc.1.slots.size = max a.slots.size acc.1.live

theorem absorbInv_start (h : a.WellFormed) (o : Arena N) :
    AbsorbInv a o 0 (a, Array.replicate o.slots.size NodeRef.dangling, []) where
  wf := h
  keeps _ _ hr := hr
  size_to := Array.size_replicate
  moved _ hr := absurd hr List.not_mem_nil
  nodup := List.nodup_nil
  placed _ hi := absurd hi (Nat.not_lt_zero _)
  inj _ _ hi := absurd hi (Nat.not_lt_zero _)
  live := by simp
  size := by
    have := h.live_le_size
    simp only
    omega

theorem AbsorbInv.step {k : Nat} {acc : Arena N × Array NodeRef × List NodeRef}
    (hinv : AbsorbInv a o k acc) {slot : Option N} (hk : o.slots[k]? = some slot) :
    AbsorbInv a o (k + 1) (absorbSlot acc (slot, k)) := by
  have hcount : (o.slots.toList.take (k + 1)).countP Option.isSome =
      (o.slots.toList.take k).countP Option.isSome + if slot.isSome then 1 else 0 := by
    simp [List.take_add_one, hk, List.countP_append]
  have hok : o.get ⟨k⟩ = slot := by simp [get, hk]
  cases slot with
  | none =>
    -- an empty slot: nothing is placed
    show AbsorbInv a o (k + 1) acc
    have hne : ∀ i, (o.get ⟨i⟩).isSome → i ≠ k := by
      rintro i hi rfl
      simp [hok] at hi
    refine ⟨hinv.wf, hinv.keeps, hinv.size_to, hinv.moved, hinv.nodup, ?_, ?_, ?_, hinv.size⟩
    · intro i hi node hn
      have hik := hne i (by simp [hn])
      exact hinv.placed i (by omega) node hn
    · intro i j hi hj r hri hrj hoi hoj
      have hik := hne i hoi
      have hjk := hne j hoj
      exact hinv.inj i j (by omega) (by omega) r hri hrj hoi hoj
    · rw [hcount, hinv.live]
      rfl
  | some node =>
    obtain ⟨b, tbl, moved⟩ := acc
    show AbsorbInv a o (k + 1)
      ((b.place node).1, tbl.setIfInBounds k (b.place node).2, moved ++ [(b.place node).2])
    have hb : b.WellFormed := hinv.wf
    have hlive : b.live = a.live + (o.slots.toList.take k).countP Option.isSome := hinv.live
    have hsize : b.slots.size = max a.slots.size b.live := hinv.size
    -- the new place held nothing in `b`, so it is none of `a`'s nodes and none of the moved ones
    have hfresh : b.get (b.place node).2 = none := hb.get_place_ref node
    have hne : ∀ q, (b.get q).isSome → (b.place node).2 ≠ q := by
      rintro q hq rfl
      simp [hfresh] at hq
    have hka : k < tbl.size := by
      rw [hinv.size_to]
      exact (Array.getElem?_eq_some_iff.1 hk).1
    have hto : ∀ i, (tbl.setIfInBounds k (b.place node).2)[i]? =
        if k = i then some (b.place node).2 else tbl[i]? := by
      intro i
      rw [Array.getElem?_setIfInBounds]
      split
      · -- the slot is within the table (`hka`)
        simp
      · rfl
    refine ⟨hb.place node, ?_, ?_, ?_, ?_, ?_, ?_, ?_, ?_⟩
    · intro r n hr
      have hbr := hinv.keeps r n hr
      rw [hb.get_place node, if_neg (hne r (by simp [hbr]))]
      exact hbr
    · exact (Array.size_setIfInBounds).trans hinv.size_to
    · intro r hr
      rcases List.mem_append.1 hr with hr | hr
      · have hm := hinv.moved r hr
        rw [hb.get_place node, if_neg (hne r hm.1)]
        exact hm
      · rw [List.mem_singleton.1 hr, hb.get_place node, if_pos rfl]
        refine ⟨rfl, ?_⟩
        cases ha : a.get (b.place node).2 with
        | none => rfl
        | some n => simp [hinv.keeps _ n ha] at hfresh
    · apply List.Nodup.append hinv.nodup (List.nodup_singleton _)
      intro q hq hq'
      rw [List.mem_singleton.1 hq'] at hq
      exact hne _ (hinv.moved _ hq).1 rfl
    · intro i hi n hn
      by_cases hik : k = i
      · subst hik
        have hnn : node = n := by simpa [hok] using hn
        subst hnn
        refine ⟨(b.place node).2, by simp [hto], ?_, by simp⟩
        rw [hb.get_place node, if_pos rfl]
      · obtain ⟨r, hr, hbr, hmem⟩ := hinv.placed i (by omega) n hn
        refine ⟨r, by rw [hto, if_neg hik, hr], ?_, List.mem_append_left _ hmem⟩
        rw [hb.get_place node, if_neg (hne r (by simp [hbr]))]
        exact hbr
    · intro i j hi hj r hri hrj hoi hoj
      rw [hto] at hri hrj
      -- a slot placed earlier is filled, while the new place was empty
      have hold : ∀ l, l < k → tbl[l]? = some r → (o.get ⟨l⟩).isSome → r ≠ (b.place node).2 := by
        intro l hl hrl hol hr
        obtain ⟨n, hn⟩ := Option.isSome_iff_exists.1 hol
        obtain ⟨r', hr', hbr', -⟩ := hinv.placed l hl n hn
        rw [hrl, Option.some.injEq] at hr'
        subst hr'
        exact hne r (by simp [hbr']) hr.symm
      by_cases hik : k = i <;> by_cases hjk : k = j
      · exact hik.symm.trans hjk
      · rw [if_neg hjk] at hrj
        rw [if_pos hik, Option.some.injEq] at hri
        exact absurd hri.symm (hold j (by omega) hrj hoj)
      · rw [if_neg hik] at hri
        rw [if_pos hjk, Option.some.injEq] at hrj
        exact absurd hrj.symm (hold i (by omega) hri hoi)
      · rw [if_neg hik] at hri
        rw [if_neg hjk] at hrj
        exact hinv.inj i j (by omega) (by omega) r hri hrj hoi hoj
    · rw [place_live, hlive, hcount]
      simp only [Option.isSome_some, if_true]
      omega
    · rw [hb.size_place node, place_live, hsize]
      omega

theorem AbsorbInv.foldl (l : List (Option N)) :
    ∀ k acc, AbsorbInv a o k acc → o.slots.toList.drop k = l →
      AbsorbInv a o (k + l.length) ((l.zipIdx k).foldl absorbSlot acc) := by
  induction l with
  | nil =>
    intro k acc hinv _
    exact hinv
  | cons x l ih =>
    intro k acc hinv hl
    have hk : o.slots[k]? = some x := by
      have := congrArg (·[0]?) hl
      simpa [List.getElem?_drop] using this
    have hl' : o.slots.toList.drop (k + 1) = l := by
      rw [← List.drop_drop, hl]
      rfl
    have := ih (k + 1) _ (hinv.step hk) hl'
    rw [List.zipIdx_cons, List.foldl_cons]
    simpa [Nat.add_assoc, Nat.add_comm 1] using this

theorem absorbInv_placed (h : a.WellFormed) (o : Arena N) :
    AbsorbInv a o o.slots.size (o.slots.toList.zipIdx.foldl absorbSlot
      (a, Array.replicate o.slots.size NodeRef.dangling, [])) := by
  have := (absorbInv_start h o).foldl o.slots.toList 0 _ (List.drop_zero)
  simpa using this

theorem remap_get_of_getElem? {tbl : Array NodeRef} {i r : NodeRef} (h : tbl[i.index]? = some r) :
    (Remap.mk tbl).get i = r := by
  simp [Remap.get, Array.getD_eq_getD_getElem?, h]

variable [Relink N]

theorem WellFormed.absorb_spec (h : a.WellFormed) (o : Arena N) :
    (a.absorb o).1.WellFormed ∧ (a.absorb o).1.live = a.live + o.occupied ∧
      (a.absorb o).1.slots.size = max a.slots.size (a.absorb o).1.live ∧
      (∀ r node, a.get r = some node → (a.absorb o).1.get r = some node) ∧
      (∀ i node, o.get i = some node → a.get ((a.absorb o).2.get i) = none ∧
        (a.absorb o).1.get ((a.absorb o).2.get i) =
          some (Relink.relink (a.absorb o).2.get node)) ∧
      ∀ i j, (o.get i).isSome → (o.get j).isSome → (a.absorb o).2.get i = (a.absorb o).2.get j →
        i = j := by
  have hinv := absorbInv_placed h o
  unfold absorb
  generalize o.slots.toList.zipIdx.foldl absorbSlot
    (a, Array.replicate o.slots.size NodeRef.dangling, []) = p at hinv ⊢
  obtain ⟨b, tbl, moved⟩ := p
  obtain ⟨hv, hl, hs⟩ := foldl_modify_shape (Relink.relink (Remap.mk tbl).get) moved b
  -- the node of an occupied slot of `o` went to the slot the remap names
  have hplaced : ∀ (i : NodeRef) node, o.get i = some node →
      ∃ r, tbl[i.index]? = some r ∧ b.get r = some node ∧ r ∈ moved :=
    fun i node hi => hinv.placed i.index (lt_size_of_get hi) node hi
  have hlive : b.live = a.live + o.occupied := by
    rw [hinv.live, occupied, List.take_of_length_le (by simp)]
  refine ⟨hinv.wf.of_sameShape hv hl hs, ?_, ?_, ?_, ?_, ?_⟩
  · exact hl.trans hlive
  · rw [size_of_sameShape hs, hl]
    exact hinv.size
  · intro r node hr
    -- the nodes of `a` are not among the moved ones
    have hnot : r ∉ moved := fun hm => by simp [(hinv.moved r hm).2] at hr
    rw [get_foldl_modify _ hinv.nodup, if_neg hnot]
    exact hinv.keeps r node hr
  · intro i node hi
    obtain ⟨r, hr, hbr, hmem⟩ := hplaced i node hi
    rw [remap_get_of_getElem? hr, get_foldl_modify _ hinv.nodup, if_pos hmem, hbr]
    exact ⟨(hinv.moved r hmem).2, rfl⟩
  · intro i j hi hj hij
    obtain ⟨ni, hni⟩ := Option.isSome_iff_exists.1 hi
    obtain ⟨nj, hnj⟩ := Option.isSome_iff_exists.1 hj
    obtain ⟨r, hr, -, -⟩ := hplaced i ni hni
    obtain ⟨r', hr', -, -⟩ := hplaced j nj hnj
    rw [remap_get_of_getElem? hr, remap_get_of_getElem? hr'] at hij
    subst hij
    exact NodeRef.ext
      (hinv.inj i.index j.index (lt_size_of_get hni) (lt_size_of_get hnj) r hr hr' hi hj)

end Absorb

section Compacted

theorem length_entries (a : Arena N) : a.entries.length = a.occupied := by
  rw [entries, List.length_filterMap_eq_countP, occupied]
  calc _ = (a.slots.toList.zipIdx.map Prod.fst).countP Option.isSome := by
        rw [List.countP_map]
        congr 1
        funext p
        obtain ⟨x, i⟩ := p
        cases x <;> rfl
    _ = _ := by rw [List.zipIdx_map_fst 0 a.slots.toList]

theorem mem_entries {a : Arena N} {r : NodeRef} {node : N} :
    (r, node) ∈ a.entries ↔ a.get r = some node := by
  rw [entries, List.mem_filterMap, get_eq_some_iff]
  constructor
  · rintro ⟨⟨x, i⟩, hp, hx⟩
    rw [List.mem_zipIdx_iff_getElem?] at hp
    cases x with
    | none => cases hx
    | some n =>
      simp only [Option.map_some, Option.some.injEq, Prod.mk.injEq] at hx
      obtain ⟨rfl, rfl⟩ := hx
      rw [Array.getElem?_toList] at hp
      exact hp
  · intro h
    refine ⟨(some node, r.index), ?_, rfl⟩
    rw [List.mem_zipIdx_iff_getElem?, Array.getElem?_toList]
    exact h

theorem nodup_entries_fst (a : Arena N) : (a.entries.map Prod.fst).Nodup := by
  have hz : (a.slots.toList.zipIdx).Nodup :=
    List.Nodup.of_map Prod.snd (by rw [List.zipIdx_map_snd]; exact List.nodup_range')
  have he : a.entries.Nodup := by
    refine hz.filterMap fun p p' e hp hp' => ?_
    obtain ⟨x, i⟩ := p
    obtain ⟨x', i'⟩ := p'
    cases x <;> cases x' <;> simp only [Option.map_none, Option.map_some, Option.mem_def,
      reduceCtorEq, Option.some.injEq] at hp hp' ⊢
    subst hp
    simp only [Prod.mk.injEq, NodeRef.mk.injEq] at hp'
    obtain ⟨rfl, rfl⟩ := hp'
    rfl
  refine he.map_on fun x hx y hy hxy => ?_
  obtain ⟨r, n⟩ := x
  obtain ⟨r', n'⟩ := y
  simp only at hxy
  subst hxy
  rw [mem_entries] at hx hy
  rw [hx, Option.some.injEq] at hy
  rw [hy]

theorem WellFormed.live_eq_length {a : Arena N} (h : a.WellFormed) {l : List NodeRef}
    (hnd : l.Nodup) (hl : ∀ q, (a.get q).isSome ↔ q ∈ l) : a.live = l.length := by
  rw [h.live_eq, ← length_entries, ← List.length_map Prod.fst]
  apply List.Perm.length_eq
  rw [List.perm_ext_iff_of_nodup (nodup_entries_fst a) hnd]
  intro q
  rw [← hl, List.mem_map]
  constructor
  · rintro ⟨⟨r, n⟩, hm, rfl⟩
    rw [mem_entries] at hm
    simp [hm]
  · intro hq
    obtain ⟨n, hn⟩ := Option.isSome_iff_exists.1 hq
    exact ⟨(q, n), mem_entries.2 hn, rfl⟩

/-- A list of distinct live nodes as long as the live count holds every live node. -/
theorem WellFormed.mem_of_isSome {b : Arena N} (h : b.WellFormed) {l : List NodeRef}
    (hnd : l.Nodup) (hsub : ∀ q ∈ l, (b.get q).isSome) (hlen : b.live ≤ l.length) {q : NodeRef}
    (hq : (b.get q).isSome) : q ∈ l := by
  have hsp : l.Subperm (b.entries.map Prod.fst) := hnd.subperm fun r hr => by
    obtain ⟨n, hn⟩ := Option.isSome_iff_exists.1 (hsub r hr)
    exact List.mem_map.2 ⟨(r, n), mem_entries.2 hn, rfl⟩
  have hperm := hsp.perm_of_length_le (by
    rw [List.length_map, length_entries, ← h.live_eq]
    exact hlen)
  obtain ⟨n, hn⟩ := Option.isSome_iff_exists.1 hq
  exact hperm.symm.subset (List.mem_map.2 ⟨(q, n), mem_entries.2 hn, rfl⟩)

theorem foldl_compactSlot (es : List (NodeRef × N)) (acc : Arena N × Array NodeRef × Nat)
    (hwf : acc.1.WellFormed) (hv : acc.1.vacant = []) :
    (es.foldl compactSlot acc).1.WellFormed ∧ (es.foldl compactSlot acc).1.vacant = [] ∧
      (es.foldl compactSlot acc).1.live = acc.1.live + es.length ∧
      (es.foldl compactSlot acc).1.slots.size = acc.1.slots.size + es.length := by
  induction es generalizing acc with
  | nil => exact ⟨hwf, hv, rfl, rfl⟩
  | cons e es ih =>
    rw [List.foldl_cons]
    -- each copy goes into a new slot at the end
    have hplace := place_of_nil (a := { acc.1 with pool := (acc.1.pool.draw 1 acc.2.2).1 }) e.2 hv
    have hv1 : (compactSlot acc e).1.vacant = [] := by
      simp only [compactSlot, alloc_eq, hplace]
      exact hv
    have hl1 : (compactSlot acc e).1.live = acc.1.live + 1 := by
      simp only [compactSlot, alloc_eq, hplace]
    have hs1 : (compactSlot acc e).1.slots.size = acc.1.slots.size + 1 := by
      simp only [compactSlot, alloc_eq, hplace, Array.size_push]
    obtain ⟨hwf', hv', hl', hs'⟩ := ih (compactSlot acc e) (hwf.alloc e.2 acc.2.2) hv1
    refine ⟨hwf', hv', ?_, ?_⟩
    · rw [hl', hl1, List.length_cons]
      omega
    · rw [hs', hs1, List.length_cons]
      omega

/-- Compaction copies the live nodes, in slot order, into slots `0, 1, ...` of the new arena,
and records under each old number the new one. -/
theorem foldl_compactSlot_moves (es : List (NodeRef × N)) (acc : Arena N × Array NodeRef × Nat)
    (hv : acc.1.vacant = []) (hnd : (es.map Prod.fst).Nodup) :
    (es.foldl compactSlot acc).1.slots.toList = acc.1.slots.toList ++ es.map (fun e => some e.2) ∧
      (es.foldl compactSlot acc).2.1.size = acc.2.1.size ∧
      (∀ i, (∀ e ∈ es, e.1.index ≠ i) → (es.foldl compactSlot acc).2.1[i]? = acc.2.1[i]?) ∧
      ∀ j (hj : j < es.length), es[j].1.index < acc.2.1.size →
        (es.foldl compactSlot acc).2.1[es[j].1.index]? = some ⟨acc.1.slots.size + j⟩ := by
  induction es generalizing acc with
  | nil => exact ⟨by simp, rfl, fun _ _ => rfl, fun j hj => absurd hj (by simp)⟩
  | cons e es ih =>
    rw [List.map_cons, List.nodup_cons] at hnd
    rw [List.foldl_cons]
    -- each copy is pushed at the end, and its new number written under its old one
    have hplace := place_of_nil (a := { acc.1 with pool := (acc.1.pool.draw 1 acc.2.2).1 }) e.2 hv
    have h1 : (compactSlot acc e).1.vacant = [] := by
      simp only [compactSlot, alloc_eq, hplace]
      exact hv
    have h2 : (compactSlot acc e).1.slots = acc.1.slots.push (some e.2) := by
      simp only [compactSlot, alloc_eq, hplace]
    have h3 : (compactSlot acc e).2.1 = acc.2.1.setIfInBounds e.1.index ⟨acc.1.slots.size⟩ := by
      simp only [compactSlot, alloc_eq, hplace]
    obtain ⟨hs, hsz, hkeep, hset⟩ := ih (compactSlot acc e) h1 hnd.2
    refine ⟨by rw [hs, h2]; simp, by rw [hsz, h3]; simp, fun i hi => ?_, fun j hj hlt => ?_⟩
    · rw [hkeep i fun e' he' => hi e' (List.mem_cons_of_mem _ he'), h3,
        Array.getElem?_setIfInBounds, if_neg (hi e List.mem_cons_self)]
    · cases j with
      | zero =>
        simp only [List.getElem_cons_zero] at hlt ⊢
        have hnot : ∀ e' ∈ es, e'.1.index ≠ e.1.index := fun e' he' heq =>
          hnd.1 (List.mem_map.2 ⟨e', he', NodeRef.ext heq⟩)
        rw [hkeep _ hnot, h3, Array.getElem?_setIfInBounds, if_pos rfl, if_pos hlt]
        simp
      | succ j =>
        simp only [List.getElem_cons_succ] at hlt ⊢
        rw [hset j (by simpa using hj) (by rw [h3, Array.size_setIfInBounds]; exact hlt), h2,
          Array.size_push]
        congr 2
        omega

theorem getElem_entries_of_get {a : Arena N} {q : NodeRef} {node : N} (hq : a.get q = some node) :
    ∃ k, ∃ hk : k < a.entries.length, a.entries[k] = (q, node) :=
  List.mem_iff_getElem.1 (mem_entries.2 hq)

variable [Relink N]

theorem WellFormed.compacted_spec {a : Arena N} (h : a.WellFormed) (shared : Nat) :
    (a.compacted shared).1.1.WellFormed ∧ (a.compacted shared).1.1.live = a.live ∧
      (a.compacted shared).1.1.slots.size = a.live := by
  obtain ⟨hwf, hv, hl, hs⟩ := foldl_compactSlot a.entries
    (a.emptyLike, Array.replicate a.slots.size NodeRef.dangling, shared)
    (wellFormed_new a.pool.fork) rfl
  unfold compacted
  generalize a.entries.foldl compactSlot
    (a.emptyLike, Array.replicate a.slots.size NodeRef.dangling, shared) = p at hwf hv hl hs ⊢
  obtain ⟨b, tbl, shared'⟩ := p
  -- relinking every node changes no slot's occupancy
  have hshape : ∀ i : Nat,
      ((b.slots.map (Option.map (Relink.relink (Remap.mk tbl).get)))[i]?).map Option.isSome =
        (b.slots[i]?).map Option.isSome := by
    intro i
    simp only [Array.getElem?_map, Option.map_map]
    cases b.slots[i]? with
    | none => rfl
    | some x => cases x <;> rfl
  have hcount : a.entries.length = a.live := by rw [length_entries, h.live_eq]
  refine ⟨hwf.of_sameShape rfl rfl hshape, ?_, ?_⟩
  · rw [← hcount]
    exact hl.trans (Nat.zero_add _)
  · rw [size_of_sameShape hshape, hs, hcount]
    exact Nat.zero_add _


/-- A live node is copied to the slot the remap gives its number, with its links rewritten. -/
theorem compacted_get {a : Arena N} (shared : Nat) {q : NodeRef} {node : N}
    (hq : a.get q = some node) :
    (a.compacted shared).1.1.get ((a.compacted shared).1.2.get q) =
      some (Relink.relink (a.compacted shared).1.2.get node) := by
  obtain ⟨hs, hsz, -, hset⟩ := foldl_compactSlot_moves a.entries
    (a.emptyLike, Array.replicate a.slots.size NodeRef.dangling, shared) rfl (nodup_entries_fst a)
  obtain ⟨k, hk, hek⟩ := getElem_entries_of_get hq
  have hlt : a.entries[k].1.index < a.slots.size := by rw [hek]; exact lt_size_of_get hq
  have hmove := hset k hk (by simpa using hlt)
  unfold compacted
  generalize a.entries.foldl compactSlot
    (a.emptyLike, Array.replicate a.slots.size NodeRef.dangling, shared) = p at hs hmove ⊢
  obtain ⟨b, tbl, shared'⟩ := p
  simp only [emptyLike, new, List.size_toArray, List.length_nil, Nat.zero_add] at hmove hs
  rw [hek] at hmove
  rw [remap_get_of_getElem? hmove]
  have hslot : b.slots[k]? = some (some node) := by
    rw [← Array.getElem?_toList, hs, List.nil_append, List.getElem?_map,
      List.getElem?_eq_getElem hk, hek]
    rfl
  simp [get, Array.getElem?_map, hslot]

theorem compacted_remap_injective {a : Arena N} (shared : Nat) {i j : NodeRef}
    (hi : (a.get i).isSome) (hj : (a.get j).isSome)
    (h : (a.compacted shared).1.2.get i = (a.compacted shared).1.2.get j) : i = j := by
  obtain ⟨-, -, -, hset⟩ := foldl_compactSlot_moves a.entries
    (a.emptyLike, Array.replicate a.slots.size NodeRef.dangling, shared) rfl (nodup_entries_fst a)
  obtain ⟨ni, hni⟩ := Option.isSome_iff_exists.1 hi
  obtain ⟨nj, hnj⟩ := Option.isSome_iff_exists.1 hj
  obtain ⟨k, hk, hek⟩ := getElem_entries_of_get hni
  obtain ⟨l, hl, hel⟩ := getElem_entries_of_get hnj
  have hmi := hset k hk (by rw [hek]; simpa using lt_size_of_get hni)
  have hmj := hset l hl (by rw [hel]; simpa using lt_size_of_get hnj)
  simp only [emptyLike, new, List.size_toArray, List.length_nil, Nat.zero_add, hek, hel] at hmi hmj
  have hi' : (a.compacted shared).1.2.get i = ⟨k⟩ := remap_get_of_getElem? hmi
  have hj' : (a.compacted shared).1.2.get j = ⟨l⟩ := remap_get_of_getElem? hmj
  rw [hi', hj', NodeRef.mk.injEq] at h
  subst h
  exact congrArg Prod.fst (hek.symm.trans hel)

end Compacted

section Live

variable [Relink N] {a : Arena N}

/-- The live nodes after an absorb are the old ones and the moved ones. -/
theorem WellFormed.absorb_live (h : a.WellFormed) {o : Arena N} (ho : o.WellFormed) {q : NodeRef}
    (hq : ((a.absorb o).1.get q).isSome) :
    (a.get q).isSome ∨ ∃ i, (o.get i).isSome ∧ q = (a.absorb o).2.get i := by
  obtain ⟨-, hlive, -, hkeep, hmoved, hinj⟩ := h.absorb_spec o
  have hwf' := (h.absorb_spec o).1
  let old := a.entries.map Prod.fst
  let moved := (o.entries.map Prod.fst).map (a.absorb o).2.get
  have hold : ∀ r ∈ old, (a.get r).isSome := fun r hr => by
    obtain ⟨⟨r', n⟩, he, rfl⟩ := List.mem_map.1 hr
    simp [mem_entries.1 he]
  have hmv : ∀ r ∈ moved, ∃ i, (o.get i).isSome ∧ r = (a.absorb o).2.get i := fun r hr => by
    obtain ⟨i, hi, rfl⟩ := List.mem_map.1 hr
    obtain ⟨⟨i', n⟩, he, rfl⟩ := List.mem_map.1 hi
    exact ⟨i', by simp [mem_entries.1 he], rfl⟩
  have hnd : (old ++ moved).Nodup := by
    refine List.nodup_append.2 ⟨nodup_entries_fst a, ?_, ?_⟩
    · refine (nodup_entries_fst o).map_on fun i hi j hj hij => ?_
      obtain ⟨⟨i', n⟩, he, rfl⟩ := List.mem_map.1 hi
      obtain ⟨⟨j', m⟩, he', rfl⟩ := List.mem_map.1 hj
      exact hinj i' j' (by simp [mem_entries.1 he]) (by simp [mem_entries.1 he']) hij
    · -- the moved nodes went to slots that held nothing in `a`
      intro r hr r' hr' heq
      subst heq
      obtain ⟨i, hi, rfl⟩ := hmv r hr'
      obtain ⟨n, hn⟩ := Option.isSome_iff_exists.1 hi
      have := hold _ hr
      rw [(hmoved i n hn).1] at this
      cases this
  have hsub : ∀ r ∈ old ++ moved, ((a.absorb o).1.get r).isSome := fun r hr => by
    rcases List.mem_append.1 hr with hr | hr
    · obtain ⟨n, hn⟩ := Option.isSome_iff_exists.1 (hold r hr)
      simp [hkeep r n hn]
    · obtain ⟨i, hi, rfl⟩ := hmv r hr
      obtain ⟨n, hn⟩ := Option.isSome_iff_exists.1 hi
      simp [(hmoved i n hn).2]
  have hlen : (a.absorb o).1.live ≤ (old ++ moved).length := by
    simp only [old, moved, List.length_append, List.length_map, length_entries, hlive, ← h.live_eq,
      ← ho.live_eq, le_refl]
  rcases List.mem_append.1 (hwf'.mem_of_isSome hnd hsub hlen hq) with hm | hm
  · exact .inl (hold q hm)
  · exact .inr (hmv q hm)


/-- The live nodes of a compacted copy are the copies of the live nodes. -/
theorem WellFormed.compacted_live (h : a.WellFormed) (shared : Nat) {q : NodeRef}
    (hq : ((a.compacted shared).1.1.get q).isSome) :
    ∃ i, (a.get i).isSome ∧ q = (a.compacted shared).1.2.get i := by
  obtain ⟨hwf, hlive, -⟩ := h.compacted_spec shared
  let copies := (a.entries.map Prod.fst).map (a.compacted shared).1.2.get
  have hmem : ∀ r ∈ copies, ∃ i, (a.get i).isSome ∧ r = (a.compacted shared).1.2.get i :=
    fun r hr => by
      obtain ⟨i, hi, rfl⟩ := List.mem_map.1 hr
      obtain ⟨⟨i', n⟩, he, rfl⟩ := List.mem_map.1 hi
      exact ⟨i', by simp [mem_entries.1 he], rfl⟩
  have hnd : copies.Nodup := (nodup_entries_fst a).map_on fun i hi j hj hij => by
    obtain ⟨⟨i', n⟩, he, rfl⟩ := List.mem_map.1 hi
    obtain ⟨⟨j', m⟩, he', rfl⟩ := List.mem_map.1 hj
    exact compacted_remap_injective shared (by simp [mem_entries.1 he])
      (by simp [mem_entries.1 he']) hij
  have hsub : ∀ r ∈ copies, ((a.compacted shared).1.1.get r).isSome := fun r hr => by
    obtain ⟨i, hi, rfl⟩ := hmem r hr
    obtain ⟨n, hn⟩ := Option.isSome_iff_exists.1 hi
    simp [compacted_get shared hn]
  have hlen : (a.compacted shared).1.1.live ≤ copies.length := by
    simp only [copies, List.length_map, length_entries, hlive, ← h.live_eq, le_refl]
  exact hmem q (hwf.mem_of_isSome hnd hsub hlen hq)

end Live

section Owns

/-! The live nodes of an arena as a list: what a heap's trees must account for. -/

/-- The live nodes of a well-formed arena are exactly the members of a list without repeats. -/
structure Owns (a : Arena N) (l : List NodeRef) : Prop where
  wf : a.WellFormed
  nodup : l.Nodup
  live : ∀ q, (a.get q).isSome ↔ q ∈ l

variable {a b : Arena N} {l l' : List NodeRef}

theorem owns_new (pool : ShellPool) : (new pool : Arena N).Owns [] :=
  ⟨wellFormed_new pool, .nil, fun q => by simp [new, get]⟩

theorem owns_clear (a : Arena N) (shared : Nat) : (a.clear shared).1.Owns [] :=
  ⟨wellFormed_clear a shared, .nil, fun q => by simp [get_clear]⟩

theorem Owns.perm (h : a.Owns l) (hp : l.Perm l') : a.Owns l' :=
  ⟨h.wf, hp.nodup_iff.1 h.nodup, fun q => (h.live q).trans hp.mem_iff⟩

theorem Owns.edits (h : a.Owns l) (he : a.Edits b) : b.Owns l :=
  ⟨he.wellFormed h.wf, h.nodup, fun q => by rw [he.isSome_get, h.live q]⟩

theorem Owns.get_eq_none (h : a.Owns l) {q : NodeRef} (hq : q ∉ l) : a.get q = none :=
  Option.not_isSome_iff_eq_none.1 fun hs => hq ((h.live q).1 hs)

theorem Owns.length_le (h : a.Owns l) : l.length ≤ a.slotCount := by
  rw [← h.wf.live_eq_length h.nodup h.live]
  exact h.wf.live_le_size

/-- A new node goes into a slot that held none, after the others. -/
theorem Owns.alloc (h : a.Owns l) (node : N) (shared : Nat) :
    (a.alloc node shared).1.Owns (l ++ [(a.alloc node shared).2.1]) ∧
      (a.alloc node shared).2.1 ∉ l := by
  have hfresh : (a.alloc node shared).2.1 ∉ l := fun hm => by
    have := (h.live _).2 hm
    rw [h.wf.get_alloc_ref] at this
    cases this
  refine ⟨⟨h.wf.alloc _ _, List.nodup_append.2 ⟨h.nodup, List.nodup_singleton _, ?_⟩,
    fun q => ?_⟩, hfresh⟩
  · intro q hq q' hq' heq
    rw [List.mem_singleton] at hq'
    subst hq' heq
    exact hfresh hq
  · rw [h.wf.get_alloc, List.mem_append, List.mem_singleton, ← h.live q]
    by_cases hq : (a.alloc node shared).2.1 = q
    · simp [hq]
    · simp [hq, Ne.symm hq]

/-- Freeing the last node of the list drops it. -/
theorem Owns.free {r : NodeRef} {node : N} (h : a.Owns (l ++ [r])) (hget : a.get r = some node)
    (shared : Nat) :
    ∃ a' shared', a.free r shared = some (a', node, shared') ∧ a'.Owns l := by
  have hf : a.free r shared = _ := free_of_get hget
  have hr : r ∉ l := fun hm => (List.nodup_append.1 h.nodup).2.2 r hm r (List.mem_singleton_self r) rfl
  refine ⟨_, _, hf, h.wf.free hf, h.nodup.sublist (List.sublist_append_left l [r]), fun q => ?_⟩
  rw [get_free hf]
  by_cases hq : r = q
  · subst hq
    simp [hr]
  · rw [if_neg hq, h.live q, List.mem_append, List.mem_singleton]
    simp [Ne.symm hq]

variable [Relink N]

/-- Absorbing an arena adds its live nodes, renumbered, after this arena's own. -/
theorem Owns.absorb {o : Arena N} {m : List NodeRef} (h : a.Owns l) (ho : o.Owns m) :
    (a.absorb o).1.Owns (l ++ m.map (a.absorb o).2.get) := by
  obtain ⟨hwf, -, -, hkeep, hmoved, hinj⟩ := h.wf.absorb_spec o
  refine ⟨hwf, ?_, fun q => ?_⟩
  · refine List.nodup_append.2 ⟨h.nodup, ho.nodup.map_on fun i hi j hj hij =>
      hinj i j ((ho.live i).2 hi) ((ho.live j).2 hj) hij, ?_⟩
    -- the moved nodes went to slots that held nothing in `a`
    intro q hq q' hq' heq
    subst heq
    obtain ⟨i, hi, rfl⟩ := List.mem_map.1 hq'
    obtain ⟨n, hn⟩ := Option.isSome_iff_exists.1 ((ho.live i).2 hi)
    have := (h.live _).2 hq
    rw [(hmoved i n hn).1] at this
    cases this
  · rw [List.mem_append, ← h.live q]
    constructor
    · intro hq
      rcases h.wf.absorb_live ho.wf hq with hq | ⟨i, hi, rfl⟩
      · exact .inl hq
      · exact .inr (List.mem_map.2 ⟨i, (ho.live i).1 hi, rfl⟩)
    · rintro (hq | hq)
      · obtain ⟨n, hn⟩ := Option.isSome_iff_exists.1 hq
        simp [hkeep q n hn]
      · obtain ⟨i, hi, rfl⟩ := List.mem_map.1 hq
        obtain ⟨n, hn⟩ := Option.isSome_iff_exists.1 ((ho.live i).2 hi)
        simp [(hmoved i n hn).2]

/-- A compacted copy holds the live nodes, renumbered. -/
theorem Owns.compacted (h : a.Owns l) (shared : Nat) :
    (a.compacted shared).1.1.Owns (l.map (a.compacted shared).1.2.get) := by
  refine ⟨(h.wf.compacted_spec shared).1, h.nodup.map_on fun i hi j hj hij =>
    compacted_remap_injective shared ((h.live i).2 hi) ((h.live j).2 hj) hij, fun q => ?_⟩
  constructor
  · intro hq
    obtain ⟨i, hi, rfl⟩ := h.wf.compacted_live shared hq
    exact List.mem_map.2 ⟨i, (h.live i).1 hi, rfl⟩
  · intro hq
    obtain ⟨i, hi, rfl⟩ := List.mem_map.1 hq
    obtain ⟨n, hn⟩ := Option.isSome_iff_exists.1 ((h.live i).2 hi)
    simp [compacted_get shared hn]

end Owns

section Runs

variable [Relink N]

/-- The arenas reached from a new one by allocations, frees of live nodes, clears, absorbs and
compactions, each with the most nodes that were live in it at once since it was made or last
cleared. -/
inductive Reached : Arena N → Nat → Prop
  | new (pool : ShellPool) : Reached (Arena.new pool) 0
  | alloc {a : Arena N} {peak : Nat} (node : N) (shared : Nat) :
      Reached a peak → Reached (a.alloc node shared).1 (max peak (a.alloc node shared).1.live)
  | free {a a' : Arena N} {peak : Nat} {r : NodeRef} {node : N} {shared shared' : Nat} :
      Reached a peak → a.free r shared = some (a', node, shared') → Reached a' (max peak a'.live)
  | clear {a : Arena N} {peak : Nat} (shared : Nat) :
      Reached a peak → Reached (a.clear shared).1 0
  | absorb {a : Arena N} {peak : Nat} (other : Arena N) :
      Reached a peak → Reached (a.absorb other).1 (max peak (a.absorb other).1.live)
  | compacted {a : Arena N} {peak : Nat} (shared : Nat) :
      Reached a peak → Reached (a.compacted shared).1.1 (a.compacted shared).1.1.live

theorem Reached.wellFormed_size {a : Arena N} {peak : Nat} (h : Reached a peak) :
    a.WellFormed ∧ a.slots.size = peak := by
  induction h with
  | new pool => exact ⟨wellFormed_new pool, rfl⟩
  | alloc node shared _ ih =>
    refine ⟨ih.1.alloc node shared, ?_⟩
    rw [ih.1.size_alloc, alloc_live, ih.2]
  | free _ hf ih =>
    refine ⟨ih.1.free hf, ?_⟩
    -- a free lowers the count, so the peak stays where it was
    have hle := ih.1.live_le_size
    rw [ih.2] at hle
    rw [size_free hf, free_live hf, ih.2]
    omega
  | clear shared _ _ => exact ⟨wellFormed_clear _ shared, rfl⟩
  | absorb other _ ih =>
    obtain ⟨hwf, -, hsize, -⟩ := ih.1.absorb_spec other
    exact ⟨hwf, by rw [hsize, ih.2]⟩
  | compacted shared _ ih =>
    obtain ⟨hwf, hl, hs⟩ := ih.1.compacted_spec shared
    exact ⟨hwf, by rw [hs, hl]⟩

/-- One operation that leaves the node at `r` in place: an allocation, a free of another slot, or
an absorb. -/
inductive Spares (r : NodeRef) : Arena N → Arena N → Prop
  | alloc (a : Arena N) (node : N) (shared : Nat) : Spares r a (a.alloc node shared).1
  | free {a a' : Arena N} {q : NodeRef} {node : N} {shared shared' : Nat} :
      q ≠ r → a.free q shared = some (a', node, shared') → Spares r a a'
  | absorb (a other : Arena N) : Spares r a (a.absorb other).1

theorem Spares.keeps {r : NodeRef} {a b : Arena N} {node : N} (hs : Spares r a b)
    (h : a.WellFormed) (hr : a.get r = some node) : b.WellFormed ∧ b.get r = some node := by
  cases hs with
  | alloc n shared =>
    refine ⟨h.alloc n shared, ?_⟩
    rw [h.get_alloc n shared, if_neg]
    · exact hr
    · -- the allocation took a slot that held nothing
      intro heq
      rw [← heq, h.get_alloc_ref n shared] at hr
      cases hr
  | free hq hf =>
    refine ⟨h.free hf, ?_⟩
    rw [get_free hf, if_neg hq]
    exact hr
  | absorb other =>
    obtain ⟨hwf, -, -, hkeep, -⟩ := h.absorb_spec other
    exact ⟨hwf, hkeep r node hr⟩

theorem Spares.run {r : NodeRef} {a b : Arena N} {node : N}
    (hs : Relation.ReflTransGen (Spares r) a b) (h : a.WellFormed) (hr : a.get r = some node) :
    b.WellFormed ∧ b.get r = some node := by
  induction hs with
  | refl => exact ⟨h, hr⟩
  | tail _ hstep ih => exact hstep.keeps ih.1 ih.2

end Runs

/-- An arena's stack, live count and slot count stay in step with its slots along every history,
and `get` reads what `alloc` or `absorb` stored. -/
theorem arena_slots_stay_in_step_with_live_nodes [Relink N] {a : Arena N} {peak : Nat}
    (h : Reached a peak) :
    a.vacant.Nodup ∧ (∀ i, i ∈ a.vacant ↔ a.slots[i]? = some none) ∧ a.live = a.occupied ∧
      a.slotCount = peak ∧
      (∀ node shared, a.get (a.alloc node shared).2.1 = none ∧
        (a.alloc node shared).1.get (a.alloc node shared).2.1 = some node) ∧
      (∀ r node b, a.get r = some node → Relation.ReflTransGen (Spares r) a b →
        b.get r = some node) ∧
      (∀ other : Arena N,
        (∀ i node, other.get i = some node → a.get ((a.absorb other).2.get i) = none ∧
          (a.absorb other).1.get ((a.absorb other).2.get i) =
            some (Relink.relink (a.absorb other).2.get node)) ∧
        ∀ i j, (other.get i).isSome → (other.get j).isSome →
          (a.absorb other).2.get i = (a.absorb other).2.get j → i = j) ∧
      ∀ shared, (a.compacted shared).1.1.slotCount = (a.compacted shared).1.1.len ∧
        (a.compacted shared).1.1.len = a.len := by
  obtain ⟨hwf, hsize⟩ := h.wellFormed_size
  refine ⟨hwf.nodup, hwf.mem_vacant, hwf.live_eq, hsize, ?_, ?_, ?_, ?_⟩
  · intro node shared
    refine ⟨hwf.get_alloc_ref node shared, ?_⟩
    rw [hwf.get_alloc node shared, if_pos rfl]
  · intro r node b hr hrun
    exact (Spares.run hrun hwf hr).2
  · intro other
    obtain ⟨-, -, -, -, hmoved, hinj⟩ := hwf.absorb_spec other
    exact ⟨hmoved, hinj⟩
  · intro shared
    obtain ⟨-, hl, hs⟩ := hwf.compacted_spec shared
    exact ⟨hs.trans hl.symm, hl⟩

instance : Relink Link := ⟨fun f l => l.map f⟩

theorem arena_of_two_linked_nodes_stays_in_step :
    Reached ((((Arena.new (.own 0) : Arena Link).alloc none 0).1.alloc (some ⟨0⟩) 0).1) 2 ∧
      ((((Arena.new (.own 0) : Arena Link).alloc none 0).1.alloc (some ⟨0⟩) 0).1).slotCount = 2 ∧
      ((((Arena.new (.own 0) : Arena Link).alloc none 0).1.alloc (some ⟨0⟩) 0).1).live =
        ((((Arena.new (.own 0) : Arena Link).alloc none 0).1.alloc (some ⟨0⟩) 0).1).occupied :=
  ⟨.alloc _ _ (.alloc _ _ (.new _)),
    (arena_slots_stay_in_step_with_live_nodes (.alloc _ _ (.alloc _ _ (.new _)))).2.2.2.1,
    (arena_slots_stay_in_step_with_live_nodes (.alloc _ _ (.alloc _ _ (.new _)))).2.2.1⟩

end Arena

end PriorityQueues
