import Mathlib
import PriorityQueues.Dary.Listeners

/-!
The laws of a listener registry (`LawfulRegistry`) and what follows: a removed key names nothing
again, and the registry holds exactly the registrations made and not removed (`Tracks`).
-/

namespace PriorityQueues

namespace Registry

variable {R K L : Type} [Registry R K L]

/-- The registries that registrations and removals make from `r`. -/
inductive Later (r : R) : R → Prop
  | refl : Later r r
  | insert {r' : R} (l : L) : Later r r' → Later r (insert r' l).2
  | remove {r' r'' : R} {k : K} : Later r r' → remove r' k = some r'' → Later r r''

end Registry

/-- The laws of a listener registry. -/
class LawfulRegistry (R : Type) (K L : outParam Type) [Registry R K L] : Prop where
  get_empty (k : K) : Registry.get (Registry.empty : R) k = none
  listeners_empty : Registry.listeners (Registry.empty : R) = []
  /-- The key a registration hands out named nothing before. -/
  get_insert_fresh (r : R) (l : L) : Registry.get r (Registry.insert r l).1 = none
  get_insert_self (r : R) (l : L) :
    Registry.get (Registry.insert r l).2 (Registry.insert r l).1 = some l
  get_insert_of_ne (r : R) (l : L) {k : K} :
    k ≠ (Registry.insert r l).1 → Registry.get (Registry.insert r l).2 k = Registry.get r k
  listeners_insert (r : R) (l : L) :
    (Registry.listeners (Registry.insert r l).2).Perm (l :: Registry.listeners r)
  /-- A key that names no registration is refused. -/
  remove_eq_none_iff (r : R) (k : K) : Registry.remove r k = none ↔ Registry.get r k = none
  get_remove_self {r r' : R} {k : K} : Registry.remove r k = some r' → Registry.get r' k = none
  get_remove_of_ne {r r' : R} {k k' : K} :
    Registry.remove r k = some r' → k' ≠ k → Registry.get r' k' = Registry.get r k'
  listeners_remove {r r' : R} {k : K} {l : L} : Registry.remove r k = some r' →
    Registry.get r k = some l → (Registry.listeners r).Perm (l :: Registry.listeners r')
  /-- A removed key is never handed out again. -/
  insert_ne_of_removed {r r' r'' : R} {k : K} (l : L) : Registry.remove r k = some r' →
    Registry.Later r' r'' → (Registry.insert r'' l).1 ≠ k

namespace Registry

variable {R K L : Type} [Registry R K L] [LawfulRegistry R K L]

theorem removed_key_stays_dead {r r' r'' : R} {k : K} (hk : remove r k = some r')
    (hl : Later r' r'') : get r'' k = none := by
  induction hl with
  | refl => exact LawfulRegistry.get_remove_self hk
  | @insert r₁ l _ ih =>
    rw [LawfulRegistry.get_insert_of_ne r₁ l
      (Ne.symm (LawfulRegistry.insert_ne_of_removed l hk ‹_›)), ih]
  | @remove r₁ r₂ k' _ hrem ih =>
    by_cases hkk : k = k'
    · subst hkk
      exact LawfulRegistry.get_remove_self hrem
    · rw [LawfulRegistry.get_remove_of_ne hrem hkk, ih]

theorem remove_eq_none_of_removed {r r' r'' : R} {k : K} (hk : remove r k = some r')
    (hl : Later r' r'') : remove r'' k = none :=
  (LawfulRegistry.remove_eq_none_iff r'' k).2 (removed_key_stays_dead hk hl)

variable (R) in
/-- The registry `r` holds exactly the registrations `live`, each a key and its listener: the keys
are distinct, a key names a listener exactly when the two are registered together, and the
listeners are theirs. -/
structure Tracks (r : R) (live : List (K × L)) : Prop where
  nodup : (live.map Prod.fst).Nodup
  get_eq_some : ∀ k l, get r k = some l ↔ (k, l) ∈ live
  listeners_perm : (listeners r).Perm (live.map Prod.snd)

theorem tracks_empty : Tracks R (empty : R) [] where
  nodup := List.nodup_nil
  get_eq_some k l := by simp [LawfulRegistry.get_empty (R := R) k]
  listeners_perm := by rw [LawfulRegistry.listeners_empty (R := R)]; rfl

omit [LawfulRegistry R K L] in
theorem Tracks.get_eq_none {r : R} {live : List (K × L)} (ht : Tracks R r live) {k : K} :
    get r k = none ↔ ∀ l, (k, l) ∉ live := by
  constructor
  · intro hk l hl
    rw [← ht.get_eq_some, hk] at hl
    cases hl
  · intro hk
    cases hg : get r k with
    | none => rfl
    | some l => exact absurd ((ht.get_eq_some k l).1 hg) (hk l)

theorem Tracks.insert {r : R} {live : List (K × L)} (ht : Tracks R r live) (l : L) :
    Tracks R (Registry.insert r l).2 (((Registry.insert r l).1, l) :: live) := by
  have hfresh := (ht.get_eq_none).1 (LawfulRegistry.get_insert_fresh r l)
  refine ⟨?_, fun k l' => ?_, ?_⟩
  · refine List.nodup_cons.2 ⟨fun hk => ?_, ht.nodup⟩
    obtain ⟨p, hp, hpk⟩ := List.mem_map.1 hk
    exact hfresh p.2 (by rw [← hpk]; exact hp)
  · by_cases hk : k = (Registry.insert r l).1
    · subst hk
      rw [LawfulRegistry.get_insert_self, List.mem_cons, Option.some.injEq, Prod.mk.injEq]
      constructor
      · rintro rfl
        exact .inl ⟨rfl, rfl⟩
      · rintro (⟨-, rfl⟩ | hmem)
        · rfl
        · exact absurd hmem (hfresh l')
    · rw [LawfulRegistry.get_insert_of_ne r l hk, ht.get_eq_some, List.mem_cons, Prod.mk.injEq]
      simp [hk]
  · exact (LawfulRegistry.listeners_insert r l).trans (.cons l ht.listeners_perm)

theorem Tracks.remove {r r' : R} {live : List (K × L)} (ht : Tracks R r live) {k : K}
    (hk : Registry.remove r k = some r') :
    ∃ l live', live.Perm ((k, l) :: live') ∧ Tracks R r' live' := by
  obtain ⟨l, hl⟩ : ∃ l, get r k = some l := by
    cases hg : get r k with
    | none => rw [(LawfulRegistry.remove_eq_none_iff r k).2 hg] at hk; cases hk
    | some l => exact ⟨l, rfl⟩
  obtain ⟨s, t, rfl⟩ := List.append_of_mem ((ht.get_eq_some k l).1 hl)
  have hperm : (s ++ (k, l) :: t).Perm ((k, l) :: (s ++ t)) := List.perm_middle
  have hnodup : (((k, l) :: (s ++ t)).map Prod.fst).Nodup :=
    (hperm.map Prod.fst).nodup_iff.1 ht.nodup
  -- the removed key is registered once, so no other registration carries it
  have hk' : ∀ l', (k, l') ∉ s ++ t := fun l' hmem =>
    (List.nodup_cons.1 hnodup).1 (List.mem_map.2 ⟨(k, l'), hmem, rfl⟩)
  refine ⟨l, s ++ t, hperm, (List.nodup_cons.1 hnodup).2, fun k' l' => ?_, ?_⟩
  · by_cases hkk : k' = k
    · subst hkk
      rw [LawfulRegistry.get_remove_self hk]
      exact ⟨fun h => absurd h.symm (Option.some_ne_none l'), fun h => absurd h (hk' l')⟩
    · rw [LawfulRegistry.get_remove_of_ne hk hkk, ht.get_eq_some,
        hperm.mem_iff, List.mem_cons, Prod.mk.injEq]
      simp [hkk]
  · have hl' := (LawfulRegistry.listeners_remove hk hl).symm.trans
      (ht.listeners_perm.trans (hperm.map Prod.snd))
    exact (List.perm_cons l).1 hl'

end Registry

/-! ## A registry that meets the laws -/

/-- A registry that numbers its keys in order and never reuses one; the newest registration comes
first. -/
structure NumberedRegistry (L : Type) where
  next : Nat
  entries : List (Nat × L)
  lt_next : ∀ p ∈ entries, p.1 < next
  nodup : (entries.map Prod.fst).Nodup

namespace NumberedRegistry

variable {L : Type}

def empty : NumberedRegistry L := ⟨0, [], fun _ h => absurd h List.not_mem_nil, List.nodup_nil⟩

def insert (r : NumberedRegistry L) (l : L) : Nat × NumberedRegistry L :=
  (r.next, ⟨r.next + 1, (r.next, l) :: r.entries,
    fun p hp => by
      rcases List.mem_cons.1 hp with rfl | hp
      · exact Nat.lt_succ_self _
      · exact Nat.lt_succ_of_lt (r.lt_next p hp),
    List.nodup_cons.2 ⟨fun hmem => by
      obtain ⟨p, hp, hpk⟩ := List.mem_map.1 hmem
      exact Nat.lt_irrefl _ (hpk ▸ r.lt_next p hp), r.nodup⟩⟩)

def remove (r : NumberedRegistry L) (k : Nat) : Option (NumberedRegistry L) :=
  if k ∈ r.entries.map Prod.fst then
    some ⟨r.next, r.entries.filter (fun p => p.1 != k),
      fun p hp => r.lt_next p (List.mem_of_mem_filter hp),
      (r.nodup.sublist (List.Sublist.map _ List.filter_sublist))⟩
  else none

def get (r : NumberedRegistry L) (k : Nat) : Option L :=
  (r.entries.find? (fun p => p.1 == k)).map Prod.snd

instance : Registry (NumberedRegistry L) Nat L where
  empty := empty
  insert := insert
  remove := remove
  get := get
  listeners r := r.entries.map Prod.snd

theorem get_eq_some_iff {r : NumberedRegistry L} {k : Nat} {l : L} :
    r.get k = some l ↔ (k, l) ∈ r.entries := by
  unfold get
  constructor
  · intro h
    obtain ⟨p, hp, rfl⟩ := Option.map_eq_some_iff.1 h
    have hk := List.find?_some hp
    simp only [beq_iff_eq] at hk
    rw [← hk]
    exact List.mem_of_find?_eq_some hp
  · intro hmem
    obtain ⟨p, hp⟩ : ∃ p, r.entries.find? (fun p => p.1 == k) = some p :=
      Option.isSome_iff_exists.1 (List.find?_isSome.2 ⟨(k, l), hmem, by simp⟩)
    have hk : p.1 = k := by simpa using List.find?_some hp
    -- keys are distinct, so the pair found is the one given
    have hpl : p = (k, l) := by
      have hpm := List.mem_of_find?_eq_some hp
      exact (List.inj_on_of_nodup_map r.nodup hpm hmem hk)
    rw [hp, hpl]
    rfl

theorem get_eq_none_iff {r : NumberedRegistry L} {k : Nat} :
    r.get k = none ↔ k ∉ r.entries.map Prod.fst := by
  constructor
  · intro h hk
    obtain ⟨p, hp, rfl⟩ := List.mem_map.1 hk
    rw [get_eq_some_iff.2 hp] at h
    cases h
  · intro hk
    cases hg : r.get k with
    | none => rfl
    | some l => exact absurd (List.mem_map.2 ⟨_, get_eq_some_iff.1 hg, rfl⟩) hk

theorem remove_eq_some {r r' : NumberedRegistry L} {k : Nat} (h : r.remove k = some r') :
    k ∈ r.entries.map Prod.fst ∧ r'.next = r.next ∧
      r'.entries = r.entries.filter (fun p => p.1 != k) := by
  unfold remove at h
  split at h
  · cases h
    exact ⟨‹_›, rfl, rfl⟩
  · cases h

theorem next_le_of_later {r r' : NumberedRegistry L} (h : Registry.Later r r') :
    r.next ≤ r'.next := by
  induction h with
  | refl => exact Nat.le_refl _
  | insert l _ ih => exact Nat.le_succ_of_le ih
  | remove _ hrem ih => exact (remove_eq_some hrem).2.1 ▸ ih

theorem listeners_perm_of_mem {k : Nat} {l : L} :
    ∀ (es : List (Nat × L)), (es.map Prod.fst).Nodup → (k, l) ∈ es →
      (es.map Prod.snd).Perm (l :: (es.filter (fun p => p.1 != k)).map Prod.snd)
  | [], _, hmem => absurd hmem List.not_mem_nil
  | p :: es, hnodup, hmem => by
    obtain ⟨hp, hes⟩ := List.nodup_cons.1 hnodup
    by_cases hpk : p.1 = k
    · -- the registration found is the first; no later one carries its key
      have hnot : ∀ q ∈ es, q.1 ≠ k := fun q hq hqk =>
        hp (hpk ▸ hqk ▸ List.mem_map.2 ⟨q, hq, rfl⟩)
      have hpl : p = (k, l) := by
        rcases List.mem_cons.1 hmem with h | h
        · exact h.symm
        · exact absurd rfl (hnot _ h)
      have hfilter : es.filter (fun q => q.1 != k) = es :=
        List.filter_eq_self.2 fun q hq => by simpa using hnot q hq
      subst hpl
      simp [hfilter]
    · have hmem' : (k, l) ∈ es := by
        rcases List.mem_cons.1 hmem with h | h
        · exact absurd (congrArg Prod.fst h).symm hpk
        · exact h
      have ih := listeners_perm_of_mem es hes hmem'
      simp only [List.map_cons, List.filter_cons, bne_iff_ne, ne_eq, hpk, not_false_eq_true,
        if_true]
      exact (ih.cons p.2).trans (.swap _ _ _)

instance : LawfulRegistry (NumberedRegistry L) Nat L where
  get_empty k := rfl
  listeners_empty := rfl
  get_insert_fresh r l := get_eq_none_iff.2 fun hk => by
    obtain ⟨p, hp, hpk⟩ := List.mem_map.1 hk
    exact Nat.lt_irrefl _ (hpk ▸ r.lt_next p hp)
  get_insert_self r l := get_eq_some_iff.2 List.mem_cons_self
  get_insert_of_ne r l k hk := by
    show get (insert r l).2 k = get r k
    cases hg : r.get k with
    | none =>
      refine get_eq_none_iff.2 fun hmem => ?_
      rcases List.mem_cons.1 (by simpa [insert] using hmem : k ∈ r.next :: r.entries.map Prod.fst)
        with h | h
      · exact hk h
      · exact absurd h (get_eq_none_iff.1 hg)
    | some l' =>
      exact get_eq_some_iff.2 (List.mem_cons_of_mem _ (get_eq_some_iff.1 hg))
  listeners_insert r l := .refl _
  remove_eq_none_iff r k := by
    show r.remove k = none ↔ r.get k = none
    rw [get_eq_none_iff, remove]
    split <;> simp_all
  get_remove_self {r r'} {k} hrem := by
    obtain ⟨-, -, hentries⟩ := remove_eq_some hrem
    refine get_eq_none_iff.2 fun hk => ?_
    obtain ⟨p, hp, hpk⟩ := List.mem_map.1 hk
    rw [hentries] at hp
    simp [hpk] at hp
  get_remove_of_ne {r r'} {k k'} hrem hne := by
    obtain ⟨-, -, hentries⟩ := remove_eq_some hrem
    show r'.get k' = r.get k'
    cases hg : r.get k' with
    | none =>
      refine get_eq_none_iff.2 fun hk => ?_
      obtain ⟨p, hp, hpk⟩ := List.mem_map.1 hk
      rw [hentries] at hp
      exact get_eq_none_iff.1 hg (List.mem_map.2 ⟨p, List.mem_of_mem_filter hp, hpk⟩)
    | some l =>
      refine get_eq_some_iff.2 ?_
      rw [hentries]
      exact List.mem_filter.2 ⟨get_eq_some_iff.1 hg, by simpa using hne⟩
  listeners_remove {r r'} {k} {l} hrem hget := by
    obtain ⟨-, -, hentries⟩ := remove_eq_some hrem
    show (r.entries.map Prod.snd).Perm (l :: r'.entries.map Prod.snd)
    rw [hentries]
    exact listeners_perm_of_mem r.entries r.nodup (get_eq_some_iff.1 hget)
  insert_ne_of_removed {r r' r''} {k} l hrem hlater := by
    obtain ⟨hk, hnext, -⟩ := remove_eq_some hrem
    obtain ⟨p, hp, hpk⟩ := List.mem_map.1 hk
    -- a removed key is below the counter, which never goes back
    have hlt : k < r'.next := hnext ▸ hpk ▸ r.lt_next p hp
    have hle := next_le_of_later hlater
    show r''.next ≠ k
    omega

end NumberedRegistry

end PriorityQueues
