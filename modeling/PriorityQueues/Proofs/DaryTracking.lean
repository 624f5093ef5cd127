import Mathlib
import PriorityQueues.Proofs.DaryRepair
import PriorityQueues.Proofs.Registry

/-!
Following entries through the reported swaps (`Accounts`): after every operation the swaps say
where each entry went, and the listeners that hear them are those registered and not removed.
-/

namespace PriorityQueues

namespace DaryHeap

def track : Swaps → Equiv.Perm Nat
  | [] => Equiv.refl Nat
  | s :: sw => (Equiv.swap s.1 s.2).trans (track sw)

@[simp]
theorem track_nil (x : Nat) : track [] x = x := rfl

@[simp]
theorem track_cons (s : Nat × Nat) (sw : Swaps) (x : Nat) :
    track (s :: sw) x = track sw (Equiv.swap s.1 s.2 x) := rfl

def Accounts {α : Type} (before : Nat → Option α) (after : Array α) (sw : Swaps) : Prop :=
  ∀ x, after[track sw x]? = before x

section Sift

variable {V P : Type} {prec : P → P → Bool} {d : Nat}

theorem siftUp_track (a : Array (Entry V P)) (i : Nat) :
    Accounts (a[·]?) (siftUp prec d a i).1 (siftUp prec d a i).2 := by
  fun_induction siftUp prec d a i with
  | case1 a => exact fun x => rfl
  | case2 a i hi p hb r ih =>
    intro x
    obtain ⟨his, hps⟩ := lt_size_of_beforeAt hb
    show r.1[track ((i, p) :: r.2) x]? = a[x]?
    rw [track_cons, ih]
    simp only [getElem?_swapIfInBounds his hps, Equiv.swap_apply_self]
  | case3 a i hi p hb => exact fun x => rfl

theorem siftDownFor_track : ∀ (fuel : Nat) (a : Array (Entry V P)) (i : Nat),
    Accounts (a[·]?) (siftDownFor prec d fuel a i).1 (siftDownFor prec d fuel a i).2
  | 0, _, _ => fun _ => rfl
  | fuel + 1, a, i => by
    cases hs : downStep prec d a i with
    | none =>
      rw [siftDownFor_succ_of_none hs]
      exact fun _ => rfl
    | some r =>
      obtain ⟨b, j⟩ := r
      obtain ⟨rfl, hb⟩ := downStep_eq_some hs
      obtain ⟨hjs, his⟩ := lt_size_of_beforeAt hb
      rw [siftDownFor_succ_of_some hs]
      intro x
      rw [track_cons, siftDownFor_track fuel _ j]
      simp only [getElem?_swapIfInBounds his hjs, Equiv.swap_apply_self]

theorem repair_track (a : Array (Entry V P)) (i : Nat) :
    Accounts (a[·]?) (repair prec d a i).1 (repair prec d a i).2 := by
  unfold repair
  split
  · exact siftUp_track a i
  · exact siftDownFor_track _ a i

end Sift

theorem getElem?_swap_last_pop {α : Type} {a : Array α} {i : Nat} (hi : i < a.size) (x : Nat) :
    (a.swapIfInBounds i (a.size - 1)).pop[Equiv.swap i (a.size - 1) x]? =
      if x = i then none else a[x]? := by
  rw [Array.getElem?_pop, Array.size_swapIfInBounds, getElem?_swapIfInBounds hi (by omega),
    Equiv.swap_apply_self]
  by_cases hxi : x = i
  · subst hxi
    simp [Equiv.swap_apply_left]
  · by_cases hxl : x = a.size - 1
    · subst hxl
      rw [Equiv.swap_apply_right, if_pos (by omega), if_neg hxi]
    · rw [Equiv.swap_apply_of_ne_of_ne hxi hxl, if_neg hxi]
      split
      · rfl
      · exact (Array.getElem?_eq_none (by omega)).symm

section Heap

variable {V P R : Type} {prec : P → P → Bool} {h : DaryHeap V P prec R}

theorem push_accounts (e : Entry V P) :
    Accounts ((h.data.push e)[·]?) (h.push e).1.data (h.push e).2 :=
  siftUp_track (h.data.push e) _

theorem removeAt_accounts {i : Nat} {x : Entry V P} {h' : DaryHeap V P prec R} {sw : Swaps}
    (hr : h.removeAt i = .ok (x, h', sw)) :
    Accounts (fun y => if y = i then none else h.data[y]?) h'.data sw ∧
      h'.listeners = h.listeners := by
  obtain ⟨hi, -, ⟨-, rfl, rfl⟩ | ⟨hl, rfl, rfl⟩⟩ := removeAt_eq_ok hr
  · refine ⟨fun y => ?_, rfl⟩
    rw [track_cons, repair_track]
    exact getElem?_swap_last_pop hi y
  · refine ⟨fun y => ?_, rfl⟩
    -- nothing is swapped: the last position, which is `i`, is dropped
    have hpop := getElem?_swap_last_pop hi y
    rwa [show h.data.size - 1 = i by omega, swapIfInBounds_self, Equiv.swap_self,
      Equiv.refl_apply] at hpop

theorem pop_accounts {x : Entry V P} {h' : DaryHeap V P prec R} {sw : Swaps}
    (hpop : h.pop = .ok (x, h', sw)) :
    Accounts (fun y => if y = 0 then none else h.data[y]?) h'.data sw ∧
      h'.listeners = h.listeners :=
  removeAt_accounts (removeAt_of_pop hpop)

theorem update_accounts {i : Nat} {e : Entry V P} {h' : DaryHeap V P prec R} {sw : Swaps}
    (hu : h.update i e = .ok (h', sw)) :
    Accounts ((h.data.setIfInBounds i e)[·]?) h'.data sw ∧ h'.listeners = h.listeners := by
  by_cases hi : i < h.data.size
  · rw [update_of_lt hi] at hu
    cases hu
    exact ⟨repair_track _ _, rfl⟩
  · simp [update, size, hi] at hu

theorem pushPop_accounts (e : Entry V P) :
    (h.pushPop e).2.1.listeners = h.listeners ∧
      ((∃ top, h.data[0]? = some top ∧ prec top.priority e.priority = true) →
        Accounts ((h.data.setIfInBounds 0 e)[·]?) (h.pushPop e).2.1.data (h.pushPop e).2.2) ∧
      ((¬ ∃ top, h.data[0]? = some top ∧ prec top.priority e.priority = true) →
        (h.pushPop e).2 = (h, [])) := by
  unfold pushPop
  split
  · rename_i top htop
    split
    · rename_i hprec
      refine ⟨rfl, fun _ => ?_, fun hno => absurd ⟨top, htop, hprec⟩ hno⟩
      rw [← repair_zero]
      exact repair_track _ _
    · rename_i hprec
      refine ⟨rfl, fun hyes => ?_, fun _ => rfl⟩
      obtain ⟨top', htop', hprec'⟩ := hyes
      rw [htop, Option.some.injEq] at htop'
      subst htop'
      exact absurd hprec' hprec
  · rename_i hnone
    refine ⟨rfl, fun hyes => ?_, fun _ => rfl⟩
    -- an empty heap has no root to precede the new entry
    obtain ⟨top, htop, -⟩ := hyes
    rw [hnone] at htop
    cases htop

theorem popPush_accounts {e x : Entry V P} {h' : DaryHeap V P prec R} {sw : Swaps}
    (hpp : h.popPush e = .ok (x, h', sw)) :
    Accounts ((h.data.setIfInBounds 0 e)[·]?) h'.data sw ∧ h'.listeners = h.listeners := by
  unfold popPush at hpp
  split at hpp
  · cases hpp
    refine ⟨?_, rfl⟩
    rw [← repair_zero]
    exact repair_track _ _
  · cases hpp

end Heap

end DaryHeap

namespace DaryHeap

section Listening

variable {V P R K L : Type} [Registry R K L] {prec : P → P → Bool} {h : DaryHeap V P prec R}

@[simp]
theorem register_listeners (l : L) : (h.register l).2.listeners = (Registry.insert h.listeners l).2 :=
  rfl

theorem deregister_eq_ok {k : K} {h' : DaryHeap V P prec R} (hd : h.deregister k = .ok h') :
    Registry.remove h.listeners k = some h'.listeners := by
  unfold deregister at hd
  split at hd
  · cases hd
    simp_all
  · cases hd

end Listening

/-- The reported swaps account for every move of every entry, and the registered listeners hear
them. -/
theorem swaps_account_for_every_move {V P R K L : Type} [Registry R K L] [LawfulRegistry R K L]
    {prec : P → P → Bool} (h : DaryHeap V P prec R) :
    (∀ e, Accounts ((h.data.push e)[·]?) (h.push e).1.data (h.push e).2 ∧
        (h.push e).1.listeners = h.listeners) ∧
      (∀ x h' sw, h.pop = .ok (x, h', sw) →
        Accounts (fun y => if y = 0 then none else h.data[y]?) h'.data sw ∧
          h'.listeners = h.listeners) ∧
      (∀ i x h' sw, h.removeAt i = .ok (x, h', sw) →
        Accounts (fun y => if y = i then none else h.data[y]?) h'.data sw ∧
          h'.listeners = h.listeners) ∧
      (∀ i e h' sw, h.update i e = .ok (h', sw) →
        Accounts ((h.data.setIfInBounds i e)[·]?) h'.data sw ∧ h'.listeners = h.listeners) ∧
      (∀ e, (h.pushPop e).2.1.listeners = h.listeners ∧
        ((∃ top, h.data[0]? = some top ∧ prec top.priority e.priority = true) →
          Accounts ((h.data.setIfInBounds 0 e)[·]?) (h.pushPop e).2.1.data (h.pushPop e).2.2) ∧
        ((¬ ∃ top, h.data[0]? = some top ∧ prec top.priority e.priority = true) →
          (h.pushPop e).2 = (h, []))) ∧
      (∀ e x h' sw, h.popPush e = .ok (x, h', sw) →
        Accounts ((h.data.setIfInBounds 0 e)[·]?) h'.data sw ∧ h'.listeners = h.listeners) ∧
      h.clear.listeners = h.listeners ∧
      Registry.Tracks R h.copy.listeners [] ∧
      ∀ live, Registry.Tracks R h.listeners live →
        (∀ l, Registry.Tracks R (h.register l).2.listeners (((h.register l).1, l) :: live)) ∧
        (∀ k h', h.deregister k = .ok h' →
          ∃ l live', live.Perm ((k, l) :: live') ∧ Registry.Tracks R h'.listeners live') ∧
        (∀ k err, h.deregister k = .error err ↔
          (∀ l, (k, l) ∉ live) ∧ err = .listenerNotFound) := by
  refine ⟨fun e => ⟨push_accounts e, rfl⟩, fun _ _ _ hpop => pop_accounts hpop,
    fun _ _ _ _ hr => removeAt_accounts hr, fun _ _ _ _ hu => update_accounts hu,
    fun e => pushPop_accounts e, fun _ _ _ _ hpp => popPush_accounts hpp, rfl,
    Registry.tracks_empty, fun live ht => ⟨fun l => ht.insert l, fun k h' hd => ?_,
    fun k err => ?_⟩⟩
  · exact ht.remove (deregister_eq_ok hd)
  · -- a refusal is exactly a key that names no registration
    rw [← ht.get_eq_none, ← LawfulRegistry.remove_eq_none_iff]
    unfold deregister
    split
    · rename_i hsome
      simp [hsome]
    · rename_i hnone
      simp [hnone, eq_comm]

theorem swaps_account_for_every_move_with_numbered_keys :
    Registry.Tracks (NumberedRegistry Nat)
      ((DaryHeap.new 2 : DaryHeap String Int Ranking.ascending.precedes (NumberedRegistry Nat)).register
        7).2.listeners [(0, 7)] :=
  ((swaps_account_for_every_move
    (DaryHeap.new 2 : DaryHeap String Int Ranking.ascending.precedes
      (NumberedRegistry Nat))).2.2.2.2.2.2.2.2 [] Registry.tracks_empty).1 7

end DaryHeap

end PriorityQueues
