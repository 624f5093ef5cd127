import Mathlib
import PriorityQueues.Proofs.Heaps
import PriorityQueues.Proofs.SessionSlots
import PriorityQueues.Script.Trees

/-!
Copies and takes. Heaps that differ only in their pools (`Alike`) answer every operation alike,
so a clone or a taken heap may stand in for its source in a session.
-/

namespace PriorityQueues

def ExceptRel {ε α β : Type} (r : α → β → Prop) : Except ε α → Except ε β → Prop
  | .error e₁, .error e₂ => e₁ = e₂
  | .ok a, .ok b => r a b
  | _, _ => False

section ExceptRel

variable {ε α β γ : Type} {r : α → β → Prop}

theorem ExceptRel.cases {x : Except ε α} {y : Except ε β} (h : ExceptRel r x y) :
    (∃ e, x = .error e ∧ y = .error e) ∨ ∃ a b, x = .ok a ∧ y = .ok b ∧ r a b := by
  match x, y, h with
  | .error e, .error _, rfl => exact .inl ⟨e, rfl, rfl⟩
  | .ok a, .ok b, hab => exact .inr ⟨a, b, rfl, rfl, hab⟩

theorem exceptRel_error (e : ε) : ExceptRel r (.error e : Except ε α) (.error e : Except ε β) :=
  rfl

theorem ExceptRel.bind (x : Except ε γ) {k₁ : γ → Except ε α} {k₂ : γ → Except ε β}
    (hk : ∀ c, ExceptRel r (k₁ c) (k₂ c)) : ExceptRel r (x >>= k₁) (x >>= k₂) := by
  cases x with
  | error e => exact exceptRel_error e
  | ok c => exact hk c

end ExceptRel

namespace TreeHeap

variable {T : Type → Type} [Meldable T] {V P : Type} {prec : P → P → Bool}

def Alike (h₁ h₂ : TreeHeap T V P prec) : Prop := h₁.tree = h₂.tree

omit [Meldable T] in
theorem Alike.refl (h : TreeHeap T V P prec) : Alike h h := rfl

theorem alike_new (p₁ p₂ : ShellPool) : Alike (new p₁ : TreeHeap T V P prec) (new p₂) := rfl

variable {h₁ h₂ : TreeHeap T V P prec}

theorem Alike.push (hh : Alike h₁ h₂) (e : Entry V P) (s₁ s₂ : Nat) :
    Alike (h₁.push e s₁).1 (h₂.push e s₂).1 :=
  congrArg (Meldable.insert (Entry.before prec) e) hh

theorem Alike.pop (hh : Alike h₁ h₂) (s₁ s₂ : Nat) :
    ExceptRel (fun a b => a.1 = b.1 ∧ Alike a.2 b.2) (h₁.pop s₁).1 (h₂.pop s₂).1 := by
  have ht₂ := congrArg (Meldable.popTop (Entry.before prec)) hh
  cases ht : Meldable.popTop (Entry.before prec) h₁.tree with
  | none =>
    rw [ht] at ht₂
    rw [pop_of_popTop_none s₁ ht, pop_of_popTop_none s₂ ht₂.symm]
    exact exceptRel_error _
  | some r =>
    obtain ⟨e, t⟩ := r
    rw [ht] at ht₂
    rw [pop_of_popTop s₁ ht, pop_of_popTop s₂ ht₂.symm]
    exact ⟨rfl, rfl⟩

theorem Alike.peek (hh : Alike h₁ h₂) : h₁.peek = h₂.peek := by
  rw [TreeHeap.peek, TreeHeap.peek, hh]

theorem Alike.clear (s₁ s₂ : Nat) : Alike (h₁.clear s₁).1 (h₂.clear s₂).1 := rfl

theorem Alike.size (hh : Alike h₁ h₂) : h₁.size = h₂.size := by
  rw [TreeHeap.size, TreeHeap.size, hh]

theorem Alike.popMany (hh : Alike h₁ h₂) (n s₁ s₂ : Nat) :
    (popMany n h₁ s₁).1 = (popMany n h₂ s₂).1 ∧
      Alike (popMany n h₁ s₁).2.1 (popMany n h₂ s₂).2.1 := by
  induction n generalizing h₁ h₂ s₁ s₂ with
  | zero => exact ⟨rfl, hh⟩
  | succ n ih =>
    rcases hp₁ : h₁.pop s₁ with ⟨r₁, s₁'⟩
    rcases hp₂ : h₂.pop s₂ with ⟨r₂, s₂'⟩
    have hr := hh.pop s₁ s₂
    rw [hp₁, hp₂] at hr
    simp only [TreeHeap.popMany, hp₁, hp₂]
    -- both pops fail and stop, or both return the same entry and go on from alike heaps
    rcases hr.cases with ⟨err, rfl, rfl⟩ | ⟨⟨e, h₁'⟩, ⟨e', h₂'⟩, rfl, rfl, rfl, hh'⟩
    · exact ⟨rfl, hh⟩
    · obtain ⟨hl, hr⟩ := ih hh' s₁' s₂'
      exact ⟨by simp only [hl], hr⟩

theorem Alike.drain (hh : Alike h₁ h₂) (s₁ s₂ : Nat) : (h₁.drain s₁).1 = (h₂.drain s₂).1 := by
  rw [TreeHeap.drain, TreeHeap.drain, hh.size]
  exact (hh.popMany _ s₁ s₂).1

theorem alike_copy (h : TreeHeap T V P prec) (s : Nat) : Alike (h.copy s).1 h := rfl

theorem Alike.copy (hh : Alike h₁ h₂) (s₁ s₂ : Nat) : Alike (h₁.copy s₁).1 (h₂.copy s₂).1 := hh

theorem Alike.snapshot (hh : Alike h₁ h₂) (s₁ s₂ : Nat) :
    (h₁.snapshot s₁).1 = (h₂.snapshot s₂).1 :=
  (hh.copy s₁ s₂).drain _ _

theorem Alike.merge {o₁ o₂ : TreeHeap T V P prec} (hh : Alike h₁ h₂) (ho : Alike o₁ o₂) :
    Alike (h₁.merge o₁) (h₂.merge o₂) := by
  show Meldable.meld _ h₁.tree o₁.tree = Meldable.meld _ h₂.tree o₂.tree
  rw [hh, ho]

theorem Alike.take (hh : Alike h₁ h₂) : Alike h₁.take.1 h₂.take.1 ∧ Alike h₁.take.2 h₂.take.2 :=
  ⟨rfl, hh⟩

theorem alike_take_new (h : TreeHeap T V P prec) (p : ShellPool) : Alike h.take.1 (new p) := rfl

theorem Alike.verify (hh : Alike h₁ h₂) : h₁.verify = h₂.verify := by
  rw [TreeHeap.verify, TreeHeap.verify, hh]

end TreeHeap

namespace TrackedHeap

variable {T : Type → Type} [Meldable T] {V P : Type} {prec : P → P → Bool}

def Alike (h₁ h₂ : TrackedHeap T V P prec) : Prop := h₁.tree = h₂.tree ∧ h₁.ids = h₂.ids

omit [Meldable T] in
theorem Alike.refl (h : TrackedHeap T V P prec) : Alike h h := ⟨rfl, rfl⟩

def withPool (h : TrackedHeap T V P prec) (p : ShellPool) : TrackedHeap T V P prec :=
  { h with pool := p }

omit [Meldable T] in
theorem Alike.eq_withPool {h₁ h₂ : TrackedHeap T V P prec} (hh : Alike h₁ h₂) :
    h₂ = h₁.withPool h₂.pool := by
  obtain ⟨ht, hi⟩ := hh
  rw [withPool, ht, hi]

theorem alike_new (ids : IdSequence) (p₁ p₂ : ShellPool) :
    Alike (new ids p₁ : TrackedHeap T V P prec) (new ids p₂) := ⟨rfl, rfl⟩

section Pools

/-! Each operation on a heap with another pool, against the same operation on the heap itself. -/

variable (h : TrackedHeap T V P prec) (p : ShellPool)

theorem contains_withPool (k : UInt64) : (h.withPool p).contains k = h.contains k := rfl

theorem Alike.push_withPool (e : Entry V P) (s₁ s₂ : Nat) :
    ExceptRel (fun a b => a.1 = b.1 ∧ Alike a.2 b.2) (h.push e s₁).1
      ((h.withPool p).push e s₂).1 ∧
      Alike (h.push e s₁).2.1 ((h.withPool p).push e s₂).2.1 := by
  cases hk : h.contains h.ids.next with
  | true =>
    have hk' : (h.withPool p).contains h.ids.next = true := hk
    rw [push_of_contains e s₁ hk, push_of_contains e s₂ hk']
    exact ⟨rfl, rfl, rfl⟩
  | false =>
    have hk' : (h.withPool p).contains h.ids.next = false := hk
    rw [push_of_not_contains e s₁ hk, push_of_not_contains e s₂ hk']
    exact ⟨⟨rfl, rfl, rfl⟩, rfl, rfl⟩

theorem Alike.pop_withPool (s₁ s₂ : Nat) :
    ExceptRel (fun a b => a.1 = b.1 ∧ Alike a.2 b.2) (h.pop s₁).1
      ((h.withPool p).pop s₂).1 := by
  cases ht : Meldable.popTop (Tagged.before prec) h.tree with
  | none =>
    have ht' : Meldable.popTop (Tagged.before prec) (h.withPool p).tree = none := ht
    rw [pop_of_popTop_none s₁ ht, pop_of_popTop_none s₂ ht']
    exact exceptRel_error _
  | some r =>
    obtain ⟨a, t⟩ := r
    have ht' : Meldable.popTop (Tagged.before prec) (h.withPool p).tree = some (a, t) := ht
    rw [pop_of_popTop s₁ ht, pop_of_popTop s₂ ht']
    exact ⟨rfl, rfl, rfl⟩

theorem Alike.remove_withPool (k : UInt64) (s₁ s₂ : Nat) :
    ExceptRel (fun a b => a.1 = b.1 ∧ Alike a.2 b.2) (h.remove k s₁).1
      ((h.withPool p).remove k s₂).1 := by
  cases ht : Meldable.extract (Tagged.before prec) (Tagged.hasId k) h.tree with
  | none =>
    have ht' : Meldable.extract (Tagged.before prec) (Tagged.hasId k)
        (h.withPool p).tree = none := ht
    rw [remove_of_extract_none s₁ ht, remove_of_extract_none s₂ ht']
    exact exceptRel_error _
  | some r =>
    obtain ⟨a, t⟩ := r
    have ht' : Meldable.extract (Tagged.before prec) (Tagged.hasId k)
        (h.withPool p).tree = some (a, t) := ht
    rw [remove_of_extract s₁ ht, remove_of_extract s₂ ht']
    exact ⟨rfl, rfl, rfl⟩

theorem Alike.updateValue_withPool (k : UInt64) (v : V) :
    ExceptRel Alike (h.updateValue k v) ((h.withPool p).updateValue k v) := by
  cases hk : h.contains k with
  | true =>
    rw [updateValue_of_contains v hk, updateValue_of_contains v ((contains_withPool h p k).trans hk)]
    exact ⟨rfl, rfl⟩
  | false =>
    rw [updateValue_of_not_contains v hk,
      updateValue_of_not_contains v ((contains_withPool h p k).trans hk)]
    exact exceptRel_error _

theorem Alike.updatePriority_withPool (k : UInt64) (q : P) :
    ExceptRel Alike (h.updatePriority k q) ((h.withPool p).updatePriority k q) := by
  cases hk : h.contains k with
  | true =>
    rw [updatePriority_of_contains q hk,
      updatePriority_of_contains q ((contains_withPool h p k).trans hk)]
    exact ⟨rfl, rfl⟩
  | false =>
    rw [updatePriority_of_not_contains q hk,
      updatePriority_of_not_contains q ((contains_withPool h p k).trans hk)]
    exact exceptRel_error _

end Pools

variable {h₁ h₂ : TrackedHeap T V P prec}

theorem Alike.push (hh : Alike h₁ h₂) (e : Entry V P) (s₁ s₂ : Nat) :
    ExceptRel (fun a b => a.1 = b.1 ∧ Alike a.2 b.2) (h₁.push e s₁).1 (h₂.push e s₂).1 ∧
      Alike (h₁.push e s₁).2.1 (h₂.push e s₂).2.1 := by
  rw [hh.eq_withPool]
  exact Alike.push_withPool h₁ _ e s₁ s₂

theorem Alike.pop (hh : Alike h₁ h₂) (s₁ s₂ : Nat) :
    ExceptRel (fun a b => a.1 = b.1 ∧ Alike a.2 b.2) (h₁.pop s₁).1 (h₂.pop s₂).1 := by
  rw [hh.eq_withPool]
  exact Alike.pop_withPool h₁ _ s₁ s₂

theorem Alike.remove (hh : Alike h₁ h₂) (k : UInt64) (s₁ s₂ : Nat) :
    ExceptRel (fun a b => a.1 = b.1 ∧ Alike a.2 b.2) (h₁.remove k s₁).1 (h₂.remove k s₂).1 := by
  rw [hh.eq_withPool]
  exact Alike.remove_withPool h₁ _ k s₁ s₂

theorem Alike.updateValue (hh : Alike h₁ h₂) (k : UInt64) (v : V) :
    ExceptRel Alike (h₁.updateValue k v) (h₂.updateValue k v) := by
  rw [hh.eq_withPool]
  exact Alike.updateValue_withPool h₁ _ k v

theorem Alike.updatePriority (hh : Alike h₁ h₂) (k : UInt64) (q : P) :
    ExceptRel Alike (h₁.updatePriority k q) (h₂.updatePriority k q) := by
  rw [hh.eq_withPool]
  exact Alike.updatePriority_withPool h₁ _ k q

theorem Alike.update (hh : Alike h₁ h₂) (k : UInt64) (v : V) (q : P) :
    ExceptRel Alike (h₁.update k v q) (h₂.update k v q) := by
  rw [update_eq, update_eq]
  rcases (hh.updateValue k v).cases with ⟨e, he₁, he₂⟩ | ⟨a, b, ha, hb, hab⟩
  · rw [he₁, he₂]
    exact exceptRel_error e
  · rw [ha, hb]
    exact hab.updatePriority k q

theorem Alike.peek (hh : Alike h₁ h₂) : h₁.peek = h₂.peek := by
  rw [TrackedHeap.peek, TrackedHeap.peek, hh.1]

theorem Alike.get (hh : Alike h₁ h₂) (k : UInt64) : h₁.get k = h₂.get k := by
  rw [TrackedHeap.get, TrackedHeap.get, hh.1]

theorem Alike.contains (hh : Alike h₁ h₂) (k : UInt64) : h₁.contains k = h₂.contains k := by
  rw [TrackedHeap.contains, TrackedHeap.contains, hh.1]

theorem Alike.liveIds (hh : Alike h₁ h₂) : h₁.liveIds = h₂.liveIds := by
  rw [TrackedHeap.liveIds, TrackedHeap.liveIds, hh.1]

theorem Alike.size (hh : Alike h₁ h₂) : h₁.size = h₂.size := by
  rw [TrackedHeap.size, TrackedHeap.size, hh.1]

omit [Meldable T] in
theorem Alike.resetIds (hh : Alike h₁ h₂) : Alike h₁.resetIds h₂.resetIds := ⟨hh.1, rfl⟩

theorem Alike.clear (hh : Alike h₁ h₂) (s₁ s₂ : Nat) : Alike (h₁.clear s₁).1 (h₂.clear s₂).1 :=
  ⟨rfl, hh.2⟩

theorem Alike.popMany (hh : Alike h₁ h₂) (n s₁ s₂ : Nat) :
    (popMany n h₁ s₁).1 = (popMany n h₂ s₂).1 ∧
      Alike (popMany n h₁ s₁).2.1 (popMany n h₂ s₂).2.1 := by
  induction n generalizing h₁ h₂ s₁ s₂ with
  | zero => exact ⟨rfl, hh⟩
  | succ n ih =>
    rcases hp₁ : h₁.pop s₁ with ⟨r₁, s₁'⟩
    rcases hp₂ : h₂.pop s₂ with ⟨r₂, s₂'⟩
    have hr := hh.pop s₁ s₂
    rw [hp₁, hp₂] at hr
    simp only [TrackedHeap.popMany, hp₁, hp₂]
    -- both pops fail and stop, or both return the same entry and go on from alike heaps
    rcases hr.cases with ⟨err, rfl, rfl⟩ | ⟨⟨e, h₁'⟩, ⟨e', h₂'⟩, rfl, rfl, rfl, hh'⟩
    · exact ⟨rfl, hh⟩
    · obtain ⟨hl, hr⟩ := ih hh' s₁' s₂'
      exact ⟨by simp only [hl], hr⟩

theorem Alike.drain (hh : Alike h₁ h₂) (s₁ s₂ : Nat) : (h₁.drain s₁).1 = (h₂.drain s₂).1 := by
  rw [TrackedHeap.drain, TrackedHeap.drain, hh.size]
  exact (hh.popMany _ s₁ s₂).1

theorem alike_copy (h : TrackedHeap T V P prec) (s : Nat) : Alike (h.copy s).1 h := ⟨rfl, rfl⟩

theorem Alike.copy (hh : Alike h₁ h₂) (s₁ s₂ : Nat) : Alike (h₁.copy s₁).1 (h₂.copy s₂).1 := hh

theorem Alike.snapshot (hh : Alike h₁ h₂) (s₁ s₂ : Nat) :
    (h₁.snapshot s₁).1 = (h₂.snapshot s₂).1 :=
  (hh.copy s₁ s₂).drain _ _

theorem Alike.checkMerge {o₁ o₂ : TrackedHeap T V P prec} (hh : Alike h₁ h₂) (ho : Alike o₁ o₂) :
    h₁.checkMerge o₁ = h₂.checkMerge o₂ := by
  have hc : h₁.contains = h₂.contains := funext hh.contains
  rw [TrackedHeap.checkMerge, TrackedHeap.checkMerge, ho.liveIds, hc]

theorem Alike.merge {o₁ o₂ : TrackedHeap T V P prec} (hh : Alike h₁ h₂) (ho : Alike o₁ o₂) :
    ExceptRel Alike (h₁.merge o₁) (h₂.merge o₂) := by
  have hc := hh.checkMerge ho
  show ExceptRel Alike ((h₁.checkMerge o₁).bind _) ((h₂.checkMerge o₂).bind _)
  rw [hc]
  cases h₂.checkMerge o₂ with
  | error e => exact exceptRel_error e
  | ok u =>
    show Alike ⟨_, _, _⟩ ⟨_, _, _⟩
    exact ⟨by rw [hh.1, ho.1], by rw [hh.2, ho.liveIds]⟩

theorem Alike.take (hh : Alike h₁ h₂) : Alike h₁.take.1 h₂.take.1 ∧ Alike h₁.take.2 h₂.take.2 :=
  ⟨⟨rfl, hh.2⟩, hh⟩

theorem alike_take_new (h : TrackedHeap T V P prec) (p : ShellPool) :
    Alike h.take.1 (new h.ids p) := ⟨rfl, rfl⟩

theorem Alike.verify (hh : Alike h₁ h₂) : h₁.verify = h₂.verify := by
  rw [TrackedHeap.verify, TrackedHeap.verify, hh.1]

end TrackedHeap

namespace Script

/-! ## Sessions whose heaps differ only in their pools -/

section Relations

variable {H : Type} {R : H → H → Prop}

variable (R) in
def RanRel : Check (Ran H) → Check (Ran H) → Prop :=
  ExceptRel fun r₁ r₂ => r₁.1 = r₂.1 ∧ SlotsRel R r₁.2.1 r₂.2.1 ∧ r₁.2.2 = r₂.2.2

variable (R) in
def Respects (run : Handler H) : Prop :=
  ∀ op s₁ s₂, SlotsRel R s₁ s₂ → RanRel R (run op s₁) (run op s₂)

theorem ranRel_refused (w : String) : RanRel R (.error w) (.error w) := exceptRel_error w

theorem ranRel_pure {o₁ o₂ : Outcome} {t₁ t₂ : Session H} {sw₁ sw₂ : List (Nat × Swaps)}
    (ho : o₁ = o₂) (ht : SlotsRel R t₁ t₂) (hsw : sw₁ = sw₂) :
    RanRel R (pure (o₁, t₁, sw₁)) (pure (o₂, t₂, sw₂)) :=
  ⟨ho, ht, hsw⟩

theorem ranRel_bind {α : Type} (x : Check α) {k₁ k₂ : α → Check (Ran H)}
    (hk : ∀ a, RanRel R (k₁ a) (k₂ a)) : RanRel R (x >>= k₁) (x >>= k₂) :=
  ExceptRel.bind x hk

theorem SlotsRel.target_bind {s₁ s₂ : Session H} (hs : SlotsRel R s₁ s₂) (op : Json)
    {k₁ k₂ : Nat × H → Check (Ran H)} (hk : ∀ n h₁ h₂, R h₁ h₂ → RanRel R (k₁ (n, h₁)) (k₂ (n, h₂))) :
    RanRel R (s₁.target op >>= k₁) (s₂.target op >>= k₂) :=
  hs.slot_bind op "h" (some 0) ranRel_refused hk

theorem firstHandler_respects {tables : List (String → Option (Handler H))} {name : String}
    (ht : ∀ t ∈ tables, ∀ run, t name = some run → Respects R run) {run : Handler H}
    (hrun : firstHandler tables name = some run) : Respects R run := by
  obtain ⟨t, htm, hrun'⟩ := List.exists_of_findSome?_eq_some hrun
  exact ht t htm run hrun'

theorem SlotsRel.step {table : String → Option (Handler H)} {size : H → Nat}
    (hsize : ∀ h₁ h₂, R h₁ h₂ → size h₁ = size h₂) {s₁ s₂ : Session H} (hs : SlotsRel R s₁ s₂)
    {op : Json} (ht : ∀ run, table (opName op) = some run → Respects R run) :
    (s₁.step table size op).1 = (s₂.step table size op).1 ∧
      SlotsRel R (s₁.step table size op).2 (s₂.step table size op).2 := by
  cases hn : table (opName op) with
  | none =>
    simp only [Session.step, hn]
    exact ⟨by rw [hs.lens hsize], hs⟩
  | some run =>
    rcases (ht run hn op s₁ s₂ hs).cases with
      ⟨w, hr₁, hr₂⟩ | ⟨⟨o₁, t₁, sw₁⟩, ⟨o₂, t₂, sw₂⟩, hr₁, hr₂, ho, ht', hsw⟩
    · simp only [Session.step, hn, hr₁, hr₂]
      exact ⟨by rw [hs.lens hsize], hs⟩
    · obtain rfl : o₁ = o₂ := ho
      obtain rfl : sw₁ = sw₂ := hsw
      have ht'' : SlotsRel R t₁ t₂ := ht'
      simp only [Session.step, hn, hr₁, hr₂]
      exact ⟨by rw [ht''.lens hsize], ht''⟩

theorem SlotsRel.run {table : String → Option (Handler H)} {size : H → Nat}
    (hsize : ∀ h₁ h₂, R h₁ h₂ → size h₁ = size h₂) {ops : List Json}
    (ht : ∀ op ∈ ops, ∀ run, table (opName op) = some run → Respects R run) {s₁ s₂ : Session H}
    (hs : SlotsRel R s₁ s₂) : Session.run table size s₁ ops = Session.run table size s₂ ops := by
  -- along the script, carrying the relation between the sessions
  induction ops generalizing s₁ s₂ with
  | nil => rfl
  | cons op ops ih =>
    obtain ⟨hstep, hs'⟩ := hs.step hsize (ht op List.mem_cons_self)
    simp only [Session.run, hstep, ih (fun op' h' => ht op' (List.mem_cons_of_mem op h')) hs']

end Relations

/-- Heaps of sessions that answer alike when they are `alike`: every operation but the pool's idle
count gives the same answer on alike heaps, whatever the shared pool's count, and leaves alike
heaps. -/
structure PoolBlind (H : Type) [Queue H Int] [MeldQueue H] [PooledQueue H] where
  alike : H → H → Prop
  size : ∀ {h₁ h₂ : H}, alike h₁ h₂ → Queue.size h₁ = Queue.size h₂
  readPriority : ∀ {h₁ h₂ : H}, alike h₁ h₂ → Queue.readPriority h₁ = Queue.readPriority h₂
  hearers : ∀ {h₁ h₂ : H}, alike h₁ h₂ → Queue.hearers h₁ = Queue.hearers h₂
  push : ∀ {h₁ h₂ : H}, alike h₁ h₂ → ∀ e s₁ s₂,
    (Queue.push h₁ e s₁).result = (Queue.push h₂ e s₂).result ∧
      (Queue.push h₁ e s₁).swaps = (Queue.push h₂ e s₂).swaps ∧
      alike (Queue.push h₁ e s₁).heap (Queue.push h₂ e s₂).heap
  pop : ∀ {h₁ h₂ : H}, alike h₁ h₂ → ∀ s₁ s₂,
    (Queue.pop h₁ s₁).result = (Queue.pop h₂ s₂).result ∧
      (Queue.pop h₁ s₁).swaps = (Queue.pop h₂ s₂).swaps ∧
      alike (Queue.pop h₁ s₁).heap (Queue.pop h₂ s₂).heap
  peek : ∀ {h₁ h₂ : H}, alike h₁ h₂ → Queue.peek h₁ = Queue.peek h₂
  clear : ∀ {h₁ h₂ : H}, alike h₁ h₂ → ∀ s₁ s₂, alike (Queue.clear h₁ s₁).1 (Queue.clear h₂ s₂).1
  drain : ∀ {h₁ h₂ : H}, alike h₁ h₂ → ∀ s₁ s₂,
    (Queue.drain h₁ s₁).1 = (Queue.drain h₂ s₂).1 ∧
      (Queue.drain h₁ s₁).2.2 = (Queue.drain h₂ s₂).2.2
  snapshot : ∀ {h₁ h₂ : H}, alike h₁ h₂ → ∀ s₁ s₂,
    (Queue.snapshot h₁ s₁).1 = (Queue.snapshot h₂ s₂).1
  copy : ∀ {h₁ h₂ : H}, alike h₁ h₂ → ∀ s₁ s₂, alike (Queue.copy h₁ s₁).1 (Queue.copy h₂ s₂).1
  merge : ∀ {h₁ h₂ o₁ o₂ : H}, alike h₁ h₂ → alike o₁ o₂ →
    ExceptRel alike (MeldQueue.merge h₁ o₁) (MeldQueue.merge h₂ o₂)
  checkMerge : ∀ {h₁ h₂ o₁ o₂ : H}, alike h₁ h₂ → alike o₁ o₂ →
    MeldQueue.checkMerge h₁ o₁ = MeldQueue.checkMerge h₂ o₂
  take : ∀ {h₁ h₂ : H}, alike h₁ h₂ →
    alike (MeldQueue.take h₁).1 (MeldQueue.take h₂).1 ∧
      alike (MeldQueue.take h₁).2 (MeldQueue.take h₂).2
  verify : ∀ {h₁ h₂ : H}, alike h₁ h₂ → PooledQueue.verify h₁ = PooledQueue.verify h₂

section Handlers

variable {H : Type} [Queue H Int] [MeldQueue H] [PooledQueue H] (B : PoolBlind H)

theorem PoolBlind.heard {h₁ h₂ : H} (hh : B.alike h₁ h₂) (sw : Swaps) : heard h₁ sw = heard h₂ sw := by
  simp only [Script.heard, B.hearers hh]

theorem PoolBlind.popWith (f : Entry String Int → Reply) : Respects B.alike (popWith f) := by
  intro op s₁ s₂ hs
  apply hs.target_bind
  intro n h₁ h₂ hh
  obtain ⟨hr, hsw, hheap⟩ := B.pop hh s₁.shared s₂.shared
  exact ranRel_pure (by rw [hr]) (hs.put n (.some hheap)) (by rw [hsw, B.heard hh])

theorem PoolBlind.peekWith (f : Entry String Int → Reply) : Respects B.alike (peekWith f) := by
  intro op s₁ s₂ hs
  apply hs.target_bind
  intro n h₁ h₂ hh
  exact ranRel_pure (by rw [B.peek hh]) hs rfl

theorem PoolBlind.commonHandler {fresh : H} (hf : B.alike fresh fresh) {name : String}
    {run : Handler H} (hrun : commonHandler fresh name = some run) : Respects B.alike run := by
  unfold Script.commonHandler at hrun
  split at hrun <;> cases hrun
  · intro op s₁ s₂ hs
    refine hs.target_bind op fun n h₁ h₂ hh => ranRel_bind _ fun v => ?_
    -- the priority field is read alike, and the pushes answer alike
    rw [B.readPriority hh]
    refine ranRel_bind _ fun p => ?_
    obtain ⟨hr, hsw, hheap⟩ := B.push hh ⟨v, p⟩ s₁.shared s₂.shared
    exact ranRel_pure (by rw [hr]) (hs.put n (.some hheap)) (by rw [hsw, B.heard hh])
  · exact B.popWith _
  · exact B.popWith _
  · exact B.popWith _
  · exact B.peekWith _
  · exact B.peekWith _
  · exact B.peekWith _
  · exact fun op s₁ s₂ hs => hs.target_bind op fun _ _ _ hh =>
      ranRel_pure (by rw [B.size hh]) hs rfl
  · exact fun op s₁ s₂ hs => hs.target_bind op fun _ _ _ hh =>
      ranRel_pure (by rw [B.size hh]) hs rfl
  · exact fun op s₁ s₂ hs => hs.target_bind op fun n _ _ hh =>
      ranRel_pure rfl (hs.put n (.some (B.clear hh s₁.shared s₂.shared))) rfl
  · intro op s₁ s₂ hs
    refine hs.target_bind op fun n h₁ h₂ hh => ?_
    obtain ⟨hes, hsw⟩ := B.drain hh s₁.shared s₂.shared
    exact ranRel_pure (by rw [hes]) (hs.put n .none) (by rw [hsw, B.heard hh])
  · exact fun op s₁ s₂ hs => hs.target_bind op fun _ _ _ hh =>
      ranRel_pure (by rw [B.snapshot hh s₁.shared s₂.shared]) hs rfl
  · intro op s₁ s₂ hs
    refine hs.target_bind op fun n h₁ h₂ hh => ?_
    -- the copies go into a new slot at the end of both sessions
    have hs₀ : SlotsRel B.alike { s₁ with shared := (Queue.copy h₁ s₁.shared).2 }
        { s₂ with shared := (Queue.copy h₂ s₂.shared).2 } := hs
    exact ranRel_pure (by simp only [hs.size_eq]) (hs₀.add (B.copy hh s₁.shared s₂.shared)).2 rfl
  · intro op s₁ s₂ hs
    exact ranRel_pure (by simp only [hs.size_eq]) (hs.add hf).2 rfl

theorem PoolBlind.meldHandler {name : String} {run : Handler H}
    (hrun : meldHandler name = some run) : Respects B.alike run := by
  unfold Script.meldHandler at hrun
  split at hrun <;> cases hrun
  · intro op s₁ s₂ hs
    refine hs.target_bind op fun n h₁ h₂ hh =>
      hs.slot_bind op "other" none ranRel_refused fun m o₁ o₂ ho => ?_
    dsimp only
    by_cases hnm : n = m
    · simp only [hnm, if_true]
      exact ranRel_refused _
    · simp only [hnm, if_false]
      -- the absorbed slot is emptied on both sides, then the melds answer alike
      rcases (B.merge hh ho).cases with ⟨e, he₁, he₂⟩ | ⟨a, b, ha, hb, hab⟩
      · rw [he₁, he₂]
        exact ranRel_pure rfl (hs.put m .none) rfl
      · rw [ha, hb]
        exact ranRel_pure rfl ((hs.put m .none).put n (.some hab)) rfl
  · intro op s₁ s₂ hs
    refine hs.target_bind op fun n h₁ h₂ hh =>
      hs.slot_bind op "other" none ranRel_refused fun m o₁ o₂ ho => ?_
    exact ranRel_pure (by rw [B.checkMerge hh ho]) hs rfl
  · intro op s₁ s₂ hs
    refine hs.target_bind op fun n h₁ h₂ hh => ?_
    obtain ⟨hl, ht⟩ := B.take hh
    have hs' := hs.put n (.some hl)
    exact ranRel_pure (congrArg (fun k => Outcome.ok (.count k)) hs'.size_eq) (hs'.add ht).2 rfl
  · intro op s₁ s₂ hs
    refine hs.target_bind op fun n h₁ h₂ hh =>
      hs.slot_bind op "other" none ranRel_refused fun m o₁ o₂ ho => ?_
    dsimp only
    by_cases hnm : n = m
    · simp only [hnm, if_true]
      exact ranRel_pure rfl hs rfl
    · simp only [hnm, if_false]
      rw [B.checkMerge hh ho]
      cases MeldQueue.checkMerge h₂ o₂ with
      | error e => exact ranRel_pure rfl hs rfl
      | ok u =>
        -- the other slot keeps what the take leaves behind; the taken heaps meld alike
        obtain ⟨hl, ht⟩ := B.take ho
        have hs' := hs.put m (.some hl)
        rcases (B.merge hh ht).cases with ⟨e, he₁, he₂⟩ | ⟨a, b, ha, hb, hab⟩
        · simp only [he₁, he₂]
          exact ranRel_pure rfl hs' rfl
        · simp only [ha, hb]
          exact ranRel_pure rfl (hs'.put n (.some hab)) rfl

theorem PoolBlind.pooledHandler {name : String} (hname : name ≠ "pool_idle") {run : Handler H}
    (hrun : pooledHandler name = some run) : Respects B.alike run := by
  unfold Script.pooledHandler at hrun
  split at hrun <;> cases hrun
  · exact fun op s₁ s₂ hs => hs.target_bind op fun _ _ _ hh =>
      ranRel_pure (by rw [B.verify hh]) hs rfl
  · exact absurd rfl hname

theorem PoolBlind.run_alike {fresh : H} (hf : B.alike fresh fresh)
    {extra : List (String → Option (Handler H))}
    (hextra : ∀ t ∈ extra, ∀ name run, t name = some run → Respects B.alike run) {ops : List Json}
    (hops : ∀ op ∈ ops, opName op ≠ "pool_idle") {s₁ s₂ : Session H}
    (hs : SlotsRel B.alike s₁ s₂) :
    Session.run (firstHandler
        (Script.commonHandler fresh :: Script.meldHandler :: Script.pooledHandler :: extra))
        Queue.size s₁ ops =
      Session.run (firstHandler
        (Script.commonHandler fresh :: Script.meldHandler :: Script.pooledHandler :: extra))
        Queue.size s₂ ops := by
  refine hs.run (fun _ _ hh => B.size hh) fun op hop run hrun => firstHandler_respects ?_ hrun
  intro t ht run hrun
  rcases List.mem_cons.1 ht with rfl | ht
  · exact B.commonHandler hf hrun
  rcases List.mem_cons.1 ht with rfl | ht
  · exact B.meldHandler hrun
  rcases List.mem_cons.1 ht with rfl | ht
  · exact B.pooledHandler (hops op hop) hrun
  · exact hextra t ht _ run hrun

end Handlers

section Engines

variable {T : Type → Type} [Meldable T] {prec : Int → Int → Bool}

theorem tree_queue_pop_alike {h₁ h₂ : TreeHeap T String Int prec} (hh : h₁.Alike h₂)
    (s₁ s₂ : Nat) :
    (Queue.pop h₁ s₁).result = (Queue.pop h₂ s₂).result ∧
      (Queue.pop h₁ s₁).swaps = (Queue.pop h₂ s₂).swaps ∧
      (Queue.pop h₁ s₁).heap.Alike (Queue.pop h₂ s₂).heap := by
  have hr := hh.pop s₁ s₂
  rcases hp₁ : h₁.pop s₁ with ⟨r₁, s₁'⟩
  rcases hp₂ : h₂.pop s₂ with ⟨r₂, s₂'⟩
  rw [hp₁, hp₂] at hr
  simp only [Queue.pop, hp₁, hp₂]
  rcases hr.cases with ⟨err, rfl, rfl⟩ | ⟨⟨e, h₁'⟩, ⟨e', h₂'⟩, rfl, rfl, rfl, hh'⟩
  · exact ⟨rfl, rfl, hh⟩
  · exact ⟨rfl, rfl, hh'⟩

def treePoolBlind : PoolBlind (TreeHeap T String Int prec) where
  alike := TreeHeap.Alike
  size hh := hh.size
  readPriority _ := rfl
  hearers _ := rfl
  push hh e s₁ s₂ := ⟨rfl, rfl, hh.push e s₁ s₂⟩
  pop hh s₁ s₂ := tree_queue_pop_alike hh s₁ s₂
  peek hh := hh.peek
  clear _ s₁ s₂ := TreeHeap.Alike.clear s₁ s₂
  drain hh s₁ s₂ := ⟨hh.drain s₁ s₂, rfl⟩
  snapshot hh s₁ s₂ := hh.snapshot s₁ s₂
  copy hh s₁ s₂ := hh.copy s₁ s₂
  merge hh ho := hh.merge ho
  checkMerge _ _ := rfl
  take hh := hh.take
  verify hh := hh.verify

theorem tracked_queue_push_alike {h₁ h₂ : TrackedHeap T String Int prec} (hh : h₁.Alike h₂)
    (e : Entry String Int) (s₁ s₂ : Nat) :
    (Queue.push h₁ e s₁).result = (Queue.push h₂ e s₂).result ∧
      (Queue.push h₁ e s₁).swaps = (Queue.push h₂ e s₂).swaps ∧
      (Queue.push h₁ e s₁).heap.Alike (Queue.push h₂ e s₂).heap := by
  obtain ⟨hr, hheap⟩ := hh.push e s₁ s₂
  rcases hp₁ : h₁.push e s₁ with ⟨r₁, h₁', s₁'⟩
  rcases hp₂ : h₂.push e s₂ with ⟨r₂, h₂', s₂'⟩
  rw [hp₁, hp₂] at hr hheap
  simp only [Queue.push, hp₁, hp₂]
  -- a push is refused alike, or issues the same id; either way the heaps stay alike
  rcases hr.cases with ⟨err, rfl, rfl⟩ | ⟨⟨k, a₁⟩, ⟨k', a₂⟩, rfl, rfl, rfl, -⟩
  · exact ⟨rfl, rfl, hheap⟩
  · exact ⟨rfl, rfl, hheap⟩

theorem tracked_queue_pop_alike {h₁ h₂ : TrackedHeap T String Int prec} (hh : h₁.Alike h₂)
    (s₁ s₂ : Nat) :
    (Queue.pop h₁ s₁).result = (Queue.pop h₂ s₂).result ∧
      (Queue.pop h₁ s₁).swaps = (Queue.pop h₂ s₂).swaps ∧
      (Queue.pop h₁ s₁).heap.Alike (Queue.pop h₂ s₂).heap := by
  have hr := hh.pop s₁ s₂
  rcases hp₁ : h₁.pop s₁ with ⟨r₁, s₁'⟩
  rcases hp₂ : h₂.pop s₂ with ⟨r₂, s₂'⟩
  rw [hp₁, hp₂] at hr
  simp only [Queue.pop, hp₁, hp₂]
  rcases hr.cases with ⟨err, rfl, rfl⟩ | ⟨⟨e, h₁'⟩, ⟨e', h₂'⟩, rfl, rfl, rfl, hh'⟩
  · exact ⟨rfl, rfl, hh⟩
  · exact ⟨rfl, rfl, hh'⟩

def trackedPoolBlind : PoolBlind (TrackedHeap T String Int prec) where
  alike := TrackedHeap.Alike
  size hh := hh.size
  readPriority _ := rfl
  hearers _ := rfl
  push hh e s₁ s₂ := tracked_queue_push_alike hh e s₁ s₂
  pop hh s₁ s₂ := tracked_queue_pop_alike hh s₁ s₂
  peek hh := hh.peek
  clear hh s₁ s₂ := hh.clear s₁ s₂
  drain hh s₁ s₂ := ⟨hh.drain s₁ s₂, rfl⟩
  snapshot hh s₁ s₂ := hh.snapshot s₁ s₂
  copy hh s₁ s₂ := hh.copy s₁ s₂
  merge hh ho := hh.merge ho
  checkMerge hh ho := hh.checkMerge ho
  take hh := hh.take
  verify hh := hh.verify

omit [Meldable T] in
theorem settleTracked_respects {s₁ s₂ : Session (TrackedHeap T String Int prec)}
    (hs : SlotsRel TrackedHeap.Alike s₁ s₂) (n : Nat)
    {r₁ r₂ : Except HeapError (TrackedHeap T String Int prec)} (hr : ExceptRel TrackedHeap.Alike r₁ r₂) :
    RanRel TrackedHeap.Alike (pure (settleTracked s₁ n r₁)) (pure (settleTracked s₂ n r₂)) := by
  rcases hr.cases with ⟨e, rfl, rfl⟩ | ⟨a, b, rfl, rfl, hab⟩
  · exact ranRel_pure rfl hs rfl
  · exact ranRel_pure rfl (hs.put n (.some hab)) rfl

theorem trackedHandler_respects {name : String} {run : Handler (TrackedHeap T String Int prec)}
    (hrun : trackedHandler name = some run) : Respects TrackedHeap.Alike run := by
  unfold trackedHandler at hrun
  split at hrun <;> cases hrun
  · exact fun op s₁ s₂ hs => hs.target_bind op fun _ _ _ hh => ranRel_bind _ fun k =>
      ranRel_pure (by rw [hh.get]) hs rfl
  · exact fun op s₁ s₂ hs => ranRel_bind _ fun k => hs.target_bind op fun _ _ _ hh =>
      ranRel_pure (by rw [hh.get]) hs rfl
  · exact fun op s₁ s₂ hs => ranRel_bind _ fun k => hs.target_bind op fun _ _ _ hh =>
      ranRel_pure (by rw [hh.get]) hs rfl
  · exact fun op s₁ s₂ hs => hs.target_bind op fun _ _ _ hh => ranRel_bind _ fun k =>
      ranRel_pure (by rw [hh.contains]) hs rfl
  · exact fun op s₁ s₂ hs => hs.target_bind op fun n _ _ hh => ranRel_bind _ fun k =>
      ranRel_bind _ fun v => settleTracked_respects hs n (hh.updateValue _ v)
  · exact fun op s₁ s₂ hs => hs.target_bind op fun n _ _ hh => ranRel_bind _ fun k =>
      ranRel_bind _ fun p => settleTracked_respects hs n (hh.updatePriority _ p)
  · exact fun op s₁ s₂ hs => hs.target_bind op fun n _ _ hh => ranRel_bind _ fun k =>
      ranRel_bind _ fun v => ranRel_bind _ fun p => settleTracked_respects hs n (hh.update _ v p)
  · intro op s₁ s₂ hs
    refine hs.target_bind op fun n h₁ h₂ hh => ranRel_bind _ fun k => ?_
    have hr := hh.remove k.toUInt64 s₁.shared s₂.shared
    rcases hp₁ : h₁.remove k.toUInt64 s₁.shared with ⟨r₁, c₁⟩
    rcases hp₂ : h₂.remove k.toUInt64 s₂.shared with ⟨r₂, c₂⟩
    rw [hp₁, hp₂] at hr
    -- a removal fails alike, or returns the same entry and leaves alike heaps
    rcases hr.cases with ⟨err, rfl, rfl⟩ | ⟨⟨e, a⟩, ⟨e', b⟩, rfl, rfl, rfl, hab⟩
    · exact ranRel_pure rfl hs rfl
    · exact ranRel_pure rfl (hs.put n (.some hab)) rfl
  · exact fun op s₁ s₂ hs => hs.target_bind op fun _ _ _ hh =>
      ranRel_pure (by rw [hh.liveIds]) hs rfl
  · exact fun op s₁ s₂ hs => hs.target_bind op fun n _ _ hh =>
      ranRel_pure rfl (hs.put n (.some hh.resetIds)) rfl

theorem tree_sessions_run_alike {fresh : TreeHeap T String Int prec} {ops : List Json}
    (hops : ∀ op ∈ ops, opName op ≠ "pool_idle") {s₁ s₂ : Session (TreeHeap T String Int prec)}
    (hs : SlotsRel TreeHeap.Alike s₁ s₂) :
    Session.run (firstHandler [commonHandler fresh, meldHandler, pooledHandler]) TreeHeap.size s₁
        ops =
      Session.run (firstHandler [commonHandler fresh, meldHandler, pooledHandler]) TreeHeap.size
        s₂ ops :=
  treePoolBlind.run_alike rfl (fun _ ht => absurd ht List.not_mem_nil) hops hs

theorem tracked_sessions_run_alike {fresh : TrackedHeap T String Int prec} {ops : List Json}
    (hops : ∀ op ∈ ops, opName op ≠ "pool_idle")
    {s₁ s₂ : Session (TrackedHeap T String Int prec)} (hs : SlotsRel TrackedHeap.Alike s₁ s₂) :
    Session.run (firstHandler [commonHandler fresh, meldHandler, pooledHandler, trackedHandler])
        TrackedHeap.size s₁ ops =
      Session.run (firstHandler [commonHandler fresh, meldHandler, pooledHandler, trackedHandler])
        TrackedHeap.size s₂ ops := by
  apply trackedPoolBlind.run_alike ⟨rfl, rfl⟩ _ hops hs
  -- the one further table is that of the operations only tracked heaps have
  intro t ht name run hrun
  rw [List.mem_singleton.1 ht] at hrun
  exact trackedHandler_respects hrun

end Engines

end Script

end PriorityQueues
