import Mathlib
import PriorityQueues.Proofs.Refinement

/-!
Shell accounting: with a pool of its own a heap never loses a shell (`ShellPool.Move`), so without
melds its idle and live shells count the largest size it has had.
-/

namespace PriorityQueues

namespace Meldable

variable {T : Type → Type} [Meldable T] [LawfulMeldable T] {α : Type} {prec : α → α → Bool}

theorem size_empty : size (empty : T α) = 0 := by
  rw [LawfulMeldable.size_eq_length, LawfulMeldable.toList_empty, List.length_nil]

theorem size_insert (x : α) (t : T α) : size (insert prec x t) = size t + 1 := by
  rw [LawfulMeldable.size_eq_length, (LawfulMeldable.toList_insert prec x t).length_eq,
    List.length_cons, LawfulMeldable.size_eq_length]

theorem size_meld (a b : T α) : size (meld prec a b) = size a + size b := by
  rw [LawfulMeldable.size_eq_length, (LawfulMeldable.toList_meld prec a b).length_eq,
    List.length_append, LawfulMeldable.size_eq_length, LawfulMeldable.size_eq_length]

theorem size_of_popTop {t t' : T α} {x : α} (ht : popTop prec t = some (x, t')) :
    size t = size t' + 1 := by
  rw [LawfulMeldable.size_eq_length, (LawfulMeldable.toList_of_popTop ht).length_eq,
    List.length_cons, LawfulMeldable.size_eq_length]

theorem size_of_extract {p : α → Bool} {t t' : T α} {x : α}
    (ht : extract prec p t = some (x, t')) : size t = size t' + 1 := by
  rw [LawfulMeldable.size_eq_length, (LawfulMeldable.toList_of_extract ht).2.length_eq,
    List.length_cons, LawfulMeldable.size_eq_length]

theorem size_modify (p : α → Bool) (f : α → α) (t : T α) : size (modify p f t) = size t := by
  rw [LawfulMeldable.size_eq_length, LawfulMeldable.toList_modify, List.length_map,
    LawfulMeldable.size_eq_length]

theorem size_reprioritize {p : α → Bool} (f : α → α) {t : T α} (hp : (toList t).countP p ≤ 1) :
    size (reprioritize prec p f t) = size t := by
  rw [LawfulMeldable.size_eq_length, (LawfulMeldable.toList_reprioritize prec p f t hp).length_eq,
    List.length_map, LawfulMeldable.size_eq_length]

end Meldable

namespace ShellPool

/-- How one operation moves shells between a heap's pool and its nodes, for a heap of `n` nodes: a
new node takes a shell from the pool, a removed node returns its shell, a clear returns the shells
of all nodes, and any other operation moves none. -/
inductive Move : ShellPool × Nat → ShellPool × Nat → Prop
  | draw (p : ShellPool) (n s : Nat) : Move (p, n) ((p.draw 1 s).1, n + 1)
  | retire (p : ShellPool) (n s : Nat) : Move (p, n + 1) ((p.retire 1 s).1, n)
  | retireAll (p : ShellPool) (n s : Nat) : Move (p, n) ((p.retire n s).1, 0)
  | stay (p : ShellPool) (n : Nat) : Move (p, n) (p, n)

theorem Move.own {k n n' : Nat} {p : ShellPool} (hm : Move (.own k, n) (p, n')) :
    ∃ k', p = .own k' ∧ k' + n' = max (k + n) n' := by
  cases hm with
  | draw => exact ⟨k - 1, rfl, by omega⟩
  | retire => exact ⟨k + 1, rfl, by omega⟩
  | retireAll => exact ⟨k + n, rfl, by omega⟩
  | stay => exact ⟨k, rfl, by omega⟩

theorem Move.idle_add_size {p p' : ShellPool} {n n' k : Nat} (hm : Move (p, n) (p', n'))
    (hp : p = .own k) (s s' : Nat) : p'.idle s' + n' = max (p.idle s + n) n' := by
  subst hp
  obtain ⟨k', rfl, hmax⟩ := hm.own
  exact hmax

theorem max_add_succ (i n : Nat) : max (i + n) (n + 1) = i + n + if i = 0 then 1 else 0 := by
  by_cases h0 : i = 0
  · rw [if_pos h0]
    omega
  · rw [if_neg h0]
    omega

theorem Move.none {n n' : Nat} {p : ShellPool} (hm : Move (.none, n) (p, n')) : p = .none := by
  cases hm <;> rfl

end ShellPool

section Peaks

variable {H : Type} (step : H → H → Prop) (size : H → Nat)

/-- A run of steps from `h₀` to `h`, with `peak` the largest size of a heap along it. -/
inductive PeakRun : H → H → Nat → Prop
  | start (h₀ : H) : PeakRun h₀ h₀ (size h₀)
  | next {h₀ h h' : H} {peak : Nat} : PeakRun h₀ h peak → step h h' →
      PeakRun h₀ h' (max peak (size h'))

variable {step size} {pool : H → ShellPool} {inv : H → Prop} {h₀ h : H} {peak : Nat}

theorem PeakRun.own_shells
    (hstep : ∀ h h', inv h → step h h' →
      inv h' ∧ ShellPool.Move (pool h, size h) (pool h', size h'))
    (hr : PeakRun step size h₀ h peak) (hi : inv h₀) (h0 : pool h₀ = .own 0) :
    inv h ∧ ∃ n, pool h = .own n ∧ n + size h = peak := by
  induction hr with
  | start => exact ⟨hi, 0, h0, Nat.zero_add _⟩
  | next _ hs ih =>
    obtain ⟨hih, n, hn, hpeak⟩ := ih
    obtain ⟨hi', hm⟩ := hstep _ _ hih hs
    rw [hn] at hm
    obtain ⟨n', hn', hmax⟩ := hm.own
    exact ⟨hi', n', hn', by omega⟩

end Peaks

namespace TreeHeap

variable {T : Type → Type} [Meldable T] [LawfulMeldable T] {V P : Type} {prec : P → P → Bool}
  {h : TreeHeap T V P prec}

open ShellPool (Move)

theorem move_push (e : Entry V P) (s : Nat) :
    Move (h.pool, h.size) ((h.push e s).1.pool, (h.push e s).1.size) := by
  rw [show (h.push e s).1.size = h.size + 1 from Meldable.size_insert _ _]
  exact .draw h.pool h.size s

theorem move_of_pop {h' : TreeHeap T V P prec} {e : Entry V P} {s s' : Nat}
    (hpop : h.pop s = (.ok (e, h'), s')) : Move (h.pool, h.size) (h'.pool, h'.size) := by
  obtain ⟨ht, hp, -⟩ := pop_eq_ok hpop
  have hsz : h.size = h'.size + 1 := Meldable.size_of_popTop ht
  rw [hsz, hp]
  exact .retire h.pool h'.size s

theorem move_clear (s : Nat) : Move (h.pool, h.size) ((h.clear s).1.pool, (h.clear s).1.size) := by
  rw [show (h.clear s).1.size = 0 from Meldable.size_empty]
  exact .retireAll h.pool h.size s

/-- One operation that keeps the heap as the same heap, melds apart: a push, a pop that answers an
entry, or a clear. -/
inductive Step : TreeHeap T V P prec → TreeHeap T V P prec → Prop
  | push (h : TreeHeap T V P prec) (e : Entry V P) (s : Nat) : Step h (h.push e s).1
  | pop {h h' : TreeHeap T V P prec} {e : Entry V P} {s s' : Nat} :
      h.pop s = (.ok (e, h'), s') → Step h h'
  | clear (h : TreeHeap T V P prec) (s : Nat) : Step h (h.clear s).1

theorem Step.move {h' : TreeHeap T V P prec} (hs : Step h h') :
    Move (h.pool, h.size) (h'.pool, h'.size) := by
  cases hs with
  | push e s => exact move_push e s
  | pop hpop => exact move_of_pop hpop
  | clear s => exact move_clear s

/-- How each operation changes the idle and live shells of a heap, the idle ones read at any count
of the shared pool: a push adds one exactly when no shell was idle, a pop and a clear change
nothing, a meld adds the absorbed heap's nodes, and a copy and the heap a take leaves behind start
with no idle shell. -/
structure ShellCounts (h : TreeHeap T V P prec) : Prop where
  push : ∀ e s s', (h.push e s).1.idle s' + (h.push e s).1.size =
    h.idle s + h.size + if h.idle s = 0 then 1 else 0
  pop : ∀ e h' s s₁ s', h.pop s = (.ok (e, h'), s₁) → h'.idle s' + h'.size = h.idle s + h.size
  clear : ∀ s s', (h.clear s).1.idle s' + (h.clear s).1.size = h.idle s + h.size
  merge : ∀ o s s', (h.merge o).idle s' + (h.merge o).size = h.idle s + h.size + o.size
  copy : ∀ s, (h.copy s).1.pool = .own 0 ∧ (h.copy s).1.size = h.size
  take : h.take.1.pool = .own 0 ∧ h.take.1.size = 0

theorem shellCounts_of_own {n : Nat} (hn : h.pool = .own n) : h.ShellCounts where
  push e s s' := by
    have hm : (h.push e s).1.idle s' + (h.push e s).1.size =
        max (h.idle s + h.size) (h.push e s).1.size := (move_push e s).idle_add_size hn s s'
    rw [hm, show (h.push e s).1.size = h.size + 1 from Meldable.size_insert _ _,
      ShellPool.max_add_succ]
  pop e h' s s₁ s' hpop := by
    have hm : h'.idle s' + h'.size = max (h.idle s + h.size) h'.size :=
      (move_of_pop hpop).idle_add_size hn s s'
    have hsz : h.size = h'.size + 1 := Meldable.size_of_popTop (pop_eq_ok hpop).1
    omega
  clear s s' := by
    have hm : (h.clear s).1.idle s' + (h.clear s).1.size =
        max (h.idle s + h.size) (h.clear s).1.size := (move_clear s).idle_add_size hn s s'
    have hsz : (h.clear s).1.size = 0 := Meldable.size_empty
    omega
  merge o s s' := by
    rw [show (h.merge o).size = h.size + o.size from Meldable.size_meld _ _]
    simp only [idle, TreeHeap.merge, hn, ShellPool.idle]
    omega
  copy s := ⟨by simp [copy, hn, ShellPool.fork, ShellPool.draw], rfl⟩
  take := ⟨by simp [take, hn, ShellPool.fork], Meldable.size_empty⟩

theorem pool_none_kept (hn : h.pool = .none) :
    (∀ h', Step h h' → h'.pool = .none) ∧ (∀ o, (h.merge o).pool = .none) ∧
      (∀ s, (h.copy s).1.pool = .none) ∧ h.take.1.pool = .none := by
  refine ⟨fun h' hs => ?_, fun o => hn, fun s => ?_, ?_⟩
  · have hm := hs.move
    rw [hn] at hm
    exact hm.none
  · simp [copy, hn, ShellPool.fork, ShellPool.draw]
  · simp [take, hn, ShellPool.fork]

end TreeHeap

namespace TrackedHeap

variable {T : Type → Type} [Meldable T] [LawfulMeldable T] {V P : Type} {prec : P → P → Bool}
  {h : TrackedHeap T V P prec}

open ShellPool (Move)

theorem push_cases (e : Entry V P) (s : Nat) :
    ((∃ k, (h.push e s).1 = .ok (k, (h.push e s).2.1)) ∧
      Move (h.pool, h.size) ((h.push e s).2.1.pool, (h.push e s).2.1.size) ∧
      (h.push e s).2.1.size = h.size + 1) ∨
    ((h.push e s).1 = .error .idCollision ∧ (h.push e s).2.1.pool = h.pool ∧
      (h.push e s).2.1.size = h.size) := by
  cases hk : h.contains h.ids.next with
  | true =>
    rw [push_of_contains e s hk]
    exact .inr ⟨rfl, rfl, rfl⟩
  | false =>
    have hsz : (h.pushed e s).size = h.size + 1 := Meldable.size_insert _ _
    rw [push_of_not_contains e s hk]
    refine .inl ⟨⟨_, rfl⟩, ?_, hsz⟩
    rw [hsz]
    exact .draw h.pool h.size s

theorem move_push (e : Entry V P) (s : Nat) :
    Move (h.pool, h.size) ((h.push e s).2.1.pool, (h.push e s).2.1.size) := by
  rcases push_cases (h := h) e s with ⟨-, hm, -⟩ | ⟨-, hp, hsz⟩
  · exact hm
  · rw [hp, hsz]
    exact .stay h.pool h.size

theorem move_of_pop {h' : TrackedHeap T V P prec} {e : Entry V P} {s s' : Nat}
    (hpop : h.pop s = (.ok (e, h'), s')) : Move (h.pool, h.size) (h'.pool, h'.size) := by
  obtain ⟨a, ht, -, hh'⟩ := pop_eq_ok hpop
  have hsz : h.size = h'.size + 1 := Meldable.size_of_popTop ht
  rw [hsz, hh']
  exact .retire h.pool h'.size s

theorem move_of_remove {h' : TrackedHeap T V P prec} {k : UInt64} {e : Entry V P} {s s' : Nat}
    (hrem : h.remove k s = (.ok (e, h'), s')) : Move (h.pool, h.size) (h'.pool, h'.size) := by
  obtain ⟨a, ht, -, hh'⟩ := remove_eq_ok hrem
  have hsz : h.size = h'.size + 1 := Meldable.size_of_extract ht
  rw [hsz, hh']
  exact .retire h.pool h'.size s

theorem pool_size_of_updateValue {h' : TrackedHeap T V P prec} {k : UInt64} {v : V}
    (hup : h.updateValue k v = .ok h') : h'.pool = h.pool ∧ h'.size = h.size := by
  cases hk : h.contains k with
  | true =>
    rw [updateValue_of_contains v hk, Except.ok.injEq] at hup
    subst hup
    exact ⟨rfl, Meldable.size_modify _ _ _⟩
  | false => simp [updateValue_of_not_contains v hk] at hup

theorem pool_size_of_updatePriority (hu : h.UniqueIds) {h' : TrackedHeap T V P prec} {k : UInt64}
    {p : P} (hup : h.updatePriority k p = .ok h') : h'.pool = h.pool ∧ h'.size = h.size := by
  cases hk : h.contains k with
  | true =>
    rw [updatePriority_of_contains p hk, Except.ok.injEq] at hup
    subst hup
    exact ⟨rfl, Meldable.size_reprioritize _ (Tagged.countP_hasId_le_one hu k)⟩
  | false => simp [updatePriority_of_not_contains p hk] at hup

theorem pool_size_of_update (hu : h.UniqueIds) {h' : TrackedHeap T V P prec} {k : UInt64} {v : V}
    {p : P} (hup : h.update k v p = .ok h') : h'.pool = h.pool ∧ h'.size = h.size := by
  rw [update_eq] at hup
  cases hv : h.updateValue k v with
  | error err => simp [hv, Except.bind] at hup
  | ok h₁ =>
    rw [hv] at hup
    obtain ⟨hp₁, hs₁⟩ := pool_size_of_updateValue hv
    obtain ⟨hp', hs'⟩ := pool_size_of_updatePriority (uniqueIds_of_updateValue hu hv) hup
    exact ⟨hp'.trans hp₁, hs'.trans hs₁⟩

theorem move_clear (s : Nat) : Move (h.pool, h.size) ((h.clear s).1.pool, (h.clear s).1.size) := by
  rw [show (h.clear s).1.size = 0 from Meldable.size_empty]
  exact .retireAll h.pool h.size s

omit [LawfulMeldable T] in
theorem move_of_pool_size {h' : TrackedHeap T V P prec} (hp : h'.pool = h.pool)
    (hsz : h'.size = h.size) : Move (h.pool, h.size) (h'.pool, h'.size) := by
  rw [hp, hsz]
  exact .stay h.pool h.size

/-- One operation that keeps the heap as the same heap, melds apart: a push (taken or refused,
which still advances the counter), a pop or a removal that answers an entry, a change of value or
priority that finds its id, a reset of the counter, or a clear. -/
inductive Step : TrackedHeap T V P prec → TrackedHeap T V P prec → Prop
  | push (h : TrackedHeap T V P prec) (e : Entry V P) (s : Nat) : Step h (h.push e s).2.1
  | pop {h h' : TrackedHeap T V P prec} {e : Entry V P} {s s' : Nat} :
      h.pop s = (.ok (e, h'), s') → Step h h'
  | remove {h h' : TrackedHeap T V P prec} {k : UInt64} {e : Entry V P} {s s' : Nat} :
      h.remove k s = (.ok (e, h'), s') → Step h h'
  | updateValue {h h' : TrackedHeap T V P prec} {k : UInt64} {v : V} :
      h.updateValue k v = .ok h' → Step h h'
  | updatePriority {h h' : TrackedHeap T V P prec} {k : UInt64} {p : P} :
      h.updatePriority k p = .ok h' → Step h h'
  | update {h h' : TrackedHeap T V P prec} {k : UInt64} {v : V} {p : P} :
      h.update k v p = .ok h' → Step h h'
  | resetIds (h : TrackedHeap T V P prec) : Step h h.resetIds
  | clear (h : TrackedHeap T V P prec) (s : Nat) : Step h (h.clear s).1

omit [LawfulMeldable T] in
theorem Step.reachable {h' : TrackedHeap T V P prec} (hs : Step h h') (hr : h.Reachable) :
    h'.Reachable := by
  cases hs with
  | push e s => exact .push e s hr
  | pop hpop => exact .pop hr hpop
  | remove hrem => exact .remove hr hrem
  | updateValue hup => exact .updateValue hr hup
  | updatePriority hup => exact .updatePriority hr hup
  | update hup => exact hr.update hup
  | resetIds => exact .resetIds hr
  | clear s => exact .clear s hr

theorem Step.move (hu : h.UniqueIds) {h' : TrackedHeap T V P prec} (hs : Step h h') :
    Move (h.pool, h.size) (h'.pool, h'.size) := by
  cases hs with
  | push e s => exact move_push e s
  | pop hpop => exact move_of_pop hpop
  | remove hrem => exact move_of_remove hrem
  | updateValue hup =>
    obtain ⟨hp, hsz⟩ := pool_size_of_updateValue hup
    exact move_of_pool_size hp hsz
  | updatePriority hup =>
    obtain ⟨hp, hsz⟩ := pool_size_of_updatePriority hu hup
    exact move_of_pool_size hp hsz
  | update hup =>
    obtain ⟨hp, hsz⟩ := pool_size_of_update hu hup
    exact move_of_pool_size hp hsz
  | resetIds => exact .stay h.pool h.size
  | clear s => exact move_clear s

/-- How each operation changes the idle and live shells of a heap, the idle ones read at any count
of the shared pool: a taken push adds one exactly when no shell was idle, a refused push, a pop, a
removal, changes of an entry, a reset of the counter and a clear change nothing, a meld adds the
absorbed heap's nodes, and a copy and the heap a take leaves behind start with an empty pool of
their own. -/
structure ShellCounts (h : TrackedHeap T V P prec) : Prop where
  push : ∀ e s s' r, (h.push e s).1 = .ok r →
    (h.push e s).2.1.idle s' + (h.push e s).2.1.size =
      h.idle s + h.size + if h.idle s = 0 then 1 else 0
  pushRefused : ∀ e s s' err, (h.push e s).1 = .error err →
    (h.push e s).2.1.idle s' + (h.push e s).2.1.size = h.idle s + h.size
  pop : ∀ e h' s s₁ s', h.pop s = (.ok (e, h'), s₁) → h'.idle s' + h'.size = h.idle s + h.size
  remove : ∀ k e h' s s₁ s', h.remove k s = (.ok (e, h'), s₁) →
    h'.idle s' + h'.size = h.idle s + h.size
  updateValue : ∀ k v h' s s', h.updateValue k v = .ok h' →
    h'.idle s' + h'.size = h.idle s + h.size
  updatePriority : ∀ k p h' s s', h.updatePriority k p = .ok h' →
    h'.idle s' + h'.size = h.idle s + h.size
  update : ∀ k v p h' s s', h.update k v p = .ok h' → h'.idle s' + h'.size = h.idle s + h.size
  resetIds : ∀ s s', h.resetIds.idle s' + h.resetIds.size = h.idle s + h.size
  clear : ∀ s s', (h.clear s).1.idle s' + (h.clear s).1.size = h.idle s + h.size
  merge : ∀ o h' s s', h.merge o = .ok h' → h'.idle s' + h'.size = h.idle s + h.size + o.size
  copy : ∀ s, (h.copy s).1.pool = .own 0 ∧ (h.copy s).1.size = h.size
  take : h.take.1.pool = .own 0 ∧ h.take.1.size = 0

theorem Step.idle_add_size (hu : h.UniqueIds) {h' : TrackedHeap T V P prec} (hs : Step h h')
    {n : Nat} (hn : h.pool = .own n) (s s' : Nat) :
    h'.idle s' + h'.size = max (h.idle s + h.size) h'.size :=
  (hs.move hu).idle_add_size hn s s'

theorem shellCounts_of_own (hu : h.UniqueIds) {n : Nat} (hn : h.pool = .own n) :
    h.ShellCounts where
  push e s s' r hok := by
    have hm := (Step.push h e s).idle_add_size hu hn s s'
    rcases push_cases (h := h) e s with ⟨-, -, hsz⟩ | ⟨herr, -, -⟩
    · rw [hm, hsz, ShellPool.max_add_succ]
    · rw [herr] at hok
      cases hok
  pushRefused e s s' err herr := by
    have hm := (Step.push h e s).idle_add_size hu hn s s'
    rcases push_cases (h := h) e s with ⟨⟨k, hok⟩, -, -⟩ | ⟨-, -, hsz⟩
    · rw [hok] at herr
      cases herr
    · omega
  pop e h' s s₁ s' hpop := by
    have hm := (Step.pop hpop).idle_add_size hu hn s s'
    have hsz : h.size = h'.size + 1 := by
      obtain ⟨a, ht, -, -⟩ := pop_eq_ok hpop
      exact Meldable.size_of_popTop ht
    omega
  remove k e h' s s₁ s' hrem := by
    have hm := (Step.remove hrem).idle_add_size hu hn s s'
    have hsz : h.size = h'.size + 1 := by
      obtain ⟨a, ht, -, -⟩ := remove_eq_ok hrem
      exact Meldable.size_of_extract ht
    omega
  updateValue k v h' s s' hup := by
    have hm := (Step.updateValue hup).idle_add_size hu hn s s'
    have hsz := (pool_size_of_updateValue hup).2
    omega
  updatePriority k p h' s s' hup := by
    have hm := (Step.updatePriority hup).idle_add_size hu hn s s'
    have hsz := (pool_size_of_updatePriority hu hup).2
    omega
  update k v p h' s s' hup := by
    have hm := (Step.update hup).idle_add_size hu hn s s'
    have hsz := (pool_size_of_update hu hup).2
    omega
  resetIds s s' := by
    have hm := (Step.resetIds h).idle_add_size hu hn s s'
    have hsz : h.resetIds.size = h.size := rfl
    omega
  clear s s' := by
    have hm := (Step.clear h s).idle_add_size hu hn s s'
    have hsz : (h.clear s).1.size = 0 := Meldable.size_empty
    omega
  merge o h' s s' hm := by
    cases hd : o.liveIds.any h.contains with
    | false =>
      rw [merge_of_disjoint hd, Except.ok.injEq] at hm
      subst hm
      have hsz : Meldable.size (Meldable.meld (Tagged.before prec) h.tree o.tree) =
          h.size + o.size := Meldable.size_meld _ _
      simp only [idle, size, hn, ShellPool.idle] at hsz ⊢
      omega
    | true => simp [merge_of_not_disjoint hd] at hm
  copy s := ⟨by simp [copy, hn, ShellPool.fork, ShellPool.draw], rfl⟩
  take := ⟨by simp [take, hn, ShellPool.fork], Meldable.size_empty⟩

theorem pool_none_kept (hu : h.UniqueIds) (hn : h.pool = .none) :
    (∀ h', Step h h' → h'.pool = .none) ∧ (∀ o h', h.merge o = .ok h' → h'.pool = .none) ∧
      (∀ s, (h.copy s).1.pool = .none) ∧ h.take.1.pool = .none := by
  refine ⟨fun h' hs => ?_, fun o h' hm => ?_, fun s => ?_, ?_⟩
  · have hm := hs.move hu
    rw [hn] at hm
    exact hm.none
  · cases hd : o.liveIds.any h.contains with
    | false =>
      rw [merge_of_disjoint hd, Except.ok.injEq] at hm
      subst hm
      exact hn
    | true => simp [merge_of_not_disjoint hd] at hm
  · simp [copy, hn, ShellPool.fork, ShellPool.draw]
  · simp [take, hn, ShellPool.fork]

end TrackedHeap

/-- With a pool of its own, a heap's idle and live shells change only as `ShellCounts` says and,
without melds, count the largest size the heap has had. -/
theorem own_pools_keep_peak_shells {T : Type → Type} [Meldable T] [LawfulMeldable T] {V P : Type}
    {prec : P → P → Bool} :
    (∀ (h : TreeHeap T V P prec) n, h.pool = .own n → h.ShellCounts) ∧
    (∀ (h : TrackedHeap T V P prec) n, h.Reachable → h.pool = .own n → h.ShellCounts) ∧
    (∀ (h₀ h : TreeHeap T V P prec) peak, PeakRun TreeHeap.Step TreeHeap.size h₀ h peak →
      h₀.pool = .own 0 → ∀ s, h.idle s + h.size = peak) ∧
    (∀ (h₀ h : TrackedHeap T V P prec) peak,
      PeakRun TrackedHeap.Step TrackedHeap.size h₀ h peak → h₀.Reachable → h₀.pool = .own 0 →
        ∀ s, h.idle s + h.size = peak) ∧
    (∀ h : TreeHeap T V P prec, h.pool = .none →
      (∀ s, h.idle s = 0) ∧ (∀ h', TreeHeap.Step h h' → h'.pool = .none) ∧
        (∀ o, (h.merge o).pool = .none) ∧ (∀ s, (h.copy s).1.pool = .none) ∧
        h.take.1.pool = .none) ∧
    (∀ h : TrackedHeap T V P prec, h.Reachable → h.pool = .none →
      (∀ s, h.idle s = 0) ∧ (∀ h', TrackedHeap.Step h h' → h'.pool = .none) ∧
        (∀ o h', h.merge o = .ok h' → h'.pool = .none) ∧ (∀ s, (h.copy s).1.pool = .none) ∧
        h.take.1.pool = .none) := by
  refine ⟨fun h n hn => TreeHeap.shellCounts_of_own hn,
    fun h n hr hn => TrackedHeap.shellCounts_of_own hr.uniqueIds hn,
    fun h₀ h peak hrun h0 s => ?_, fun h₀ h peak hrun hr h0 s => ?_,
    fun h hn => ⟨fun s => by simp [TreeHeap.idle, hn, ShellPool.idle], TreeHeap.pool_none_kept hn⟩,
    fun h hr hn => ⟨fun s => by simp [TrackedHeap.idle, hn, ShellPool.idle],
      TrackedHeap.pool_none_kept hr.uniqueIds hn⟩⟩
  · -- untracked steps move shells with no invariant needed
    have hstep : ∀ h h' : TreeHeap T V P prec, True → TreeHeap.Step h h' →
        True ∧ ShellPool.Move (h.pool, h.size) (h'.pool, h'.size) :=
      fun _ _ _ hs => ⟨trivial, hs.move⟩
    obtain ⟨-, n, hn, hpeak⟩ := hrun.own_shells hstep trivial h0
    simp only [TreeHeap.idle, hn, ShellPool.idle]
    exact hpeak
  · -- tracked steps move shells on heaps built by operations, and keep them so built
    have hstep : ∀ h h' : TrackedHeap T V P prec, h.Reachable → TrackedHeap.Step h h' →
        h'.Reachable ∧ ShellPool.Move (h.pool, h.size) (h'.pool, h'.size) :=
      fun _ _ hr' hs => ⟨hs.reachable hr', hs.move hr'.uniqueIds⟩
    obtain ⟨-, n, hn, hpeak⟩ := hrun.own_shells hstep hr h0
    simp only [TrackedHeap.idle, hn, ShellPool.idle]
    exact hpeak

theorem own_pools_keep_peak_shells_of_tied_pushes :
    let h₀ : TreeHeap PairingHeap String Int fun a b => decide (a < b) := TreeHeap.new (.own 0)
    let h₂ := ((h₀.push ⟨"a", 1⟩ 0).1.push ⟨"b", 1⟩ 0).1
    ∃ h₃ s, h₂.pop 0 = (.ok (⟨"a", 1⟩, h₃), s) ∧ h₃.size = 1 ∧ h₃.idle 0 + h₃.size = 2 := by
  intro h₀ h₂
  obtain ⟨h₃, s, hpop⟩ : ∃ h₃ s, h₂.pop 0 = (.ok (⟨"a", 1⟩, h₃), s) := ⟨_, _, rfl⟩
  -- reading the pop off its equation makes the popped heap concrete
  have hpop' := hpop
  cases hpop'
  have hrun : PeakRun TreeHeap.Step TreeHeap.size h₀ _ 2 :=
    .next (.next (.next (.start _) (TreeHeap.Step.push _ _ 0)) (TreeHeap.Step.push _ _ 0))
      (TreeHeap.Step.pop hpop)
  exact ⟨_, _, hpop, rfl, own_pools_keep_peak_shells.2.2.1 _ _ _ hrun rfl 0⟩

end PriorityQueues
