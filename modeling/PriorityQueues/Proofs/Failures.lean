import Mathlib
import PriorityQueues.Proofs.Refusals
import PriorityQueues.Script.Dary
import PriorityQueues.Script.Trees
import PriorityQueues.Script.Radix

/-!
Refused operations in sessions report no swaps and keep every slot, except that a refused tracked
push uses up its id and a refused tracked meld consumes the other heap (`FailuresWithin`).
-/

namespace PriorityQueues

namespace Script

namespace Session

variable {H : Type} {s : Session H}

theorem heap?_of_slot {op : Json} {key : String} {d : Option Nat} {n : Nat} {h : H}
    (hs : s.slot op key d = .ok (n, h)) : s.heap? n = some h := by
  unfold slot at hs
  cases hf : slotField op key d with
  | error w => simp [hf, bind, Except.bind] at hs
  | ok m =>
    simp only [hf, bind, Except.bind] at hs
    split at hs
    · rename_i h' hh
      simp only [pure, Except.pure, Except.ok.injEq, Prod.mk.injEq] at hs
      obtain ⟨rfl, rfl⟩ := hs
      exact hh
    · cases hs

theorem put_of_heap? {n : Nat} {h : H} (hn : s.heap? n = some h) : s.put n (some h) = s := by
  have hslot : s.slots[n]? = some (some h) := by
    unfold heap? at hn
    obtain ⟨o, ho, rfl⟩ := Option.bind_eq_some_iff.1 hn
    exact ho
  have hlt : n < s.slots.size := (Array.getElem?_eq_some_iff.1 hslot).1
  unfold put
  congr 1
  refine Array.ext_getElem? fun j => ?_
  rw [Array.getElem?_setIfInBounds]
  split
  · rename_i hj
    subst hj
    exact hslot.symm
  · rfl

end Session

def FailuresWithin {H : Type} (R : HeapError → Session H → Prop) (r : Check (Ran H)) : Prop :=
  ∀ e s' sw, r = .ok (.failed e, s', sw) → sw = [] ∧ R e s'

section Within

variable {H : Type} {R : HeapError → Session H → Prop}

theorem FailuresWithin.bind {α : Type} {x : Check α} {k : α → Check (Ran H)}
    (hk : ∀ a, FailuresWithin R (k a)) : FailuresWithin R (x >>= k) := by
  intro e s' sw hr
  cases x with
  | error w => cases hr
  | ok a => exact hk a e s' sw hr

theorem FailuresWithin.refused {w : String} : FailuresWithin R (.error w : Check (Ran H)) := by
  intro e s' sw hr
  cases hr

theorem FailuresWithin.throw_bind {α : Type} {w : String} {k : α → Check (Ran H)} :
    FailuresWithin R ((throw w : Check α) >>= k) := by
  intro e s' sw hr
  cases hr

theorem FailuresWithin.pure {o : Outcome} {s' : Session H} {sw : List (Nat × Swaps)}
    (ho : ∀ e, o = .failed e → sw = [] ∧ R e s') : FailuresWithin R (pure (o, s', sw)) := by
  intro e t sw' hr
  simp only [Pure.pure, Except.pure, Except.ok.injEq, Prod.mk.injEq] at hr
  obtain ⟨rfl, rfl, rfl⟩ := hr
  exact ho e rfl

theorem FailuresWithin.keep {o : Outcome} {s' : Session H} (hs : ∀ e, R e s') :
    FailuresWithin R (Pure.pure (o, s', [])) :=
  .pure fun e _ => ⟨rfl, hs e⟩

theorem FailuresWithin.ok {r : Reply} {s' : Session H} {sw : List (Nat × Swaps)} :
    FailuresWithin R (Pure.pure (Outcome.ok r, s', sw)) :=
  .pure fun _ he => by cases he

@[simp]
theorem heard_nil {P : Type} [Queue H P] (h : H) : heard h [] = [] := rfl

theorem outcomeOf_eq_failed {α : Type} {x : Except HeapError α} {f : α → Reply} {e : HeapError}
    (h : outcomeOf x f = .failed e) : x = .error e := by
  cases x with
  | error e' =>
    simp only [outcomeOf, Outcome.failed.injEq] at h
    rw [h]
  | ok a => cases h

theorem FailuresWithin.slot_bind {s : Session H} {op : Json} {key : String} {d : Option Nat}
    {k : Nat × H → Check (Ran H)} (hk : ∀ n h, s.heap? n = some h → FailuresWithin R (k (n, h))) :
    FailuresWithin R (s.slot op key d >>= k) := by
  cases hs : s.slot op key d with
  | error w =>
    intro e s' sw hr
    cases hr
  | ok a =>
    obtain ⟨n, h⟩ := a
    exact hk n h (Session.heap?_of_slot hs)

end Within

section Tables

variable {H P : Type} [Queue H P] {R : HeapError → Session H → Prop} {s : Session H}

theorem commonHandler_failuresWithin {fresh : H} (hs : ∀ e, R e s)
    (hpush : ∀ n h e err, s.heap? n = some h → (Queue.push h e s.shared).result = .error err →
      (Queue.push h e s.shared).swaps = [] ∧ R err { s.put n (some (Queue.push h e s.shared).heap)
        with shared := (Queue.push h e s.shared).shared })
    (hpop : ∀ n h err, s.heap? n = some h → (Queue.pop h s.shared).result = .error err →
      (Queue.pop h s.shared).swaps = [] ∧ R err { s.put n (some (Queue.pop h s.shared).heap)
        with shared := (Queue.pop h s.shared).shared })
    {name : String} {run : Handler H} (hrun : commonHandler fresh name = some run) (op : Json) :
    FailuresWithin R (run op s) := by
  have hpopWith : ∀ f : Entry String P → Reply, FailuresWithin R (popWith f op s) := fun f =>
    .slot_bind fun n h hn => .pure fun e he =>
      (hpop n h e hn (outcomeOf_eq_failed he)).imp_left fun hsw => by rw [hsw, heard_nil]
  have hpeekWith : ∀ f : Entry String P → Reply, FailuresWithin R (peekWith f op s) := fun f =>
    .slot_bind fun n h hn => .keep hs
  unfold commonHandler at hrun
  split at hrun <;> cases hrun
  · exact .slot_bind fun n h hn => .bind fun v => .bind fun p =>
      .pure fun e he =>
        (hpush n h _ e hn (outcomeOf_eq_failed he)).imp_left fun hsw => by rw [hsw, heard_nil]
  · exact hpopWith _
  · exact hpopWith _
  · exact hpopWith _
  · exact hpeekWith _
  · exact hpeekWith _
  · exact hpeekWith _
  -- the rest never fail
  · exact .slot_bind fun _ _ _ => .ok
  · exact .slot_bind fun _ _ _ => .ok
  · exact .slot_bind fun _ _ _ => .ok
  · exact .slot_bind fun _ _ _ => .ok
  · exact .slot_bind fun _ _ _ => .ok
  · exact .slot_bind fun _ _ _ => .ok
  · exact .ok

theorem meldHandler_failuresWithin [MeldQueue H] (hs : ∀ e, R e s)
    (hmerge : ∀ n m (h o : H) err, n ≠ m → s.heap? n = some h → s.heap? m = some o →
      MeldQueue.merge h o = .error err → R err (s.put m none))
    (hfrom : ∀ (h o : H) err, MeldQueue.checkMerge h o = .ok () →
      MeldQueue.merge h (MeldQueue.take o).2 ≠ .error err)
    {name : String} {run : Handler H} (hrun : meldHandler name = some run) (op : Json) :
    FailuresWithin R (run op s) := by
  unfold meldHandler at hrun
  split at hrun <;> cases hrun
  · -- merge: the absorbed slot is emptied before the meld runs
    refine .slot_bind fun n h hn => .slot_bind fun m o ho => ?_
    dsimp only
    split
    · exact .throw_bind
    · rename_i hnm
      cases hm : MeldQueue.merge h o with
      | ok h' => exact .ok
      | error err =>
        refine .pure fun e he => ?_
        cases he
        exact ⟨rfl, hmerge n m h o err hnm hn ho hm⟩
  · exact .slot_bind fun _ _ _ => .slot_bind fun _ _ _ => .keep hs
  · refine .slot_bind fun n h hn => ?_
    rcases MeldQueue.take h with ⟨left, taken⟩
    exact .ok
  · -- merge_from checks before it takes, so the meld after the take cannot fail
    refine .slot_bind fun n h hn => .slot_bind fun m o ho => ?_
    dsimp only
    split
    · exact .ok
    · cases hc : MeldQueue.checkMerge h o with
      | error err => exact .keep hs
      | ok u =>
        rcases ht : MeldQueue.take o with ⟨left, taken⟩
        cases hm : MeldQueue.merge h taken with
        | ok h' => exact .ok
        | error err =>
          have := hfrom h o err hc
          rw [ht] at this
          exact absurd hm this

theorem pooledHandler_failuresWithin [PooledQueue H] {name : String} {run : Handler H}
    (hrun : pooledHandler name = some run) (op : Json) : FailuresWithin R (run op s) := by
  unfold pooledHandler at hrun
  split at hrun <;> cases hrun
  · exact .slot_bind fun _ _ _ => .ok
  · exact .slot_bind fun _ _ _ => .ok

theorem firstHandler_failuresWithin {tables : List (String → Option (Handler H))}
    (ht : ∀ t ∈ tables, ∀ name run, t name = some run → ∀ op, FailuresWithin R (run op s))
    {name : String} {run : Handler H} (hrun : firstHandler tables name = some run) (op : Json) :
    FailuresWithin R (run op s) := by
  obtain ⟨t, htm, hrun'⟩ := List.exists_of_findSome?_eq_some hrun
  exact ht t htm name run hrun' op

theorem Session.step_of_failed {table : String → Option (Handler H)} {size : H → Nat} {op : Json}
    (ht : ∀ name run, table name = some run → FailuresWithin R (run op s)) {st : Step}
    {s' : Session H} {e : HeapError} (hstep : s.step table size op = (st, s'))
    (hf : st.outcome = .failed e) : st.swaps = [] ∧ R e s' := by
  unfold Session.step at hstep
  cases hn : table (opName op) with
  | none =>
    simp only [hn, Prod.mk.injEq] at hstep
    rw [← hstep.1] at hf
    cases hf
  | some run =>
    cases hr : run op s with
    | error w =>
      simp only [hn, hr, Prod.mk.injEq] at hstep
      rw [← hstep.1] at hf
      cases hf
    | ok r =>
      obtain ⟨o, s'', sw⟩ := r
      simp only [hn, hr, Prod.mk.injEq] at hstep
      obtain ⟨rfl, rfl⟩ := hstep
      have ho : o = .failed e := hf
      subst ho
      exact ht _ run hn e _ sw hr

theorem Session.step_firstHandler_of_failed {tables : List (String → Option (Handler H))}
    {size : H → Nat} {op : Json}
    (ht : ∀ t ∈ tables, ∀ name run, t name = some run → ∀ op, FailuresWithin R (run op s))
    {st : Step} {s' : Session H} {e : HeapError}
    (hstep : s.step (firstHandler tables) size op = (st, s')) (hf : st.outcome = .failed e) :
    st.swaps = [] ∧ R e s' :=
  Session.step_of_failed (fun _ _ hrun => firstHandler_failuresWithin ht hrun op) hstep hf

end Tables

section Engines

variable {prec : Int → Int → Bool} {G : Type} [Registry G Handle Nat]
  {R : HeapError → Session (SessionDary prec G) → Prop} {s : Session (SessionDary prec G)}

theorem FailuresWithin.settle {α : Type} (hs : ∀ e, R e s) {n : Nat} {h : SessionDary prec G}
    {r : Except HeapError (α × SessionDary prec G × Swaps)} {f : α → Reply} :
    FailuresWithin R (Pure.pure (settle s n h r f)) := by
  cases r with
  | ok a => exact .ok
  | error err => exact .keep hs

theorem daryHandler_failuresWithin (hs : ∀ e, R e s) {arity : Nat} {name : String}
    {run : Handler (SessionDary prec G)} (hrun : daryHandler arity name = some run) (op : Json) :
    FailuresWithin R (run op s) := by
  unfold daryHandler at hrun
  split at hrun <;> cases hrun
  · exact .slot_bind fun _ _ _ => .bind fun _ => .keep hs
  · exact .slot_bind fun _ _ _ => .bind fun _ => .bind fun _ => .bind fun _ => .settle hs
  · exact .slot_bind fun _ _ _ => .bind fun _ => .settle hs
  · exact .bind fun _ => .bind fun _ => .slot_bind fun _ _ _ => .settle hs
  · exact .bind fun _ => .bind fun _ => .slot_bind fun _ _ _ => .settle hs
  · exact .slot_bind fun _ _ _ => .ok
  · exact .slot_bind fun _ _ _ => .ok
  · exact .slot_bind fun _ _ _ => .ok
  · -- deregister: an unknown number is refused, a dead handle fails and changes nothing
    refine .slot_bind fun n h _ => .bind fun cb => ?_
    split
    · exact .refused
    · rename_i k _
      cases h.deregister k with
      | ok h' => exact .ok
      | error err => exact .keep hs
  · exact .bind fun _ => .bind fun _ => .ok

end Engines

theorem radixHandler_failuresWithin {R : HeapError → Session (RadixHeap String) → Prop}
    {s : Session (RadixHeap String)} (hs : ∀ e, R e s) {name : String}
    {run : Handler (RadixHeap String)} (hrun : radixHandler name = some run) (op : Json) :
    FailuresWithin R (run op s) := by
  unfold radixHandler at hrun
  split at hrun <;> cases hrun
  · refine .slot_bind fun n h _ => ?_
    dsimp only
    cases h.rebalance with
    | ok h' => exact .ok
    | error err => exact .keep hs
  · exact .slot_bind fun _ _ _ => .ok

section Tracked

variable {T : Type → Type} {prec : Int → Int → Bool}
  {R : HeapError → Session (TrackedHeap T String Int prec) → Prop}
  {s : Session (TrackedHeap T String Int prec)}

theorem FailuresWithin.settleTracked (hs : ∀ e, R e s) {n : Nat}
    {r : Except HeapError (TrackedHeap T String Int prec)} :
    FailuresWithin R (Pure.pure (settleTracked s n r)) := by
  cases r with
  | ok h' => exact .ok
  | error err => exact .keep hs

theorem trackedHandler_failuresWithin [Meldable T] (hs : ∀ e, R e s) {name : String}
    {run : Handler (TrackedHeap T String Int prec)} (hrun : trackedHandler name = some run)
    (op : Json) : FailuresWithin R (run op s) := by
  unfold trackedHandler at hrun
  split at hrun <;> cases hrun
  · exact .slot_bind fun _ _ _ => .bind fun _ => .keep hs
  · exact .bind fun _ => .slot_bind fun _ _ _ => .keep hs
  · exact .bind fun _ => .slot_bind fun _ _ _ => .keep hs
  · exact .slot_bind fun _ _ _ => .bind fun _ => .ok
  · exact .slot_bind fun _ _ _ => .bind fun _ => .bind fun _ => .settleTracked hs
  · exact .slot_bind fun _ _ _ => .bind fun _ => .bind fun _ => .settleTracked hs
  · exact .slot_bind fun _ _ _ => .bind fun _ => .bind fun _ => .bind fun _ => .settleTracked hs
  · refine .slot_bind fun n h _ => .bind fun k => ?_
    rcases hr : h.remove k.toUInt64 s.shared with ⟨err | ⟨e, h'⟩, shared⟩
    · rw [TrackedHeap.remove_shared_of_error hr]
      exact .keep hs
    · exact .ok
  · exact .slot_bind fun _ _ _ => .ok
  · exact .slot_bind fun _ _ _ => .ok

end Tracked

section Kept

variable {H P : Type} [Queue H P] {s : Session H}

theorem Session.put_shared_of_heap? {n : Nat} {h : H} (hn : s.heap? n = some h) :
    { s.put n (some h) with shared := s.shared } = s := by
  rw [Session.put_of_heap? hn]

theorem commonHandler_keeps {fresh : H}
    (hpush : ∀ (h : H) e sh (err : HeapError), (Queue.push h e sh).result = .error err →
      Queue.push h e sh = { result := .error err, heap := h, shared := sh })
    (hpop : ∀ (h : H) sh (err : HeapError), (Queue.pop h sh).result = .error err →
      Queue.pop h sh = { result := .error err, heap := h, shared := sh })
    {name : String} {run : Handler H} (hrun : commonHandler fresh name = some run) (op : Json) :
    FailuresWithin (fun _ s' => s' = s) (run op s) := by
  refine commonHandler_failuresWithin (R := fun _ s' => s' = s) (fun _ => rfl) (fun n h e err hn he => ?_)
    (fun n h err hn he => ?_) hrun op
  · rw [hpush h e s.shared err he]
    exact ⟨rfl, Session.put_shared_of_heap? hn⟩
  · rw [hpop h s.shared err he]
    exact ⟨rfl, Session.put_shared_of_heap? hn⟩

theorem meldHandler_keeps [MeldQueue H] (hmerge : ∀ (h o : H) err, MeldQueue.merge h o ≠ .error err)
    {name : String} {run : Handler H} (hrun : meldHandler name = some run) (op : Json) :
    FailuresWithin (fun _ s' => s' = s) (run op s) :=
  meldHandler_failuresWithin (R := fun _ s' => s' = s) (fun _ => rfl) (fun _ _ h o err _ _ _ he => absurd he (hmerge h o err))
    (fun h _ err _ => hmerge h _ err) hrun op

end Kept

section DarySessions

variable {prec : Int → Int → Bool} {G : Type} [Registry G Handle Nat]

theorem Queue.pop_dary_of_error {h : SessionDary prec G} {sh : Nat} {err : HeapError}
    (he : (Queue.pop h sh).result = .error err) :
    Queue.pop h sh = { result := .error err, heap := h, shared := sh } := by
  cases hp : h.pop with
  | ok r =>
    obtain ⟨x, h', sw⟩ := r
    simp only [Queue.pop, hp] at he
    cases he
  | error err' =>
    simp only [Queue.pop, hp] at he ⊢
    cases he
    rfl

theorem Session.step_dary_of_failed {arity : Nat} {s : Session (SessionDary prec G)} {op : Json}
    {st : Step} {s' : Session (SessionDary prec G)} {e : HeapError}
    (hstep : s.step (firstHandler [commonHandler (DaryHeap.new arity), daryHandler arity])
      DaryHeap.size op = (st, s'))
    (hf : st.outcome = .failed e) : st.swaps = [] ∧ s' = s := by
  refine Session.step_firstHandler_of_failed (R := fun _ s' => s' = s) (fun t ht => ?_) hstep hf
  simp only [List.mem_cons, List.not_mem_nil, or_false] at ht
  rcases ht with rfl | rfl
  · exact fun _ _ hrun op => commonHandler_keeps (fun _ _ _ _ he => by cases he)
      (fun _ _ _ => Queue.pop_dary_of_error) hrun op
  · exact fun _ _ hrun op => daryHandler_failuresWithin (R := fun _ s' => s' = s) (fun _ => rfl) hrun op

end DarySessions

section RadixSessions

theorem Queue.push_radix_of_error {h : RadixHeap String} {e : Entry String Nat} {sh : Nat}
    {err : HeapError} (he : (Queue.push h e sh).result = .error err) :
    Queue.push h e sh = { result := .error err, heap := h, shared := sh } := by
  cases hp : h.push e with
  | ok h' =>
    simp only [Queue.push, hp] at he
    cases he
  | error err' =>
    simp only [Queue.push, hp] at he ⊢
    cases he
    rfl

theorem Queue.pop_radix_of_error {h : RadixHeap String} {sh : Nat} {err : HeapError}
    (he : (Queue.pop h sh).result = .error err) :
    Queue.pop h sh = { result := .error err, heap := h, shared := sh } := by
  cases hp : h.pop with
  | ok r =>
    obtain ⟨x, h'⟩ := r
    simp only [Queue.pop, hp] at he
    cases he
  | error err' =>
    simp only [Queue.pop, hp] at he ⊢
    cases he
    rfl

theorem Session.step_radix_of_failed {bits : Nat} {s : Session (RadixHeap String)} {op : Json}
    {st : Step} {s' : Session (RadixHeap String)} {e : HeapError}
    (hstep : s.step (firstHandler [commonHandler (RadixHeap.new bits), meldHandler, radixHandler])
      RadixHeap.size op = (st, s'))
    (hf : st.outcome = .failed e) : st.swaps = [] ∧ s' = s := by
  refine Session.step_firstHandler_of_failed (R := fun _ s' => s' = s) (fun t ht => ?_) hstep hf
  simp only [List.mem_cons, List.not_mem_nil, or_false] at ht
  rcases ht with rfl | rfl | rfl
  · exact fun _ _ hrun op => commonHandler_keeps (fun _ _ _ _ => Queue.push_radix_of_error)
      (fun _ _ _ => Queue.pop_radix_of_error) hrun op
  · exact fun _ _ hrun op => meldHandler_keeps (fun _ _ _ he => by cases he) hrun op
  · exact fun _ _ hrun op => radixHandler_failuresWithin (R := fun _ s' => s' = s) (fun _ => rfl) hrun op

end RadixSessions

section TreeSessions

variable {T : Type → Type} [Meldable T] {prec : Int → Int → Bool}

theorem Queue.pop_tree_of_error {h : TreeHeap T String Int prec} {sh : Nat} {err : HeapError}
    (he : (Queue.pop h sh).result = .error err) :
    Queue.pop h sh = { result := .error err, heap := h, shared := sh } := by
  rcases hp : h.pop sh with ⟨_ | ⟨x, h'⟩, sh'⟩
  · simp only [Queue.pop, hp] at he ⊢
    cases he
    rw [TreeHeap.pop_shared_of_error hp]
  · simp only [Queue.pop, hp] at he
    cases he

theorem Session.step_tree_of_failed {pool : ShellPool} {s : Session (TreeHeap T String Int prec)}
    {op : Json} {st : Step} {s' : Session (TreeHeap T String Int prec)} {e : HeapError}
    (hstep : s.step (firstHandler [commonHandler (TreeHeap.new pool), meldHandler, pooledHandler])
      TreeHeap.size op = (st, s'))
    (hf : st.outcome = .failed e) : st.swaps = [] ∧ s' = s := by
  refine Session.step_firstHandler_of_failed (R := fun _ s' => s' = s) (fun t ht => ?_) hstep hf
  simp only [List.mem_cons, List.not_mem_nil, or_false] at ht
  rcases ht with rfl | rfl | rfl
  · exact fun _ _ hrun op => commonHandler_keeps (fun _ _ _ _ he => by cases he)
      (fun _ _ _ => Queue.pop_tree_of_error) hrun op
  · exact fun _ _ hrun op => meldHandler_keeps (fun _ _ _ he => by cases he) hrun op
  · exact fun _ _ hrun op => pooledHandler_failuresWithin hrun op

end TreeSessions

section TrackedSessions

variable {T : Type → Type} [Meldable T] {prec : Int → Int → Bool}

theorem Queue.push_tracked_of_error {h : TrackedHeap T String Int prec} {e : Entry String Int}
    {sh : Nat} {err : HeapError} (he : (Queue.push h e sh).result = .error err) :
    err = .idCollision ∧
      Queue.push h e sh = { result := .error err, heap := { h with ids := h.ids.issue.2 }, shared := sh } := by
  rcases hp : h.push e sh with ⟨_ | ⟨k, h₁⟩, h', sh'⟩
  · simp only [Queue.push, hp] at he ⊢
    cases he
    obtain ⟨-, rfl, rfl, rfl⟩ := TrackedHeap.push_eq_error_iff.1 hp
    exact ⟨rfl, rfl⟩
  · simp only [Queue.push, hp] at he
    cases he

theorem Queue.pop_tracked_of_error {h : TrackedHeap T String Int prec} {sh : Nat}
    {err : HeapError} (he : (Queue.pop h sh).result = .error err) :
    Queue.pop h sh = { result := .error err, heap := h, shared := sh } := by
  rcases hp : h.pop sh with ⟨_ | ⟨x, h'⟩, sh'⟩
  · simp only [Queue.pop, hp] at he ⊢
    cases he
    rw [TrackedHeap.pop_shared_of_error hp]
  · simp only [Queue.pop, hp] at he
    cases he

theorem Session.step_tracked_of_failed {ids : IdSequence} {pool : ShellPool}
    {s : Session (TrackedHeap T String Int prec)} {op : Json} {st : Step}
    {s' : Session (TrackedHeap T String Int prec)} {e : HeapError}
    (hstep : s.step (firstHandler [commonHandler (TrackedHeap.new ids pool), meldHandler,
      pooledHandler, trackedHandler]) TrackedHeap.size op = (st, s'))
    (hf : st.outcome = .failed e) :
    st.swaps = [] ∧ (s' = s ∨ e = .idCollision ∧ ∃ n h, s.heap? n = some h ∧
      (s' = s.put n (some { h with ids := h.ids.issue.2 }) ∨ s' = s.put n none)) := by
  refine Session.step_firstHandler_of_failed (R := fun e s' => s' = s ∨ e = .idCollision ∧ ∃ n h,
    s.heap? n = some h ∧ (s' = s.put n (some { h with ids := h.ids.issue.2 }) ∨ s' = s.put n none))
    (fun t ht => ?_) hstep hf
  simp only [List.mem_cons, List.not_mem_nil, or_false] at ht
  rcases ht with rfl | rfl | rfl | rfl
  · refine fun _ _ hrun op => commonHandler_failuresWithin (fun _ => .inl rfl)
      (fun n h _ err hn he => ?_) (fun n h err hn he => ?_) hrun op
    · -- the push used up its id: only that heap's counter moved
      obtain ⟨hc, hq⟩ := Queue.push_tracked_of_error he
      rw [hq]
      exact ⟨rfl, .inr ⟨hc, n, h, hn, .inl rfl⟩⟩
    · rw [Queue.pop_tracked_of_error he]
      exact ⟨rfl, .inl (Session.put_shared_of_heap? hn)⟩
  · refine fun _ _ hrun op => meldHandler_failuresWithin (fun _ => .inl rfl)
      (fun _ m _ o err _ _ ho he => ?_) (fun _ _ _ hc => TrackedHeap.merge_ne_error_of_checkMerge hc)
      hrun op
    -- the meld consumed the heap it was given
    exact .inr ⟨(TrackedHeap.merge_eq_error_iff.1 he).2, m, o, ho, .inr rfl⟩
  · exact fun _ _ hrun op => pooledHandler_failuresWithin hrun op
  · exact fun _ _ hrun op => trackedHandler_failuresWithin (fun _ => .inl rfl) hrun op

end TrackedSessions

/-- Each operation refuses exactly on its stated condition, and a refusal changes nothing. -/
theorem refused_operations_change_nothing {V : Type} :
    (∀ {P R K L : Type} [Registry R K L] [LawfulRegistry R K L] {prec : P → P → Bool}
        (h : DaryHeap V P prec R) (i : Nat) (x : Entry V P) (k : K) (err : HeapError),
      (h.get i = .error err ↔ h.size ≤ i ∧ err = .indexOutOfBounds i h.size) ∧
      (h.update i x = .error err ↔ h.size ≤ i ∧ err = .indexOutOfBounds i h.size) ∧
      (h.removeAt i = .error err ↔ h.size ≤ i ∧ err = .indexOutOfBounds i h.size) ∧
      (h.pop = .error err ↔ h.size = 0 ∧ err = .empty) ∧
      (h.peek = .error err ↔ h.size = 0 ∧ err = .empty) ∧
      (h.popPush x = .error err ↔ h.size = 0 ∧ err = .empty) ∧
      (h.deregister k = .error err ↔ Registry.get h.listeners k = none ∧
        err = .listenerNotFound) ∧
      ∀ h' h'' : DaryHeap V P prec R, h.deregister k = .ok h' →
        Registry.Later h'.listeners h''.listeners →
        h''.deregister k = .error .listenerNotFound) ∧
    (∀ h : RadixHeap V, h.Reachable → ∀ (x : Entry V Nat) (err : HeapError),
      (h.push x = .error err ↔ x.priority < h.baseline ∧ err = .belowBaseline) ∧
      (h.rebalance = .error err ↔ h.size = 0 ∧ err = .empty ∨
        h.size ≠ 0 ∧ (∃ y ys, h.buckets[0]? = some (y :: ys)) ∧ err = .rebalanceNotNeeded) ∧
      (h.pop = .error err ↔ h.size = 0 ∧ err = .empty) ∧
      (h.peek = .error err ↔ h.size = 0 ∧ err = .empty)) ∧
    (∀ {T : Type → Type} [Meldable T] [LawfulMeldable T] {P : Type} {prec : P → P → Bool}
        (h : TreeHeap T V P prec) (sh sh' : Nat) (err : HeapError),
      (h.pop sh = (.error err, sh') ↔ h.size = 0 ∧ err = .empty ∧ sh' = sh) ∧
      (h.peek = .error err ↔ h.size = 0 ∧ err = .empty)) ∧
    (∀ {T : Type → Type} [Meldable T] [LawfulMeldable T] {P : Type} {prec : P → P → Bool}
        (h o h' : TrackedHeap T V P prec) (k : UInt64) (v : V) (p : P) (x : Entry V P)
        (sh sh' : Nat) (err : HeapError),
      (h.get k = .error err ↔ h.contains k = false ∧ err = .nodeNotFound) ∧
      (h.updateValue k v = .error err ↔ h.contains k = false ∧ err = .nodeNotFound) ∧
      (h.updatePriority k p = .error err ↔ h.contains k = false ∧ err = .nodeNotFound) ∧
      (h.update k v p = .error err ↔ h.contains k = false ∧ err = .nodeNotFound) ∧
      (h.remove k sh = (.error err, sh') ↔
        h.contains k = false ∧ err = .nodeNotFound ∧ sh' = sh) ∧
      (h.merge o = .error err ↔ (∃ k ∈ o.liveIds, h.contains k = true) ∧ err = .idCollision) ∧
      (h.push x sh = (.error err, h', sh') ↔ h.contains h.ids.next = true ∧
        err = .idCollision ∧ h' = { h with ids := h.ids.issue.2 } ∧ sh' = sh) ∧
      (h.pop sh = (.error err, sh') ↔ h.size = 0 ∧ err = .empty ∧ sh' = sh) ∧
      (h.peek = .error err ↔ h.size = 0 ∧ err = .empty)) ∧
    (∀ {prec : Int → Int → Bool} {G : Type} [Registry G Handle Nat] (arity : Nat)
        (s s' : Session (SessionDary prec G)) op st e,
      s.step (firstHandler [commonHandler (DaryHeap.new arity), daryHandler arity])
        DaryHeap.size op = (st, s') → st.outcome = .failed e → st.swaps = [] ∧ s' = s) ∧
    (∀ (bits : Nat) (s s' : Session (RadixHeap String)) op st e,
      s.step (firstHandler [commonHandler (RadixHeap.new bits), meldHandler, radixHandler])
        RadixHeap.size op = (st, s') → st.outcome = .failed e → st.swaps = [] ∧ s' = s) ∧
    (∀ {T : Type → Type} [Meldable T] {prec : Int → Int → Bool} (pool : ShellPool)
        (s s' : Session (TreeHeap T String Int prec)) op st e,
      s.step (firstHandler [commonHandler (TreeHeap.new pool), meldHandler, pooledHandler])
        TreeHeap.size op = (st, s') → st.outcome = .failed e → st.swaps = [] ∧ s' = s) ∧
    ∀ {T : Type → Type} [Meldable T] {prec : Int → Int → Bool} (ids : IdSequence)
        (pool : ShellPool) (s s' : Session (TrackedHeap T String Int prec)) op st e,
      s.step (firstHandler [commonHandler (TrackedHeap.new ids pool), meldHandler,
        pooledHandler, trackedHandler]) TrackedHeap.size op = (st, s') →
      st.outcome = .failed e → st.swaps = [] ∧ (s' = s ∨ e = .idCollision ∧ ∃ n h,
        s.heap? n = some h ∧
          (s' = s.put n (some { h with ids := h.ids.issue.2 }) ∨ s' = s.put n none)) :=
  ⟨fun _ _ _ _ _ => ⟨DaryHeap.get_eq_error_iff, DaryHeap.update_eq_error_iff,
      DaryHeap.removeAt_eq_error_iff, DaryHeap.pop_eq_error_iff, DaryHeap.peek_eq_error_iff,
      DaryHeap.popPush_eq_error_iff, DaryHeap.deregister_eq_error_iff,
      fun _ _ => DaryHeap.deregister_refused_after_deregister⟩,
    fun _ hr _ _ => ⟨RadixHeap.push_eq_error_iff, hr.filed.rebalance_eq_error_iff,
      hr.filed.pop_eq_error_iff, hr.filed.peek_eq_error_iff⟩,
    fun _ _ _ _ => ⟨TreeHeap.pop_eq_error_iff, TreeHeap.peek_eq_error_iff⟩,
    fun _ _ _ _ _ _ _ _ _ _ => ⟨TrackedHeap.get_eq_error_iff, TrackedHeap.updateValue_eq_error_iff,
      TrackedHeap.updatePriority_eq_error_iff, TrackedHeap.update_eq_error_iff,
      TrackedHeap.remove_eq_error_iff, TrackedHeap.merge_eq_error_iff,
      TrackedHeap.push_eq_error_iff, TrackedHeap.pop_eq_error_iff, TrackedHeap.peek_eq_error_iff⟩,
    fun _ _ _ _ _ _ hstep hf => Session.step_dary_of_failed hstep hf,
    fun _ _ _ _ _ _ hstep hf => Session.step_radix_of_failed hstep hf,
    fun _ _ _ _ _ _ hstep hf => Session.step_tree_of_failed hstep hf,
    fun _ _ _ _ _ _ _ hstep hf => Session.step_tracked_of_failed hstep hf⟩

theorem new_heaps_refuse :
    (RadixHeap.new 8 : RadixHeap String).Reachable ∧
      (RadixHeap.new 8 : RadixHeap String).rebalance = .error .empty ∧
      (TrackedHeap.new (.startingAt 0) (.own 0) :
        TrackedHeap PairingHeap String Int Ranking.ascending.precedes).get 0 = .error .nodeNotFound :=
  ⟨.new 8,
    ((refused_operations_change_nothing.2.1 _ (.new 8) ⟨"a", 0⟩ .empty).2.1).2 (.inl ⟨rfl, rfl⟩),
    ((refused_operations_change_nothing.2.2.2.1 _ (TrackedHeap.new (.startingAt 0) (.own 0))
      (TrackedHeap.new (.startingAt 0) (.own 0)) 0 "a" 0 ⟨"a", 0⟩ 0 0 .nodeNotFound).1).2
      ⟨rfl, rfl⟩⟩

end Script

end PriorityQueues
