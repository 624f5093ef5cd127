import Mathlib
import PriorityQueues.Proofs.TreeQueue
import PriorityQueues.Proofs.Pairing
import PriorityQueues.Proofs.Skew
import PriorityQueues.Proofs.Leftist
import PriorityQueues.Proofs.Dary
import PriorityQueues.Script.Dary
import PriorityQueues.Script.Trees
import PriorityQueues.Proofs.SessionSlots

/-!
Engines that answer alike. Sessions whose slots hold the same priorities give the same records,
values blanked, for every operation all engines share, provided each heap is a lawful multiset
queue for as many more steps as the script has (`run_agree`).
-/

namespace PriorityQueues.Script

/-! ## Records with the values blanked out -/

def Reply.forgetValues : Reply → Reply
  | .text _ => .text ""
  | .entry _ p => .entry "" p
  | .entries es => .entries (es.map fun e => ("", e.2))
  | r => r

def Outcome.forgetValues : Outcome → Outcome
  | .ok r => .ok r.forgetValues
  | o => o

@[simp]
theorem Outcome.forgetValues_ok (r : Reply) : (Outcome.ok r).forgetValues = .ok r.forgetValues :=
  rfl

def Step.forgetValues (st : Step) : Step := { st with outcome := st.outcome.forgetValues }

def sharedOps : List String :=
  ["push", "pop", "pop_value", "pop_priority", "peek", "peek_value", "peek_priority", "len",
    "is_empty", "clear", "drain", "snapshot", "clone", "new"]

/-! ## Lawful queues -/

/-- A queue of a session whose heaps behave as multiset priority queues under `prec` while they
satisfy `inv k`, an invariant good for `k` more operations: each operation acts on the multiset
`elems` of entries as the multiset description says and leaves the invariant for one operation
fewer, priorities are read and shown as they are, and no listener hears a swap. -/
structure LawfulQueue (H : Type) [Queue H Int] (prec : Int → Int → Bool) where
  elems : H → Multiset (Entry String Int)
  inv : Nat → H → Prop
  mono : ∀ k (h : H), inv (k + 1) h → inv k h
  readPriority : ∀ h : H, Queue.readPriority h = signedPriority?
  showPriority : ∀ p, Queue.showPriority H p = p
  hearers : ∀ k (h : H), inv k h → Queue.hearers h = []
  size : ∀ k (h : H), inv k h → Queue.size h = Multiset.card (elems h)
  push : ∀ k (h : H) e s, inv (k + 1) h → (Queue.push h e s).result = .ok .unit ∧
    inv k (Queue.push h e s).heap ∧ elems (Queue.push h e s).heap = e ::ₘ elems h
  pop : ∀ k (h : H) s, inv (k + 1) h →
    PopsMinimal prec (elems h) ((Queue.pop h s).result.map fun e => (e, elems (Queue.pop h s).heap))
  pop_inv : ∀ k (h : H) s, inv (k + 1) h → inv k (Queue.pop h s).heap
  /-- A failed pop leaves the entries as they were. -/
  pop_error : ∀ k (h : H) s err, inv (k + 1) h → (Queue.pop h s).result = .error err →
    elems (Queue.pop h s).heap = elems h
  /-- A peek answers what a pop would. -/
  peek : ∀ k (h : H) s, inv (k + 1) h → Queue.peek h = (Queue.pop h s).result
  clear : ∀ k (h : H) s, inv (k + 1) h → inv k (Queue.clear h s).1 ∧ elems (Queue.clear h s).1 = 0
  drain : ∀ k (h : H) s, inv (k + 1) h → Drains prec (elems h) (Queue.drain h s).1
  snapshot : ∀ k (h : H) s, inv (k + 1) h → Drains prec (elems h) (Queue.snapshot h s).1
  copy : ∀ k (h : H) s, inv (k + 1) h →
    inv k (Queue.copy h s).1 ∧ elems (Queue.copy h s).1 = elems h

namespace LawfulQueue

variable {H : Type} [Queue H Int] {prec : Int → Int → Bool} (A : LawfulQueue H prec)

theorem heard_eq_nil {k : Nat} {h : H} (hi : A.inv k h) (sw : Swaps) : heard h sw = [] := by
  unfold heard
  rw [A.hearers k h hi]
  split <;> simp

include A in
theorem entryReply_forgetValues (e : Entry String Int) :
    (entryReply (H := H) e).forgetValues = .entry "" e.priority := by
  rw [entryReply, A.showPriority]
  rfl

include A in
theorem entriesReply_forgetValues (es : List (Entry String Int)) :
    (entriesReply (H := H) es).forgetValues =
      .entries ((es.map Entry.priority).map fun p => ("", p)) := by
  simp only [entriesReply, Reply.forgetValues, List.map_map, A.showPriority]
  rfl

end LawfulQueue

/-! ## Agreement of heaps, sessions and operations -/

section Agree

variable {H₁ H₂ : Type} [Queue H₁ Int] [Queue H₂ Int] {prec : Int → Int → Bool}
  (A : LawfulQueue H₁ prec) (B : LawfulQueue H₂ prec)

/-- Two heaps that satisfy their invariants for `k` more operations and hold the same priorities. -/
structure HeapsAgree (k : Nat) (h₁ : H₁) (h₂ : H₂) : Prop where
  inv₁ : A.inv k h₁
  inv₂ : B.inv k h₂
  priorities : (A.elems h₁).map Entry.priority = (B.elems h₂).map Entry.priority

def SessionsAgree (k : Nat) (s₁ : Session H₁) (s₂ : Session H₂) : Prop :=
  ∀ n : Nat, Option.Rel (Option.Rel (HeapsAgree A B k)) s₁.slots[n]? s₂.slots[n]?

def RanAgree (k : Nat) : Check (Ran H₁) → Check (Ran H₂) → Prop
  | .error w₁, .error w₂ => w₁ = w₂
  | .ok (o₁, t₁, sw₁), .ok (o₂, t₂, sw₂) =>
    o₁.forgetValues = o₂.forgetValues ∧ SessionsAgree A B k t₁ t₂ ∧ sw₁ = sw₂
  | _, _ => False

def HandlersAgree (N : Nat) (run₁ : Handler H₁) (run₂ : Handler H₂) : Prop :=
  ∀ k op s₁ s₂, k < N → SessionsAgree A B (k + 1) s₁ s₂ → RanAgree A B k (run₁ op s₁) (run₂ op s₂)

variable {A B}

section Heaps

variable {k : Nat} {h₁ : H₁} {h₂ : H₂}

theorem HeapsAgree.mono (hh : HeapsAgree A B (k + 1) h₁ h₂) : HeapsAgree A B k h₁ h₂ :=
  ⟨A.mono k h₁ hh.inv₁, B.mono k h₂ hh.inv₂, hh.priorities⟩

theorem HeapsAgree.size_eq (hh : HeapsAgree A B k h₁ h₂) : Queue.size h₁ = Queue.size h₂ := by
  rw [A.size k h₁ hh.inv₁, B.size k h₂ hh.inv₂, ← Multiset.card_map Entry.priority,
    hh.priorities, Multiset.card_map]

theorem heapsAgree_of_empty (hi₁ : A.inv k h₁) (hi₂ : B.inv k h₂) (he₁ : A.elems h₁ = 0)
    (he₂ : B.elems h₂ = 0) : HeapsAgree A B k h₁ h₂ :=
  ⟨hi₁, hi₂, by rw [he₁, he₂]⟩

theorem HeapsAgree.push (hh : HeapsAgree A B (k + 1) h₁ h₂) (e : Entry String Int)
    (s₁ s₂ : Nat) : HeapsAgree A B k (Queue.push h₁ e s₁).heap (Queue.push h₂ e s₂).heap := by
  obtain ⟨-, hi₁, he₁⟩ := A.push k h₁ e s₁ hh.inv₁
  obtain ⟨-, hi₂, he₂⟩ := B.push k h₂ e s₂ hh.inv₂
  exact ⟨hi₁, hi₂, by rw [he₁, he₂, Multiset.map_cons, Multiset.map_cons, hh.priorities]⟩

theorem except_map_eq_error {ε α β : Type} {f : α → β} {x : Except ε α} {err : ε}
    (h : x.map f = .error err) : x = .error err := by
  cases x with
  | error e =>
    simp only [Except.map, Except.error.injEq] at h
    rw [h]
  | ok a => cases h

theorem except_map_eq_ok {ε α β : Type} {f : α → β} {x : Except ε α} {b : β}
    (h : x.map f = .ok b) : ∃ a, x = .ok a ∧ f a = b := by
  cases x with
  | error e => cases h
  | ok a => exact ⟨a, rfl, Except.ok.inj h⟩

theorem HeapsAgree.pop (ht : TotalOrder prec) (hh : HeapsAgree A B (k + 1) h₁ h₂) (s₁ s₂ : Nat) :
    (Queue.pop h₁ s₁).result.map Entry.priority = (Queue.pop h₂ s₂).result.map Entry.priority ∧
      HeapsAgree A B k (Queue.pop h₁ s₁).heap (Queue.pop h₂ s₂).heap := by
  have hi₁ := A.pop_inv k h₁ s₁ hh.inv₁
  have hi₂ := B.pop_inv k h₂ s₂ hh.inv₂
  rcases (A.pop k h₁ s₁ hh.inv₁).priority_eq ht (B.pop k h₂ s₂ hh.inv₂) hh.priorities with
    ⟨h0₁, h0₂, hr₁, hr₂⟩ | ⟨e₁, e₂, L₁, L₂, hr₁, hr₂, he, hL⟩
  · -- both heaps are empty: both pops fail and leave them empty
    have hd₁ := except_map_eq_error hr₁
    have hd₂ := except_map_eq_error hr₂
    refine ⟨by rw [hd₁, hd₂], heapsAgree_of_empty hi₁ hi₂ ?_ ?_⟩
    · rw [A.pop_error k h₁ s₁ _ hh.inv₁ hd₁, h0₁]
    · rw [B.pop_error k h₂ s₂ _ hh.inv₂ hd₂, h0₂]
  · obtain ⟨a₁, hd₁, ha₁⟩ := except_map_eq_ok hr₁
    obtain ⟨a₂, hd₂, ha₂⟩ := except_map_eq_ok hr₂
    obtain ⟨rfl, hL₁⟩ := Prod.mk.inj ha₁
    obtain ⟨rfl, hL₂⟩ := Prod.mk.inj ha₂
    refine ⟨by rw [hd₁, hd₂]; exact congrArg Except.ok he, hi₁, hi₂, ?_⟩
    rw [hL₁, hL₂]
    exact hL

theorem HeapsAgree.drain (ht : TotalOrder prec) (hh : HeapsAgree A B (k + 1) h₁ h₂)
    (s₁ s₂ : Nat) :
    (Queue.drain h₁ s₁).1.map Entry.priority = (Queue.drain h₂ s₂).1.map Entry.priority :=
  (A.drain k h₁ s₁ hh.inv₁).map_priority_eq ht (B.drain k h₂ s₂ hh.inv₂) hh.priorities

theorem HeapsAgree.snapshot (ht : TotalOrder prec) (hh : HeapsAgree A B (k + 1) h₁ h₂)
    (s₁ s₂ : Nat) :
    (Queue.snapshot h₁ s₁).1.map Entry.priority = (Queue.snapshot h₂ s₂).1.map Entry.priority :=
  (A.snapshot k h₁ s₁ hh.inv₁).map_priority_eq ht (B.snapshot k h₂ s₂ hh.inv₂) hh.priorities

end Heaps

section Sessions

variable {k : Nat} {s₁ : Session H₁} {s₂ : Session H₂}

theorem sessionsAgree_iff_slotsRel :
    SessionsAgree A B k s₁ s₂ ↔ SlotsRel (HeapsAgree A B k) s₁ s₂ :=
  Iff.rfl

theorem SessionsAgree.mono (hs : SessionsAgree A B (k + 1) s₁ s₂) : SessionsAgree A B k s₁ s₂ :=
  (sessionsAgree_iff_slotsRel.1 hs).mono fun _ _ hh => hh.mono

theorem SessionsAgree.size_eq (hs : SessionsAgree A B k s₁ s₂) :
    s₁.slots.size = s₂.slots.size :=
  (sessionsAgree_iff_slotsRel.1 hs).size_eq

theorem SessionsAgree.heap? (hs : SessionsAgree A B k s₁ s₂) (n : Nat) :
    Option.Rel (HeapsAgree A B k) (s₁.heap? n) (s₂.heap? n) :=
  (sessionsAgree_iff_slotsRel.1 hs).heap? n

theorem SessionsAgree.lens (hs : SessionsAgree A B k s₁ s₂) :
    s₁.lens Queue.size = s₂.lens Queue.size :=
  (sessionsAgree_iff_slotsRel.1 hs).lens fun _ _ hh => hh.size_eq

theorem SessionsAgree.put (hs : SessionsAgree A B k s₁ s₂) (n : Nat) {o₁ : Option H₁}
    {o₂ : Option H₂} (ho : Option.Rel (HeapsAgree A B k) o₁ o₂) :
    SessionsAgree A B k (s₁.put n o₁) (s₂.put n o₂) :=
  (sessionsAgree_iff_slotsRel.1 hs).put n ho

theorem SessionsAgree.add (hs : SessionsAgree A B k s₁ s₂) {h₁ : H₁} {h₂ : H₂}
    (hh : HeapsAgree A B k h₁ h₂) :
    (s₁.add h₁).1 = (s₂.add h₂).1 ∧ SessionsAgree A B k (s₁.add h₁).2 (s₂.add h₂).2 :=
  (sessionsAgree_iff_slotsRel.1 hs).add hh

theorem sessionsAgree_start {h₁ : H₁} {h₂ : H₂} (hh : HeapsAgree A B k h₁ h₂) :
    SessionsAgree A B k (Session.start h₁) (Session.start h₂) :=
  slotsRel_start hh

end Sessions

section Results

variable {k : Nat} {s₁ : Session H₁} {s₂ : Session H₂}

theorem RanAgree.cases {r₁ : Check (Ran H₁)} {r₂ : Check (Ran H₂)} (h : RanAgree A B k r₁ r₂) :
    (∃ w, r₁ = .error w ∧ r₂ = .error w) ∨
      ∃ o₁ o₂ t₁ t₂ sw, r₁ = .ok (o₁, t₁, sw) ∧ r₂ = .ok (o₂, t₂, sw) ∧
        o₁.forgetValues = o₂.forgetValues ∧ SessionsAgree A B k t₁ t₂ := by
  match r₁, r₂, h with
  | .error w, .error _, rfl => exact .inl ⟨w, rfl, rfl⟩
  | .ok (o₁, t₁, sw), .ok (o₂, t₂, _), ⟨ho, ht, rfl⟩ =>
    exact .inr ⟨o₁, o₂, t₁, t₂, sw, rfl, rfl, ho, ht⟩

theorem ranAgree_pure {o₁ o₂ : Outcome} {t₁ : Session H₁} {t₂ : Session H₂}
    {sw₁ sw₂ : List (Nat × Swaps)} (ho : o₁.forgetValues = o₂.forgetValues)
    (ht : SessionsAgree A B k t₁ t₂) (hsw : sw₁ = sw₂) :
    RanAgree A B k (pure (o₁, t₁, sw₁)) (pure (o₂, t₂, sw₂)) :=
  ⟨ho, ht, hsw⟩

theorem ranAgree_bind {α : Type} (x : Check α) {f₁ : α → Check (Ran H₁)}
    {f₂ : α → Check (Ran H₂)} (hf : ∀ a, RanAgree A B k (f₁ a) (f₂ a)) :
    RanAgree A B k (x >>= f₁) (x >>= f₂) := by
  cases x with
  | error w => exact (rfl : w = w)
  | ok a => exact hf a

theorem SessionsAgree.target_bind {j : Nat} (hs : SessionsAgree A B j s₁ s₂) (op : Json)
    {f₁ : Nat × H₁ → Check (Ran H₁)} {f₂ : Nat × H₂ → Check (Ran H₂)}
    (hf : ∀ n h₁ h₂, HeapsAgree A B j h₁ h₂ → RanAgree A B k (f₁ (n, h₁)) (f₂ (n, h₂))) :
    RanAgree A B k (s₁.target op >>= f₁) (s₂.target op >>= f₂) :=
  (sessionsAgree_iff_slotsRel.1 hs).slot_bind op "h" (some 0) (fun w => (rfl : w = w)) hf

theorem outcomeOf_forgetValues {r₁ r₂ : Except HeapError (Entry String Int)}
    {f₁ f₂ : Entry String Int → Reply} (hr : r₁.map Entry.priority = r₂.map Entry.priority)
    (hf : ∀ e₁ e₂ : Entry String Int, e₁.priority = e₂.priority →
      (f₁ e₁).forgetValues = (f₂ e₂).forgetValues) :
    (outcomeOf r₁ f₁).forgetValues = (outcomeOf r₂ f₂).forgetValues := by
  cases r₁ with
  | error e₁ =>
    cases r₂ with
    | error e₂ =>
      cases hr
      rfl
    | ok _ => cases hr
  | ok e₁ =>
    cases r₂ with
    | error _ => cases hr
    | ok e₂ => exact congrArg Outcome.ok (hf e₁ e₂ (Except.ok.inj hr))

end Results

/-! ## The operations every engine shares -/

section Handlers

variable {N : Nat} {fresh₁ : H₁} {fresh₂ : H₂}

variable (A B) in
include A B in
theorem entryReply_agree (e₁ e₂ : Entry String Int) (he : e₁.priority = e₂.priority) :
    (entryReply (H := H₁) e₁).forgetValues = (entryReply (H := H₂) e₂).forgetValues := by
  rw [A.entryReply_forgetValues, B.entryReply_forgetValues, he]

variable (A B) in
include A B in
theorem numberReply_agree (e₁ e₂ : Entry String Int) (he : e₁.priority = e₂.priority) :
    (Reply.number (Queue.showPriority H₁ e₁.priority)).forgetValues =
      (Reply.number (Queue.showPriority H₂ e₂.priority)).forgetValues := by
  rw [A.showPriority, B.showPriority, he]

theorem popWith_agree (ht : TotalOrder prec) {f₁ f₂ : Entry String Int → Reply}
    (hf : ∀ e₁ e₂ : Entry String Int, e₁.priority = e₂.priority →
      (f₁ e₁).forgetValues = (f₂ e₂).forgetValues) :
    HandlersAgree A B N (popWith f₁) (popWith f₂) := by
  intro k op s₁ s₂ _ hs
  apply hs.target_bind
  intro n h₁ h₂ hh
  obtain ⟨hr, hh'⟩ := hh.pop ht s₁.shared s₂.shared
  exact ranAgree_pure (outcomeOf_forgetValues hr hf) (hs.mono.put n (.some hh'))
    (by rw [A.heard_eq_nil hh.inv₁, B.heard_eq_nil hh.inv₂])

theorem peekWith_agree (ht : TotalOrder prec) {f₁ f₂ : Entry String Int → Reply}
    (hf : ∀ e₁ e₂ : Entry String Int, e₁.priority = e₂.priority →
      (f₁ e₁).forgetValues = (f₂ e₂).forgetValues) :
    HandlersAgree A B N (peekWith f₁) (peekWith f₂) := by
  intro k op s₁ s₂ _ hs
  apply hs.target_bind
  intro n h₁ h₂ hh
  have hr : (Queue.peek h₁).map Entry.priority = (Queue.peek h₂).map Entry.priority := by
    rw [A.peek k h₁ 0 hh.inv₁, B.peek k h₂ 0 hh.inv₂]
    exact (hh.pop ht 0 0).1
  exact ranAgree_pure (outcomeOf_forgetValues hr hf) hs.mono rfl

theorem push_agree :
    Option.Rel (HandlersAgree A B N) (commonHandler fresh₁ "push")
      (commonHandler fresh₂ "push") := by
  refine .some fun k op s₁ s₂ _ hs => ?_
  apply hs.target_bind
  intro n h₁ h₂ hh
  apply ranAgree_bind
  intro v
  -- both engines read the priority field alike
  rw [A.readPriority h₁, B.readPriority h₂]
  apply ranAgree_bind
  intro p
  have hr₁ := (A.push k h₁ ⟨v, p⟩ s₁.shared hh.inv₁).1
  have hr₂ := (B.push k h₂ ⟨v, p⟩ s₂.shared hh.inv₂).1
  refine ranAgree_pure ?_ (hs.mono.put n (.some (hh.push _ _ _)))
    (by rw [A.heard_eq_nil hh.inv₁, B.heard_eq_nil hh.inv₂])
  rw [hr₁, hr₂]

theorem clear_agree :
    Option.Rel (HandlersAgree A B N) (commonHandler fresh₁ "clear")
      (commonHandler fresh₂ "clear") := by
  refine .some fun k op s₁ s₂ _ hs => hs.target_bind op fun n h₁ h₂ hh => ?_
  obtain ⟨hi₁, he₁⟩ := A.clear k h₁ s₁.shared hh.inv₁
  obtain ⟨hi₂, he₂⟩ := B.clear k h₂ s₂.shared hh.inv₂
  exact ranAgree_pure rfl (hs.mono.put n (.some (heapsAgree_of_empty hi₁ hi₂ he₁ he₂))) rfl

theorem drain_agree (ht : TotalOrder prec) :
    Option.Rel (HandlersAgree A B N) (commonHandler fresh₁ "drain")
      (commonHandler fresh₂ "drain") := by
  refine .some fun k op s₁ s₂ _ hs => hs.target_bind op fun n h₁ h₂ hh => ?_
  refine ranAgree_pure ?_ (hs.mono.put n .none)
    (by rw [A.heard_eq_nil hh.inv₁, B.heard_eq_nil hh.inv₂])
  simp only [Outcome.forgetValues_ok, A.entriesReply_forgetValues, B.entriesReply_forgetValues]
  rw [hh.drain ht]

theorem snapshot_agree (ht : TotalOrder prec) :
    Option.Rel (HandlersAgree A B N) (commonHandler fresh₁ "snapshot")
      (commonHandler fresh₂ "snapshot") := by
  refine .some fun k op s₁ s₂ _ hs => hs.target_bind op fun n h₁ h₂ hh => ?_
  refine ranAgree_pure ?_ hs.mono rfl
  simp only [Outcome.forgetValues_ok, A.entriesReply_forgetValues, B.entriesReply_forgetValues]
  rw [hh.snapshot ht]

theorem clone_agree :
    Option.Rel (HandlersAgree A B N) (commonHandler fresh₁ "clone")
      (commonHandler fresh₂ "clone") := by
  refine .some fun k op s₁ s₂ _ hs => hs.target_bind op fun n h₁ h₂ hh => ?_
  obtain ⟨hi₁, he₁⟩ := A.copy k h₁ s₁.shared hh.inv₁
  obtain ⟨hi₂, he₂⟩ := B.copy k h₂ s₂.shared hh.inv₂
  have hc : HeapsAgree A B k (Queue.copy h₁ s₁.shared).1 (Queue.copy h₂ s₂.shared).1 :=
    ⟨hi₁, hi₂, by rw [he₁, he₂]; exact hh.priorities⟩
  -- the copy goes into a new slot at the end of both sessions
  have hs₀ : SessionsAgree A B k { s₁ with shared := (Queue.copy h₁ s₁.shared).2 }
      { s₂ with shared := (Queue.copy h₂ s₂.shared).2 } := hs.mono
  exact ranAgree_pure (by simp only [hs.size_eq]) (hs₀.add hc).2 rfl

theorem new_agree (hf : ∀ k < N, HeapsAgree A B k fresh₁ fresh₂) :
    Option.Rel (HandlersAgree A B N) (commonHandler fresh₁ "new")
      (commonHandler fresh₂ "new") := by
  refine .some fun k _ s₁ s₂ hk hs => ?_
  exact ranAgree_pure (by rw [hs.size_eq]) (hs.mono.add (hf k hk)).2 rfl

theorem commonHandler_agree (ht : TotalOrder prec) (hf : ∀ k < N, HeapsAgree A B k fresh₁ fresh₂)
    {name : String} (hn : name ∈ sharedOps) :
    Option.Rel (HandlersAgree A B N) (commonHandler fresh₁ name)
      (commonHandler fresh₂ name) := by
  simp only [sharedOps, List.mem_cons, List.not_mem_nil, or_false] at hn
  rcases hn with rfl | rfl | rfl | rfl | rfl | rfl | rfl | rfl | rfl | rfl | rfl | rfl | rfl | rfl
  · exact push_agree
  · exact .some (popWith_agree ht (entryReply_agree A B))
  · exact .some (popWith_agree ht fun _ _ _ => rfl)
  · exact .some (popWith_agree ht (numberReply_agree A B))
  · exact .some (peekWith_agree ht (entryReply_agree A B))
  · exact .some (peekWith_agree ht fun _ _ _ => rfl)
  · exact .some (peekWith_agree ht (numberReply_agree A B))
  · exact .some fun _ op _ _ _ hs => hs.target_bind op fun _ _ _ hh =>
      ranAgree_pure (by rw [hh.size_eq]) hs.mono rfl
  · exact .some fun _ op _ _ _ hs => hs.target_bind op fun _ _ _ hh =>
      ranAgree_pure (by rw [hh.size_eq]) hs.mono rfl
  · exact clear_agree
  · exact drain_agree ht
  · exact snapshot_agree ht
  · exact clone_agree
  · exact new_agree hf

end Handlers

/-! ## Steps and runs -/

section Runs

variable {s₁ : Session H₁} {s₂ : Session H₂} {hd₁ : String → Option (Handler H₁)}
  {hd₂ : String → Option (Handler H₂)}

theorem step_agree {N k : Nat} {op : Json} (hk : k < N) (hs : SessionsAgree A B (k + 1) s₁ s₂)
    (hh : Option.Rel (HandlersAgree A B N) (hd₁ (opName op)) (hd₂ (opName op))) :
    (s₁.step hd₁ Queue.size op).1.forgetValues = (s₂.step hd₂ Queue.size op).1.forgetValues ∧
      SessionsAgree A B k (s₁.step hd₁ Queue.size op).2 (s₂.step hd₂ Queue.size op).2 := by
  dsimp only [Session.step]
  generalize hd₁ (opName op) = o₁ at hh ⊢
  generalize hd₂ (opName op) = o₂ at hh ⊢
  cases hh with
  | none => exact ⟨by simp only [Step.forgetValues, hs.lens], hs.mono⟩
  | @some run₁ run₂ hrun =>
    rcases (hrun k op s₁ s₂ hk hs).cases with
      ⟨w, hr₁, hr₂⟩ | ⟨o₁, o₂, t₁, t₂, sw, hr₁, hr₂, ho, ht⟩
    · simp only [hr₁, hr₂]
      exact ⟨by simp only [Step.forgetValues, hs.lens], hs.mono⟩
    · simp only [hr₁, hr₂]
      exact ⟨by simp only [Step.forgetValues, ho, ht.lens], ht⟩

theorem run_agree {N : Nat} {ops : List Json} (hN : ops.length ≤ N)
    (hh : ∀ op ∈ ops, Option.Rel (HandlersAgree A B N) (hd₁ (opName op)) (hd₂ (opName op)))
    (hs : SessionsAgree A B ops.length s₁ s₂) :
    (Session.run hd₁ Queue.size s₁ ops).map Step.forgetValues =
      (Session.run hd₂ Queue.size s₂ ops).map Step.forgetValues := by
  -- the induction runs along the script, carrying the agreement of the sessions for the
  -- operations still to come
  induction ops generalizing s₁ s₂ with
  | nil => rfl
  | cons op ops ih =>
    have hk : ops.length < N := hN
    obtain ⟨hstep, hs'⟩ := step_agree hk hs (hh op List.mem_cons_self)
    simp only [Session.run, List.map_cons, hstep,
      ih (Nat.le_of_lt hk) (fun op' h' => hh op' (List.mem_cons_of_mem op h')) hs']

end Runs

end Agree

/-! ## Array heaps and tree heaps -/

section Engines

variable {prec : Int → Int → Bool}

theorem commonHandler_isSome {H : Type} [Queue H Int] {fresh : H} {name : String}
    (hn : name ∈ sharedOps) : (commonHandler fresh name).isSome := by
  simp only [sharedOps, List.mem_cons, List.not_mem_nil, or_false] at hn
  rcases hn with rfl | rfl | rfl | rfl | rfl | rfl | rfl | rfl | rfl | rfl | rfl | rfl | rfl |
    rfl <;> rfl

theorem firstHandler_of_shared {H : Type} [Queue H Int] {fresh : H}
    {rest : List (String → Option (Handler H))} {name : String} (hn : name ∈ sharedOps) :
    firstHandler (commonHandler fresh :: rest) name = commonHandler fresh name := by
  have hsome : (commonHandler fresh name).isSome := commonHandler_isSome hn
  obtain ⟨run, hrun⟩ := Option.isSome_iff_exists.1 hsome
  rw [firstHandler, List.findSome?_cons, hrun]

theorem dary_queue_pop {R : Type} [Registry R Handle Nat] (h : SessionDary prec R) (s : Nat) :
    (∃ e h' sw, h.pop = .ok (e, h', sw) ∧ (Queue.pop h s).result = .ok e ∧
      (Queue.pop h s).heap = h') ∨
    (∃ err, h.pop = .error err ∧ (Queue.pop h s).result = .error err ∧
      (Queue.pop h s).heap = h) := by
  cases hpop : h.pop with
  | ok r =>
    obtain ⟨e, h', sw⟩ := r
    exact .inl ⟨e, h', sw, rfl, by simp only [Queue.pop, hpop], by simp only [Queue.pop, hpop]⟩
  | error err =>
    exact .inr ⟨err, rfl, by simp only [Queue.pop, hpop], by simp only [Queue.pop, hpop]⟩

def daryQueue (hp : StrictWeakOrder prec) : LawfulQueue (SessionDary prec (Listeners Nat)) prec where
  elems := DaryHeap.elems
  inv k h := h.Reachable ∧ h.FitsFor k
  mono _ _ hi := ⟨hi.1, hi.2.of_size_le rfl (by omega)⟩
  readPriority _ := rfl
  showPriority _ := rfl
  hearers _ h hi := by
    show Registry.listeners h.listeners = []
    rw [hi.1.listeners_eq_empty]
    rfl
  size _ h _ := DaryHeap.size_eq_card h
  push _ h e _ hi :=
    ⟨rfl, ⟨.push e hi.1, hi.2.of_size_le rfl
      (show (h.push e).1.size + _ ≤ _ by rw [DaryHeap.size_push]; omega)⟩,
      (hi.1.meetsSpec hp hi.2.fits).push e⟩
  pop _ h s hi := by
    have hspec := (hi.1.meetsSpec hp hi.2.fits).pop
    rcases dary_queue_pop h s with ⟨e, h', sw, hpop, hr', hh'⟩ | ⟨err, hpop, hr', hh'⟩ <;>
      rw [hpop] at hspec <;> rw [hr', hh'] <;> exact hspec
  pop_inv _ h s hi := by
    rcases dary_queue_pop h s with ⟨e, h', sw, hpop, -, hh'⟩ | ⟨err, -, -, hh'⟩ <;> rw [hh']
    · -- the pop sifts in words and takes an entry away
      have hsize := DaryHeap.size_of_pop hpop
      exact ⟨.pop hi.1 hi.2.fits hpop, hi.2.of_size_le (DaryHeap.pop_frame hpop).1 (by omega)⟩
    · exact ⟨hi.1, hi.2.of_size_le rfl (by omega)⟩
  pop_error _ h s err _ herr := by
    rcases dary_queue_pop h s with ⟨e, h', sw, -, hr', -⟩ | ⟨err', -, -, hh'⟩
    · rw [hr'] at herr
      cases herr
    · rw [hh']
  peek _ h s hi := by
    have hspec := (hi.1.meetsSpec hp hi.2.fits).peek
    rcases dary_queue_pop h s with ⟨e, h', sw, hpop, hr', -⟩ | ⟨err, hpop, hr', -⟩ <;>
      rw [hpop] at hspec <;> rw [hr'] <;> exact hspec
  clear k h _ hi := ⟨⟨.clear hi.1, hi.2.of_size_le rfl (show 0 + k ≤ h.size + (k + 1) by omega)⟩,
    (hi.1.meetsSpec hp hi.2.fits).clear⟩
  drain _ h _ hi := (hi.1.meetsSpec hp hi.2.fits).drain
  snapshot _ h _ hi := (hi.1.copy.meetsSpec hp hi.2.fits).drain
  copy k h _ hi :=
    ⟨⟨.copy hi.1, hi.2.of_size_le rfl (show h.size + k ≤ h.size + (k + 1) by omega)⟩, rfl⟩

section Trees

variable {T : Type → Type} [Meldable T] [LawfulMeldable T]

omit [LawfulMeldable T] in
theorem tree_queue_pop (h : TreeHeap T String Int prec) (s : Nat) :
    (∃ e h' s', h.pop s = (.ok (e, h'), s') ∧ (Queue.pop h s).result = .ok e ∧
      (Queue.pop h s).heap = h') ∨
    (∃ err s', h.pop s = (.error err, s') ∧ (Queue.pop h s).result = .error err ∧
      (Queue.pop h s).heap = h) := by
  rcases hpop : h.pop s with ⟨_ | ⟨e, h'⟩, s'⟩
  · exact .inr ⟨_, s', rfl, by simp only [Queue.pop, hpop], by simp only [Queue.pop, hpop]⟩
  · exact .inl ⟨e, h', s', rfl, by simp only [Queue.pop, hpop], by simp only [Queue.pop, hpop]⟩

def treeQueue (hp : StrictWeakOrder prec) : LawfulQueue (TreeHeap T String Int prec) prec where
  elems := TreeHeap.elems
  inv _ := TreeHeap.Reachable
  mono _ _ hr := hr
  readPriority _ := rfl
  showPriority _ := rfl
  hearers _ _ _ := rfl
  size _ h _ := TreeHeap.size_eq_card h
  push _ h e s hr := ⟨rfl, .push e s hr, (hr.meetsSpec hp).push e s⟩
  pop _ h s hr := by
    have hspec := (hr.meetsSpec hp).pop s
    rcases tree_queue_pop h s with ⟨e, h', s', hpop, hr', hh'⟩ | ⟨err, s', hpop, hr', hh'⟩ <;>
      rw [hpop] at hspec <;> rw [hr', hh'] <;> exact hspec
  pop_inv _ h s hr := by
    rcases tree_queue_pop h s with ⟨e, h', s', hpop, -, hh'⟩ | ⟨err, s', -, -, hh'⟩ <;> rw [hh']
    · exact .pop hr hpop
    · exact hr
  pop_error _ h s err _ herr := by
    rcases tree_queue_pop h s with ⟨e, h', s', -, hr', -⟩ | ⟨err', s', -, -, hh'⟩
    · rw [hr'] at herr
      cases herr
    · rw [hh']
  peek _ h s hr := by
    have hspec := (hr.meetsSpec hp).peek s
    rcases tree_queue_pop h s with ⟨e, h', s', hpop, hr', -⟩ | ⟨err, s', hpop, hr', -⟩ <;>
      rw [hpop] at hspec <;> rw [hr'] <;> exact hspec
  clear _ h s hr := ⟨.clear s hr, (hr.meetsSpec hp).clear s⟩
  drain _ h s hr := (hr.meetsSpec hp).drain s
  snapshot _ h s hr := ((hr.copy s).meetsSpec hp).drain _
  copy _ h s hr := ⟨.copy s hr, rfl⟩

theorem runDary_agrees_runTree {r : Ranking} (ht : TotalOrder r.precedes) (arity : Nat)
    (pool : ShellPool) {ops : List Json} (hops : ∀ op ∈ ops, opName op ∈ sharedOps)
    (hw : max arity 2 * ops.length + 1 < DaryHeap.wordSize) :
    (runDary arity r none ops).map Step.forgetValues =
      (runTree T r pool ops).map Step.forgetValues := by
  -- a script can add at most one entry per operation, so new heaps fit for all of it
  have hf : ∀ k ≤ ops.length, HeapsAgree (daryQueue r.strictWeakOrder)
      (treeQueue (T := T) r.strictWeakOrder) k (DaryHeap.new arity) (TreeHeap.new pool) := by
    intro k hk
    have hfits : (DaryHeap.new arity : SessionDary r.precedes (Listeners Nat)).FitsFor k := by
      show max arity 2 * (0 + k) + 1 < DaryHeap.wordSize
      have : max arity 2 * (0 + k) ≤ max arity 2 * ops.length :=
        Nat.mul_le_mul_left _ (by omega)
      exact Nat.lt_of_le_of_lt (Nat.add_le_add_right this 1) hw
    exact heapsAgree_of_empty ⟨.new arity, hfits⟩ (.new pool) rfl
      (TreeHeap.elems_of_tree_eq_empty rfl)
  apply run_agree le_rfl _ (sessionsAgree_start (hf _ le_rfl))
  intro op hop
  rw [firstHandler_of_shared (hops op hop), firstHandler_of_shared (hops op hop)]
  exact commonHandler_agree ht (fun k hk => hf k (Nat.le_of_lt hk)) (hops op hop)

end Trees

def tiedPushesThenPops : List Json :=
  [.obj [("op", .str "push"), ("v", .str "1"), ("p", .num "0")],
    .obj [("op", .str "push"), ("v", .str "2"), ("p", .num "0")],
    .obj [("op", .str "push"), ("v", .str "3"), ("p", .num "0")],
    .obj [("op", .str "pop")], .obj [("op", .str "pop")], .obj [("op", .str "pop")]]

/-- Array, pairing, skew and leftist heaps are multiset priority queues, and under a total order
sessions of them answer alike whenever the arity times the script's length fits in a word. -/
theorem heaps_are_multiset_queues {V P R K L : Type} [Registry R K L] {prec : P → P → Bool}
    (hp : StrictWeakOrder prec) :
    (∀ h : DaryHeap V P prec R, h.Reachable → h.Fits → h.MeetsSpec) ∧
    (∀ h : TreeHeap PairingHeap V P prec, h.Reachable → h.MeetsSpec) ∧
    (∀ h : TreeHeap SkewHeap V P prec, h.Reachable → h.MeetsSpec) ∧
    (∀ h : TreeHeap LeftistHeap V P prec, h.Reachable → h.MeetsSpec) ∧
    ∀ r : Ranking, TotalOrder r.precedes → ∀ (arity : Nat) (pool : ShellPool) (ops : List Json),
      (∀ op ∈ ops, opName op ∈ sharedOps) → max arity 2 * ops.length + 1 < DaryHeap.wordSize →
        (runDary arity r none ops).map Step.forgetValues =
          (runTree PairingHeap r pool ops).map Step.forgetValues ∧
        (runDary arity r none ops).map Step.forgetValues =
          (runTree SkewHeap r pool ops).map Step.forgetValues ∧
        (runDary arity r none ops).map Step.forgetValues =
          (runTree LeftistHeap r pool ops).map Step.forgetValues :=
  ⟨fun _ hr hw => hr.meetsSpec hp hw, fun _ hr => hr.meetsSpec hp, fun _ hr => hr.meetsSpec hp,
    fun _ hr => hr.meetsSpec hp, fun _ ht arity pool _ hops hw =>
      ⟨runDary_agrees_runTree ht arity pool hops hw, runDary_agrees_runTree ht arity pool hops hw,
        runDary_agrees_runTree ht arity pool hops hw⟩⟩

theorem heaps_are_multiset_queues_on_tied_entries :
    StrictWeakOrder Ranking.ascending.precedes ∧ TotalOrder Ranking.ascending.precedes ∧
      ((((DaryHeap.new 3 : SessionDary Ranking.ascending.precedes (Listeners Nat)).push
        ⟨"a", 2⟩).1.push ⟨"b", 1⟩).1.push ⟨"c", 1⟩).1.MeetsSpec ∧
      max 2 2 * tiedPushesThenPops.length + 1 < DaryHeap.wordSize ∧
      (runDary 2 .ascending none tiedPushesThenPops).map Step.forgetValues =
        (runTree LeftistHeap .ascending (.own 0) tiedPushesThenPops).map Step.forgetValues := by
  obtain ⟨hdary, -, -, -, hagree⟩ := heaps_are_multiset_queues (V := String) (R := Listeners Nat)
    (Ranking.strictWeakOrder .ascending)
  refine ⟨Ranking.strictWeakOrder _, Ranking.ascending_totalOrder,
    hdary _ (.push _ (.push _ (.push _ (.new 3)))) ?_, by decide, ?_⟩
  · unfold DaryHeap.Fits
    rw [DaryHeap.size_push, DaryHeap.size_push, DaryHeap.size_push]
    decide +kernel
  exact (hagree .ascending Ranking.ascending_totalOrder 2 (.own 0) tiedPushesThenPops
    (by decide +kernel) (by decide)).2.2

theorem tied_entries_pop_in_engine_order :
    (runDary 2 .ascending none tiedPushesThenPops).map Step.outcome =
      [.ok .unit, .ok .unit, .ok .unit, .ok (.entry "1" 0), .ok (.entry "3" 0),
        .ok (.entry "2" 0)] ∧
    (runTree LeftistHeap .ascending (.own 0) tiedPushesThenPops).map Step.outcome =
      [.ok .unit, .ok .unit, .ok .unit, .ok (.entry "1" 0), .ok (.entry "2" 0),
        .ok (.entry "3" 0)] :=
  ⟨by decide +kernel, by decide +kernel⟩

end Engines

end PriorityQueues.Script
