import PriorityQueues.Entry
import PriorityQueues.Error
import PriorityQueues.Dary.Listeners

/-!
Array d-ary heaps. The children of position `i` are `d * i + 1` to `d * i + d`, positions are
machine words, and every move is a swap reported to the heap's listeners. Sifting up stops at a
parent the entry does not strictly precede; sifting down takes the first child no later sibling
strictly precedes.
-/

namespace PriorityQueues

/-- A swap of the entries at two positions, reported as the pair of positions. -/
abbrev Swaps := List (Nat × Nat)

/-- An array d-ary heap ordered by `prec`, whose listeners, kept in a registry of type `R`, hear
its swaps. -/
structure DaryHeap (V P : Type) (prec : P → P → Bool) (R : Type) where
  arity : Nat
  two_le_arity : 2 ≤ arity
  data : Array (Entry V P)
  listeners : R

namespace DaryHeap

section Sift

variable {V P : Type} (prec : P → P → Bool)

/-- Whether the entry at position `i` strictly precedes the entry at position `j`; false when
either position is empty. -/
def beforeAt (a : Array (Entry V P)) (i j : Nat) : Bool :=
  match a[i]?, a[j]? with
  | some x, some y => prec x.priority y.priority
  | _, _ => false

/-- Moves the entry at `i` towards the root while it strictly precedes its parent. -/
def siftUp (d : Nat) (a : Array (Entry V P)) (i : Nat) : Array (Entry V P) × Swaps :=
  if h : i = 0 then (a, [])
  else
    let p := (i - 1) / d
    if beforeAt prec a i p then
      let r := siftUp d (a.swapIfInBounds i p) p
      (r.1, (i, p) :: r.2)
    else (a, [])
termination_by i
decreasing_by exact Nat.lt_of_le_of_lt (Nat.div_le_self _ _) (by omega)

/-- The best of the positions `first` to `last - 1`: a later position replaces the current choice
only when it strictly precedes it, so the first of tied children is kept. -/
def bestChild (a : Array (Entry V P)) (first last : Nat) : Nat :=
  (List.range' (first + 1) (last - (first + 1))).foldl
    (fun best c => if beforeAt prec a c best then c else best) first

theorem le_foldl_choose (a : Array (Entry V P)) (k : Nat) :
    ∀ (l : List Nat) (init : Nat), k ≤ init → (∀ c ∈ l, k ≤ c) →
      k ≤ l.foldl (fun best c => if beforeAt prec a c best then c else best) init
  | [], _, h, _ => h
  | c :: l, init, h, hl => by
    simp only [List.foldl_cons]
    apply le_foldl_choose a k l
    · split
      · exact hl c (by simp)
      · exact h
    · intro x hx
      exact hl x (by simp [hx])

theorem le_bestChild (a : Array (Entry V P)) (first last : Nat) :
    first ≤ bestChild prec a first last := by
  unfold bestChild
  apply le_foldl_choose prec a first _ _ (Nat.le_refl _)
  intro c hc
  simp [List.mem_range'] at hc
  omega

/-- The number of values of a machine word; arithmetic on positions wraps modulo this. -/
def wordSize : Nat := 18446744073709551616

/-- One round of sifting down from `i`, with the positions of the children computed in machine
words: the array after the entry trades places with its best child, and the child's position, or
`none` where sifting stops. -/
def downStep (d : Nat) (a : Array (Entry V P)) (i : Nat) : Option (Array (Entry V P) × Nat) :=
  let first := (d * i + 1) % wordSize
  if first < a.size then
    let best := bestChild prec a first (min ((first + d) % wordSize) a.size)
    if beforeAt prec a best i then some (a.swapIfInBounds i best, best) else none
  else none

/-- At most `fuel` rounds of `downStep`, with the swaps they make. -/
def siftDownFor (d : Nat) : Nat → Array (Entry V P) → Nat → Array (Entry V P) × Swaps
  | 0, a, _ => (a, [])
  | fuel + 1, a, i =>
    match downStep prec d a i with
    | some (b, j) =>
      let r := siftDownFor d fuel b j
      (r.1, (i, j) :: r.2)
    | none => (a, [])

/-- Moves the entry at `i` away from the root while its best child strictly precedes it, with
positions in machine words. -/
def siftDownWrapping (d : Nat) (a : Array (Entry V P)) (i : Nat) : Array (Entry V P) × Swaps :=
  siftDownFor prec d (Nat.pow a.size a.size * a.size + 1) a i

/-- The same loop with positions in unbounded numbers, where it always stops: each round moves to a
later position. -/
def siftDown (d : Nat) (hd : 0 < d) (a : Array (Entry V P)) (i : Nat) :
    Array (Entry V P) × Swaps :=
  let first := d * i + 1
  if first < a.size then
    let best := bestChild prec a first (min (first + d) a.size)
    if beforeAt prec a best i then
      let r := siftDown d hd (a.swapIfInBounds i best) best
      (r.1, (i, best) :: r.2)
    else (a, [])
  else (a, [])
termination_by a.size - i
decreasing_by
  have hb := le_bestChild prec a (d * i + 1) (min (d * i + 1 + d) a.size)
  have : i ≤ d * i := Nat.le_mul_of_pos_left i hd
  simp only [Array.size_swapIfInBounds]
  omega

/-- Restores heap order around a position whose entry was just replaced: up if the entry strictly
precedes its parent, down otherwise. -/
def repair (d : Nat) (a : Array (Entry V P)) (i : Nat) : Array (Entry V P) × Swaps :=
  if i ≠ 0 && beforeAt prec a i ((i - 1) / d) then siftUp prec d a i
  else siftDownWrapping prec d a i

/-- Heap order for a whole array, built bottom-up by a sift: every position from the parent of the
last one down to the root is sifted down. -/
def heapifyWith (sift : Array (Entry V P) → Nat → Array (Entry V P) × Swaps) (d : Nat)
    (a : Array (Entry V P)) : Array (Entry V P) × Swaps :=
  if 1 < a.size then
    ((List.range ((a.size - 2) / d + 1)).reverse).foldl
      (fun (acc : Array (Entry V P) × Swaps) i =>
        let r := sift acc.1 i
        (r.1, acc.2 ++ r.2))
      (a, [])
  else (a, [])

/-- Bottom-up construction with positions in machine words. -/
def heapifyWrapping (d : Nat) (a : Array (Entry V P)) : Array (Entry V P) × Swaps :=
  heapifyWith (siftDownWrapping prec d) d a

/-- Bottom-up construction with positions in unbounded numbers. -/
def heapify (d : Nat) (hd : 0 < d) (a : Array (Entry V P)) : Array (Entry V P) × Swaps :=
  heapifyWith (siftDown prec d hd) d a

end Sift

variable {V P R : Type} {prec : P → P → Bool}

theorem arity_pos (h : DaryHeap V P prec R) : 0 < h.arity :=
  Nat.lt_of_lt_of_le (by decide) h.two_le_arity

section Listening

variable {K L : Type} [Registry R K L]

/-- An empty heap; an arity below 2 is raised to 2. -/
def new (arity : Nat) : DaryHeap V P prec R where
  arity := max arity 2
  two_le_arity := Nat.le_max_right _ _
  data := #[]
  listeners := Registry.empty

/-- A heap holding the given entries, put into heap order bottom-up. -/
def ofList (arity : Nat) (es : List (Entry V P)) : DaryHeap V P prec R :=
  let h : DaryHeap V P prec R := new arity
  { h with data := (heapifyWrapping prec h.arity es.toArray).1 }

/-- A copy of the entries with no listener registered. -/
def copy (h : DaryHeap V P prec R) : DaryHeap V P prec R := { h with listeners := Registry.empty }

/-- Registers a listener. -/
def register (h : DaryHeap V P prec R) (l : L) : K × DaryHeap V P prec R :=
  let r := Registry.insert h.listeners l
  (r.1, { h with listeners := r.2 })

/-- Deregisters the listener a key names. -/
def deregister (h : DaryHeap V P prec R) (k : K) : Except HeapError (DaryHeap V P prec R) :=
  match Registry.remove h.listeners k with
  | some ls => .ok { h with listeners := ls }
  | none => .error .listenerNotFound

end Listening

/-- How many entries the heap holds. -/
def size (h : DaryHeap V P prec R) : Nat := h.data.size

/-- The entries in storage order. -/
def toList (h : DaryHeap V P prec R) : List (Entry V P) := h.data.toList

/-- Adds an entry at the end and sifts it up. -/
def push (h : DaryHeap V P prec R) (e : Entry V P) : DaryHeap V P prec R × Swaps :=
  let a := h.data.push e
  let r := siftUp prec h.arity a (a.size - 1)
  ({ h with data := r.1 }, r.2)

/-- The entry at the root. -/
def peek (h : DaryHeap V P prec R) : Except HeapError (Entry V P) :=
  match h.data[0]? with
  | some e => .ok e
  | none => .error .empty

/-- The entry at a position. -/
def get (h : DaryHeap V P prec R) (i : Nat) : Except HeapError (Entry V P) :=
  match h.data[i]? with
  | some e => .ok e
  | none => .error (.indexOutOfBounds i h.size)

/-- Removes the entry at a position: it is swapped with the last entry, the last position is
dropped, and the entry moved in is repaired. -/
def removeAt (h : DaryHeap V P prec R) (i : Nat) :
    Except HeapError (Entry V P × DaryHeap V P prec R × Swaps) :=
  if i < h.size then
    let last := h.size - 1
    let moved : Array (Entry V P) × Swaps :=
      if i ≠ last then (h.data.swapIfInBounds i last, [(i, last)]) else (h.data, [])
    match moved.1.back? with
    | none => .error .empty
    | some removed =>
      let a := moved.1.pop
      let r := if i < a.size then repair prec h.arity a i else (a, [])
      .ok (removed, { h with data := r.1 }, moved.2 ++ r.2)
  else .error (.indexOutOfBounds i h.size)

/-- Removes the root entry. -/
def pop (h : DaryHeap V P prec R) : Except HeapError (Entry V P × DaryHeap V P prec R × Swaps) :=
  if h.size = 0 then .error .empty else h.removeAt 0

/-- Replaces the entry at a position and repairs heap order there. -/
def update (h : DaryHeap V P prec R) (i : Nat) (e : Entry V P) :
    Except HeapError (DaryHeap V P prec R × Swaps) :=
  if i < h.size then
    let r := repair prec h.arity (h.data.setIfInBounds i e) i
    .ok ({ h with data := r.1 }, r.2)
  else .error (.indexOutOfBounds i h.size)

/-- Pushes an entry and pops the root in one step. -/
def pushPop (h : DaryHeap V P prec R) (e : Entry V P) :
    Entry V P × DaryHeap V P prec R × Swaps :=
  match h.data[0]? with
  | some top =>
    if prec top.priority e.priority then
      let r := siftDownWrapping prec h.arity (h.data.setIfInBounds 0 e) 0
      (top, { h with data := r.1 }, r.2)
    else (e, h, [])
  | none => (e, h, [])

/-- Pops the root and pushes an entry in one step: the new entry takes the root's place and is
sifted down. -/
def popPush (h : DaryHeap V P prec R) (e : Entry V P) :
    Except HeapError (Entry V P × DaryHeap V P prec R × Swaps) :=
  match h.data[0]? with
  | some top =>
    let r := siftDownWrapping prec h.arity (h.data.setIfInBounds 0 e) 0
    .ok (top, { h with data := r.1 }, r.2)
  | none => .error .empty

/-- Removes every entry; the listeners stay registered. -/
def clear (h : DaryHeap V P prec R) : DaryHeap V P prec R := { h with data := #[] }

/-- Pops `n` times or until the heap is empty, collecting the entries in the order they left. -/
def popMany : Nat → DaryHeap V P prec R → List (Entry V P) × Swaps
  | 0, _ => ([], [])
  | n + 1, h =>
    match h.pop with
    | .ok (e, h', s) =>
      let r := popMany n h'
      (e :: r.1, s ++ r.2)
    | .error _ => ([], [])

/-- All entries in the order successive pops return them, with the swaps those pops make. -/
def drain (h : DaryHeap V P prec R) : List (Entry V P) × Swaps := popMany h.size h

end DaryHeap

end PriorityQueues
