/-!
Listener registries. `Registry` is what a queue asks of the store of its listeners; `Listeners`
is a generational slot map that reuses the last freed slot first.
-/

namespace PriorityQueues

/-- A store of listeners of type `L` under keys of type `K` that it hands out. -/
class Registry (R : Type) (K L : outParam Type) where
  /-- The registry with no listener. -/
  empty : R
  /-- Registers a listener under a new key. -/
  insert : R → L → K × R
  /-- Removes the registration a key names; `none` when it names none. -/
  remove : R → K → Option R
  /-- The listener a key names. -/
  get : R → K → Option L
  /-- The registered listeners, in the order they hear swaps. -/
  listeners : R → List L

/-- Names one registration: its slot and the slot's generation at the time. -/
structure Handle where
  slot : Nat
  generation : UInt32
  deriving DecidableEq, Repr

/-- One slot of a registry. -/
inductive ListenerSlot (L : Type) where
  | occupied (generation : UInt32) (listener : L)
  | free (generation : UInt32) (nextFree : Nat)
  deriving Repr

/-- The listeners registered on one queue. -/
structure Listeners (L : Type) where
  slots : Array (ListenerSlot L) := #[]
  freeHead : Nat := 1
  deriving Repr

namespace Listeners

variable {L : Type}

/-- A registry with no listener. -/
def empty : Listeners L := {}

/-- Registers a listener in the most recently freed slot, or in a new slot at the end. -/
def register (r : Listeners L) (l : L) : Handle × Listeners L :=
  match r.slots[r.freeHead - 1]? with
  | some (.free g next) =>
    let g' := g ||| 1
    let slots := r.slots.setIfInBounds (r.freeHead - 1) (.occupied g' l)
    (⟨r.freeHead, g'⟩, { slots, freeHead := next })
  | _ =>
    let slot := r.slots.size + 1
    (⟨slot, 1⟩, { slots := r.slots.push (.occupied 1 l), freeHead := slot + 1 })

/-- Removes the registration a handle names, if it is live; the slot moves to a new generation and
becomes the next one to be taken. -/
def deregister (r : Listeners L) (h : Handle) : Option (Listeners L) :=
  if h.slot = 0 then none else
  match r.slots[h.slot - 1]? with
  | some (.occupied g _) =>
    if g = h.generation then
      let slots := r.slots.setIfInBounds (h.slot - 1) (.free (g + 1) r.freeHead)
      some { slots, freeHead := h.slot }
    else none
  | _ => none

/-- The listener a handle names, if its registration is live. -/
def get (r : Listeners L) (h : Handle) : Option L :=
  if h.slot = 0 then none else
  match r.slots[h.slot - 1]? with
  | some (.occupied g l) => if g = h.generation then some l else none
  | _ => none

/-- The registered listeners, in slot order. -/
def toList (r : Listeners L) : List L :=
  r.slots.toList.filterMap fun
    | .occupied _ l => some l
    | .free _ _ => none

instance : Registry (Listeners L) Handle L where
  empty := empty
  insert := register
  remove := deregister
  get := get
  listeners := toList

end Listeners

end PriorityQueues
