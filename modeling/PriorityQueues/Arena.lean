import PriorityQueues.Pool

/-!
Arena storage for tree nodes: numbered slots linked by slot number, with the empty slots' numbers
on a stack that is used up before the table grows. `absorb` and `compacted` renumber the nodes
they move and rewrite their links through a `Remap`.
-/

namespace PriorityQueues

/-- The number of a slot in an arena. -/
structure NodeRef where
  index : Nat
  deriving DecidableEq, Repr

/-- The number a `Remap` gives the slots that held no node: the largest machine word. -/
def NodeRef.dangling : NodeRef := ⟨18446744073709551615⟩

/-- A link to a node, or nothing. -/
abbrev Link := Option NodeRef

/-- Nodes that hold links to other nodes of their arena. -/
class Relink (N : Type) where
  /-- Rewrites every link the node holds through the map. -/
  relink : (NodeRef → NodeRef) → N → N

/-- Where each slot of an arena went when its nodes moved: `targets[i]` is the new number of slot
`i`. -/
structure Remap where
  targets : Array NodeRef

namespace Remap

/-- The new number of a node. -/
def get (m : Remap) (r : NodeRef) : NodeRef := m.targets.getD r.index NodeRef.dangling

/-- `get` lifted over a link. -/
def link (m : Remap) (l : Link) : Link := l.map m.get

end Remap

/-- Numbered slots of nodes, the stack of empty slot numbers (its top first), the pool shells come
from, and the number of live nodes. -/
structure Arena (N : Type) where
  slots : Array (Option N)
  vacant : List Nat
  pool : ShellPool
  live : Nat

namespace Arena

variable {N : Type}

/-- An empty arena that draws shells from `pool`. -/
def new (pool : ShellPool) : Arena N := ⟨#[], [], pool, 0⟩

/-- The number of live nodes. -/
def len (a : Arena N) : Nat := a.live

/-- The number of slots, live or empty. -/
def slotCount (a : Arena N) : Nat := a.slots.size

/-- The number of slots that hold a node. -/
def occupied (a : Arena N) : Nat := a.slots.toList.countP Option.isSome

/-- Puts a node into the empty slot on top of the stack, or into a new slot at the end. -/
def place (a : Arena N) (node : N) : Arena N × NodeRef :=
  match a.vacant with
  | i :: rest =>
    ({ a with slots := a.slots.setIfInBounds i (some node), vacant := rest, live := a.live + 1 },
      ⟨i⟩)
  | [] => ({ a with slots := a.slots.push (some node), live := a.live + 1 }, ⟨a.slots.size⟩)

/-- Stores a node in a shell from the pool. -/
def alloc (a : Arena N) (node : N) (shared : Nat) : Arena N × NodeRef × Nat :=
  let p := a.pool.draw 1 shared
  let placed := { a with pool := p.1 }.place node
  (placed.1, placed.2, p.2)

/-- Retires the node at `r` and returns it; the slot goes on the stack and the shell to the pool. -/
def free (a : Arena N) (r : NodeRef) (shared : Nat) : Option (Arena N × N × Nat) :=
  match a.slots[r.index]? with
  | some (some node) =>
    let p := a.pool.retire 1 shared
    some (⟨a.slots.setIfInBounds r.index none, r.index :: a.vacant, p.1, a.live - 1⟩, node, p.2)
  | _ => none

/-- The node at `r`, if it is live. -/
def get (a : Arena N) (r : NodeRef) : Option N := a.slots[r.index]?.join

/-- Changes the node at `r` in place. -/
def modify (a : Arena N) (r : NodeRef) (f : N → N) : Arena N :=
  { a with slots := a.slots.modify r.index (Option.map f) }

/-- The live nodes with their numbers, in slot order. -/
def entries (a : Arena N) : List (NodeRef × N) :=
  a.slots.toList.zipIdx.filterMap fun p => p.1.map fun node => (⟨p.2⟩, node)

/-- Retires every node: all shells go to the pool, and no slot is left. -/
def clear (a : Arena N) (shared : Nat) : Arena N × Nat :=
  let p := a.pool.retire a.occupied shared
  (⟨#[], [], p.1, 0⟩, p.2)

/-- An empty arena whose pool is forked from this one's. -/
def emptyLike (a : Arena N) : Arena N := new a.pool.fork

/-- One slot of an arena being absorbed: its node, if any, is placed and its new number recorded in
the remap, under its old number, and at the end of the list of moved nodes. -/
def absorbSlot (acc : Arena N × Array NodeRef × List NodeRef) (slot : Option N × Nat) :
    Arena N × Array NodeRef × List NodeRef :=
  match slot.1 with
  | none => acc
  | some node =>
    let placed := acc.1.place node
    (placed.1, acc.2.1.setIfInBounds slot.2 placed.2, acc.2.2 ++ [placed.2])

/-- Moves every live node of `other` into this arena, shells and all, and rewrites the links of the
moved nodes through the returned remap. -/
def absorb [Relink N] (a other : Arena N) : Arena N × Remap :=
  let placed := other.slots.toList.zipIdx.foldl absorbSlot
    (a, Array.replicate other.slots.size NodeRef.dangling, [])
  let remap : Remap := ⟨placed.2.1⟩
  (placed.2.2.foldl (fun b r => b.modify r (Relink.relink remap.get)) placed.1, remap)

/-- One live node of an arena being compacted: a copy is allocated and its number recorded. -/
def compactSlot (acc : Arena N × Array NodeRef × Nat) (e : NodeRef × N) :
    Arena N × Array NodeRef × Nat :=
  let r := acc.1.alloc e.2 acc.2.2
  (r.1, acc.2.1.setIfInBounds e.1.index r.2.1, r.2.2)

/-- A copy holding only the live nodes, packed from slot 0 in slot order, with its links rewritten
through the returned remap. -/
def compacted [Relink N] (a : Arena N) (shared : Nat) : (Arena N × Remap) × Nat :=
  let copied := a.entries.foldl compactSlot
    (a.emptyLike, Array.replicate a.slots.size NodeRef.dangling, shared)
  let remap : Remap := ⟨copied.2.1⟩
  (({ copied.1 with slots := copied.1.slots.map (Option.map (Relink.relink remap.get)) }, remap),
    copied.2.2)

/-- Counts the nodes a walk pops off a stack of nodes (its top first); `children` checks a popped
node and gives the nodes it pushes, the last on top. `none` when a check fails or `fuel` pops do
not empty the stack. -/
def walkCount (children : NodeRef → Option (List NodeRef)) :
    Nat → List NodeRef → Nat → Option Nat
  | _, [], seen => some seen
  | 0, _ :: _, _ => none
  | fuel + 1, r :: stack, seen =>
    (children r).bind fun cs => walkCount children fuel (cs.reverse ++ stack) (seen + 1)

end Arena

end PriorityQueues
