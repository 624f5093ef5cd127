/-!
Shell pools, of which only the number of idle shells is observable. A pool drops its shells
(`none`), belongs to one heap (`own`), or is the session's shared pool, whose count is passed in
and out; a derived heap gets a `fork`.
-/

namespace PriorityQueues

/-- Where a tree heap's retired node shells go. -/
inductive ShellPool where
  /-- Retired shells are dropped. -/
  | none
  /-- A pool of the heap's own, holding `idle` shells. -/
  | own (idle : Nat)
  /-- The session's shared pool. -/
  | shared
  deriving DecidableEq, Repr

namespace ShellPool

/-- The number of idle shells, given the shared pool's count. -/
def idle : ShellPool → Nat → Nat
  | .none, _ => 0
  | .own n, _ => n
  | .shared, s => s

/-- Takes shells for `n` new nodes: idle shells are used up first. -/
def draw (pool : ShellPool) (n shared : Nat) : ShellPool × Nat :=
  match pool with
  | .none => (.none, shared)
  | .own k => (.own (k - n), shared)
  | .shared => (.shared, shared - n)

/-- Returns the shells of `n` retired nodes. -/
def retire (pool : ShellPool) (n shared : Nat) : ShellPool × Nat :=
  match pool with
  | .none => (.none, shared)
  | .own k => (.own (k + n), shared)
  | .shared => (.shared, shared + n)

/-- The pool a derived heap starts with: an empty one of the same kind, or the shared pool. -/
def fork : ShellPool → ShellPool
  | .none => .none
  | .own _ => .own 0
  | .shared => .shared

end ShellPool

end PriorityQueues
