/-!
The ways a call can break the contract it was called under.

A violation is not an error answer: the caller asked for something that has no result, such as
a slot outside its page or one entry too many. It ends the run that meets it.
-/

namespace PagedIndex

inductive Violation where
  | headerTooShort
  | leafFull
  | innerFull
  | leafTooSmallToSplit (entries : Nat)
  | innerTooSmallToSplit (children : Nat)
  | pinUnderflow
  /-- A frame that has as many pins as its counter can count is pinned once more. -/
  | pinOverflow
  | emptyPool
  | outOfBounds
  /-- A page latch is asked for while a guard of the same caller holds it. -/
  | latchHeld
  | staleGuard
  /-- A descent has passed more nodes than there are page ids, so it runs in a circle. -/
  | endlessDescent
  deriving DecidableEq, Repr

def Violation.message : Violation → Option String
  | .headerTooShort => some "buffer too small for NodeHeader"
  | .leafFull => some "insert into a full leaf"
  | .innerFull => some "insert into a full inner node"
  | .leafTooSmallToSplit entries => some s!"cannot split a leaf with {entries} entries"
  | .innerTooSmallToSplit children =>
      some s!"cannot split an inner node with {children} children"
  | .pinUnderflow => some "pin count underflow"
  | .emptyPool => some "pool_size must be > 0"
  | .pinOverflow | .outOfBounds | .latchHeld | .staleGuard | .endlessDescent => none

end PagedIndex
