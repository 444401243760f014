import PagedIndex.Node.Arithmetic

/-!
Binary search in numbered slots whose keys may fail to read.

The search asks for no order among the slots. Whatever they hold, the slot before the answer is
smaller than the key and the slot at the answer is not.
-/

namespace PagedIndex

/-- Where a key stands among slots: before the first slot that is not smaller, or on its equal. -/
structure Position where
  index : Nat
  found : Bool
  deriving DecidableEq, Repr

namespace Position

variable {K : Type} [Ord K]

def bisect (arithmetic : Arithmetic) (slot : Nat → Except Violation K) (key : K) :
    Nat → Nat → Nat → Except Violation Position
  | 0, low, _ => .ok ⟨low, false⟩
  | steps + 1, low, high =>
    if low < high then do
      let middle := low + (← arithmetic.difference high low) / 2
      match compare (← slot middle) key with
      | .lt => bisect arithmetic slot key steps (middle + 1) high
      | .eq => .ok ⟨middle, true⟩
      | .gt => bisect arithmetic slot key steps low middle
    else .ok ⟨low, false⟩

def search (slot : Nat → Except Violation K) (key : K) (count : Nat)
    (arithmetic : Arithmetic := .plain) : Except Violation Position :=
  bisect arithmetic slot key count 0 count

end Position

end PagedIndex
