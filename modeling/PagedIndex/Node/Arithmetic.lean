import PagedIndex.Violation

/-!
Differences and counts as the node operations take them.

The operations run with `plain`. Given `checked` they do the same and refuse what does not fit.
-/

namespace PagedIndex

structure Arithmetic where
  difference : Nat → Nat → Except Violation Nat
  /-- A count as the two bytes of a header. -/
  count : Nat → Except Violation UInt16

namespace Arithmetic

/-- A difference below zero is zero, and a count keeps its low two bytes. -/
def plain : Arithmetic := ⟨fun a b => .ok (a - b), fun count => .ok (UInt16.ofNat count)⟩

def checked : Arithmetic where
  difference a b := if b ≤ a then .ok (a - b) else .error .outOfBounds
  count count := if count < 65536 then .ok (UInt16.ofNat count) else .error .outOfBounds

@[simp] theorem plain_difference (a b : Nat) : plain.difference a b = .ok (a - b) := rfl

@[simp] theorem plain_count (count : Nat) : plain.count count = .ok (UInt16.ofNat count) := rfl

theorem checked_difference {a b : Nat} (le : b ≤ a) :
    checked.difference a b = plain.difference a b := if_pos le

theorem checked_count {count : Nat} (small : count < 65536) :
    checked.count count = plain.count count := if_pos small

end Arithmetic

end PagedIndex
