import PagedIndex.Block
import PagedIndex.Node.Arithmetic

/-!
The header at the start of every node: the node's level above the leaves and the number of its
occupied slots, two bytes each.
-/

namespace PagedIndex

def headerSize : Nat := 4

structure Header where
  level : UInt16
  count : UInt16
  deriving DecidableEq, Repr

namespace Header

def levelOffset : Nat := 0

def countOffset : Nat := 2

variable {size : Nat}

def isLeaf (header : Header) : Bool := header.level == 0

def read (block : Block size) : Except Violation Header := do
  if size < headerSize then throw .headerTooShort
  return { level := ← block.get levelOffset, count := ← block.get countOffset }

def write (header : Header) : Edit size Unit := do
  Edit.require (headerSize ≤ size) .headerTooShort
  Edit.put levelOffset header.level
  Edit.put countOffset header.count

def setCount (count : Nat) (arithmetic : Arithmetic := .plain) : Edit size Unit := do
  Edit.put countOffset (← Edit.inspect fun _ => arithmetic.count count)

end Header

end PagedIndex
