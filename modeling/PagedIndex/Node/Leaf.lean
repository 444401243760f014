import PagedIndex.Node.Header
import PagedIndex.Node.Search

/-!
Leaves: sorted keys and their values, laid out in a block as the header, `capacity` key slots and
`capacity` value slots. Slots at or past the count hold stale bytes.

A layout reads and edits blocks of any size and any content. A slot outside the block is a
violation.
-/

namespace PagedIndex

structure LeafLayout (K V : Type) where
  capacity : Nat
  deriving DecidableEq, Repr

/-- A block cut in two, and the least key that belongs to the right one. The right one may be of
another size. -/
structure Halves (K : Type) (size : Nat) (size' : Nat := size) where
  left : Block size
  right : Block size'
  separator : K

namespace LeafLayout

variable {K V : Type} [IndexKey K] [FixedWidth V] {size size' : Nat}

def keyOffset (_ : LeafLayout K V) (index : Nat) : Nat :=
  headerSize + index * FixedWidth.width K

def valueOffset (leaf : LeafLayout K V) (index : Nat) : Nat :=
  headerSize + leaf.capacity * FixedWidth.width K + index * FixedWidth.width V

def count (_ : LeafLayout K V) (block : Block size) : Except Violation Nat := do
  return (← Header.read block).count.toNat

def isFull (leaf : LeafLayout K V) (block : Block size) : Except Violation Bool := do
  return leaf.capacity ≤ (← leaf.count block)

def keyAt (leaf : LeafLayout K V) (block : Block size) (index : Nat) : Except Violation K :=
  block.get (leaf.keyOffset index)

def valueAt (leaf : LeafLayout K V) (block : Block size) (index : Nat) : Except Violation V :=
  block.get (leaf.valueOffset index)

def position (leaf : LeafLayout K V) (block : Block size) (key : K)
    (arithmetic : Arithmetic := .plain) : Except Violation Position := do
  Position.search (leaf.keyAt block) key (← leaf.count block) arithmetic

def lookup (leaf : LeafLayout K V) (block : Block size) (key : K) :
    Except Violation (Option V) := do
  let position ← leaf.position block key
  if position.found then some <$> leaf.valueAt block position.index else pure none

def keys (leaf : LeafLayout K V) (block : Block size) : Except Violation (List K) := do
  (List.range (← leaf.count block)).mapM (leaf.keyAt block)

def values (leaf : LeafLayout K V) (block : Block size) : Except Violation (List V) := do
  (List.range (← leaf.count block)).mapM (leaf.valueAt block)

def entries (leaf : LeafLayout K V) (block : Block size) : Except Violation (List (K × V)) := do
  (List.range (← leaf.count block)).mapM fun index => do
    return (← leaf.keyAt block index, ← leaf.valueAt block index)

def format (_ : LeafLayout K V) : Edit size Unit := Header.write ⟨0, 0⟩

/-- Adds an entry or replaces the value of one, and tells whether it added. -/
def insert (leaf : LeafLayout K V) (key : K) (value : V) (arithmetic : Arithmetic := .plain) :
    Edit size Bool := do
  let position ← Edit.inspect (leaf.position · key arithmetic)
  let index := position.index
  if position.found then
    Edit.put (leaf.valueOffset index) value
    return false
  let count ← Edit.inspect leaf.count
  Edit.require (count < leaf.capacity) .leafFull
  Edit.move (leaf.keyOffset index) (leaf.keyOffset count) (leaf.keyOffset (index + 1))
  Edit.move (leaf.valueOffset index) (leaf.valueOffset count) (leaf.valueOffset (index + 1))
  Edit.put (leaf.keyOffset index) key
  Edit.put (leaf.valueOffset index) value
  Header.setCount (count + 1) arithmetic
  return true

/-- Removes the entry of a key, and tells whether there was one. The entries behind it go back by
the width of one. -/
def erase (leaf : LeafLayout K V) (key : K) (arithmetic : Arithmetic := .plain) :
    Edit size Bool := do
  let position ← Edit.inspect (leaf.position · key arithmetic)
  if !position.found then return false
  let next := position.index + 1
  let count ← Edit.inspect leaf.count
  Edit.move (leaf.keyOffset next) (leaf.keyOffset count)
    (← Edit.inspect fun _ => arithmetic.difference (leaf.keyOffset next) (FixedWidth.width K))
  Edit.move (leaf.valueOffset next) (leaf.valueOffset count)
    (← Edit.inspect fun _ => arithmetic.difference (leaf.valueOffset next) (FixedWidth.width V))
  Header.setCount (← Edit.inspect fun _ => arithmetic.difference count 1) arithmetic
  return true

def receive (leaf : LeafLayout K V) (source : Block size) (keep moved : Nat)
    (arithmetic : Arithmetic := .plain) : Edit size' Unit := do
  Header.write ⟨0, ← Edit.inspect fun _ => arithmetic.count moved⟩
  let keys ← Edit.inspect fun _ =>
    source.read (leaf.keyOffset keep) (moved * FixedWidth.width K)
  Edit.write (leaf.keyOffset 0) keys
  let values ← Edit.inspect fun _ =>
    source.read (leaf.valueOffset keep) (moved * FixedWidth.width V)
  Edit.write (leaf.valueOffset 0) values

/-- Moves the upper half of a leaf to another block. The lower half keeps the odd entry. -/
def split (leaf : LeafLayout K V) (source : Block size) (target : Block size')
    (arithmetic : Arithmetic := .plain) : Except Violation (Halves K size size') := do
  let count ← leaf.count source
  if count < 2 then throw (.leafTooSmallToSplit count)
  let keep := (count + 1) / 2
  let moved ← arithmetic.difference count keep
  let ((), right) ← Edit.run (leaf.receive source keep moved arithmetic) target
  let ((), left) ← Edit.run (Header.setCount keep arithmetic) source
  return { left, right, separator := ← leaf.keyAt right 0 }

end LeafLayout

end PagedIndex
