import PagedIndex.FixedWidth.FieldType
import PagedIndex.Node.Leaf

/-!
Inner nodes: child pages and the separators between them, laid out in a block as the header,
`capacity` separator slots and `capacity` child slots. The count is that of the children.

The child at `i` holds the keys below separator `i`, the child at `i + 1` those not below it.
-/

namespace PagedIndex

structure InnerLayout (K : Type) where
  capacity : Nat
  deriving DecidableEq, Repr

namespace InnerLayout

variable {K : Type} [IndexKey K] {size size' : Nat}

def keyOffset (_ : InnerLayout K) (index : Nat) : Nat :=
  headerSize + index * FixedWidth.width K

def childOffset (inner : InnerLayout K) (index : Nat) : Nat :=
  headerSize + inner.capacity * FixedWidth.width K + index * FixedWidth.width PageId

def count (_ : InnerLayout K) (block : Block size) : Except Violation Nat := do
  return (← Header.read block).count.toNat

def isFull (inner : InnerLayout K) (block : Block size) : Except Violation Bool := do
  return inner.capacity ≤ (← inner.count block)

def keyAt (inner : InnerLayout K) (block : Block size) (index : Nat) : Except Violation K :=
  block.get (inner.keyOffset index)

def childAt (inner : InnerLayout K) (block : Block size) (index : Nat) :
    Except Violation PageId :=
  block.get (inner.childOffset index)

def position (inner : InnerLayout K) (block : Block size) (key : K)
    (arithmetic : Arithmetic := .plain) : Except Violation Position := do
  Position.search (inner.keyAt block) key ((← inner.count block) - 1) arithmetic

/-- The child whose range holds `key`. A key equal to a separator is on its right. -/
def childIndex (inner : InnerLayout K) (block : Block size) (key : K)
    (arithmetic : Arithmetic := .plain) : Except Violation Nat := do
  let position ← inner.position block key arithmetic
  return if position.found then position.index + 1 else position.index

def childFor (inner : InnerLayout K) (block : Block size) (key : K) :
    Except Violation PageId := do
  inner.childAt block (← inner.childIndex block key)

def keys (inner : InnerLayout K) (block : Block size) : Except Violation (List K) := do
  (List.range ((← inner.count block) - 1)).mapM (inner.keyAt block)

def children (inner : InnerLayout K) (block : Block size) : Except Violation (List PageId) := do
  (List.range (← inner.count block)).mapM (inner.childAt block)

def format (inner : InnerLayout K) (level : UInt16) (left : PageId) (separator : K)
    (right : PageId) : Edit size Unit := do
  Header.write ⟨level, 2⟩
  Edit.put (inner.keyOffset 0) separator
  Edit.put (inner.childOffset 0) left
  Edit.put (inner.childOffset 1) right

/-- Adds a separator and the child on its right, and tells whether it added. A separator that is
there already only has its right child replaced. -/
def insert (inner : InnerLayout K) (separator : K) (child : PageId)
    (arithmetic : Arithmetic := .plain) : Edit size Bool := do
  let count ← Edit.inspect inner.count
  let position ← Edit.inspect (inner.position · separator arithmetic)
  let index := position.index
  if position.found then
    Edit.put (inner.childOffset (index + 1)) child
    return false
  Edit.require (count < inner.capacity) .innerFull
  Edit.require (0 < count) .outOfBounds
  let last ← Edit.inspect fun _ => arithmetic.difference count 1
  Edit.move (inner.keyOffset index) (inner.keyOffset last) (inner.keyOffset (index + 1))
  Edit.move (inner.childOffset (index + 1)) (inner.childOffset count)
    (inner.childOffset (index + 2))
  Edit.put (inner.keyOffset index) separator
  Edit.put (inner.childOffset (index + 1)) child
  Header.setCount (count + 1) arithmetic
  return true

/-- Removes the child whose range holds `key`, with the separator on its left, or on its right if
it is the first. The last child stays; tells whether one was removed. -/
def removeChildFor (inner : InnerLayout K) (key : K) (arithmetic : Arithmetic := .plain) :
    Edit size Bool := do
  let count ← Edit.inspect inner.count
  if count ≤ 1 then return false
  let child ← Edit.inspect (inner.childIndex · key arithmetic)
  let nextKey := inner.keyOffset ((child - 1) + 1)
  let nextChild := inner.childOffset (child + 1)
  let last ← Edit.inspect fun _ => arithmetic.difference count 1
  Edit.move nextKey (inner.keyOffset last)
    (← Edit.inspect fun _ => arithmetic.difference nextKey (FixedWidth.width K))
  Edit.move nextChild (inner.childOffset count)
    (← Edit.inspect fun _ => arithmetic.difference nextChild (FixedWidth.width PageId))
  Header.setCount last arithmetic
  return true

def receive (inner : InnerLayout K) (source : Block size) (level : UInt16) (keep moved : Nat)
    (arithmetic : Arithmetic := .plain) : Edit size' Unit := do
  Header.write ⟨level, ← Edit.inspect fun _ => arithmetic.count moved⟩
  let between ← Edit.inspect fun _ => arithmetic.difference moved 1
  let keys ← Edit.inspect fun _ =>
    source.read (inner.keyOffset keep) (between * FixedWidth.width K)
  Edit.write (inner.keyOffset 0) keys
  let children ← Edit.inspect fun _ =>
    source.read (inner.childOffset keep) (moved * FixedWidth.width PageId)
  Edit.write (inner.childOffset 0) children

/-- Moves the upper half of the children to another block. The separator between the halves stays
in neither. -/
def split (inner : InnerLayout K) (source : Block size) (target : Block size')
    (arithmetic : Arithmetic := .plain) : Except Violation (Halves K size size') := do
  let header ← Header.read source
  let count := header.count.toNat
  if count < 2 then throw (.innerTooSmallToSplit count)
  let keep := count / 2
  let moved ← arithmetic.difference count keep
  let separator ← inner.keyAt source (← arithmetic.difference keep 1)
  let ((), right) ← Edit.run (inner.receive source header.level keep moved arithmetic) target
  let ((), left) ← Edit.run (Header.setCount keep arithmetic) source
  return { left, right, separator }

end InnerLayout

end PagedIndex
