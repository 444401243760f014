import PagedIndex.Node.Header
import PagedIndex.Proofs.Slots

/-!
# The header of a node

Two numbers of two bytes at the start of a block. Nothing written behind it changes it, and changing
it changes nothing behind it.
-/

namespace PagedIndex.Header

variable {size : Nat}

def of (block : Block size) : Header := ⟨block.value levelOffset, block.value countOffset⟩

theorem read_eq (block : Block size) (room : headerSize ≤ size) : read block = .ok (of block) := by
  have level : block.get (α := UInt16) levelOffset = .ok _ :=
    block.get_eq_value (by unfold headerSize at room; show 0 + 2 ≤ size; omega)
  have count : block.get (α := UInt16) countOffset = .ok _ :=
    block.get_eq_value (by unfold headerSize at room; show 2 + 2 ≤ size; omega)
  rw [read, if_neg (Nat.not_lt.mpr room), level, count]
  rfl

theorem of_overwrite_behind (block : Block size) {target : Nat} {bytes : List UInt8}
    (behind : headerSize ≤ target) : of (block.overwrite target bytes) = of block := by
  unfold headerSize at behind
  unfold of
  rw [block.value_overwrite_of_disjoint (.inl (by show 0 + 2 ≤ target; omega)),
    block.value_overwrite_of_disjoint (.inl (by show 2 + 2 ≤ target; omega))]

theorem of_put_count (block : Block size) (count : UInt16) (room : headerSize ≤ size) :
    of (block.overwrite countOffset (FixedWidth.encode count).toList) =
      { of block with count } := by
  unfold headerSize at room
  unfold of
  rw [block.value_overwrite_of_disjoint (.inl (by show 0 + 2 ≤ 2; omega)),
    block.value_overwrite_encode count (by show 2 + 2 ≤ size; omega)]

theorem of_put_level (block : Block size) (level : UInt16) (room : headerSize ≤ size) :
    of (block.overwrite levelOffset (FixedWidth.encode level).toList) =
      { of block with level } := by
  unfold headerSize at room
  unfold of
  rw [block.value_overwrite_encode level (by show 0 + 2 ≤ size; omega),
    block.value_overwrite_of_disjoint (.inr (by rw [Vector.length_toList]; show 0 + 2 ≤ 2; omega))]

theorem slots_put {α : Type} [FixedWidth α] (block : Block size) {base count start : Nat}
    (n : UInt16) (ahead : start + 2 ≤ base) :
    (block.overwrite start (FixedWidth.encode n).toList).slots α base count =
      block.slots α base count :=
  block.slots_overwrite_of_disjoint (.inr (by rw [Vector.length_toList]; exact ahead))

theorem setCount_iff {block : Block size} {count : Nat} {done : Unit → Block size → Prop}
    {failed : Violation → Block size → Prop} (room : headerSize ≤ size) :
    Ends (setCount count) block done failed ↔
      done () (block.overwrite countOffset (FixedWidth.encode (UInt16.ofNat count)).toList) :=
  Edit.put_iff (by unfold headerSize at room; show 2 + 2 ≤ size; omega)

theorem write_iff {block : Block size} {header : Header} {done : Unit → Block size → Prop}
    {failed : Violation → Block size → Prop} (room : headerSize ≤ size) :
    Ends (write header) block done failed ↔
      done () ((block.overwrite levelOffset (FixedWidth.encode header.level).toList).overwrite
        countOffset (FixedWidth.encode header.count).toList) := by
  have four : 4 ≤ size := room
  rw [write, Ends.bind_iff, Edit.require_of room, Ends.bind_iff,
    Edit.put_iff (by show 0 + 2 ≤ size; omega), Edit.put_iff (by show 2 + 2 ≤ size; omega)]

theorem of_write (block : Block size) (header : Header) (room : headerSize ≤ size) :
    of ((block.overwrite levelOffset (FixedWidth.encode header.level).toList).overwrite
      countOffset (FixedWidth.encode header.count).toList) = header := by
  rw [of_put_count _ _ room, of_put_level _ _ room]

end PagedIndex.Header
