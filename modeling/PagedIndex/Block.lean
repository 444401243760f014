import PagedIndex.FixedWidth.Basic
import PagedIndex.Violation

/-!
Byte buffers of a fixed size, read and edited at checked offsets.

An `Edit` changes a block in place and may be violated part way; it then stops with the block as
it stands. `getElem_overwrite` says which bytes a write changes, and everything that edits does
goes through `overwrite`.
-/

namespace PagedIndex

abbrev Block (size : Nat) := Vector UInt8 size

namespace Block

variable {size : Nat}

def zeroed (size : Nat) : Block size := Vector.replicate size 0

def isZeroed (block : Block size) : Bool := block.all (· == 0)

def slice (block : Block size) (start length : Nat) : List UInt8 :=
  (block.toArray.extract start (start + length)).toList

def read (block : Block size) (start length : Nat) : Except Violation (List UInt8) :=
  if start + length ≤ size then .ok (block.slice start length) else .error .outOfBounds

/-- Replaces the bytes from `start` on; what would lie past the end is dropped. -/
def overwrite (block : Block size) (start : Nat) : List UInt8 → Block size
  | [] => block
  | byte :: rest => overwrite (block.setIfInBounds start byte) (start + 1) rest

theorem getElem_overwrite (block : Block size) (start : Nat) (bytes : List UInt8) (i : Nat)
    (h : i < size) :
    (block.overwrite start bytes)[i] =
      if inside : start ≤ i ∧ i < start + bytes.length then bytes[i - start] else block[i] := by
  induction bytes generalizing block start with
  | nil =>
    rw [dif_neg (by simp only [List.length_nil]; omega), overwrite]
  | cons byte rest ih =>
    rw [overwrite, ih, Vector.getElem_setIfInBounds]
    by_cases later : start + 1 ≤ i ∧ i < start + 1 + rest.length
    · have shift : i - start = (i - (start + 1)) + 1 := by omega
      rw [dif_pos later, dif_pos (by simp only [List.length_cons]; omega)]
      simp [shift]
    · rw [dif_neg later]
      by_cases first : start = i
      · subst first
        simp
      · rw [if_neg first, dif_neg (by simp only [List.length_cons]; omega)]

theorem getElem_overwrite_of_outside (block : Block size) (start : Nat) (bytes : List UInt8)
    (i : Nat) (h : i < size) (outside : i < start ∨ start + bytes.length ≤ i) :
    (block.overwrite start bytes)[i] = block[i] := by
  rw [getElem_overwrite, dif_neg (by omega)]

def get {α : Type} [FixedWidth α] (block : Block size) (start : Nat) : Except Violation α :=
  if h : start + FixedWidth.width α ≤ size then
    .ok (FixedWidth.decode (Vector.ofFn fun i => block[start + i]))
  else .error .outOfBounds

theorem get_overwrite_encode {α : Type} [FixedWidth α] (block : Block size) (start : Nat) (a : α)
    (inside : start + FixedWidth.width α ≤ size) :
    (block.overwrite start (FixedWidth.encode a).toList).get start = .ok a := by
  rw [get, dif_pos inside]
  refine congrArg Except.ok (Eq.trans (congrArg FixedWidth.decode ?_) (FixedWidth.decode_encode a))
  ext i h
  rw [Vector.getElem_ofFn, getElem_overwrite, dif_pos (by simp; omega)]
  simp

end Block

/-- A change to a block that may be violated; a violated edit keeps what it changed so far. -/
abbrev Edit (size : Nat) := EStateM Violation (Block size)

namespace Edit

variable {size : Nat} {α : Type}

def inspect (f : Block size → Except Violation α) : Edit size α := fun block =>
  match f block with
  | .ok a => .ok a block
  | .error violation => .error violation block

def run (edit : Edit size α) (block : Block size) : Except Violation (α × Block size) :=
  match EStateM.run edit block with
  | .ok a after => .ok (a, after)
  | .error violation _ => .error violation

def require (condition : Prop) [Decidable condition] (violation : Violation) : Edit size Unit :=
  if condition then pure () else throw violation

def write (start : Nat) (bytes : List UInt8) : Edit size Unit := do
  require (start + bytes.length ≤ size) .outOfBounds
  modify (·.overwrite start bytes)

def put [FixedWidth α] (start : Nat) (a : α) : Edit size Unit :=
  write start (FixedWidth.encode a).toList

/-- Copies the bytes from `start` up to `stop` to `target`; the two regions may overlap. -/
def move (start stop target : Nat) : Edit size Unit := do
  require (start ≤ stop) .outOfBounds
  let bytes ← inspect (·.read start (stop - start))
  write target bytes

end Edit

end PagedIndex
