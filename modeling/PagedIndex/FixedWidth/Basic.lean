import PagedIndex.LittleEndian

/-!
Values that take a fixed number of bytes.

That a value is read as it was written is part of the class, so a type without this law cannot be
stored. That every byte vector is a value as written is asked of no type.
-/

namespace PagedIndex

class FixedWidth (α : Type) where
  width : Nat
  encode : α → Vector UInt8 width
  decode : Vector UInt8 width → α
  decode_encode : ∀ a, decode (encode a) = a

/-- Types whose values are all the byte vectors of their width. -/
class FixedWidth.Onto (α : Type) [FixedWidth α] : Prop where
  encode_decode : ∀ bytes : Vector UInt8 (width α), encode (decode bytes : α) = bytes

/-- Stored values under a total order whose `eq` is equality. -/
class IndexKey (α : Type) extends FixedWidth α, Ord α where
  trans_ord : Std.TransOrd α
  lawful_eq_ord : Std.LawfulEqOrd α

instance IndexKey.instTransOrd {α : Type} [IndexKey α] : Std.TransOrd α := IndexKey.trans_ord
instance IndexKey.instLawfulEqOrd {α : Type} [IndexKey α] : Std.LawfulEqOrd α :=
  IndexKey.lawful_eq_ord

namespace FixedWidth

instance : FixedWidth UInt16 where
  width := 2
  encode n := LittleEndian.encode 2 n.toNat
  decode bytes := UInt16.ofNat (LittleEndian.decode bytes)
  decode_encode n := by
    rw [LittleEndian.decode_encode n.toNat_lt, UInt16.ofNat_toNat]

end FixedWidth

end PagedIndex
