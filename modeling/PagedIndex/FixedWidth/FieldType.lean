import PagedIndex.FixedWidth.Word
import PagedIndex.PageId

/-!
The types of keys and values an index can be declared with: integers, byte strings of a fixed
length and page ids. Each is a total order and stored in a fixed number of bytes.
-/

namespace PagedIndex

/-- Byte strings of one length, in lexicographic order. -/
instance (size : Nat) : IndexKey (Vector UInt8 size) where
  width := size
  encode := id
  decode := id
  decode_encode _ := rfl
  trans_ord := inferInstance
  lawful_eq_ord := inferInstance

instance (size : Nat) : FixedWidth.Onto (Vector UInt8 size) where
  encode_decode _ := rfl

instance : IndexKey PageId where
  width := 8
  encode page := LittleEndian.encode 8 page.raw.toNat
  decode bytes := ⟨UInt64.ofNat (LittleEndian.decode bytes)⟩
  decode_encode page := by
    rw [LittleEndian.decode_encode page.raw.toNat_lt, UInt64.ofNat_toNat]
  trans_ord := inferInstance
  lawful_eq_ord := inferInstance

instance : FixedWidth.Onto PageId where
  encode_decode bytes := by
    have kept : (UInt64.ofNat (LittleEndian.decode bytes)).toNat = LittleEndian.decode bytes :=
      UInt64.toNat_ofNat'.trans (Nat.mod_eq_of_lt (LittleEndian.decode_lt bytes))
    change LittleEndian.encode 8 (UInt64.ofNat (LittleEndian.decode bytes)).toNat = bytes
    rw [kept, LittleEndian.encode_decode]

inductive FieldType where
  | integer (signed : Bool) (size : Nat)
  | bytes (size : Nat)
  | pageId
  deriving DecidableEq, Repr

namespace FieldType

def Carrier : FieldType → Type
  | integer signed size => Word signed size
  | bytes size => Vector UInt8 size
  | pageId => PageId

instance : (field : FieldType) → IndexKey field.Carrier
  | integer signed size => inferInstanceAs (IndexKey (Word signed size))
  | bytes size => inferInstanceAs (IndexKey (Vector UInt8 size))
  | pageId => inferInstanceAs (IndexKey PageId)

instance : (field : FieldType) → FixedWidth.Onto field.Carrier
  | integer signed size => inferInstanceAs (FixedWidth.Onto (Word signed size))
  | bytes size => inferInstanceAs (FixedWidth.Onto (Vector UInt8 size))
  | pageId => inferInstanceAs (FixedWidth.Onto PageId)

end FieldType

end PagedIndex
