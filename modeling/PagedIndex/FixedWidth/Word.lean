import PagedIndex.FixedWidth.Basic

/-!
Machine integers of any number of bytes, signed in two's complement or unsigned. They are stored
little-endian and ordered by the number they denote.
-/

namespace PagedIndex

structure Word (signed : Bool) (size : Nat) where
  bits : BitVec (8 * size)
  deriving DecidableEq

namespace Word

variable {signed : Bool} {size : Nat}

def ofInt (n : Int) : Word signed size := ⟨BitVec.ofInt _ n⟩

def toInt (word : Word signed size) : Int :=
  if signed then word.bits.toInt else word.bits.toNat

theorem toInt_inj {a b : Word signed size} : a.toInt = b.toInt ↔ a = b := by
  refine ⟨fun h => ?_, fun h => h ▸ rfl⟩
  obtain ⟨a⟩ := a
  obtain ⟨b⟩ := b
  congr 1
  cases signed
  · exact BitVec.toNat_inj.mp (Int.ofNat.inj h)
  · exact BitVec.toInt_inj.mp h

private theorem span_eq : LittleEndian.span size = Nat.pow 2 (8 * size) := by
  induction size with
  | zero => rfl
  | succ size ih =>
    rw [LittleEndian.span, ih, Nat.pow_eq, Nat.pow_eq, Nat.mul_succ, Nat.pow_add, Nat.mul_comm]

instance : FixedWidth (Word signed size) where
  width := size
  encode word := LittleEndian.encode size word.bits.toNat
  decode bytes := ⟨BitVec.ofNat _ (LittleEndian.decode bytes)⟩
  decode_encode word := by
    rw [LittleEndian.decode_encode (by rw [span_eq]; exact word.bits.isLt), BitVec.ofNat_toNat,
      BitVec.setWidth_eq]

instance : FixedWidth.Onto (Word signed size) where
  encode_decode bytes := by
    have bound := LittleEndian.decode_lt bytes
    rw [span_eq] at bound
    have kept : (BitVec.ofNat (8 * size) (LittleEndian.decode bytes)).toNat =
        LittleEndian.decode bytes := (BitVec.toNat_ofNat _ _).trans (Nat.mod_eq_of_lt bound)
    change LittleEndian.encode size (BitVec.ofNat _ (LittleEndian.decode bytes)).toNat = bytes
    rw [kept, LittleEndian.encode_decode]

instance : IndexKey (Word signed size) where
  compare a b := compare a.toInt b.toInt
  trans_ord :=
    { eq_swap := Std.OrientedOrd.eq_swap (α := Int)
      isLE_trans {a b c} :=
        @Std.TransCmp.isLE_trans Int compare _ a.toInt b.toInt c.toInt }
  lawful_eq_ord :=
    { compare_self := Std.ReflOrd.compare_self (α := Int)
      eq_of_compare h := toInt_inj.mp (Std.LawfulEqOrd.eq_of_compare h) }

end Word

end PagedIndex
