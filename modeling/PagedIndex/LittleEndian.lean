/-!
Natural numbers as little-endian digits base 256. `value_digits` and `digits_value` say that the
two directions undo each other on numbers below `span width` and on lists of `width` bytes.
-/

namespace PagedIndex.LittleEndian

/-- How many numbers have `width` digits. -/
def span : Nat → Nat
  | 0 => 1
  | width + 1 => 256 * span width

/-- The low `width` bytes of a number, least significant first. -/
def digits : Nat → Nat → List UInt8
  | 0, _ => []
  | width + 1, n => UInt8.ofNat n :: digits width (n / 256)

def value : List UInt8 → Nat
  | [] => 0
  | byte :: rest => byte.toNat + 256 * value rest

@[simp] theorem length_digits (width n : Nat) : (digits width n).length = width := by
  induction width generalizing n with
  | zero => rfl
  | succ width ih => simp [digits, ih]

theorem value_digits (width n : Nat) : value (digits width n) = n % span width := by
  induction width generalizing n with
  | zero => simp [digits, value, span, Nat.mod_one]
  | succ width ih => simp [digits, value, span, ih, UInt8.toNat_ofNat', Nat.mod_mul]

theorem value_lt (bytes : List UInt8) : value bytes < span bytes.length := by
  induction bytes with
  | nil => simp [value, span]
  | cons byte rest ih =>
    have := byte.toNat_lt
    simp only [value, List.length_cons, span]
    omega

theorem digits_value (bytes : List UInt8) : digits bytes.length (value bytes) = bytes := by
  induction bytes with
  | nil => rfl
  | cons byte rest ih =>
    have hb := byte.toNat_lt
    have hd : (byte.toNat + 256 * value rest) / 256 = value rest := by omega
    have hm : UInt8.ofNat (byte.toNat + 256 * value rest) = byte := by
      apply UInt8.toNat_inj.mp
      rw [UInt8.toNat_ofNat']
      omega
    simp [digits, value, hd, hm, ih]

def encode (width n : Nat) : Vector UInt8 width := ⟨(digits width n).toArray, by simp⟩

def decode {width : Nat} (bytes : Vector UInt8 width) : Nat := value bytes.toList

theorem decode_encode {width n : Nat} (h : n < span width) : decode (encode width n) = n := by
  simp [decode, encode, value_digits, Nat.mod_eq_of_lt h]

theorem decode_lt {width : Nat} (bytes : Vector UInt8 width) : decode bytes < span width := by
  simpa [decode] using value_lt bytes.toList

theorem encode_decode {width : Nat} (bytes : Vector UInt8 width) :
    encode width (decode bytes) = bytes := by
  apply Vector.toList_inj.mp
  have := digits_value bytes.toList
  simpa [encode, decode] using this

end PagedIndex.LittleEndian
