import Mathlib.Tactic.Positivity
import Mathlib.Tactic.Ring
import PagedIndex.FixedWidth.Word
import PagedIndex.Proofs.Slots

/-!
# Values as they are stored

What is put into a block is read there again, and what is read from a block is put elsewhere byte by
byte. Neither touches a byte beside those of the value. Integers are stored in two's complement with
the least significant byte first.
-/

namespace PagedIndex

theorem LittleEndian.getElem_digits {width n i : Nat} (h : i < (digits width n).length) :
    (digits width n)[i] = UInt8.ofNat (n / 256 ^ i) := by
  induction width generalizing n i with
  | zero => exact absurd h (Nat.not_lt_zero i)
  | succ width ih =>
    cases i with
    | zero => rw [Nat.pow_zero, Nat.div_one]; rfl
    | succ i =>
      have later : (digits width (n / 256))[i]? = some (UInt8.ofNat (n / 256 / 256 ^ i)) := by
        have inside : i < (digits width (n / 256)).length := by simpa [digits] using h
        rw [List.getElem?_eq_getElem inside, ih inside]
      rw [Nat.pow_succ, Nat.mul_comm, ← Nat.div_div_eq_div_mul]
      exact (List.getElem_eq_iff h).mpr later

namespace Word

variable {signed : Bool} {size : Nat}

/-- The numbers that a word of so many bytes can denote. -/
def InRange (signed : Bool) (size : Nat) (n : Int) : Prop :=
  if signed then -2 ^ (8 * size) ≤ n * 2 ∧ n * 2 < 2 ^ (8 * size) else 0 ≤ n ∧ n < 2 ^ (8 * size)

theorem toInt_ofInt {n : Int} (range : InRange signed size n) :
    (ofInt n : Word signed size).toInt = n := by
  have cast : ((2 ^ (8 * size) : Nat) : Int) = 2 ^ (8 * size) := by norm_cast
  cases signed with
  | false =>
    obtain ⟨least, most⟩ : 0 ≤ n ∧ n < 2 ^ (8 * size) := range
    change ((BitVec.ofInt (8 * size) n).toNat : Int) = n
    rw [BitVec.toNat_ofInt, cast, Int.emod_eq_of_lt least most, Int.toNat_of_nonneg least]
  | true =>
    obtain ⟨least, most⟩ : -2 ^ (8 * size) ≤ n * 2 ∧ n * 2 < 2 ^ (8 * size) := range
    change (BitVec.ofInt (8 * size) n).toInt = n
    rw [BitVec.toInt_ofInt]
    exact Int.bmod_eq_of_le_mul_two (by rw [cast]; exact least) (by rw [cast]; exact most)

theorem ediv_emod_of_emod (n : Int) {lower : Nat} (digit higher : Nat) (positive : 0 < lower) :
    n % (lower * (digit * higher) : Nat) / lower % digit = n / lower % digit := by
  have apart : n % (lower * (digit * higher) : Nat) =
      n + lower * (digit * -(higher * (n / (lower * (digit * higher) : Nat)))) := by
    rw [Int.emod_def]
    push_cast
    ring
  rw [apart, Int.add_mul_ediv_left _ _ (by omega), Int.add_mul_emod_self_left]

/-- The bytes of a word are the digits of its number in two's complement, the least one first. -/
theorem getElem_encode_ofInt (n : Int) {i : Nat} (inside : i < size) :
    (FixedWidth.encode (ofInt n : Word signed size)).toList[i]?.map
      (fun byte => (byte.toNat : Int)) = some (n / (256 ^ i : Nat) % (256 : Nat)) := by
  change (LittleEndian.encode size (BitVec.ofInt (8 * size) n).toNat).toList[i]?.map _ = _
  have digit : (LittleEndian.encode size (BitVec.ofInt (8 * size) n).toNat).toList[i]? =
      some (UInt8.ofNat ((BitVec.ofInt (8 * size) n).toNat / 256 ^ i)) := by
    have short : i < (LittleEndian.digits size (BitVec.ofInt (8 * size) n).toNat).length := by
      simpa using inside
    change (LittleEndian.digits size _)[i]? = _
    rw [List.getElem?_eq_getElem short, LittleEndian.getElem_digits]
  have denoted : ((BitVec.ofInt (8 * size) n).toNat : Int) = n % (2 ^ (8 * size) : Nat) := by
    rw [BitVec.toNat_ofInt]
    exact Int.toNat_of_nonneg (Int.emod_nonneg _ (by positivity))
  obtain ⟨rest, rfl⟩ : ∃ rest, size = i + (1 + rest) := ⟨size - i - 1, by omega⟩
  have span : 2 ^ (8 * (i + (1 + rest))) = 256 ^ i * (256 * 256 ^ rest) := by
    rw [Nat.pow_mul, Nat.pow_add, Nat.pow_add, Nat.pow_one]
  rw [span] at denoted
  rw [digit, Option.map_some, UInt8.toNat_ofNat', Int.natCast_emod, Int.natCast_ediv, denoted]
  exact congrArg some (ediv_emod_of_emod n 256 (256 ^ rest) (Nat.pow_pos (by decide)))

example : FixedWidth.encode (ofInt (-5) : Word true 2) = #v[251, 255] := by decide

end Word

theorem Edit.run_put {α : Type} [FixedWidth α] {size start : Nat} (a : α) (block : Block size)
    (inside : start + FixedWidth.width α ≤ size) : (Edit.put start a).run block =
      .ok ((), block.overwrite start (FixedWidth.encode a).toList) := by
  have ends : Ends (put start a) block
      (fun _ b => b = block.overwrite start (FixedWidth.encode a).toList) (fun _ _ => False) :=
    (put_iff inside).mpr rfl
  obtain ⟨_, after, ran, rfl⟩ := run_of_ends ends
  exact ran

namespace FixedWidth

variable {α : Type} [FixedWidth α] {size size' : Nat}

/-- Values of a type are stored in its width and no other byte. -/
structure Exact (α : Type) [FixedWidth α] : Prop where
  read_written : ∀ {size : Nat} (block : Block size) (start : Nat) (a : α),
    start + width α ≤ size → ∃ after, (Edit.put start a).run block = .ok ((), after) ∧
      after.get start = .ok a ∧
      ∀ i, i < start ∨ start + width α ≤ i → after[i]? = block[i]?
  written_read : ∀ {size size' : Nat} (source : Block size) (target : Block size')
    (start start' : Nat), start + width α ≤ size → start' + width α ≤ size' →
      ∃ (a : α) (after : Block size'), source.get start = .ok a ∧
        (Edit.put start' a).run target = .ok ((), after) ∧
        (∀ i < width α, after[start' + i]? = source[start + i]?) ∧
        ∀ i, i < start' ∨ start' + width α ≤ i → after[i]? = target[i]?

theorem getElem?_overwrite_of_outside (block : Block size) {start : Nat} (a : α) {i : Nat}
    (outside : i < start ∨ start + width α ≤ i) :
    (block.overwrite start (encode a).toList)[i]? = block[i]? := by
  by_cases h : i < size
  · rw [Vector.getElem?_eq_getElem h, Vector.getElem?_eq_getElem h,
      Block.getElem_overwrite_of_outside _ _ _ _ h (by simpa using outside)]
  · rw [Vector.getElem?_eq_none (Nat.le_of_not_lt h), Vector.getElem?_eq_none (Nat.le_of_not_lt h)]

theorem getElem?_overwrite_decode [Onto α] (source : Block size) (target : Block size')
    {start start' i : Nat} (from_inside : start + width α ≤ size) (to_inside : start' + width α ≤ size')
    (within : i < width α) :
    (target.overwrite start'
      (encode (decode (Vector.ofFn fun j => source[start + j]) : α)).toList)[start' + i]? =
      source[start + i]? := by
  rw [Onto.encode_decode, Vector.getElem?_eq_getElem (by omega), Vector.getElem?_eq_getElem (by omega),
    Block.getElem_overwrite, dif_pos (by simp; omega)]
  simp

theorem exact (α : Type) [FixedWidth α] [Onto α] : Exact α where
  read_written block start a inside :=
    ⟨_, Edit.run_put a block inside, block.get_overwrite_encode start a inside,
      fun _ outside => getElem?_overwrite_of_outside block a outside⟩
  written_read source target start start' from_inside to_inside := by
    have read : source.get (α := α) start = .ok _ := dif_pos from_inside
    exact ⟨_, _, read, Edit.run_put _ target to_inside,
      fun _ within => getElem?_overwrite_decode source target from_inside to_inside within,
      fun _ outside => getElem?_overwrite_of_outside target _ outside⟩

end FixedWidth

end PagedIndex
