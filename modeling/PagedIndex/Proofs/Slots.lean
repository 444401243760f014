import PagedIndex.Block
import PagedIndex.Proofs.Ends

/-!
# Arrays of values in a block

`Block.value` is what is stored at an offset, whether or not it lies in the block, and `Block.slots`
lists the values of an array. Edits open a slot, close one or copy slots from another block; each
changes the list accordingly and leaves what is stored elsewhere.
-/

namespace PagedIndex

namespace Block

variable {size size' : Nat} {α : Type} [FixedWidth α]

/-- The value stored at `start`; bytes past the end count as zero. -/
def value (block : Block size) (start : Nat) : α :=
  FixedWidth.decode (Vector.ofFn fun i => block[start + i]?.getD 0)

theorem get_eq_value (block : Block size) {start : Nat}
    (inside : start + FixedWidth.width α ≤ size) :
    block.get start = .ok (block.value (α := α) start) := by
  rw [get, dif_pos inside, value]
  congr 3
  funext i
  rw [Vector.getElem?_eq_getElem (by omega)]
  rfl

theorem value_congr {block : Block size} {block' : Block size'} {start start' : Nat}
    (same : ∀ i < FixedWidth.width α, block[start + i]? = block'[start' + i]?) :
    block.value (α := α) start = block'.value start' := by
  unfold value
  congr 2
  funext i
  rw [same i i.isLt]

theorem value_overwrite_encode (block : Block size) {start : Nat} (a : α)
    (inside : start + FixedWidth.width α ≤ size) :
    (block.overwrite start (FixedWidth.encode a).toList).value start = a := by
  have stored := get_overwrite_encode block start a inside
  rw [get_eq_value _ inside] at stored
  exact Except.ok.inj stored

theorem value_overwrite_of_disjoint (block : Block size) {start target : Nat} {bytes : List UInt8}
    (apart : start + FixedWidth.width α ≤ target ∨ target + bytes.length ≤ start) :
    (block.overwrite target bytes).value (α := α) start = block.value start := by
  refine value_congr fun i inside => ?_
  by_cases h : start + i < size
  · rw [Vector.getElem?_eq_getElem h, Vector.getElem?_eq_getElem h,
      getElem_overwrite_of_outside _ _ _ _ h (by omega)]
  · rw [Vector.getElem?_eq_none (by omega), Vector.getElem?_eq_none (by omega)]

theorem length_slice (block : Block size) (start length : Nat) (inside : start + length ≤ size) :
    (block.slice start length).length = length := by
  simp [slice]
  omega

theorem value_overwrite_slice (block : Block size) (source : Block size')
    {target start length offset : Nat}
    (from_inside : start + length ≤ size') (to_inside : target + length ≤ size)
    (within : offset + FixedWidth.width α ≤ length) :
    (block.overwrite target (source.slice start length)).value (α := α) (target + offset) =
      source.value (start + offset) := by
  have copied := length_slice source _ _ from_inside
  refine value_congr fun i h => ?_
  rw [Vector.getElem?_eq_getElem (by omega), Vector.getElem?_eq_getElem (by omega),
    getElem_overwrite, dif_pos (by omega)]
  have shift : target + offset + i - target = offset + i := by omega
  simp only [slice, shift]
  simp [Nat.add_assoc]

/-- The values of the first `count` slots of an array that starts at `base`. -/
def slots (α : Type) [FixedWidth α] (block : Block size) (base count : Nat) : List α :=
  (List.range count).map fun i => block.value (base + i * FixedWidth.width α)

@[simp] theorem length_slots (block : Block size) (base count : Nat) :
    (block.slots α base count).length = count := by
  simp [slots]

@[simp] theorem getElem_slots (block : Block size) (base count i : Nat)
    (h : i < (block.slots α base count).length) :
    (block.slots α base count)[i] = block.value (base + i * FixedWidth.width α) := by
  simp [slots]

theorem take_slots (block : Block size) (base keep count : Nat) (h : keep ≤ count) :
    (block.slots α base count).take keep = block.slots α base keep := by
  apply List.ext_getElem
  · simp [h]
  · simp

theorem slot_end {i count : Nat} (width : Nat) (h : i < count) :
    i * width + width ≤ count * width := by
  rw [← Nat.succ_mul]
  exact Nat.mul_le_mul_right width h

theorem slot_arithmetic (width : Nat) {i count : Nat} (h : i ≤ count) :
    count * width = (count - i) * width + i * width ∧ (i + 1) * width = i * width + width ∧
      (count + 1) * width = count * width + width := by
  refine ⟨?_, Nat.succ_mul i width, Nat.succ_mul count width⟩
  rw [← Nat.add_mul]
  congr 1
  omega

theorem slot_before (base index width : Nat) :
    base + (index + 1) * width - width = base + index * width := by
  rw [Nat.succ_mul, ← Nat.add_assoc, Nat.add_sub_cancel]

theorem slots_congr {block block' : Block size} {base count : Nat}
    (same : ∀ i < count, block.value (α := α) (base + i * FixedWidth.width α) =
      block'.value (base + i * FixedWidth.width α)) :
    block.slots α base count = block'.slots α base count := by
  apply List.ext_getElem
  · simp
  · intro i h _
    simpa using same i (by simpa using h)

theorem slots_overwrite_of_disjoint (block : Block size) {base count target : Nat}
    {bytes : List UInt8}
    (apart : base + count * FixedWidth.width α ≤ target ∨ target + bytes.length ≤ base) :
    (block.overwrite target bytes).slots α base count = block.slots α base count := by
  refine slots_congr fun i h => value_overwrite_of_disjoint block ?_
  have := slot_end (FixedWidth.width α) h
  omega

theorem slots_put (block : Block size) {base count i : Nat} (a : α) (h : i < count)
    (inside : base + count * FixedWidth.width α ≤ size) :
    (block.overwrite (base + i * FixedWidth.width α) (FixedWidth.encode a).toList).slots α base
      count = (block.slots α base count).set i a := by
  have here := slot_end (FixedWidth.width α) h
  apply List.ext_getElem
  · simp
  · intro j hj _
    rw [length_slots] at hj
    rw [getElem_slots, List.getElem_set]
    by_cases same : i = j
    · subst same
      rw [if_pos rfl, value_overwrite_encode block a (by omega)]
    · rw [if_neg same, getElem_slots]
      apply value_overwrite_of_disjoint block
      rw [Vector.length_toList]
      rcases Nat.lt_or_gt_of_ne same with before | after
      · have := slot_end (FixedWidth.width α) before
        omega
      · have := slot_end (FixedWidth.width α) after
        omega

theorem slots_fill {block : Block size} {base count : Nat} {left right : List α} {old : α} (a : α)
    (stored : block.slots α base count = left ++ old :: right)
    (inside : base + count * FixedWidth.width α ≤ size) :
    (block.overwrite (base + left.length * FixedWidth.width α)
      (FixedWidth.encode a).toList).slots α base count = left ++ a :: right := by
  have length := congrArg List.length stored
  simp only [length_slots, List.length_append, List.length_cons] at length
  rw [slots_put block a (by omega) inside, stored]
  simp

/-- The slots from `i` on move up by one and leave room in between. -/
theorem slots_move_up (block : Block size) {base count i : Nat} (h : i ≤ count)
    (inside : base + (count + 1) * FixedWidth.width α ≤ size) :
    ∃ old, (block.overwrite (base + (i + 1) * FixedWidth.width α)
      (block.slice (base + i * FixedWidth.width α) ((count - i) * FixedWidth.width α))).slots α base
        (count + 1) =
      (block.slots α base count).take i ++ old :: (block.slots α base count).drop i := by
  have rest : (count - i) * FixedWidth.width α + i * FixedWidth.width α =
      count * FixedWidth.width α := by rw [← Nat.add_mul]; congr 1; omega
  have more := Nat.succ_mul count (FixedWidth.width α)
  have next := Nat.succ_mul i (FixedWidth.width α)
  simp only [Nat.succ_eq_add_one] at more next
  have moved := length_slice block (base + i * FixedWidth.width α)
    ((count - i) * FixedWidth.width α) (by omega)
  refine ⟨block.value (base + i * FixedWidth.width α), ?_⟩
  apply List.ext_getElem
  · simp; omega
  · intro j hj _
    rw [length_slots] at hj
    rw [getElem_slots]
    rcases Nat.lt_trichotomy j i with before | rfl | after
    · have := slot_end (FixedWidth.width α) before
      rw [value_overwrite_of_disjoint block (by omega),
        List.getElem_append_left (by rw [List.length_take, length_slots]; omega)]
      simp
    · rw [value_overwrite_of_disjoint block (by omega),
        List.getElem_append_right (by rw [List.length_take, length_slots]; omega)]
      simp [show min j count = j by omega]
    · obtain ⟨k, rfl⟩ : ∃ k, j = i + 1 + k := ⟨j - (i + 1), by omega⟩
      have within := slot_end (FixedWidth.width α) (show k < count - i by omega)
      have target : (i + 1 + k) * FixedWidth.width α =
          (i + 1) * FixedWidth.width α + k * FixedWidth.width α := Nat.add_mul _ _ _
      have source : (i + k) * FixedWidth.width α =
          i * FixedWidth.width α + k * FixedWidth.width α := Nat.add_mul _ _ _
      rw [List.getElem_append_right (by rw [List.length_take, length_slots]; omega)]
      have index : i + 1 + k - min i count = k + 1 := by omega
      simp only [List.length_take, length_slots, index, List.getElem_cons_succ, List.getElem_drop,
        getElem_slots]
      rw [target, source, ← Nat.add_assoc, ← Nat.add_assoc]
      exact value_overwrite_slice block block (by omega) (by omega) within

theorem slots_open {block : Block size} {base count : Nat} {left right : List α}
    (stored : block.slots α base count = left ++ right)
    (inside : base + (count + 1) * FixedWidth.width α ≤ size) :
    ∃ old, (block.overwrite (base + (left.length + 1) * FixedWidth.width α)
      (block.slice (base + left.length * FixedWidth.width α)
        ((count - left.length) * FixedWidth.width α))).slots α base (count + 1) =
      left ++ old :: right := by
  have length := congrArg List.length stored
  simp only [length_slots, List.length_append] at length
  obtain ⟨old, moved⟩ := block.slots_move_up (α := α) (i := left.length) (by omega) inside
  rw [stored, List.take_left, List.drop_left] at moved
  exact ⟨old, moved⟩

theorem slots_move_down (block : Block size) {base count i : Nat} (h : i < count)
    (inside : base + count * FixedWidth.width α ≤ size) :
    (block.overwrite (base + i * FixedWidth.width α)
      (block.slice (base + (i + 1) * FixedWidth.width α)
        ((count - (i + 1)) * FixedWidth.width α))).slots α base (count - 1) =
      (block.slots α base count).take i ++ (block.slots α base count).drop (i + 1) := by
  have rest : (count - (i + 1)) * FixedWidth.width α + (i + 1) * FixedWidth.width α =
      count * FixedWidth.width α := by rw [← Nat.add_mul]; congr 1; omega
  have next := Nat.succ_mul i (FixedWidth.width α)
  simp only [Nat.succ_eq_add_one] at next
  have moved := length_slice block (base + (i + 1) * FixedWidth.width α)
    ((count - (i + 1)) * FixedWidth.width α) (by omega)
  apply List.ext_getElem
  · simp; omega
  · intro j hj _
    rw [length_slots] at hj
    rw [getElem_slots]
    by_cases before : j < i
    · have := slot_end (FixedWidth.width α) before
      rw [value_overwrite_of_disjoint block (by omega),
        List.getElem_append_left (by rw [List.length_take, length_slots]; omega)]
      simp
    · obtain ⟨k, rfl⟩ : ∃ k, j = i + k := ⟨j - i, by omega⟩
      have within := slot_end (FixedWidth.width α) (show k < count - (i + 1) by omega)
      have target : (i + k) * FixedWidth.width α =
          i * FixedWidth.width α + k * FixedWidth.width α := Nat.add_mul _ _ _
      have source : (i + 1 + k) * FixedWidth.width α =
          (i + 1) * FixedWidth.width α + k * FixedWidth.width α := Nat.add_mul _ _ _
      rw [List.getElem_append_right (by rw [List.length_take, length_slots]; omega)]
      have index : i + k - min i count = k := by omega
      simp only [List.length_take, length_slots, index, List.getElem_drop, getElem_slots]
      rw [target, source, ← Nat.add_assoc, ← Nat.add_assoc]
      exact value_overwrite_slice block block (by omega) (by omega) within

theorem slots_close {block : Block size} {base count : Nat} {left right : List α} {old : α}
    (stored : block.slots α base count = left ++ old :: right)
    (inside : base + count * FixedWidth.width α ≤ size) :
    (block.overwrite (base + left.length * FixedWidth.width α)
      (block.slice (base + (left.length + 1) * FixedWidth.width α)
        ((count - (left.length + 1)) * FixedWidth.width α))).slots α base (count - 1) =
      left ++ right := by
  have length := congrArg List.length stored
  simp only [length_slots, List.length_append, List.length_cons] at length
  rw [block.slots_move_down (by omega) inside, stored]
  simp

theorem slots_receive (block : Block size) (source : Block size') {base base' keep moved : Nat}
    (inside : base + moved * FixedWidth.width α ≤ size)
    (from_inside : base' + (keep + moved) * FixedWidth.width α ≤ size') :
    (block.overwrite base (source.slice (base' + keep * FixedWidth.width α)
      (moved * FixedWidth.width α))).slots α base moved =
      (source.slots α base' (keep + moved)).drop keep := by
  have split : (keep + moved) * FixedWidth.width α =
      keep * FixedWidth.width α + moved * FixedWidth.width α := Nat.add_mul _ _ _
  apply List.ext_getElem
  · simp
  · intro j hj _
    rw [length_slots] at hj
    have within := slot_end (FixedWidth.width α) hj
    have index : (keep + j) * FixedWidth.width α =
        keep * FixedWidth.width α + j * FixedWidth.width α := Nat.add_mul _ _ _
    rw [getElem_slots, List.getElem_drop, getElem_slots, index, ← Nat.add_assoc]
    exact value_overwrite_slice block source (by omega) (by omega) within

end Block

namespace Edit

variable {size : Nat} {α : Type} {block : Block size} {failed : Violation → Block size → Prop}

theorem inspect_of_ok {f : Block size → Except Violation α} {a : α}
    {done : α → Block size → Prop} (read : f block = .ok a) :
    Ends (inspect f) block done failed ↔ done a block := by
  simp only [Ends, inspect, EStateM.run, read]

theorem inspect_ok (a : α) : (inspect fun _ => .ok a : Edit size α) = pure a := rfl

theorem require_of {condition : Prop} [Decidable condition] {violation : Violation}
    {done : Unit → Block size → Prop} (holds : condition) :
    Ends (require condition violation) block done failed ↔ done () block := by
  rw [require, if_pos holds, Ends.pure_iff]

theorem write_iff {start : Nat} {bytes : List UInt8} {done : Unit → Block size → Prop}
    (inside : start + bytes.length ≤ size) :
    Ends (write start bytes) block done failed ↔ done () (block.overwrite start bytes) := by
  rw [write, Ends.bind_iff, require_of inside, Ends.modify_iff]

theorem put_iff [FixedWidth α] {start : Nat} {a : α} {done : Unit → Block size → Prop}
    (inside : start + FixedWidth.width α ≤ size) :
    Ends (put start a) block done failed ↔
      done () (block.overwrite start (FixedWidth.encode a).toList) := by
  rw [put, write_iff (by simpa using inside)]

theorem move_iff {start stop target : Nat} {done : Unit → Block size → Prop}
    (order : start ≤ stop) (from_inside : stop ≤ size)
    (to_inside : target + (stop - start) ≤ size) :
    Ends (move start stop target) block done failed ↔
      done () (block.overwrite target (block.slice start (stop - start))) := by
  have read : block.read start (stop - start) = .ok (block.slice start (stop - start)) := by
    rw [Block.read, if_pos (by omega)]
  have length := block.length_slice start (stop - start) (by omega)
  rw [move, Ends.bind_iff, require_of order, Ends.bind_iff, inspect_of_ok read,
    write_iff (by omega)]

theorem run_of_ends {edit : Edit size α} {done : α → Block size → Prop}
    (h : Ends edit block done fun _ _ => False) :
    ∃ a after, edit.run block = .ok (a, after) ∧ done a after := by
  obtain ⟨a, after, ran, done⟩ := h.exists_ok
  exact ⟨a, after, by rw [run, ran], done⟩

theorem run_discard {edit : Edit size α} {a : α} {after : Block size}
    (run : edit.run block = .ok (a, after)) : Edit.run (discard edit) block = .ok ((), after) := by
  have mapped : EStateM.run (discard edit) block = EStateM.map (fun _ => PUnit.unit) edit block :=
    rfl
  unfold Edit.run at run ⊢
  rw [mapped, EStateM.map]
  unfold EStateM.run at run
  cases ran : edit block with
  | ok a' after' => rw [ran] at run; cases run; rfl
  | error violation after' => rw [ran] at run; cases run

end Edit

end PagedIndex
