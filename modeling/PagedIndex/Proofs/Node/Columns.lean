import PagedIndex.Proofs.Node.Header

/-!
# Nodes as a header and two columns

Leaves and inner nodes are laid out alike: the header, an array of `capacity` keys and one of
`capacity` values or children. `Columns` lists what a block holds of each. Every edit of a node is
made of the steps below, each of which changes one column or the header.
-/

namespace PagedIndex

open Block (slots)

theorem mapM_range_eq_ok {ε α : Type} {slot : Nat → Except ε α} {items : List α} {count : Nat}
    (length : items.length = count) (h : ∀ i (h : i < items.length), slot i = .ok items[i]) :
    (List.range count).mapM slot = .ok items := by
  subst length
  suffices ∀ offset (rest : List α), (∀ i (h : i < rest.length), slot (offset + i) = .ok rest[i]) →
      (List.range' offset rest.length).mapM slot = .ok rest by
    rw [List.range_eq_range']
    exact this 0 items fun i inside => by rw [Nat.zero_add]; exact h i inside
  intro offset rest
  induction rest generalizing offset with
  | nil => intro _; rfl
  | cons first rest ih =>
    intro reads
    have tail := ih (offset + 1) fun i inside => by
      rw [Nat.add_right_comm]
      exact reads (i + 1) (by simpa using inside)
    rw [List.length_cons, List.range'_succ, List.mapM_cons, tail]
    have head : slot offset = .ok first := reads 0 (by simp)
    rw [head]
    rfl

theorem length_of_mapM {ε α β : Type} {read : α → Except ε β} {items : List α} {results : List β}
    (h : items.mapM read = .ok results) : results.length = items.length := by
  induction items generalizing results with
  | nil => cases h; rfl
  | cons item rest ih =>
    rw [List.mapM_cons] at h
    cases first : read item with
    | error e => rw [first] at h; cases h
    | ok result =>
      cases later : rest.mapM read with
      | error e => rw [first, later] at h; cases h
      | ok results =>
        rw [first, later] at h
        cases h
        exact congrArg (· + 1) (ih later)

/-- A block starts with the header, and its two arrays start with the listed values. -/
structure Columns {α β : Type} [FixedWidth α] [FixedWidth β] {size : Nat} (capacity : Nat)
    (block : Block size) (header : Header) (first : List α) (second : List β) : Prop where
  room : headerSize + capacity * FixedWidth.width α + capacity * FixedWidth.width β ≤ size
  first_within : first.length ≤ capacity
  second_within : second.length ≤ capacity
  header : Header.of block = header
  first : block.slots α headerSize first.length = first
  second : block.slots β (headerSize + capacity * FixedWidth.width α) second.length = second

namespace Columns

variable {α β : Type} [FixedWidth α] [FixedWidth β] {size capacity : Nat} {block : Block size}
  {header : Header} {first left right : List α} {second lower upper : List β}

theorem header_room (h : Columns capacity block header first second) : headerSize ≤ size := by
  have := h.room
  omega

theorem bounds (h : Columns capacity block header first second) {i j : Nat}
    (hi : i ≤ capacity) (hj : j ≤ capacity) :
    headerSize + i * FixedWidth.width α ≤ headerSize + capacity * FixedWidth.width α ∧
      headerSize + capacity * FixedWidth.width α + j * FixedWidth.width β ≤ size := by
  have := h.room
  have := Nat.mul_le_mul_right (FixedWidth.width α) hi
  have := Nat.mul_le_mul_right (FixedWidth.width β) hj
  omega

theorem get_first (h : Columns capacity block header first second) {i : Nat}
    (hi : i < first.length) :
    block.get (headerSize + i * FixedWidth.width α) = .ok first[i] := by
  have bounds := h.bounds h.first_within h.second_within
  have slot := Block.slot_end (FixedWidth.width α) hi
  have at_i := List.getElem_of_eq h.first (i := i) (by simpa using hi)
  rw [Block.getElem_slots] at at_i
  rw [block.get_eq_value (by omega), at_i]

theorem get_second (h : Columns capacity block header first second) {i : Nat}
    (hi : i < second.length) :
    block.get (headerSize + capacity * FixedWidth.width α + i * FixedWidth.width β) =
      .ok second[i] := by
  have bounds := h.bounds h.first_within h.second_within
  have slot := Block.slot_end (FixedWidth.width β) hi
  have at_i := List.getElem_of_eq h.second (i := i) (by simpa using hi)
  rw [Block.getElem_slots] at at_i
  rw [block.get_eq_value (by omega), at_i]

theorem take (h : Columns capacity block header first second) (i j : Nat) :
    Columns capacity block header (first.take i) (second.take j) := by
  have first_within := h.first_within
  have second_within := h.second_within
  refine ⟨h.room, by rw [List.length_take]; omega, by rw [List.length_take]; omega, h.header,
    ?_, ?_⟩
  · have shorter := block.take_slots (α := α) headerSize (first.take i).length
      first.length (by rw [List.length_take]; omega)
    rw [← shorter, h.first, List.length_take, ← List.take_eq_take_min]
  · have shorter := block.take_slots (α := β) (headerSize + capacity * FixedWidth.width α)
      (second.take j).length second.length (by rw [List.length_take]; omega)
    rw [← shorter, h.second, List.length_take, ← List.take_eq_take_min]

theorem overwrite_first {first' : List α} (h : Columns capacity block header first second)
    {target : Nat} {bytes : List UInt8} (behind : headerSize ≤ target)
    (within : target + bytes.length ≤ headerSize + capacity * FixedWidth.width α)
    (length : first'.length ≤ capacity)
    (changed : (block.overwrite target bytes).slots α headerSize first'.length = first') :
    Columns capacity (block.overwrite target bytes) header first' second := by
  refine ⟨h.room, length, h.second_within, ?_, changed, ?_⟩
  · rw [Header.of_overwrite_behind block behind, h.header]
  · rw [block.slots_overwrite_of_disjoint (.inr within), h.second]

theorem overwrite_second {second' : List β} (h : Columns capacity block header first second)
    {target : Nat} {bytes : List UInt8}
    (behind : headerSize + capacity * FixedWidth.width α ≤ target)
    (length : second'.length ≤ capacity)
    (changed : (block.overwrite target bytes).slots β
      (headerSize + capacity * FixedWidth.width α) second'.length = second') :
    Columns capacity (block.overwrite target bytes) header first second' := by
  have ends := Nat.mul_le_mul_right (FixedWidth.width α) h.first_within
  refine ⟨h.room, h.first_within, length, ?_, ?_, changed⟩
  · rw [Header.of_overwrite_behind block (by omega), h.header]
  · rw [block.slots_overwrite_of_disjoint (.inl (by omega)), h.first]

theorem set_count (h : Columns capacity block header first second) (count : Nat) :
    Ends (Header.setCount count) block
      (fun _ b => Columns capacity b { header with count := UInt16.ofNat count } first second)
      (fun _ _ => False) := by
  rw [Header.setCount_iff h.header_room]
  refine ⟨h.room, h.first_within, h.second_within, ?_, ?_, ?_⟩
  · rw [Header.of_put_count _ _ h.header_room, h.header]
  · rw [Header.slots_put _ _ (by decide), h.first]
  · rw [Header.slots_put _ _ (by unfold Header.countOffset headerSize; omega), h.second]

theorem fill_first {old : α} (h : Columns capacity block header (left ++ old :: right) second)
    (a : α) :
    Ends (Edit.put (headerSize + left.length * FixedWidth.width α) a) block
      (fun _ b => Columns capacity b header (left ++ a :: right) second) (fun _ _ => False) := by
  have bounds := h.bounds h.first_within h.second_within
  have slot := Block.slot_end (FixedWidth.width α)
    (show left.length < (left ++ old :: right).length by simp)
  have same : (left ++ a :: right).length = (left ++ old :: right).length := by simp
  rw [Edit.put_iff (by omega)]
  refine h.overwrite_first (by omega) (by rw [Vector.length_toList]; omega)
    (same ▸ h.first_within) ?_
  rw [same]
  exact Block.slots_fill a h.first (by omega)

theorem fill_second {old : β} (h : Columns capacity block header first (lower ++ old :: upper))
    (b : β) :
    Ends (Edit.put (headerSize + capacity * FixedWidth.width α +
        lower.length * FixedWidth.width β) b) block
      (fun _ after => Columns capacity after header first (lower ++ b :: upper))
      (fun _ _ => False) := by
  have bounds := h.bounds h.first_within h.second_within
  have slot := Block.slot_end (FixedWidth.width β)
    (show lower.length < (lower ++ old :: upper).length by simp)
  have same : (lower ++ b :: upper).length = (lower ++ old :: upper).length := by simp
  rw [Edit.put_iff (by omega)]
  apply h.overwrite_second (by omega) (same ▸ h.second_within)
  rw [same]
  exact Block.slots_fill b h.second (by omega)

theorem open_first (h : Columns capacity block header (left ++ right) second)
    (vacant : (left ++ right).length < capacity) :
    Ends (Edit.move (headerSize + left.length * FixedWidth.width α)
        (headerSize + (left ++ right).length * FixedWidth.width α)
        (headerSize + (left.length + 1) * FixedWidth.width α)) block
      (fun _ b => ∃ old, Columns capacity b header (left ++ old :: right) second)
      (fun _ _ => False) := by
  have bounds := h.bounds (show (left ++ right).length + 1 ≤ capacity from vacant) h.second_within
  have within : left.length ≤ (left ++ right).length := by simp
  obtain ⟨rest, next, last⟩ := Block.slot_arithmetic (FixedWidth.width α) within
  have moved := block.length_slice (headerSize + left.length * FixedWidth.width α)
    (((left ++ right).length - left.length) * FixedWidth.width α) (by omega)
  have distance : headerSize + (left ++ right).length * FixedWidth.width α -
      (headerSize + left.length * FixedWidth.width α) =
        ((left ++ right).length - left.length) * FixedWidth.width α := by omega
  obtain ⟨old, opened⟩ := Block.slots_open h.first (by omega)
  have longer (old : α) : (left ++ old :: right).length = (left ++ right).length + 1 := by
    simp; omega
  rw [Edit.move_iff (by omega) (by omega) (by omega), distance]
  exact ⟨old, h.overwrite_first (by omega) (by omega) (longer old ▸ vacant) (longer old ▸ opened)⟩

theorem open_second (h : Columns capacity block header first (lower ++ upper))
    (vacant : (lower ++ upper).length < capacity) :
    Ends (Edit.move
        (headerSize + capacity * FixedWidth.width α + lower.length * FixedWidth.width β)
        (headerSize + capacity * FixedWidth.width α +
          (lower ++ upper).length * FixedWidth.width β)
        (headerSize + capacity * FixedWidth.width α +
          (lower.length + 1) * FixedWidth.width β)) block
      (fun _ b => ∃ old, Columns capacity b header first (lower ++ old :: upper))
      (fun _ _ => False) := by
  have bounds := h.bounds h.first_within (show (lower ++ upper).length + 1 ≤ capacity from vacant)
  have within : lower.length ≤ (lower ++ upper).length := by simp
  obtain ⟨rest, next, last⟩ := Block.slot_arithmetic (FixedWidth.width β) within
  have distance : headerSize + capacity * FixedWidth.width α +
      (lower ++ upper).length * FixedWidth.width β -
        (headerSize + capacity * FixedWidth.width α + lower.length * FixedWidth.width β) =
        ((lower ++ upper).length - lower.length) * FixedWidth.width β := by omega
  obtain ⟨old, opened⟩ := Block.slots_open h.second (by omega)
  have longer (old : β) : (lower ++ old :: upper).length = (lower ++ upper).length + 1 := by
    simp; omega
  rw [Edit.move_iff (by omega) (by omega) (by omega), distance]
  exact ⟨old, h.overwrite_second (by omega) (longer old ▸ vacant) (longer old ▸ opened)⟩

theorem close_first {old : α} (h : Columns capacity block header (left ++ old :: right) second) :
    Ends (Edit.move (headerSize + (left.length + 1) * FixedWidth.width α)
        (headerSize + (left ++ old :: right).length * FixedWidth.width α)
        (headerSize + left.length * FixedWidth.width α)) block
      (fun _ b => Columns capacity b header (left ++ right) second) (fun _ _ => False) := by
  have bounds := h.bounds h.first_within h.second_within
  have within : left.length + 1 ≤ (left ++ old :: right).length := by simp
  have shorter : (left ++ right).length = (left ++ old :: right).length - 1 := by simp
  obtain ⟨rest, -, -⟩ := Block.slot_arithmetic (FixedWidth.width α) within
  have next := Nat.succ_mul left.length (FixedWidth.width α)
  rw [Nat.succ_eq_add_one] at next
  have moved := block.length_slice (headerSize + (left.length + 1) * FixedWidth.width α)
    (((left ++ old :: right).length - (left.length + 1)) * FixedWidth.width α) (by omega)
  have distance : headerSize + (left ++ old :: right).length * FixedWidth.width α -
      (headerSize + (left.length + 1) * FixedWidth.width α) =
        ((left ++ old :: right).length - (left.length + 1)) * FixedWidth.width α := by omega
  have closed := Block.slots_close h.first (by omega)
  have first_within := h.first_within
  rw [Edit.move_iff (by omega) (by omega) (by omega), distance]
  exact h.overwrite_first (by omega) (by omega) (by omega) (shorter ▸ closed)

theorem close_second {old : β} (h : Columns capacity block header first (lower ++ old :: upper)) :
    Ends (Edit.move
        (headerSize + capacity * FixedWidth.width α + (lower.length + 1) * FixedWidth.width β)
        (headerSize + capacity * FixedWidth.width α +
          (lower ++ old :: upper).length * FixedWidth.width β)
        (headerSize + capacity * FixedWidth.width α + lower.length * FixedWidth.width β)) block
      (fun _ b => Columns capacity b header first (lower ++ upper)) (fun _ _ => False) := by
  have bounds := h.bounds h.first_within h.second_within
  have within : lower.length + 1 ≤ (lower ++ old :: upper).length := by simp
  have shorter : (lower ++ upper).length = (lower ++ old :: upper).length - 1 := by simp
  obtain ⟨rest, -, -⟩ := Block.slot_arithmetic (FixedWidth.width β) within
  have next := Nat.succ_mul lower.length (FixedWidth.width β)
  rw [Nat.succ_eq_add_one] at next
  have distance : headerSize + capacity * FixedWidth.width α +
      (lower ++ old :: upper).length * FixedWidth.width β -
        (headerSize + capacity * FixedWidth.width α +
          (lower.length + 1) * FixedWidth.width β) =
        ((lower ++ old :: upper).length - (lower.length + 1)) * FixedWidth.width β := by omega
  have closed := Block.slots_close h.second (by omega)
  have second_within := h.second_within
  rw [Edit.move_iff (by omega) (by omega) (by omega), distance]
  exact h.overwrite_second (by omega) (by omega) (shorter ▸ closed)

theorem anything (block : Block size)
    (room : headerSize + capacity * FixedWidth.width α + capacity * FixedWidth.width β ≤ size)
    {i j : Nat} (hi : i ≤ capacity) (hj : j ≤ capacity) :
    Columns capacity block (Header.of block) (block.slots α headerSize i)
      (block.slots β (headerSize + capacity * FixedWidth.width α) j) := by
  refine ⟨room, by simpa using hi, by simpa using hj, rfl, ?_, ?_⟩ <;> rw [Block.length_slots]

theorem nothing (block : Block size)
    (room : headerSize + capacity * FixedWidth.width α + capacity * FixedWidth.width β ≤ size) :
    Columns capacity block (Header.of block) ([] : List α) ([] : List β) :=
  ⟨room, Nat.zero_le _, Nat.zero_le _, rfl, rfl, rfl⟩

/-- What stands from slot `keep` on in another block is written to the start of the columns. -/
theorem receive_ends {size' : Nat} {source : Block size'} {keep moved moved' : Nat}
    (h : Columns capacity source header first second) (target : Block size)
    (room : headerSize + capacity * FixedWidth.width α + capacity * FixedWidth.width β ≤ size)
    (header' : Header) (first_length : first.length = keep + moved)
    (second_length : second.length = keep + moved') :
    Ends (do
        Header.write header'
        let firsts ← Edit.inspect fun _ =>
          source.read (headerSize + keep * FixedWidth.width α) (moved * FixedWidth.width α)
        Edit.write (headerSize + 0 * FixedWidth.width α) firsts
        let seconds ← Edit.inspect fun _ => source.read
          (headerSize + capacity * FixedWidth.width α + keep * FixedWidth.width β)
          (moved' * FixedWidth.width β)
        Edit.write (headerSize + capacity * FixedWidth.width α + 0 * FixedWidth.width β) seconds)
      target
      (fun _ b => Columns capacity b header' (first.drop keep) (second.drop keep))
      (fun _ _ => False) := by
  have bounds := h.bounds h.first_within h.second_within
  have first_within := h.first_within
  have second_within := h.second_within
  have bounds' := (nothing (α := α) (β := β) target room).bounds (i := moved) (j := moved')
    (by omega) (by omega)
  have split : (keep + moved) * FixedWidth.width α =
      keep * FixedWidth.width α + moved * FixedWidth.width α := Nat.add_mul _ _ _
  have split' : (keep + moved') * FixedWidth.width β =
      keep * FixedWidth.width β + moved' * FixedWidth.width β := Nat.add_mul _ _ _
  rw [← first_length] at split
  rw [← second_length] at split'
  have length := source.length_slice (headerSize + keep * FixedWidth.width α)
    (moved * FixedWidth.width α) (by omega)
  have length' := source.length_slice
    (headerSize + capacity * FixedWidth.width α + keep * FixedWidth.width β)
    (moved' * FixedWidth.width β) (by omega)
  have read : source.read (headerSize + keep * FixedWidth.width α) (moved * FixedWidth.width α) =
      .ok _ := if_pos (by omega)
  have read' : source.read (headerSize + capacity * FixedWidth.width α +
      keep * FixedWidth.width β) (moved' * FixedWidth.width β) = .ok _ := if_pos (by omega)
  have dropped : (first.drop keep).length = moved := by simp; omega
  have dropped' : (second.drop keep).length = moved' := by simp; omega
  have header_room : headerSize ≤ size := by omega
  simp only [Nat.zero_mul, Nat.add_zero]
  rw [Ends.bind_iff, Header.write_iff header_room, Ends.bind_iff, Edit.inspect_of_ok read,
    Ends.bind_iff, Edit.write_iff (by omega), Ends.bind_iff, Edit.inspect_of_ok read',
    Edit.write_iff (by omega)]
  have start := nothing (α := α) (β := β)
    ((target.overwrite Header.levelOffset (FixedWidth.encode header'.level).toList).overwrite
      Header.countOffset (FixedWidth.encode header'.count).toList) room
  rw [Header.of_write _ _ header_room] at start
  refine (start.overwrite_first (Nat.le_refl _) (by omega) (by omega) ?_).overwrite_second
    (Nat.le_refl _) (by omega) ?_
  · rw [dropped, Block.slots_receive _ _ (by omega) (by rw [← first_length]; omega), ← first_length,
      h.first]
  · rw [dropped', Block.slots_receive _ _ (by omega) (by rw [← second_length]; omega),
      ← second_length, h.second]

end Columns

end PagedIndex
