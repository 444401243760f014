import Mathlib.Order.Interval.Set.Defs
import PagedIndex.Proofs.Encoding
import PagedIndex.Proofs.Node.Capacities

/-!
# The regions of a node

Under accepted capacities the header, the keys and the values or children of a node share no byte of
the page and stay within it. So each can be written on its own: whatever the page holds, a slot that
is written holds what was written, and the header and the other slots, stale ones included, hold
what they held.
-/

namespace PagedIndex

/-- How the two arrays of a node are addressed and read. -/
structure Arrays (α β : Type) where
  capacity : Nat
  firstOffset : Nat → Nat
  secondOffset : Nat → Nat
  firstAt : {size : Nat} → Block size → Nat → Except Violation α
  secondAt : {size : Nat} → Block size → Nat → Except Violation β

def LeafLayout.arrays {K V : Type} [IndexKey K] [FixedWidth V] (leaf : LeafLayout K V) :
    Arrays K V :=
  ⟨leaf.capacity, leaf.keyOffset, leaf.valueOffset, leaf.keyAt, leaf.valueAt⟩

def InnerLayout.arrays {K : Type} [IndexKey K] (inner : InnerLayout K) : Arrays K PageId :=
  ⟨inner.capacity, inner.keyOffset, inner.childOffset, inner.keyAt, inner.childAt⟩

/-- What a block holds: its header and every slot of its two arrays. -/
structure Contents (α β : Type) where
  header : Header
  first : List α
  second : List β

namespace Arrays

variable {α β : Type} [FixedWidth α] [FixedWidth β] {size : Nat}

section Regions

variable (arrays : Arrays α β)

def slotBytes (offset : Nat → Nat) (width : Nat) : Set Nat :=
  {byte | ∃ i < arrays.capacity, byte ∈ Set.Ico (offset i) (offset i + width)}

def headerBytes : Set Nat := Set.Iio headerSize

def firstBytes : Set Nat := arrays.slotBytes arrays.firstOffset (FixedWidth.width α)

def secondBytes : Set Nat := arrays.slotBytes arrays.secondOffset (FixedWidth.width β)

/-- The three regions of a node are apart and inside a block. -/
structure LaidOut (size : Nat) : Prop where
  header_first : ∀ byte ∈ headerBytes, byte ∉ arrays.firstBytes
  header_second : ∀ byte ∈ headerBytes, byte ∉ arrays.secondBytes
  first_second : ∀ byte ∈ arrays.firstBytes, byte ∉ arrays.secondBytes
  header_inside : headerBytes ⊆ Set.Iio size
  first_inside : arrays.firstBytes ⊆ Set.Iio size
  second_inside : arrays.secondBytes ⊆ Set.Iio size

def contents (block : Block size) : Except Violation (Contents α β) := do
  return {
    header := ← Header.read block
    first := ← (List.range arrays.capacity).mapM (arrays.firstAt block)
    second := ← (List.range arrays.capacity).mapM (arrays.secondAt block) }

def Leads (edit : Edit size Unit) (block : Block size) (held : Contents α β) : Prop :=
  ∃ after, edit.run block = .ok ((), after) ∧ arrays.contents after = .ok held

/-- A block holds `held`, and each part of it can be written without a change to the others. -/
structure Holds (block : Block size) (held : Contents α β) : Prop where
  read : arrays.contents block = .ok held
  first_length : held.first.length = arrays.capacity
  second_length : held.second.length = arrays.capacity
  put_first : ∀ i < arrays.capacity, ∀ a, arrays.Leads (Edit.put (arrays.firstOffset i) a) block
    { held with first := held.first.set i a }
  put_second : ∀ i < arrays.capacity, ∀ b, arrays.Leads (Edit.put (arrays.secondOffset i) b) block
    { held with second := held.second.set i b }
  set_count : ∀ n < 65536, (UInt16.ofNat n).toNat = n ∧ arrays.Leads (Header.setCount n) block
    { held with header := { held.header with count := UInt16.ofNat n } }
  write_header : ∀ header, arrays.Leads (Header.write header) block { held with header }

/-- A node of these arrays is sound in every block of a size: its regions are apart, its header can
count its slots, and each slot is written on its own whatever the block holds. -/
structure Sound (size : Nat) : Prop extends arrays.LaidOut size where
  countable : arrays.capacity < 65536
  holds : ∀ block : Block size, ∃ held, arrays.Holds block held

end Regions

/-- Arrays of `capacity` slots each, one after the other behind the header. -/
def behindHeader (α β : Type) [FixedWidth α] [FixedWidth β] (capacity : Nat) : Arrays α β where
  capacity
  firstOffset i := headerSize + i * FixedWidth.width α
  secondOffset i := headerSize + capacity * FixedWidth.width α + i * FixedWidth.width β
  firstAt block i := block.get (headerSize + i * FixedWidth.width α)
  secondAt block i :=
    block.get (headerSize + capacity * FixedWidth.width α + i * FixedWidth.width β)

theorem leaf_arrays {K V : Type} [IndexKey K] [FixedWidth V] (leaf : LeafLayout K V) :
    leaf.arrays = behindHeader K V leaf.capacity := rfl

theorem inner_arrays {K : Type} [IndexKey K] (inner : InnerLayout K) :
    inner.arrays = behindHeader K PageId inner.capacity := rfl

variable {capacity : Nat}

theorem firstBytes_subset : (behindHeader α β capacity).firstBytes ⊆
    Set.Ico headerSize (headerSize + capacity * FixedWidth.width α) := by
  rintro byte ⟨i, inside, from_slot, to_slot⟩
  have last := Block.slot_end (FixedWidth.width α) (show i < capacity from inside)
  change headerSize + i * _ ≤ byte at from_slot
  change byte < headerSize + i * _ + _ at to_slot
  exact ⟨by omega, by omega⟩

theorem secondBytes_subset : (behindHeader α β capacity).secondBytes ⊆
    Set.Ico (headerSize + capacity * FixedWidth.width α)
      (headerSize + capacity * FixedWidth.width α + capacity * FixedWidth.width β) := by
  rintro byte ⟨i, inside, from_slot, to_slot⟩
  have last := Block.slot_end (FixedWidth.width β) (show i < capacity from inside)
  change headerSize + capacity * _ + i * _ ≤ byte at from_slot
  change byte < headerSize + capacity * _ + i * _ + _ at to_slot
  exact ⟨by omega, by omega⟩

theorem laidOut_behindHeader (room : headerSize + capacity * FixedWidth.width α +
    capacity * FixedWidth.width β ≤ size) : (behindHeader α β capacity).LaidOut size where
  header_first _ ahead h := Nat.not_lt_of_le (firstBytes_subset h).1 ahead
  header_second _ ahead h :=
    Nat.not_lt_of_le (Nat.le_trans (Nat.le_add_right _ _) (secondBytes_subset h).1) ahead
  first_second _ ahead h := Nat.not_lt_of_le (secondBytes_subset h).1 (firstBytes_subset ahead).2
  header_inside _ h := Nat.lt_of_lt_of_le h (by omega)
  first_inside _ h := Nat.lt_of_lt_of_le (firstBytes_subset h).2 (by omega)
  second_inside _ h := Nat.lt_of_lt_of_le (secondBytes_subset h).2 room

end Arrays

namespace Columns

variable {α β : Type} [FixedWidth α] [FixedWidth β] {size capacity : Nat} {block : Block size}
  {header : Header} {first : List α} {second : List β}

theorem contents_eq (h : Columns capacity block header first second)
    (full : first.length = capacity) (full' : second.length = capacity) :
    (Arrays.behindHeader α β capacity).contents block = .ok ⟨header, first, second⟩ := by
  have firsts : (List.range capacity).mapM ((Arrays.behindHeader α β capacity).firstAt block) =
      .ok first := mapM_range_eq_ok full fun _ inside => h.get_first inside
  have seconds : (List.range capacity).mapM ((Arrays.behindHeader α β capacity).secondAt block) =
      .ok second := mapM_range_eq_ok full' fun _ inside => h.get_second inside
  have head := Header.read_eq block h.header_room
  rw [h.header] at head
  unfold Arrays.contents
  rw [head, show (Arrays.behindHeader α β capacity).capacity = capacity from rfl, firsts, seconds]
  rfl

theorem write_header (h : Columns capacity block header first second) (header' : Header) :
    Ends (Header.write header') block (fun _ b => Columns capacity b header' first second)
      (fun _ _ => False) := by
  rw [Header.write_iff h.header_room]
  refine ⟨h.room, h.first_within, h.second_within, Header.of_write _ _ h.header_room, ?_, ?_⟩
  · rw [Header.slots_put _ _ (by decide), Header.slots_put _ _ (by decide), h.first]
  · have behind : headerSize ≤ headerSize + capacity * FixedWidth.width α := Nat.le_add_right _ _
    rw [Header.slots_put _ _ (Nat.le_trans (by decide) behind),
      Header.slots_put _ _ (Nat.le_trans (by decide) behind), h.second]

theorem set_first (h : Columns capacity block header first second) {i : Nat}
    (inside : i < first.length) (a : α) :
    Ends (Edit.put (headerSize + i * FixedWidth.width α) a) block
      (fun _ b => Columns capacity b header (first.set i a) second) (fun _ _ => False) := by
  have cut : first = first.take i ++ first[i] :: first.drop (i + 1) := by
    rw [List.getElem_cons_drop, List.take_append_drop]
  have filled := (cut ▸ h).fill_first a
  rw [List.length_take_of_le (Nat.le_of_lt inside)] at filled
  rw [List.set_eq_take_append_cons_drop, if_pos inside]
  exact filled

theorem set_second (h : Columns capacity block header first second) {i : Nat}
    (inside : i < second.length) (b : β) :
    Ends (Edit.put (headerSize + capacity * FixedWidth.width α + i * FixedWidth.width β) b) block
      (fun _ after => Columns capacity after header first (second.set i b))
      (fun _ _ => False) := by
  have cut : second = second.take i ++ second[i] :: second.drop (i + 1) := by
    rw [List.getElem_cons_drop, List.take_append_drop]
  have filled := (cut ▸ h).fill_second b
  rw [List.length_take_of_le (Nat.le_of_lt inside)] at filled
  rw [List.set_eq_take_append_cons_drop, if_pos inside]
  exact filled

theorem leads {edit : Edit size Unit} (full : first.length = capacity)
    (full' : second.length = capacity)
    (ends : Ends edit block (fun _ b => Columns capacity b header first second)
      (fun _ _ => False)) :
    (Arrays.behindHeader α β capacity).Leads edit block ⟨header, first, second⟩ := by
  obtain ⟨_, after, ran, columns⟩ := Edit.run_of_ends ends
  exact ⟨after, ran, columns.contents_eq full full'⟩

theorem holds (h : Columns capacity block header first second)
    (full : first.length = capacity) (full' : second.length = capacity) :
    (Arrays.behindHeader α β capacity).Holds block ⟨header, first, second⟩ where
  read := h.contents_eq full full'
  first_length := full
  second_length := full'
  put_first i inside a := leads (by simpa using full) full' (h.set_first (full ▸ inside) a)
  put_second i inside b := leads full (by simpa using full') (h.set_second (full' ▸ inside) b)
  set_count n countable :=
    ⟨UInt16.toNat_ofNat'.trans (Nat.mod_eq_of_lt countable), leads full full' (h.set_count n)⟩
  write_header header' := leads full full' (h.write_header header')

end Columns

namespace Arrays

variable {α β : Type} [FixedWidth α] [FixedWidth β] {size capacity : Nat}

theorem sound_behindHeader (countable : capacity < 65536) (room : headerSize +
    capacity * FixedWidth.width α + capacity * FixedWidth.width β ≤ size) :
    (behindHeader α β capacity).Sound size where
  toLaidOut := laidOut_behindHeader room
  countable := countable
  holds block := ⟨_, (Columns.anything block room le_rfl le_rfl).holds (by simp) (by simp)⟩

end Arrays

namespace Capacities

/-- Both kinds of node are sound under accepted capacities, and the values of every field are stored
exactly. An integer in range is the number its word denotes, and its bytes are the digits of that
number in two's complement, the least one first. -/
theorem layouts_sound {K V : Type} [IndexKey K] [FixedWidth V] {capacities : Capacities}
    (accepted : capacities.check K V = .ok ()) :
    (capacities.leafLayout K V).arrays.Sound pageSize ∧
      (capacities.innerLayout K).arrays.Sound pageSize ∧
      (∀ field : FieldType, FixedWidth.Exact field.Carrier) ∧
      ∀ signed size n, Word.InRange signed size n →
        (Word.ofInt n : Word signed size).toInt = n ∧
          ∀ i < size, (FixedWidth.encode (Word.ofInt n : Word signed size)).toList[i]?.map
            (fun byte => (byte.toNat : Int)) = some (n / (256 ^ i : Nat) % (256 : Nat)) := by
  have suitable := suitable_of_check accepted
  refine ⟨?leaf, ?inner, fun field => FixedWidth.exact field.Carrier, fun signed size n range =>
    ⟨Word.toInt_ofInt range, fun i inside => Word.getElem_encode_ofInt n inside⟩⟩
  case leaf =>
    rw [Arrays.leaf_arrays]
    exact Arrays.sound_behindHeader suitable.leaf.countable suitable.leaf.room
  case inner =>
    rw [Arrays.inner_arrays]
    exact Arrays.sound_behindHeader suitable.inner.countable suitable.inner.room

/-- Pages that are full to the last slot, and slots that take no byte. -/
theorem filled_layouts_sound :
    (check (Word false 4) (Vector UInt8 60) ⟨63, 341⟩ = .ok () ∧
      (leafLayout (Word false 4) (Vector UInt8 60) ⟨63, 341⟩).arrays.Sound pageSize ∧
      (innerLayout (Word false 4) ⟨63, 341⟩).arrays.Sound pageSize) ∧
    check (Vector UInt8 0) (Vector UInt8 0) ⟨4092, 511⟩ = .ok () ∧
      (leafLayout (Vector UInt8 0) (Vector UInt8 0) ⟨4092, 511⟩).arrays.Sound pageSize ∧
      (innerLayout (Vector UInt8 0) ⟨4092, 511⟩).arrays.Sound pageSize := by
  have wide : check (Word false 4) (Vector UInt8 60) ⟨63, 341⟩ = .ok () := rfl
  have empty : check (Vector UInt8 0) (Vector UInt8 0) ⟨4092, 511⟩ = .ok () := rfl
  exact ⟨⟨wide, (layouts_sound wide).1, (layouts_sound wide).2.1⟩,
    empty, (layouts_sound empty).1, (layouts_sound empty).2.1⟩

end Capacities

end PagedIndex
