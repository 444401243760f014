import PagedIndex.Proofs.Node.Links

/-!
# The bytes behind the slots

The slots of a layout end at an edge, which may lie before the end of the block. No edit of a node
writes at the edge or behind it: a shift that opens a slot reaches at most to the last one, and one
that closes a slot reaches less far.
-/

namespace PagedIndex

/-- Two blocks have the same bytes from `edge` on. -/
def Block.AgreeFrom {size : Nat} (edge : Nat) (a b : Block size) : Prop :=
  ∀ i (h : i < size), edge ≤ i → a[i] = b[i]

namespace Edit

variable {size : Nat} {α β : Type} {edge : Nat}

/-- If the edit is not violated, it leaves the bytes from `edge` on. -/
def KeepsFrom (edge : Nat) (edit : Edit size α) : Prop := ∀ block : Block size,
  Ends edit block (fun _ b => b.AgreeFrom edge block) (fun _ _ => True)

namespace KeepsFrom

theorem pure (a : α) : KeepsFrom edge (Pure.pure a : Edit size α) := fun _ _ _ _ => rfl

theorem bind {edit : Edit size α} {next : α → Edit size β} (h : edit.KeepsFrom edge)
    (goes_on : ∀ a, (next a).KeepsFrom edge) : (edit >>= next).KeepsFrom edge := by
  intro block
  rw [Ends.bind_iff]
  refine (h block).imp (fun a b same => ?_) fun _ _ _ => trivial
  refine (goes_on a b).imp (fun _ _ same' => ?_) fun _ _ _ => trivial
  exact fun i inside behind => (same' i inside behind).trans (same i inside behind)

theorem inspect_bind {f : Block size → Except Violation α} {next : α → Edit size β}
    (goes_on : ∀ block a, f block = .ok a → (next a).KeepsFrom edge) :
    (Edit.inspect f >>= next).KeepsFrom edge := by
  intro block
  rw [Ends.bind_iff]
  cases read : f block with
  | ok a => exact (inspect_of_ok read).mpr (goes_on block a read block)
  | error violation => simp only [Ends, Edit.inspect, EStateM.run, read]

theorem require_bind {condition : Prop} [Decidable condition] {violation : Violation}
    {next : Unit → Edit size β} (goes_on : condition → (next ()).KeepsFrom edge) :
    (Edit.require condition violation >>= next).KeepsFrom edge := by
  intro block
  rw [Ends.bind_iff]
  by_cases holds : condition
  · rw [require_of holds]
    exact goes_on holds block
  · rw [Edit.require, if_neg holds]
    trivial

theorem write {start : Nat} {bytes : List UInt8} (ahead : start + bytes.length ≤ edge) :
    (Edit.write start bytes : Edit size Unit).KeepsFrom edge :=
  require_bind fun _ block i inside behind =>
    block.getElem_overwrite_of_outside start bytes i inside (.inr (by omega))

theorem put [FixedWidth α] {start : Nat} (a : α) (ahead : start + FixedWidth.width α ≤ edge) :
    (Edit.put start a : Edit size Unit).KeepsFrom edge :=
  write (by rw [Vector.length_toList]; exact ahead)

end KeepsFrom

theorem length_of_read {block : Block size} {start length : Nat} {bytes : List UInt8}
    (read : block.read start length = .ok bytes) : bytes.length = length := by
  unfold Block.read at read
  split at read
  · cases read
    exact block.length_slice start length ‹_›
  · cases read

namespace KeepsFrom

theorem move {start stop target : Nat} (ahead : target + (stop - start) ≤ edge) :
    (Edit.move start stop target : Edit size Unit).KeepsFrom edge :=
  require_bind fun _ => inspect_bind fun _ _ read =>
    write (by rw [length_of_read read]; exact ahead)

section Slots

variable {base width capacity : Nat} (slots : base + capacity * width ≤ edge)

include slots

theorem open_slot {i count : Nat} (within : i ≤ count) (vacant : count < capacity) :
    (Edit.move (base + i * width) (base + count * width)
      (base + (i + 1) * width) : Edit size Unit).KeepsFrom edge := by
  obtain ⟨rest, next, last⟩ := Block.slot_arithmetic width within
  have bound := Nat.mul_le_mul_right width (show count + 1 ≤ capacity from vacant)
  exact move (by omega)

theorem close_slot {i count : Nat} (within : i < count) (few : count ≤ capacity) :
    (Edit.move (base + (i + 1) * width) (base + count * width)
      (base + i * width) : Edit size Unit).KeepsFrom edge := by
  obtain ⟨rest, -, -⟩ := Block.slot_arithmetic width (show i + 1 ≤ count from within)
  have next := Nat.succ_mul i width
  have bound := Nat.mul_le_mul_right width few
  rw [Nat.succ_eq_add_one] at next
  exact move (by omega)

theorem copy_slots {size' : Nat} {source : Block size'} {start moved : Nat} {bytes : List UInt8}
    (read : source.read start (moved * width) = .ok bytes) (few : moved ≤ capacity) :
    (Edit.write (base + 0 * width) bytes : Edit size Unit).KeepsFrom edge := by
  have bound := Nat.mul_le_mul_right width few
  exact write (by rw [length_of_read read]; omega)

end Slots

theorem fill_slot [FixedWidth α] {base capacity i : Nat}
    (slots : base + capacity * FixedWidth.width α ≤ edge) (a : α) (within : i < capacity) :
    (Edit.put (base + i * FixedWidth.width α) a : Edit size Unit).KeepsFrom edge := by
  have slot := Block.slot_end (FixedWidth.width α) within
  exact put a (by omega)

theorem of_run {edit : Edit size α} {block after : Block size} {a : α} (h : edit.KeepsFrom edge)
    (ran : edit.run block = .ok (a, after)) : after.AgreeFrom edge block := by
  have kept := Edit.of_run (h block) ran
  exact kept

theorem setCount (count : Nat) (slots : headerSize ≤ edge) :
    (Header.setCount count : Edit size Unit).KeepsFrom edge :=
  put _ (by unfold headerSize at slots; show 2 + 2 ≤ edge; omega)

theorem header (header : Header) (slots : headerSize ≤ edge) :
    (Header.write header : Edit size Unit).KeepsFrom edge := by
  unfold headerSize at slots
  exact require_bind fun _ => bind (put _ (by show 0 + 2 ≤ edge; omega)) fun _ =>
    put _ (by show 2 + 2 ≤ edge; omega)

end KeepsFrom

end Edit

namespace LeafLayout

variable {K V : Type} [IndexKey K] [FixedWidth V] {size size' : Nat} {leaf : LeafLayout K V}
  {block : Block size}

/-- Where the slots of the layout end. -/
def edge (leaf : LeafLayout K V) : Nat := leaf.valueOffset leaf.capacity

theorem keys_end (leaf : LeafLayout K V) :
    headerSize + leaf.capacity * FixedWidth.width K ≤ leaf.edge := Nat.le_add_right _ _

theorem header_ends (leaf : LeafLayout K V) : headerSize ≤ leaf.edge :=
  Nat.le_trans (Nat.le_add_right _ _) leaf.keys_end

section Edits

variable (fits : leaf.Fits size) (within : (leaf.listing block).length ≤ leaf.capacity)

include fits within

theorem insert_keeps_edge (key : K) (value : V) : Ends (leaf.insert key value) block
    (fun _ b => b.AgreeFrom leaf.edge block) (fun _ _ => True) := by
  obtain ⟨before, own, after, searched, listed⟩ := position_among fits within key
  have length := congrArg List.length listed
  rw [insert, Ends.bind_iff, Edit.inspect_of_ok (f := fun b => leaf.position b key) searched]
  cases own with
  | some old =>
    have inside : before.length < leaf.capacity := by
      simp only [Option.toList_some, List.map_cons, List.map_nil, List.length_append,
        List.length_cons, List.length_nil] at length
      omega
    exact Edit.KeepsFrom.bind (.fill_slot (Nat.le_refl _) value inside) (fun _ => .pure _) block
  | none =>
    have inside : before.length ≤ (leaf.listing block).length := by
      rw [length, List.length_append, List.length_append]
      omega
    rw [Option.isSome_none, if_neg Bool.false_ne_true, Ends.bind_iff,
      Edit.inspect_of_ok (count_eq fits block)]
    refine Edit.KeepsFrom.require_bind (fun vacant => ?_) block
    have free : before.length < leaf.capacity := Nat.lt_of_le_of_lt inside vacant
    refine .bind (.open_slot leaf.keys_end inside vacant) fun _ =>
      .bind (.open_slot (Nat.le_refl _) inside vacant) fun _ => ?_
    refine .bind (.fill_slot leaf.keys_end key free) fun _ =>
      .bind (.fill_slot (Nat.le_refl _) value free) fun _ => ?_
    exact .bind (.setCount _ leaf.header_ends) fun _ => .pure _

theorem erase_keeps_edge (key : K) : Ends (leaf.erase key) block
    (fun _ b => b.AgreeFrom leaf.edge block) (fun _ _ => True) := by
  obtain ⟨before, own, after, searched, listed⟩ := position_among fits within key
  have length := congrArg List.length listed
  simp only [erase, Arithmetic.plain_difference, keyOffset_sub_width, valueOffset_sub_width,
    Edit.inspect_ok, pure_bind]
  rw [Ends.bind_iff, Edit.inspect_of_ok (f := fun b => leaf.position b key) searched]
  cases own with
  | none => exact fun _ _ _ => rfl
  | some old =>
    have inside : before.length < (leaf.listing block).length := by
      simp only [Option.toList_some, List.map_cons, List.map_nil, List.length_append,
        List.length_cons, List.length_nil] at length
      omega
    rw [Option.isSome_some, Bool.not_true, if_neg Bool.false_ne_true, Ends.bind_iff,
      Edit.inspect_of_ok (count_eq fits block)]
    refine Edit.KeepsFrom.bind (.close_slot leaf.keys_end inside within) (fun _ => ?_) block
    exact .bind (.close_slot (Nat.le_refl _) inside within) fun _ =>
      .bind (.setCount _ leaf.header_ends) fun _ => .pure _

end Edits

theorem receive_keeps_edge (source : Block size') {keep moved : Nat} (few : moved ≤ leaf.capacity) :
    (leaf.receive source keep moved : Edit size Unit).KeepsFrom leaf.edge := by
  simp only [receive, Arithmetic.plain_count, Edit.inspect_ok, pure_bind]
  refine .bind (.header _ leaf.header_ends) fun _ => .inspect_bind fun _ _ keys_read => ?_
  refine .bind (.copy_slots leaf.keys_end keys_read few) fun _ =>
    .inspect_bind fun _ _ values_read => ?_
  exact .copy_slots (Nat.le_refl _) values_read few

theorem split_keeps_edge {target : Block size'} {halves : Halves K size size'}
    (fits : leaf.Fits size) (within : (leaf.listing block).length ≤ leaf.capacity)
    (ran : leaf.split block target = .ok halves) :
    halves.left.AgreeFrom leaf.edge block ∧ halves.right.AgreeFrom leaf.edge target := by
  obtain ⟨count, counted, -, right_ran, left_ran⟩ := split_runs ran
  rw [count_eq fits] at counted
  cases counted
  exact ⟨(Edit.KeepsFrom.setCount _ leaf.header_ends).of_run left_ran,
    (leaf.receive_keeps_edge block (by omega)).of_run right_ran⟩

end LeafLayout

namespace InnerLayout

variable {K : Type} [IndexKey K] {size size' : Nat} {inner : InnerLayout K} {block : Block size}

def edge (inner : InnerLayout K) : Nat := inner.childOffset inner.capacity

theorem keys_end (inner : InnerLayout K) :
    headerSize + inner.capacity * FixedWidth.width K ≤ inner.edge := Nat.le_add_right _ _

theorem header_ends (inner : InnerLayout K) : headerSize ≤ inner.edge :=
  Nat.le_trans (Nat.le_add_right _ _) inner.keys_end

section Edits

variable (fits : inner.Fits size) (within : (inner.pointers block).length ≤ inner.capacity)
  (some : inner.pointers block ≠ [])

include fits within some

theorem insert_keeps_edge (separator : K) (child : PageId) : Ends (inner.insert separator child)
    block (fun _ b => b.AgreeFrom inner.edge block) (fun _ _ => True) := by
  obtain ⟨⟨index, found⟩, searched, below, above, rfl, separators⟩ :=
    position_among fits within separator
  have one_less := congrArg List.length separators
  have positive := List.length_pos_of_ne_nil some
  rw [length_separators] at one_less
  simp only [insert, Arithmetic.plain_difference, Edit.inspect_ok, pure_bind]
  rw [Ends.bind_iff, Edit.inspect_of_ok (count_eq fits block), Ends.bind_iff,
    Edit.inspect_of_ok (f := fun b => inner.position b separator) searched]
  generalize (inner.pointers block).length = count at *
  cases found with
  | true =>
    have inside : below.length + 1 < inner.capacity := by
      rw [if_pos rfl, List.length_append, List.length_cons] at one_less
      omega
    exact Edit.KeepsFrom.bind (.fill_slot (Nat.le_refl _) child inside) (fun _ => .pure _) block
  | false =>
    have inside : below.length ≤ count - 1 := by
      rw [one_less, List.length_append]
      omega
    rw [if_neg Bool.false_ne_true]
    refine Edit.KeepsFrom.require_bind (fun vacant => .require_bind fun _ => ?_) block
    have free : below.length + 1 < inner.capacity := by omega
    refine .bind (.open_slot inner.keys_end inside (by omega)) fun _ =>
      .bind (.open_slot (i := below.length + 1) (Nat.le_refl _) (by omega) vacant) fun _ => ?_
    refine .bind (.fill_slot inner.keys_end separator (Nat.lt_of_succ_lt free)) fun _ =>
      .bind (.fill_slot (Nat.le_refl _) child free) fun _ => ?_
    exact .bind (.setCount _ inner.header_ends) fun _ => .pure _

theorem removeChildFor_keeps_edge (key : K) : Ends (inner.removeChildFor key) block
    (fun _ b => b.AgreeFrom inner.edge block) (fun _ _ => True) := by
  obtain ⟨child, route, inside⟩ := childIndex_lt fits within some key
  simp only [removeChildFor, Arithmetic.plain_difference, keyOffset_sub_width,
    childOffset_sub_width, Edit.inspect_ok, pure_bind]
  rw [Ends.bind_iff, Edit.inspect_of_ok (count_eq fits block)]
  generalize (inner.pointers block).length = count at *
  by_cases last : count ≤ 1
  · rw [if_pos last]
    exact fun _ _ _ => rfl
  · rw [if_neg last, Ends.bind_iff,
      Edit.inspect_of_ok (f := fun b => inner.childIndex b key) route]
    refine Edit.KeepsFrom.bind (.close_slot inner.keys_end (by omega) (by omega)) (fun _ => ?_)
      block
    exact .bind (.close_slot (Nat.le_refl _) inside within) fun _ =>
      .bind (.setCount _ inner.header_ends) fun _ => .pure _

end Edits

theorem receive_keeps_edge (source : Block size') (level : UInt16) {keep moved : Nat}
    (few : moved ≤ inner.capacity) :
    (inner.receive source level keep moved : Edit size Unit).KeepsFrom inner.edge := by
  simp only [receive, Arithmetic.plain_count, Arithmetic.plain_difference, Edit.inspect_ok,
    pure_bind]
  refine .bind (.header _ inner.header_ends) fun _ => .inspect_bind fun _ _ keys_read => ?_
  refine .bind (.copy_slots inner.keys_end keys_read (by omega)) fun _ =>
    .inspect_bind fun _ _ children_read => ?_
  exact .copy_slots (Nat.le_refl _) children_read few

theorem split_keeps_edge {target : Block size'} {halves : Halves K size size'}
    (fits : inner.Fits size) (within : (inner.pointers block).length ≤ inner.capacity)
    (ran : inner.split block target = .ok halves) :
    halves.left.AgreeFrom inner.edge block ∧ halves.right.AgreeFrom inner.edge target := by
  obtain ⟨header, read, -, right_ran, left_ran⟩ := split_runs ran
  rw [Header.read_eq block fits.header] at read
  cases read
  rw [length_pointers] at within
  exact ⟨(Edit.KeepsFrom.setCount _ inner.header_ends).of_run left_ran,
    (inner.receive_keeps_edge block _ (by omega)).of_run right_ran⟩

end InnerLayout

end PagedIndex
