import Mathlib.Data.List.Nodup
import Mathlib.Order.Lattice
import PagedIndex.Node.Inner
import PagedIndex.Proofs.Node.Columns
import PagedIndex.Proofs.Node.Search

/-!
# Inner nodes as lists of separators and children

`InnerLayout.separators` and `InnerLayout.pointers` are what an inner node holds, one child more
than separators. A key is routed past the separators that are not above it. Insertion adds a
separator and the child on its right, removal takes out a child and a separator beside it, and a
split leaves the separator between the halves in neither.
-/

namespace PagedIndex.InnerLayout

open KeyOrder

variable {K : Type} [IndexKey K] {size size' : Nat}

/-- The slots of the layout lie in a block and the header can count them. -/
structure Fits (inner : InnerLayout K) (size : Nat) : Prop where
  room : headerSize + inner.capacity * FixedWidth.width K +
    inner.capacity * FixedWidth.width PageId ≤ size
  countable : inner.capacity < 65536

/-- The separators of a block as far as its header counts its children. -/
def separators (_ : InnerLayout K) (block : Block size) : List K :=
  block.slots K headerSize ((Header.of block).count.toNat - 1)

/-- The children of a block as far as its header counts them. -/
def pointers (inner : InnerLayout K) (block : Block size) : List PageId :=
  block.slots PageId (headerSize + inner.capacity * FixedWidth.width K)
    (Header.of block).count.toNat

variable {inner : InnerLayout K} {block : Block size}

theorem length_pointers (inner : InnerLayout K) (block : Block size) :
    (inner.pointers block).length = (Header.of block).count.toNat :=
  Block.length_slots block _ _

theorem length_separators (inner : InnerLayout K) (block : Block size) :
    (inner.separators block).length = (inner.pointers block).length - 1 := by
  rw [length_pointers]
  exact Block.length_slots block _ _

theorem keyOffset_sub_width (inner : InnerLayout K) (index : Nat) :
    inner.keyOffset (index + 1) - FixedWidth.width K = inner.keyOffset index :=
  Block.slot_before ..

theorem childOffset_sub_width (inner : InnerLayout K) (index : Nat) :
    inner.childOffset (index + 1) - FixedWidth.width PageId = inner.childOffset index :=
  Block.slot_before ..

theorem Fits.header (fits : inner.Fits size) : headerSize ≤ size := by
  have := fits.room
  omega

theorem Fits.toNat_count (fits : inner.Fits size) {count : Nat} (within : count ≤ inner.capacity) :
    (UInt16.ofNat count).toNat = count := by
  have := fits.countable
  exact UInt16.toNat_ofNat'.trans (Nat.mod_eq_of_lt (show count < 65536 by omega))

theorem columns (fits : inner.Fits size) (within : (inner.pointers block).length ≤ inner.capacity) :
    Columns inner.capacity block (Header.of block) (inner.separators block)
      (inner.pointers block) := by
  have length := length_separators inner block
  rw [length_pointers] at within length
  exact Columns.anything block fits.room (by omega) within

theorem of_columns {header : Header} {separators : List K} {pointers : List PageId}
    (h : Columns inner.capacity block header separators pointers)
    (count : header.count.toNat = pointers.length)
    (one_less : separators.length = pointers.length - 1) :
    inner.separators block = separators ∧ inner.pointers block = pointers := by
  rw [InnerLayout.separators, InnerLayout.pointers, h.header, count, ← one_less]
  exact ⟨h.first, h.second⟩

theorem count_eq (fits : inner.Fits size) (block : Block size) :
    inner.count block = .ok (inner.pointers block).length := by
  rw [count, Header.read_eq block fits.header, length_pointers]
  rfl

theorem countP_lt_of_split {separator : K} {below above : List K}
    (ascending : (below ++ separator :: above).Pairwise (· < ·)) :
    (below ++ separator :: above).countP (· < separator) = below.length := by
  obtain ⟨-, rest, across⟩ := List.pairwise_append.mp ascending
  obtain ⟨greater, -⟩ := List.pairwise_cons.mp rest
  have left : below.countP (· < separator) = below.length :=
    List.countP_eq_length.mpr fun k mem => by simpa using across k mem separator (by simp)
  have right : above.countP (· < separator) = 0 :=
    List.countP_eq_zero.mpr fun k mem => by simpa using le_of_lt (greater k mem)
  rw [List.countP_append, left, List.countP_cons, right]
  simp

section Readers

variable (fits : inner.Fits size) (within : (inner.pointers block).length ≤ inner.capacity)

include fits within

theorem keyAt_eq (i : Nat) (h : i < (inner.separators block).length) :
    inner.keyAt block i = .ok (inner.separators block)[i] :=
  (columns fits within).get_first h

theorem childAt_eq (i : Nat) (h : i < (inner.pointers block).length) :
    inner.childAt block i = .ok (inner.pointers block)[i] :=
  (columns fits within).get_second h

theorem keys_eq : inner.keys block = .ok (inner.separators block) := by
  rw [keys, count_eq fits]
  exact mapM_range_eq_ok (length_separators inner block) (keyAt_eq fits within)

theorem children_eq : inner.children block = .ok (inner.pointers block) := by
  rw [children, count_eq fits]
  exact mapM_range_eq_ok rfl (childAt_eq fits within)

theorem position_eq (ascending : (inner.separators block).Pairwise (· < ·)) (key : K) :
    inner.position block key = .ok ⟨(inner.separators block).countP (· < key),
      decide (key ∈ inner.separators block)⟩ := by
  have searched := Position.search_ascending (keyAt_eq fits within) ascending key
  rw [length_separators] at searched
  rw [position, count_eq fits]
  exact searched

theorem childIndex_eq (ascending : (inner.separators block).Pairwise (· < ·)) (key : K) :
    inner.childIndex block key = .ok ((inner.separators block).countP (· ≤ key)) := by
  rw [childIndex, position_eq fits within ascending]
  apply congrArg Except.ok
  have split := Position.countP_le (inner.separators block) key
  by_cases mem : key ∈ inner.separators block
  · have once := List.nodup_iff_count_eq_one.mp (ascending.imp fun h => ne_of_lt h) key mem
    simp only [mem, decide_true, if_true]
    omega
  · have never := List.count_eq_zero_of_not_mem mem
    simp only [mem, decide_false, Bool.false_eq_true, if_false]
    omega

theorem childFor_eq (ascending : (inner.separators block).Pairwise (· < ·)) {key : K} {index : Nat}
    (route : (inner.separators block).countP (· ≤ key) = index)
    (h : index < (inner.pointers block).length) :
    inner.childFor block key = .ok (inner.pointers block)[index] := by
  rw [childFor, childIndex_eq fits within ascending, route]
  exact childAt_eq fits within index h

end Readers

section Edits

variable (fits : inner.Fits size) (within : (inner.pointers block).length ≤ inner.capacity)

include fits within

theorem insert_at_ends {separator : K} {child : PageId} {below above : List K}
    {before after : List PageId} (separators : inner.separators block = below ++ above)
    (position : inner.position block separator = .ok ⟨below.length, false⟩)
    (pointers : inner.pointers block = before ++ after) (place : before.length = below.length + 1)
    (vacant : (inner.pointers block).length < inner.capacity) :
    Ends (inner.insert separator child) block
      (fun added b => added = true ∧ inner.separators b = below ++ separator :: above ∧
        inner.pointers b = before ++ child :: after ∧
        (Header.of b).level = (Header.of block).level)
      (fun _ _ => False) := by
  have columns := columns fits within
  have total : (before ++ after).length = (inner.pointers block).length := by rw [pointers]
  have one_less : (below ++ above).length = (inner.pointers block).length - 1 := by
    rw [← length_separators, separators]
  rw [separators, pointers] at columns
  simp only [insert, Ends.bind_iff, Edit.inspect_of_ok (count_eq fits block),
    Edit.inspect_of_ok (f := fun b => inner.position b separator) position, Bool.false_eq_true,
    if_false]
  generalize (inner.pointers block).length = count at *
  have lengths := total
  rw [List.length_append] at lengths
  rw [Edit.require_of vacant, Edit.require_of (by omega)]
  have opened := columns.open_first (by omega)
  rw [one_less] at opened
  refine opened.imp ?_ fun _ _ h => h
  intro _ b₁ ended
  rcases ended with ⟨old_key, columns⟩
  have opened := columns.open_second (by omega)
  rw [total, place] at opened
  refine opened.imp ?_ fun _ _ h => h
  intro _ b₂ ended
  rcases ended with ⟨old_child, columns⟩
  refine (columns.fill_first separator).imp ?_ fun _ _ h => h
  intro _ b₃ columns
  have filled := columns.fill_second child
  rw [place] at filled
  refine filled.imp ?_ fun _ _ h => h
  intro _ b₄ columns
  refine (columns.set_count (count + 1)).imp ?_ fun _ _ h => h
  intro _ b₅ columns
  have counted := fits.toNat_count (show count + 1 ≤ inner.capacity from vacant)
  obtain ⟨separators', pointers'⟩ := of_columns columns
    (by rw [counted, List.length_append, List.length_cons]; omega)
    (by simp only [List.length_append, List.length_cons] at one_less ⊢; omega)
  exact ⟨rfl, separators', pointers', by rw [columns.header]⟩

/-- A new separator goes between those below it and those above, and its child to its right. -/
theorem insert_new_ends {separator : K} (child : PageId) {below above : List K}
    {before after : List PageId} (separators : inner.separators block = below ++ above)
    (ascending : (inner.separators block).Pairwise (· < ·))
    (smaller : ∀ k ∈ below, k < separator) (greater : ∀ k ∈ above, separator < k)
    (pointers : inner.pointers block = before ++ after) (place : before.length = below.length + 1)
    (vacant : (inner.pointers block).length < inner.capacity) :
    Ends (inner.insert separator child) block
      (fun added b => added = true ∧ inner.separators b = below ++ separator :: above ∧
        inner.pointers b = before ++ child :: after ∧
        (Header.of b).level = (Header.of block).level)
      (fun _ _ => False) := by
  have position := position_eq fits within ascending separator
  have absent : separator ∉ inner.separators block := by
    rw [separators, List.mem_append]
    intro given
    rcases given with mem | mem
    · exact lt_irrefl _ (smaller _ mem)
    · exact lt_irrefl _ (greater _ mem)
  have rank : (inner.separators block).countP (· < separator) = below.length := by
    have left := List.countP_eq_length.mpr fun k (mem : k ∈ below) =>
      (decide_eq_true (smaller k mem) : decide (k < separator) = true)
    have right : above.countP (· < separator) = 0 := List.countP_eq_zero.mpr fun k mem => by
      simpa using le_of_lt (greater k mem)
    rw [separators, List.countP_append, left, right, Nat.add_zero]
  rw [rank, decide_eq_false absent] at position
  exact insert_at_ends fits within separators position pointers place vacant

theorem retarget_ends {separator : K} {child old : PageId} {below above : List K}
    {before after : List PageId} (separators : inner.separators block = below ++ separator :: above)
    (position : inner.position block separator = .ok ⟨below.length, true⟩)
    (pointers : inner.pointers block = before ++ old :: after)
    (place : before.length = below.length + 1) :
    Ends (inner.insert separator child) block
      (fun added b => added = false ∧ inner.separators b = below ++ separator :: above ∧
        inner.pointers b = before ++ child :: after ∧
        (Header.of b).level = (Header.of block).level)
      (fun _ _ => False) := by
  have columns := columns fits within
  have counted := length_pointers inner block
  have one_less := length_separators inner block
  rw [separators, pointers] at columns one_less
  simp only [insert, Ends.bind_iff, Edit.inspect_of_ok (count_eq fits block),
    Edit.inspect_of_ok (f := fun b => inner.position b separator) position, if_true]
  have filled := columns.fill_second child
  rw [place] at filled
  refine filled.imp ?_ fun _ _ h => h
  intro _ b columns
  rw [pointers, List.length_append, List.length_cons] at counted
  obtain ⟨separators', pointers'⟩ := of_columns columns
    (by rw [← counted, List.length_append, List.length_cons])
    (by rw [one_less]; simp)
  exact ⟨rfl, separators', pointers', by rw [columns.header]⟩

theorem insert_old_ends {separator : K} (child : PageId) {old : PageId}
    {below above : List K} {before after : List PageId}
    (separators : inner.separators block = below ++ separator :: above)
    (ascending : (inner.separators block).Pairwise (· < ·))
    (pointers : inner.pointers block = before ++ old :: after)
    (place : before.length = below.length + 1) :
    Ends (inner.insert separator child) block
      (fun added b => added = false ∧ inner.separators b = below ++ separator :: above ∧
        inner.pointers b = before ++ child :: after ∧
        (Header.of b).level = (Header.of block).level)
      (fun _ _ => False) := by
  have position := position_eq fits within ascending separator
  have present : separator ∈ inner.separators block := by rw [separators]; simp
  have rank := countP_lt_of_split (separators ▸ ascending)
  rw [← separators] at rank
  rw [rank, decide_eq_true present] at position
  exact retarget_ends fits within separators position pointers place

theorem remove_at_ends {key : K} {separator : K} {child : PageId} {below above : List K}
    {before after : List PageId} (separators : inner.separators block = below ++ separator :: above)
    (pointers : inner.pointers block = before ++ child :: after)
    (index : inner.childIndex block key = .ok before.length)
    (beside : below.length = before.length - 1) :
    Ends (inner.removeChildFor key) block
      (fun removed b => removed = true ∧ inner.separators b = below ++ above ∧
        inner.pointers b = before ++ after ∧ (Header.of b).level = (Header.of block).level)
      (fun _ _ => False) := by
  have columns := columns fits within
  have total : (before ++ child :: after).length = (inner.pointers block).length := by rw [pointers]
  have one_less : (below ++ separator :: above).length = (inner.pointers block).length - 1 := by
    rw [← length_separators, separators]
  rw [separators, pointers] at columns
  have lengths := total
  have lengths' := one_less
  rw [List.length_append, List.length_cons] at lengths lengths'
  simp only [removeChildFor, Arithmetic.plain_difference, keyOffset_sub_width,
    childOffset_sub_width, Edit.inspect_ok, pure_bind, Ends.bind_iff,
    Edit.inspect_of_ok (count_eq fits block)]
  rw [if_neg (by omega), Ends.bind_iff,
    Edit.inspect_of_ok (f := fun b => inner.childIndex b key) index]
  simp only [Ends.bind_iff, ← beside]
  generalize (inner.pointers block).length = count at *
  have closed := columns.close_first
  rw [one_less] at closed
  refine closed.imp ?_ fun _ _ h => h
  intro _ b₁ columns
  have closed := columns.close_second
  rw [total] at closed
  refine closed.imp ?_ fun _ _ h => h
  intro _ b₂ columns
  refine (columns.set_count (count - 1)).imp ?_ fun _ _ h => h
  intro _ b₃ columns
  have counted := fits.toNat_count (show count - 1 ≤ inner.capacity by omega)
  obtain ⟨separators', pointers'⟩ := of_columns columns
    (by rw [counted, List.length_append]; omega)
    (by simp only [List.length_append]; omega)
  exact ⟨rfl, separators', pointers', by rw [columns.header]⟩

/-- The child that a key is routed to goes, with the separator on its left, or on its right if it is
the first. -/
theorem removeChildFor_ends {key : K} {separator : K} {child : PageId} {below above : List K}
    {before after : List PageId} (separators : inner.separators block = below ++ separator :: above)
    (ascending : (inner.separators block).Pairwise (· < ·))
    (pointers : inner.pointers block = before ++ child :: after)
    (route : (inner.separators block).countP (· ≤ key) = before.length)
    (beside : below.length = before.length - 1) :
    Ends (inner.removeChildFor key) block
      (fun removed b => removed = true ∧ inner.separators b = below ++ above ∧
        inner.pointers b = before ++ after ∧ (Header.of b).level = (Header.of block).level)
      (fun _ _ => False) :=
  remove_at_ends fits within separators pointers
    (route ▸ childIndex_eq fits within ascending key) beside

theorem receive_ends (fits' : inner.Fits size') (target : Block size') (level : UInt16)
    {keep moved : Nat}
    (length : (inner.pointers block).length = keep + moved) (some_move : 0 < moved) :
    Ends (inner.receive block level keep moved) target
      (fun _ b => inner.separators b = (inner.separators block).drop keep ∧
        inner.pointers b = (inner.pointers block).drop keep ∧ (Header.of b).level = level)
      (fun _ _ => False) := by
  have one_less := length_separators inner block
  have received := (columns fits within).receive_ends target fits'.room
    ⟨level, UInt16.ofNat moved⟩
    (show (inner.separators block).length = keep + (moved - 1) by omega) length
  refine received.imp ?_ fun _ _ h => h
  intro _ b columns
  have counted := fits.toNat_count (show moved ≤ inner.capacity by omega)
  obtain ⟨separators', pointers'⟩ := of_columns columns
    (by rw [counted, List.length_drop]; omega)
    (by rw [List.length_drop, List.length_drop]; omega)
  exact ⟨separators', pointers', by rw [columns.header]⟩

theorem shrink_ends {keep : Nat} (fewer : keep ≤ (inner.pointers block).length) :
    Ends (Header.setCount keep) block
      (fun _ b => inner.separators b = (inner.separators block).take (keep - 1) ∧
        inner.pointers b = (inner.pointers block).take keep ∧
        (Header.of b).level = (Header.of block).level)
      (fun _ _ => False) := by
  have one_less := length_separators inner block
  refine (((columns fits within).take (keep - 1) keep).set_count keep).imp ?_ fun _ _ h => h
  intro _ b columns
  have counted := fits.toNat_count (show keep ≤ inner.capacity by omega)
  obtain ⟨separators', pointers'⟩ := of_columns columns
    (by rw [counted, List.length_take]; omega)
    (by rw [List.length_take, List.length_take]; omega)
  exact ⟨separators', pointers', by rw [columns.header]⟩

/-- A split keeps the first half of the children, rounded down, and hands the others over. The
separator between the halves goes to the parent. -/
theorem split_eq (fits' : inner.Fits size') (target : Block size')
    (more : 2 ≤ (inner.pointers block).length) :
    ∃ halves keep, inner.split block target = .ok halves ∧
      keep = (inner.pointers block).length / 2 ∧
      inner.separators halves.left = (inner.separators block).take (keep - 1) ∧
      inner.pointers halves.left = (inner.pointers block).take keep ∧
      (Header.of halves.left).level = (Header.of block).level ∧
      inner.separators halves.right = (inner.separators block).drop keep ∧
      inner.pointers halves.right = (inner.pointers block).drop keep ∧
      (Header.of halves.right).level = (Header.of block).level ∧
      (inner.separators block)[keep - 1]? = some halves.separator := by
  obtain ⟨keep, half⟩ : ∃ keep, keep = (inner.pointers block).length / 2 := ⟨_, rfl⟩
  have one_less := length_separators inner block
  have counted := length_pointers inner block
  obtain ⟨_, right, received, right_separators, right_pointers, right_level⟩ :=
    Edit.run_of_ends (receive_ends fits within fits' target (Header.of block).level
      (show _ = keep + ((inner.pointers block).length - keep) by omega) (by omega))
  obtain ⟨_, left, shrunk, left_separators, left_pointers, left_level⟩ :=
    Edit.run_of_ends (shrink_ends fits within (show keep ≤ _ by omega))
  have between : keep - 1 < (inner.separators block).length := by omega
  have separator := keyAt_eq fits within (keep - 1) between
  refine ⟨⟨left, right, (inner.separators block)[keep - 1]⟩, keep, ?_, half, left_separators,
    left_pointers, left_level, right_separators, right_pointers, right_level,
    List.getElem?_eq_getElem between⟩
  simp only [split, Header.read_eq block fits.header, ← counted, bind, Except.bind,
    if_neg (Nat.not_lt.mpr more), ← half, Arithmetic.plain_difference, separator, received, shrunk]
  rfl

end Edits

theorem format_ends (fits : inner.Fits size) (block : Block size) (level : UInt16)
    (left : PageId) (separator : K) (right : PageId) (two : 2 ≤ inner.capacity) :
    Ends (inner.format level left separator right) block
      (fun _ b => inner.separators b = [separator] ∧ inner.pointers b = [left, right] ∧
        (Header.of b).level = level)
      (fun _ _ => False) := by
  simp only [format, Ends.bind_iff, Header.write_iff fits.header]
  have columns := Columns.anything (α := K) (β := PageId)
    ((block.overwrite Header.levelOffset (FixedWidth.encode level).toList).overwrite
      Header.countOffset (FixedWidth.encode (2 : UInt16)).toList) fits.room
    (i := 1) (j := 2) (by omega) two
  rw [Header.of_write _ ⟨level, 2⟩ fits.header] at columns
  obtain ⟨old_key, keys⟩ := List.length_eq_one_iff.mp (Block.length_slots (α := K) _ headerSize 1)
  obtain ⟨old_left, old_right, children⟩ := List.length_eq_two.mp (Block.length_slots (α := PageId)
    _ (headerSize + inner.capacity * FixedWidth.width K) 2)
  rw [keys, children, ← List.nil_append [old_key], ← List.nil_append [old_left, old_right]]
    at columns
  refine (columns.fill_first separator).imp ?_ fun _ _ h => h
  intro _ b₁ columns
  refine (columns.fill_second left).imp ?_ fun _ _ h => h
  intro _ b₂ columns
  have columns : Columns inner.capacity b₂ _ _ ([left] ++ old_right :: []) := columns
  refine (columns.fill_second right).imp ?_ fun _ _ h => h
  intro _ b₃ columns
  obtain ⟨separators, pointers⟩ := of_columns columns rfl rfl
  exact ⟨separators, pointers, by rw [columns.header]⟩

end PagedIndex.InnerLayout
