import Mathlib.Order.Basic
import PagedIndex.Proofs.Node.SortedEntries

/-!
# Inner pages as sorted lists of separators and their children

An inner page holds a list of children and between any two of them a separator. What the operations
of an inner node answer and leave in the page is told of the two lists, for keys of any width, for
any capacity that the page has room for and for any bytes in the slots that are not in use.
-/

namespace PagedIndex.InnerLayout

open KeyOrder

variable {K : Type} [IndexKey K] {size size' : Nat} {inner : InnerLayout K} {block : Block size}
  {keys : List K} {children : List PageId}

/-- The block is an inner page: it lists these separators and children, at least one child and as
many as there is room for, and the separators ascend. -/
structure Holds (inner : InnerLayout K) (block : Block size) (keys : List K)
    (children : List PageId) : Prop where
  keys_read : inner.keys block = .ok keys
  children_read : inner.children block = .ok children
  nonempty : children ≠ []
  within : children.length ≤ inner.capacity
  ascending : keys.Pairwise (· < ·)

theorem holds_iff (fits : inner.Fits size) : inner.Holds block keys children ↔
    (inner.separators block = keys ∧ inner.pointers block = children) ∧ children ≠ [] ∧
      children.length ≤ inner.capacity ∧ keys.Pairwise (· < ·) := by
  constructor
  · intro holds
    have length : (inner.pointers block).length = children.length := by
      have read := holds.children_read
      rw [InnerLayout.children, count_eq fits] at read
      exact ((length_of_mapM read).trans List.length_range).symm
    have few := length.le.trans holds.within
    exact ⟨⟨Except.ok.inj ((keys_eq fits few).symm.trans holds.keys_read),
      Except.ok.inj ((children_eq fits few).symm.trans holds.children_read)⟩, holds.nonempty,
      holds.within, holds.ascending⟩
  · rintro ⟨⟨rfl, rfl⟩, some, within, ascending⟩
    exact ⟨keys_eq fits within, children_eq fits within, some, within, ascending⟩

/-- The page holds other separators and children than before. Its level is as it was, and so are the
bytes behind its slots. -/
structure Becomes (inner : InnerLayout K) (block after : Block size) (keys : List K)
    (children : List PageId) : Prop where
  holds : inner.Holds after keys children
  level : (Header.of after).level = (Header.of block).level
  behind : after.AgreeFrom inner.edge block

/-- What the operations of an inner node answer and leave in a page that holds these separators and
children. -/
structure Serves (inner : InnerLayout K) (block : Block size) (keys : List K)
    (children : List PageId) : Prop where
  between : children.length = keys.length + 1
  add : ∀ separator child, separator ∉ keys → children.length < inner.capacity → ∃ after,
    (inner.insert separator child).run block = .ok (true, after) ∧
      inner.Becomes block after (keys.insertIdx (rank separator keys) separator)
        (children.insertIdx (rank separator keys + 1) child)
  /-- The child on the right of a separator that is there is replaced, in a full page as well:
  nothing but its bytes are written. -/
  replace : ∀ i separator child, keys[i]? = some separator → ∃ after,
    (inner.insert separator child).run block = .ok (false, after) ∧
      after = block.overwrite (inner.childOffset (i + 1)) (FixedWidth.encode child).toList ∧
      inner.Becomes block after keys (children.set (i + 1) child)
  /-- A full page refuses another separator before a byte of it has changed. -/
  refuse : ∀ separator child, separator ∉ keys → children.length = inner.capacity → ∃ violation,
    EStateM.run (inner.insert separator child) block = .error violation block ∧
      violation.message = some "insert into a full inner node"
  /-- The first child goes with the first separator, any other with the one on its left. -/
  remove : ∀ key, 2 ≤ children.length → ∃ i after, inner.childIndex block key = .ok i ∧
    i < children.length ∧ (inner.removeChildFor key).run block = .ok (true, after) ∧
      inner.Becomes block after (keys.eraseIdx (i - 1)) (children.eraseIdx i)
  spare : ∀ key, children.length = 1 → (inner.removeChildFor key).run block = .ok (false, block)
  /-- The lower half of the children stays, the others go to a block of any size and of any content
  that has room for the layout. The separator between the halves is in neither. -/
  split : 2 ≤ children.length → ∀ size' (target : Block size'), inner.Fits size' →
    ∃ halves keep, inner.split block target = .ok halves ∧ keep = children.length / 2 ∧
      inner.Becomes block halves.left (keys.take (keep - 1)) (children.take keep) ∧
      inner.Holds halves.right (keys.drop keep) (children.drop keep) ∧
      (Header.of halves.right).level = (Header.of block).level ∧
      halves.right.AgreeFrom inner.edge target ∧ keys[keep - 1]? = some halves.separator ∧
      (∀ key ∈ keys.take (keep - 1), key < halves.separator) ∧
      ∀ key ∈ keys.drop keep, halves.separator < key

section Edits

variable (fits : inner.Fits size) (holds : inner.Holds block keys children)

include fits holds

theorem Holds.listed : inner.separators block = keys ∧ inner.pointers block = children :=
  ((holds_iff fits).mp holds).1

theorem Holds.few : (inner.pointers block).length ≤ inner.capacity := by
  rw [(holds.listed fits).2]
  exact holds.within

theorem Holds.occupied : inner.pointers block ≠ [] := by
  rw [(holds.listed fits).2]
  exact holds.nonempty

theorem Holds.ordered : (inner.separators block).Pairwise (· < ·) := by
  rw [(holds.listed fits).1]
  exact holds.ascending

theorem Holds.length_eq : children.length = keys.length + 1 := by
  obtain ⟨separators, pointers⟩ := holds.listed fits
  have one_less := length_separators inner block
  have positive := List.length_pos_of_ne_nil holds.nonempty
  rw [separators, pointers] at one_less
  omega

theorem Holds.position_eq (separator : K) :
    inner.position block separator = .ok ⟨rank separator keys, decide (separator ∈ keys)⟩ := by
  have searched := InnerLayout.position_eq fits (holds.few fits) (holds.ordered fits) separator
  rw [(holds.listed fits).1] at searched
  exact searched

theorem Holds.childIndex_eq (key : K) :
    inner.childIndex block key = .ok (route key keys) := by
  have routed := InnerLayout.childIndex_eq fits (holds.few fits) (holds.ordered fits) key
  rw [(holds.listed fits).1] at routed
  exact routed

theorem Holds.adds {separator : K} (child : PageId) (absent : separator ∉ keys)
    (vacant : children.length < inner.capacity) : ∃ after,
    (inner.insert separator child).run block = .ok (true, after) ∧
      inner.Becomes block after (keys.insertIdx (rank separator keys) separator)
        (children.insertIdx (rank separator keys + 1) child) := by
  obtain ⟨separators, pointers⟩ := holds.listed fits
  have length := holds.length_eq fits
  have place := rank_le separator keys
  have smaller := below_of_mem_take separator holds.ascending
  have greater := above_of_mem_drop holds.ascending absent
  have cut : inner.separators block = keys.take (rank separator keys) ++
      keys.drop (rank separator keys) := by
    rw [List.take_append_drop, separators]
  have cut' : inner.pointers block = children.take (rank separator keys + 1) ++
      children.drop (rank separator keys + 1) := by
    rw [List.take_append_drop, pointers]
  have inserted := insert_new_ends fits (holds.few fits) child cut (holds.ordered fits)
    smaller greater cut' (by rw [List.length_take, List.length_take]; omega)
    (by rw [pointers]; exact vacant)
  obtain ⟨added, after, ran, ⟨rfl, separators', pointers', level⟩, behind⟩ := Edit.run_of_ends
    ((inserted.and (insert_keeps_edge fits (holds.few fits) (holds.occupied fits) separator
      child)).imp (fun _ _ h => h) fun _ _ h => h.1)
  rw [← insertIdx_eq_take_drop _ place] at separators'
  rw [← insertIdx_eq_take_drop _ (show rank separator keys + 1 ≤ children.length by omega)]
    at pointers'
  refine ⟨after, ran, (holds_iff fits).mpr ⟨⟨separators', pointers'⟩, ?_, ?_,
    ascending_insertIdx holds.ascending absent⟩, level, behind⟩
  · refine List.ne_nil_of_length_pos ?_
    rw [List.length_insertIdx_of_le_length (by omega)]
    omega
  · rw [List.length_insertIdx_of_le_length (by omega)]
    exact vacant

theorem Holds.writes_child {i : Nat} {separator : K} (child : PageId)
    (stored : keys[i]? = some separator) : Ends (inner.insert separator child) block (fun _ b => b =
      block.overwrite (inner.childOffset (i + 1)) (FixedWidth.encode child).toList)
      (fun _ _ => False) := by
  have cut := eq_take_cons_drop stored
  obtain ⟨inside, -⟩ := List.getElem?_eq_some_iff.mp stored
  have at_i : rank separator keys = i := by
    have ranked := countP_lt_of_split (cut ▸ holds.ascending)
    rw [← cut, List.length_take_of_le inside.le] at ranked
    exact ranked
  have searched := holds.position_eq fits separator
  rw [at_i, decide_eq_true (List.mem_of_getElem? stored)] at searched
  have length := holds.length_eq fits
  have within := holds.within
  have slot := Block.slot_end (FixedWidth.width PageId) (show i + 1 < inner.capacity by omega)
  have room := fits.room
  simp only [insert, Ends.bind_iff, Edit.inspect_of_ok (count_eq fits block),
    Edit.inspect_of_ok (f := fun b => inner.position b separator) searched, if_true]
  exact (Edit.put_iff (show headerSize + inner.capacity * FixedWidth.width K +
    (i + 1) * FixedWidth.width PageId + FixedWidth.width PageId ≤ size by omega)).mpr rfl

theorem Holds.replaces {i : Nat} {separator : K} (child : PageId)
    (stored : keys[i]? = some separator) : ∃ after,
    (inner.insert separator child).run block = .ok (false, after) ∧
      after = block.overwrite (inner.childOffset (i + 1)) (FixedWidth.encode child).toList ∧
      inner.Becomes block after keys (children.set (i + 1) child) := by
  obtain ⟨inside, -⟩ := List.getElem?_eq_some_iff.mp stored
  obtain ⟨separators, pointers⟩ := holds.listed fits
  have length := holds.length_eq fits
  have inside' : i + 1 < children.length := by omega
  have cut := eq_take_cons_drop stored
  have cut' := pointers.trans (eq_take_cons_drop (List.getElem?_eq_getElem inside'))
  have place : (keys.take i).length = i := List.length_take_of_le inside.le
  have place' : (children.take (i + 1)).length = i + 1 := List.length_take_of_le inside'.le
  have inserted := insert_old_ends fits (holds.few fits) child (separators.trans cut)
    (holds.ordered fits) cut' (by rw [place, place'])
  have kept := insert_keeps_edge fits (holds.few fits) (holds.occupied fits) separator child
  obtain ⟨added, after, ran, ⟨⟨rfl, separators', pointers', level⟩, behind⟩, rewritten⟩ :=
    Edit.run_of_ends (((inserted.and kept).and (holds.writes_child fits child stored)).imp
      (fun _ _ h => h) fun _ _ h => h.2)
  have replaced := List.set_eq_take_append_cons_drop (l := children) (i := i + 1) (a := child)
  rw [if_pos inside'] at replaced
  refine ⟨after, ran, rewritten, (holds_iff fits).mpr ⟨⟨separators'.trans cut.symm,
    pointers'.trans replaced.symm⟩, ?_, ?_, holds.ascending⟩, level, behind⟩
  · rw [replaced]
    simp
  · rw [List.length_set]
    exact holds.within

theorem Holds.refuses {separator : K} (child : PageId) (absent : separator ∉ keys)
    (full : children.length = inner.capacity) : ∃ violation,
    EStateM.run (inner.insert separator child) block = .error violation block ∧
      violation.message = some "insert into a full inner node" := by
  have searched := holds.position_eq fits separator
  rw [decide_eq_false absent] at searched
  have stops : Ends (inner.insert separator child) block (fun _ _ => False)
      (fun violation b => violation = .innerFull ∧ b = block) := by
    simp only [insert]
    rw [Ends.bind_iff, Edit.inspect_of_ok (count_eq fits block), Ends.bind_iff,
      Edit.inspect_of_ok (f := fun b => inner.position b separator) searched,
      if_neg Bool.false_ne_true, Ends.bind_iff, Edit.require, (holds.listed fits).2,
      if_neg (by omega), Ends.throw_iff]
    exact ⟨rfl, rfl⟩
  obtain ⟨violation, b, ran, rfl, rfl⟩ := stops.exists_error
  exact ⟨.innerFull, ran, rfl⟩

theorem Holds.removes (key : K) (more : 2 ≤ children.length) : ∃ i after,
    inner.childIndex block key = .ok i ∧ i < children.length ∧
      (inner.removeChildFor key).run block = .ok (true, after) ∧
      inner.Becomes block after (keys.eraseIdx (i - 1)) (children.eraseIdx i) := by
  obtain ⟨separators, pointers⟩ := holds.listed fits
  have length := holds.length_eq fits
  have routed := holds.childIndex_eq fits key
  obtain ⟨i, at_i⟩ : ∃ i, i = route key keys := ⟨_, rfl⟩
  have passed := route_le key keys
  rw [← at_i] at routed passed
  have inside : i < children.length := by omega
  have inside' : i - 1 < keys.length := by omega
  have cut := separators.trans (eq_take_cons_drop (List.getElem?_eq_getElem inside'))
  have cut' := pointers.trans (eq_take_cons_drop (List.getElem?_eq_getElem inside))
  have place : (children.take i).length = i := List.length_take_of_le (by omega)
  have removed := removeChildFor_ends fits (holds.few fits) cut (holds.ordered fits) cut'
    (by rw [separators, place]; exact at_i.symm)
    (by rw [place]; exact List.length_take_of_le (by omega))
  obtain ⟨_, after, ran, ⟨rfl, separators', pointers', level⟩, behind⟩ := Edit.run_of_ends
    ((removed.and (removeChildFor_keeps_edge fits (holds.few fits) (holds.occupied fits) key)).imp
      (fun _ _ h => h) fun _ _ h => h.1)
  rw [← List.eraseIdx_eq_take_drop_succ] at separators' pointers'
  have shorter : (children.eraseIdx i).length = children.length - 1 := by
    rw [List.length_eraseIdx, if_pos inside]
  have within := holds.within
  refine ⟨i, after, routed, inside, ran, (holds_iff fits).mpr ⟨⟨separators', pointers'⟩, ?_, ?_,
    holds.ascending.sublist (List.eraseIdx_sublist ..)⟩, level, behind⟩
  · exact List.ne_nil_of_length_pos (by omega)
  · omega

theorem Holds.spares (key : K) (last : children.length = 1) :
    (inner.removeChildFor key).run block = .ok (false, block) := by
  have kept : Ends (inner.removeChildFor key) block
      (fun removed b => removed = false ∧ b = block) (fun _ _ => False) := by
    simp only [removeChildFor]
    rw [Ends.bind_iff, Edit.inspect_of_ok (count_eq fits block), (holds.listed fits).2,
      if_pos last.le]
    exact ⟨rfl, rfl⟩
  obtain ⟨removed, after, ran, rfl, rfl⟩ := Edit.run_of_ends kept
  exact ran

theorem Holds.splits (more : 2 ≤ children.length) (target : Block size')
    (fits' : inner.Fits size') : ∃ halves keep,
    inner.split block target = .ok halves ∧ keep = children.length / 2 ∧
      inner.Becomes block halves.left (keys.take (keep - 1)) (children.take keep) ∧
      inner.Holds halves.right (keys.drop keep) (children.drop keep) ∧
      (Header.of halves.right).level = (Header.of block).level ∧
      halves.right.AgreeFrom inner.edge target ∧ keys[keep - 1]? = some halves.separator ∧
      (∀ key ∈ keys.take (keep - 1), key < halves.separator) ∧
      ∀ key ∈ keys.drop keep, halves.separator < key := by
  have few := holds.few fits
  have within := holds.within
  have length := holds.length_eq fits
  obtain ⟨separators, pointers⟩ := holds.listed fits
  obtain ⟨halves, keep, ran, half, left_keys, left, left_level, right_keys, right, right_level,
    between⟩ := split_eq fits few fits' target (by rw [pointers]; exact more)
  obtain ⟨left_behind, right_behind⟩ := split_keeps_edge fits few ran
  rw [pointers] at half left right
  rw [separators] at left_keys right_keys between
  have ascending := holds.ascending
  have cut := eq_take_cons_drop between
  rw [show keep - 1 + 1 = keep by omega] at cut
  rw [cut] at ascending
  obtain ⟨left_ascends, rest, across⟩ := List.pairwise_append.mp ascending
  obtain ⟨greater, right_ascends⟩ := List.pairwise_cons.mp rest
  refine ⟨halves, keep, ran, half,
    ⟨(holds_iff fits).mpr ⟨⟨left_keys, left⟩, ?_, ?_, left_ascends⟩, left_level, left_behind⟩,
    (holds_iff fits').mpr ⟨⟨right_keys, right⟩, ?_, ?_, right_ascends⟩, right_level,
    right_behind, between, fun k mem => across k mem _ (by simp), greater⟩
  · exact List.ne_nil_of_length_pos (by rw [List.length_take]; omega)
  · rw [List.length_take]
    omega
  · exact List.ne_nil_of_length_pos (by rw [List.length_drop]; omega)
  · rw [List.length_drop]
    omega

end Edits

/-- An inner page serves as the sorted separators and the children that it holds. -/
theorem refines_sorted_separators (fits : inner.Fits size)
    (holds : inner.Holds block keys children) : inner.Serves block keys children where
  between := holds.length_eq fits
  add _ child absent vacant := holds.adds fits child absent vacant
  replace _ _ child stored := holds.replaces fits child stored
  refuse _ child absent full := holds.refuses fits child absent full
  remove key more := holds.removes fits key more
  spare key last := holds.spares fits key last
  split more _ target fits' := holds.splits fits more target fits'

def threeChildren : InnerLayout (Word false 1) := ⟨3⟩

/-- Two of three child slots are in use and one of three separator slots. The others are stale, and
the last byte belongs to no slot. -/
def twoOfThree : Block 32 := #v[1, 0, 2, 0, 5, 99, 99, 10, 0, 0, 0, 0, 0, 0, 0, 11, 0, 0, 0, 0, 0,
  0, 0, 98, 0, 0, 0, 0, 0, 0, 0, 1]

theorem child_right_of_seven : ∃ after,
    (threeChildren.insert (.ofInt 7) ⟨12⟩).run twoOfThree = .ok (true, after) ∧
      threeChildren.Becomes twoOfThree after [.ofInt 5, .ofInt 7] [⟨10⟩, ⟨11⟩, ⟨12⟩] := by
  have holds : threeChildren.Holds twoOfThree [.ofInt 5] [⟨10⟩, ⟨11⟩] :=
    ⟨rfl, rfl, by decide, by decide, by decide⟩
  exact (refines_sorted_separators ⟨by decide, by decide⟩ holds).add (.ofInt 7) ⟨12⟩ (by decide)
    (by decide)

end PagedIndex.InnerLayout
