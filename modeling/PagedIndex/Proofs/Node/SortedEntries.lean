import PagedIndex.FixedWidth.Word
import PagedIndex.Proofs.Node.Margin
import PagedIndex.Proofs.Node.Ranks

/-!
# Leaf pages as sorted lists of entries

A leaf page holds a list of entries whose keys ascend. What the operations of a leaf answer and
leave in the page is told of this list, at its full generality: for keys and values of any width,
for any capacity that the page has room for and for any bytes in the slots that are not in use.
-/

namespace PagedIndex

open KeyOrder

section Cuts

variable {K V : Type} [IndexKey K] {key : K} {entries : List (K × V)}

theorem Ascending.cuts_at (ascending : Ascending entries) {i : Nat} {old : V}
    (stored : entries[i]? = some (key, old)) :
    Cuts key entries (entries.take i) (some old) (entries.drop (i + 1)) ∧
      (entries.take i).length = i := by
  obtain ⟨inside, same⟩ := List.getElem?_eq_some_iff.mp stored
  have apart {j k : Nat} (h : j < k) (hk : k < entries.length) : entries[j].1 < entries[k].1 :=
    List.pairwise_iff_getElem.mp (List.pairwise_map.mp ascending) j k _ hk h
  refine ⟨⟨?_, fun entry mem => ?_, fun entry mem => ?_⟩, List.length_take_of_le (by omega)⟩
  · simpa using eq_take_cons_drop stored
  · obtain ⟨j, inside', rfl⟩ := List.mem_take_iff_getElem.mp mem
    have lower := apart (show j < i by omega) inside
    rwa [same] at lower
  · obtain ⟨j, inside', rfl⟩ := List.mem_drop_iff_getElem.mp mem
    have higher := apart (show i < i + 1 + j by omega) (by omega)
    rwa [same] at higher

theorem Ascending.cuts_of_absent (ascending : Ascending entries)
    (absent : key ∉ entries.map Prod.fst) :
    Cuts key entries (entries.take (rank key (entries.map Prod.fst))) none
      (entries.drop (rank key (entries.map Prod.fst))) := by
  refine ⟨by simp, fun entry mem => ?_, fun entry mem => ?_⟩
  · refine below_of_mem_take key ascending entry.1 ?_
    rw [← List.map_take]
    exact List.mem_map_of_mem mem
  · refine above_of_mem_drop ascending absent entry.1 ?_
    rw [← List.map_drop]
    exact List.mem_map_of_mem mem

theorem Ascending.take (ascending : Ascending entries) (n : Nat) : Ascending (entries.take n) :=
  ascending.sublist ((List.take_sublist n entries).map Prod.fst)

theorem Ascending.drop (ascending : Ascending entries) (n : Nat) : Ascending (entries.drop n) :=
  ascending.sublist ((List.drop_sublist n entries).map Prod.fst)

end Cuts

namespace LeafLayout

variable {K V : Type} [IndexKey K] [FixedWidth V] {size size' : Nat} {leaf : LeafLayout K V}
  {block : Block size} {held : List (K × V)}

/-- The block is a leaf page: it lists these entries, as many as there is room for, and their keys
ascend. -/
structure Holds (leaf : LeafLayout K V) (block : Block size) (held : List (K × V)) : Prop where
  entries : leaf.entries block = .ok held
  within : held.length ≤ leaf.capacity
  ascending : Ascending held

theorem entries_eq (fits : leaf.Fits size) (within : (leaf.listing block).length ≤ leaf.capacity) :
    leaf.entries block = .ok (leaf.listing block) := by
  rw [entries, count_eq fits]
  refine mapM_range_eq_ok rfl fun i inside => ?_
  rw [keyAt_eq fits within i inside, valueAt_eq fits within i inside]
  rfl

theorem holds_iff (fits : leaf.Fits size) : leaf.Holds block held ↔
    leaf.listing block = held ∧ held.length ≤ leaf.capacity ∧ Ascending held := by
  constructor
  · intro holds
    have length : (leaf.listing block).length = held.length := by
      have read := holds.entries
      rw [entries, count_eq fits] at read
      exact ((length_of_mapM read).trans List.length_range).symm
    have read := entries_eq fits (length.le.trans holds.within)
    exact ⟨Except.ok.inj (read.symm.trans holds.entries), holds.within, holds.ascending⟩
  · rintro ⟨rfl, within, ascending⟩
    exact ⟨entries_eq fits within, within, ascending⟩

/-- The page holds other entries than before. Its level is as it was, and so are the bytes behind
its slots. -/
structure Becomes (leaf : LeafLayout K V) (block after : Block size) (held : List (K × V)) :
    Prop where
  holds : leaf.Holds after held
  level : (Header.of after).level = (Header.of block).level
  behind : after.AgreeFrom leaf.edge block

/-- What the operations of a leaf answer and leave in a page that holds these entries. -/
structure Serves (leaf : LeafLayout K V) (block : Block size) (held : List (K × V)) : Prop where
  lookup : ∀ key, ∃ found, leaf.lookup block key = .ok found ∧
    ∀ value, found = some value ↔ (key, value) ∈ held
  /-- A stored key has its value replaced, in a full page as well: nothing but the bytes of the
  value is written. -/
  replace : ∀ i key old value, held[i]? = some (key, old) → ∃ after,
    (leaf.insert key value).run block = .ok (false, after) ∧
      after = block.overwrite (leaf.valueOffset i) (FixedWidth.encode value).toList ∧
      leaf.Becomes block after (held.set i (key, value))
  add : ∀ key value, key ∉ held.map Prod.fst → held.length < leaf.capacity → ∃ after,
    (leaf.insert key value).run block = .ok (true, after) ∧
      leaf.Becomes block after (held.insertIdx (rank key (held.map Prod.fst)) (key, value))
  /-- A full page refuses another key before a byte of it has changed. -/
  refuse : ∀ key value, key ∉ held.map Prod.fst → held.length = leaf.capacity → ∃ violation,
    EStateM.run (leaf.insert key value) block = .error violation block ∧
      violation.message = some "insert into a full leaf"
  erase : ∀ i key old, held[i]? = some (key, old) → ∃ after,
    (leaf.erase key).run block = .ok (true, after) ∧
      leaf.Becomes block after (held.eraseIdx i)
  spare : ∀ key, key ∉ held.map Prod.fst → (leaf.erase key).run block = .ok (false, block)
  /-- The lower half, with the odd entry, stays. The upper half goes to a block of any size and of
  any content that has room for the layout. -/
  split : 2 ≤ held.length → ∀ size' (target : Block size'), leaf.Fits size' → ∃ halves keep,
    leaf.split block target = .ok halves ∧ keep = (held.length + 1) / 2 ∧
      leaf.Becomes block halves.left (held.take keep) ∧
      leaf.Holds halves.right (held.drop keep) ∧ (Header.of halves.right).level = 0 ∧
      halves.right.AgreeFrom leaf.edge target ∧
      (held.drop keep).head?.map Prod.fst = some halves.separator ∧
      (∀ entry ∈ held.take keep, entry.1 < halves.separator) ∧
      ∀ entry ∈ held.drop keep, halves.separator ≤ entry.1

section Edits

variable (fits : leaf.Fits size) (holds : leaf.Holds block held)

include fits holds

theorem Holds.listed : leaf.listing block = held := ((holds_iff fits).mp holds).1

theorem Holds.few : (leaf.listing block).length ≤ leaf.capacity := by
  rw [holds.listed fits]
  exact holds.within

theorem Holds.ordered : Ascending (leaf.listing block) := by
  rw [holds.listed fits]
  exact holds.ascending

theorem Holds.cut {key : K} {before after : List (K × V)} {own : Option V}
    (cuts : Cuts key held before own after) :
    Cuts key (leaf.listing block) before own after := by
  rw [holds.listed fits]
  exact cuts

theorem Holds.answers (key : K) : ∃ found, leaf.lookup block key = .ok found ∧
    ∀ value, found = some value ↔ (key, value) ∈ held := by
  obtain ⟨before, own, after, cuts⟩ := exists_cuts (holds.ordered fits) key
  refine ⟨own, lookup_eq fits (holds.few fits) (holds.ordered fits) cuts, fun value => ?_⟩
  rw [← holds.listed fits, cuts.mem_iff]

theorem Holds.becomes_of_insert {key : K} (value : V) {before after : List (K × V)}
    {own : Option V} (cuts : Cuts key held before own after)
    (vacant : own = none → held.length < leaf.capacity) :
    Ends (leaf.insert key value) block (fun added b => added = own.isNone ∧
      leaf.Becomes block b (before ++ (key, value) :: after)) (fun _ _ => False) := by
  have listed := holds.listed fits
  have few := holds.few fits
  have inserted := insert_ends fits few (holds.ordered fits) (holds.cut fits cuts) value
    (by rw [listed]; exact vacant)
  refine (inserted.and (insert_keeps_edge fits few key value)).imp ?_ fun _ _ failed => failed.1
  rintro added b ⟨⟨rfl, listed', level⟩, behind⟩
  rw [listed] at few
  have few' := length_put_le cuts.entries_eq few vacant value
  exact ⟨rfl, (holds_iff fits).mpr ⟨listed', few', cuts.ascending_put holds.ascending value⟩, level,
    behind⟩

theorem Holds.writes_value {key : K} {value old : V} {before after : List (K × V)}
    (cuts : Cuts key held before (some old) after) :
    Ends (leaf.insert key value) block (fun _ b => b =
      block.overwrite (leaf.valueOffset before.length) (FixedWidth.encode value).toList)
      (fun _ _ => False) := by
  have few := holds.few fits
  have inside : before.length < leaf.capacity := by
    have length := cuts.length_eq
    have within := holds.within
    simp only [Option.toList_some, List.length_singleton] at length
    omega
  have slot := Block.slot_end (FixedWidth.width V) inside
  have room := fits.room
  have searched := position_eq fits few (holds.ordered fits) (holds.cut fits cuts)
  rw [insert, Ends.bind_iff, Edit.inspect_of_ok (f := fun b => leaf.position b key) searched,
    Option.isSome_some, if_pos rfl, Ends.bind_iff]
  exact (Edit.put_iff (show headerSize + leaf.capacity * FixedWidth.width K +
    before.length * FixedWidth.width V + FixedWidth.width V ≤ size by omega)).mpr rfl

theorem Holds.replaces {i : Nat} {key : K} {old : V} (value : V)
    (stored : held[i]? = some (key, old)) : ∃ after,
    (leaf.insert key value).run block = .ok (false, after) ∧
      after = block.overwrite (leaf.valueOffset i) (FixedWidth.encode value).toList ∧
      leaf.Becomes block after (held.set i (key, value)) := by
  obtain ⟨inside, -⟩ := List.getElem?_eq_some_iff.mp stored
  obtain ⟨cuts, place⟩ := holds.ascending.cuts_at stored
  have inserted := holds.becomes_of_insert fits value cuts (by simp)
  obtain ⟨added, after, ran, ⟨rfl, becomes⟩, written⟩ :=
    Edit.run_of_ends ((inserted.and (holds.writes_value fits cuts)).imp (fun _ _ h => h)
      fun _ _ h => h.1)
  rw [place] at written
  rw [List.set_eq_take_append_cons_drop, if_pos inside]
  exact ⟨after, ran, written, becomes⟩

theorem Holds.adds {key : K} (value : V) (absent : key ∉ held.map Prod.fst)
    (vacant : held.length < leaf.capacity) : ∃ after,
    (leaf.insert key value).run block = .ok (true, after) ∧
      leaf.Becomes block after (held.insertIdx (rank key (held.map Prod.fst)) (key, value)) := by
  have cuts := holds.ascending.cuts_of_absent absent
  have within := rank_le key (held.map Prod.fst)
  rw [List.length_map] at within
  obtain ⟨added, after, ran, rfl, becomes⟩ :=
    Edit.run_of_ends (holds.becomes_of_insert fits value cuts fun _ => vacant)
  rw [insertIdx_eq_take_drop _ within]
  exact ⟨after, ran, becomes⟩

theorem Holds.refuses {key : K} (value : V) (absent : key ∉ held.map Prod.fst)
    (full : held.length = leaf.capacity) : ∃ violation,
    EStateM.run (leaf.insert key value) block = .error violation block ∧
      violation.message = some "insert into a full leaf" := by
  have cuts := holds.ascending.cuts_of_absent absent
  have listed := holds.listed fits
  have searched := position_eq fits (holds.few fits) (holds.ordered fits) (holds.cut fits cuts)
  have stops : Ends (leaf.insert key value) block (fun _ _ => False)
      (fun violation b => violation = .leafFull ∧ b = block) := by
    rw [insert, Ends.bind_iff, Edit.inspect_of_ok (f := fun b => leaf.position b key) searched,
      Option.isSome_none, if_neg Bool.false_ne_true, Ends.bind_iff,
      Edit.inspect_of_ok (count_eq fits block), Ends.bind_iff, Edit.require, listed,
      if_neg (by omega), Ends.throw_iff]
    exact ⟨rfl, rfl⟩
  obtain ⟨violation, b, ran, rfl, rfl⟩ := stops.exists_error
  exact ⟨.leafFull, ran, rfl⟩

theorem Holds.erases {i : Nat} {key : K} {old : V} (stored : held[i]? = some (key, old)) :
    ∃ after, (leaf.erase key).run block = .ok (true, after) ∧
      leaf.Becomes block after (held.eraseIdx i) := by
  obtain ⟨cuts, -⟩ := holds.ascending.cuts_at stored
  have few := holds.few fits
  have erased := (erase_ends fits few (holds.ordered fits) (holds.cut fits cuts)).and
    (erase_keeps_edge fits few key)
  obtain ⟨removed, after, ran, ⟨rfl, listed', level, -⟩, behind⟩ :=
    Edit.run_of_ends (erased.imp (fun _ _ h => h) fun _ _ h => h.1)
  have fewer : (held.take i ++ held.drop (i + 1)).Sublist held := cuts.sublist
  rw [List.eraseIdx_eq_take_drop_succ]
  refine ⟨after, ran, (holds_iff fits).mpr ⟨listed', ?_, ?_⟩, level, behind⟩
  · exact fewer.length_le.trans holds.within
  · exact holds.ascending.sublist (fewer.map Prod.fst)

theorem Holds.spares {key : K} (absent : key ∉ held.map Prod.fst) :
    (leaf.erase key).run block = .ok (false, block) := by
  have cuts := holds.ascending.cuts_of_absent absent
  obtain ⟨removed, after, ran, rfl, -, -, same⟩ := Edit.run_of_ends
    (erase_ends fits (holds.few fits) (holds.ordered fits) (holds.cut fits cuts))
  rw [ran, same rfl]
  rfl

theorem Holds.splits (more : 2 ≤ held.length) (target : Block size') (fits' : leaf.Fits size') :
    ∃ halves keep, leaf.split block target = .ok halves ∧ keep = (held.length + 1) / 2 ∧
      leaf.Becomes block halves.left (held.take keep) ∧
      leaf.Holds halves.right (held.drop keep) ∧ (Header.of halves.right).level = 0 ∧
      halves.right.AgreeFrom leaf.edge target ∧
      (held.drop keep).head?.map Prod.fst = some halves.separator ∧
      (∀ entry ∈ held.take keep, entry.1 < halves.separator) ∧
      ∀ entry ∈ held.drop keep, halves.separator ≤ entry.1 := by
  have few := holds.few fits
  have within := holds.within
  obtain ⟨halves, ran, left, right, left_level, right_level, first⟩ :=
    split_eq fits few fits' target (by rw [holds.listed fits]; exact more)
  obtain ⟨left_behind, right_behind⟩ := split_keeps_edge fits few ran
  rw [right] at first
  rw [holds.listed fits] at left right first
  obtain ⟨keep, half⟩ : ∃ keep, keep = (held.length + 1) / 2 := ⟨_, rfl⟩
  rw [← half] at left right first
  have inside : keep < held.length := by omega
  rw [List.head?_drop, List.getElem?_eq_getElem inside] at first
  have separator : held[keep].1 = halves.separator := Option.some.inj first
  obtain ⟨cuts, place⟩ := holds.ascending.cuts_at (List.getElem?_eq_getElem inside)
  refine ⟨halves, keep, ran, half, ⟨(holds_iff fits).mpr ⟨left, ?_, holds.ascending.take keep⟩,
    left_level, left_behind⟩, (holds_iff fits').mpr ⟨right, ?_, holds.ascending.drop keep⟩,
    right_level, right_behind, ?_, ?_, ?_⟩
  · rw [List.length_take]
    omega
  · rw [List.length_drop]
    omega
  · rw [List.head?_drop, List.getElem?_eq_getElem inside]
    exact first
  · exact fun entry mem => separator ▸ cuts.below entry mem
  · intro entry mem
    rw [List.drop_eq_getElem_cons inside] at mem
    rcases List.mem_cons.mp mem with rfl | mem
    · exact separator.ge
    · exact separator ▸ (cuts.above entry mem).le

end Edits

/-- A leaf page serves as the sorted list of entries that it holds. -/
theorem refines_sorted_entries (fits : leaf.Fits size) (holds : leaf.Holds block held) :
    leaf.Serves block held where
  lookup := holds.answers fits
  replace _ _ _ value stored := holds.replaces fits value stored
  add _ value absent vacant := holds.adds fits value absent vacant
  refuse _ value absent full := holds.refuses fits value absent full
  erase _ _ _ stored := holds.erases fits stored
  spare _ absent := holds.spares fits absent
  split more _ target fits' := holds.splits fits more target fits'

def threeSlots : LeafLayout (Word false 1) (Word false 1) := ⟨3⟩

/-- Two of three slots are in use. The third key and the third value are stale, and the last two
bytes belong to no slot. -/
def twoOfThree : Block 12 := #v[0, 0, 2, 0, 5, 9, 99, 50, 90, 77, 1, 2]

theorem seven_goes_between : ∃ after,
    (threeSlots.insert (.ofInt 7) (.ofInt 70)).run twoOfThree = .ok (true, after) ∧
      threeSlots.Becomes twoOfThree after
        [(.ofInt 5, .ofInt 50), (.ofInt 7, .ofInt 70), (.ofInt 9, .ofInt 90)] := by
  have holds : threeSlots.Holds twoOfThree [(.ofInt 5, .ofInt 50), (.ofInt 9, .ofInt 90)] :=
    ⟨rfl, by decide, by decide⟩
  exact (refines_sorted_entries ⟨by decide, by decide⟩ holds).add (.ofInt 7) (.ofInt 70)
    (by decide) (by decide)

end LeafLayout

end PagedIndex
