import Mathlib.Data.List.Nodup
import PagedIndex.Node.Leaf
import PagedIndex.Proofs.Node.Columns
import PagedIndex.Proofs.Node.Search

/-!
# Leaves as lists of entries

`LeafLayout.listing` is what a leaf holds. On a leaf whose keys ascend, a key cuts the listing into
the entries below it, its own value if there is one, and the entries above; lookup, insertion and
erasure are what the cut says, and a split cuts the listing in two.
-/

namespace PagedIndex

open KeyOrder

theorem length_put_le {K V : Type} {key : K} {entries before after : List (K × V)} {own : Option V}
    {capacity : Nat} (entries_eq : entries = before ++ own.toList.map (Prod.mk key) ++ after)
    (within : entries.length ≤ capacity) (vacant : own = none → entries.length < capacity)
    (value : V) : (before ++ (key, value) :: after).length ≤ capacity := by
  have length := congrArg List.length entries_eq
  simp only [List.length_append, List.length_map] at length
  rw [List.length_append, List.length_cons]
  cases own with
  | none =>
    have room := vacant rfl
    simp only [Option.toList_none, List.length_nil] at length
    omega
  | some old =>
    simp only [Option.toList_some, List.length_singleton] at length
    omega

section Cuts

variable {K V : Type} [IndexKey K]

abbrev Ascending (entries : List (K × V)) : Prop := (entries.map Prod.fst).Pairwise (· < ·)

/-- The entries below a key, the value stored under it and the entries above it. -/
structure Cuts (key : K) (entries before : List (K × V)) (own : Option V)
    (after : List (K × V)) : Prop where
  entries_eq : entries = before ++ own.toList.map (Prod.mk key) ++ after
  below : ∀ entry ∈ before, entry.1 < key
  above : ∀ entry ∈ after, key < entry.1

theorem Ascending.nodup {entries : List (K × V)} (ascending : Ascending entries) : entries.Nodup :=
  List.Nodup.of_map Prod.fst (ascending.imp ne_of_lt)

theorem exists_cuts {entries : List (K × V)} (ascending : Ascending entries) (key : K) :
    ∃ before own after, Cuts key entries before own after := by
  induction entries with
  | nil => exact ⟨[], none, [], rfl, by simp, by simp⟩
  | cons first rest ih =>
    obtain ⟨k, v⟩ := first
    obtain ⟨first_below, ascending⟩ := List.pairwise_cons.mp ascending
    have greater (entry : K × V) (mem : entry ∈ rest) : k < entry.1 :=
      first_below entry.1 (List.mem_map_of_mem mem)
    rcases lt_trichotomy k key with below | rfl | above
    · obtain ⟨before, own, after, cuts⟩ := ih ascending
      refine ⟨(k, v) :: before, own, after, by rw [cuts.entries_eq]; rfl, ?_, cuts.above⟩
      intro entry mem
      rcases List.mem_cons.mp mem with rfl | mem
      · exact below
      · exact cuts.below entry mem
    · exact ⟨[], some v, rest, rfl, by simp, greater⟩
    · refine ⟨[], none, (k, v) :: rest, rfl, by simp, ?_⟩
      intro entry mem
      rcases List.mem_cons.mp mem with rfl | mem
      · exact above
      · exact lt_trans above (greater entry mem)

namespace Cuts

variable {key : K} {entries before after : List (K × V)} {own : Option V}

theorem countP_below (h : Cuts key entries before own after) :
    (entries.map Prod.fst).countP (· < key) = before.length := by
  have left : before.countP (fun entry => decide (entry.1 < key)) = before.length :=
    List.countP_eq_length.mpr fun entry mem => by simpa using h.below entry mem
  have right : after.countP (fun entry => decide (entry.1 < key)) = 0 :=
    List.countP_eq_zero.mpr fun entry mem => by simpa using le_of_lt (h.above entry mem)
  rw [h.entries_eq, List.countP_map]
  cases own <;> simp [Function.comp_def, left, right]

theorem mem_keys_iff (h : Cuts key entries before own after) :
    key ∈ entries.map Prod.fst ↔ own.isSome := by
  have left (v : V) : (key, v) ∉ before := fun mem => lt_irrefl _ (h.below _ mem)
  have right (v : V) : (key, v) ∉ after := fun mem => lt_irrefl _ (h.above _ mem)
  rw [h.entries_eq]
  cases own <;> simp [left, right]

theorem mem_iff (h : Cuts key entries before own after) (value : V) :
    (key, value) ∈ entries ↔ own = some value := by
  have left : (key, value) ∉ before := fun mem => lt_irrefl _ (h.below _ mem)
  have right : (key, value) ∉ after := fun mem => lt_irrefl _ (h.above _ mem)
  rw [h.entries_eq]
  cases own <;> simp [left, right, eq_comm]

theorem mem_sides_iff (h : Cuts key entries before own after) (entry : K × V) :
    entry ∈ before ++ after ↔ entry ∈ entries ∧ entry.1 ≠ key := by
  rw [h.entries_eq]
  constructor
  · intro mem
    rcases List.mem_append.mp mem with mem | mem
    · exact ⟨by simp [mem], ne_of_lt (h.below entry mem)⟩
    · exact ⟨by simp [mem], ne_of_gt (h.above entry mem)⟩
  · intro given
    rcases given with ⟨mem, apart⟩
    cases own with
    | none => simpa using mem
    | some value =>
      have other : entry ≠ (key, value) := fun same => apart (congrArg Prod.fst same)
      simpa [other] using mem

theorem sublist (h : Cuts key entries before own after) : (before ++ after).Sublist entries := by
  rw [h.entries_eq, List.append_assoc]
  exact (List.sublist_append_right _ _).append_left before

theorem ascending_put (h : Cuts key entries before own after) (ascending : Ascending entries)
    (value : V) : Ascending (before ++ (key, value) :: after) := by
  have rest := ascending.sublist (h.sublist.map Prod.fst)
  rw [List.map_append] at rest
  obtain ⟨ascending_before, ascending_after, across⟩ := List.pairwise_append.mp rest
  have above : ∀ k ∈ after.map Prod.fst, key < k := by
    intro k mem
    obtain ⟨entry, listed, rfl⟩ := List.mem_map.mp mem
    exact h.above entry listed
  rw [Ascending, List.map_append]
  refine List.pairwise_append.mpr
    ⟨ascending_before, List.pairwise_cons.mpr ⟨above, ascending_after⟩,
    ?_⟩
  intro k mem k' mem'
  rcases List.mem_cons.mp mem' with rfl | mem'
  · obtain ⟨entry, listed, rfl⟩ := List.mem_map.mp mem
    exact h.below entry listed
  · exact across k mem k' mem'

theorem length_eq (h : Cuts key entries before own after) :
    entries.length = before.length + own.toList.length + after.length := by
  rw [h.entries_eq]
  simp [Nat.add_assoc]

end Cuts

end Cuts

namespace LeafLayout

variable {K V : Type} [IndexKey K] [FixedWidth V] {size size' : Nat}

/-- The slots of the layout lie in a block and the header can count them. -/
structure Fits (leaf : LeafLayout K V) (size : Nat) : Prop where
  room : headerSize + leaf.capacity * FixedWidth.width K + leaf.capacity * FixedWidth.width V ≤ size
  countable : leaf.capacity < 65536

/-- The entries of a block as far as its header counts them. -/
def listing (leaf : LeafLayout K V) (block : Block size) : List (K × V) :=
  (block.slots K headerSize (Header.of block).count.toNat).zip
    (block.slots V (headerSize + leaf.capacity * FixedWidth.width K)
      (Header.of block).count.toNat)

variable {leaf : LeafLayout K V} {block : Block size} {entries : List (K × V)}

theorem length_listing (leaf : LeafLayout K V) (block : Block size) :
    (leaf.listing block).length = (Header.of block).count.toNat := by
  simp [listing]

omit [FixedWidth V] in
theorem keyOffset_sub_width (leaf : LeafLayout K V) (index : Nat) :
    leaf.keyOffset (index + 1) - FixedWidth.width K = leaf.keyOffset index :=
  Block.slot_before ..

theorem valueOffset_sub_width (leaf : LeafLayout K V) (index : Nat) :
    leaf.valueOffset (index + 1) - FixedWidth.width V = leaf.valueOffset index :=
  Block.slot_before ..

theorem Fits.header (fits : leaf.Fits size) : headerSize ≤ size := by
  have := fits.room
  omega

theorem columns (fits : leaf.Fits size) (within : (leaf.listing block).length ≤ leaf.capacity) :
    Columns leaf.capacity block (Header.of block) ((leaf.listing block).map Prod.fst)
      ((leaf.listing block).map Prod.snd) := by
  refine ⟨fits.room, by simpa using within, by simpa using within, rfl, ?_, ?_⟩
  · rw [List.length_map, length_listing, listing, List.map_fst_zip (by simp)]
  · rw [List.length_map, length_listing, listing, List.map_snd_zip (by simp)]

theorem listing_of_columns {header : Header}
    (h : Columns leaf.capacity block header (entries.map Prod.fst) (entries.map Prod.snd))
    (count : header.count.toNat = entries.length) : leaf.listing block = entries := by
  have first := h.first
  have second := h.second
  rw [List.length_map] at first second
  rw [listing, h.header, count, first, second]
  exact (List.zip_of_prod rfl rfl).symm

theorem count_eq (fits : leaf.Fits size) (block : Block size) :
    leaf.count block = .ok (leaf.listing block).length := by
  rw [count, Header.read_eq block fits.header, length_listing]
  rfl

theorem Fits.toNat_count (fits : leaf.Fits size) {count : Nat} (within : count ≤ leaf.capacity) :
    (UInt16.ofNat count).toNat = count := by
  have := fits.countable
  exact UInt16.toNat_ofNat'.trans (Nat.mod_eq_of_lt (show count < 65536 by omega))

section Readers

variable (fits : leaf.Fits size) (within : (leaf.listing block).length ≤ leaf.capacity)

include fits within

theorem keyAt_eq (i : Nat) (h : i < (leaf.listing block).length) :
    leaf.keyAt block i = .ok (leaf.listing block)[i].1 := by
  have slot := (columns fits within).get_first (i := i) (by simpa using h)
  rw [List.getElem_map] at slot
  exact slot

theorem valueAt_eq (i : Nat) (h : i < (leaf.listing block).length) :
    leaf.valueAt block i = .ok (leaf.listing block)[i].2 := by
  have slot := (columns fits within).get_second (i := i) (by simpa using h)
  rw [List.getElem_map] at slot
  exact slot

theorem keys_eq : leaf.keys block = .ok ((leaf.listing block).map Prod.fst) := by
  rw [keys, count_eq fits]
  exact mapM_range_eq_ok (List.length_map _) fun i h => by
    rw [keyAt_eq fits within i (by simpa using h), List.getElem_map]

/-- Whatever order the keys are in, the search ends on the key or somewhere among them. -/
theorem position_among (key : K) : ∃ before own after,
    leaf.position block key = .ok ⟨before.length, Option.isSome own⟩ ∧
      leaf.listing block = before ++ own.toList.map (Prod.mk key) ++ after := by
  have readable : ∀ i < (leaf.listing block).length,
      leaf.keyAt block i = .ok (((leaf.listing block).map Prod.fst).getD i key) := by
    intro i inside
    rw [keyAt_eq fits within i inside]
    simp [List.getD, inside]
  obtain ⟨⟨index, found⟩, searched, brackets⟩ := Position.search_brackets readable key
  have counted : leaf.position block key = .ok ⟨index, found⟩ := by
    rw [position, count_eq fits]
    exact searched
  have at_index : ((leaf.listing block).take index).length = index :=
    List.length_take_of_le brackets.index_le
  cases found with
  | false =>
    refine ⟨(leaf.listing block).take index, none, (leaf.listing block).drop index, ?_, ?_⟩
    · rw [at_index]
      exact counted
    · simp
  | true =>
    obtain ⟨inside, same⟩ : index < (leaf.listing block).length ∧
      ((leaf.listing block).map Prod.fst).getD index key = key := brackets.found rfl
    have same : (leaf.listing block)[index].1 = key := by simpa [List.getD, inside] using same
    refine ⟨(leaf.listing block).take index, some (leaf.listing block)[index].2,
      (leaf.listing block).drop (index + 1), ?_, ?_⟩
    · rw [at_index]
      exact counted
    · have entry : (key, (leaf.listing block)[index].2) = (leaf.listing block)[index] :=
        Prod.ext same.symm rfl
      rw [Option.toList_some, List.map_singleton, entry, List.append_assoc, List.singleton_append,
        List.getElem_cons_drop, List.take_append_drop]

theorem position_eq (ascending : Ascending (leaf.listing block)) {key : K}
    {before after : List (K × V)} {own : Option V}
    (cuts : Cuts key (leaf.listing block) before own after) :
    leaf.position block key = .ok ⟨before.length, own.isSome⟩ := by
  have readable (i : Nat) (h : i < ((leaf.listing block).map Prod.fst).length) :
      leaf.keyAt block i = .ok ((leaf.listing block).map Prod.fst)[i] := by
    rw [keyAt_eq fits within i (by simpa using h), List.getElem_map]
  have searched := Position.search_ascending readable ascending key
  rw [List.length_map, cuts.countP_below] at searched
  rw [position, count_eq fits]
  apply searched.trans
  congr 2
  rw [Bool.eq_iff_iff, decide_eq_true_iff, cuts.mem_keys_iff]

theorem lookup_at {key : K} {before after : List (K × V)} {own : Option V}
    (searched : leaf.position block key = .ok ⟨before.length, own.isSome⟩)
    (entries : leaf.listing block = before ++ own.toList.map (Prod.mk key) ++ after) :
    leaf.lookup block key = .ok own := by
  rw [lookup, searched]
  cases own with
  | none => rfl
  | some value =>
    have inside : before.length < (leaf.listing block).length := by
      rw [entries]; simp
    change some <$> leaf.valueAt block before.length = _
    rw [valueAt_eq fits within _ inside]
    have found : (leaf.listing block)[before.length] = (key, value) := by
      simp [entries]
    rw [found]
    rfl

theorem lookup_eq (ascending : Ascending (leaf.listing block)) {key : K}
    {before after : List (K × V)} {own : Option V}
    (cuts : Cuts key (leaf.listing block) before own after) : leaf.lookup block key = .ok own :=
  lookup_at fits within (position_eq fits within ascending cuts) cuts.entries_eq

end Readers

section Edits

variable (fits : leaf.Fits size) (within : (leaf.listing block).length ≤ leaf.capacity)

include fits within

theorem insert_at_ends {key : K} {before after : List (K × V)} {own : Option V}
    (position : leaf.position block key = .ok ⟨before.length, own.isSome⟩)
    (entries : leaf.listing block = before ++ own.toList.map (Prod.mk key) ++ after) (value : V)
    (vacant : own = none → (leaf.listing block).length < leaf.capacity) :
    Ends (leaf.insert key value) block
      (fun added b => added = own.isNone ∧ leaf.listing b = before ++ (key, value) :: after ∧
        (Header.of b).level = (Header.of block).level)
      (fun _ _ => False) := by
  have columns := columns fits within
  have counted := length_listing leaf block
  simp only [insert, Ends.bind_iff,
    Edit.inspect_of_ok (f := fun b => leaf.position b key) position]
  cases own with
  | some old =>
    have listed : leaf.listing block = before ++ (key, old) :: after := by
      rw [entries]; simp
    rw [listed, List.map_append, List.map_append, List.map_cons, List.map_cons] at columns
    have filled := columns.fill_second value
    rw [List.length_map] at filled
    simp only [Option.isSome_some, if_true, Ends.bind_iff]
    refine filled.imp ?_ fun _ _ h => h
    intro _ b columns
    refine ⟨rfl, listing_of_columns
      (by simpa only [List.map_append, List.map_cons] using columns) ?_, by rw [columns.header]⟩
    rw [← counted, listed]
    simp
  | none =>
    have listed : leaf.listing block = before ++ after := by
      rw [entries]; simp
    have vacant := vacant rfl
    have length : (leaf.listing block).length = before.length + after.length := by
      rw [listed, List.length_append]
    rw [listed, List.map_append, List.map_append] at columns
    simp only [Option.isSome_none, Bool.false_eq_true, if_false, Ends.bind_iff]
    rw [Edit.inspect_of_ok (count_eq fits block), Edit.require_of vacant]
    rw [length] at vacant ⊢
    have opened := columns.open_first (by simpa using vacant)
    simp only [List.length_append, List.length_map] at opened
    refine opened.imp ?_ fun _ _ h => h
    intro _ b₁ ended
    rcases ended with ⟨old_key, columns⟩
    have opened := columns.open_second (by simpa using vacant)
    simp only [List.length_append, List.length_map] at opened
    refine opened.imp ?_ fun _ _ h => h
    intro _ b₂ ended
    rcases ended with ⟨old_value, columns⟩
    have filled := columns.fill_first key
    rw [List.length_map] at filled
    refine filled.imp ?_ fun _ _ h => h
    intro _ b₃ columns
    have filled := columns.fill_second value
    rw [List.length_map] at filled
    refine filled.imp ?_ fun _ _ h => h
    intro _ b₄ columns
    refine (columns.set_count _).imp ?_ fun _ _ h => h
    intro _ b₅ columns
    refine ⟨rfl, listing_of_columns
      (by simpa only [List.map_append, List.map_cons] using columns) ?_, by rw [columns.header]⟩
    rw [fits.toNat_count (show _ + 1 ≤ leaf.capacity from vacant), List.length_append,
      List.length_cons]
    omega

/-- On ascending keys an entry is inserted between those below its key and those above. -/
theorem insert_ends (ascending : Ascending (leaf.listing block)) {key : K}
    {before after : List (K × V)} {own : Option V}
    (cuts : Cuts key (leaf.listing block) before own after) (value : V)
    (vacant : own = none → (leaf.listing block).length < leaf.capacity) :
    Ends (leaf.insert key value) block
      (fun added b => added = own.isNone ∧ leaf.listing b = before ++ (key, value) :: after ∧
        (Header.of b).level = (Header.of block).level)
      (fun _ _ => False) :=
  insert_at_ends fits within (position_eq fits within ascending cuts) cuts.entries_eq value vacant

theorem erase_at_ends {key : K} {before after : List (K × V)} {own : Option V}
    (position : leaf.position block key = .ok ⟨before.length, own.isSome⟩)
    (entries : leaf.listing block = before ++ own.toList.map (Prod.mk key) ++ after) :
    Ends (leaf.erase key) block
      (fun removed b => removed = own.isSome ∧ leaf.listing b = before ++ after ∧
        (Header.of b).level = (Header.of block).level ∧ (own = none → b = block))
      (fun _ _ => False) := by
  have columns := columns fits within
  simp only [erase, Ends.bind_iff,
    Edit.inspect_of_ok (f := fun b => leaf.position b key) position]
  cases own with
  | none =>
    have listed : leaf.listing block = before ++ after := by
      rw [entries]; simp
    exact ⟨rfl, listed, rfl, fun _ => rfl⟩
  | some old =>
    have listed : leaf.listing block = before ++ (key, old) :: after := by
      rw [entries]; simp
    have length : (leaf.listing block).length = before.length + (after.length + 1) := by
      rw [listed, List.length_append, List.length_cons]
    rw [listed, List.map_append, List.map_append, List.map_cons, List.map_cons] at columns
    simp only [Option.isSome_some, Bool.not_true, Bool.false_eq_true, if_false,
      Arithmetic.plain_difference, keyOffset_sub_width, valueOffset_sub_width, Edit.inspect_ok,
      pure_bind, Ends.bind_iff]
    rw [Edit.inspect_of_ok (count_eq fits block)]
    rw [length] at within ⊢
    have closed := columns.close_first
    simp only [List.length_append, List.length_cons, List.length_map] at closed
    refine closed.imp ?_ fun _ _ h => h
    intro _ b₁ columns
    have closed := columns.close_second
    simp only [List.length_append, List.length_cons, List.length_map] at closed
    refine closed.imp ?_ fun _ _ h => h
    intro _ b₂ columns
    refine (columns.set_count _).imp ?_ fun _ _ h => h
    intro _ b₃ columns
    refine ⟨rfl, listing_of_columns
      (by simpa only [List.map_append, List.map_cons] using columns) ?_,
      by rw [columns.header], by simp⟩
    rw [fits.toNat_count (by omega), List.length_append]
    omega

/-- On ascending keys the entry of the key is erased, if there is one. -/
theorem erase_ends (ascending : Ascending (leaf.listing block)) {key : K}
    {before after : List (K × V)} {own : Option V}
    (cuts : Cuts key (leaf.listing block) before own after) :
    Ends (leaf.erase key) block
      (fun removed b => removed = own.isSome ∧ leaf.listing b = before ++ after ∧
        (Header.of b).level = (Header.of block).level ∧ (own = none → b = block))
      (fun _ _ => False) :=
  erase_at_ends fits within (position_eq fits within ascending cuts) cuts.entries_eq

theorem receive_ends (fits' : leaf.Fits size') (target : Block size') {keep moved : Nat}
    (length : (leaf.listing block).length = keep + moved) :
    Ends (leaf.receive block keep moved) target
      (fun _ b => leaf.listing b = (leaf.listing block).drop keep ∧ (Header.of b).level = 0)
      (fun _ _ => False) := by
  have received := (columns fits within).receive_ends target fits'.room
    ⟨0, UInt16.ofNat moved⟩ (by simpa using length) (by simpa using length)
  refine received.imp ?_ fun _ _ h => h
  intro _ b columns
  rw [← List.map_drop, ← List.map_drop] at columns
  refine ⟨listing_of_columns columns ?_, by rw [columns.header]⟩
  rw [fits.toNat_count (by omega), List.length_drop]
  omega

theorem shrink_ends {keep : Nat} (fewer : keep ≤ (leaf.listing block).length) :
    Ends (Header.setCount keep) block
      (fun _ b => leaf.listing b = (leaf.listing block).take keep ∧
        (Header.of b).level = (Header.of block).level)
      (fun _ _ => False) := by
  have shortened := ((columns fits within).take keep keep).set_count keep
  refine shortened.imp ?_ fun _ _ h => h
  intro _ b columns
  rw [← List.map_take, ← List.map_take] at columns
  refine ⟨listing_of_columns columns ?_, by rw [columns.header]⟩
  rw [fits.toNat_count (by omega), List.length_take]
  omega

/-- A split keeps the first half of the entries, rounded up, and hands the others over. -/
theorem split_eq (fits' : leaf.Fits size') (target : Block size')
    (more : 2 ≤ (leaf.listing block).length) :
    ∃ halves, leaf.split block target = .ok halves ∧
      leaf.listing halves.left =
        (leaf.listing block).take (((leaf.listing block).length + 1) / 2) ∧
      leaf.listing halves.right =
        (leaf.listing block).drop (((leaf.listing block).length + 1) / 2) ∧
      (Header.of halves.left).level = (Header.of block).level ∧
      (Header.of halves.right).level = 0 ∧
      (leaf.listing halves.right).head?.map Prod.fst = some halves.separator := by
  obtain ⟨keep, half⟩ : ∃ keep, keep = ((leaf.listing block).length + 1) / 2 := ⟨_, rfl⟩
  rw [← half]
  obtain ⟨_, right, received, right_listing, right_level⟩ :=
    Edit.run_of_ends (receive_ends fits within fits' target
      (show _ = keep + ((leaf.listing block).length - keep) by omega))
  obtain ⟨_, left, shrunk, left_listing, left_level⟩ :=
    Edit.run_of_ends (shrink_ends fits within (show keep ≤ _ by omega))
  have right_length := congrArg List.length right_listing
  rw [List.length_drop] at right_length
  have occupied : 0 < (leaf.listing right).length := by omega
  have first := keyAt_eq fits' (by omega) 0 occupied
  refine ⟨⟨left, right, (leaf.listing right)[0].1⟩, ?_, left_listing, right_listing, left_level,
    right_level, ?_⟩
  · simp only [split, count_eq fits, bind, Except.bind, if_neg (Nat.not_lt.mpr more), ← half,
      Arithmetic.plain_difference, received, shrunk, first]
    rfl
  · rw [List.head?_eq_getElem?, List.getElem?_eq_getElem occupied]
    rfl

end Edits

theorem format_ends (fits : leaf.Fits size) (block : Block size) :
    Ends (leaf.format : Edit size Unit) block
      (fun _ b => leaf.listing b = [] ∧ (Header.of b).level = 0) (fun _ _ => False) := by
  rw [format, Header.write_iff fits.header]
  have written := Header.of_write block ⟨0, 0⟩ fits.header
  refine ⟨List.length_eq_zero_iff.mp ?_, by rw [written]⟩
  rw [length_listing, written]
  rfl

theorem plant_eq (fits : leaf.Fits size) (vacant : 0 < leaf.capacity) (block : Block size)
    (key : K) (value : V) :
    ∃ b, Edit.run (leaf.format >>= fun _ => discard (leaf.insert key value)) block = .ok ((), b) ∧
      leaf.listing b = [(key, value)] ∧ (Header.of b).level = 0 := by
  have planted : Ends (leaf.format >>= fun _ => discard (leaf.insert key value)) block
      (fun _ b => leaf.listing b = [(key, value)] ∧ (Header.of b).level = 0)
      (fun _ _ => False) := by
    rw [Ends.bind_iff]
    refine (format_ends fits block).imp ?_ fun _ _ h => h
    intro _ b ended
    rcases ended with ⟨listing, level⟩
    have cuts : Cuts (V := V) key (leaf.listing b) [] none [] := ⟨listing, by simp, by simp⟩
    refine Ends.discard_iff.mpr ((insert_ends fits (by simp [listing])
      (by simp [listing, Ascending]) cuts value fun _ => by simpa [listing] using vacant).imp ?_
        fun _ _ h => h)
    intro added b' ended
    rcases ended with ⟨-, listing', level'⟩
    exact ⟨listing', level'.trans level⟩
  obtain ⟨_, b, run, done⟩ := Edit.run_of_ends planted
  exact ⟨b, run, done⟩

end LeafLayout

end PagedIndex
