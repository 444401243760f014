import Mathlib.Algebra.Order.Ring.Nat
import PagedIndex.FixedWidth.Word
import PagedIndex.Node.Inner
import PagedIndex.Proofs.Node.Columns
import PagedIndex.Proofs.Node.Search

/-!
# Searches in pages of any content

A page may hold its keys in any order. As long as all of them can be read, a search ends after as
many probes as their number has bits, on the key or between a smaller and a larger one. What it
ends on is where the key stands as soon as the keys ascend.
-/

namespace PagedIndex

open KeyOrder

namespace Position

variable {K : Type} [IndexKey K] {slot : Nat → Except Violation K} {key : K}
  {probes rounds steps low high count : Nat} {position : Position}

def middle (low high : Nat) : Nat := low + (high - low) / 2

/-- From the range from `low` to `high` on, the halving ends at a position after some probes. It
is not told beforehand how many it may make. -/
inductive Halving (slot : Nat → Except Violation K) (key : K) : Nat → Nat → Nat → Position → Prop
  | closed {low high : Nat} (empty : ¬ low < high) : Halving slot key 0 low high ⟨low, false⟩
  | hit {low high : Nat} (more : low < high) (read : slot (middle low high) = .ok key) :
      Halving slot key 1 low high ⟨middle low high, true⟩
  | upper {probes low high : Nat} {probe : K} {position : Position} (more : low < high)
      (read : slot (middle low high) = .ok probe) (below : probe < key)
      (rest : Halving slot key probes (middle low high + 1) high position) :
      Halving slot key (probes + 1) low high position
  | lower {probes low high : Nat} {probe : K} {position : Position} (more : low < high)
      (read : slot (middle low high) = .ok probe) (above : key < probe)
      (rest : Halving slot key probes low (middle low high) position) :
      Halving slot key (probes + 1) low high position

/-- What is left of a range is less than half of it, so the probes are as many as its bits. -/
theorem Halving.probes_le (h : Halving slot key probes low high position)
    (short : high - low < 2 ^ rounds) : probes ≤ rounds := by
  have nonempty {low high rounds : Nat} (more : low < high) (short : high - low < 2 ^ rounds) :
      ∃ fewer, rounds = fewer + 1 ∧ high - low < 2 * 2 ^ fewer := by
    cases rounds with
    | zero => rw [Nat.pow_zero] at short; omega
    | succ fewer => exact ⟨fewer, rfl, by rwa [Nat.pow_succ, Nat.mul_comm] at short⟩
  induction h generalizing rounds with
  | closed empty => exact Nat.zero_le _
  | hit more read =>
    obtain ⟨fewer, rfl, -⟩ := nonempty more short
    exact Nat.le_add_left 1 fewer
  | upper more read below rest ih =>
    obtain ⟨fewer, rfl, half⟩ := nonempty more short
    exact Nat.succ_le_succ (ih (by unfold middle; omega))
  | lower more read above rest ih =>
    obtain ⟨fewer, rfl, half⟩ := nonempty more short
    exact Nat.succ_le_succ (ih (by unfold middle; omega))

/-- The steps that a search is given are enough: it ends where the halving ends by itself. -/
theorem bisect_halves (enough : high - low ≤ steps)
    (ran : bisect .plain slot key steps low high = .ok position) :
    ∃ probes, Halving slot key probes low high position := by
  induction steps generalizing low high with
  | zero =>
    cases ran
    exact ⟨0, .closed (by omega)⟩
  | succ steps ih =>
    rw [bisect] at ran
    by_cases more : low < high
    · rw [if_pos more] at ran
      simp only [Arithmetic.plain_difference, bind, Except.bind] at ran
      cases read : slot (middle low high) with
      | error e => rw [middle] at read; simp only [read] at ran; cases ran
      | ok probe =>
        have read' := read
        rw [middle] at read'
        simp only [read'] at ran
        cases order : IndexKey.toOrd.compare probe key with
        | lt =>
          simp only [order] at ran
          obtain ⟨probes, rest⟩ := ih (by omega) ran
          exact ⟨probes + 1, .upper more read (compare_lt_iff.mp order) rest⟩
        | eq =>
          simp only [order] at ran
          cases ran
          exact ⟨1, .hit more (compare_eq_iff.mp order ▸ read)⟩
        | gt =>
          simp only [order] at ran
          obtain ⟨probes, rest⟩ := ih (by omega) ran
          exact ⟨probes + 1, .lower more read (compare_gt_iff.mp order) rest⟩
    · rw [if_neg more] at ran
      cases ran
      exact ⟨0, .closed more⟩

/-- Where a key stands among slots: on its equal, or between a smaller and a larger slot, as far as
there are any on either side. Among ascending slots that is its rank. -/
structure Locates (slots : List K) (key : K) (position : Position) : Prop where
  index_le : position.index ≤ slots.length
  found : position.found = true →
    position.index < slots.length ∧ slots[position.index]? = some key
  below : position.found = false → 0 < position.index →
    ∃ smaller, slots[position.index - 1]? = some smaller ∧ smaller < key
  above : position.found = false → position.index < slots.length →
    ∃ larger, slots[position.index]? = some larger ∧ key < larger
  index_eq : slots.Pairwise (· < ·) → position.index = slots.countP (· < key)
  found_iff : slots.Pairwise (· < ·) → (position.found = true ↔ key ∈ slots)

/-- What a search comes to among so many slots that can all be read. -/
def Settles (slot : Nat → Except Violation K) (key : K) (count : Nat)
    (listed : Except Violation (List K)) (searched : Except Violation Position) : Prop :=
  ∃ slots position probes, listed = .ok slots ∧ slots.length = count ∧ searched = .ok position ∧
    Halving slot key probes 0 count position ∧ probes ≤ count.log2 + 1 ∧
    Locates slots key position

theorem locates_of_search {slots : List K}
    (readable : ∀ i (h : i < slots.length), slot i = .ok slots[i])
    (searched : search slot key slots.length = .ok position) : Locates slots key position := by
  have at_index {i : Nat} (h : i < slots.length) : slots[i]? = some (slots.getD i key) := by
    simp [List.getD, h]
  have readable' : ∀ i < slots.length, slot i = .ok (slots.getD i key) := by
    intro i inside
    rw [readable i inside]
    simp [List.getD, inside]
  obtain ⟨position', searched', brackets⟩ := search_brackets readable' key
  cases searched.symm.trans searched'
  have ranked (ascending : slots.Pairwise (· < ·)) :
      position = ⟨slots.countP (· < key), decide (key ∈ slots)⟩ :=
    Except.ok.inj (searched.symm.trans (search_ascending readable ascending key))
  refine ⟨brackets.index_le, fun found => ?_, fun missed positive => ?_, fun missed inside => ?_,
    fun ascending => ?_, fun ascending => ?_⟩
  · obtain ⟨inside, same⟩ := brackets.found found
    exact ⟨inside, (at_index inside).trans (congrArg some same)⟩
  · have within := brackets.index_le
    exact ⟨_, at_index (by omega), brackets.below missed positive⟩
  · exact ⟨_, at_index inside, brackets.above missed inside⟩
  · rw [ranked ascending]
  · rw [ranked ascending]
    exact decide_eq_true_iff

theorem search_settles (readable : ∀ i < count, ∃ stored, slot i = .ok stored) (key : K) :
    Settles slot key count ((List.range count).mapM slot) (search slot key count) := by
  obtain ⟨stored, reads⟩ : ∃ stored : Nat → K, ∀ i < count, slot i = .ok (stored i) :=
    ⟨fun i => if h : i < count then (readable i h).choose else key, fun i h => by
      simp only [dif_pos h]; exact (readable i h).choose_spec⟩
  have length : ((List.range count).map stored).length = count := by simp
  have readable' (i : Nat) (h : i < ((List.range count).map stored).length) :
      slot i = .ok ((List.range count).map stored)[i] := by
    rw [length] at h
    simpa using reads i h
  obtain ⟨position, searched, -⟩ := search_brackets reads key
  obtain ⟨probes, halving⟩ := bisect_halves (show count - 0 ≤ count from Nat.le_refl _) searched
  refine ⟨_, position, probes, mapM_range_eq_ok length readable', length, searched, halving,
    halving.probes_le Nat.lt_log2_self, locates_of_search readable' ?_⟩
  rw [length]
  exact searched

/-- Whatever a page holds, a search among keys that can all be read ends on the key or between its
neighbours: in a leaf among as many keys as the header counts, in an inner node among one less. On
keys that ascend it tells the number of the smaller ones, and whether the key is there. -/
theorem bracketed_in_any_order {V : Type} [FixedWidth V] {size : Nat} (leaf : LeafLayout K V)
    (inner : InnerLayout K) (block : Block size) (key : K) :
    (∀ count, leaf.count block = .ok count →
      (∀ i < count, ∃ stored, leaf.keyAt block i = .ok stored) →
      Settles (leaf.keyAt block) key count (leaf.keys block) (leaf.position block key)) ∧
    ∀ count, inner.count block = .ok count →
      (∀ i < count - 1, ∃ stored, inner.keyAt block i = .ok stored) →
      Settles (inner.keyAt block) key (count - 1) (inner.keys block)
        (inner.position block key) := by
  constructor
  · intro count counted readable
    have settles := search_settles readable key
    rw [LeafLayout.keys, LeafLayout.position, counted]
    exact settles
  · intro count counted readable
    have settles := search_settles readable key
    rw [InnerLayout.keys, InnerLayout.position, counted]
    exact settles

/-- A block whose header counts four slots, which are in no order. -/
def jumbled : Block 8 := ⟨#[0, 0, 4, 0, 7, 1, 9, 3], rfl⟩

/-- In a jumbled leaf a search misses the three, which is the last key, and ends between a smaller
and a larger one. Read as an inner node, the page has one key less, and the nine is found. -/
theorem jumbled_slots_located :
    let leaf : LeafLayout (Word false 1) (Word false 1) := ⟨4⟩
    let inner : InnerLayout (Word false 1) := ⟨4⟩
    Settles (leaf.keyAt jumbled) ⟨3⟩ 4 (.ok [⟨7⟩, ⟨1⟩, ⟨9⟩, ⟨3⟩]) (.ok ⟨2, false⟩) ∧
      Settles (inner.keyAt jumbled) ⟨9⟩ 3 (.ok [⟨7⟩, ⟨1⟩, ⟨9⟩]) (.ok ⟨2, true⟩) := by
  intro leaf inner
  have readable (i : Nat) (inside : i < 4) :
      ∃ stored, leaf.keyAt jumbled i = .ok stored ∧ inner.keyAt jumbled i = .ok stored := by
    have room : jumbled.get (α := Word false 1) (headerSize + i * 1) = .ok _ :=
      dif_pos (show 4 + i * 1 + 1 ≤ 8 by omega)
    exact ⟨_, room, room⟩
  have located := bracketed_in_any_order leaf inner jumbled
  constructor
  · exact (located ⟨3⟩).1 4 (by decide) fun i inside => (readable i inside).imp fun _ => And.left
  · exact (located ⟨9⟩).2 4 (by decide) fun i inside =>
      (readable i (by omega)).imp fun _ => And.right

end Position

end PagedIndex
