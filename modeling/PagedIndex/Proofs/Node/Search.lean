import PagedIndex.Node.Search
import PagedIndex.Proofs.KeyOrder

/-!
# Binary search

On any slots that can be read the search ends beside the key. On ascending keys it cuts them into
those below the key and those above.
-/

namespace PagedIndex.Position

open KeyOrder

variable {K : Type} [IndexKey K]

/-- A position among `count` slots whose neighbours are on either side of the key. -/
structure Brackets (keyAt : Nat → K) (key : K) (count : Nat) (position : Position) : Prop where
  index_le : position.index ≤ count
  found : position.found = true → position.index < count ∧ keyAt position.index = key
  below : position.found = false → 0 < position.index → keyAt (position.index - 1) < key
  above : position.found = false → position.index < count → key < keyAt position.index

variable {slot : Nat → Except Violation K} {keyAt : Nat → K} {key : K} {count : Nat}

theorem Brackets.between {index : Nat} (inside : index ≤ count)
    (below : 0 < index → keyAt (index - 1) < key) (above : index < count → key < keyAt index) :
    Brackets keyAt key count ⟨index, false⟩ :=
  ⟨inside, nofun, fun _ => below, fun _ => above⟩

/-- What bounds the range from both sides is kept by every halving. -/
theorem bisect_brackets (readable : ∀ i < count, slot i = .ok (keyAt i)) (steps low high : Nat)
    (enough : high - low ≤ steps) (order : low ≤ high) (inside : high ≤ count)
    (below : 0 < low → keyAt (low - 1) < key) (above : high < count → key < keyAt high) :
    ∃ position, bisect .plain slot key steps low high = .ok position ∧
      Brackets keyAt key count position := by
  induction steps generalizing low high with
  | zero =>
    have same : low = high := by omega
    exact ⟨_, rfl, .between (same ▸ inside) below (same ▸ above)⟩
  | succ steps ih =>
    rw [bisect]
    by_cases more : low < high
    · obtain ⟨middle, half⟩ : ∃ middle, middle = low + (high - low) / 2 := ⟨_, rfl⟩
      have inner : middle < high := by omega
      rw [if_pos more]
      simp only [Arithmetic.plain_difference, bind, Except.bind, ← half,
        readable middle (Nat.lt_of_lt_of_le inner inside)]
      cases order : IndexKey.toOrd.compare (keyAt middle) key with
      | lt =>
        exact ih (middle + 1) high (by omega) inner inside (fun _ => compare_lt_iff.mp order) above
      | eq =>
        refine ⟨⟨middle, true⟩, rfl, Nat.le_trans (Nat.le_of_lt inner) inside, fun _ => ?_,
          nofun, nofun⟩
        exact ⟨Nat.lt_of_lt_of_le inner inside, compare_eq_iff.mp order⟩
      | gt =>
        exact ih low middle (by omega) (by omega) (by omega) below fun _ => compare_gt_iff.mp order
    · rw [if_neg more]
      have same : low = high := by omega
      exact ⟨_, rfl, .between (same ▸ inside) below (same ▸ above)⟩

theorem search_brackets (readable : ∀ i < count, slot i = .ok (keyAt i)) (key : K) :
    ∃ position, search slot key count = .ok position ∧ Brackets keyAt key count position :=
  bisect_brackets readable count 0 count (by omega) (by omega) (Nat.le_refl _) (by omega) (by omega)

theorem search_splits {keys : List K} (readable : ∀ i (h : i < keys.length), slot i = .ok keys[i])
    (ascending : keys.Pairwise (· < ·)) (key : K) :
    ∃ position left right, search slot key keys.length = .ok position ∧
      left.length = position.index ∧ keys = left ++
        (if position.found then key :: right else right) ∧
      (∀ k ∈ left, k < key) ∧ ∀ k ∈ right, key < k := by
  have at_index {i : Nat} (h : i < keys.length) : keys.getD i key = keys[i] := by
    simp [List.getD, h]
  have readable : ∀ i < keys.length, slot i = .ok (keys.getD i key) :=
    fun i h => by rw [at_index h]; exact readable i h
  obtain ⟨⟨index, found⟩, searched, brackets⟩ := search_brackets readable key
  have apart {i j : Nat} (h : i < j) (hj : j < keys.length) : keys[i] < keys[j] :=
    List.pairwise_iff_getElem.mp ascending i j _ hj h
  have cut : keys = keys.take index ++ keys.drop index := (List.take_append_drop _ _).symm
  have inside : index ≤ keys.length := brackets.index_le
  have length : (keys.take index).length = index := List.length_take_of_le inside
  cases found with
  | true =>
    obtain ⟨inside, same⟩ : index < keys.length ∧ keys.getD index key = key := brackets.found rfl
    have same : keys[index] = key := by rw [← at_index inside]; exact same
    refine ⟨⟨index, true⟩, keys.take index, keys.drop (index + 1), searched, length, ?_, ?_, ?_⟩
    · rw [if_pos rfl, ← same, List.getElem_cons_drop]; exact cut
    · intro k mem
      obtain ⟨i, h, rfl⟩ := List.mem_take_iff_getElem.mp mem
      exact same ▸ apart (by omega) inside
    · intro k mem
      obtain ⟨i, h, rfl⟩ := List.mem_drop_iff_getElem.mp mem
      exact same ▸ apart (by omega) (by omega)
  | false =>
    refine ⟨⟨index, false⟩, keys.take index, keys.drop index, searched, length, cut, ?_, ?_⟩
    · intro k mem
      obtain ⟨i, h, rfl⟩ := List.mem_take_iff_getElem.mp mem
      have last : keys.getD (index - 1) key < key := brackets.below rfl (show 0 < index by omega)
      rw [at_index (by omega)] at last
      rcases Nat.lt_or_eq_of_le (show i ≤ index - 1 by omega) with before | rfl
      · exact lt_trans (apart before (by omega)) last
      · exact last
    · intro k mem
      obtain ⟨i, h, rfl⟩ := List.mem_drop_iff_getElem.mp mem
      have first : key < keys.getD index key := brackets.above rfl
        (show index < keys.length by omega)
      rw [at_index (by omega)] at first
      rcases Nat.lt_or_eq_of_le (show index ≤ index + i by omega) with after | same
      · exact lt_trans first (apart after (by omega))
      · simp only [← same]; exact first

/-- On ascending keys the position is the number of those below the key. -/
theorem search_ascending {keys : List K}
    (readable : ∀ i (h : i < keys.length), slot i = .ok keys[i])
    (ascending : keys.Pairwise (· < ·)) (key : K) :
    search slot key keys.length = .ok ⟨keys.countP (· < key), decide (key ∈ keys)⟩ := by
  obtain ⟨⟨index, found⟩, left, right, searched, length, cut, below, above⟩ :=
    search_splits readable ascending key
  have count_left : left.countP (· < key) = left.length :=
    List.countP_eq_length.mpr fun k mem => by simpa using below k mem
  have count_right : right.countP (· < key) = 0 :=
    List.countP_eq_zero.mpr fun k mem => by simpa using le_of_lt (above k mem)
  have not_left : key ∉ left := fun mem => lt_irrefl _ (below key mem)
  have not_right : key ∉ right := fun mem => lt_irrefl _ (above key mem)
  rw [searched]
  apply congrArg Except.ok
  cases found with
  | true =>
    simp only [if_true] at cut
    simp [cut, count_left, count_right, length]
  | false =>
    simp only [Bool.false_eq_true, if_false] at cut
    simp [cut, count_left, count_right, length, not_left, not_right]

theorem countP_le (keys : List K) (key : K) :
    keys.countP (· ≤ key) = keys.countP (· < key) + keys.count key := by
  induction keys with
  | nil => rfl
  | cons first rest ih =>
    rw [List.countP_cons, List.countP_cons, List.count_cons, ih]
    rcases lt_trichotomy first key with below | rfl | above
    · simp [below, le_of_lt below, ne_of_lt below]
      omega
    · simp
      omega
    · simp [not_le_of_gt above, not_lt_of_ge (le_of_lt above), ne_of_gt above]

theorem lt_countP_iff {α : Type} {p : α → Bool} {keys : List α}
    (first : keys.Pairwise fun a b => p b → p a) {i : Nat} (inside : i < keys.length) :
    i < keys.countP p ↔ p keys[i] := by
  induction keys generalizing i with
  | nil => exact absurd inside (Nat.not_lt_zero i)
  | cons key rest ih =>
    obtain ⟨later, first⟩ := List.pairwise_cons.mp first
    by_cases holds : p key
    · rw [List.countP_cons_of_pos holds]
      cases i with
      | zero => simp [holds]
      | succ i =>
        rw [Nat.add_lt_add_iff_right, List.getElem_cons_succ]
        exact ih first (Nat.lt_of_succ_lt_succ inside)
    · have none : rest.countP p = 0 := List.countP_eq_zero.mpr fun k mem test =>
        holds (later k mem test)
      rw [List.countP_cons_of_neg holds, none]
      refine ⟨fun below => absurd below (Nat.not_lt_zero i), fun test => absurd ?_ holds⟩
      rcases List.mem_cons.mp (List.getElem_mem inside) with same | mem
      · exact same ▸ test
      · exact later _ mem test

theorem lt_countP_lt_iff {keys : List K} (ascending : keys.Pairwise (· < ·)) {key : K} {i : Nat}
    (inside : i < keys.length) : i < keys.countP (· < key) ↔ keys[i] < key := by
  rw [lt_countP_iff (ascending.imp fun below => ?_) inside, decide_eq_true_iff]
  simpa using fun h => lt_trans below h

theorem lt_countP_le_iff {keys : List K} (ascending : keys.Pairwise (· < ·)) {key : K} {i : Nat}
    (inside : i < keys.length) : i < keys.countP (· ≤ key) ↔ keys[i] ≤ key := by
  rw [lt_countP_iff (ascending.imp fun below => ?_) inside, decide_eq_true_iff]
  simpa using fun h => le_trans (le_of_lt below) h

end PagedIndex.Position
