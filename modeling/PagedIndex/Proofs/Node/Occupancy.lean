import PagedIndex.Proofs.Node.Links

/-!
# How much a page may hold

A page is stocked if it is no leaf with more entries than fit, and full if its node has no room for
one more. Nothing is asked of the keys. What the layouts make of stocked pages is stocked again, an
entry that is inserted is in the leaf, and the halves of a node have room.
-/

namespace PagedIndex

namespace LeafLayout

variable {K V : Type} [IndexKey K] [FixedWidth V] {size : Nat} {leaf : LeafLayout K V}
  {block : Block size} (fits : leaf.Fits size)
  (within : (leaf.listing block).length ≤ leaf.capacity)

include fits within

theorem insert_among_ends (key : K) (value : V) :
    Ends (leaf.insert key value) block
      (fun _ b => (key, value) ∈ leaf.listing b ∧ (leaf.listing b).length ≤ leaf.capacity)
      (fun _ _ => True) := by
  obtain ⟨before, own, after, position, entries⟩ := position_among fits within key
  by_cases vacant : own = none → (leaf.listing block).length < leaf.capacity
  case neg =>
    obtain ⟨rfl, full⟩ := Classical.not_imp.mp vacant
    simp only [insert, Ends.bind_iff, Option.isSome_none, Bool.false_eq_true, if_false,
      Edit.inspect_of_ok (f := fun b => leaf.position b key) position,
      Edit.inspect_of_ok (count_eq fits block), Edit.require, if_neg full, Ends.throw_iff]
  refine (insert_at_ends fits within position entries value vacant).imp ?_ fun _ _ _ => trivial
  rintro _ b ⟨-, listing, -⟩
  rw [listing]
  exact ⟨by simp, length_put_le entries within vacant value⟩

theorem erase_among_ends (key : K) :
    Ends (leaf.erase key) block
      (fun _ b => (leaf.listing b).length ≤ leaf.capacity) (fun _ _ => True) := by
  obtain ⟨before, own, after, position, entries⟩ := position_among fits within key
  refine (erase_at_ends fits within position entries).imp ?_ fun _ _ _ => trivial
  rintro _ b ⟨-, listing, -⟩
  have length := congrArg List.length entries
  simp only [List.length_append, List.length_map] at length
  rw [listing, List.length_append]
  omega

theorem lookup_found {key : K} {position : Position}
    (searched : leaf.position block key = .ok position) :
    (∃ value, leaf.lookup block key = .ok (some value)) ↔ position.found = true := by
  obtain ⟨before, own, after, searched', entries⟩ := position_among fits within key
  obtain rfl := Except.ok.inj (searched.symm.trans searched')
  rw [lookup_at fits within searched entries]
  cases own with
  | none => simp
  | some value => simp

end LeafLayout

namespace Capacities

variable {K V : Type} [IndexKey K] [FixedWidth V] {capacities : Capacities}
  {own : PageId → Prop} {bytes bytes' target : Page} {key : K} {value : V}

/-- No leaf with more entries than fit. -/
def Stocked (capacities : Capacities) (bytes : Page) : Prop :=
  (Header.of bytes).level = 0 → (Header.of bytes).count.toNat ≤ capacities.leaf

def Full (capacities : Capacities) (bytes : Page) : Prop :=
  (if (Header.of bytes).level = 0 then capacities.leaf else capacities.inner) ≤
    (Header.of bytes).count.toNat

theorem stocked_of_inner (level : (Header.of bytes).level ≠ 0) : capacities.Stocked bytes :=
  fun leaf => absurd leaf level

theorem stocked_of_vacant (vacant : ¬ capacities.Full bytes) : capacities.Stocked bytes := by
  intro level
  rw [Full, if_pos level] at vacant
  exact Nat.le_of_not_le vacant

theorem stocked_iff (level : (Header.of bytes).level = 0) : capacities.Stocked bytes ↔
    ((capacities.leafLayout K V).listing bytes).length ≤ capacities.leaf := by
  rw [LeafLayout.length_listing]
  exact ⟨fun stocked => stocked level, fun few _ => few⟩

variable (suitable : capacities.Suitable K V)

include suitable

theorem Stocked.insert {added : Bool} (h : capacities.Stocked bytes)
    (level : (Header.of bytes).level = 0)
    (ran : ((capacities.leafLayout K V).insert key value).run bytes = .ok (added, bytes')) :
    capacities.Stocked bytes' ∧ (key, value) ∈ (capacities.leafLayout K V).listing bytes' := by
  obtain ⟨mem, few⟩ := Edit.of_run (LeafLayout.insert_among_ends suitable.leaf
    ((stocked_iff level).mp h) key value) ran
  have kept := (LeafLayout.insert_keeps_level _ _ _).of_run ran
  exact ⟨(stocked_iff (kept.trans level)).mpr few, mem⟩

theorem Stocked.erase {removed : Bool} (h : capacities.Stocked bytes)
    (level : (Header.of bytes).level = 0)
    (ran : ((capacities.leafLayout K V).erase key).run bytes = .ok (removed, bytes')) :
    capacities.Stocked bytes' := by
  have few := Edit.of_run (LeafLayout.erase_among_ends suitable.leaf
    ((stocked_iff (K := K) (V := V) level).mp h) key) ran
  have kept := (LeafLayout.erase_keeps_level _ _).of_run ran
  exact (stocked_iff (K := K) (V := V) (kept.trans level)).mpr few

/-- A new node of two children is stocked, also if its level is that of a leaf. -/
theorem stocked_of_format {level : UInt16} {left right : PageId} {separator : K}
    (ran : ((capacities.innerLayout K).format level left separator right).run bytes =
      .ok ((), bytes')) : capacities.Stocked bytes' := by
  have two : 2 ≤ capacities.inner := Nat.le_of_succ_le suitable.inner_least
  obtain ⟨-, pointers, -⟩ := Edit.of_run
    ((InnerLayout.format_ends suitable.inner bytes level left separator right two).imp
      (fun _ _ h => h) fun _ _ _ => trivial) ran
  have count := InnerLayout.length_pointers (capacities.innerLayout K) bytes'
  rw [pointers] at count
  intro _
  rw [← count]
  exact suitable.leaf_least

theorem Stocked.split_counts {halves : Halves K pageSize} (h : capacities.Stocked bytes)
    (level : (Header.of bytes).level = 0)
    (ran : (capacities.leafLayout K V).split bytes target = .ok halves) :
    ∃ kept moved, (Header.of halves.left).count.toNat = kept + 1 ∧
      (Header.of halves.right).count.toNat = moved + 1 ∧
      (Header.of bytes).count.toNat = kept + moved + 2 := by
  have within := (stocked_iff (K := K) (V := V) level).mp h
  obtain ⟨count, counted, more, -, -⟩ := LeafLayout.split_runs ran
  rw [LeafLayout.count_eq suitable.leaf] at counted
  cases counted
  obtain ⟨halves', ran', left, right, -⟩ :=
    LeafLayout.split_eq suitable.leaf within suitable.leaf target more
  cases ran.symm.trans ran'
  have left := congrArg List.length left
  have right := congrArg List.length right
  simp only [LeafLayout.length_listing, List.length_take, List.length_drop] at left right more
  exact ⟨(Header.of halves.left).count.toNat - 1, (Header.of halves.right).count.toNat - 1,
    by omega, by omega, by omega⟩

theorem Stocked.split_leaf {halves : Halves K pageSize} (h : capacities.Stocked bytes)
    (level : (Header.of bytes).level = 0)
    (ran : (capacities.leafLayout K V).split bytes target = .ok halves) :
    ¬ capacities.Full halves.left ∧ ¬ capacities.Full halves.right := by
  have within := h level
  obtain ⟨kept, moved, left, right, whole⟩ := h.split_counts suitable level ran
  obtain ⟨left_level, right_level⟩ := LeafLayout.split_level suitable.leaf.header ran
  rw [Full, if_pos (left_level.trans level), left, Full, if_pos right_level, right]
  omega

theorem Linked.split_vacant {halves : Halves K pageSize} (h : capacities.Linked K own bytes)
    (above : (Header.of bytes).level ≠ 0)
    (ran : (capacities.innerLayout K).split bytes target = .ok halves) :
    (¬ capacities.Full halves.left ∧ ¬ capacities.Full halves.right) ∧
      (Header.of halves.left).level = (Header.of bytes).level ∧
      (Header.of halves.right).level = (Header.of bytes).level := by
  obtain ⟨-, within, -⟩ := h above
  obtain ⟨keep, half, positive, left, right, left_level, right_level⟩ :=
    h.split_cuts suitable above ran
  have left := congrArg List.length left
  have right := congrArg List.length right
  rw [InnerLayout.length_pointers, List.length_take] at left
  rw [InnerLayout.length_pointers, List.length_drop] at right
  refine ⟨⟨?_, ?_⟩, left_level, right_level⟩
  · rw [Full, if_neg (left_level.trans_ne above), left]
    omega
  · rw [Full, if_neg (right_level.trans_ne above), right]
    omega

end Capacities

end PagedIndex
