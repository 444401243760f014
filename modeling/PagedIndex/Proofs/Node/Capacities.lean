import PagedIndex.Node.Capacities
import PagedIndex.Proofs.Node.Inner
import PagedIndex.Proofs.Node.Leaf

/-! # Accepted capacities fit a page and can be split -/

namespace PagedIndex.Capacities

variable {K V : Type} [IndexKey K] [FixedWidth V] {capacities : Capacities}

structure Suitable (K V : Type) [IndexKey K] [FixedWidth V] (capacities : Capacities) : Prop where
  leaf : (capacities.leafLayout K V).Fits pageSize
  inner : (capacities.innerLayout K).Fits pageSize
  leaf_least : 2 ≤ capacities.leaf
  inner_least : 3 ≤ capacities.inner

theorem slots_fit {width capacity : Nat} (h : capacity ≤ pageSlots width) :
    headerSize + capacity * width ≤ pageSize ∧ capacity < 65536 := by
  obtain ⟨by_room, by_count⟩ := Nat.le_min.mp h
  have product : capacity * width ≤ capacity * max width 1 :=
    Nat.mul_le_mul_left capacity (Nat.le_max_left width 1)
  have room : capacity * max width 1 ≤ pageSize - headerSize :=
    Nat.le_trans (Nat.mul_le_mul_right _ by_room) (Nat.div_mul_le_self _ _)
  unfold pageSize headerSize at *
  omega

theorem suitable_of_check (accepted : capacities.check K V = .ok ()) :
    capacities.Suitable K V := by
  unfold check at accepted
  simp only [bind, Except.bind, throw, throwThe, MonadExceptOf.throw] at accepted
  by_cases leaf_least : capacities.leaf < leastLeaf
  · simp [leaf_least] at accepted
  by_cases inner_least : capacities.inner < leastInner
  · simp [leaf_least, inner_least] at accepted
  by_cases leaf_most : mostLeaf K V < capacities.leaf
  · simp [leaf_least, inner_least, leaf_most] at accepted
  by_cases inner_most : mostInner K < capacities.inner
  · simp [leaf_least, inner_least, leaf_most, inner_most] at accepted
  have leaf := slots_fit (Nat.le_of_not_lt leaf_most)
  have inner := slots_fit (Nat.le_of_not_lt inner_most)
  unfold leastLeaf at leaf_least
  unfold leastInner at inner_least
  rw [entryWidth, Nat.mul_add] at leaf inner
  refine ⟨⟨?_, leaf.2⟩, ⟨?_, inner.2⟩, by omega, by omega⟩
  · change headerSize + capacities.leaf * _ + capacities.leaf * _ ≤ _
    omega
  · change headerSize + capacities.inner * _ + capacities.inner * _ ≤ _
    omega

end PagedIndex.Capacities
