import PagedIndex.Proofs.Node.Capacities

/-!
# Arithmetic of the node operations

With checked arithmetic a node operation refuses a difference below zero and a count that does not
fit its two bytes. On blocks of any content it then does what it does with plain arithmetic, under
every layout whose capacity can be counted. So no node operation ever subtracts too much or loses
a count.
-/

namespace PagedIndex

open Arithmetic

namespace Edit

variable {size : Nat} {α β : Type} {f g : α → Edit size β}

theorem inspect_bind_congr {read : Block size → Except Violation α} {block : Block size}
    (same : ∀ a, read block = .ok a → f a block = g a block) :
    (inspect read >>= f) block = (inspect read >>= g) block := by
  change EStateM.bind (inspect read) f block = EStateM.bind (inspect read) g block
  unfold EStateM.bind inspect
  cases result : read block with
  | ok a => exact same a result
  | error violation => rfl

theorem require_bind_congr {condition : Prop} [Decidable condition] {violation : Violation}
    {f g : Unit → Edit size β} (same : condition → f () = g ()) :
    (require condition violation >>= f) = (require condition violation >>= g) := by
  unfold require
  by_cases holds : condition
  · rw [if_pos holds, pure_bind, pure_bind]
    exact same holds
  · rw [if_neg holds]
    rfl

end Edit

namespace Header

variable {size : Nat}

theorem setCount_checked {count : Nat} (small : count < 65536) :
    (setCount count checked : Edit size Unit) = setCount count := by
  rw [setCount, checked_count small, setCount]

/-- What a block counts fits, for it was read from two bytes. -/
theorem lt_of_count {block : Block size} {count : Nat}
    (counted : (do return (← read block).count.toNat) = Except.ok count) : count < 65536 := by
  cases result : read block with
  | error violation => rw [result] at counted; cases counted
  | ok header =>
    rw [result] at counted
    cases counted
    exact header.count.toNat_lt

end Header

namespace Position

variable {K : Type} [Ord K] {slot : Nat → Except Violation K} {key : K}

theorem bisect_checked (steps low high : Nat) :
    bisect checked slot key steps low high = bisect .plain slot key steps low high := by
  induction steps generalizing low high with
  | zero => rfl
  | succ steps ih =>
    rw [bisect, bisect]
    by_cases more : low < high
    · simp only [checked_difference (Nat.le_of_lt more), ih]
    · rw [if_neg more, if_neg more]

theorem search_checked (count : Nat) :
    search slot key count checked = search slot key count := bisect_checked count 0 count

/-- A key that is found is within the range, whatever order the slots are in. -/
theorem lt_of_bisect {steps low high : Nat} {position : Position}
    (searched : bisect .plain slot key steps low high = .ok position)
    (found : position.found = true) : position.index < high := by
  induction steps generalizing low high with
  | zero => cases searched; cases found
  | succ steps ih =>
    rw [bisect] at searched
    by_cases more : low < high
    · rw [if_pos more] at searched
      obtain ⟨middle, half⟩ : ∃ middle, middle = low + (high - low) / 2 := ⟨_, rfl⟩
      have inner : middle < high := by omega
      simp only [plain_difference, bind, Except.bind, ← half] at searched
      cases probed : slot middle with
      | error violation => rw [probed] at searched; cases searched
      | ok probe =>
        simp only [probed] at searched
        cases order : compare probe key with
        | lt => rw [order] at searched; exact ih searched
        | eq => rw [order] at searched; cases searched; exact inner
        | gt => rw [order] at searched; exact Nat.lt_trans (ih searched) inner
    · rw [if_neg more] at searched
      cases searched
      cases found

end Position

theorem width_le_slot (base index width : Nat) : width ≤ base + (index + 1) * width := by
  rw [Nat.succ_mul]
  omega

namespace LeafLayout

variable {K V : Type} [IndexKey K] [FixedWidth V] {leaf : LeafLayout K V} {size size' : Nat}

omit [FixedWidth V] in
theorem position_checked (block : Block size) (key : K) :
    leaf.position block key checked = leaf.position block key := by
  simp only [position, Position.search_checked]

omit [FixedWidth V] in
theorem index_lt {block : Block size} {key : K} {position : Position} {count : Nat}
    (searched : leaf.position block key = .ok position) (found : position.found = true)
    (counted : leaf.count block = .ok count) : position.index < count := by
  unfold LeafLayout.position at searched
  rw [counted] at searched
  exact Position.lt_of_bisect searched found

theorem insert_checked (small : leaf.capacity < 65536) (key : K) (value : V) :
    (leaf.insert key value checked : Edit size Bool) = leaf.insert key value := by
  simp only [insert, position_checked]
  refine bind_congr fun position => ?_
  split
  · rfl
  · refine bind_congr fun count => Edit.require_bind_congr fun room => ?_
    rw [Header.setCount_checked (by omega)]

theorem erase_checked (key : K) :
    (leaf.erase key checked : Edit size Bool) = leaf.erase key := by
  funext block
  simp only [erase, position_checked]
  refine Edit.inspect_bind_congr fun position searched => ?_
  cases found : position.found with
  | false => rfl
  | true =>
    refine Edit.inspect_bind_congr fun count counted => ?_
    have inside := index_lt searched found counted
    have small := Header.lt_of_count counted
    have keys : checked.difference (leaf.keyOffset (position.index + 1)) (FixedWidth.width K) =
        plain.difference _ _ := checked_difference (width_le_slot ..)
    have values : checked.difference (leaf.valueOffset (position.index + 1)) (FixedWidth.width V) =
        plain.difference _ _ := checked_difference (width_le_slot ..)
    simp only [keys, values, checked_difference (show 1 ≤ count by omega), plain_difference,
      Edit.inspect_ok, pure_bind, Header.setCount_checked (show count - 1 < 65536 by omega)]

theorem receive_checked {source : Block size} {keep moved : Nat} (small : moved < 65536) :
    (leaf.receive source keep moved checked : Edit size' Unit) =
      leaf.receive source keep moved := by
  rw [receive, checked_count small, receive]

theorem split_checked (source : Block size) (target : Block size') :
    leaf.split source target checked = leaf.split source target := by
  unfold split
  cases counted : leaf.count source with
  | error violation => rfl
  | ok count =>
    have small := Header.lt_of_count counted
    by_cases few : count < 2
    · simp only [bind, Except.bind, if_pos few]
      rfl
    · simp only [bind, Except.bind, if_neg few, plain_difference,
        checked_difference (show (count + 1) / 2 ≤ count by omega),
        receive_checked (show count - (count + 1) / 2 < 65536 by omega),
        Header.setCount_checked (show (count + 1) / 2 < 65536 by omega)]

end LeafLayout

namespace InnerLayout

variable {K : Type} [IndexKey K] {inner : InnerLayout K} {size size' : Nat}

theorem position_checked (block : Block size) (key : K) :
    inner.position block key checked = inner.position block key := by
  simp only [position, Position.search_checked]

theorem childIndex_checked (block : Block size) (key : K) :
    inner.childIndex block key checked = inner.childIndex block key := by
  simp only [childIndex, position_checked]

theorem insert_checked (small : inner.capacity < 65536) (separator : K) (child : PageId) :
    (inner.insert separator child checked : Edit size Bool) = inner.insert separator child := by
  simp only [insert, position_checked]
  refine bind_congr fun count => bind_congr fun position => ?_
  split
  · rfl
  · refine Edit.require_bind_congr fun room => Edit.require_bind_congr fun occupied => ?_
    rw [checked_difference (show 1 ≤ count from occupied)]
    simp only [Header.setCount_checked (show count + 1 < 65536 by omega)]

theorem removeChildFor_checked (key : K) :
    (inner.removeChildFor key checked : Edit size Bool) = inner.removeChildFor key := by
  funext block
  simp only [removeChildFor, childIndex_checked]
  refine Edit.inspect_bind_congr fun count counted => ?_
  have small := Header.lt_of_count counted
  by_cases few : count ≤ 1
  · simp only [if_pos few]
  · simp only [if_neg few]
    refine Edit.inspect_bind_congr fun child _ => ?_
    have keys : checked.difference (inner.keyOffset (child - 1 + 1)) (FixedWidth.width K) =
        plain.difference _ _ := checked_difference (width_le_slot ..)
    have children : checked.difference (inner.childOffset (child + 1))
        (FixedWidth.width PageId) = plain.difference _ _ := checked_difference (width_le_slot ..)
    simp only [keys, children, checked_difference (show 1 ≤ count by omega), plain_difference,
      Edit.inspect_ok, pure_bind, Header.setCount_checked (show count - 1 < 65536 by omega)]

theorem receive_checked {source : Block size} {level : UInt16} {keep moved : Nat}
    (occupied : 1 ≤ moved) (small : moved < 65536) :
    (inner.receive source level keep moved checked : Edit size' Unit) =
      inner.receive source level keep moved := by
  rw [receive, checked_count small, checked_difference occupied, receive]

theorem split_checked (source : Block size) (target : Block size') :
    inner.split source target checked = inner.split source target := by
  unfold split
  cases read : Header.read source with
  | error violation => rfl
  | ok header =>
    have small := header.count.toNat_lt
    simp only [bind, Except.bind]
    by_cases few : header.count.toNat < 2
    · simp only [if_pos few]
      rfl
    · obtain ⟨count, counted⟩ : ∃ count, count = header.count.toNat := ⟨_, rfl⟩
      rw [← counted] at small few
      simp only [← counted, if_neg few, plain_difference,
        checked_difference (show count / 2 ≤ count by omega),
        checked_difference (show 1 ≤ count / 2 by omega),
        receive_checked (show 1 ≤ count - count / 2 by omega)
          (show count - count / 2 < 65536 by omega),
        Header.setCount_checked (show count / 2 < 65536 by omega)]

end InnerLayout

namespace Capacities

/-- On blocks of any content the node operations subtract nothing below zero and write no count
that does not fit. -/
structure Exact (K V : Type) [IndexKey K] [FixedWidth V] (capacities : Capacities) : Prop where
  search : ∀ (slot : Nat → Except Violation K) (key : K) (count : Nat),
    Position.search slot key count checked = Position.search slot key count
  leaf_insert : ∀ (key : K) (value : V) (block : Page),
    (capacities.leafLayout K V).insert key value checked block =
      (capacities.leafLayout K V).insert key value .plain block
  leaf_erase : ∀ (key : K) (block : Page),
    (capacities.leafLayout K V).erase key checked block =
      (capacities.leafLayout K V).erase key .plain block
  leaf_split : ∀ source target : Page,
    (capacities.leafLayout K V).split source target checked =
      (capacities.leafLayout K V).split source target
  inner_insert : ∀ (separator : K) (child : PageId) (block : Page),
    (capacities.innerLayout K).insert separator child checked block =
      (capacities.innerLayout K).insert separator child .plain block
  inner_remove : ∀ (key : K) (block : Page),
    (capacities.innerLayout K).removeChildFor key checked block =
      (capacities.innerLayout K).removeChildFor key .plain block
  inner_split : ∀ source target : Page,
    (capacities.innerLayout K).split source target checked =
      (capacities.innerLayout K).split source target

theorem Suitable.exact {K V : Type} [IndexKey K] [FixedWidth V] {capacities : Capacities}
    (suitable : capacities.Suitable K V) : capacities.Exact K V where
  search _ _ count := Position.search_checked count
  leaf_insert key value block :=
    congrFun (LeafLayout.insert_checked suitable.leaf.countable key value) block
  leaf_erase key block := congrFun (LeafLayout.erase_checked key) block
  leaf_split := LeafLayout.split_checked
  inner_insert separator child block :=
    congrFun (InnerLayout.insert_checked suitable.inner.countable separator child) block
  inner_remove key block := congrFun (InnerLayout.removeChildFor_checked key) block
  inner_split := InnerLayout.split_checked

end Capacities

end PagedIndex
