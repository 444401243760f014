import PagedIndex.Proofs.Node.SortedSeparators

/-!
# Where an inner page routes keys

Each child of an inner page has a range of the keys. An edit of the page changes the ranges of the
children that it is about and of no others: a split hands every range to the half that has its
child, a new separator cuts one range in two, and the range of a child that goes falls to a
neighbour.
-/

namespace PagedIndex

open KeyOrder

namespace InnerLayout

variable {K : Type} [IndexKey K] {size size' : Nat} {inner : InnerLayout K} {block : Block size}
  {keys : List K} {children : List PageId}

/-- Where the keys of an inner page are routed, and where after its edits. -/
structure Routes (inner : InnerLayout K) (block : Block size) (keys : List K)
    (children : List PageId) : Prop where
  unique : ∀ key, ∃ i child, inner.childIndex block key = .ok i ∧
    inner.childFor block key = .ok child ∧ children[i]? = some child ∧ InRange keys i key ∧
      ∀ j < children.length, InRange keys j key → j = i
  split : 2 ≤ children.length → ∀ size' (target : Block size'), inner.Fits size' →
    ∃ halves, inner.split block target = .ok halves ∧ ∀ key,
      (key < halves.separator → inner.childFor halves.left key = inner.childFor block key) ∧
        (halves.separator ≤ key → inner.childFor halves.right key = inner.childFor block key)
  add : ∀ separator child, separator ∉ keys → children.length < inner.capacity → ∃ after,
    (inner.insert separator child).run block = .ok (true, after) ∧ ∀ key,
      (Follows keys separator key ↔
        inner.childIndex after key = .ok (rank separator keys + 1)) ∧
        (Follows keys separator key → inner.childFor after key = .ok child) ∧
        (¬ Follows keys separator key → inner.childFor after key = inner.childFor block key)
  /-- What was routed to the child that went goes to its left neighbour, or to its right one if it
  was the first. -/
  remove : 2 ≤ children.length → ∀ gone, ∃ i after, inner.childIndex block gone = .ok i ∧
    (inner.removeChildFor gone).run block = .ok (true, after) ∧ ∀ key,
      (inner.childIndex block key ≠ .ok i →
        inner.childFor after key = inner.childFor block key) ∧
        (inner.childIndex block key = .ok i → ∃ neighbour,
          children[if i = 0 then 1 else i - 1]? = some neighbour ∧
            inner.childFor after key = .ok neighbour)

section Pages

variable (fits : inner.Fits size) (holds : inner.Holds block keys children)

include fits holds

theorem Holds.routed (key : K) : ∃ child, children[route key keys]? = some child ∧
    inner.childFor block key = .ok child := by
  obtain ⟨separators, pointers⟩ := holds.listed fits
  have length := holds.length_eq fits
  have passed := route_le key keys
  have inside : route key keys < children.length := by omega
  have counted : (inner.separators block).countP (· ≤ key) = route key keys := by
    rw [separators, route]
  have routed := InnerLayout.childFor_eq fits (holds.few fits) (holds.ordered fits) counted
    (by rw [pointers]; exact inside)
  simp only [pointers] at routed
  exact ⟨children[route key keys], List.getElem?_eq_getElem inside, routed⟩

theorem Holds.childFor_of {key : K} {child : PageId}
    (stored : children[route key keys]? = some child) : inner.childFor block key = .ok child := by
  obtain ⟨child', stored', routed⟩ := holds.routed fits key
  rw [routed, Option.some.inj (stored.symm.trans stored')]

theorem Holds.childFor_congr {block' : Block size'} {keys' : List K} {children' : List PageId}
    {key : K} (fits' : inner.Fits size') (holds' : inner.Holds block' keys' children')
    (same : children[route key keys]? = children'[route key keys']?) :
    inner.childFor block key = inner.childFor block' key := by
  obtain ⟨child, stored, routed⟩ := holds'.routed fits' key
  rw [routed, holds.childFor_of fits (same.trans stored)]

theorem Holds.routes_once (key : K) : ∃ i child, inner.childIndex block key = .ok i ∧
    inner.childFor block key = .ok child ∧ children[i]? = some child ∧ InRange keys i key ∧
      ∀ j < children.length, InRange keys j key → j = i := by
  obtain ⟨child, stored, routed⟩ := holds.routed fits key
  have length := holds.length_eq fits
  refine ⟨route key keys, child, holds.childIndex_eq fits key, routed, stored,
    inRange_route holds.ascending key, fun j inside range => ?_⟩
  exact eq_route_of_inRange holds.ascending (by omega) range

theorem Holds.routes_split (more : 2 ≤ children.length) (target : Block size')
    (fits' : inner.Fits size') : ∃ halves, inner.split block target = .ok halves ∧ ∀ key,
      (key < halves.separator → inner.childFor halves.left key = inner.childFor block key) ∧
        (halves.separator ≤ key → inner.childFor halves.right key = inner.childFor block key) := by
  obtain ⟨halves, keep, ran, half, left, right, -, -, between, -, -⟩ :=
    holds.splits fits more target fits'
  refine ⟨halves, ran, fun key => ⟨fun below => ?_, fun above => ?_⟩⟩
  · obtain ⟨same, few⟩ := route_take holds.ascending between below
    refine left.holds.childFor_congr fits fits holds ?_
    rw [same, List.getElem?_take_of_lt (by omega)]
  · have shift := route_drop holds.ascending between above
    rw [show keep - 1 + 1 = keep by omega] at shift
    refine right.childFor_congr fits' fits holds ?_
    rw [List.getElem?_drop, ← shift]

theorem Holds.routes_add {separator : K} (child : PageId) (absent : separator ∉ keys)
    (vacant : children.length < inner.capacity) : ∃ after,
    (inner.insert separator child).run block = .ok (true, after) ∧ ∀ key,
      (Follows keys separator key ↔
        inner.childIndex after key = .ok (rank separator keys + 1)) ∧
        (Follows keys separator key → inner.childFor after key = .ok child) ∧
        (¬ Follows keys separator key → inner.childFor after key = inner.childFor block key) := by
  obtain ⟨after, ran, becomes⟩ := holds.adds fits child absent vacant
  have length := holds.length_eq fits
  have place := rank_le separator keys
  refine ⟨after, ran, fun key => ⟨?_, fun given => ?_, fun outside => ?_⟩⟩
  · rw [becomes.holds.childIndex_eq fits, follows_iff holds.ascending absent, Except.ok.injEq]
  · refine becomes.holds.childFor_of fits ?_
    rw [(follows_iff holds.ascending absent).mp given, List.getElem?_insertIdx_self,
      if_pos (by omega)]
  · exact becomes.holds.childFor_congr fits fits holds
      (getElem?_route_insertIdx child holds.ascending absent outside)

theorem Holds.routes_remove (more : 2 ≤ children.length) (gone : K) : ∃ i after,
    inner.childIndex block gone = .ok i ∧
    (inner.removeChildFor gone).run block = .ok (true, after) ∧ ∀ key,
      (inner.childIndex block key ≠ .ok i →
        inner.childFor after key = inner.childFor block key) ∧
        (inner.childIndex block key = .ok i → ∃ neighbour,
          children[if i = 0 then 1 else i - 1]? = some neighbour ∧
            inner.childFor after key = .ok neighbour) := by
  obtain ⟨i, after, index, inside, ran, becomes⟩ := holds.removes fits gone more
  have length := holds.length_eq fits
  refine ⟨i, after, index, ran, fun key => ?_⟩
  have moved := getElem?_route_eraseIdx key children holds.ascending
    (show i - 1 < keys.length by omega)
  have indexed : inner.childIndex block key = .ok (route key keys) := holds.childIndex_eq fits key
  rw [indexed, ne_eq, Except.ok.injEq]
  refine ⟨fun apart => ?_, fun here => ?_⟩
  · rw [if_neg apart] at moved
    exact becomes.holds.childFor_congr fits fits holds moved
  · have beside : (if i = 0 then 1 else i - 1) < children.length := by
      split <;> omega
    rw [if_pos here, List.getElem?_eq_getElem beside] at moved
    exact ⟨_, List.getElem?_eq_getElem beside, becomes.holds.childFor_of fits moved⟩

/-- Where no child occurs twice, the routes to a child that goes all lead to the same neighbour, and
no others change. -/
theorem Holds.hands_over (distinct : children.Nodup) (more : 2 ≤ children.length) (gone : K) :
    ∃ i after child neighbour, inner.childFor block gone = .ok child ∧ children[i]? = some child ∧
      children[if i = 0 then 1 else i - 1]? = some neighbour ∧
      (inner.removeChildFor gone).run block = .ok (true, after) ∧
      inner.Becomes block after (keys.eraseIdx (i - 1)) (children.eraseIdx i) ∧
      ∀ key c, inner.childFor block key = .ok c →
        inner.childFor after key = .ok (if c = child then neighbour else c) := by
  obtain ⟨i, after, index, inside, ran, becomes⟩ := holds.removes fits gone more
  obtain ⟨i', after', index', ran', routed⟩ := holds.routes_remove fits more gone
  cases index.symm.trans index'
  cases ran.symm.trans ran'
  have beside : (if i = 0 then 1 else i - 1) < children.length := by
    split <;> omega
  have there (key : K) (c : PageId) (read : inner.childFor block key = .ok c) :
      children[route key keys]? = some c := by
    obtain ⟨c', stored, read'⟩ := holds.routed fits key
    cases read.symm.trans read'
    exact stored
  obtain ⟨child, stored, read⟩ := holds.routed fits gone
  rw [holds.childIndex_eq fits] at index
  obtain rfl : route gone keys = i := Except.ok.inj index
  refine ⟨_, after, child, _, read, stored, List.getElem?_eq_getElem beside, ran, becomes,
    fun key c read' => ?_⟩
  have stored' := there key c read'
  obtain ⟨elsewhere, here⟩ := routed key
  rw [holds.childIndex_eq fits, ne_eq, Except.ok.injEq] at elsewhere
  rw [holds.childIndex_eq fits, Except.ok.injEq] at here
  by_cases same : route key keys = route gone keys
  · obtain ⟨neighbour, at_side, handed⟩ := here same
    rw [same, stored] at stored'
    rw [if_pos (Option.some.inj stored').symm, handed,
      Option.some.inj (at_side.symm.trans (List.getElem?_eq_getElem beside))]
  · have apart : c ≠ child := by
      rintro rfl
      exact same ((List.getElem?_inj inside distinct).mp (stored.trans stored'.symm)).symm
    rw [if_neg apart, elsewhere same, read']

end Pages

/-- An edit of an inner page changes the routes of the keys that it is about and of no others. -/
theorem routes_keys (fits : inner.Fits size) (holds : inner.Holds block keys children) :
    inner.Routes block keys children where
  unique := holds.routes_once fits
  split more _ target fits' := holds.routes_split fits more target fits'
  add _ child absent vacant := holds.routes_add fits child absent vacant
  remove more gone := holds.routes_remove fits more gone

/-- The first of two children goes, and its keys are routed to the other one. -/
theorem first_child_hands_over : ∃ after,
    (threeChildren.removeChildFor (.ofInt 3)).run twoOfThree = .ok (true, after) ∧
      threeChildren.childFor after (.ofInt 4) = .ok ⟨11⟩ := by
  have holds : threeChildren.Holds twoOfThree [.ofInt 5] [⟨10⟩, ⟨11⟩] :=
    ⟨rfl, rfl, by decide, by decide, by decide⟩
  obtain ⟨i, after, index, ran, routed⟩ :=
    (routes_keys ⟨by decide, by decide⟩ holds).remove (by decide) (.ofInt 3)
  cases index
  obtain ⟨neighbour, stored, handed⟩ := (routed (.ofInt 4)).2 rfl
  cases stored
  exact ⟨after, ran, handed⟩

end InnerLayout

end PagedIndex
