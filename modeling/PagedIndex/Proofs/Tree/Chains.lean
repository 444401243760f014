import PagedIndex.Proofs.Node.Leaf
import PagedIndex.Tree.Inspect

/-!
# Chains of children

Separators cut the range of an inner node into one range for each child. A piece of such a chain
stands in the range between the separators around it, and may be replaced by another piece in the
same range.
-/

namespace PagedIndex.Tree

open KeyOrder

variable {K V : Type}

namespace Range

def between (range : Range K) (left right : List K) : Range K :=
  ⟨left.getLast?.or range.low, right.head?.or range.high⟩

theorem between_cons (range : Range K) (separator : K) (left right : List K) :
    range.between (separator :: left) right =
      between ⟨some separator, range.high⟩ left right := by
  unfold between
  congr 1
  cases left with
  | nil => rfl
  | cons first rest => rw [List.getLast?_cons_cons, List.getLast?_cons]; rfl

variable [IndexKey K] {range range' : Range K} {key : K}

theorem contains_iff : range.contains key = true ↔
    (∀ low, range.low = some low → low ≤ key) ∧ ∀ high, range.high = some high → key < high := by
  unfold contains
  cases range.low <;> cases range.high <;>
    simp [compare_isLE_iff, compare_lt_iff]

def Within (range range' : Range K) : Prop :=
  (∀ low', range'.low = some low' → ∃ low, range.low = some low ∧ low' ≤ low) ∧
    ∀ high', range'.high = some high' → ∃ high, range.high = some high ∧ high ≤ high'

theorem Within.contains (h : range.Within range') (inside : range.contains key = true) :
    range'.contains key = true := by
  rw [contains_iff] at *
  constructor
  · intro low' eq
    obtain ⟨low, eq, le⟩ := h.1 low' eq
    exact le_trans le (inside.1 low eq)
  · intro high' eq
    obtain ⟨high, eq, le⟩ := h.2 high' eq
    exact lt_of_lt_of_le (inside.2 high eq) le

theorem contains_below {separator : K} (h : range.contains key = true) (below : key < separator) :
    contains ⟨range.low, some separator⟩ key = true :=
  contains_iff.mpr ⟨(contains_iff.mp h).1, by rintro _ ⟨⟩; exact below⟩

theorem contains_above {separator : K} (h : range.contains key = true) (above : separator ≤ key) :
    contains ⟨some separator, range.high⟩ key = true :=
  contains_iff.mpr ⟨by rintro _ ⟨⟩; exact above, (contains_iff.mp h).2⟩

theorem within_below (h : range.contains key = true) : Within ⟨range.low, some key⟩ range :=
  ⟨fun low eq => ⟨low, eq, le_refl low⟩,
    fun _ eq => ⟨key, rfl, le_of_lt ((contains_iff.mp h).2 _ eq)⟩⟩

theorem within_above (h : range.contains key = true) : Within ⟨some key, range.high⟩ range :=
  ⟨fun _ eq => ⟨key, rfl, (contains_iff.mp h).1 _ eq⟩, fun high eq => ⟨high, eq, le_refl high⟩⟩

theorem contains_between {left right : List K} (inside : range.contains key = true)
    (reached : ∀ separator ∈ left, separator ≤ key) (ahead : ∀ separator ∈ right, key < separator) :
    (range.between left right).contains key = true := by
  rw [contains_iff] at *
  constructor
  · intro low eq
    rcases Option.or_eq_some_iff.mp eq with last | ⟨-, eq⟩
    · exact reached low (List.mem_of_getLast? last)
    · exact inside.1 low eq
  · intro high eq
    rcases Option.or_eq_some_iff.mp eq with first | ⟨-, eq⟩
    · exact ahead high (List.mem_of_head? first)
    · exact inside.2 high eq

/-- A key that is left to a child comes after the separators before the child in order, if not
strictly, and strictly before those after it. -/
theorem of_contains_between {left right : List K} (ascending : (left ++ right).Pairwise (· < ·))
    (h : (range.between left right).contains key = true) :
    (∀ separator ∈ left, separator ≤ key) ∧ ∀ separator ∈ right, key < separator := by
  obtain ⟨ascending_left, ascending_right, -⟩ := List.pairwise_append.mp ascending
  obtain ⟨low, high⟩ := contains_iff.mp h
  constructor
  · intro separator mem
    rcases List.eq_nil_or_concat left with rfl | ⟨others, last, rfl⟩
    · simp at mem
    · rw [List.concat_eq_append] at *
      have reached := low last (by simp [between])
      rcases List.mem_append.mp mem with mem | mem
      · refine le_trans (le_of_lt ?_) reached
        exact (List.pairwise_append.mp ascending_left).2.2 separator mem last (by simp)
      · exact List.mem_singleton.mp mem ▸ reached
  · intro separator mem
    match right with
    | first :: others =>
      have ahead := high first rfl
      rcases List.mem_cons.mp mem with rfl | mem
      · exact ahead
      · exact lt_trans ahead ((List.pairwise_cons.mp ascending_right).1 separator mem)

theorem between_within {left right : List K}
    (inside : ∀ separator ∈ left ++ right, range.contains separator = true) :
    (range.between left right).Within range := by
  constructor
  · intro low eq
    cases last : left.getLast? with
    | none => exact ⟨low, by rw [between, last]; exact eq, le_refl low⟩
    | some separator =>
      have mem := List.mem_append_left right (List.mem_of_getLast? last)
      exact ⟨separator, by rw [between, last]; rfl, (contains_iff.mp (inside _ mem)).1 low eq⟩
  · intro high eq
    cases first : right.head? with
    | none => exact ⟨high, by rw [between, first]; exact eq, le_refl high⟩
    | some separator =>
      have mem := List.mem_append_right left (List.mem_of_head? first)
      exact ⟨separator, by rw [between, first]; rfl,
        le_of_lt ((contains_iff.mp (inside _ mem)).2 high eq)⟩

end Range

/-- Children in order, one more than separators, each with the range left between them. -/
def Chain (P : Range K → PageId → Prop) : Range K → List K → List PageId → Prop
  | range, [], [child] => P range child
  | range, separator :: separators, child :: children =>
    P ⟨range.low, some separator⟩ child ∧ Chain P ⟨some separator, range.high⟩ separators children
  | _, [], [] | _, [], _ :: _ :: _ | _, _ :: _, [] => False

namespace Chain

variable {P Q : Range K → PageId → Prop} {range range' : Range K}
  {separators left middle middle' right : List K} {children children' before after : List PageId}
  {separator key : K} {child : PageId}

theorem length_eq (h : Chain P range separators children) :
    children.length = separators.length + 1 := by
  induction separators generalizing range children with
  | nil =>
    match children, h with
    | [_], _ => rfl
  | cons separator rest ih =>
    match children, h with
    | child :: children, h => rw [List.length_cons, List.length_cons, ih h.2]

theorem imp (h : Chain P range separators children)
    (each : ∀ child ∈ children, ∀ r, P r child → Q r child) :
    Chain Q range separators children := by
  induction separators generalizing range children with
  | nil =>
    match children, h with
    | [child], h => exact each child (by simp) range h
  | cons separator rest ih =>
    match children, h with
    | child :: children, h =>
      exact ⟨each child (by simp) _ h.1, ih h.2 fun c mem => each c (List.mem_cons_of_mem _ mem)⟩

theorem append_iff (length : before.length = left.length + 1) :
    Chain P range (left ++ separator :: right) (before ++ after) ↔
      Chain P ⟨range.low, some separator⟩ left before ∧
        Chain P ⟨some separator, range.high⟩ right after := by
  induction left generalizing range before with
  | nil =>
    match before, length with
    | [child], _ => exact Iff.rfl
  | cons first rest ih =>
    match before, length with
    | child :: before, length =>
      rw [List.length_cons, List.length_cons, Nat.add_right_cancel_iff] at length
      simp only [List.cons_append, Chain]
      rw [ih length, and_assoc]

theorem exists_range (h : Chain P range separators children) (mem : child ∈ children) :
    ∃ r, P r child := by
  induction separators generalizing range children with
  | nil =>
    match children, h with
    | [only], h =>
      rw [List.mem_singleton] at mem
      exact ⟨range, mem ▸ h⟩
  | cons separator rest ih =>
    match children, h with
    | first :: children, h =>
      rcases List.mem_cons.mp mem with rfl | mem
      · exact ⟨_, h.1⟩
      · exact ih h.2 mem

/-- A piece of a chain is a chain in the range between the separators around it, and another such
chain may stand in its place. -/
theorem splice (h : Chain P range (left ++ middle ++ right) (before ++ children ++ after))
    (place : before.length = left.length) (size : children.length = middle.length + 1) :
    Chain P (range.between left right) middle children ∧
      ∀ {Q : Range K → PageId → Prop} {middle' : List K} {children' : List PageId},
        (∀ child ∈ before ++ after, ∀ r, P r child → Q r child) →
        Chain Q (range.between left right) middle' children' →
        Chain Q range (left ++ middle' ++ right) (before ++ children' ++ after) := by
  induction left generalizing range before with
  | nil =>
    cases List.length_eq_zero_iff.mp place
    simp only [List.nil_append] at h ⊢
    cases right with
    | nil =>
      have length := h.length_eq
      rw [List.length_append, List.append_nil] at length
      have nothing : after = [] := List.length_eq_zero_iff.mp (by omega)
      rw [nothing] at h ⊢
      simp only [List.append_nil] at h ⊢
      exact ⟨h, fun _ chain => chain⟩
    | cons separator rest =>
      obtain ⟨piece, others⟩ := (append_iff size).mp h
      refine ⟨piece, fun keep chain => (append_iff chain.length_eq).mpr ⟨chain, ?_⟩⟩
      exact others.imp keep
  | cons first rest ih =>
    match before, place with
    | head :: before, place =>
      rw [List.length_cons, List.length_cons, Nat.add_right_cancel_iff] at place
      rw [Range.between_cons]
      obtain ⟨piece, others⟩ := ih h.2 place
      refine ⟨piece, fun keep chain => ⟨keep head (by simp) _ h.1, others ?_ chain⟩⟩
      exact fun child mem => keep child (List.mem_cons_of_mem _ mem)

variable [IndexKey K]

theorem widen (h : Chain P range separators children) (within : range.Within range')
    (each : ∀ child ∈ children, ∀ r r' : Range K, r.Within r' → P r child → P r' child) :
    Chain P range' separators children := by
  induction separators generalizing range range' children with
  | nil =>
    match children, h with
    | [child], h => exact each child (by simp) range range' within h
  | cons separator rest ih =>
    match children, h with
    | child :: children, h =>
      have narrow : Range.Within ⟨range.low, some separator⟩ ⟨range'.low, some separator⟩ :=
        ⟨within.1, fun high eq => ⟨high, eq, le_refl high⟩⟩
      have narrow' : Range.Within ⟨some separator, range.high⟩ ⟨some separator, range'.high⟩ :=
        ⟨fun low eq => ⟨low, eq, le_refl low⟩, within.2⟩
      exact ⟨each child (by simp) _ _ narrow h.1,
        ih h.2 narrow' fun c mem => each c (List.mem_cons_of_mem _ mem)⟩

/-- The children and the separators on either side of the child that a key is routed to. -/
structure Route (separators : List K) (children : List PageId) (key : K) (left right : List K)
    (before : List PageId) (child : PageId) (after : List PageId) : Prop where
  separators_eq : separators = left ++ right
  children_eq : children = before ++ child :: after
  place : before.length = left.length
  reached : ∀ separator ∈ left, separator ≤ key
  ahead : ∀ separator ∈ right, key < separator

theorem exists_route (h : Chain P range separators children)
    (ascending : separators.Pairwise (· < ·)) (key : K) :
    ∃ left right before child after,
      Route separators children key left right before child after := by
  induction separators generalizing range children with
  | nil =>
    match children, h with
    | [child], _ => exact ⟨[], [], [], child, [], rfl, rfl, rfl, by simp, by simp⟩
  | cons separator rest ih =>
    match children, h with
    | first :: children, h =>
      obtain ⟨greater, ascending⟩ := List.pairwise_cons.mp ascending
      by_cases reached : separator ≤ key
      · obtain ⟨left, right, before, child, after, route⟩ := ih h.2 ascending
        refine ⟨separator :: left, right, first :: before, child, after,
          by rw [route.separators_eq]; rfl, by rw [route.children_eq]; rfl,
          by rw [List.length_cons, List.length_cons, route.place], ?_, route.ahead⟩
        intro k mem
        rcases List.mem_cons.mp mem with rfl | mem
        · exact reached
        · exact route.reached k mem
      · have ahead := lt_of_not_ge reached
        refine ⟨[], separator :: rest, [], first, children, rfl, rfl, rfl, by simp, ?_⟩
        intro k mem
        rcases List.mem_cons.mp mem with rfl | mem
        · exact ahead
        · exact lt_trans ahead (greater k mem)

theorem Route.holds (route : Route separators children key left right before child after)
    (h : Chain P range separators children) : P (range.between left right) child := by
  obtain ⟨rfl, rfl, place, -, -⟩ := route
  have split : Chain P range (left ++ [] ++ right) (before ++ [child] ++ after) := by simpa using h
  exact (split.splice place rfl).1

theorem Route.exchange {Q : Range K → PageId → Prop}
    (route : Route separators children key left right before child after)
    (h : Chain P range separators children)
    (others : ∀ other ∈ before ++ after, ∀ r, P r other → Q r other)
    (piece : Q (range.between left right) child) : Chain Q range separators children := by
  obtain ⟨rfl, rfl, place, -, -⟩ := route
  have split : Chain P range (left ++ [] ++ right) (before ++ [child] ++ after) := by simpa using h
  have whole : Chain Q range (left ++ [] ++ right) (before ++ [child] ++ after) :=
    (split.splice place rfl).2 others piece
  simpa using whole

theorem Route.countP_eq (h : Route separators children key left right before child after) :
    separators.countP (· ≤ key) = before.length := by
  have reached : left.countP (fun s => decide (s ≤ key)) = left.length :=
    List.countP_eq_length.mpr fun s mem => decide_eq_true (h.reached s mem)
  have ahead : right.countP (fun s => decide (s ≤ key)) = 0 :=
    List.countP_eq_zero.mpr fun s mem => by simpa using h.ahead s mem
  rw [h.separators_eq, List.countP_append, reached, ahead, Nat.add_zero, h.place]

theorem Route.upper_half (route : Route separators children key left right before child after)
    (sibling : PageId) (above : separator ≤ key) :
    Route (left ++ separator :: right) (before ++ child :: sibling :: after) key
      (left ++ [separator]) right (before ++ [child]) sibling after := by
  refine ⟨by simp, by simp, by simp [route.place], fun s mem => ?_, route.ahead⟩
  rcases List.mem_append.mp mem with mem | mem
  · exact route.reached s mem
  · exact List.mem_singleton.mp mem ▸ above

theorem Route.lower_half (route : Route separators children key left right before child after)
    (sibling : PageId) (below : ¬ separator ≤ key) :
    Route (left ++ separator :: right) (before ++ child :: sibling :: after) key
      left (separator :: right) before child (sibling :: after) :=
  ⟨rfl, rfl, route.place, route.reached,
    List.forall_mem_cons.mpr ⟨lt_of_not_ge below, route.ahead⟩⟩

section Contents

variable {E : PageId → List (K × V)}

theorem inside_rest {rest : List K} (ascending : (separator :: rest).Pairwise (· < ·))
    (inside : ∀ s ∈ separator :: rest, range.contains s = true) :
    ∀ s ∈ rest, Range.contains ⟨some separator, range.high⟩ s = true := by
  intro s mem
  exact Range.contains_above (inside s (List.mem_cons_of_mem _ mem))
    (le_of_lt ((List.pairwise_cons.mp ascending).1 s mem))

theorem flatMap_ascending (h : Chain P range separators children)
    (ascending : separators.Pairwise (· < ·))
    (inside : ∀ separator ∈ separators, range.contains separator = true)
    (each : ∀ child ∈ children, ∀ r, P r child →
      Ascending (E child) ∧ ∀ entry ∈ E child, r.contains entry.1 = true) :
    Ascending (children.flatMap E) ∧
      ∀ entry ∈ children.flatMap E, range.contains entry.1 = true := by
  induction separators generalizing range children with
  | nil =>
    match children, h with
    | [child], h =>
      rw [List.flatMap_singleton]
      exact each child (by simp) range h
  | cons separator rest ih =>
    match children, h with
    | child :: children, h =>
      have here := inside separator (by simp)
      obtain ⟨first_ascending, first_inside⟩ := each child (by simp) _ h.1
      obtain ⟨others_ascending, others_inside⟩ := ih h.2 (List.pairwise_cons.mp ascending).2
        (inside_rest ascending inside) fun c mem => each c (List.mem_cons_of_mem _ mem)
      rw [List.flatMap_cons]
      constructor
      · rw [Ascending, List.map_append]
        refine List.pairwise_append.mpr ⟨first_ascending, others_ascending, ?_⟩
        intro k mem k' mem'
        obtain ⟨entry, listed, rfl⟩ := List.mem_map.mp mem
        obtain ⟨entry', listed', rfl⟩ := List.mem_map.mp mem'
        exact lt_of_lt_of_le ((Range.contains_iff.mp (first_inside entry listed)).2 _ rfl)
          ((Range.contains_iff.mp (others_inside entry' listed')).1 _ rfl)
      · intro entry mem
        rcases List.mem_append.mp mem with mem | mem
        · exact (Range.within_below here).contains (first_inside entry mem)
        · exact (Range.within_above here).contains (others_inside entry mem)

/-- What is held before the child that a key is routed to is below the key, what is held after it
is above. -/
theorem Route.sides (route : Route separators children key left right before child after)
    (h : Chain P range separators children) (ascending : separators.Pairwise (· < ·))
    (inside : ∀ separator ∈ separators, range.contains separator = true)
    (each : ∀ child ∈ children, ∀ r, P r child →
      Ascending (E child) ∧ ∀ entry ∈ E child, r.contains entry.1 = true) :
    (∀ entry ∈ before.flatMap E, entry.1 < key) ∧ ∀ entry ∈ after.flatMap E, key < entry.1 := by
  obtain ⟨rfl, rfl, place, reached, ahead⟩ := route
  induction left generalizing range before with
  | nil =>
    rw [List.length_eq_zero_iff.mp place] at *
    refine ⟨by simp, ?_⟩
    match right, after, h with
    | [], [], _ => simp
    | separator :: rest, after, h =>
      obtain ⟨-, others⟩ := flatMap_ascending (E := E) h.2 (List.pairwise_cons.mp ascending).2
        (inside_rest ascending inside) fun c mem => each c (List.mem_cons_of_mem _ mem)
      intro entry mem
      exact lt_of_lt_of_le (ahead separator (by simp))
        ((Range.contains_iff.mp (others entry mem)).1 _ rfl)
  | cons first rest ih =>
    match before, place with
    | head :: before, place =>
      rw [List.length_cons, List.length_cons, Nat.add_right_cancel_iff] at place
      have below := reached first (by simp)
      obtain ⟨smaller, larger⟩ := ih place (fun s mem => reached s (List.mem_cons_of_mem _ mem))
        (List.pairwise_cons.mp ascending).2 (inside_rest ascending inside)
        (fun c mem => each c (List.mem_cons_of_mem _ mem)) h.2
      refine ⟨?_, larger⟩
      intro entry mem
      rw [List.flatMap_cons, List.mem_append] at mem
      rcases mem with mem | mem
      · have := (each head (by simp) _ h.1).2 entry mem
        exact lt_of_lt_of_le ((Range.contains_iff.mp this).2 _ rfl) below
      · exact smaller entry mem

end Contents

end Chain

end PagedIndex.Tree
