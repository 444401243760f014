import PagedIndex.Proofs.Node.Search

/-!
# Ranks and routes among ascending keys

The rank of a key is the number of keys below it: where it is, or where it would be put. Its route
is the number of keys that are not above it: as separators these cut the keys into ranges, and the
route is the range that has the key. A separator that comes in cuts one range in two, and one that
goes makes two ranges one.
-/

namespace PagedIndex

open KeyOrder

section Lists

variable {α : Type} {items : List α}

theorem insertIdx_eq_take_drop {i : Nat} (a : α) (within : i ≤ items.length) :
    items.insertIdx i a = items.take i ++ a :: items.drop i := by
  induction items generalizing i with
  | nil => rw [Nat.le_zero.mp within]; rfl
  | cons first rest ih =>
    cases i with
    | zero => rfl
    | succ i => exact congrArg (first :: ·) (ih (Nat.le_of_succ_le_succ within))

theorem eq_take_cons_drop {i : Nat} {a : α} (stored : items[i]? = some a) :
    items = items.take i ++ a :: items.drop (i + 1) := by
  obtain ⟨inside, rfl⟩ := List.getElem?_eq_some_iff.mp stored
  rw [List.getElem_cons_drop, List.take_append_drop]

end Lists

variable {K : Type} [IndexKey K] {keys : List K} {key separator : K}

/-- Where a key stands among keys that ascend. -/
def rank (key : K) (keys : List K) : Nat := keys.countP (· < key)

theorem rank_le (key : K) (keys : List K) : rank key keys ≤ keys.length := List.countP_le_length

theorem below_of_mem_take (key : K) (ascending : keys.Pairwise (· < ·)) :
    ∀ k ∈ keys.take (rank key keys), k < key := by
  intro k mem
  obtain ⟨i, inside, rfl⟩ := List.mem_take_iff_getElem.mp mem
  exact (Position.lt_countP_lt_iff ascending (by omega)).mp
    (show i < rank key keys by omega)

theorem above_of_mem_drop (ascending : keys.Pairwise (· < ·)) (absent : key ∉ keys) :
    ∀ k ∈ keys.drop (rank key keys), key < k := by
  intro k mem
  obtain ⟨i, inside, rfl⟩ := List.mem_drop_iff_getElem.mp mem
  have not_below : ¬ keys[rank key keys + i] < key := fun below => by
    have within := (Position.lt_countP_lt_iff ascending (by omega)).mpr below
    exact absurd (show rank key keys + i < rank key keys from within) (by omega)
  refine lt_of_le_of_ne (not_lt.mp not_below) fun same => absent ?_
  rw [same]
  exact List.getElem_mem _

theorem ascending_insertIdx (ascending : keys.Pairwise (· < ·)) (absent : key ∉ keys) :
    (keys.insertIdx (rank key keys) key).Pairwise (· < ·) := by
  have parts := ascending
  rw [← List.take_append_drop (rank key keys) keys] at parts
  obtain ⟨below, above, across⟩ := List.pairwise_append.mp parts
  rw [insertIdx_eq_take_drop key (rank_le key keys)]
  refine List.pairwise_append.mpr
    ⟨below, List.pairwise_cons.mpr ⟨above_of_mem_drop ascending absent, above⟩, ?_⟩
  intro k mem k' mem'
  rcases List.mem_cons.mp mem' with rfl | mem'
  · exact below_of_mem_take _ ascending k mem
  · exact across k mem k' mem'

/-- The child whose range holds a key: as many separators are not above it. -/
def route (key : K) (keys : List K) : Nat := keys.countP (· ≤ key)

/-- From the separator on the left of the child at `i` on and below the one on its right, as far as
there are any. -/
def InRange (keys : List K) (i : Nat) (key : K) : Prop :=
  (∀ left, 0 < i → keys[i - 1]? = some left → left ≤ key) ∧
    ∀ right, keys[i]? = some right → key < right

theorem route_le (key : K) (keys : List K) : route key keys ≤ keys.length := List.countP_le_length

theorem route_append (key : K) (below above : List K) :
    route key (below ++ above) = route key below + route key above := List.countP_append

theorem route_cons (key first : K) (rest : List K) :
    route key (first :: rest) = route key rest + if first ≤ key then 1 else 0 := by
  simp [route, List.countP_cons]

theorem inRange_route (ascending : keys.Pairwise (· < ·)) (key : K) :
    InRange keys (route key keys) key := by
  have within := route_le key keys
  constructor
  · intro left positive stored
    obtain ⟨inside, rfl⟩ := List.getElem?_eq_some_iff.mp stored
    exact (Position.lt_countP_le_iff ascending inside).mp
      (show route key keys - 1 < route key keys by omega)
  · intro right stored
    obtain ⟨inside, rfl⟩ := List.getElem?_eq_some_iff.mp stored
    refine not_le.mp fun least => Nat.lt_irrefl (route key keys) ?_
    exact (Position.lt_countP_le_iff ascending inside).mpr least

theorem eq_route_of_inRange (ascending : keys.Pairwise (· < ·)) {i : Nat}
    (inside : i ≤ keys.length) (range : InRange keys i key) : i = route key keys := by
  have within := route_le key keys
  rcases Nat.lt_trichotomy i (route key keys) with less | same | more
  · have right := range.2 _ (List.getElem?_eq_getElem (show i < keys.length by omega))
    exact absurd right (not_lt.mpr ((Position.lt_countP_le_iff ascending (by omega)).mp less))
  · exact same
  · have left := range.1 _ (by omega)
      (List.getElem?_eq_getElem (show i - 1 < keys.length by omega))
    have passed : i - 1 < route key keys :=
      (Position.lt_countP_le_iff ascending (by omega)).mpr left
    omega

theorem route_take (ascending : keys.Pairwise (· < ·)) {m : Nat}
    (stored : keys[m]? = some separator) (below : key < separator) :
    route key (keys.take m) = route key keys ∧ route key keys ≤ m := by
  obtain ⟨inside, rfl⟩ := List.getElem?_eq_some_iff.mp stored
  have few : route key keys ≤ m := by
    refine Nat.le_of_not_lt fun passed => absurd below (not_lt.mpr ?_)
    exact (Position.lt_countP_le_iff ascending inside).mp passed
  have none : (keys.drop m).countP (· ≤ key) = 0 := by
    refine List.countP_eq_zero.mpr fun k mem => ?_
    obtain ⟨i, within, rfl⟩ := List.mem_drop_iff_getElem.mp mem
    rw [decide_eq_true_iff]
    intro least
    have passed : m + i < route key keys :=
      (Position.lt_countP_le_iff ascending (by omega)).mpr least
    omega
  have parts := route_append key (keys.take m) (keys.drop m)
  rw [List.take_append_drop, show route key (keys.drop m) = 0 from none] at parts
  exact ⟨parts.symm, few⟩

theorem route_drop (ascending : keys.Pairwise (· < ·)) {m : Nat}
    (stored : keys[m]? = some separator) (above : separator ≤ key) :
    route key keys = m + 1 + route key (keys.drop (m + 1)) := by
  obtain ⟨inside, rfl⟩ := List.getElem?_eq_some_iff.mp stored
  have passed : m < route key keys := (Position.lt_countP_le_iff ascending inside).mpr above
  have all : (keys.take (m + 1)).countP (· ≤ key) = m + 1 := by
    rw [List.countP_eq_length.mpr, List.length_take_of_le (by omega)]
    intro k mem
    obtain ⟨i, within, rfl⟩ := List.mem_take_iff_getElem.mp mem
    rw [decide_eq_true_iff]
    exact (Position.lt_countP_le_iff ascending (by omega)).mp
      (show i < route key keys by omega)
  have parts := route_append key (keys.take (m + 1)) (keys.drop (m + 1))
  rw [List.take_append_drop, show route key (keys.take (m + 1)) = m + 1 from all] at parts
  exact parts

theorem route_insertIdx {i : Nat} (within : i ≤ keys.length) :
    route key (keys.insertIdx i separator) =
      route key keys + if separator ≤ key then 1 else 0 := by
  have cut := (List.perm_insertIdx separator keys within).countP_eq (· ≤ key)
  exact cut.trans (route_cons key separator keys)

theorem route_eraseIdx (key : K) (ascending : keys.Pairwise (· < ·)) {i : Nat}
    (inside : i < keys.length) :
    route key (keys.eraseIdx i) =
      if i < route key keys then route key keys - 1 else route key keys := by
  have parts := congrArg (route key) (eq_take_cons_drop (List.getElem?_eq_getElem inside))
  have passed : i < route key keys ↔ keys[i] ≤ key := Position.lt_countP_le_iff ascending inside
  rw [route_append, route_cons] at parts
  rw [List.eraseIdx_eq_take_drop_succ, route_append]
  by_cases least : keys[i] ≤ key
  · rw [if_pos (passed.mpr least)]
    rw [if_pos least] at parts
    omega
  · rw [if_neg (mt passed.mp least)]
    rw [if_neg least] at parts
    omega

def Follows (keys : List K) (separator key : K) : Prop :=
  separator ≤ key ∧ ∀ next ∈ keys, separator < next → key < next

theorem rank_le_route (keys : List K) (least : separator ≤ key) :
    rank separator keys ≤ route key keys := by
  refine List.countP_mono_left fun k _ below => ?_
  rw [decide_eq_true_iff] at below ⊢
  exact (le_of_lt below).trans least

theorem route_le_rank (keys : List K) (below : key < separator) :
    route key keys ≤ rank separator keys := by
  refine List.countP_mono_left fun k _ passed => ?_
  rw [decide_eq_true_iff] at passed ⊢
  exact lt_of_le_of_lt passed below

/-- A separator that is not there cuts the range of the child at its rank. The upper part is what
follows it. -/
theorem route_eq_rank_iff (ascending : keys.Pairwise (· < ·)) (absent : separator ∉ keys)
    (least : separator ≤ key) : route key keys = rank separator keys ↔
      ∀ next ∈ keys, separator < next → key < next := by
  have within := route_le key keys
  constructor
  · intro same next mem higher
    obtain ⟨i, inside, rfl⟩ := List.getElem_of_mem mem
    have beyond : ¬ i < rank separator keys := fun early =>
      lt_asymm higher ((Position.lt_countP_lt_iff ascending inside).mp early)
    exact not_le.mp fun passed => beyond
      (same ▸ (Position.lt_countP_le_iff ascending inside).mpr passed)
  · intro free
    refine Nat.le_antisymm (Nat.le_of_not_lt fun more => ?_) (rank_le_route keys least)
    have inside : rank separator keys < keys.length := by omega
    have passed := (Position.lt_countP_le_iff ascending inside).mp more
    have not_below : ¬ keys[rank separator keys] < separator := fun below =>
      Nat.lt_irrefl (rank separator keys)
        ((Position.lt_countP_lt_iff ascending inside).mpr below)
    have other : separator ≠ keys[rank separator keys] := fun same =>
      absent (same ▸ List.getElem_mem inside)
    have higher := lt_of_le_of_ne (not_lt.mp not_below) other
    exact absurd passed (not_le.mpr (free _ (List.getElem_mem inside) higher))

theorem follows_iff (ascending : keys.Pairwise (· < ·)) (absent : separator ∉ keys) :
    Follows keys separator key ↔
      route key (keys.insertIdx (rank separator keys) separator) = rank separator keys + 1 := by
  rw [route_insertIdx (rank_le separator keys), Follows]
  by_cases least : separator ≤ key
  · rw [if_pos least, ← route_eq_rank_iff ascending absent least, Nat.add_right_cancel_iff]
    exact ⟨And.right, fun same => ⟨least, same⟩⟩
  · have few := route_le_rank keys (not_le.mp least)
    rw [if_neg least]
    exact ⟨fun given => absurd given.1 least, fun same => by omega⟩

theorem getElem?_route_insertIdx {α : Type} {items : List α} (a : α)
    (ascending : keys.Pairwise (· < ·)) (absent : separator ∉ keys)
    (outside : ¬ Follows keys separator key) :
    (items.insertIdx (rank separator keys + 1) a)[route key
      (keys.insertIdx (rank separator keys) separator)]? = items[route key keys]? := by
  have apart := mt (follows_iff ascending absent).mpr outside
  rw [route_insertIdx (rank_le separator keys)] at apart ⊢
  by_cases least : separator ≤ key
  · have more := rank_le_route keys least
    rw [if_pos least] at apart ⊢
    rw [List.getElem?_insertIdx_of_gt (by omega), Nat.add_sub_cancel]
  · have few := route_le_rank keys (not_le.mp least)
    rw [if_neg least] at apart ⊢
    rw [List.getElem?_insertIdx_of_lt (by omega), Nat.add_zero]

/-- What was routed to a child that goes with a separator beside it falls to a neighbour, everything
else stays. -/
theorem getElem?_route_eraseIdx {α : Type} {i : Nat} (key : K) (items : List α)
    (ascending : keys.Pairwise (· < ·)) (inside : i - 1 < keys.length) :
    (items.eraseIdx i)[route key (keys.eraseIdx (i - 1))]? =
      if route key keys = i then items[if i = 0 then 1 else i - 1]?
      else items[route key keys]? := by
  have shift := route_eraseIdx key ascending inside
  rw [List.getElem?_eraseIdx]
  rcases Nat.lt_trichotomy (route key keys) i with before | here | after
  · rw [if_neg (by omega)] at shift
    rw [shift, if_pos before, if_neg (by omega)]
  · rw [here] at shift ⊢
    by_cases first : i = 0
    · rw [if_neg (by omega)] at shift
      rw [shift, if_neg (Nat.lt_irrefl i), if_pos rfl, if_pos first, first]
    · rw [if_pos (by omega)] at shift
      rw [shift, if_pos (by omega), if_pos rfl, if_neg first]
  · rw [if_pos (by omega)] at shift
    rw [shift, if_neg (by omega), if_neg (by omega), Nat.sub_add_cancel (by omega)]

end PagedIndex
