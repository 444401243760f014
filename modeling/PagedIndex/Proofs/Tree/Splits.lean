import PagedIndex.Proofs.Tree.Descents

/-!
# Splits

A full node is cut in two at a separator and its upper half gets a fresh page. The halves replace
the node below its parent, or below a new root. The tree stays in order, its entries stay the same
and the descent stands at one of the halves. A separator that the parent has already is the lower
bound of the node; the lower half then holds nothing and is dropped.
-/

namespace PagedIndex.Tree

open KeyOrder

section Halves

variable {K V : Type}

/-- A node, the separator at which it is cut, and the halves. Of the children of an inner node half
stay, rounded down. -/
inductive Halved : Node K V → K → Node K V → Node K V → Prop
  | leaf {lower upper : List (K × V)} {separator : K} {value : V} (occupied : lower ≠ []) :
      Halved (.leaf (lower ++ (separator, value) :: upper)) separator (.leaf lower)
        (.leaf ((separator, value) :: upper))
  | inner {level : Nat} {left right : List K} {separator : K} {before after : List PageId}
      (place : before.length = left.length + 1)
      (even : before.length = (before ++ after).length / 2) :
      Halved (.inner level (left ++ separator :: right) (before ++ after)) separator
        (.inner level left before) (.inner level right after)

end Halves

variable {K V : Type} [IndexKey K] {capacities : Capacities} {nodes nodes' : Nodes K V} {key : K}
  {height level : Nat} {range : Range K} {root page sibling : PageId} {separator : K}
  {lower upper : Node K V} {minted minted' : PageId → Prop} {held : List (K × V)}

/-- The parent of a node that was cut in two, with the separator and the upper half's page added, or
with that page in the place of the node's. -/
inductive Hooked (level : Nat) (left right : List K) (before after : List PageId)
    (child sibling : PageId) (separator : K) : Node K V → Prop
  | added (smaller : ∀ s ∈ left, s < separator) :
      Hooked level left right before after child sibling separator
        (.inner level (left ++ separator :: right) (before ++ child :: sibling :: after))
  | retargeted (last : left.getLast? = some separator) :
      Hooked level left right before after child sibling separator
        (.inner level (left ++ right) (before ++ sibling :: after))

/-- The trees below the halves of a node, beside the tree that was below the node. -/
structure Divided (capacities : Capacities) (nodes nodes' : Nodes K V) (level : Nat)
    (range : Range K) (page sibling : PageId) (separator : K) : Prop where
  contains : range.contains separator = true
  left : Sound capacities nodes' level ⟨range.low, some separator⟩ page
  right : Sound capacities nodes' level ⟨some separator, range.high⟩ sibling
  entries_eq : entries nodes' level page ++ entries nodes' level sibling = entries nodes level page
  pages_perm : (pages nodes' level page ++ pages nodes' level sibling).Perm
    (sibling :: pages nodes level page)

theorem InnerSound.parted {left right : List K} {before after : List PageId}
    (sound : InnerSound capacities range (left ++ separator :: right) (before ++ after)) :
    InnerSound capacities ⟨range.low, some separator⟩ left before ∧
      InnerSound capacities ⟨some separator, range.high⟩ right after := by
  obtain ⟨within, ascending, inside⟩ := sound
  rw [List.length_append] at within
  obtain ⟨ascending_left, ascending_right, across⟩ := List.pairwise_append.mp ascending
  refine ⟨⟨by omega, ascending_left, ?_⟩, ⟨by omega, (List.pairwise_cons.mp ascending_right).2, ?_⟩⟩
  · intro s mem
    exact Range.contains_below (inside s (by simp [mem])) (across s mem separator (by simp))
  · intro s mem
    exact Range.contains_above (inside s (by simp [mem]))
      (le_of_lt ((List.pairwise_cons.mp ascending_right).1 s mem))

theorem LeafSound.parted {before after : List (K × V)} {value : V}
    (sound : LeafSound capacities range (before ++ (separator, value) :: after)) :
    LeafSound capacities ⟨range.low, some separator⟩ before ∧
      LeafSound capacities ⟨some separator, range.high⟩ ((separator, value) :: after) := by
  obtain ⟨within, ascending, inside⟩ := sound
  rw [List.length_append] at within
  rw [Ascending, List.map_append] at ascending
  obtain ⟨ascending_left, ascending_right, across⟩ := List.pairwise_append.mp ascending
  refine ⟨⟨by omega, ascending_left, ?_⟩, ⟨by omega, ascending_right, ?_⟩⟩
  · intro entry mem
    exact Range.contains_below (inside entry (by simp [mem]))
      (across entry.1 (List.mem_map_of_mem mem) separator (by simp))
  · intro entry mem
    apply Range.contains_above (inside entry (List.mem_append_right _ mem))
    rcases List.mem_cons.mp mem with rfl | mem
    · exact le_refl _
    · exact le_of_lt ((List.pairwise_cons.mp ascending_right).1 entry.1 (List.mem_map_of_mem mem))

theorem Halved.contains (halved : Halved (nodes page) separator lower upper)
    (sound : Sound capacities nodes level range page) : range.contains separator = true := by
  cases level with
  | zero =>
    obtain ⟨listed, node, sound⟩ := sound
    rw [node] at halved
    cases halved with
    | leaf occupied => exact sound.inside _ (List.mem_append_right _ List.mem_cons_self)
  | succ level =>
    obtain ⟨separators, pointers, node, sound, chain⟩ := sound
    rw [node] at halved
    cases halved with
    | inner place even => exact sound.inside separator (by simp)

theorem Halved.divided (halved : Halved (nodes page) separator lower upper)
    (sound : Sound capacities nodes level range page) (left : nodes' page = lower)
    (right : nodes' sibling = upper)
    (same : ∀ p ∈ pages nodes level page, p ≠ page → nodes' p = nodes p)
    (nodup : (pages nodes level page).Nodup) :
    Divided capacities nodes nodes' level range page sibling separator := by
  have contained := halved.contains sound
  cases level with
  | zero =>
    obtain ⟨listed, node, sound⟩ := sound
    rw [node] at halved
    cases halved with
    | leaf occupied =>
      refine ⟨contained, ⟨_, left, sound.parted.1⟩,
        ⟨_, right, sound.parted.2⟩, ?_, List.Perm.swap sibling page []⟩
      rw [entries, entries, entries, left, right, node]
      rfl
  | succ level =>
    obtain ⟨separators, pointers, node, sound, chain⟩ := sound
    rw [pages, node] at same nodup
    rw [node] at halved
    cases halved with
    | @inner _ low_part high_part _ before after place even =>
      obtain ⟨low_chain, high_chain⟩ := (Chain.append_iff place).mp chain
      have below (c : PageId) (mem : c ∈ before ++ after) (p : PageId)
          (at_child : p ∈ pages nodes level c) : nodes' p = nodes p := by
        have listed : p ∈ (before ++ after).flatMap (pages nodes level) :=
          List.mem_flatMap.mpr ⟨c, mem, at_child⟩
        apply same p (List.mem_cons_of_mem _ listed)
        rintro rfl
        exact (List.nodup_cons.mp nodup).1 listed
      have unchanged (list : List PageId) (among : ∀ c ∈ list, c ∈ before ++ after) :
          list.flatMap (entries nodes' level) = list.flatMap (entries nodes level) ∧
            list.flatMap (pages nodes' level) = list.flatMap (pages nodes level) :=
        ⟨List.flatMap_congr fun c mem => entries_congr (below c (among c mem)),
          List.flatMap_congr fun c mem => pages_congr (below c (among c mem))⟩
      obtain ⟨before_entries, before_pages⟩ := unchanged before fun c => List.mem_append_left _
      obtain ⟨after_entries, after_pages⟩ := unchanged after fun c => List.mem_append_right _
      refine ⟨contained, ⟨_, _, left, sound.parted.1, ?_⟩,
        ⟨_, _, right, sound.parted.2, ?_⟩, ?_, ?_⟩
      · exact low_chain.imp fun c mem r h => h.congr (below c (List.mem_append_left _ mem))
      · exact high_chain.imp fun c mem r h => h.congr (below c (List.mem_append_right _ mem))
      · rw [entries, entries, entries, left, right, node]
        simp only [Node.pointers, before_entries, after_entries, List.flatMap_append]
      · rw [pages, pages, pages, left, right, node]
        simp only [Node.pointers, before_pages, after_pages, List.flatMap_append,
          List.cons_append]
        exact .trans (.cons _ List.perm_middle) (List.Perm.swap ..)

namespace Divided

theorem left_bare (h : Divided capacities nodes nodes' level range page sibling separator)
    (bound : range.low = some separator) : entries nodes' level page = [] := by
  refine List.eq_nil_iff_forall_not_mem.mpr fun entry mem => ?_
  have inside := Range.contains_iff.mp (h.left.entries_ascending.2 entry mem)
  exact lt_irrefl _ (lt_of_lt_of_le (inside.2 separator rfl) (inside.1 separator bound))

theorem pages_subperm (h : Divided capacities nodes nodes' level range page sibling separator) :
    (pages nodes' level sibling).Subperm (sibling :: pages nodes level page) :=
  (List.sublist_append_right _ _).subperm.trans h.pages_perm.subperm

variable {top : PageId}

theorem promote (h : Divided capacities nodes nodes' height .all root sibling separator)
    (rooted : Rooted capacities nodes minted held height root) (two : 2 ≤ capacities.inner)
    (node : nodes' top = .inner (height + 1) [separator] [root, sibling])
    (distinct : [top, sibling].Nodup) (new : ∀ p ∈ [top, sibling], ¬ minted p ∧ minted' p)
    (still : ∀ p, minted p → minted' p) :
    Rooted capacities nodes' minted' held (height + 1) top ∧
      (pages nodes' (height + 1) top).Subperm ([top, sibling] ++ pages nodes height root) ∧
      ∃ range', Stands capacities nodes' key (height + 1) top (some top) height range'
        (if separator ≤ key then sibling else root) := by
  have sound : InnerSound capacities .all [separator] [root, sibling] :=
    ⟨two, List.pairwise_singleton _ _, fun _ _ => rfl⟩
  have chain : Chain (Sound capacities nodes' height) .all [separator] [root, sibling] :=
    ⟨h.left, h.right⟩
  have perm : (pages nodes' (height + 1) top).Perm ([top, sibling] ++ pages nodes height root) := by
    rw [pages, node]
    simp only [Node.pointers, List.flatMap_cons, List.flatMap_nil, List.append_nil]
    exact h.pages_perm.cons top
  have apart : ([top, sibling] ++ pages nodes height root).Nodup := by
    refine List.nodup_append.mpr ⟨distinct, rooted.nodup, ?_⟩
    rintro p mem _ mem' rfl
    exact (new p mem).1 (rooted.minted p mem')
  refine ⟨⟨⟨_, _, node, sound, chain⟩, perm.nodup_iff.mpr apart, ?_, ?_⟩, perm.subperm, ?_⟩
  · intro p mem
    rcases List.mem_append.mp (perm.mem_iff.mp mem) with mem | mem
    · exact (new p mem).2
    · exact still p (rooted.minted p mem)
  · rw [entries, node, ← rooted.entries_eq, ← h.entries_eq]
    simp [Node.pointers]
  · have focus := Focus.top capacities nodes' key (height + 1) top
    have route : Chain.Route [] [root] key [] [] [] root [] := ⟨rfl, rfl, rfl, by simp, by simp⟩
    by_cases reached : separator ≤ key
    · rw [if_pos reached]
      exact ⟨_, .below focus node sound chain (route.upper_half sibling reached)⟩
    · rw [if_neg reached]
      exact ⟨_, .below focus node sound chain (route.lower_half sibling reached)⟩

section Hooks

variable {around : Surroundings K V} {left right : List K} {before after : List PageId}
  {parent child : PageId}

theorem added_sound (sound : InnerSound capacities range (left ++ right) (before ++ child :: after))
    (between : (range.between left right).contains separator = true)
    (smaller : ∀ s ∈ left, s < separator)
    (room : (before ++ child :: after).length < capacities.inner) :
    InnerSound capacities range (left ++ separator :: right)
      (before ++ child :: sibling :: after) := by
  obtain ⟨ascending_left, ascending_right, across⟩ := List.pairwise_append.mp sound.ascending
  have greater := (Range.of_contains_between sound.ascending between).2
  refine ⟨?_, ?_, ?_⟩
  · simp only [List.length_append, List.length_cons] at room ⊢
    omega
  · refine List.pairwise_append.mpr ⟨ascending_left, List.pairwise_cons.mpr ⟨greater,
      ascending_right⟩, ?_⟩
    intro s mem s' mem'
    rcases List.mem_cons.mp mem' with rfl | mem'
    · exact smaller s mem
    · exact across s mem s' mem'
  · intro s mem
    rcases List.mem_append.mp mem with mem | mem
    · exact sound.inside s (List.mem_append_left _ mem)
    · rcases List.mem_cons.mp mem with rfl | mem
      · exact (Range.between_within sound.inside).contains between
      · exact sound.inside s (List.mem_append_right _ mem)

theorem hook
    (h : Divided capacities nodes nodes' level (range.between left right) child sibling separator)
    (focus : Focus capacities nodes key height root around (level + 1) range parent)
    (node : nodes parent = .inner (level + 1) (left ++ right) (before ++ child :: after))
    (sound : InnerSound capacities range (left ++ right) (before ++ child :: after))
    (chain : Chain (Sound capacities nodes level) range (left ++ right) (before ++ child :: after))
    (route :
      Chain.Route (left ++ right) (before ++ child :: after) key left right before child after)
    (hooked : Hooked (level + 1) left right before after child sibling separator (nodes' parent))
    (room : (before ++ child :: after).length < capacities.inner)
    (rooted : Rooted capacities nodes minted held height root)
    (same : ∀ p ∈ pages nodes height root, p ≠ child → p ≠ parent → nodes' p = nodes p)
    (new : ¬ minted sibling ∧ minted' sibling) (still : ∀ p, minted p → minted' p) :
    Rooted capacities nodes' minted' held height root ∧
      (pages nodes' height root).Subperm (sibling :: pages nodes height root) ∧
      ∃ range', Stands capacities nodes' key height root (some parent) level range'
        (if separator ≤ key then sibling else child) := by
  have place := route.place
  have node₀ : nodes parent = .inner (level + 1) (left ++ [] ++ right)
      (before ++ [child] ++ after) := by simpa using node
  have chain₀ : Chain (Sound capacities nodes level) range (left ++ [] ++ right)
      (before ++ [child] ++ after) := by simpa using chain
  have same₀ (p : PageId) (mem : p ∈ pages nodes height root) (not_parent : p ≠ parent)
      (not_below : p ∉ [child].flatMap (pages nodes level)) : nodes' p = nodes p := by
    refine same p mem ?_ not_parent
    rintro rfl
    exact not_below (by simpa using mem_pages_self nodes level p)
  have distinct : [sibling].Nodup := by simp
  have new : ∀ p ∈ [sibling], ¬ minted p ∧ minted' p := by simpa using new
  generalize node' : nodes' parent = hooked_node at hooked
  cases hooked with
  | added smaller =>
    have sound' : InnerSound capacities range (left ++ separator :: right)
        (before ++ child :: sibling :: after) := added_sound sound h.contains smaller room
    have node₁ : nodes' parent = .inner (level + 1) (left ++ [separator] ++ right)
        (before ++ [child, sibling] ++ after) := by simpa using node'
    obtain ⟨rooted', focus', chain', fewer⟩ := focus.regraft rooted node₀ (by simpa using sound)
      chain₀ place rfl same₀ node₁ (by simpa using sound') ⟨h.left, h.right⟩
      (by simpa using h.entries_eq) (by simpa using h.pages_perm.subperm) distinct new still
    refine ⟨rooted', fewer, ?_⟩
    have stand {left' right' : List K} {before' after' : List PageId} {half : PageId}
        (route : Chain.Route (left ++ separator :: right) (before ++ child :: sibling :: after) key
          left' right' before' half after') :=
      Stands.below focus' node' sound' (by simpa using chain') route
    by_cases above : separator ≤ key
    · rw [if_pos above]
      exact ⟨_, stand (route.upper_half sibling above)⟩
    · rw [if_neg above]
      exact ⟨_, stand (route.lower_half sibling above)⟩
  | retargeted last =>
    have bound : (range.between left right).low = some separator := by rw [Range.between, last]; rfl
    have sound' : InnerSound capacities range (left ++ right) (before ++ sibling :: after) := by
      refine ⟨?_, sound.ascending, sound.inside⟩
      have within := sound.within
      simp only [List.length_append, List.length_cons] at within ⊢
      exact within
    have entries_same := h.entries_eq
    rw [h.left_bare bound, List.nil_append] at entries_same
    have piece : Sound capacities nodes' level (range.between left right) sibling := by
      have narrow := h.right
      rw [← bound] at narrow
      exact narrow
    have node₁ : nodes' parent = .inner (level + 1) (left ++ [] ++ right)
        (before ++ [sibling] ++ after) := by simpa using node'
    obtain ⟨rooted', focus', chain', fewer⟩ := focus.regraft rooted node₀ (by simpa using sound)
      chain₀ place rfl same₀ node₁ (by simpa using sound') piece (by simpa using entries_same)
      (by simpa using h.pages_subperm) distinct new still
    have above : separator ≤ key := route.reached separator (List.mem_of_getLast? last)
    rw [if_pos above]
    exact ⟨rooted', fewer, _, .below focus' node' sound' (by simpa using chain')
      ⟨rfl, rfl, place, route.reached, route.ahead⟩⟩

end Hooks

end Divided

end PagedIndex.Tree
