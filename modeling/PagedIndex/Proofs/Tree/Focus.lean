import Mathlib.Data.List.Perm.Subperm
import PagedIndex.Proofs.Tree.Shape

/-!
# Subtrees in their surroundings

A focus is a place in a tree that the descent for a key passes. Whatever sound subtree is put there,
the whole tree is sound and holds what surrounds the place and what the subtree holds. The focus
moves down from an inner node to the child that the key is routed to.
-/

namespace PagedIndex.Tree

open KeyOrder

variable {K V : Type} [IndexKey K] {capacities : Capacities} {nodes nodes' : Nodes K V} {key : K}
  {height level : Nat} {range : Range K} {root page : PageId}

/-- What a tree has outside a subtree: its pages, and its entries on either side. -/
structure Surroundings (K V : Type) where
  outside : List PageId
  smaller : List (K × V)
  larger : List (K × V)

structure Focus (capacities : Capacities) (nodes : Nodes K V) (key : K) (height : Nat)
    (root : PageId) (around : Surroundings K V) (level : Nat) (range : Range K) (page : PageId) :
    Prop where
  contains : range.contains key = true
  smaller : ∀ entry ∈ around.smaller, entry.1 < key
  larger : ∀ entry ∈ around.larger, key < entry.1
  fill : ∀ nodes' : Nodes K V, (∀ p ∈ around.outside, nodes' p = nodes p) →
    Sound capacities nodes' level range page →
      Sound capacities nodes' height .all root ∧
      entries nodes' height root = around.smaller ++ entries nodes' level page ++ around.larger ∧
      (pages nodes' height root).Perm (around.outside ++ pages nodes' level page)

namespace Focus

theorem top (capacities : Capacities) (nodes : Nodes K V) (key : K) (height : Nat) (root : PageId) :
    Focus capacities nodes key height root ⟨[], [], []⟩ height .all root where
  contains := rfl
  smaller := by simp
  larger := by simp
  fill := by
    intro nodes' _ sound
    exact ⟨sound, by simp, by simp⟩

variable {around : Surroundings K V} {separators left right : List K}
  {pointers before after : List PageId} {child : PageId}

theorem congr (h : Focus capacities nodes key height root around level range page)
    (same : ∀ p ∈ around.outside, nodes' p = nodes p) :
    Focus capacities nodes' key height root around level range page :=
  ⟨h.contains, h.smaller, h.larger, fun nodes'' same' =>
    h.fill nodes'' fun p mem => (same' p mem).trans (same p mem)⟩

theorem down (h : Focus capacities nodes key height root around (level + 1) range page)
    (node : nodes page = .inner (level + 1) separators pointers)
    (sound : InnerSound capacities range separators pointers)
    (chain : Chain (Sound capacities nodes level) range separators pointers)
    (route : Chain.Route separators pointers key left right before child after) :
    Focus capacities nodes key height root
      ⟨around.outside ++ page :: (before ++ after).flatMap (pages nodes level),
        around.smaller ++ before.flatMap (entries nodes level),
        after.flatMap (entries nodes level) ++ around.larger⟩
      level (range.between left right) child := by
  obtain ⟨smaller, larger⟩ := route.sides (E := entries nodes level) chain sound.ascending
    sound.inside fun child _ r below => below.entries_ascending
  refine ⟨Range.contains_between h.contains route.reached route.ahead, ?_, ?_, ?_⟩
  · intro entry mem
    rcases List.mem_append.mp mem with mem | mem
    · exact h.smaller entry mem
    · exact smaller entry mem
  · intro entry mem
    rcases List.mem_append.mp mem with mem | mem
    · exact larger entry mem
    · exact h.larger entry mem
  · intro nodes' same filled
    have here : nodes' page = nodes page := same page (by simp)
    have beside (c : PageId) (mem : c ∈ before ++ after) (p : PageId)
        (below : p ∈ pages nodes level c) : nodes' p = nodes p := by
      refine same p (List.mem_append_right _ (List.mem_cons_of_mem _ ?_))
      exact List.mem_flatMap.mpr ⟨c, mem, below⟩
    obtain ⟨rfl, rfl, place, -, -⟩ := route
    have chain : Chain (Sound capacities nodes level) range (left ++ [] ++ right)
        (before ++ [child] ++ after) := by simpa using chain
    have node' : nodes' page = .inner (level + 1) (left ++ [] ++ right)
        (before ++ [child] ++ after) := by simpa using here.trans node
    obtain ⟨chain', whole_entries, whole_pages⟩ := Sound.regraft
      chain place rfl beside node' filled
    obtain ⟨sound', entries', pages'⟩ := h.fill nodes'
      (fun p mem => same p (List.mem_append_left _ mem))
      ⟨_, _, node', by simpa using sound, chain'⟩
    refine ⟨sound', ?_, pages'.trans ?_⟩
    · rw [entries', whole_entries]
      simp
    · rw [List.append_assoc]
      refine .append_left _ (whole_pages.trans ?_)
      rw [List.flatMap_singleton]
      exact List.perm_append_comm

end Focus

/-- A tree in order: sound, its pages apart and handed out before, and with the given entries. -/
structure Rooted (capacities : Capacities) (nodes : Nodes K V) (minted : PageId → Prop)
    (held : List (K × V)) (height : Nat) (root : PageId) : Prop where
  sound : Sound capacities nodes height .all root
  nodup : (pages nodes height root).Nodup
  minted : ∀ p ∈ pages nodes height root, minted p
  entries_eq : entries nodes height root = held

theorem Rooted.congr {capacities : Capacities} {nodes nodes' : Nodes K V}
    {minted minted' : PageId → Prop} {held : List (K × V)} {height : Nat} {root : PageId}
    (h : Rooted capacities nodes minted held height root)
    (same : ∀ p ∈ pages nodes height root, nodes' p = nodes p)
    (still : ∀ p, minted p → minted' p) : Rooted capacities nodes' minted' held height root := by
  refine ⟨h.sound.congr same, ?_, ?_, ?_⟩
  · rw [pages_congr same]
    exact h.nodup
  · rw [pages_congr same]
    exact fun p mem => still p (h.minted p mem)
  · rw [entries_congr same]
    exact h.entries_eq

namespace Focus

variable {around : Surroundings K V} {minted minted' : PageId → Prop} {held : List (K × V)}

theorem entries_eq (h : Focus capacities nodes key height root around level range page)
    (sound : Sound capacities nodes level range page) :
    entries nodes height root = around.smaller ++ entries nodes level page ++ around.larger :=
  (h.fill nodes (fun _ _ => rfl) sound).2.1

theorem pages_perm (h : Focus capacities nodes key height root around level range page)
    (sound : Sound capacities nodes level range page) :
    (pages nodes height root).Perm (around.outside ++ pages nodes level page) :=
  (h.fill nodes (fun _ _ => rfl) sound).2.2

theorem pages_subset (h : Focus capacities nodes key height root around level range page)
    (sound : Sound capacities nodes level range page) {p : PageId}
    (mem : p ∈ pages nodes level page) : p ∈ pages nodes height root :=
  (h.pages_perm sound).mem_iff.mpr (List.mem_append_right _ mem)

theorem outside_same (h : Focus capacities nodes key height root around level range page)
    (rooted : Rooted capacities nodes minted held height root)
    (sound : Sound capacities nodes level range page)
    (same : ∀ p ∈ pages nodes height root, p ∉ pages nodes level page → nodes' p = nodes p) :
    ∀ p ∈ around.outside, nodes' p = nodes p := by
  intro p mem
  have perm := h.pages_perm sound
  have nodup := perm.nodup_iff.mp rooted.nodup
  refine same p (perm.mem_iff.mpr (List.mem_append_left _ mem)) fun below => ?_
  exact (List.nodup_append.mp nodup).2.2 p mem p below rfl

theorem pages_fewer (h : Focus capacities nodes key height root around level range page)
    (rooted : Rooted capacities nodes minted held height root)
    (sound : Sound capacities nodes level range page)
    (sound' : Sound capacities nodes' level range page)
    (same : ∀ p ∈ pages nodes height root, p ∉ pages nodes level page → nodes' p = nodes p)
    {fresh : List PageId}
    (fewer : (pages nodes' level page).Subperm (fresh ++ pages nodes level page)) :
    (pages nodes' height root).Subperm (fresh ++ pages nodes height root) := by
  obtain ⟨-, -, perm'⟩ := h.fill nodes' (h.outside_same rooted sound same) sound'
  refine perm'.subperm.trans (.trans ((List.subperm_append_left _).mpr fewer) ?_)
  refine List.Perm.subperm (.trans ?_ ((h.pages_perm sound).symm.append_left fresh))
  rw [← List.append_assoc, ← List.append_assoc]
  exact List.perm_append_comm.append_right _

/-- Changes below the focus that add no page but fresh ones leave the tree in order. -/
theorem refill (h : Focus capacities nodes key height root around level range page)
    (rooted : Rooted capacities nodes minted held height root)
    (sound : Sound capacities nodes level range page)
    (sound' : Sound capacities nodes' level range page)
    (same : ∀ p ∈ pages nodes height root, p ∉ pages nodes level page → nodes' p = nodes p)
    {fresh : List PageId}
    (fewer : (pages nodes' level page).Subperm (fresh ++ pages nodes level page))
    (distinct : fresh.Nodup) (new : ∀ p ∈ fresh, ¬ minted p ∧ minted' p)
    (still : ∀ p, minted p → minted' p) :
    Rooted capacities nodes' minted'
      (around.smaller ++ entries nodes' level page ++ around.larger) height root := by
  obtain ⟨filled, entries', -⟩ := h.fill nodes' (h.outside_same rooted sound same) sound'
  have all := h.pages_fewer rooted sound sound' same fewer
  have apart : (fresh ++ pages nodes height root).Nodup := by
    refine List.nodup_append.mpr ⟨distinct, rooted.nodup, ?_⟩
    rintro p mem _ mem' rfl
    exact (new p mem).1 (rooted.minted p mem')
  refine ⟨filled, ?_, ?_, entries'⟩
  · obtain ⟨list, same, sub⟩ := all
    exact same.nodup_iff.mp (sub.nodup apart)
  · intro p mem
    rcases List.mem_append.mp (all.subset mem) with mem | mem
    · exact (new p mem).2
    · exact still p (rooted.minted p mem)

variable {left middle middle' right : List K} {before children children' after : List PageId}

/-- Children of the node in focus make way for others that hold the same. -/
theorem regraft (h : Focus capacities nodes key height root around (level + 1) range page)
    (rooted : Rooted capacities nodes minted held height root)
    (node : nodes page = .inner (level + 1) (left ++ middle ++ right) (before ++ children ++ after))
    (sound : InnerSound capacities range (left ++ middle ++ right) (before ++ children ++ after))
    (chain : Chain (Sound capacities nodes level) range (left ++ middle ++ right)
      (before ++ children ++ after))
    (place : before.length = left.length) (size : children.length = middle.length + 1)
    (same : ∀ p ∈ pages nodes height root, p ≠ page → p ∉ children.flatMap (pages nodes level) →
      nodes' p = nodes p)
    (node' : nodes' page = .inner (level + 1) (left ++ middle' ++ right)
      (before ++ children' ++ after))
    (sound' : InnerSound capacities range (left ++ middle' ++ right) (before ++ children' ++ after))
    (piece : Chain (Sound capacities nodes' level) (range.between left right) middle' children')
    (entries_same :
      children'.flatMap (entries nodes' level) = children.flatMap (entries nodes level))
    {fresh : List PageId} (fewer : (children'.flatMap (pages nodes' level)).Subperm
      (fresh ++ children.flatMap (pages nodes level)))
    (distinct : fresh.Nodup) (new : ∀ p ∈ fresh, ¬ minted p ∧ minted' p)
    (still : ∀ p, minted p → minted' p) :
    Rooted capacities nodes' minted' held height root ∧
      Focus capacities nodes' key height root around (level + 1) range page ∧
      Chain (Sound capacities nodes' level) range (left ++ middle' ++ right)
        (before ++ children' ++ after) ∧
      (pages nodes' height root).Subperm (fresh ++ pages nodes height root) := by
  have whole : Sound capacities nodes (level + 1) range page := ⟨_, _, node, sound, chain⟩
  have nodup := (List.nodup_append.mp ((h.pages_perm whole).nodup_iff.mp rooted.nodup)).2.1
  have listed := Tree.pages_perm level node
  have at_most (p : PageId) (mem : p ∈ pages nodes height root)
      (outside : p ∉ pages nodes (level + 1) page) : nodes' p = nodes p := by
    refine same p mem ?_ fun below => outside (listed.mem_iff.mpr (List.mem_append_left _ below))
    rintro rfl
    exact outside (mem_pages_self nodes _ p)
  have beside (c : PageId) (mem : c ∈ before ++ after) (p : PageId)
      (below : p ∈ pages nodes level c) : nodes' p = nodes p := by
    obtain ⟨not_page, not_below⟩ := apart_of_nodup node nodup c mem p below
    refine same p (h.pages_subset whole (listed.mem_iff.mpr ?_)) not_page not_below
    exact List.mem_append_right _ (List.mem_cons_of_mem _ (List.mem_flatMap.mpr ⟨c, mem, below⟩))
  obtain ⟨chain', entries', pages'⟩ := Sound.regraft chain place size beside node' piece
  have fewer_pages : (pages nodes' (level + 1) page).Subperm
      (fresh ++ pages nodes (level + 1) page) := by
    refine pages'.subperm.trans (.trans ((List.subperm_append_right _).mpr fewer) ?_)
    rw [List.append_assoc]
    exact (listed.symm.append_left fresh).subperm
  have whole' : Sound capacities nodes' (level + 1) range page := ⟨_, _, node', sound', chain'⟩
  have refilled := h.refill rooted whole whole' at_most fewer_pages distinct new still
  have unchanged : entries nodes' (level + 1) page = entries nodes (level + 1) page := by
    rw [entries', entries_same, entries, node]
    simp [Node.pointers]
  rw [unchanged, ← h.entries_eq whole, rooted.entries_eq] at refilled
  exact ⟨refilled, h.congr (h.outside_same rooted whole at_most), chain',
    h.pages_fewer rooted whole whole' at_most fewer_pages⟩

theorem cuts (h : Focus capacities nodes key height root around 0 range page)
    {listed before after : List (K × V)} {own : Option V} (node : nodes page = .leaf listed)
    (sound : LeafSound capacities range listed) (cuts : Cuts key listed before own after) :
    Cuts key (entries nodes height root) (around.smaller ++ before) own
      (after ++ around.larger) := by
  have whole := h.entries_eq ⟨listed, node, sound⟩
  refine ⟨?_, ?_, ?_⟩
  · rw [whole, entries, node, Node.entries, cuts.entries_eq]
    simp
  · intro entry mem
    rcases List.mem_append.mp mem with mem | mem
    · exact h.smaller entry mem
    · exact cuts.below entry mem
  · intro entry mem
    rcases List.mem_append.mp mem with mem | mem
    · exact cuts.above entry mem
    · exact h.larger entry mem

end Focus

end PagedIndex.Tree
