import PagedIndex.Proofs.Tree.Focus

/-!
# Descents that keep the parent

A descent stands at the root, or at the child of an inner node that the key is routed to. It goes
down from a node to the child that the key is routed to.
-/

namespace PagedIndex.Tree

open KeyOrder

variable {K V : Type} [IndexKey K] {capacities : Capacities} {nodes : Nodes K V} {key : K}
  {height level : Nat} {range : Range K} {root page : PageId} {parent : Option PageId}
  {nodes' : Nodes K V} {minted : PageId → Prop} {held : List (K × V)}

inductive Stands (capacities : Capacities) (nodes : Nodes K V) (key : K) (height : Nat)
    (root : PageId) : Option PageId → Nat → Range K → PageId → Prop
  | top : Stands capacities nodes key height root none height .all root
  | below {around : Surroundings K V} {level : Nat} {range : Range K} {parent : PageId}
      {separators left right : List K} {pointers before after : List PageId} {child : PageId}
      (focus : Focus capacities nodes key height root around (level + 1) range parent)
      (node : nodes parent = .inner (level + 1) separators pointers)
      (sound : InnerSound capacities range separators pointers)
      (chain : Chain (Sound capacities nodes level) range separators pointers)
      (route : Chain.Route separators pointers key left right before child after) :
      Stands capacities nodes key height root (some parent) level (range.between left right) child

namespace Stands

theorem focus (h : Stands capacities nodes key height root parent level range page) :
    ∃ around, Focus capacities nodes key height root around level range page := by
  cases h with
  | top => exact ⟨_, .top capacities nodes key height root⟩
  | below focus node sound chain route => exact ⟨_, focus.down node sound chain route⟩

theorem sound (h : Stands capacities nodes key height root parent level range page)
    (whole : Sound capacities nodes height .all root) :
    Sound capacities nodes level range page := by
  cases h with
  | top => exact whole
  | below focus node sound chain route => exact route.holds chain

theorem of_none (h : Stands capacities nodes key height root none level range page) :
    level = height ∧ range = .all ∧ page = root := by
  cases h
  exact ⟨rfl, rfl, rfl⟩

theorem of_some {parent : PageId}
    (h : Stands capacities nodes key height root (some parent) level range page) :
    ∃ around range' left right before after,
      Focus capacities nodes key height root around (level + 1) range' parent ∧
      nodes parent = .inner (level + 1) (left ++ right) (before ++ page :: after) ∧
      InnerSound capacities range' (left ++ right) (before ++ page :: after) ∧
      Chain (Sound capacities nodes level) range' (left ++ right) (before ++ page :: after) ∧
      Chain.Route (left ++ right) (before ++ page :: after) key left right before page after ∧
      range = range'.between left right := by
  cases h with
  | below focus node sound chain route =>
    have separators_eq := route.separators_eq
    have pointers_eq := route.children_eq
    subst separators_eq pointers_eq
    exact ⟨_, _, _, _, _, _, focus, node, sound, chain, route, rfl⟩

theorem enter (h : Stands capacities nodes key height root parent (level + 1) range page)
    (whole : Sound capacities nodes height .all root) :
    ∃ separators pointers left right before child after,
      nodes page = .inner (level + 1) separators pointers ∧
      InnerSound capacities range separators pointers ∧
      Chain.Route separators pointers key left right before child after ∧
      Stands capacities nodes key height root (some page) level
        (range.between left right) child := by
  obtain ⟨around, focus⟩ := h.focus
  obtain ⟨separators, pointers, node, sound, chain⟩ := h.sound whole
  obtain ⟨left, right, before, child, after, route⟩ := chain.exists_route sound.ascending key
  exact ⟨separators, pointers, left, right, before, child, after, node, sound, route,
    .below focus node sound chain route⟩

theorem parent_apart {parent : PageId}
    (h : Stands capacities nodes key height root (some parent) level range page)
    (rooted : Rooted capacities nodes minted held height root) :
    parent ∉ pages nodes level page := by
  obtain ⟨around, range', left, right, before, after, focus, node, sound, chain, -, -⟩ := h.of_some
  have perm := focus.pages_perm ⟨_, _, node, sound, chain⟩
  have nodup := (List.nodup_append.mp (perm.nodup_iff.mp rooted.nodup)).2.1
  intro mem
  rw [pages, node] at nodup
  refine (List.nodup_cons.mp nodup).1 (List.mem_flatMap.mpr ⟨page, ?_, mem⟩)
  simp [Node.pointers]

theorem refill (h : Stands capacities nodes key height root parent level range page)
    (rooted : Rooted capacities nodes minted held height root)
    (sound' : Sound capacities nodes' level range page)
    (same : ∀ p ∈ pages nodes height root, p ∉ pages nodes level page → nodes' p = nodes p) :
    Stands capacities nodes' key height root parent level range page := by
  cases parent with
  | none =>
    obtain ⟨rfl, rfl, rfl⟩ := h.of_none
    exact .top
  | some parent =>
    have parent_apart := h.parent_apart rooted
    obtain ⟨around, range', left, right, before, after, focus, node, sound, chain, route, rfl⟩ :=
      h.of_some
    have whole : Sound capacities nodes (level + 1) range' parent := ⟨_, _, node, sound, chain⟩
    have nodup := (List.nodup_append.mp
      ((focus.pages_perm whole).nodup_iff.mp rooted.nodup)).2.1
    have node₀ : nodes parent = .inner (level + 1) (left ++ right) (before ++ [page] ++ after) := by
      simpa using node
    have at_page : page ∈ (nodes parent).pointers := by simp [node, Node.pointers]
    have at_parent := focus.pages_subset whole (mem_pages_self nodes (level + 1) parent)
    have beside : ∀ c ∈ before ++ after, ∀ p ∈ pages nodes level c, nodes' p = nodes p := by
      intro c mem p at_child
      have apart := (apart_of_nodup node₀ nodup c mem p at_child).2
      rw [List.flatMap_singleton] at apart
      refine same p (focus.pages_subset whole (mem_pages_of_child ?_ at_child)) apart
      rw [node₀]
      rcases List.mem_append.mp mem with mem | mem <;> simp [Node.pointers, mem]
    have chain' :=
      route.exchange chain (fun c mem r below => Sound.congr below (beside c mem)) sound'
    have around_same := focus.outside_same rooted whole fun p mem outside =>
      same p mem fun below => outside (mem_pages_of_child at_page below)
    exact .below (focus.congr around_same) ((same parent at_parent parent_apart).trans node) sound
      chain' route

end Stands

end PagedIndex.Tree
