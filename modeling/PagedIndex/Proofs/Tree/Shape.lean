import Mathlib.Data.List.Basic
import PagedIndex.Node.Capacities
import PagedIndex.Proofs.Tree.Chains

/-!
# The shape of a tree of pages

Pages are decoded to nodes, and a page with a level stands for the tree below it: the pages in it,
the entries of its leaves, and whether it is sound in a range of keys. A sound tree holds its
entries in ascending order. What it holds depends on its own pages only.
-/

namespace PagedIndex.Tree

open KeyOrder

/-- What a page holds. A leaf has level zero. -/
inductive Node (K V : Type) where
  | leaf (entries : List (K × V))
  | inner (level : Nat) (separators : List K) (pointers : List PageId)

abbrev Nodes (K V : Type) := PageId → Node K V

namespace Node

variable {K V : Type}

def entries : Node K V → List (K × V)
  | leaf entries => entries
  | inner _ _ _ => []

def pointers : Node K V → List PageId
  | leaf _ => []
  | inner _ _ pointers => pointers

def isLeaf : Node K V → Bool
  | leaf _ => true
  | inner _ _ _ => false

end Node

section Contents

variable {K V : Type}

/-- The pages of the tree below a page, each before those below it. -/
def pages (nodes : Nodes K V) : Nat → PageId → List PageId
  | 0, page => [page]
  | level + 1, page => page :: (nodes page).pointers.flatMap (pages nodes level)

/-- The entries of the leaves below a page, from left to right. -/
def entries (nodes : Nodes K V) : Nat → PageId → List (K × V)
  | 0, page => (nodes page).entries
  | level + 1, page => (nodes page).pointers.flatMap (entries nodes level)

variable {nodes nodes' : Nodes K V} {level : Nat} {page : PageId}

theorem mem_pages_self (nodes : Nodes K V) (level : Nat) (page : PageId) :
    page ∈ pages nodes level page := by
  cases level <;> simp [pages]

theorem mem_pages_of_child {child other : PageId} (mem : child ∈ (nodes page).pointers)
    (h : other ∈ pages nodes level child) : other ∈ pages nodes (level + 1) page :=
  List.mem_cons_of_mem _ (List.mem_flatMap.mpr ⟨child, mem, h⟩)

theorem pages_congr (same : ∀ p ∈ pages nodes level page, nodes' p = nodes p) :
    pages nodes' level page = pages nodes level page := by
  induction level generalizing page with
  | zero => rfl
  | succ level ih =>
    simp only [pages]
    rw [same page (mem_pages_self nodes _ page)]
    congr 1
    refine List.flatMap_congr fun child mem => ih fun p h => ?_
    exact same p (mem_pages_of_child mem h)

theorem entries_congr (same : ∀ p ∈ pages nodes level page, nodes' p = nodes p) :
    entries nodes' level page = entries nodes level page := by
  induction level generalizing page with
  | zero => rw [entries, entries, same page (mem_pages_self nodes _ page)]
  | succ level ih =>
    rw [entries, entries, same page (mem_pages_self nodes _ page)]
    refine List.flatMap_congr fun child mem => ih fun p h => ?_
    exact same p (mem_pages_of_child mem h)

theorem pages_perm (level : Nat) {number : Nat} {separators : List K}
    {before children after : List PageId}
    (node : nodes page = .inner number separators (before ++ children ++ after)) :
    (pages nodes (level + 1) page).Perm (children.flatMap (pages nodes level) ++
      page :: (before ++ after).flatMap (pages nodes level)) := by
  rw [pages, node]
  simp only [Node.pointers, List.flatMap_append]
  refine .trans (.cons _ ?_) List.perm_middle.symm
  rw [← List.append_assoc]
  exact List.perm_append_comm.append_right _

inductive Reaches (nodes : Nodes K V) (root : PageId) : PageId → Prop
  | here : Reaches nodes root root
  | down {page child : PageId} (reached : Reaches nodes root page)
      (mem : child ∈ (nodes page).pointers) : Reaches nodes root child

theorem Reaches.of_child {child other : PageId} (mem : child ∈ (nodes page).pointers)
    (h : Reaches nodes child other) : Reaches nodes page other := by
  induction h with
  | here => exact .down .here mem
  | down _ below ih => exact .down ih below

theorem Reaches.of_mem_pages {other : PageId} (h : other ∈ pages nodes level page) :
    Reaches nodes page other := by
  induction level generalizing page with
  | zero =>
    rw [List.mem_singleton.mp h]
    exact .here
  | succ level ih =>
    rcases List.mem_cons.mp h with rfl | h
    · exact .here
    · obtain ⟨child, mem, below⟩ := List.mem_flatMap.mp h
      exact .of_child mem (ih below)

theorem apart_of_nodup {number : Nat} {separators : List K} {before children after : List PageId}
    (node : nodes page = .inner number separators (before ++ children ++ after))
    (nodup : (pages nodes (level + 1) page).Nodup) :
    ∀ c ∈ before ++ after, ∀ p ∈ pages nodes level c,
      p ≠ page ∧ p ∉ children.flatMap (pages nodes level) := by
  have nodup := (pages_perm level node).nodup_iff.mp nodup
  obtain ⟨-, others, across⟩ := List.nodup_append.mp nodup
  intro c mem p below
  have listed : p ∈ (before ++ after).flatMap (pages nodes level) :=
    List.mem_flatMap.mpr ⟨c, mem, below⟩
  constructor
  · rintro rfl
    exact (List.nodup_cons.mp others).1 listed
  · intro mem_children
    exact across p mem_children p (List.mem_cons_of_mem _ listed) rfl

end Contents

variable {K V : Type} [IndexKey K]

structure LeafSound (capacities : Capacities) (range : Range K) (entries : List (K × V)) : Prop
    where
  within : entries.length ≤ capacities.leaf
  ascending : Ascending entries
  inside : ∀ entry ∈ entries, range.contains entry.1 = true

structure InnerSound (capacities : Capacities) (range : Range K) (separators : List K)
    (pointers : List PageId) : Prop where
  within : pointers.length ≤ capacities.inner
  ascending : separators.Pairwise (· < ·)
  inside : ∀ separator ∈ separators, range.contains separator = true

theorem LeafSound.put {capacities : Capacities} {range : Range K} {key : K}
    {entries before after : List (K × V)} {own : Option V}
    (sound : LeafSound capacities range entries) (cuts : Cuts key entries before own after)
    (value : V) (inside : range.contains key = true)
    (vacant : own = none → entries.length < capacities.leaf) :
    LeafSound capacities range (before ++ (key, value) :: after) := by
  refine ⟨length_put_le cuts.entries_eq sound.within vacant value,
    cuts.ascending_put sound.ascending value, fun entry mem => ?_⟩
  rcases List.mem_append.mp mem with mem | mem
  · exact sound.inside entry (cuts.sublist.subset (List.mem_append_left _ mem))
  · rcases List.mem_cons.mp mem with rfl | mem
    · exact inside
    · exact sound.inside entry (cuts.sublist.subset (List.mem_append_right _ mem))

theorem LeafSound.sublist {capacities : Capacities} {range : Range K}
    {entries entries' : List (K × V)}
    (sound : LeafSound capacities range entries) (fewer : entries'.Sublist entries) :
    LeafSound capacities range entries' :=
  ⟨Nat.le_trans fewer.length_le sound.within, sound.ascending.sublist (fewer.map Prod.fst),
    fun entry mem => sound.inside entry (fewer.subset mem)⟩

/-- The tree below a page is in order and keeps to a range of keys. -/
def Sound (capacities : Capacities) (nodes : Nodes K V) : Nat → Range K → PageId → Prop
  | 0, range, page => ∃ entries, nodes page = .leaf entries ∧ LeafSound capacities range entries
  | level + 1, range, page => ∃ separators pointers,
    nodes page = .inner (level + 1) separators pointers ∧
      InnerSound capacities range separators pointers ∧
      Chain (Sound capacities nodes level) range separators pointers

variable {capacities : Capacities} {nodes nodes' : Nodes K V} {level : Nat} {range range' : Range K}
  {page : PageId}

namespace Sound

theorem congr (h : Sound capacities nodes level range page)
    (same : ∀ p ∈ pages nodes level page, nodes' p = nodes p) :
    Sound capacities nodes' level range page := by
  induction level generalizing range page with
  | zero =>
    obtain ⟨entries, node, sound⟩ := h
    exact ⟨entries, (same page (mem_pages_self nodes _ page)).trans node, sound⟩
  | succ level ih =>
    obtain ⟨separators, pointers, node, sound, chain⟩ := h
    refine ⟨separators, pointers, (same page (mem_pages_self nodes _ page)).trans node, sound,
      chain.imp fun child mem r below => ih below fun p h => same p ?_⟩
    exact mem_pages_of_child (by rw [node]; exact mem) h

theorem widen (h : Sound capacities nodes level range page) (within : range.Within range') :
    Sound capacities nodes level range' page := by
  induction level generalizing range range' page with
  | zero =>
    obtain ⟨entries, node, sound⟩ := h
    exact ⟨entries, node, sound.within, sound.ascending,
      fun entry mem => within.contains (sound.inside entry mem)⟩
  | succ level ih =>
    obtain ⟨separators, pointers, node, sound, chain⟩ := h
    exact ⟨separators, pointers, node, ⟨sound.within, sound.ascending,
      fun separator mem => within.contains (sound.inside separator mem)⟩,
      chain.widen within fun child _ r r' narrow below => ih below narrow⟩

theorem entries_ascending (h : Sound capacities nodes level range page) :
    Ascending (entries nodes level page) ∧
      ∀ entry ∈ entries nodes level page, range.contains entry.1 = true := by
  induction level generalizing range page with
  | zero =>
    obtain ⟨entries, node, sound⟩ := h
    rw [Tree.entries, node]
    exact ⟨sound.ascending, sound.inside⟩
  | succ level ih =>
    obtain ⟨separators, pointers, node, sound, chain⟩ := h
    rw [Tree.entries, node]
    exact chain.flatMap_ascending sound.ascending sound.inside fun child _ r below => ih below

theorem of_reaches (h : Sound capacities nodes level range page) {other : PageId}
    (reaches : Reaches nodes page other) : ∃ level' range',
      Sound capacities nodes level' range' other ∧
        ∀ p ∈ pages nodes level' other, p ∈ pages nodes level page := by
  induction reaches with
  | here => exact ⟨level, range, h, fun p mem => mem⟩
  | @down middle child _ mem ih =>
    obtain ⟨level', range', sound, below⟩ := ih
    cases level' with
    | zero =>
      obtain ⟨listed, node, -⟩ := sound
      rw [node] at mem
      exact absurd mem List.not_mem_nil
    | succ level' =>
      obtain ⟨separators, pointers, node, -, chain⟩ := sound
      have listed := mem
      rw [node] at listed
      obtain ⟨r, sound'⟩ := chain.exists_range listed
      exact ⟨level', r, sound', fun p at_child => below p (mem_pages_of_child mem at_child)⟩

theorem mem_pages_of_reaches (h : Sound capacities nodes level range page) {other : PageId}
    (reaches : Reaches nodes page other) : other ∈ pages nodes level page := by
  obtain ⟨level', range', -, below⟩ := h.of_reaches reaches
  exact below other (mem_pages_self nodes level' other)

theorem reaches_iff (h : Sound capacities nodes level range page) {other : PageId} :
    Reaches nodes page other ↔ other ∈ pages nodes level page :=
  ⟨h.mem_pages_of_reaches, Reaches.of_mem_pages⟩

theorem entries_eq_flatMap (h : Sound capacities nodes level range page) :
    Tree.entries nodes level page =
      (pages nodes level page).flatMap fun p => (nodes p).entries := by
  induction level generalizing range page with
  | zero => simp [Tree.entries, pages]
  | succ level ih =>
    obtain ⟨separators, pointers, node, -, chain⟩ := h
    rw [Tree.entries, pages, List.flatMap_cons, List.flatMap_assoc, node]
    refine List.flatMap_congr fun child mem => ?_
    obtain ⟨r, sound⟩ := chain.exists_range mem
    exact ih sound

/-- A piece of the chain below an inner node makes way for another, the other children stay. -/
theorem regraft {left middle middle' right : List K} {before children children' after : List PageId}
    (chain : Chain (Sound capacities nodes level) range (left ++ middle ++ right)
      (before ++ children ++ after))
    (place : before.length = left.length) (size : children.length = middle.length + 1)
    (same : ∀ c ∈ before ++ after, ∀ p ∈ pages nodes level c, nodes' p = nodes p)
    (node : nodes' page = .inner (level + 1) (left ++ middle' ++ right)
      (before ++ children' ++ after))
    (piece : Chain (Sound capacities nodes' level) (range.between left right) middle' children') :
    Chain (Sound capacities nodes' level) range (left ++ middle' ++ right)
        (before ++ children' ++ after) ∧
      Tree.entries nodes' (level + 1) page =
        before.flatMap (Tree.entries nodes level) ++ children'.flatMap
          (Tree.entries nodes' level) ++
          after.flatMap (Tree.entries nodes level) ∧
      (pages nodes' (level + 1) page).Perm (children'.flatMap (pages nodes' level) ++
        page :: (before ++ after).flatMap (pages nodes level)) := by
  have unchanged (list : List PageId) (among : ∀ c ∈ list, c ∈ before ++ after) :
      list.flatMap (Tree.entries nodes' level) = list.flatMap (Tree.entries nodes level) :=
    List.flatMap_congr fun c mem => entries_congr (same c (among c mem))
  have unchanged_pages : (before ++ after).flatMap (pages nodes' level) =
      (before ++ after).flatMap (pages nodes level) :=
    List.flatMap_congr fun c mem => pages_congr (same c mem)
  refine ⟨(chain.splice place size).2 (fun c mem r below => below.congr (same c mem)) piece, ?_, ?_⟩
  · rw [Tree.entries, node]
    simp only [Node.pointers, List.flatMap_append]
    rw [unchanged before fun c => List.mem_append_left _,
      unchanged after fun c => List.mem_append_right _]
  · rw [← unchanged_pages]
    exact pages_perm level node

end Sound

end PagedIndex.Tree
