import Mathlib.Data.List.Pairwise
import PagedIndex.Proofs.Node.SortedSeparators
import PagedIndex.Proofs.Tree.Effects
import PagedIndex.Proofs.Tree.Heights

/-!
# Parents

In a tree whose pages are all different, child pointers lead to each page but the root from one
node, and from that once. So a leaf has one parent, the pages beside it are leaves as well, and the
key of a descent that ends in it is routed to it there.
-/

namespace PagedIndex

namespace Tree

section Shapes

variable {K V : Type} [IndexKey K] {capacities : Capacities} {nodes : Nodes K V} {level : Nat}
  {range : Range K} {page : PageId}

theorem Sound.pages_perm_children (h : Sound capacities nodes level range page) :
    (pages nodes level page).Perm
      (page :: (pages nodes level page).flatMap fun p => (nodes p).pointers) := by
  induction level generalizing range page with
  | zero =>
    obtain ⟨listed, node, -⟩ := h
    simp [pages, node, Node.pointers]
  | succ level ih =>
    obtain ⟨separators, pointers, node, -, chain⟩ := h
    have below (child : PageId) (mem : child ∈ pointers) : (pages nodes level child).Perm
        ([child] ++ (pages nodes level child).flatMap fun p => (nodes p).pointers) := by
      obtain ⟨range', sound⟩ := chain.exists_range mem
      exact ih sound
    -- Each child comes before what is below it, so the children can be taken out first.
    have parted := (List.Perm.flatMap_left pointers below).trans
      (List.flatMap_append_perm pointers (fun child => [child]) _).symm
    rw [List.flatMap_singleton', ← List.flatMap_assoc] at parted
    rw [pages, node]
    refine .cons page ?_
    rw [List.flatMap_cons, node]
    exact parted

theorem Sound.children_leaves {child other : PageId} {listed : List (K × V)}
    (h : Sound capacities nodes level range page) (mem : child ∈ (nodes page).pointers)
    (mem' : other ∈ (nodes page).pointers) (leaf : nodes child = .leaf listed) :
    ∃ listed', nodes other = .leaf listed' := by
  cases level with
  | zero =>
    obtain ⟨own, node, -⟩ := h
    rw [node] at mem
    exact absurd mem List.not_mem_nil
  | succ level =>
    obtain ⟨separators, pointers, node, -, chain⟩ := h
    rw [node] at mem mem'
    obtain ⟨range₁, sound₁⟩ := chain.exists_range mem
    obtain ⟨range₂, sound₂⟩ := chain.exists_range mem'
    cases level with
    | zero =>
      obtain ⟨listed', node', -⟩ := sound₂
      exact ⟨listed', node'⟩
    | succ level =>
      obtain ⟨_, _, inner, -⟩ := sound₁
      cases leaf.symm.trans inner

end Shapes

variable {K V : Type} [IndexKey K] [FixedWidth V] {tree : Tree K V} {content : PageId → Page}
  {level : Nat} {root parent parent' child : PageId}

namespace WellFormed

variable (h : tree.WellFormed content level root)

include h

theorem mem_pages (anchored : tree.anchor.root = some root) {page : PageId}
    (owned : tree.Owns content page) : page ∈ pages (tree.nodes content) level root := by
  obtain ⟨root', anchored', reaches⟩ := owned
  cases anchored.symm.trans anchored'
  exact h.sound.mem_pages_of_reaches reaches

theorem sound_at (anchored : tree.anchor.root = some root) {page : PageId}
    (owned : tree.Owns content page) :
    ∃ level' range, Sound tree.capacities (tree.nodes content) level' range page := by
  obtain ⟨root', anchored', reaches⟩ := owned
  cases anchored.symm.trans anchored'
  obtain ⟨level', range, sound, -⟩ := h.sound.of_reaches reaches
  exact ⟨level', range, sound⟩

theorem children_distinct : ((pages (tree.nodes content) level root).flatMap
    fun p => (tree.nodes content p).pointers).Nodup ∧
      root ∉ (pages (tree.nodes content) level root).flatMap
        fun p => (tree.nodes content p).pointers :=
  (List.nodup_cons.mp (h.sound.pages_perm_children.nodup_iff.mp h.nodup)).symm

variable (anchored : tree.anchor.root = some root)

include anchored

theorem root_not_child (owned : tree.Owns content parent) :
    root ∉ (tree.nodes content parent).pointers := fun mem =>
  h.children_distinct.2 (List.mem_flatMap.mpr ⟨parent, h.mem_pages anchored owned, mem⟩)

theorem children_nodup (owned : tree.Owns content parent) :
    (tree.nodes content parent).pointers.Nodup :=
  (List.nodup_flatMap.mp h.children_distinct.1).1 parent (h.mem_pages anchored owned)

theorem only_child (owned : tree.Owns content parent)
    (mem : child ∈ (tree.nodes content parent).pointers)
    (only : ∀ other ∈ (tree.nodes content parent).pointers, other = child) :
    (tree.nodes content parent).pointers = [child] := by
  refine List.perm_singleton.mp ((List.perm_ext_iff_of_nodup
    (h.children_nodup anchored owned) (List.nodup_singleton child)).mpr fun other => ?_)
  rw [List.mem_singleton]
  exact ⟨only other, fun same => same ▸ mem⟩

theorem one_parent (owned : tree.Owns content parent) (owned' : tree.Owns content parent')
    (mem : child ∈ (tree.nodes content parent).pointers)
    (mem' : child ∈ (tree.nodes content parent').pointers) : parent = parent' := by
  have symmetric : Std.Symm
      (Function.onFun List.Disjoint fun p => (tree.nodes content p).pointers) :=
    ⟨fun _ _ => List.disjoint_symm⟩
  by_contra apart
  have disjoint := (List.nodup_flatMap.mp h.children_distinct.1).2.forall
    (h.mem_pages anchored owned) (h.mem_pages anchored owned') apart
  exact disjoint mem mem'

variable (suitable : tree.capacities.Suitable K V)

include suitable

theorem holds (owned : tree.Owns content parent)
    (inner : (Header.of (content parent)).level ≠ 0) : ∃ separators,
      tree.inner.Holds (content parent) separators (tree.nodes content parent).pointers := by
  obtain ⟨level', range, sound⟩ := h.sound_at anchored owned
  cases level' with
  | zero =>
    obtain ⟨listed, node, -⟩ := sound
    exact absurd (Node.of_eq_leaf_iff.mp node).1 inner
  | succ level' =>
    obtain ⟨separators, pointers, node, sound, chain⟩ := sound
    obtain ⟨-, -, read⟩ := Node.of_eq_inner_iff.mp node
    have some : pointers ≠ [] :=
      List.ne_nil_of_length_pos (chain.length_eq ▸ Nat.succ_pos separators.length)
    rw [node]
    exact ⟨separators, (InnerLayout.holds_iff suitable.inner).mpr
      ⟨read, some, sound.within, sound.ascending⟩⟩

theorem tidy (minted : ∀ page, tree.Owns content page →
      Minted tree.segment tree.anchor.nextPageNo page) :
    tree.Tidy (tree.Owns content) tree.anchor content := by
  refine ⟨fun root anchored => ⟨root, anchored, .here⟩, minted, fun page owned inner => ?_,
    fun page owned leaf => ?_⟩
  · obtain ⟨separators, holds⟩ := h.holds anchored suitable owned inner
    rw [(holds.listed suitable.inner).2]
    refine ⟨holds.nonempty, holds.within, fun child mem => ?_⟩
    obtain ⟨root', anchored', reaches⟩ := owned
    exact ⟨root', anchored', .down reaches mem⟩
  · obtain ⟨level', range, sound⟩ := h.sound_at anchored owned
    cases level' with
    | zero =>
      obtain ⟨listed, node, sound, -⟩ := sound
      rw [Node.count_of_leaf node]
      exact sound
    | succ level' =>
      obtain ⟨separators, pointers, node, -⟩ := sound
      exact absurd leaf (Node.of_eq_inner_iff.mp node).1

end WellFormed

/-- A key is routed to the leaf it leads to by the page above that, unless it started there. -/
theorem LeadsTo.last_step {own : PageId → Prop} {anchor : Anchor} {key : K}
    {above above' : Option PageId} {page leaf : PageId} (suitable : tree.capacities.Suitable K V)
    (tidy : tree.Tidy own anchor content) (mem : own page)
    (h : tree.LeadsTo content key above page above' leaf) :
    (Header.of (content leaf)).level = 0 ∧ own leaf ∧ ((above' = above ∧ leaf = page) ∨
      ∃ parent, above' = some parent ∧ own parent ∧ (Header.of (content parent)).level ≠ 0 ∧
        tree.inner.childFor (content parent) key = .ok leaf) := by
  induction h with
  | here level => exact ⟨level, mem, .inl ⟨rfl, rfl⟩⟩
  | @down above above' page child leaf inner routed rest ih =>
    obtain ⟨level, owned, ended⟩ := ih ((tidy.linked page mem).childFor_own suitable inner routed)
    refine ⟨level, owned, .inr ?_⟩
    rcases ended with ⟨rfl, rfl⟩ | further
    · exact ⟨page, rfl, mem, inner, routed⟩
    · exact further

end Tree

namespace Session

open PagedIndex.Tree

variable {K V : Type} [IndexKey K] [FixedWidth V] {session : Session K V}

theorem Invariant.well_formed (h : session.Invariant) {root : PageId}
    (anchored : session.tree.anchor.root = some root) :
    ∃ level, session.tree.WellFormed session.storage.content level root := by
  obtain ⟨level, -, held, rooted⟩ := h.stood anchored
  exact ⟨level, rooted.sound, rooted.nodup⟩

theorem Invariant.tidy (h : session.Invariant) : session.tree.Tidy
    (session.tree.Owns session.storage.content) session.tree.anchor session.storage.content := by
  cases anchored : session.tree.anchor.root with
  | none => exact .of_bare anchored
  | some root =>
    obtain ⟨level, well_formed⟩ := h.well_formed anchored
    exact well_formed.tidy anchored h.suitable fun _ => h.owned_minted

end Session

end PagedIndex
