import PagedIndex.Proofs.Node.Routing
import PagedIndex.Proofs.Tree.Parents

/-!
# Where the keys of a leaf go

An erasure that takes a leaf out of the node above it hands the keys that led to the leaf to the
page on its left, or to that on its right if it was the first. Every other key leads where it did.
-/

namespace PagedIndex.Tree

open Access

variable {K V : Type} [IndexKey K] [FixedWidth V] {tree : Tree K V}
  {content content' : PageId → Page} {level i : Nat} {key : K} {above : Option PageId}
  {root parent leaf neighbour page : PageId} {trail : Trail}

/-- The node above a leaf has lost it, and routes the leaf's keys to the neighbour. Besides the two
nothing has changed. -/
structure HandsOver (tree : Tree K V) (content content' : PageId → Page)
    (parent leaf neighbour : PageId) (i : Nat) : Prop where
  owned : tree.Owns content parent
  level : (Header.of (content leaf)).level = 0
  place : (tree.nodes content parent).pointers[i]? = some leaf
  beside : (tree.nodes content parent).pointers[if i = 0 then 1 else i - 1]? = some neighbour
  rest : (tree.nodes content' parent).pointers = (tree.nodes content parent).pointers.eraseIdx i
  routes : ∀ key child, tree.inner.childFor (content parent) key = .ok child →
    tree.inner.childFor (content' parent) key = .ok (if child = leaf then neighbour else child)
  others : ∀ page, page ≠ parent → page ≠ leaf → content' page = content page
  levels : ∀ page, (Header.of (content' page)).level = (Header.of (content page)).level

theorem Cleared.same_level (h : tree.Cleared content key above leaf trail) (page : PageId) :
    (Header.of (trail.content page)).level = (Header.of (content page)).level := by
  by_cases here : page = leaf
  · subst here
    obtain ⟨removed, ran⟩ := h.removed
    exact (LeafLayout.erase_keeps_level _ _).of_run ran
  by_cases unlinks : Unlinks content above (trail.content leaf) page
  · obtain ⟨removed, ran⟩ := h.unlinked page unlinks
    exact (InnerLayout.removeChildFor_keeps_level _ _).of_run ran
  · rw [h.same page here unlinks]

section Trees

variable (suitable : tree.capacities.Suitable K V)
  (well_formed : tree.WellFormed content level root) (anchored : tree.anchor.root = some root)
  (tidy : tree.Tidy (tree.Owns content) tree.anchor content)

include suitable well_formed anchored tidy

/-- An erasure that takes a leaf out of the node above it hands its keys over. -/
theorem Cleared.hands_over (cleared : tree.Cleared content key above leaf trail)
    (leads : tree.Leads content key above leaf)
    (unlinks : Unlinks content above (trail.content leaf) parent) :
    ∃ i neighbour, tree.HandsOver content trail.content parent leaf neighbour i := by
  have only (page : PageId) (there : Unlinks content above (trail.content leaf) page) :
      page = parent := Option.some.inj (there.1.symm.trans unlinks.1)
  obtain ⟨removed, ran'⟩ := cleared.unlinked parent unlinks
  have kept := cleared.same_level
  have others (page : PageId) (apart : page ≠ parent) (apart' : page ≠ leaf) :
      trail.content page = content page :=
    cleared.same page apart' fun there => apart (only page there)
  obtain ⟨rfl, -, many⟩ := unlinks
  obtain ⟨root', anchored', leads⟩ := leads
  obtain ⟨leaf_level, -, ⟨none, -⟩ | ⟨_, ⟨⟩, owned, inner, routed⟩⟩ :=
    leads.last_step suitable tidy ⟨root', anchored', .here⟩
  · cases none
  obtain ⟨separators, holds⟩ := well_formed.holds anchored suitable owned inner
  have more : 2 ≤ (tree.nodes content parent).pointers.length := by
    rw [← (holds.listed suitable.inner).2, InnerLayout.length_pointers]
    exact many
  obtain ⟨i, after, child, neighbour, read, place, beside, ran, becomes, routes⟩ :=
    holds.hands_over suitable.inner (well_formed.children_nodup anchored owned) more key
  cases read.symm.trans routed
  cases ran.symm.trans ran'
  refine ⟨i, neighbour, owned, leaf_level, place, beside, ?_, routes, others, kept⟩
  rw [nodes, Node.pointers_of, if_neg ((kept parent).trans_ne inner)]
  exact (becomes.holds.listed suitable.inner).2

variable (hands : tree.HandsOver content content' parent leaf neighbour i)

include hands

omit suitable tidy in
theorem HandsOver.mem_of_mem {child : PageId} (owned : tree.Owns content page)
    (mem : child ∈ (tree.nodes content' page).pointers) :
    child ∈ (tree.nodes content page).pointers ∧ child ≠ leaf := by
  by_cases here : page = parent
  · subst here
    rw [hands.rest] at mem
    refine ⟨List.mem_of_mem_eraseIdx mem, ?_⟩
    rintro rfl
    obtain ⟨j, apart, stored⟩ := List.mem_eraseIdx_iff_getElem?.mp mem
    obtain ⟨inside, -⟩ := List.getElem?_eq_some_iff.mp stored
    exact apart ((List.getElem?_inj inside (well_formed.children_nodup anchored owned)).mp
      (stored.trans hands.place.symm))
  have not_leaf : page ≠ leaf := by
    rintro rfl
    exact absurd ((hands.levels page).trans hands.level) (Node.mem_pointers_iff.mp mem).1
  rw [nodes, hands.others page here not_leaf] at mem
  refine ⟨mem, ?_⟩
  rintro rfl
  exact here (well_formed.one_parent anchored owned hands.owned mem
    (List.mem_of_getElem? hands.place))

omit suitable tidy in
theorem HandsOver.not_owned (tidy' : tree.Tidy (tree.Owns content) tree.anchor content') :
    ¬ tree.Owns content' leaf := by
  rintro ⟨root', anchored', reaches⟩
  cases anchored.symm.trans anchored'
  cases reaches with
  | here =>
    exact well_formed.root_not_child anchored hands.owned (List.mem_of_getElem? hands.place)
  | down reached mem =>
    have owned := tidy'.owns ⟨root, anchored, reached⟩
    exact (hands.mem_of_mem well_formed anchored owned mem).2 rfl

theorem HandsOver.routed {child : PageId} (owned' : tree.Owns content page)
    (inner : (Header.of (content page)).level ≠ 0)
    (routed : tree.inner.childFor (content page) key = .ok child) :
    tree.inner.childFor (content' page) key = .ok (if child = leaf then neighbour else child) := by
  by_cases here : page = parent
  · subst here
    exact hands.routes key child routed
  have not_leaf : page ≠ leaf := by
    rintro rfl
    exact inner hands.level
  obtain ⟨some, within, -⟩ := tidy.linked page owned' inner
  have mem := InnerLayout.childFor_mem suitable.inner within some routed
  have elsewhere : child ≠ leaf := by
    rintro rfl
    exact here (well_formed.one_parent anchored owned' hands.owned
      (Node.mem_pointers_iff.mpr ⟨inner, mem⟩) (List.mem_of_getElem? hands.place))
  rw [if_neg elsewhere, hands.others page here not_leaf, routed]

omit suitable tidy in
theorem HandsOver.leaf_level (zero : (Header.of (content page)).level = 0) :
    (Header.of (content' (if page = leaf then neighbour else page))).level = 0 := by
  rw [hands.levels]
  split
  · obtain ⟨level', range, sound⟩ := well_formed.sound_at anchored hands.owned
    obtain ⟨listed', node⟩ := sound.children_leaves (List.mem_of_getElem? hands.place)
      (List.mem_of_getElem? hands.beside) (Node.of_eq_leaf_iff.mpr ⟨hands.level, rfl⟩)
    exact (Node.of_eq_leaf_iff.mp node).1
  · exact zero

/-- A descent goes as it did, but where it came to the leaf it comes to the neighbour. -/
theorem HandsOver.leadsTo {above' : Option PageId} {leaf' : PageId}
    (owned' : tree.Owns content page) (leads : tree.LeadsTo content key above page above' leaf') :
    tree.LeadsTo content' key above (if page = leaf then neighbour else page) above'
      (if leaf' = leaf then neighbour else leaf') := by
  induction leads with
  | here zero =>
    exact .here (hands.leaf_level well_formed anchored zero)
  | @down above above' page child leaf' inner routed rest ih =>
    have not_leaf : page ≠ leaf := by
      rintro rfl
      exact inner hands.level
    have routed' := hands.routed suitable well_formed anchored tidy owned' inner routed
    rw [if_neg not_leaf]
    refine .down ((hands.levels page).trans_ne inner) routed' (ih ?_)
    exact (tidy.linked page owned').childFor_own suitable inner routed

theorem HandsOver.leads {leaf' : PageId} (leads : tree.Leads content key above leaf') :
    tree.Leads content' key above (if leaf' = leaf then neighbour else leaf') := by
  have not_root : root ≠ leaf := by
    rintro rfl
    exact well_formed.root_not_child anchored hands.owned (List.mem_of_getElem? hands.place)
  obtain ⟨root', anchored', leads⟩ := leads
  cases anchored.symm.trans anchored'
  have moved := hands.leadsTo suitable well_formed anchored tidy ⟨root, anchored, .here⟩ leads
  rw [if_neg not_root] at moved
  exact ⟨root, anchored, moved⟩

end Trees

end PagedIndex.Tree
