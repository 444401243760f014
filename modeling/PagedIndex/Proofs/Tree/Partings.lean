import PagedIndex.Proofs.Node.Occupancy
import PagedIndex.Proofs.Tree.Numbering

/-!
# What splits make of a tree

A split cuts a full node in two with the help of a page that the tree never had, and puts the
separator into the node's parent or into a new root. `Tree.Splits` tells which nodes were split one
after another and what anchor and pages that made. Nothing is asked of the keys: the pages that
pointers lead to remain among those the tree had and those the splits have added, each of them keeps
its level, and none has more entries than fit.
-/

namespace PagedIndex

/-- A node that was split, its new sibling, and the node that took the separator. -/
structure Parting where
  node : PageId
  sibling : PageId
  parent : PageId

namespace Parting

def pages (parting : Parting) : List PageId := [parting.node, parting.sibling, parting.parent]

/-- The pages since the split. -/
def carry {K : Type} (parting : Parting) (content : PageId → Page) (halves : Halves K pageSize)
    (above : Page) : PageId → Page :=
  Function.update (Function.update (Function.update content parting.sibling halves.right)
    parting.node halves.left) parting.parent above

variable {K : Type} {parting : Parting} {content : PageId → Page} {halves : Halves K pageSize}
  {above : Page} {page : PageId}

theorem carry_of_not_mem (outside : page ∉ parting.pages) :
    parting.carry content halves above page = content page := by
  simp only [pages, List.mem_cons, List.not_mem_nil, or_false, not_or] at outside
  obtain ⟨apart, apart', apart''⟩ := outside
  rw [carry, Function.update_of_ne apart'', Function.update_of_ne apart,
    Function.update_of_ne apart']

@[simp] theorem carry_parent : parting.carry content halves above parting.parent = above :=
  Function.update_self ..

theorem carry_node (apart : parting.parent ≠ parting.node) :
    parting.carry content halves above parting.node = halves.left := by
  rw [carry, Function.update_of_ne apart.symm, Function.update_self]

theorem carry_sibling (apart : parting.parent ≠ parting.sibling)
    (apart' : parting.node ≠ parting.sibling) :
    parting.carry content halves above parting.sibling = halves.right := by
  rw [carry, Function.update_of_ne apart.symm, Function.update_of_ne apart'.symm,
    Function.update_self]

theorem carry_cases (right : PageId → Page → Prop) (at_parent : right parting.parent above)
    (at_node : right parting.node halves.left) (at_sibling : right parting.sibling halves.right)
    (elsewhere : page ≠ parting.node → page ≠ parting.sibling → page ≠ parting.parent →
      right page (content page)) : right page (parting.carry content halves above page) := by
  unfold carry
  by_cases is_parent : page = parting.parent
  · subst is_parent
    rwa [Function.update_self]
  rw [Function.update_of_ne is_parent]
  by_cases is_node : page = parting.node
  · subst is_node
    rwa [Function.update_self]
  rw [Function.update_of_ne is_node]
  by_cases is_sibling : page = parting.sibling
  · subst is_sibling
    rwa [Function.update_self]
  rw [Function.update_of_ne is_sibling]
  exact elsewhere is_node is_sibling is_parent

theorem carry_congr {content' : PageId → Page} (same : ∀ page, page ≠ parting.sibling →
    page ≠ parting.parent → content' page = content page) :
    parting.carry content' halves above = parting.carry content halves above := by
  funext page
  simp only [carry, Function.update_apply]
  split_ifs with is_parent is_node is_sibling
  · rfl
  · rfl
  · rfl
  · exact same page is_sibling is_parent

end Parting

/-- The pages that a tree had, and those that splits have added. -/
def Gained (own : PageId → Prop) (partings : List Parting) (page : PageId) : Prop :=
  own page ∨ ∃ parting ∈ partings, page = parting.sibling ∨ page = parting.parent

@[simp] theorem gained_nil (own : PageId → Prop) : Gained own [] = own := by
  funext page
  simp [Gained]

theorem gained_concat (own : PageId → Prop) (partings : List Parting) (parting : Parting) :
    Gained own (partings ++ [parting]) =
      fun page => Gained own partings page ∨ page = parting.sibling ∨ page = parting.parent := by
  funext page
  simp [Gained, or_and_right, exists_or, or_assoc]

namespace Tree

variable {K V : Type} [IndexKey K] [FixedWidth V] {tree : Tree K V} {own : PageId → Prop}
  {content content' : PageId → Page} {anchor anchor' : Anchor} {partings : List Parting}
  {parting : Parting} {halves : Halves K pageSize} {above : Page} {n : Nat} {page : PageId}

/-- A full node is cut in two when so many page numbers have been handed out. -/
structure Parts (tree : Tree K V) (n : Nat) (content : PageId → Page) (parting : Parting)
    (halves : Halves K pageSize) : Prop where
  full : tree.capacities.Full (content parting.node)
  room : n ≤ maxPageNo
  sibling : parting.sibling = .ofParts tree.segment n
  halved : tree.halve (Header.of (content parting.node)).level (content parting.node)
    Page.zeroed = .ok halves

/-- The splits one after another, and the anchor and the pages they made of a tree that had the
pages `own`. The root is split first if it is split. -/
inductive Splits (tree : Tree K V) (own : PageId → Prop) (content : PageId → Page) :
    List Parting → Anchor → (PageId → Page) → Prop
  | none : Splits tree own content [] tree.anchor content
  | promoted {parting : Parting} {halves : Halves K pageSize} {above : Page}
      (parts : tree.Parts tree.anchor.nextPageNo content parting halves)
      (root : tree.anchor.root = some parting.node)
      (room : tree.anchor.nextPageNo + 1 ≤ maxPageNo)
      (parent : parting.parent = .ofParts tree.segment (tree.anchor.nextPageNo + 1))
      (formatted : (tree.inner.format ((Header.of (content parting.node)).level + 1) parting.node
        halves.separator parting.sibling).run Page.zeroed = .ok ((), above)) :
      Splits tree own content [parting] ⟨some parting.parent, tree.anchor.nextPageNo + 2⟩
        (parting.carry content halves above)
  | hooked {partings : List Parting} {anchor : Anchor} {content' : PageId → Page}
      {parting : Parting} {halves : Halves K pageSize} {added : Bool} {above : Page}
      (before : Splits tree own content partings anchor content')
      (parts : tree.Parts anchor.nextPageNo content' parting halves)
      (known : Gained own partings parting.parent)
      (inner : (Header.of (content' parting.parent)).level ≠ 0)
      (child : parting.node ∈ tree.inner.pointers (content' parting.parent))
      (inserted : (tree.inner.insert halves.separator parting.sibling).run
        (content' parting.parent) = .ok (added, above)) :
      Splits tree own content (partings ++ [parting])
        { anchor with nextPageNo := anchor.nextPageNo + 1 } (parting.carry content' halves above)

theorem Splits.same (splits : tree.Splits own content partings anchor content')
    (outside : ∀ parting ∈ partings, page ∉ parting.pages) : content' page = content page := by
  induction splits with
  | none => rfl
  | promoted => exact Parting.carry_of_not_mem (outside _ List.mem_cons_self)
  | hooked before parts known inner child inserted ih =>
    rw [Parting.carry_of_not_mem (outside _ List.mem_concat_self)]
    exact ih fun parting mem => outside parting (List.mem_append_left _ mem)

theorem Splits.taken (splits : tree.Splits own content partings anchor content') :
    tree.anchor.nextPageNo ≤ anchor.nextPageNo := by
  induction splits with
  | none => exact Nat.le_refl _
  | promoted => exact Nat.le_add_right _ 2
  | hooked before parts known inner child inserted ih => exact Nat.le_succ_of_le ih

theorem Splits.of_nil (splits : tree.Splits own content [] anchor content') :
    anchor = tree.anchor ∧ content' = content := by
  generalize none : ([] : List Parting) = partings at splits
  cases splits with
  | none => exact ⟨rfl, rfl⟩
  | promoted => cases none
  | hooked => exact absurd none.symm (List.concat_ne_nil _ _)

theorem Splits.nil_iff (splits : tree.Splits own content partings anchor content') :
    partings = [] ↔ anchor = tree.anchor := by
  constructor
  · rintro rfl
    exact splits.of_nil.1
  · intro same
    have count := congrArg Anchor.nextPageNo same
    cases splits with
    | none => rfl
    | promoted => exact absurd count (Nat.ne_of_gt (Nat.lt_add_of_pos_right Nat.two_pos))
    | hooked before => exact absurd count (Nat.ne_of_gt (Nat.lt_succ_of_le before.taken))

theorem Splits.new_of_gained (splits : tree.Splits own content partings anchor content')
    (gained : Gained own partings page) :
    own page ∨ ¬ Minted tree.segment tree.anchor.nextPageNo page := by
  induction splits with
  | none => exact .inl (gained_nil own ▸ gained)
  | @promoted parting halves above parts root room parent formatted =>
    rw [← List.nil_append [parting], gained_concat, gained_nil] at gained
    rcases gained with mem | rfl | rfl
    · exact .inl mem
    · rw [parts.sibling]
      exact .inr (minted_next tree.segment parts.room).1
    · rw [parent]
      exact .inr fun old => (minted_next tree.segment room).1 (old.mono (Nat.le_succ _))
  | @hooked partings anchor content' parting halves added above before parts known inner child
      inserted ih =>
    rw [gained_concat] at gained
    rcases gained with earlier | rfl | rfl
    · exact ih earlier
    · rw [parts.sibling]
      exact .inr fun old => (minted_next tree.segment parts.room).1 (old.mono before.taken)
    · exact ih known

/-- The pages of an anchor are among these: pointers lead from one to another of them, they were
handed out, and none has more entries than fit. -/
structure Tidy (tree : Tree K V) (own : PageId → Prop) (anchor : Anchor)
    (content : PageId → Page) : Prop where
  root : ∀ root, anchor.root = some root → own root
  minted : ∀ page, own page → Minted tree.segment anchor.nextPageNo page
  linked : ∀ page, own page → tree.capacities.Linked K own (content page)
  stocked : ∀ page, own page → tree.capacities.Stocked (content page)

namespace Tidy

omit [FixedWidth V] in
theorem congr (h : tree.Tidy own anchor content)
    (same : ∀ page, own page → content' page = content page) : tree.Tidy own anchor content' :=
  ⟨h.root, h.minted, fun page mem => by rw [same page mem]; exact h.linked page mem,
    fun page mem => by rw [same page mem]; exact h.stocked page mem⟩

omit [FixedWidth V] in
theorem child_mem {node child : PageId} (h : tree.Tidy own anchor content) (mem : own node)
    (inner : (Header.of (content node)).level ≠ 0)
    (among : child ∈ tree.inner.pointers (content node)) : own child :=
  (h.linked node mem inner).2.2 child among

theorem owns (h : tree.Tidy own tree.anchor content) (owned : tree.Owns content page) :
    own page :=
  own_of_owns h.root h.linked owned

theorem of_bare (bare : tree.anchor.root = none) :
    tree.Tidy (tree.Owns content) tree.anchor content := by
  have unowned {page : PageId} (owned : tree.Owns content page) : False := by
    obtain ⟨root, anchored, -⟩ := owned
    cases bare.symm.trans anchored
  exact ⟨fun root anchored => ⟨root, anchored, .here⟩, fun _ owned => (unowned owned).elim,
    fun _ owned => (unowned owned).elim, fun _ owned => (unowned owned).elim⟩

theorem owned (h : tree.Tidy own tree.anchor content) :
    tree.Tidy (tree.Owns content) tree.anchor content := by
  refine ⟨fun root anchored => ⟨root, anchored, .here⟩, fun page mem => h.minted page (h.owns mem),
    fun page mem inner => ?_, fun page mem => h.stocked page (h.owns mem)⟩
  obtain ⟨some, within, -⟩ := h.linked page (h.owns mem) inner
  refine ⟨some, within, fun child among => ?_⟩
  obtain ⟨root, anchored, reaches⟩ := mem
  refine ⟨root, anchored, .down reaches ?_⟩
  rw [nodes, Node.of, if_neg inner]
  exact among

omit [FixedWidth V] in
theorem write {bytes : Page} (h : tree.Tidy own anchor content)
    (linked : tree.capacities.Linked K own bytes) (stocked : tree.capacities.Stocked bytes)
    (page : PageId) : tree.Tidy own anchor (Function.update content page bytes) := by
  refine ⟨h.root, h.minted, fun other mem => ?_, fun other mem => ?_⟩
  · obtain rfl | apart := eq_or_ne other page
    · rwa [Function.update_self]
    · rw [Function.update_of_ne apart]
      exact h.linked other mem
  · obtain rfl | apart := eq_or_ne other page
    · rwa [Function.update_self]
    · rw [Function.update_of_ne apart]
      exact h.stocked other mem

end Tidy

section Halves

variable (suitable : tree.capacities.Suitable K V)

include suitable

theorem halve_vacant {bytes target : Page} (linked : tree.capacities.Linked K own bytes)
    (stocked : tree.capacities.Stocked bytes)
    (halved : tree.halve (Header.of bytes).level bytes target = .ok halves) :
    (¬ tree.capacities.Full halves.left ∧ ¬ tree.capacities.Full halves.right) ∧
      (Header.of halves.left).level = (Header.of bytes).level ∧
      (Header.of halves.right).level = (Header.of bytes).level := by
  unfold halve at halved
  split at halved
  · rename_i leaf
    obtain ⟨left, right⟩ := LeafLayout.split_level suitable.leaf.header halved
    exact ⟨stocked.split_leaf suitable leaf halved, left, right.trans leaf.symm⟩
  · rename_i inner
    exact linked.split_vacant suitable inner halved

/-- What one split preserves, whatever becomes of the root. -/
theorem Tidy.parted (h : tree.Tidy own anchor content) (node : own parting.node)
    (parts : tree.Parts anchor.nextPageNo content parting halves)
    (root : ∀ root, anchor'.root = some root → own root ∨ root = parting.parent)
    (taken : anchor.nextPageNo < anchor'.nextPageNo)
    (parent : Minted tree.segment anchor'.nextPageNo parting.parent)
    (linked : tree.capacities.Linked K
      (fun page => own page ∨ page = parting.sibling ∨ page = parting.parent) above)
    (stocked : tree.capacities.Stocked above) :
    tree.Tidy (fun page => own page ∨ page = parting.sibling ∨ page = parting.parent) anchor'
      (parting.carry content halves above) := by
  have fits := h.linked parting.node node
  obtain ⟨left, right⟩ := halve_linked suitable fits parts.halved
  obtain ⟨⟨left_room, right_room⟩, -⟩ :=
    halve_vacant suitable fits (h.stocked parting.node node) parts.halved
  refine ⟨fun page anchored => (root page anchored).imp id .inr, ?_, fun page mem => ?_,
    fun page mem => ?_⟩
  · rintro page (mem | rfl | rfl)
    · exact (h.minted page mem).mono (Nat.le_of_lt taken)
    · rw [parts.sibling]
      exact (minted_next tree.segment parts.room).2.mono taken
    · exact parent
  · refine Parting.carry_cases (fun _ => tree.capacities.Linked K _) linked
      (left.mono fun _ => .inl) (right.mono fun _ => .inl) fun _ new old => ?_
    exact (h.linked page (mem.resolve_right (not_or.mpr ⟨new, old⟩))).mono fun _ => .inl
  · refine Parting.carry_cases (fun _ => tree.capacities.Stocked) stocked
      (Capacities.stocked_of_vacant left_room) (Capacities.stocked_of_vacant right_room)
      fun _ new old => ?_
    exact h.stocked page (mem.resolve_right (not_or.mpr ⟨new, old⟩))

theorem Splits.tidy (splits : tree.Splits own content partings anchor content')
    (h : tree.Tidy own tree.anchor content) :
    tree.Tidy (Gained own partings) anchor content' := by
  induction splits with
  | none =>
    rw [gained_nil]
    exact h
  | @promoted parting halves above parts root room parent formatted =>
    rw [← List.nil_append [parting], gained_concat, gained_nil]
    refine h.parted suitable (h.root _ root) parts ?_ (Nat.lt_add_of_pos_right (by decide)) ?_ ?_ ?_
    · rintro _ ⟨⟩
      exact .inr rfl
    · rw [parent]
      exact (minted_next tree.segment room).2
    · exact Capacities.Linked.format suitable (.inl (h.root _ root)) (.inr (.inl rfl)) formatted
    · exact Capacities.stocked_of_format suitable formatted
  | @hooked partings anchor content' parting halves added above before parts known inner child
      inserted ih =>
    have linked := ih.linked _ known
    have kept := (InnerLayout.insert_keeps_level _ _ _).of_run inserted
    rw [gained_concat]
    refine ih.parted suitable (ih.child_mem known inner child) parts ?_ (Nat.lt_succ_self _) ?_ ?_ ?_
    · exact fun root anchored => .inl (ih.root root anchored)
    · exact (ih.minted _ known).mono (Nat.le_succ _)
    · exact (linked.mono fun _ => .inl).insert suitable (.inr (.inl rfl)) inserted
    · exact Capacities.stocked_of_inner (kept.trans_ne inner)

theorem Tidy.parted_level (h : tree.Tidy own anchor content) (node : own parting.node)
    (parts : tree.Parts anchor.nextPageNo content parting halves)
    (parent : own parting.parent →
      (Header.of above).level = (Header.of (content parting.parent)).level) (mem : own page) :
    (Header.of (parting.carry content halves above page)).level =
      (Header.of (content page)).level := by
  obtain ⟨-, left, -⟩ :=
    halve_vacant suitable (h.linked _ node) (h.stocked _ node) parts.halved
  refine Parting.carry_cases (fun page bytes => own page →
    (Header.of bytes).level = (Header.of (content page)).level) parent (fun _ => left)
    (fun new => ?_) (fun _ _ _ _ => rfl) mem
  rw [parts.sibling] at new
  exact absurd (h.minted _ new) (minted_next tree.segment parts.room).1

theorem Tidy.hooked_level {added : Bool} (h : tree.Tidy own anchor content)
    (parts : tree.Parts anchor.nextPageNo content parting halves) (known : own parting.parent)
    (inner : (Header.of (content parting.parent)).level ≠ 0)
    (child : parting.node ∈ tree.inner.pointers (content parting.parent))
    (inserted : (tree.inner.insert halves.separator parting.sibling).run
      (content parting.parent) = .ok (added, above)) (mem : own page) :
    (Header.of (parting.carry content halves above page)).level =
      (Header.of (content page)).level :=
  h.parted_level suitable (h.child_mem known inner child) parts
    (fun _ => (InnerLayout.insert_keeps_level _ _ _).of_run inserted) mem

theorem Splits.same_level (splits : tree.Splits own content partings anchor content')
    (h : tree.Tidy own tree.anchor content) (mem : own page) :
    (Header.of (content' page)).level = (Header.of (content page)).level := by
  induction splits with
  | none => rfl
  | @promoted parting halves above parts root room parent formatted =>
    refine h.parted_level suitable (h.root _ root) parts (fun old => ?_) mem
    rw [parent] at old
    exact absurd ((h.minted _ old).mono (Nat.le_succ _)) (minted_next tree.segment room).1
  | @hooked partings anchor content' parting halves added above before parts known inner child
      inserted ih =>
    exact ((before.tidy suitable h).hooked_level suitable parts known inner child inserted
      (.inl mem)).trans ih

/-- A new root is one level above the root that was split. -/
theorem Splits.root_level (splits : tree.Splits own content partings anchor content')
    (h : tree.Tidy own tree.anchor content) :
    anchor.root = tree.anchor.root ∨ ∃ old new, tree.anchor.root = some old ∧
      anchor.root = some new ∧
      (Header.of (content' new)).level = (Header.of (content old)).level + 1 := by
  induction splits with
  | none => exact .inl rfl
  | @promoted parting halves above parts root room parent formatted =>
    have two : 2 ≤ tree.capacities.inner := Nat.le_of_succ_le suitable.inner_least
    obtain ⟨-, -, level⟩ := Edit.of_run ((InnerLayout.format_ends suitable.inner Page.zeroed _ _ _ _
      two).imp (fun _ _ h => h) fun _ _ _ => trivial) formatted
    refine .inr ⟨_, _, root, rfl, ?_⟩
    rw [Parting.carry, Function.update_self, level]
  | @hooked partings anchor content' parting halves added above before parts known inner child
      inserted ih =>
    refine ih.imp id ?_
    rintro ⟨old, new, anchored, above_it, level⟩
    have tidy := before.tidy suitable h
    exact ⟨old, new, anchored, above_it, (tidy.hooked_level suitable parts known inner child
      inserted (tidy.root new above_it)).trans level⟩

end Halves

end Tree

end PagedIndex
