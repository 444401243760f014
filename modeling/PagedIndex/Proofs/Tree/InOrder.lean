import PagedIndex.Proofs.Tree.Lookup

/-!
# Trees in order

The tree of an anchor is in order when it is sound, no page occurs twice in it and each of its pages
was handed out. Pages that were never handed out do not matter to it. `Tree.Change` lists all that
a call may do to a tree in order. A descent with exclusive guards on a node and its parent goes down
in such a tree and leaves it as it is.
-/

namespace PagedIndex.Tree

open KeyOrder Access

/-- The page has one of the numbers that were handed out in the segment. -/
def Minted (segment : SegmentId) (nextPageNo : Nat) (page : PageId) : Prop :=
  page.segment = segment ∧ page.pageNo < nextPageNo

theorem Minted.mono {segment : SegmentId} {n n' : Nat} {page : PageId} (h : Minted segment n page)
    (more : n ≤ n') : Minted segment n' page :=
  ⟨h.1, Nat.lt_of_lt_of_le h.2 more⟩

theorem lt_of_minted {segment : SegmentId} {n n' : Nat} {page : PageId}
    (fresh : ¬ Minted segment n page ∧ Minted segment n' page) : n < n' := by
  obtain ⟨new, same, before⟩ := fresh
  exact Nat.lt_of_le_of_lt (Nat.le_of_not_lt fun older => new ⟨same, older⟩) before

theorem minted_next (segment : SegmentId) {n : Nat} (room : n ≤ maxPageNo) :
    ¬ Minted segment n (.ofParts segment n) ∧ Minted segment (n + 1) (.ofParts segment n) := by
  have number : (PageId.ofParts segment n).pageNo = n := by
    rw [PageId.pageNo_ofParts]
    apply Nat.mod_eq_of_lt
    unfold maxPageNo at room
    rw [pageNoSpan_eq] at *
    omega
  exact ⟨fun h => absurd h.2 (by omega), PageId.segment_ofParts segment n, by omega⟩

theorem mint_ensures {ground : Ground} {failed : Error → Scene → Prop}
    {post : PageId → Scene → Prop} {scene : Scene} {segment : SegmentId}
    (own : ground.segment = segment)
    (refused : ∀ fault : StorageFault, failed (.storage fault) scene)
    (minted : ∀ page, scene.anchor.nextPageNo + 1 ≤ maxPageNo + 1 →
      ¬ Minted segment scene.anchor.nextPageNo page →
      Minted segment (scene.anchor.nextPageNo + 1) page →
      post page { scene with anchor.nextPageNo := scene.anchor.nextPageNo + 1 }) :
    Ensures ground failed mint post scene := by
  rw [Ensures.mint_iff]
  split
  · exact refused _
  · rename_i room
    rw [own]
    have room := Nat.le_of_not_lt room
    obtain ⟨new, handed_out⟩ := minted_next segment room
    exact minted _ (Nat.succ_le_succ room) new handed_out

variable {K V : Type} [IndexKey K] [FixedWidth V] {tree : Tree K V}

structure InOrder (tree : Tree K V) (anchor : Anchor) (content : PageId → Page)
    (held : List (K × V)) : Prop where
  counter : anchor.nextPageNo ≤ maxPageNo + 1
  bare : anchor.root = none → held = []
  rooted : ∀ root, anchor.root = some root → ∃ height,
    Rooted tree.capacities (tree.nodes content) (Minted tree.segment anchor.nextPageNo) held
      height root

theorem InOrder.grow {anchor anchor' : Anchor} {content content' : PageId → Page}
    {held : List (K × V)} (h : InOrder tree anchor content held) (root : anchor'.root = anchor.root)
    (more : anchor.nextPageNo ≤ anchor'.nextPageNo) (counter : anchor'.nextPageNo ≤ maxPageNo + 1)
    (same : ∀ p, Minted tree.segment anchor.nextPageNo p → content' p = content p) :
    InOrder tree anchor' content' held := by
  refine ⟨counter, fun bare => h.bare (root ▸ bare), fun page at_root => ?_⟩
  obtain ⟨height, rooted⟩ := h.rooted page (root ▸ at_root)
  refine ⟨height, rooted.congr (fun p mem => ?_) fun p minted => minted.mono more⟩
  rw [nodes, same p (rooted.minted p mem)]
  rfl

def Stood (tree : Tree K V) (anchor : Anchor) (content : PageId → Page) (height : Nat)
    (root : PageId) : Prop :=
  anchor.root = some root ∧ ∃ held, Rooted tree.capacities (tree.nodes content)
    (Minted tree.segment anchor.nextPageNo) held height root

/-- A full node of a tree was cut in two. Of the other nodes of the tree only the one above changed,
which may be new. -/
structure Cut (capacities : Capacities) (nodes nodes' : Nodes K V) (height : Nat) (root : PageId)
    (level : Nat) (page sibling above : PageId) (separator : K) : Prop where
  sound : ∃ range, Sound capacities nodes level range page
  full : ¬ (nodes page).Vacant capacities
  halved : Halved (nodes page) separator (nodes' page) (nodes' sibling)
  mem : page ∈ pages nodes height root
  fresh : sibling ∉ pages nodes height root
  apart : above ≠ page
  same : ∀ p ∈ pages nodes height root, p ≠ page → p ≠ above → nodes' p = nodes p

def leafSplits (level : Nat) : Nat := if level = 0 then 1 else 0

theorem leafSplits_le (level : Nat) : leafSplits level ≤ 1 := by
  unfold leafSplits
  split <;> omega

theorem leafSplits_of_pos {level : Nat} (above : 0 < level) : leafSplits level = 0 :=
  if_neg (Nat.ne_of_gt above)

/-- What a call may do to a tree in order at a time, and how many leaves it splits by it. -/
inductive Change (tree : Tree K V) :
    Nat → Anchor → (PageId → Page) → Anchor → (PageId → Page) → Prop
  | took {anchor anchor' : Anchor} {content content' : PageId → Page} {held : List (K × V)}
      (order : InOrder tree anchor content held) (root : anchor'.root = anchor.root)
      (more : anchor.nextPageNo ≤ anchor'.nextPageNo)
      (same : ∀ p, Minted tree.segment anchor.nextPageNo p → content' p = content p) :
      Change tree 0 anchor content anchor' content'
  | planted {anchor anchor' : Anchor} {content content' : PageId → Page} {root : PageId}
      {listed : List (K × V)} (bare : anchor.root = none)
      (after : tree.Stood anchor' content' 0 root)
      (more : anchor.nextPageNo < anchor'.nextPageNo)
      (node : tree.nodes content' root = .leaf listed) :
      Change tree 0 anchor content anchor' content'
  | rewrote {anchor : Anchor} {content : PageId → Page} {height : Nat} {root page : PageId}
      {bytes : Page} {listed listed' : List (K × V)}
      (before : tree.Stood anchor content height root)
      (after : tree.Stood anchor (Function.update content page bytes) height root)
      (fewer : (pages (tree.nodes (Function.update content page bytes)) height root).Subperm
        (pages (tree.nodes content) height root))
      (node : tree.nodes content page = .leaf listed)
      (node' : (Node.of tree.capacities bytes : Node K V) = .leaf listed') :
      Change tree 0 anchor content anchor (Function.update content page bytes)
  | unlinked {anchor : Anchor} {content : PageId → Page} {height level : Nat} {root page : PageId}
      {bytes : Page} {separators separators' : List K} {pointers pointers' : List PageId}
      (before : tree.Stood anchor content height root)
      (after : tree.Stood anchor (Function.update content page bytes) height root)
      (fewer : (pages (tree.nodes (Function.update content page bytes)) height root).Subperm
        (pages (tree.nodes content) height root))
      (node : tree.nodes content page = .inner level separators pointers)
      (node' : (Node.of tree.capacities bytes : Node K V) = .inner level separators' pointers')
      (left : pointers'.Sublist pointers) :
      Change tree 0 anchor content anchor (Function.update content page bytes)
  | promoted {anchor anchor' : Anchor} {content content' : PageId → Page} {height : Nat}
      {root top sibling : PageId} {separator : K} (before : tree.Stood anchor content height root)
      (after : tree.Stood anchor' content' (height + 1) top)
      (more : anchor.nextPageNo < anchor'.nextPageNo)
      (fewer : (pages (tree.nodes content') (height + 1) top).Subperm
        ([top, sibling] ++ pages (tree.nodes content) height root))
      (cut : Cut tree.capacities (tree.nodes content) (tree.nodes content') height root height root
        sibling top separator)
      (new : top ∉ pages (tree.nodes content) height root)
      (node : tree.nodes content' top = .inner (height + 1) [separator] [root, sibling]) :
      Change tree (leafSplits height) anchor content anchor' content'
  | hooked {anchor anchor' : Anchor} {content content' : PageId → Page} {height level : Nat}
      {root page sibling parent : PageId} {separator : K} {left right : List K}
      {lower upper : List PageId} (before : tree.Stood anchor content height root)
      (after : tree.Stood anchor' content' height root)
      (more : anchor.nextPageNo < anchor'.nextPageNo)
      (fewer : (pages (tree.nodes content') height root).Subperm
        (sibling :: pages (tree.nodes content) height root))
      (cut : Cut tree.capacities (tree.nodes content) (tree.nodes content') height root level page
        sibling parent separator)
      (mem : parent ∈ pages (tree.nodes content) height root)
      (node : tree.nodes content parent =
        .inner (level + 1) (left ++ right) (lower ++ page :: upper))
      (hooked : Hooked (level + 1) left right lower upper page sibling separator
        (tree.nodes content' parent)) :
      Change tree (leafSplits level) anchor content anchor' content'

/-- What a call has done to the tree it was called on, and how many leaves it has split. -/
inductive Changes (tree : Tree K V) (start : PageId → Page) :
    Nat → Anchor → (PageId → Page) → Prop
  | none : Changes tree start 0 tree.anchor start
  | andThen {m n : Nat} {anchor anchor' : Anchor} {content content' : PageId → Page}
      (changes : Changes tree start m anchor content)
      (change : Change tree n anchor content anchor' content') :
      Changes tree start (m + n) anchor' content'

/-- A call came to a tree in order, split so many leaves and took no page number from `most` on. -/
structure Altered (tree : Tree K V) (start : PageId → Page) (splits most : Nat)
    (held : List (K × V)) (scene : Scene) : Prop where
  order : InOrder tree scene.anchor scene.content held
  changes : Changes tree start splits scene.anchor scene.content
  few : scene.anchor.nextPageNo ≤ most

theorem Altered.grow {start : PageId → Page} {splits most : Nat} {held : List (K × V)}
    {scene scene' : Scene} (h : Altered tree start splits most held scene)
    (root : scene'.anchor.root = scene.anchor.root)
    (more : scene.anchor.nextPageNo ≤ scene'.anchor.nextPageNo)
    (counter : scene'.anchor.nextPageNo ≤ maxPageNo + 1)
    (same : ∀ p, Minted tree.segment scene.anchor.nextPageNo p → scene'.content p = scene.content p)
    (few : scene'.anchor.nextPageNo ≤ most) : Altered tree start splits most held scene' :=
  ⟨h.order.grow root more counter same, h.changes.andThen (.took h.order root more same), few⟩

section Descents

variable {ground : Ground} {failed : Error → Scene → Prop} {scene : Scene} {key : K}
  {held : List (K × V)} {root : PageId} {height level : Nat} {range : Range K} {descent : Descent}
  {start : PageId → Page} {splits : Nat}

/-- A descent stands in a tree in order and holds the node it stands at and its parent. -/
structure Underway (tree : Tree K V) (start : PageId → Page) (splits : Nat) (key : K)
    (held : List (K × V)) (root : PageId) (height level : Nat) (range : Range K) (descent : Descent)
    (scene : Scene) : Prop where
  changes : Changes tree start splits scene.anchor scene.content
  anchored : scene.anchor.root = some root
  counter : scene.anchor.nextPageNo ≤ maxPageNo + 1
  rooted : Rooted tree.capacities (tree.nodes scene.content)
    (Minted tree.segment scene.anchor.nextPageNo) held height root
  stands : Stands tree.capacities (tree.nodes scene.content) key height root
    (descent.parent.map Pinned.page) level range descent.current.page
  pins : Held .exclusive (descent.current :: descent.parent.toList) scene.holds
  current : descent.current.bytes = scene.content descent.current.page
  parent : ∀ parent, descent.parent = some parent → parent.bytes = scene.content parent.page

namespace Underway

theorem inOrder (h : Underway tree start splits key held root height level range descent scene) :
    InOrder tree scene.anchor scene.content held := by
  refine ⟨h.counter, fun bare => ?_, fun page at_root => ⟨height, ?_⟩⟩
  · rw [h.anchored] at bare
    cases bare
  · rw [h.anchored] at at_root
    cases at_root
    exact h.rooted

theorem stood (h : Underway tree start splits key held root height level range descent scene) :
    tree.Stood scene.anchor scene.content height root :=
  ⟨h.anchored, held, h.rooted⟩

theorem sound (h : Underway tree start splits key held root height level range descent scene) :
    Sound tree.capacities (tree.nodes scene.content) level range descent.current.page :=
  h.stands.sound h.rooted.sound

theorem minted_pins
    (h : Underway tree start splits key held root height level range descent scene) :
    ∀ pinned ∈ descent.current :: descent.parent.toList,
      Minted tree.segment scene.anchor.nextPageNo pinned.page := by
  intro pinned mem
  have stands := h.stands
  rcases List.mem_cons.mp mem with rfl | mem
  · obtain ⟨around, focus⟩ := stands.focus
    exact h.rooted.minted _ (focus.pages_subset h.sound (mem_pages_self _ _ _))
  · rw [Option.mem_toList.mp mem] at stands
    obtain ⟨around, range', left, right, before, after, focus, node, sound, chain, -⟩ :=
      stands.of_some
    exact h.rooted.minted _
      (focus.pages_subset ⟨_, _, node, sound, chain⟩ (mem_pages_self _ _ _))

theorem write_leaf {bytes : Page} {listed listed' : List (K × V)}
    (h : Underway tree start splits key held root height 0 range descent scene)
    (node : tree.nodes scene.content descent.current.page = .leaf listed)
    (sound : LeafSound tree.capacities range listed)
    (node' : (Node.of tree.capacities bytes : Node K V) = .leaf listed')
    (sound' : LeafSound tree.capacities range listed') :
    ∃ around, Focus tree.capacities (tree.nodes scene.content) key height root around 0 range
        descent.current.page ∧
      Underway tree start splits key (around.smaller ++ listed' ++ around.larger) root height 0
        range ⟨descent.parent, { descent.current with bytes }⟩
        { scene with content := Function.update scene.content descent.current.page bytes } := by
  obtain ⟨around, focus⟩ := h.stands.focus
  have nodes' := nodes_update tree scene.content descent.current.page bytes
  rw [node'] at nodes'
  have whole' : Sound tree.capacities
      (tree.nodes (Function.update scene.content descent.current.page bytes)) 0 range
      descent.current.page := ⟨listed', by simp [nodes'], sound'⟩
  have same : ∀ p ∈ pages (tree.nodes scene.content) height root,
      p ∉ pages (tree.nodes scene.content) 0 descent.current.page →
        tree.nodes (Function.update scene.content descent.current.page bytes) p =
          tree.nodes scene.content p := by
    intro p _ outside
    rw [nodes', Function.update_of_ne]
    rintro rfl
    exact outside (mem_pages_self _ 0 _)
  have refilled := focus.refill h.rooted ⟨listed, node, sound⟩ whole' same
    (List.Subperm.refl _) List.nodup_nil (by simp) fun p minted => minted
  have entries' : entries (tree.nodes (Function.update scene.content descent.current.page bytes)) 0
      descent.current.page = listed' := by simp [entries, nodes', Node.entries]
  rw [entries'] at refilled
  have fewer := focus.pages_fewer h.rooted ⟨listed, node, sound⟩ whole' same
    (show (pages _ 0 _).Subperm ([] ++ pages _ 0 _) from List.Subperm.refl _)
  have change : Change tree 0 scene.anchor scene.content scene.anchor
      (Function.update scene.content descent.current.page bytes) :=
    .rewrote h.stood ⟨h.anchored, _, refilled⟩ fewer node node'
  refine ⟨around, focus, h.changes.andThen change, h.anchored, h.counter, refilled,
    h.stands.refill h.rooted whole' same, h.pins.relabel (List.Perm.refl _),
    (Function.update_self (f := scene.content) descent.current.page bytes).symm, ?_⟩
  intro parent at_parent
  have stands := h.stands
  rw [at_parent] at stands
  have apart : parent.page ≠ descent.current.page := by
    intro same
    exact stands.parent_apart h.rooted (same ▸ mem_pages_self _ 0 _)
  rw [h.parent parent at_parent]
  exact (Function.update_of_ne apart ..).symm

end Underway

theorem enterChild_ensures (suitable : tree.capacities.Suitable K V)
    (mine : ∀ p, p.segment = tree.segment → ground.mine p) (three : 3 ≤ ground.limit)
    (refused : ∀ fault, failed (.storage fault) scene)
    (h : Underway tree start splits key held root height (level + 1) range descent scene) :
    Ensures ground failed (tree.enterChild key descent)
      (fun descent' scene' => ∃ range' holds, scene' = { scene with holds } ∧
        descent'.parent = some descent.current ∧
        Underway tree start splits key held root height level range' descent' scene') scene := by
  obtain ⟨separators, pointers, left, right, before, child, after, node, sound, route, stands⟩ :=
    h.stands.enter h.rooted.sound
  obtain ⟨around, focus⟩ := h.stands.focus
  have listed : child ∈ pages (tree.nodes scene.content) (level + 1) descent.current.page := by
    refine mem_pages_of_child ?_ (mem_pages_self _ level child)
    rw [node, Node.pointers, route.children_eq]
    simp
  have in_tree := focus.pages_subset h.sound listed
  have few : (descent.current :: descent.parent.toList).length < ground.limit := by
    cases descent.parent <;> simp <;> omega
  have apart : ∀ pinned ∈ descent.current :: descent.parent.toList, pinned.page ≠ child := by
    intro pinned mem same
    rcases List.mem_cons.mp mem with rfl | mem
    · apply stands.parent_apart h.rooted
      rw [same]
      exact mem_pages_self _ level child
    · have parent := h.stands
      rw [Option.mem_toList.mp mem] at parent
      exact parent.parent_apart h.rooted (same ▸ listed)
  rw [enterChild, Ensures.bind_iff, h.current, inner_eq,
    Ensures.ofNode_iff (Node.childFor_eq suitable node sound route), Ensures.bind_iff]
  refine Ensures.fetch_held h.pins (mine child (h.rooted.minted child in_tree).1) few apart
    refused fun guard holds pins => ?_
  have next (holds : List Hold) (pins : Held .exclusive
      [⟨guard, child, scene.content child⟩, descent.current] holds) :
      Underway tree start splits key held root height level (range.between left right)
        ⟨some descent.current, ⟨guard, child, scene.content child⟩⟩ { scene with holds } :=
    ⟨h.changes, h.anchored, h.counter, h.rooted, stands, pins, rfl,
      fun parent same => Option.some.inj same ▸ h.current⟩
  cases parent : descent.parent with
  | none =>
    rw [parent] at pins
    exact Ensures.pure_iff.mpr ⟨_, holds, rfl, rfl, next holds pins⟩
  | some parent_pinned =>
    rw [parent] at pins
    rw [Ensures.bind_iff]
    have last := List.perm_append_singleton parent_pinned
      [⟨guard, child, scene.content child⟩, descent.current]
    refine Ensures.release_held pins last fun holds pins => ?_
    exact Ensures.pure_iff.mpr ⟨_, holds, rfl, rfl, next holds pins⟩

end Descents

end PagedIndex.Tree
