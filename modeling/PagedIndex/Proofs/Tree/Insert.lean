import PagedIndex.Proofs.Tree.InOrder

/-!
# Insertion keeps a tree in order

A split reads and pins all it needs before it writes, so a failure finds the tree as it was. Every
split on the way leaves the entries as they are; the leaf then takes the new one. A node is split
once, and only below a parent that has room. So a page is taken for each level at most, and two more
for a new root, and only a leaf that takes the entry right after is split.
-/

namespace PagedIndex.Tree

open KeyOrder Access

variable {K V : Type} [IndexKey K] [FixedWidth V] {tree : Tree K V} {ground : Ground}
  {failed : Error → Scene → Prop} {scene : Scene} {key : K} {held : List (K × V)} {root : PageId}
  {height level : Nat} {range : Range K} {descent : Descent} {start : PageId → Page}
  {splits most : Nat}

def Descent.pagesToSplit (descent : Descent) : Nat := if descent.parent.isNone then 2 else 1

/-- The pages of a split are pinned: a fresh one for the upper half, and the parent or another fresh
one. Pages handed out before are as they were. -/
structure Readied (tree : Tree K V) (scene scene' : Scene) (descent : Descent)
    (sibling parent : Pinned) : Prop where
  root : scene'.anchor.root = scene.anchor.root
  more : scene.anchor.nextPageNo ≤ scene'.anchor.nextPageNo
  few : scene'.anchor.nextPageNo ≤ scene.anchor.nextPageNo + descent.pagesToSplit
  counter : scene'.anchor.nextPageNo ≤ maxPageNo + 1
  same : ∀ p, Minted tree.segment scene.anchor.nextPageNo p → scene'.content p = scene.content p
  pins : Held .exclusive [sibling, descent.current, parent] scene'.holds
  fresh : ¬ Minted tree.segment scene.anchor.nextPageNo sibling.page ∧
    Minted tree.segment scene'.anchor.nextPageNo sibling.page
  above : descent.parent = some parent ∨ descent.parent = none ∧ parent.page ≠ sibling.page ∧
    ¬ Minted tree.segment scene.anchor.nextPageNo parent.page ∧
      Minted tree.segment scene'.anchor.nextPageNo parent.page

theorem pinForSplit_ensures (segment : ground.segment = tree.segment) (three : 3 ≤ ground.limit)
    (refused : ∀ fault scene', Altered tree start splits most held scene' →
      failed (.storage fault) scene')
    (h : Underway tree start splits key held root height level range descent scene)
    (spare : scene.anchor.nextPageNo + descent.pagesToSplit ≤ most) :
    Ensures ground failed (pinForSplit descent.parent)
      (fun pinned scene' => Readied tree scene scene' descent pinned.1 pinned.2) scene := by
  have unchanged {page : PageId} (bytes : Page)
      (new : ¬ Minted tree.segment scene.anchor.nextPageNo page) (p : PageId)
      (minted : Minted tree.segment scene.anchor.nextPageNo p) :
      Function.update scene.content page bytes p = scene.content p :=
    Function.update_of_ne (by rintro rfl; exact new minted) ..
  have few : (descent.current :: descent.parent.toList).length < ground.limit := by
    cases descent.parent <;> simp <;> omega
  have one : 1 ≤ descent.pagesToSplit := by
    unfold Descent.pagesToSplit
    split <;> omega
  have here : Altered tree start splits most held scene :=
    ⟨h.inOrder, h.changes, Nat.le_of_add_right_le spare⟩
  rw [pinForSplit, Ensures.bind_iff]
  refine mint_ensures segment (fun fault => refused fault scene here)
    fun sibling counter new minted => ?_
  rw [Ensures.bind_iff]
  have apart : ∀ pinned ∈ descent.current :: descent.parent.toList, pinned.page ≠ sibling :=
    fun pinned mem same => new (same ▸ h.minted_pins pinned mem)
  refine Ensures.create_held h.pins few apart (fun fault => refused fault _ (here.grow rfl
    (Nat.le_succ _) counter (fun _ _ => rfl) (Nat.le_trans (Nat.add_le_add_left one _) spare)))
    fun guard holds pins => ?_
  cases parent : descent.parent with
  | some parent =>
    rw [parent] at pins
    exact Ensures.pure_iff.mpr ⟨rfl, Nat.le_succ _, Nat.add_le_add_left one _, counter,
      unchanged _ new, pins, ⟨new, minted⟩, .inl parent⟩
  | none =>
    have two : descent.pagesToSplit = 2 := by rw [Descent.pagesToSplit, parent]; rfl
    rw [two] at spare
    rw [parent] at pins
    rw [Ensures.bind_iff]
    refine mint_ensures segment (fun fault => refused fault _ (here.grow rfl (Nat.le_succ _) counter
      (unchanged Page.zeroed new) (Nat.le_of_succ_le spare))) fun top counter' new' minted' => ?_
    have older (minted : Minted tree.segment scene.anchor.nextPageNo top) : False :=
      new' (minted.mono (Nat.le_succ _))
    have apart' : ∀ pinned ∈ [⟨guard, sibling, Page.zeroed⟩, descent.current],
        pinned.page ≠ top := by
      rintro pinned mem rfl
      rcases List.mem_cons.mp mem with rfl | mem
      · exact new' minted
      · exact older (h.minted_pins pinned (List.mem_cons.mpr (.inl (List.mem_singleton.mp mem))))
    rw [Ensures.bind_iff]
    refine Ensures.create_held pins (by simp; omega) apart'
      (fun fault => refused fault _ (here.grow rfl (Nat.le_add_right _ 2) counter'
        (unchanged Page.zeroed new) spare))
      fun guard' holds' pins' => ?_
    refine Ensures.pure_iff.mpr ⟨rfl, Nat.le_add_right _ 2, by rw [two], counter', ?_,
      pins'.reorder (List.perm_append_singleton _ [_, _]).symm,
      ⟨new, minted.mono (Nat.le_succ _)⟩, .inr ⟨parent, ?_, older, minted'⟩⟩
    · intro p minted
      change Function.update (Function.update scene.content sibling Page.zeroed) top _ p = _
      rw [Function.update_of_ne (by rintro rfl; exact older minted)]
      exact unchanged _ new p minted
    · intro (same : top = sibling)
      exact new' (same ▸ minted)

/-- A node was split: the descent may go on from the half whose range holds the key. -/
structure Halfway (tree : Tree K V) (start : PageId → Page) (splits : Nat) (key : K)
    (held : List (K × V)) (root : PageId) (height level : Nat) (parted : Parted K) (scene : Scene) :
    Prop where
  changes : Changes tree start splits scene.anchor scene.content
  anchored : scene.anchor.root = some root
  counter : scene.anchor.nextPageNo ≤ maxPageNo + 1
  rooted : Rooted tree.capacities (tree.nodes scene.content)
    (Minted tree.segment scene.anchor.nextPageNo) held height root
  stands : ∃ range, Stands tree.capacities (tree.nodes scene.content) key height root
    (some parted.parent.page) level range
      (if parted.separator ≤ key then parted.right.page else parted.left.page)
  pins : Held .exclusive [parted.left, parted.right, parted.parent] scene.holds
  left : parted.left.bytes = scene.content parted.left.page
  right : parted.right.bytes = scene.content parted.right.page
  parent : parted.parent.bytes = scene.content parted.parent.page
  vacant_left : (tree.nodes scene.content parted.left.page).Vacant tree.capacities
  vacant_right : (tree.nodes scene.content parted.right.page).Vacant tree.capacities

section Writes

variable {scene' : Scene} {sibling parent : Pinned} {halves : Halves K pageSize}

def written (content : PageId → Page) (sibling page parent : PageId) (halves : Halves K pageSize)
    (bytes : Page) : PageId → Page :=
  Function.update (Function.update (Function.update content sibling halves.right) page halves.left)
    parent bytes

variable (h : Underway tree start splits key held root height level range descent scene)
  (readied : Readied tree scene scene' descent sibling parent)
  (halved : Halved (tree.nodes scene.content descent.current.page) halves.separator
    (.of tree.capacities halves.left) (.of tree.capacities halves.right))
  (full : ¬ (tree.nodes scene.content descent.current.page).Vacant tree.capacities)
  (outside : parent.page ∉ pages (tree.nodes scene.content) level descent.current.page)
  (apart : parent.page ≠ sibling.page) (bytes : Page)

include h readied halved full outside apart

theorem divided_of_writes :
    let content' := written scene'.content sibling.page descent.current.page parent.page
      halves bytes
    content' sibling.page = halves.right ∧ content' descent.current.page = halves.left ∧
      content' parent.page = bytes ∧
      Cut tree.capacities (tree.nodes scene.content) (tree.nodes content') height root level
        descent.current.page sibling.page parent.page halves.separator ∧
      Divided tree.capacities (tree.nodes scene.content) (tree.nodes content') level range
        descent.current.page sibling.page halves.separator := by
  intro content'
  obtain ⟨around, focus⟩ := h.stands.focus
  have sound := h.sound
  have nodup := (List.nodup_append.mp ((focus.pages_perm sound).nodup_iff.mp h.rooted.nodup)).2.1
  have parent_apart : parent.page ≠ descent.current.page := by
    intro same
    exact outside (same ▸ mem_pages_self _ _ _)
  have not_sibling (p : PageId) (mem : p ∈ pages (tree.nodes scene.content) height root) :
      p ≠ sibling.page := by
    rintro rfl
    exact readied.fresh.1 (h.rooted.minted _ mem)
  have here := focus.pages_subset sound (mem_pages_self _ _ _)
  have at_sibling : content' sibling.page = halves.right := by
    simp [content', written, apart.symm, (not_sibling _ here).symm]
  have at_current : content' descent.current.page = halves.left := by
    simp [content', written, parent_apart.symm]
  have at_parent : content' parent.page = bytes := by simp [content', written]
  have elsewhere (p : PageId) (mem : p ∈ pages (tree.nodes scene.content) height root)
      (not_current : p ≠ descent.current.page) (not_parent : p ≠ parent.page) :
      tree.nodes content' p = tree.nodes scene.content p := by
    have unchanged := readied.same p (h.rooted.minted p mem)
    simp [content', written, nodes, not_sibling p mem, not_current, not_parent, unchanged]
  have lower : tree.nodes content' descent.current.page = .of tree.capacities halves.left := by
    rw [nodes, at_current]
  have upper : tree.nodes content' sibling.page = .of tree.capacities halves.right := by
    rw [nodes, at_sibling]
  refine ⟨at_sibling, at_current, at_parent, ⟨⟨range, sound⟩, full, ?_, here,
    fun mem => not_sibling _ mem rfl, parent_apart, elsewhere⟩,
    halved.divided sound lower upper (fun p mem not_current => ?_) nodup⟩
  · rw [lower, upper]
    exact halved
  apply elsewhere p (focus.pages_subset sound mem) not_current
  rintro rfl
  exact outside mem

variable (vacant_left : (Node.of tree.capacities halves.left : Node K V).Vacant tree.capacities)
  (vacant_right : (Node.of tree.capacities halves.right : Node K V).Vacant tree.capacities)

include vacant_left vacant_right

theorem halfway_of_root (suitable : tree.capacities.Suitable K V)
    (no_parent : descent.parent = none)
    (new : ¬ Minted tree.segment scene.anchor.nextPageNo parent.page)
    (minted : Minted tree.segment scene'.anchor.nextPageNo parent.page)
    (top : (Node.of tree.capacities bytes : Node K V) =
      .inner (level + 1) [halves.separator] [descent.current.page, sibling.page]) :
    Halfway tree start (splits + leafSplits level) key held parent.page (level + 1) level
      ⟨{ descent.current with bytes := halves.left }, { sibling with bytes := halves.right },
        halves.separator, { parent with bytes }⟩
      ⟨{ scene'.anchor with root := some parent.page },
        written scene'.content sibling.page descent.current.page parent.page halves bytes,
        scene'.holds⟩ := by
  obtain ⟨at_sibling, at_current, at_parent, cut, divided⟩ :=
    divided_of_writes h readied halved full outside apart bytes
  have stands := h.stands
  rw [no_parent] at stands
  obtain ⟨rfl, rfl, same⟩ := stands.of_none
  have two : 2 ≤ tree.capacities.inner := Nat.le_trans (by decide) suitable.inner_least
  have rooted := h.rooted
  have before := h.stood
  rw [← same] at rooted before cut
  have promoted : tree.nodes (written scene'.content sibling.page descent.current.page parent.page
      halves bytes) parent.page =
        .inner (level + 1) [halves.separator] [descent.current.page, sibling.page] := by
    rw [nodes, at_parent, top]
  obtain ⟨rooted', fewer, stands'⟩ := divided.promote rooted two promoted (by simpa using apart)
    (by simpa using ⟨⟨new, minted⟩, readied.fresh⟩) fun p older => older.mono readied.more
  refine ⟨h.changes.andThen (.promoted before ⟨rfl, held, rooted'⟩ (lt_of_minted readied.fresh)
    fewer cut outside promoted), rfl, readied.counter, rooted', stands', ?_, at_current.symm,
    at_sibling.symm, at_parent.symm, ?_, ?_⟩
  · exact readied.pins.relabel (List.Perm.swap ..)
  · simpa only [nodes, at_current] using vacant_left
  · simpa only [nodes, at_sibling] using vacant_right

theorem halfway_of_parent
    {around : Surroundings K V} {range' : Range K} {left right : List K}
    {before after : List PageId}
    (focus : Focus tree.capacities (tree.nodes scene.content) key height root around (level + 1)
      range' parent.page)
    (node : tree.nodes scene.content parent.page =
      .inner (level + 1) (left ++ right) (before ++ descent.current.page :: after))
    (sound : InnerSound tree.capacities range' (left ++ right)
      (before ++ descent.current.page :: after))
    (chain : Chain (Sound tree.capacities (tree.nodes scene.content) level) range' (left ++ right)
      (before ++ descent.current.page :: after))
    (route : Chain.Route (left ++ right) (before ++ descent.current.page :: after) key left right
      before descent.current.page after)
    (narrowed : range = range'.between left right)
    (hooked : Hooked (level + 1) left right before after descent.current.page sibling.page
      halves.separator (Node.of tree.capacities bytes : Node K V))
    (room : (tree.nodes scene.content parent.page).Vacant tree.capacities) :
    Halfway tree start (splits + leafSplits level) key held root height level
      ⟨{ descent.current with bytes := halves.left }, { sibling with bytes := halves.right },
        halves.separator, { parent with bytes }⟩
      ⟨scene'.anchor,
        written scene'.content sibling.page descent.current.page parent.page halves bytes,
        scene'.holds⟩ := by
  obtain ⟨at_sibling, at_current, at_top, cut, divided⟩ :=
    divided_of_writes h readied halved full outside apart bytes
  rw [node] at room
  rw [narrowed] at divided
  have hooked' : Hooked (level + 1) left right before after descent.current.page sibling.page
      halves.separator (tree.nodes (written scene'.content sibling.page descent.current.page
        parent.page halves bytes) parent.page) := by
    rw [nodes, at_top]
    exact hooked
  obtain ⟨rooted', fewer, stands'⟩ := divided.hook focus node sound chain route hooked' room
    h.rooted cut.same readied.fresh fun p older => older.mono readied.more
  have anchored := readied.root.trans h.anchored
  have in_tree := focus.pages_subset ⟨_, _, node, sound, chain⟩ (mem_pages_self _ _ _)
  refine ⟨h.changes.andThen (.hooked h.stood ⟨anchored, held, rooted'⟩
    (lt_of_minted readied.fresh) fewer cut in_tree node hooked'), anchored, readied.counter,
    rooted', stands', ?_, at_current.symm, at_sibling.symm, at_top.symm, ?_, ?_⟩
  · exact readied.pins.relabel (List.Perm.swap ..)
  · simpa only [nodes, at_current] using vacant_left
  · simpa only [nodes, at_sibling] using vacant_right

end Writes

theorem split_ensures (suitable : tree.capacities.Suitable K V)
    (segment : ground.segment = tree.segment) (three : 3 ≤ ground.limit)
    (refused : ∀ fault scene', Altered tree start splits most held scene' →
      failed (.storage fault) scene')
    (h : Underway tree start splits key held root height level range descent scene)
    (full : ¬ (tree.nodes scene.content descent.current.page).Vacant tree.capacities)
    (room : ∀ parent, descent.parent = some parent →
      (tree.nodes scene.content parent.page).Vacant tree.capacities)
    (low : descent.parent = none → height < 65535)
    (spare : scene.anchor.nextPageNo + descent.pagesToSplit ≤ most) :
    Ensures ground failed (tree.split descent)
      (fun parted scene' => ∃ root' height',
        Halfway tree start (splits + leafSplits level) key held root' height' level parted scene' ∧
          scene'.anchor.nextPageNo ≤ scene.anchor.nextPageNo + descent.pagesToSplit) scene := by
  have sound := h.sound
  obtain ⟨_, focus⟩ := h.stands.focus
  rw [split, Ensures.bind_iff, Ensures.ofNode_iff (Node.header_eq suitable _)]
  apply Ensures.andThen (pinForSplit_ensures segment three refused h spare)
  rintro ⟨sibling, parent⟩ scene' (readied : Readied tree scene scene' descent sibling parent)
  obtain ⟨halves, halved_ok, halved, vacant_left, vacant_right⟩ :=
    halve_ok suitable sound full sibling.bytes
  rw [h.current, Ensures.bind_iff, Ensures.ofNode_iff halved_ok, Ensures.bind_iff]
  apply Ensures.write_held readied.pins (by simp)
  rw [Ensures.bind_iff]
  refine Ensures.write_held readied.pins (by simp) ?_
  rcases readied.above with at_parent | ⟨no_parent, apart, new, minted⟩
  · have stands := h.stands
    rw [at_parent] at stands
    have outside := stands.parent_apart h.rooted
    obtain ⟨around, range', left, right, before, after, focus', node, inner_sound, chain, route,
      narrowed⟩ := stands.of_some
    have parent_minted := h.rooted.minted _ (focus'.pages_subset ⟨_, _, node, inner_sound, chain⟩
      (mem_pages_self _ _ _))
    have apart : parent.page ≠ sibling.page := fun same => readied.fresh.1 (same ▸ parent_minted)
    have inside := halved.contains sound
    rw [narrowed] at inside
    have room := room parent at_parent
    have small := room
    rw [node] at small
    obtain ⟨bytes, hooked_ok, hooked⟩ := Node.hook_ok suitable node
      inner_sound rfl rfl route.place inside small
    rw [at_parent, Ensures.bind_iff, inner_eq, h.parent parent at_parent,
      Ensures.ofNode_iff hooked_ok, Ensures.bind_iff]
    refine Ensures.write_held readied.pins (by simp) ?_
    rw [Option.isNone_some, if_neg Bool.false_ne_true]
    exact Ensures.pure_iff.mpr ⟨root, height, halfway_of_parent h readied halved full outside apart
      bytes vacant_left vacant_right focus' node inner_sound chain route narrowed hooked room,
      readied.few⟩
  · have outside : parent.page ∉ pages (tree.nodes scene.content) level descent.current.page :=
      fun mem => new (h.rooted.minted _ (focus.pages_subset sound mem))
    have stands := h.stands
    rw [no_parent] at stands
    have same_level := sound.level_eq
    have low := low no_parent
    rw [← stands.of_none.1, ← same_level] at low
    obtain ⟨bytes, formatted_ok, top⟩ := Node.format_ok suitable parent.bytes low
      descent.current.page halves.separator sibling.page
    rw [same_level] at top
    rw [no_parent, Ensures.bind_iff, inner_eq, Ensures.ofNode_iff formatted_ok, Ensures.bind_iff]
    refine Ensures.write_held readied.pins (by simp) ?_
    rw [Option.isNone_none, if_pos rfl, Ensures.bind_iff, Ensures.setRoot_iff]
    exact Ensures.pure_iff.mpr
      ⟨parent.page, level + 1, halfway_of_root h readied halved full outside apart bytes vacant_left
        vacant_right suitable no_parent new minted top, readied.few⟩

theorem enterHalf_ensures (suitable : tree.capacities.Suitable K V)
    (segment : ground.segment = tree.segment) (three : 3 ≤ ground.limit)
    (refused : ∀ fault scene', Altered tree start splits most held scene' →
      failed (.storage fault) scene')
    (h : Underway tree start splits key held root height level range descent scene)
    (full : ¬ (tree.nodes scene.content descent.current.page).Vacant tree.capacities)
    (room : ∀ parent, descent.parent = some parent →
      (tree.nodes scene.content parent.page).Vacant tree.capacities)
    (low : descent.parent = none → height < 65535)
    (spare : scene.anchor.nextPageNo + descent.pagesToSplit ≤ most) :
    Ensures ground failed (tree.enterHalf key descent)
      (fun descent' scene' => ∃ root' height' range',
        Underway tree start (splits + leafSplits level) key held root' height' level range' descent'
            scene' ∧
          (tree.nodes scene'.content descent'.current.page).Vacant tree.capacities ∧
          descent'.parent ≠ none ∧
          scene'.anchor.nextPageNo ≤ scene.anchor.nextPageNo + descent.pagesToSplit) scene := by
  rw [enterHalf]
  apply Ensures.andThen (split_ensures suitable segment three refused h full room low spare)
  intro parted scene' ended
  rcases ended with ⟨root', height', halfway, few⟩
  obtain ⟨range', stands⟩ := halfway.stands
  by_cases reached : parted.separator ≤ key
  · rw [if_pos reached] at stands
    rw [if_pos (compare_isGE_iff.mpr reached), Ensures.bind_iff]
    refine Ensures.release_held halfway.pins (List.Perm.refl _) fun holds pins => ?_
    refine Ensures.pure_iff.mpr ⟨root', height', range', ⟨halfway.changes,
      halfway.anchored, halfway.counter, halfway.rooted, stands, pins, halfway.right, ?_⟩,
      halfway.vacant_right, by simp, few⟩
    exact fun parent same => Option.some.inj same ▸ halfway.parent
  · rw [if_neg reached] at stands
    rw [if_neg (mt compare_isGE_iff.mp reached), Ensures.bind_iff]
    refine Ensures.release_held halfway.pins (List.Perm.swap ..) fun holds pins => ?_
    refine Ensures.pure_iff.mpr ⟨root', height', range', ⟨halfway.changes,
      halfway.anchored, halfway.counter, halfway.rooted, stands, pins, halfway.left, ?_⟩,
      halfway.vacant_left, by simp, few⟩
    exact fun parent same => Option.some.inj same ▸ halfway.parent

/-- The entries with one more, or with another value in the place of the key's. -/
def Upserted (key : K) (value : V) (held held' : List (K × V)) : Prop :=
  ∃ before own after, Cuts key held before own after ∧ held' = before ++ (key, value) :: after

theorem insertLeaf_ensures (suitable : tree.capacities.Suitable K V) {value : V}
    {listed before after : List (K × V)} {own : Option V}
    (h : Underway tree start splits key held root height 0 range descent scene)
    (few : scene.anchor.nextPageNo ≤ most)
    (node : tree.nodes scene.content descent.current.page = .leaf listed)
    (sound : LeafSound tree.capacities range listed) (cuts : Cuts key listed before own after)
    (vacant : own = none → listed.length < tree.capacities.leaf) :
    Ensures ground failed
      (do let (_, bytes) ← ofNode (((tree.capacities.leafLayout K V).insert key value).run
            (scene.content descent.current.page))
          write descent.current bytes)
      (fun _ scene' => ∃ held', Upserted key value held held' ∧
        Altered tree start splits most held' scene') scene := by
  have inside : range.contains key = true := by
    obtain ⟨_, focus⟩ := h.stands.focus
    exact focus.contains
  obtain ⟨added, bytes, inserted, node'⟩ := Node.insert_ok suitable node sound cuts value vacant
  rw [Ensures.bind_iff, Ensures.ofNode_iff inserted]
  apply Ensures.write_held h.pins (by simp)
  obtain ⟨around, focus, written⟩ := h.write_leaf node sound node'
    (sound.put cuts value inside vacant)
  refine ⟨_, ⟨_, own, _, h.rooted.entries_eq ▸ focus.cuts node sound cuts, ?_⟩, written.inOrder,
    written.changes, few⟩
  simp

theorem insertFrom_ensures (suitable : tree.capacities.Suitable K V)
    (segment : ground.segment = tree.segment) (three : 3 ≤ ground.limit)
    (mine : ∀ p, p.segment = tree.segment → ground.mine p)
    (refused : ∀ fault scene', Altered tree start 0 most held scene' →
      failed (.storage fault) scene')
    {value : V} {steps : Nat}
    (h : Underway tree start splits key held root height level range descent scene)
    (room : (tree.nodes scene.content descent.current.page).Vacant tree.capacities ∨
      ∀ parent, descent.parent = some parent →
        (tree.nodes scene.content parent.page).Vacant tree.capacities)
    (low : descent.parent = none → height < 65535)
    (once : splits ≤ 1)
    (unsplit : 0 < level ∨
      ¬ (tree.nodes scene.content descent.current.page).Vacant tree.capacities → splits = 0)
    (enough : 2 * level + 1 ≤ steps) (spare : scene.anchor.nextPageNo + level ≤ most)
    (more : ¬ (tree.nodes scene.content descent.current.page).Vacant tree.capacities →
      2 * level + 2 ≤ steps ∧ scene.anchor.nextPageNo + level + descent.pagesToSplit ≤ most) :
    Ensures ground failed (tree.insertFrom key value steps descent)
      (fun _ scene' => ∃ splits' held', splits' ≤ 1 ∧ Upserted key value held held' ∧
        Altered tree start splits' most held' scene') scene := by
  induction steps generalizing scene root height level range descent splits with
  | zero => omega
  | succ steps ih =>
    have split (full : ¬ (tree.nodes scene.content descent.current.page).Vacant tree.capacities) :
        Ensures ground failed (tree.enterHalf key descent >>= tree.insertFrom key value steps)
          (fun _ scene' => ∃ splits' held', splits' ≤ 1 ∧ Upserted key value held held' ∧
            Altered tree start splits' most held' scene') scene := by
      obtain rfl := unsplit (.inr full)
      obtain ⟨fewer, spare⟩ := more full
      refine Ensures.andThen (enterHalf_ensures suitable segment three refused h full
        (room.resolve_left full) low (by omega)) ?_
      intro descent' scene' ended
      rcases ended with ⟨root', height', range', underway, vacant, has_parent, few⟩
      refine ih underway (.inl vacant) (fun no_parent => absurd no_parent has_parent)
        (by simpa using leafSplits_le level) ?_ (Nat.le_of_succ_le_succ fewer) (by omega)
        fun full => absurd vacant full
      rintro (above | full)
      · rw [leafSplits_of_pos above]
      · exact absurd vacant full
    have sound := h.sound
    rw [insertFrom, Ensures.bind_iff, Ensures.ofNode_iff (Node.header_eq suitable _), h.current]
    cases level with
    | zero =>
      obtain ⟨listed, node, leaf_sound⟩ := sound
      obtain ⟨before, own, after, cuts⟩ := exists_cuts leaf_sound.ascending key
      rw [Node.isLeaf_of_leaf node, if_pos rfl, Ensures.bind_iff, leaf_eq,
        Ensures.ofNode_iff (Node.position_eq suitable node leaf_sound cuts),
        Node.count_of_leaf node]
      by_cases direct : (own.isSome || decide (listed.length < tree.capacities.leaf)) = true
      · rw [if_pos direct]
        refine (insertLeaf_ensures suitable h spare node leaf_sound cuts ?_).weaken
          fun _ scene' ended => ?_
        · rintro rfl
          simpa using direct
        · obtain ⟨held', upserted, altered⟩ := ended
          exact ⟨splits, held', once, upserted, altered⟩
      · rw [if_neg direct]
        apply split
        rw [node]
        intro vacant
        exact direct (by simp [show listed.length < tree.capacities.leaf from vacant])
    | succ level =>
      obtain ⟨separators, pointers, node, inner_sound, chain⟩ := sound
      rw [Node.isLeaf_of_inner node, if_neg Bool.false_ne_true, Node.count_of_inner node]
      by_cases vacant : pointers.length < tree.capacities.inner
      · rw [if_pos vacant]
        obtain rfl := unsplit (.inl (Nat.succ_pos level))
        apply Ensures.andThen (enterChild_ensures suitable mine three
          (fun fault => refused fault scene ⟨h.inOrder, h.changes, by omega⟩) h)
        intro descent' scene' ended
        rcases ended with ⟨range', holds, rfl, at_parent, underway⟩
        have one : descent'.pagesToSplit = 1 := by rw [Descent.pagesToSplit, at_parent]; rfl
        refine ih underway (.inr fun parent same => ?_) (fun no_parent => ?_) once (fun _ => rfl)
          (by omega) (Nat.le_of_succ_le spare) fun _ => ⟨by omega, by rw [one]; exact spare⟩
        · rw [at_parent] at same
          rw [← Option.some.inj same, node]
          exact vacant
        · rw [at_parent] at no_parent
          cases no_parent
      · rw [if_neg vacant]
        apply split
        rw [node]
        exact vacant

theorem plant_ensures (suitable : tree.capacities.Suitable K V)
    (segment : ground.segment = tree.segment) (three : 3 ≤ ground.limit)
    (refused : ∀ fault scene', Altered tree start 0 most held scene' →
      failed (.storage fault) scene')
    {value : V} (order : InOrder tree tree.anchor start held) (bare : tree.anchor.root = none)
    (spare : tree.anchor.nextPageNo + 1 ≤ most) :
    Ensures ground failed (tree.plant key value)
      (fun _ scene' => ∃ held', Upserted key value held held' ∧
        Altered tree start 0 most held' scene') ⟨tree.anchor, start, []⟩ := by
  have nothing := order.bare bare
  subst nothing
  have here : Altered tree start 0 most [] ⟨tree.anchor, start, []⟩ :=
    ⟨order, .none, Nat.le_of_succ_le spare⟩
  rw [plant, Ensures.bind_iff]
  refine mint_ensures segment (fun fault => refused fault _ here) fun page counter new minted => ?_
  have left_behind : Altered tree start 0 most []
      ⟨{ tree.anchor with nextPageNo := tree.anchor.nextPageNo + 1 }, start, []⟩ :=
    here.grow rfl (Nat.le_succ _) counter (fun _ _ => rfl) spare
  rw [Ensures.bind_iff]
  refine Ensures.create_held (.nothing .exclusive) (by simp; omega) nofun
    (fun fault => refused fault _ left_behind) fun guard holds pins => ?_
  obtain ⟨bytes, planted, node⟩ := Node.plant_ok suitable Page.zeroed key value
  rw [Ensures.bind_iff, leaf_eq, Ensures.ofNode_iff planted, Ensures.bind_iff]
  apply Ensures.write_held pins (by simp)
  rw [Ensures.setRoot_iff]
  have one : 1 ≤ tree.capacities.leaf := Nat.le_trans (by decide) suitable.leaf_least
  have here :
      tree.nodes (Function.update (Function.update start page Page.zeroed) page bytes) page =
        .leaf [(key, value)] := by
    simp [nodes, node]
  have rooted : Rooted tree.capacities
      (tree.nodes (Function.update (Function.update start page Page.zeroed) page bytes))
      (Minted tree.segment (tree.anchor.nextPageNo + 1)) [(key, value)] 0 page := by
    refine ⟨⟨[(key, value)], here, one, List.pairwise_singleton _ _, fun _ _ => rfl⟩,
      by simp [pages], by simpa [pages] using minted, ?_⟩
    rw [entries, here, Node.entries]
  refine ⟨[(key, value)], ⟨[], none, [], ⟨rfl, by simp, by simp⟩, rfl⟩, ⟨counter, by simp, ?_⟩,
    .andThen .none (.planted bare ⟨rfl, _, rooted⟩ (Nat.lt_succ_self _) here), spare⟩
  rintro _ ⟨⟩
  exact ⟨0, rooted⟩

def levels (tree : Tree K V) (content : PageId → Page) : Nat :=
  tree.anchor.root.elim 0 fun root => (Header.of (content root)).level.toNat + 1

theorem insert_ensures (suitable : tree.capacities.Suitable K V)
    (segment : ground.segment = tree.segment) (three : 3 ≤ ground.limit)
    (mine : ∀ p, p.segment = tree.segment → ground.mine p)
    (refused : ∀ fault scene', Altered tree start 0 most held scene' →
      failed (.storage fault) scene')
    {value : V} (order : InOrder tree tree.anchor start held)
    (low : ∀ root, tree.anchor.root = some root → (Header.of (start root)).level.toNat < 65535)
    (spare : tree.anchor.nextPageNo + tree.levels start + 1 ≤ most) :
    Ensures ground failed (tree.insert key value)
      (fun _ scene' => ∃ splits held', splits ≤ 1 ∧ Upserted key value held held' ∧
        Altered tree start splits most held' scene') ⟨tree.anchor, start, []⟩ := by
  rw [insert]
  unfold levels at spare
  cases anchored : tree.anchor.root with
  | none =>
    rw [anchored] at spare
    refine (plant_ensures suitable segment three refused order anchored spare).weaken
      fun _ scene' ended => ?_
    obtain ⟨held', upserted, altered⟩ := ended
    exact ⟨0, held', Nat.zero_le _, upserted, altered⟩
  | some root =>
    obtain ⟨height, rooted⟩ := order.rooted root anchored
    have low := low root anchored
    rw [anchored, Option.elim_some] at spare
    rw [rooted.sound.level_eq] at low spare
    have spare_down : tree.anchor.nextPageNo + height ≤ most := by omega
    rw [Ensures.bind_iff]
    refine Ensures.fetch_held (.nothing .exclusive)
      (mine root (rooted.minted root (mem_pages_self _ _ _)).1) (by simp; omega) nofun
      (fun fault => refused fault _ ⟨order, .none, Nat.le_of_add_right_le spare_down⟩)
      fun guard holds pins => ?_
    have bound : 2 * height + 2 ≤ insertBound := by
      have : 131072 ≤ insertBound := by decide
      omega
    exact insertFrom_ensures suitable segment three mine refused
      ⟨.none, anchored, order.counter, rooted, .top, pins, rfl, nofun⟩ (.inr nofun) (fun _ => low)
      (Nat.zero_le _) (fun _ => rfl) (Nat.le_of_succ_le bound) spare_down fun _ => ⟨bound, spare⟩

end PagedIndex.Tree
