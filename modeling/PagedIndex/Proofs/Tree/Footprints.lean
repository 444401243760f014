import PagedIndex.Proofs.Tree.Partings
import PagedIndex.Proofs.Tree.Trails

/-!
# Which pages an insertion and an erasure touch

An insertion touches the nodes it splits, their siblings, the nodes that take the separators and the
leaf that takes the entry. When it is refused a page, only pages that it has just been handed out
are touched besides those of the splits that it completed. An erasure touches the leaf that has the
key, and the leaf's parent if it takes the leaf out of it.
-/

namespace PagedIndex

open Access

def Trail.sprout (segment : SegmentId) (holds : List Hold) (trail : Trail) : Trail :=
  ⟨⟨{ trail.anchor with nextPageNo := trail.anchor.nextPageNo + 1 },
    Function.update trail.content (.ofParts segment trail.anchor.nextPageNo) Page.zeroed, holds⟩,
    .ofParts segment trail.anchor.nextPageNo :: trail.touched,
    [.ofParts segment trail.anchor.nextPageNo]⟩

namespace Tree

variable {K V : Type} [IndexKey K] [FixedWidth V] {tree : Tree K V} {own : PageId → Prop}
  {content content' : PageId → Page} {key : K} {value : V} {partings : List Parting}
  {anchor : Anchor} {trail : Trail} {pins : List Pinned}

/-- Down from a page, which may have a page above it, the key leads to a leaf below another one. -/
inductive LeadsTo (tree : Tree K V) (content : PageId → Page) (key : K) :
    Option PageId → PageId → Option PageId → PageId → Prop
  | here {above : Option PageId} {leaf : PageId} (level : (Header.of (content leaf)).level = 0) :
      LeadsTo tree content key above leaf above leaf
  | down {above above' : Option PageId} {page child leaf : PageId}
      (inner : (Header.of (content page)).level ≠ 0)
      (routed : tree.inner.childFor (content page) key = .ok child)
      (rest : LeadsTo tree content key (some page) child above' leaf) :
      LeadsTo tree content key above page above' leaf

omit [FixedWidth V] in
theorem LeadsTo.unique {above above₁ above₂ : Option PageId} {page leaf₁ leaf₂ : PageId}
    (h₁ : tree.LeadsTo content key above page above₁ leaf₁)
    (h₂ : tree.LeadsTo content key above page above₂ leaf₂) : above₁ = above₂ ∧ leaf₁ = leaf₂ := by
  induction h₁ with
  | here level =>
    cases h₂ with
    | here => exact ⟨rfl, rfl⟩
    | down inner => exact absurd level inner
  | down inner routed rest ih =>
    cases h₂ with
    | here level => exact absurd level inner
    | down inner' routed' rest' =>
      cases routed.symm.trans routed'
      exact ih rest'

omit [FixedWidth V] in
theorem LeadsTo.inner_above {above above' : Option PageId} {page leaf : PageId}
    (h : tree.LeadsTo content key above page above' leaf) :
    above' = above ∨ ∃ parent, above' = some parent ∧ (Header.of (content parent)).level ≠ 0 := by
  induction h with
  | here level => exact .inl rfl
  | down inner routed rest ih =>
    rcases ih with same | below
    · exact .inr ⟨_, same, inner⟩
    · exact .inr below

/-- From the root the key leads to a leaf, which has a page above it unless it is the root. -/
def Leads (tree : Tree K V) (content : PageId → Page) (key : K) (above : Option PageId)
    (leaf : PageId) : Prop :=
  ∃ root, tree.anchor.root = some root ∧ tree.LeadsTo content key none root above leaf

omit [FixedWidth V] in
theorem Leads.unique {above above' : Option PageId} {leaf leaf' : PageId}
    (h : tree.Leads content key above leaf) (h' : tree.Leads content key above' leaf') :
    above = above' ∧ leaf = leaf' := by
  obtain ⟨root, anchored, leads⟩ := h
  obtain ⟨root', anchored', leads'⟩ := h'
  cases anchored.symm.trans anchored'
  exact leads.unique leads'

omit [FixedWidth V] in
theorem Leads.inner_above {parent leaf : PageId} (h : tree.Leads content key (some parent) leaf) :
    (Header.of (content parent)).level ≠ 0 := by
  obtain ⟨root, -, leads⟩ := h
  obtain none | ⟨parent', same, inner⟩ := leads.inner_above
  · cases none
  · cases same
    exact inner

structure Bears (tree : Tree K V) (content : PageId → Page) (key : K) (above : Option PageId)
    (leaf : PageId) : Prop where
  leads : tree.Leads content key above leaf
  answers : ∃ value, tree.leaf.lookup (content leaf) key = .ok (some value)

def Added (segment : SegmentId) (n n' : Nat) (page : PageId) : Prop :=
  ¬ Minted segment n page ∧ Minted segment n' page

theorem Added.mono {segment : SegmentId} {n n' n'' : Nat} {page : PageId}
    (h : Added segment n n' page) (more : n' ≤ n'') : Added segment n n'' page :=
  ⟨h.1, h.2.mono more⟩

/-- A program has gone on from splits and done nothing but take new pages. -/
structure Ahead (tree : Tree K V) (own : PageId → Prop) (content : PageId → Page)
    (partings : List Parting) (anchor : Anchor) (content' : PageId → Page) (trail : Trail) :
    Prop where
  splits : tree.Splits own content partings anchor content'
  root : trail.anchor.root = anchor.root
  taken : anchor.nextPageNo ≤ trail.anchor.nextPageNo
  same : ∀ page, ¬ Added tree.segment anchor.nextPageNo trail.anchor.nextPageNo page →
    trail.content page = content' page
  touched : ∀ page ∈ trail.touched, (∃ parting ∈ partings, page ∈ parting.pages) ∨
    Added tree.segment anchor.nextPageNo trail.anchor.nextPageNo page

def Stopped (tree : Tree K V) (own : PageId → Prop) (content : PageId → Page) (trail : Trail) :
    Prop :=
  ∃ partings anchor content', tree.Ahead own content partings anchor content' trail

theorem Ahead.sprout (h : tree.Ahead own content partings anchor content' trail)
    (room : trail.anchor.nextPageNo ≤ maxPageNo) (holds : List Hold) :
    tree.Ahead own content partings anchor content' (trail.sprout tree.segment holds) := by
  have added : Added tree.segment anchor.nextPageNo (trail.anchor.nextPageNo + 1)
      (.ofParts tree.segment trail.anchor.nextPageNo) := by
    obtain ⟨new, minted⟩ := minted_next tree.segment room
    exact ⟨fun old => new (old.mono h.taken), minted⟩
  refine ⟨h.splits, h.root, Nat.le_succ_of_le h.taken, fun page old => ?_, fun page mem => ?_⟩
  · have apart : page ≠ .ofParts tree.segment trail.anchor.nextPageNo := by
      rintro rfl
      exact old added
    refine (Function.update_of_ne apart _ _).trans (h.same page fun before => old ?_)
    exact before.mono (Nat.le_succ _)
  · rcases List.mem_cons.mp mem with rfl | mem
    · exact .inr added
    · exact (h.touched page mem).imp_right (·.mono (Nat.le_succ _))

theorem sprout_goes {α : Type} {next : Pinned → Access α} {post : α → Trail → Prop}
    (h : tree.Ahead own content partings anchor content' trail)
    (held : Held .exclusive pins trail.holds)
    (goes_on : ∀ guard holds, trail.anchor.nextPageNo ≤ maxPageNo →
      (∀ other ∈ pins, other.page ≠ .ofParts tree.segment trail.anchor.nextPageNo) →
      Held .exclusive
        (⟨guard, .ofParts tree.segment trail.anchor.nextPageNo, Page.zeroed⟩ :: pins) holds →
      Goes tree.segment (tree.Stopped own content)
        (next ⟨guard, .ofParts tree.segment trail.anchor.nextPageNo, Page.zeroed⟩) post
        (trail.sprout tree.segment holds)) :
    Goes tree.segment (tree.Stopped own content)
      (Access.mint >>= fun page => Access.create page >>= next) post trail := by
  rw [Goes.bind_iff, Goes.mint_iff]
  split
  · exact ⟨partings, anchor, content', h⟩
  · rename_i room
    have room := Nat.le_of_not_lt room
    rw [Goes.bind_iff]
    refine Goes.create_held held ⟨partings, anchor, content', ?_⟩ fun guard holds apart held =>
      goes_on guard holds room apart held
    exact ⟨h.splits, h.root, Nat.le_succ_of_le h.taken,
      fun page old => h.same page fun before => old (before.mono (Nat.le_succ _)),
      fun page mem => (h.touched page mem).imp_right (·.mono (Nat.le_succ _))⟩

/-- What a descent with exclusive guards has come to: it has made some splits, it holds a node and
its parent, and as long as it split nothing it is where the key leads. A full node is not the one
that was just split. -/
structure Descended (tree : Tree K V) (own : PageId → Prop) (content : PageId → Page) (key : K)
    (partings : List Parting) (descent : Descent) (trail : Trail) : Prop where
  splits : tree.Splits own content partings trail.anchor trail.content
  held : Held .exclusive (descent.current :: descent.parent.toList) trail.holds
  reads : ∀ pinned ∈ descent.current :: descent.parent.toList,
    trail.content pinned.page = pinned.bytes ∧ Gained own partings pinned.page
  apart : ∀ parent ∈ descent.parent, parent.page ≠ descent.current.page
  top : descent.parent = none → partings = [] ∧ tree.anchor.root = some descent.current.page
  below : ∀ parent ∈ descent.parent, tree.capacities.Full descent.current.bytes →
    (Header.of parent.bytes).level ≠ 0 ∧ descent.current.page ∈ tree.inner.pointers parent.bytes
  touched : ∀ page ∈ trail.touched, ∃ parting ∈ partings, page ∈ parting.pages
  leads : partings = [] → ∀ above leaf, tree.LeadsTo content key
    (descent.parent.map Pinned.page) descent.current.page above leaf →
    tree.Leads content key above leaf

namespace Descended

variable {descent : Descent}

theorem ahead (h : tree.Descended own content key partings descent trail) :
    tree.Ahead own content partings trail.anchor trail.content trail :=
  ⟨h.splits, rfl, Nat.le_refl _, fun _ _ => rfl, fun page mem => .inl (h.touched page mem)⟩

theorem stopped (h : tree.Descended own content key partings descent trail) :
    tree.Stopped own content trail.settled :=
  ⟨partings, trail.anchor, trail.content, h.splits, rfl, Nat.le_refl _, fun _ _ => rfl,
    h.ahead.touched⟩

theorem begin (key : K) {root : PageId} (anchored : tree.anchor.root = some root) (mem : own root)
    {guard : GuardId} {holds : List Hold}
    (held : Held .exclusive [⟨guard, root, content root⟩] holds) :
    tree.Descended own content key [] ⟨none, ⟨guard, root, content root⟩⟩
      { (⟨⟨tree.anchor, content, []⟩, [], []⟩ : Trail).settled with holds } := by
  refine ⟨.none, held, ?_, nofun, fun _ => ⟨rfl, anchored⟩, nofun, nofun, fun _ above leaf leads =>
    ⟨root, anchored, leads⟩⟩
  intro pinned listed
  obtain rfl := List.mem_singleton.mp listed
  exact ⟨rfl, .inl mem⟩

end Descended

/-- What a split has come to: it holds the halves of a node, which have room, and their parent. -/
structure Forked (tree : Tree K V) (own : PageId → Prop) (content : PageId → Page)
    (partings : List Parting) (parted : Parted K) (trail : Trail) : Prop where
  splits : tree.Splits own content partings trail.anchor trail.content
  some : partings ≠ []
  held : Held .exclusive [parted.left, parted.right, parted.parent] trail.holds
  left : trail.content parted.left.page = parted.left.bytes ∧ Gained own partings parted.left.page
  right :
    trail.content parted.right.page = parted.right.bytes ∧ Gained own partings parted.right.page
  parent :
    trail.content parted.parent.page = parted.parent.bytes ∧ Gained own partings parted.parent.page
  apart : parted.parent.page ≠ parted.left.page ∧ parted.parent.page ≠ parted.right.page
  vacant : ¬ tree.capacities.Full parted.left.bytes ∧ ¬ tree.capacities.Full parted.right.bytes
  touched : ∀ page ∈ trail.touched, ∃ parting ∈ partings, page ∈ parting.pages

theorem Forked.of_carry (before : List Parting) {parting : Parting} {halves : Halves K pageSize}
    {above : Page} {left right parent : GuardId} (splits : tree.Splits own content
      (before ++ [parting]) trail.anchor (parting.carry content' halves above))
    (written : trail.content = parting.carry content' halves above)
    (held : Held .exclusive [⟨left, parting.node, halves.left⟩, ⟨right, parting.sibling,
      halves.right⟩, ⟨parent, parting.parent, above⟩] trail.holds)
    (node : Gained own before parting.node)
    (vacant : ¬ tree.capacities.Full halves.left ∧ ¬ tree.capacities.Full halves.right)
    (apart : parting.parent ≠ parting.node) (apart' : parting.parent ≠ parting.sibling)
    (apart'' : parting.node ≠ parting.sibling)
    (touched : ∀ page ∈ trail.touched,
      page ∈ parting.pages ∨ ∃ parting ∈ before, page ∈ parting.pages) :
    tree.Forked own content (before ++ [parting]) ⟨⟨left, parting.node, halves.left⟩,
      ⟨right, parting.sibling, halves.right⟩, halves.separator,
      ⟨parent, parting.parent, above⟩⟩ trail := by
  have gained {page : PageId} (there : Gained own before page ∨ page = parting.sibling ∨
      page = parting.parent) : Gained own (before ++ [parting]) page := by
    rw [gained_concat]
    exact there
  refine ⟨written ▸ splits, List.concat_ne_nil _ _, held, ⟨?_, gained (.inl node)⟩,
    ⟨?_, gained (.inr (.inl rfl))⟩, ⟨?_, gained (.inr (.inr rfl))⟩, ⟨apart, apart'⟩, vacant,
    fun page mem => ?_⟩
  · rw [written, Parting.carry_node apart]
  · rw [written, Parting.carry_sibling apart' apart'']
  · rw [written, Parting.carry_parent]
  · rcases touched page mem with here | ⟨earlier, listed, here⟩
    · exact ⟨parting, List.mem_concat_self, here⟩
    · exact ⟨earlier, List.mem_append_left _ listed, here⟩

/-- Where an insertion into a tree has come to: it has made its splits and then put the entry into a
leaf, and nothing else. -/
structure Entered (tree : Tree K V) (own : PageId → Prop) (content : PageId → Page) (key : K)
    (value : V) (partings : List Parting) (content' : PageId → Page) (leaf : PageId)
    (trail : Trail) : Prop where
  splits : tree.Splits own content partings trail.anchor content'
  gained : Gained own partings leaf
  level : (Header.of (content' leaf)).level = 0
  inserted : ∃ added,
    (tree.leaf.insert key value).run (content' leaf) = .ok (added, trail.content leaf)
  same : ∀ page, page ≠ leaf → trail.content page = content' page
  touched : ∀ page ∈ trail.touched, page = leaf ∨ ∃ parting ∈ partings, page ∈ parting.pages
  lately : leaf ∈ trail.lately
  leads : partings = [] → ∃ above, tree.Leads content key above leaf

/-- Where an insertion into a tree without pages has come to: the tree has a leaf for its root. -/
structure Planted (tree : Tree K V) (content : PageId → Page) (key : K) (value : V)
    (leaf : PageId) (trail : Trail) : Prop where
  bare : tree.anchor.root = none
  new : Added tree.segment tree.anchor.nextPageNo (tree.anchor.nextPageNo + 1) leaf
  anchor : trail.anchor = ⟨some leaf, tree.anchor.nextPageNo + 1⟩
  level : (Header.of (trail.content leaf)).level = 0
  listing : tree.leaf.listing (trail.content leaf) = [(key, value)]
  same : ∀ page, page ≠ leaf → trail.content page = content page
  touched : ∀ page ∈ trail.touched, page = leaf
  lately : leaf ∈ trail.lately

structure Still (tree : Tree K V) (content : PageId → Page) (trail : Trail) : Prop where
  anchor : trail.anchor = tree.anchor
  content : trail.content = content
  touched : trail.touched = []

/-- The page is that above a leaf of these bytes, which are empty, and has other children. -/
def Unlinks (content : PageId → Page) (above : Option PageId) (bytes : Page) (page : PageId) :
    Prop :=
  above = some page ∧ (Header.of bytes).count = 0 ∧ 1 < (Header.of (content page)).count.toNat

/-- Where an erasure has come to: a key was taken out of a leaf, and the leaf out of the node above
it if it became empty and was not the only one there. -/
structure Cleared (tree : Tree K V) (content : PageId → Page) (key : K) (above : Option PageId)
    (leaf : PageId) (trail : Trail) : Prop where
  anchor : trail.anchor = tree.anchor
  removed : ∃ removed,
    (tree.leaf.erase key).run (content leaf) = .ok (removed, trail.content leaf)
  unlinked : ∀ page, Unlinks content above (trail.content leaf) page → ∃ removed,
    (tree.inner.removeChildFor key).run (content page) = .ok (removed, trail.content page)
  same : ∀ page, page ≠ leaf → ¬ Unlinks content above (trail.content leaf) page →
    trail.content page = content page
  touched : ∀ page, page ∈ trail.touched →
    page = leaf ∨ Unlinks content above (trail.content leaf) page
  lately : ∀ page, page = leaf ∨ Unlinks content above (trail.content leaf) page →
    page ∈ trail.lately

namespace Cleared

variable {leaf parent : PageId} {above : Option PageId} {after bytes : Page}
  {removed removed' : Bool} {holds : List Hold} {lately : List PageId}

theorem of_leaf (ran : (tree.leaf.erase key).run (content leaf) = .ok (removed, after))
    (idle : ∀ page, ¬ Unlinks content above after page) :
    tree.Cleared content key above leaf
      (Trail.put leaf after ⟨⟨tree.anchor, content, holds⟩, [], lately⟩) := by
  have idle' : ∀ page, ¬ Unlinks content above
      ((Trail.put leaf after ⟨⟨tree.anchor, content, holds⟩, [], lately⟩).content leaf) page := by
    rw [Trail.content_put_self]
    exact idle
  refine ⟨rfl, ⟨removed, ?_⟩, fun page there => absurd there (idle' page),
    fun page apart _ => Trail.content_put_of_ne apart, fun page mem => ?_, fun page there => ?_⟩
  · rw [Trail.content_put_self]
    exact ran
  · exact .inl (List.mem_singleton.mp mem)
  · rw [there.resolve_right (idle' page)]
    exact List.mem_cons_self

theorem of_parent (apart : parent ≠ leaf)
    (ran : (tree.leaf.erase key).run (content leaf) = .ok (removed, after))
    (unlinks : Unlinks content (some parent) after parent)
    (ran' : (tree.inner.removeChildFor key).run (content parent) = .ok (removed', bytes)) :
    tree.Cleared content key (some parent) leaf
      ((Trail.put leaf after ⟨⟨tree.anchor, content, holds⟩, [], lately⟩).put parent bytes) := by
  let trail := (Trail.put leaf after ⟨⟨tree.anchor, content, holds⟩, [], lately⟩).put parent bytes
  have at_leaf : trail.content leaf = after := by
    rw [Trail.content_put_of_ne apart.symm, Trail.content_put_self]
  have only (page : PageId) :
      Unlinks content (some parent) (trail.content leaf) page ↔ page = parent := by
    rw [at_leaf]
    exact ⟨fun there => (Option.some.inj there.1).symm, fun here => here ▸ unlinks⟩
  refine ⟨rfl, ⟨removed, by rw [at_leaf]; exact ran⟩, fun page there => ?_, fun page apart' not => ?_,
    fun page mem => ?_, fun page there => ?_⟩
  · obtain rfl := (only page).mp there
    exact ⟨removed', by rw [Trail.content_put_self]; exact ran'⟩
  · rw [only] at not
    rw [Trail.content_put_of_ne not, Trail.content_put_of_ne apart']
  · rw [only]
    exact (List.mem_pair.mp mem).symm
  · rw [only] at there
    rcases there with rfl | rfl
    · exact List.mem_cons_of_mem _ List.mem_cons_self
    · exact List.mem_cons_self

end Cleared

section Walks

variable (suitable : tree.capacities.Suitable K V) (tidy : tree.Tidy own tree.anchor content)
  {descent : Descent}

include suitable tidy

theorem enterChild_goes {failed : Trail → Prop} {post : Descent → Trail → Prop}
    (h : tree.Descended own content key partings descent trail)
    (inner : (Header.of descent.current.bytes).level ≠ 0) (refused : failed trail.settled)
    (goes_on : ∀ descent' trail', tree.Descended own content key partings descent' trail' →
      trail'.touched = trail.touched → post descent' trail') :
    Goes tree.segment failed (tree.enterChild key descent) post trail := by
  obtain ⟨parent, current⟩ := descent
  obtain ⟨at_current, gained⟩ := h.reads current List.mem_cons_self
  have linked := (h.splits.tidy suitable tidy).linked _ gained
  rw [at_current] at linked
  refine Goes.node fun child routed => ?_
  have mem := InnerLayout.childFor_mem suitable.inner (linked inner).2.1 (linked inner).1 routed
  have known := (linked inner).2.2 child mem
  rw [Goes.bind_iff]
  refine Goes.fetch_held h.held refused fun guard holds apart held => ?_
  have down {holds : List Hold}
      (held : Held .exclusive [⟨guard, child, trail.content child⟩, current] holds) :
      tree.Descended own content key partings
        ⟨some current, ⟨guard, child, trail.content child⟩⟩ { trail.settled with holds } := by
    refine ⟨h.splits, held, fun pinned listed => ?_, ?_, nofun, ?_, h.touched, ?_⟩
    · rcases List.mem_cons.mp listed with rfl | listed
      · exact ⟨rfl, known⟩
      · obtain rfl := List.mem_singleton.mp listed
        exact ⟨at_current, gained⟩
    · rintro _ ⟨⟩
      exact apart current List.mem_cons_self
    · rintro _ ⟨⟩ -
      exact ⟨inner, mem⟩
    · rintro rfl above leaf leads
      have untouched := h.splits.of_nil.2
      refine h.leads rfl above leaf (.down ?_ ?_ leads)
      · rw [← untouched, at_current]
        exact inner
      · rw [← untouched, at_current]
        exact routed
  cases parent with
  | none => exact Goes.pure_iff.mpr (goes_on _ _ (down held) rfl)
  | some parent =>
    rw [Goes.bind_iff]
    exact Goes.release_held held
      (List.perm_append_singleton parent [⟨guard, child, trail.content child⟩, current])
      fun holds held => Goes.pure_iff.mpr (goes_on _ _ (down held) rfl)

theorem split_root_goes {current : Pinned} {holds : List Hold} {touched lately : List PageId}
    (h : tree.Descended own content key [] ⟨none, current⟩
      ⟨⟨tree.anchor, content, holds⟩, touched, lately⟩)
    (full : tree.capacities.Full current.bytes) :
    Goes tree.segment (tree.Stopped own content) (tree.split ⟨none, current⟩)
      (fun parted t => ∃ partings, tree.Forked own content partings parted t)
      ⟨⟨tree.anchor, content, holds⟩, touched, lately⟩ := by
  obtain ⟨guard, page, bytes⟩ := current
  obtain ⟨rfl, gained⟩ : content page = bytes ∧ Gained own [] page :=
    h.reads _ List.mem_cons_self
  rw [gained_nil] at gained
  refine Goes.node fun header read => ?_
  rw [Header.read_eq _ suitable.leaf.header] at read
  obtain rfl := Except.ok.inj read
  rw [Goes.bind_iff]
  refine sprout_goes h.ahead h.held fun guard' holds' room apart held => ?_
  refine sprout_goes (h.ahead.sprout room holds') held fun guard'' holds'' room' apart' held => ?_
  refine Goes.pure_iff.mpr (Goes.node fun halves halved => ?_)
  rw [Goes.bind_iff]
  refine Goes.write_held held (List.mem_cons_of_mem _ List.mem_cons_self) ?_
  rw [Goes.bind_iff]
  refine Goes.write_held held
    (List.mem_cons_of_mem _ (List.mem_cons_of_mem _ List.mem_cons_self)) ?_
  refine Goes.node fun ⟨_, above⟩ formatted => ?_
  rw [Goes.bind_iff]
  refine Goes.write_held held List.mem_cons_self ?_
  simp only [Option.isNone_none, if_true]
  rw [Goes.bind_iff, Goes.setRoot_iff, Goes.pure_iff]
  let parting : Parting := ⟨page, .ofParts tree.segment tree.anchor.nextPageNo,
    .ofParts tree.segment (tree.anchor.nextPageNo + 1)⟩
  have parts : tree.Parts tree.anchor.nextPageNo content parting halves := ⟨full, room, rfl, halved⟩
  have written : Function.update (Function.update (Function.update (Function.update
      (Function.update content parting.sibling Page.zeroed) parting.parent Page.zeroed)
      parting.sibling halves.right) page halves.left) parting.parent above =
      parting.carry content halves above :=
    parting.carry_congr fun other apart apart' => by
      rw [Function.update_of_ne apart', Function.update_of_ne apart]
  refine ⟨[parting], Forked.of_carry []
    (.promoted parts (h.top rfl).2 room' rfl formatted) written
    (held.relabel (List.reverse_perm _).symm) (.inl gained) ?_ ?_ ?_ ?_ ?_⟩
  · exact (halve_vacant suitable (tidy.linked _ gained) (tidy.stocked _ gained) halved).1
  · exact (apart' _ (List.mem_cons_of_mem _ List.mem_cons_self)).symm
  · exact (apart' _ List.mem_cons_self).symm
  · exact apart _ List.mem_cons_self
  · intro other mem
    rcases List.mem_append.mp (show other ∈ [parting.parent, page, parting.sibling,
      parting.parent, parting.sibling] ++ touched from mem) with here | earlier
    · exact .inl (by simp [Parting.pages, parting] at here ⊢; tauto)
    · exact .inr (h.touched other earlier)

theorem split_child_goes {parent current : Pinned}
    (h : tree.Descended own content key partings ⟨some parent, current⟩ trail)
    (full : tree.capacities.Full current.bytes) :
    Goes tree.segment (tree.Stopped own content) (tree.split ⟨some parent, current⟩)
      (fun parted t => ∃ partings, tree.Forked own content partings parted t) trail := by
  obtain ⟨guard, page, bytes⟩ := current
  obtain ⟨guard', top, above⟩ := parent
  obtain ⟨rfl, gained⟩ : trail.content page = bytes ∧ Gained own partings page :=
    h.reads _ List.mem_cons_self
  obtain ⟨rfl, known⟩ : trail.content top = above ∧ Gained own partings top :=
    h.reads _ (List.mem_cons_of_mem _ List.mem_cons_self)
  obtain ⟨inner, child⟩ := h.below _ rfl full
  have before := h.splits.tidy suitable tidy
  refine Goes.node fun header read => ?_
  rw [Header.read_eq _ suitable.leaf.header] at read
  obtain rfl := Except.ok.inj read
  rw [Goes.bind_iff]
  refine sprout_goes h.ahead h.held fun guard'' holds room apart held => ?_
  refine Goes.pure_iff.mpr (Goes.node fun halves halved => ?_)
  rw [Goes.bind_iff]
  refine Goes.write_held held List.mem_cons_self ?_
  rw [Goes.bind_iff]
  refine Goes.write_held held (List.mem_cons_of_mem _ List.mem_cons_self) ?_
  refine Goes.node fun ⟨_, above⟩ inserted => ?_
  rw [Goes.bind_iff]
  refine Goes.write_held held
    (List.mem_cons_of_mem _ (List.mem_cons_of_mem _ List.mem_cons_self)) ?_
  simp only [Option.isNone_some, Bool.false_eq_true, if_false]
  refine Goes.pure_iff.mpr ?_
  obtain ⟨added, inserted⟩ := Edit.run_of_discard inserted
  let parting : Parting := ⟨page, .ofParts tree.segment trail.anchor.nextPageNo, top⟩
  have parts : tree.Parts trail.anchor.nextPageNo trail.content parting halves :=
    ⟨full, room, rfl, halved⟩
  have written : Function.update (Function.update (Function.update
      (Function.update trail.content parting.sibling Page.zeroed)
      parting.sibling halves.right) page halves.left) top above =
      parting.carry trail.content halves above :=
    parting.carry_congr fun other apart _ => Function.update_of_ne apart _ _
  refine ⟨partings ++ [parting], Forked.of_carry partings
    (.hooked h.splits parts known inner child inserted) written
    (held.relabel (.swap _ _ _)) gained ?_ ?_ ?_ ?_ ?_⟩
  · exact (halve_vacant suitable (before.linked _ gained) (before.stocked _ gained) halved).1
  · exact h.apart _ rfl
  · exact apart _ (List.mem_cons_of_mem _ List.mem_cons_self)
  · exact apart _ List.mem_cons_self
  · intro other mem
    rcases List.mem_append.mp (show other ∈ [top, page, parting.sibling, parting.sibling] ++
      trail.touched from mem) with here | earlier
    · exact .inl (by simp [Parting.pages, parting] at here ⊢; tauto)
    · exact .inr (h.touched other earlier)

/-- A split that is not refused a page has cut the node in two. -/
theorem split_goes (h : tree.Descended own content key partings descent trail)
    (full : tree.capacities.Full descent.current.bytes) :
    Goes tree.segment (tree.Stopped own content) (tree.split descent)
      (fun parted t => ∃ partings, tree.Forked own content partings parted t) trail := by
  obtain ⟨parent, current⟩ := descent
  cases parent with
  | some parent => exact split_child_goes suitable tidy h full
  | none =>
    obtain ⟨⟨start, pages, holds⟩, touched, lately⟩ := trail
    obtain ⟨rfl, -⟩ := h.top rfl
    obtain ⟨rfl, rfl⟩ : start = tree.anchor ∧ pages = content := h.splits.of_nil
    exact split_root_goes suitable tidy h full

theorem enterHalf_goes (h : tree.Descended own content key partings descent trail)
    (full : tree.capacities.Full descent.current.bytes) :
    Goes tree.segment (tree.Stopped own content) (tree.enterHalf key descent)
      (fun descent t => ∃ partings, tree.Descended own content key partings descent t) trail := by
  refine (split_goes suitable tidy h full).andThen ?_
  rintro parted t ⟨partings, forked⟩
  have down {half : Pinned} {holds : List Hold}
      (held : Held .exclusive [half, parted.parent] holds)
      (at_half : t.content half.page = half.bytes ∧ Gained own partings half.page)
      (vacant : ¬ tree.capacities.Full half.bytes) (apart : parted.parent.page ≠ half.page) :
      ∃ partings, tree.Descended own content key partings ⟨some parted.parent, half⟩
        { t with holds } := by
    refine ⟨partings, forked.splits, held, fun pinned listed => ?_, ?_, nofun, ?_, forked.touched,
      fun none => absurd none forked.some⟩
    · rcases List.mem_cons.mp listed with rfl | listed
      · exact at_half
      · obtain rfl := List.mem_singleton.mp listed
        exact forked.parent
    · rintro _ ⟨⟩
      exact apart
    · rintro _ ⟨⟩ full
      exact absurd full vacant
  split
  · rw [Goes.bind_iff]
    exact Goes.release_held forked.held (.refl _) fun holds held => Goes.pure_iff.mpr
      (down held forked.right forked.vacant.2 forked.apart.2)
  · rw [Goes.bind_iff]
    exact Goes.release_held forked.held (.swap _ _ _) fun holds held => Goes.pure_iff.mpr
      (down held forked.left forked.vacant.1 forked.apart.1)

theorem insertFrom_goes (h : tree.Descended own content key partings descent trail) (steps : Nat) :
    Goes tree.segment (tree.Stopped own content) (tree.insertFrom key value steps descent)
      (fun _ t => ∃ partings content' leaf,
        tree.Entered own content key value partings content' leaf t) trail := by
  induction steps generalizing partings descent trail with
  | zero => exact Goes.violate _
  | succ steps ih =>
    obtain ⟨at_current, gained⟩ := h.reads descent.current List.mem_cons_self
    rw [insertFrom]
    refine Goes.node fun header read => ?_
    have at_header := read
    rw [Header.read_eq _ suitable.leaf.header] at at_header
    obtain rfl := Except.ok.inj at_header
    have on_half (full : tree.capacities.Full descent.current.bytes) :
        Goes tree.segment (tree.Stopped own content)
          (tree.enterHalf key descent >>= tree.insertFrom key value steps)
          (fun _ t => ∃ partings content' leaf,
            tree.Entered own content key value partings content' leaf t) trail := by
      refine (enterHalf_goes suitable tidy h full).andThen ?_
      rintro descent' t ⟨_, down⟩
      exact ih down
    split
    · rename_i leaf
      have level := level_of_leaf suitable read leaf
      refine Goes.node fun position searched => ?_
      split
      · refine Goes.node ?_
        rintro ⟨added, bytes⟩ ran
        refine Goes.write_held h.held List.mem_cons_self ?_
        rw [← at_current] at level ran
        refine ⟨partings, trail.content, descent.current.page, h.splits, gained, level,
          ⟨added, ?_⟩, fun page => Trail.content_put_of_ne, fun page mem => ?_,
          List.mem_cons_self, fun unsplit => ?_⟩
        · rw [Trail.content_put_self]
          exact ran
        · exact (List.mem_cons.mp mem).imp_right (h.touched page)
        · subst unsplit
          rw [h.splits.of_nil.2] at level
          exact ⟨_, h.leads rfl _ _ (.here level)⟩
      · rename_i crowded
        refine on_half ?_
        rw [Capacities.Full, if_pos level]
        simp only [Bool.or_eq_true, decide_eq_true_eq, not_or, Nat.not_lt] at crowded
        exact crowded.2
    · rename_i not_leaf
      have level := level_of_inner suitable read not_leaf
      split
      · rw [Goes.bind_iff]
        exact enterChild_goes suitable tidy h level h.stopped fun _ _ down _ => ih down
      · rename_i crowded
        refine on_half ?_
        rw [Capacities.Full, if_neg level]
        exact Nat.le_of_not_lt crowded

omit tidy in
theorem plant_goes (bare : tree.anchor.root = none) :
    Goes tree.segment (tree.Stopped own content) (tree.plant key value)
      (fun _ t => ∃ leaf, tree.Planted content key value leaf t)
      ⟨⟨tree.anchor, content, []⟩, [], []⟩ := by
  have ahead : tree.Ahead own content [] tree.anchor content
      ⟨⟨tree.anchor, content, []⟩, [], []⟩ :=
    ⟨.none, rfl, Nat.le_refl _, fun _ _ => rfl, nofun⟩
  refine sprout_goes ahead (.nothing _) fun guard holds room _ held => ?_
  refine Goes.node fun ⟨_, bytes⟩ ran => ?_
  rw [Goes.bind_iff]
  refine Goes.write_held held List.mem_cons_self ?_
  rw [Goes.setRoot_iff]
  obtain ⟨planted, ran', listing, level⟩ := LeafLayout.plant_eq suitable.leaf
    (Nat.lt_of_lt_of_le Nat.two_pos suitable.leaf_least) Page.zeroed key value
  obtain ⟨-, rfl⟩ := Prod.mk.inj (Except.ok.inj (ran.symm.trans ran'))
  refine ⟨_, bare, minted_next tree.segment room, rfl, ?_, ?_, fun page apart => ?_,
    fun page mem => ?_, List.mem_cons_self⟩
  · rw [Trail.content_put_self]
    exact level
  · rw [Trail.content_put_self]
    exact listing
  · rw [Trail.content_put_of_ne apart]
    exact Function.update_of_ne apart ..
  · rcases List.mem_cons.mp mem with here | mem
    · exact here
    · exact List.mem_singleton.mp mem

theorem insert_goes : Goes tree.segment (tree.Stopped own content) (tree.insert key value)
    (fun _ t => (∃ leaf, tree.Planted content key value leaf t) ∨
      ∃ partings content' leaf, tree.Entered own content key value partings content' leaf t)
    ⟨⟨tree.anchor, content, []⟩, [], []⟩ := by
  unfold insert
  cases anchored : tree.anchor.root with
  | none => exact (plant_goes suitable anchored).imp (fun _ _ => .inl) fun _ stopped => stopped
  | some root =>
    rw [Goes.bind_iff]
    refine Goes.fetch_held (.nothing _) ?_ fun guard holds _ held => ?_
    · exact ⟨[], tree.anchor, content, .none, rfl, Nat.le_refl _, fun _ _ => rfl, nofun⟩
    · have begun := Descended.begin key anchored (tidy.root root anchored) held
      exact (insertFrom_goes suitable tidy begun _).imp (fun _ _ => .inr) fun _ stopped => stopped

theorem descendExclusive_goes (h : tree.Descended own content key [] descent trail)
    (untouched : trail.touched = []) (steps : Nat) :
    Goes tree.segment (tree.Still content) (tree.descendExclusive key steps descent)
      (fun descent t => tree.Descended own content key [] descent t ∧ t.touched = [] ∧
        (Header.of descent.current.bytes).level = 0) trail := by
  induction steps generalizing descent trail with
  | zero => exact Goes.violate _
  | succ steps ih =>
    rw [descendExclusive]
    refine Goes.node fun header read => ?_
    split
    · rename_i leaf
      exact Goes.pure_iff.mpr ⟨h, untouched, level_of_leaf suitable read leaf⟩
    · rename_i not_leaf
      obtain ⟨anchor, same⟩ := h.splits.of_nil
      rw [Goes.bind_iff]
      exact enterChild_goes suitable tidy h (level_of_inner suitable read not_leaf)
        ⟨anchor, same, untouched⟩ fun _ _ down kept => ih down (kept.trans untouched)

theorem unlink_goes {leaf top : PageId} {guard guard' : GuardId} {after : Page} {removed : Bool}
    {holds : List Hold} {lately : List PageId}
    (held : Held .exclusive [⟨guard, leaf, content leaf⟩, ⟨guard', top, content top⟩] holds)
    (apart : top ≠ leaf) (known : own top) (inner : (Header.of (content top)).level ≠ 0)
    (ran : (tree.leaf.erase key).run (content leaf) = .ok (removed, after))
    (empty : (Header.of after).count = 0)
    (tidy' : tree.Tidy own tree.anchor (Function.update content leaf after)) :
    Goes tree.segment (tree.Still content) (tree.unlink key ⟨guard', top, content top⟩)
      (fun _ t => tree.Cleared content key (some top) leaf t ∧ tree.Tidy own tree.anchor t.content)
      (Trail.put leaf after ⟨⟨tree.anchor, content, holds⟩, [], lately⟩) := by
  refine Goes.node fun children counted => ?_
  rw [inner_eq, InnerLayout.count_eq suitable.inner, InnerLayout.length_pointers] at counted
  obtain rfl := Except.ok.inj counted
  split
  · rename_i more
    refine Goes.node fun ⟨removed', bytes⟩ ran' =>
      Goes.write_held held (List.mem_cons_of_mem _ List.mem_cons_self) ?_
    have kept := (InnerLayout.removeChildFor_keeps_level _ _).of_run ran'
    refine ⟨.of_parent apart ran ⟨rfl, empty, more⟩ ran', tidy'.write
      ((tidy.linked top known).remove suitable ?_ ran')
      (Capacities.stocked_of_inner (kept.trans_ne inner)) top⟩
    rw [InnerLayout.length_pointers]
    exact more
  · rename_i few
    refine Goes.pure_iff.mpr ⟨.of_leaf ran ?_, tidy'⟩
    rintro page ⟨⟨⟩, -, more⟩
    exact few more

/-- An erasure finds no key and does nothing, or takes the key out of the leaf it is in. -/
theorem erase_goes : Goes tree.segment (tree.Still content) (tree.erase key)
    (fun _ t => (tree.Still content t ∧ ∀ above leaf, ¬ tree.Bears content key above leaf) ∨
      ∃ above leaf, tree.Bears content key above leaf ∧ tree.Cleared content key above leaf t ∧
        tree.Tidy own tree.anchor t.content)
    ⟨⟨tree.anchor, content, []⟩, [], []⟩ := by
  unfold erase
  cases anchored : tree.anchor.root with
  | none =>
    refine Goes.pure_iff.mpr (.inl ⟨⟨rfl, rfl, rfl⟩, fun above leaf bears => ?_⟩)
    obtain ⟨root, rooted, -⟩ := bears.leads
    cases anchored.symm.trans rooted
  | some root =>
    rw [Goes.bind_iff]
    refine Goes.fetch_held (.nothing _) ⟨rfl, rfl, rfl⟩ fun guard holds _ held => ?_
    have begun := Descended.begin key anchored (tidy.root root anchored) held
    refine (descendExclusive_goes suitable tidy begun rfl _).andThen ?_
    rintro ⟨parent, guard, leaf, bytes⟩ ⟨⟨start, pages, holds⟩, touched, lately⟩ ⟨h, none, level⟩
    obtain ⟨rfl, rfl⟩ : start = tree.anchor ∧ pages = content := h.splits.of_nil
    obtain ⟨rfl, gained⟩ : pages leaf = bytes ∧ Gained own [] leaf := h.reads _ List.mem_cons_self
    obtain rfl : touched = [] := none
    rw [gained_nil] at gained
    have leads := h.leads rfl _ _ (.here level)
    have stocked := tidy.stocked leaf gained
    refine Goes.node fun position searched => ?_
    have answers := LeafLayout.lookup_found suitable.leaf
      ((Capacities.stocked_iff level).mp stocked) searched
    split
    case isFalse absent =>
      refine Goes.pure_iff.mpr (.inl ⟨⟨rfl, rfl, rfl⟩, fun above leaf' bears => absent ?_⟩)
      obtain ⟨rfl, rfl⟩ := bears.leads.unique leads
      exact answers.mp bears.answers
    rename_i found
    have bears : tree.Bears pages key (parent.map Pinned.page) leaf := ⟨leads, answers.mpr found⟩
    refine Goes.node fun ⟨removed, after⟩ ran => ?_
    have kept := (LeafLayout.erase_keeps_level _ _).of_run ran
    have tidy' : tree.Tidy own tree.anchor (Function.update pages leaf after) :=
      tidy.write (.of_leaf (kept.trans level)) (stocked.erase suitable level ran) leaf
    rw [Goes.bind_iff]
    refine Goes.write_held h.held List.mem_cons_self ?_
    refine Goes.node fun left counted => ?_
    rw [leaf_eq, LeafLayout.count_eq suitable.leaf, LeafLayout.length_listing] at counted
    obtain rfl := Except.ok.inj counted
    split
    case isFalse some_left =>
      refine Goes.pure_iff.mpr (.inr ⟨_, leaf, bears, .of_leaf ran fun page unlinks => ?_, tidy'⟩)
      exact some_left (congrArg UInt16.toNat unlinks.2.1)
    rename_i empty
    cases parent with
    | none => exact Goes.pure_iff.mpr (.inr ⟨_, leaf, bears, .of_leaf ran nofun, tidy'⟩)
    | some parent =>
      obtain ⟨guard', top, bytes⟩ := parent
      obtain ⟨rfl, known⟩ : pages top = bytes ∧ Gained own [] top :=
        h.reads _ (List.mem_cons_of_mem _ List.mem_cons_self)
      rw [gained_nil] at known
      exact (unlink_goes suitable tidy h.held (h.apart _ rfl) known leads.inner_above ran
        (UInt16.toNat_inj.mp empty) tidy').imp
        (fun _ _ cleared => .inr ⟨_, leaf, bears, cleared⟩) fun _ still => still

end Walks

end Tree

end PagedIndex
