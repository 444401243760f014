import PagedIndex.Proofs.Tree.Handover
import PagedIndex.Proofs.Tree.Heights

/-!
# Empty leaves stand alone

A leaf that loses its last entry leaves its parent, unless it is the only page there. No other call
brings an empty leaf beside another page: both halves of a leaf that is split have entries, the
children on each side of an inner node that is split were beside each other before, and a node gets
a second child only when its first was split. So a leaf without entries is the root, or the only
child of its parent.
-/

namespace PagedIndex

namespace Tree

open Access

variable {K V : Type} [IndexKey K] [FixedWidth V] {tree : Tree K V} {own own' : PageId → Prop}
  {content content' : PageId → Page} {anchor : Anchor} {partings : List Parting}
  {parting : Parting} {halves : Halves K pageSize} {above : Page} {key : K} {value : V}
  {leaf : PageId} {trail : Trail} {n : Nat}

/-- No leaf without entries has another page beside it. -/
def Trim (tree : Tree K V) (own : PageId → Prop) (content : PageId → Page) : Prop :=
  ∀ parent, own parent → ∀ child ∈ (tree.nodes content parent).pointers,
    ∀ other ∈ (tree.nodes content parent).pointers, other ≠ child →
      tree.nodes content child ≠ .leaf []

namespace Trim

theorem mono (h : tree.Trim own content) (fewer : ∀ page, own' page → own page) :
    tree.Trim own' content := fun parent mem => h parent (fewer parent mem)

theorem congr (h : tree.Trim own content) (tidy : tree.Tidy own anchor content)
    (same : ∀ page, own page → content' page = content page) : tree.Trim own content' := by
  intro parent mem child listed other listed' apart
  simp only [nodes, same parent mem] at listed listed' ⊢
  obtain ⟨inner, among⟩ := Node.mem_pointers_iff.mp listed
  rw [same child (tidy.child_mem mem inner among)]
  exact h parent mem child listed other listed' apart

theorem write_leaf (h : tree.Trim own content) {listed : List (K × V)}
    (node : tree.nodes content' leaf = .leaf listed)
    (alone : listed = [] → ∀ parent, own parent → leaf ∈ (tree.nodes content parent).pointers →
      ∀ other ∈ (tree.nodes content parent).pointers, other = leaf)
    (same : ∀ page, page ≠ leaf → content' page = content page) : tree.Trim own content' := by
  intro parent mem child at_child other at_other apart
  by_cases is_parent : parent = leaf
  · rw [is_parent, node] at at_child
    exact absurd at_child List.not_mem_nil
  rw [nodes, same parent is_parent] at at_child at_other
  by_cases is_leaf : child = leaf
  · subst is_leaf
    rw [node]
    exact fun bare => apart (alone (Node.leaf.inj bare) parent mem at_child other at_other)
  · rw [nodes, same child is_leaf]
    exact h parent mem child at_child other at_other apart

theorem of_bare (bare : tree.anchor.root = none) : tree.Trim (tree.Owns content) content := by
  rintro parent ⟨root, anchored, -⟩
  cases bare.symm.trans anchored

end Trim

section Splits

variable (suitable : tree.capacities.Suitable K V)

include suitable

theorem halve_trims {bytes target : Page} (linked : tree.capacities.Linked K own bytes)
    (stocked : tree.capacities.Stocked bytes)
    (halved : tree.halve (Header.of bytes).level bytes target = .ok halves) :
    ((Node.of tree.capacities halves.left : Node K V) ≠ .leaf [] ∧
      (Node.of tree.capacities halves.right : Node K V) ≠ .leaf []) ∧
    (∀ child ∈ (Node.of tree.capacities halves.left : Node K V).pointers,
      child ∈ (Node.of tree.capacities bytes : Node K V).pointers) ∧
    ∀ child ∈ (Node.of tree.capacities halves.right : Node K V).pointers,
      child ∈ (Node.of tree.capacities bytes : Node K V).pointers := by
  simp only [ne_eq, Node.of_eq_bare_iff, Node.mem_pointers_iff]
  unfold halve at halved
  split at halved
  · rename_i level
    obtain ⟨kept, moved, left, right, -⟩ := stocked.split_counts suitable level halved
    obtain ⟨left_level, right_level⟩ := LeafLayout.split_level suitable.leaf.header halved
    refine ⟨⟨?_, ?_⟩, ?_, ?_⟩
    · rintro ⟨-, none⟩
      rw [none] at left
      exact absurd left.symm (Nat.succ_ne_zero kept)
    · rintro ⟨-, none⟩
      rw [none] at right
      exact absurd right.symm (Nat.succ_ne_zero moved)
    · rintro child ⟨inner, -⟩
      exact absurd (left_level.trans level) inner
    · rintro child ⟨inner, -⟩
      exact absurd right_level inner
  · rename_i inner
    obtain ⟨keep, -, -, left, right, left_level, right_level⟩ :=
      linked.split_cuts suitable inner halved
    refine ⟨⟨?_, ?_⟩, ?_, ?_⟩
    · exact fun bare => inner (left_level.symm.trans bare.1)
    · exact fun bare => inner (right_level.symm.trans bare.1)
    · rw [left]
      exact fun child listed => ⟨inner, List.mem_of_mem_take listed.2⟩
    · rw [right]
      exact fun child listed => ⟨inner, List.mem_of_mem_drop listed.2⟩

/-- What one split preserves, if the node that takes the separator is no empty leaf and has none
among the children that it had before. -/
theorem Trim.parted (h : tree.Trim own content) (tidy : tree.Tidy own anchor content)
    (node : own parting.node) (parts : tree.Parts n content parting halves)
    (filled : (Node.of tree.capacities above : Node K V) ≠ .leaf [])
    (among : ∀ child ∈ (Node.of tree.capacities above : Node K V).pointers,
      child = parting.node ∨ child = parting.sibling ∨ tree.nodes content child ≠ .leaf []) :
    tree.Trim (fun page => own page ∨ page = parting.sibling ∨ page = parting.parent)
      (parting.carry content halves above) := by
  obtain ⟨⟨left_filled, right_filled⟩, left, right⟩ :=
    halve_trims suitable (tidy.linked _ node) (tidy.stocked _ node) parts.halved
  intro parent mem child listed other listed' apart
  -- A leaf that is empty now was empty before, and was not split.
  refine Parting.carry_cases (fun page bytes => (page = parting.node ∨ page = parting.sibling ∨
    tree.nodes content page ≠ .leaf []) → (Node.of tree.capacities bytes : Node K V) ≠ .leaf [])
    (fun _ => filled) (fun _ => left_filled) (fun _ => right_filled)
    (fun not_node new _ old => (old.resolve_left not_node).resolve_left new) ?_
  revert child other mem
  refine Parting.carry_cases (fun page bytes =>
    own page ∨ page = parting.sibling ∨ page = parting.parent →
    ∀ child ∈ (Node.of tree.capacities bytes : Node K V).pointers,
    ∀ other ∈ (Node.of tree.capacities bytes : Node K V).pointers, other ≠ child →
      child = parting.node ∨ child = parting.sibling ∨ tree.nodes content child ≠ .leaf [])
    (fun _ child listed _ _ _ => among child listed) ?_ ?_ ?_
  · exact fun _ child listed other listed' apart =>
      .inr (.inr (h _ node child (left child listed) other (left other listed') apart))
  · exact fun _ child listed other listed' apart =>
      .inr (.inr (h _ node child (right child listed) other (right other listed') apart))
  · intro _ new old mem child listed other listed' apart
    exact .inr (.inr (h parent (mem.resolve_right (not_or.mpr ⟨new, old⟩)) child listed other
      listed' apart))

theorem Splits.trim (splits : tree.Splits own content partings anchor content')
    (tidy : tree.Tidy own tree.anchor content) (h : tree.Trim own content) :
    tree.Trim (Gained own partings) content' := by
  induction splits with
  | none =>
    rw [gained_nil]
    exact h
  | @promoted parting halves above parts root room parent formatted =>
    rw [← List.nil_append [parting], gained_concat, gained_nil]
    have two : 2 ≤ tree.capacities.inner := Nat.le_of_succ_le suitable.inner_least
    obtain ⟨-, pointers, -⟩ := Edit.of_run ((InnerLayout.format_ends suitable.inner Page.zeroed
      _ _ _ _ two).imp (fun _ _ h => h) fun _ _ _ => trivial) formatted
    refine h.parted suitable tidy (tidy.root _ root) parts (fun bare => ?_) fun child listed => ?_
    · have count := InnerLayout.length_pointers (tree.capacities.innerLayout K) above
      rw [(Node.of_eq_bare_iff.mp bare).2, pointers] at count
      cases count
    · have listed := (Node.mem_pointers_iff.mp listed).2
      rw [pointers] at listed
      exact (List.mem_pair.mp listed).imp_right .inl
  | @hooked partings anchor content' parting halves added above before parts known inner child
      inserted ih =>
    have tidy := before.tidy suitable tidy
    have kept := (InnerLayout.insert_keeps_level _ _ _).of_run inserted
    obtain ⟨some, within, -⟩ := tidy.linked _ known inner
    obtain ⟨-, -, among⟩ :=
      Edit.of_run (InnerLayout.insert_among_ends suitable.inner within some) inserted
    rw [gained_concat]
    refine ih.parted suitable tidy (tidy.child_mem known inner child) parts (fun bare => ?_)
      fun other listed => ?_
    · exact inner (kept.symm.trans (Node.of_eq_bare_iff.mp bare).1)
    · rcases among other (Node.mem_pointers_iff.mp listed).2 with listed | same
      -- The node that was split is beside every other child, so none of those is an empty leaf.
      · refine or_iff_not_imp_left.mpr fun apart => .inr ?_
        exact ih _ known other (Node.mem_pointers_iff.mpr ⟨inner, listed⟩) _
          (Node.mem_pointers_iff.mpr ⟨inner, child⟩) (Ne.symm apart)
      · exact .inr (.inl same)

theorem Entered.trim (tidy : tree.Tidy own tree.anchor content) (h : tree.Trim own content)
    (entered : tree.Entered own content key value partings content' leaf trail) :
    tree.Trim (Gained own partings) trail.content := by
  obtain ⟨level, stored, -⟩ := entered.stored suitable tidy
  exact (entered.splits.trim suitable tidy h).write_leaf (Node.of_eq_leaf_iff.mpr ⟨level, rfl⟩)
    (fun none => absurd none (List.ne_nil_of_mem stored)) entered.same

theorem Ahead.trim (tidy : tree.Tidy own tree.anchor content) (h : tree.Trim own content)
    (ahead : tree.Ahead own content partings anchor content' trail) :
    tree.Trim (Gained own partings) trail.content := by
  have tidy' := ahead.splits.tidy suitable tidy
  exact (ahead.splits.trim suitable tidy h).congr tidy' fun page mem =>
    ahead.same page fun added => added.1 (tidy'.minted page mem)

end Splits

theorem Planted.trim (planted : tree.Planted content key value leaf trail) :
    tree.Trim (· = leaf) trail.content := by
  rintro _ rfl child listed
  exact absurd planted.level (Node.mem_pointers_iff.mp listed).1

section Erasures

variable {level : Nat} {root : PageId} {above : Option PageId}
  (suitable : tree.capacities.Suitable K V) (well_formed : tree.WellFormed content level root)
  (anchored : tree.anchor.root = some root)
  (tidy : tree.Tidy (tree.Owns content) tree.anchor content)

include suitable well_formed anchored tidy

omit suitable tidy in
theorem HandsOver.trim {parent neighbour : PageId} {i : Nat}
    (h : tree.Trim (tree.Owns content) content)
    (hands : tree.HandsOver content content' parent leaf neighbour i) :
    tree.Trim (tree.Owns content) content' := by
  intro page owned child mem other mem' apart bare
  obtain ⟨listed, not_leaf⟩ := hands.mem_of_mem well_formed anchored owned mem
  obtain ⟨listed', -⟩ := hands.mem_of_mem well_formed anchored owned mem'
  have inner := (Node.mem_pointers_iff.mp (List.mem_of_getElem? hands.place)).1
  have not_parent : child ≠ parent := by
    rintro rfl
    exact inner ((hands.levels child).symm.trans (Node.of_eq_bare_iff.mp bare).1)
  rw [nodes, hands.others child not_parent not_leaf] at bare
  exact h page owned child listed other listed' apart bare

/-- What an erasure preserves: it leaves an empty leaf only where there is no other page. -/
theorem Cleared.trim (h : tree.Trim (tree.Owns content) content)
    (cleared : tree.Cleared content key above leaf trail)
    (leads : tree.Leads content key above leaf) :
    tree.Trim (tree.Owns content) trail.content := by
  by_cases unlinks : ∃ parent, Unlinks content above (trail.content leaf) parent
  · obtain ⟨parent, unlinks⟩ := unlinks
    obtain ⟨i, neighbour, hands⟩ :=
      cleared.hands_over suitable well_formed anchored tidy leads unlinks
    exact hands.trim well_formed anchored h
  obtain ⟨root', anchored', leads⟩ := leads
  cases anchored.symm.trans anchored'
  obtain ⟨level_zero, -, ended⟩ := leads.last_step suitable tidy ⟨root, anchored, .here⟩
  have node : tree.nodes trail.content leaf = .leaf (tree.leaf.listing (trail.content leaf)) :=
    Node.of_eq_leaf_iff.mpr ⟨(cleared.same_level leaf).trans level_zero, rfl⟩
  refine h.write_leaf node (fun bare parent owned listed other listed' => ?_) fun page apart =>
    cleared.same page apart fun there => unlinks ⟨page, there⟩
  rcases ended with ⟨-, rfl⟩ | ⟨parent', rfl, owned', inner, routed⟩
  · exact absurd listed (well_formed.root_not_child anchored owned)
  obtain ⟨some, within, -⟩ := tidy.linked parent' owned' inner
  have mem := InnerLayout.childFor_mem suitable.inner within some routed
  obtain rfl := well_formed.one_parent anchored owned owned' listed
    (Node.mem_pointers_iff.mpr ⟨inner, mem⟩)
  rw [bare] at node
  by_contra apart
  have mem' := (Node.mem_pointers_iff.mp listed').2
  have two : [leaf, other].Subperm ((tree.capacities.innerLayout K).pointers (content parent)) :=
    List.subperm_of_subset (by simpa using Ne.symm apart) (by simpa using ⟨mem, mem'⟩)
  have many := two.length_le
  rw [InnerLayout.length_pointers] at many
  exact unlinks ⟨parent, rfl, (Node.of_eq_bare_iff.mp node).2, many⟩

end Erasures

/-- Empty leaves stand alone. -/
structure Trimmed (tree : Tree K V) (content : PageId → Page) : Prop where
  /-- A leaf without entries is the root, or the only child of its parent. -/
  alone : ∀ leaf, tree.Owns content leaf → tree.nodes content leaf = .leaf [] →
    tree.anchor.root = some leaf ∨ ∃ parent, tree.Owns content parent ∧
      (tree.nodes content parent).pointers = [leaf] ∧ ∀ other, tree.Owns content other →
        leaf ∈ (tree.nodes content other).pointers → other = parent
  /-- Inner nodes have children. -/
  occupied : ∀ page level separators pointers, tree.Owns content page →
    tree.nodes content page = .inner level separators pointers → pointers ≠ []
  /-- Where there are two children or more, the leaves among them have entries. -/
  filled : ∀ page, tree.Owns content page → 2 ≤ (tree.nodes content page).pointers.length →
    ∀ child ∈ (tree.nodes content page).pointers, tree.nodes content child ≠ .leaf []

theorem Trim.trimmed (h : tree.Trim (tree.Owns content) content)
    (tidy : tree.Tidy (tree.Owns content) tree.anchor content)
    (well_formed : ∀ root, tree.anchor.root = some root → ∃ level,
      tree.WellFormed content level root) : tree.Trimmed content := by
  constructor
  · rintro leaf ⟨root, anchored, reaches⟩ bare
    obtain ⟨level, well_formed⟩ := well_formed root anchored
    cases reaches with
    | here => exact .inl anchored
    | @down parent _ reached mem =>
      have owned : tree.Owns content parent := ⟨root, anchored, reached⟩
      refine .inr ⟨parent, owned, well_formed.only_child anchored owned mem fun other mem' => ?_,
        fun other owned' mem' => well_formed.one_parent anchored owned' owned mem' mem⟩
      by_contra apart
      exact h parent owned leaf mem other mem' apart bare
  · intro page level separators pointers owned node
    obtain ⟨inner, -, -, rfl⟩ := Node.of_eq_inner_iff.mp node
    exact (tidy.linked page owned inner).1
  · intro page owned two child mem bare
    obtain ⟨root, anchored, -⟩ := id owned
    obtain ⟨level, well_formed⟩ := well_formed root anchored
    have only := well_formed.only_child anchored owned mem fun other mem' => by
      by_contra apart
      exact h page owned child mem other mem' apart bare
    rw [only] at two
    exact absurd two (Nat.not_succ_le_self 1)

section Calls

variable {s : Storage} {reached : Reached K V}

theorem trim_of_rested {call : Call K V} (called : tree.call call s = .ok reached)
    (rested : Rested s trail ⟨reached.tree.anchor, reached.storage⟩)
    (tidy : tree.Tidy own trail.anchor trail.content) (h : tree.Trim own trail.content) :
    reached.tree.Trim (reached.tree.Owns reached.storage.content) reached.storage.content := by
  have owns : ∀ page, reached.tree.Owns reached.storage.content page → own page :=
    fun page => (tidy_of_rested called rested tidy).owns
  rw [← rested.content] at h
  rw [tree_of_call called] at owns ⊢
  exact Trim.mono h owns

/-- What an erasure did to a tree. It left the root, the page counter and the height. If it took a
leaf out of a node, the leaf is empty and no page of the tree any more, and the keys that led to it
lead to the page on its left, or to that on its right if it was the first child. -/
structure Prunes (tree : Tree K V) (s : Storage) (reached : Reached K V) : Prop where
  anchor : reached.tree.anchor = tree.anchor
  levels : reached.tree.levels reached.storage.content = tree.levels s.content
  height : tree.Yields .height s (· = .count (tree.levels s.content)) ∧
    reached.tree.Yields .height reached.storage (· = .count (tree.levels s.content))
  hands_over : ∀ parent leaf i, tree.Owns s.content parent →
    (tree.nodes s.content parent).pointers[i]? = some leaf →
    leaf ∉ (reached.tree.nodes reached.storage.content parent).pointers →
    reached.tree.nodes reached.storage.content leaf = .leaf [] ∧
      ¬ reached.tree.Owns reached.storage.content leaf ∧ ∃ neighbour,
      (tree.nodes s.content parent).pointers[if i = 0 then 1 else i - 1]? = some neighbour ∧
      ∀ key above leaf', tree.Leads s.content key above leaf' →
        reached.tree.Leads reached.storage.content key above
          (if leaf' = leaf then neighbour else leaf')

end Calls

end Tree

namespace Session

open PagedIndex.Tree Access

variable {K V : Type} [IndexKey K] [FixedWidth V] {session : Session K V}

theorem Invariant.call_trims (h : session.Invariant)
    (trim : session.tree.Trim (session.tree.Owns session.storage.content) session.storage.content)
    {call : Call K V} {reached : Reached K V}
    (called : session.tree.call call session.storage = .ok reached) :
    reached.tree.Trim (reached.tree.Owns reached.storage.content) reached.storage.content := by
  have tidy := h.tidy
  have of_still {trail : Trail}
      (rested : Rested session.storage trail ⟨reached.tree.anchor, reached.storage⟩)
      (still : session.tree.Still session.storage.content trail) :
      reached.tree.Trim (reached.tree.Owns reached.storage.content) reached.storage.content := by
    rw [← still.anchor, ← still.content] at tidy
    rw [← still.content] at trim
    exact trim_of_rested called rested tidy trim
  cases call with
  | insert key value =>
    obtain ⟨trail, rested, ended⟩ := insert_comes h.suitable h.coherent tidy called
    split at ended
    · rcases ended with ⟨leaf, planted⟩ | ⟨partings, content', leaf, entered⟩
      · exact trim_of_rested called rested (planted.leaves_tidy h.suitable) planted.trim
      · exact trim_of_rested called rested (entered.leaves_tidy h.suitable tidy)
          (entered.trim h.suitable tidy trim)
    · obtain ⟨partings, anchor, content', ahead⟩ := ended
      exact trim_of_rested called rested (ahead.leaves_tidy h.suitable tidy)
        (ahead.trim h.suitable tidy trim)
  | erase key =>
    obtain ⟨trail, rested, ended⟩ := erase_comes h.suitable h.coherent tidy called
    split at ended
    · rcases ended with ⟨still, -⟩ | ⟨above, leaf, bears, cleared, tidy'⟩
      · exact of_still rested still
      · obtain ⟨root, anchored, -⟩ := bears.leads
        obtain ⟨level, well_formed⟩ := h.well_formed anchored
        exact trim_of_rested called rested (cleared.anchor ▸ tidy')
          (cleared.trim h.suitable well_formed anchored tidy trim bears.leads)
    · exact of_still rested ended
  | lookup | height | length | isEmpty | validate =>
    obtain ⟨trail, rested, still⟩ := look_comes h.coherent rfl called
    exact of_still rested still

theorem reachable_trim (reachable : Reachable session) :
    session.tree.Trim (session.tree.Owns session.storage.content) session.storage.content := by
  induction reachable with
  | opened opened new =>
    obtain ⟨rfl, -⟩ := of_reopen opened
    exact .of_bare rfl
  | called before admitted called ih => exact (reachable_invariant before).call_trims ih called
  | elsewhere before spares leaves ih =>
    have h := reachable_invariant before
    have apart := Pool.apart_of_leaves h.coherent h.free spares leaves
    have same (page : PageId) (owned : _) := apart.content page (h.tidy.minted page owned).1
    exact (ih.congr h.tidy same).mono fun page => (h.tidy.congr same).owns

theorem Invariant.erase_clears (h : session.Invariant) {key : K} {reached : Reached K V}
    (called : session.tree.call (.erase key) session.storage = .ok reached) :
    reached.storage.content = session.storage.content ∨ ∃ trail above leaf,
      reached.storage.content = trail.content ∧
      session.tree.Leads session.storage.content key above leaf ∧
      session.tree.Cleared session.storage.content key above leaf trail ∧
      session.tree.Tidy (session.tree.Owns session.storage.content) session.tree.anchor
        trail.content := by
  obtain ⟨trail, rested, ended⟩ := erase_comes h.suitable h.coherent h.tidy called
  split at ended
  · rcases ended with ⟨still, -⟩ | ⟨above, leaf, bears, cleared, tidy⟩
    · exact .inl (rested.content.trans still.content)
    · exact .inr ⟨trail, above, leaf, rested.content, bears.leads, cleared, tidy⟩
  · exact .inl (rested.content.trans ended.content)

theorem Invariant.erase_keeps_levels (h : session.Invariant) {key : K} {reached : Reached K V}
    (called : session.tree.call (.erase key) session.storage = .ok reached) (page : PageId) :
    (Header.of (reached.storage.content page)).level =
      (Header.of (session.storage.content page)).level := by
  rcases h.erase_clears called with same | ⟨trail, above, leaf, content, -, cleared, -⟩
  · rw [same]
  · rw [content]
    exact cleared.same_level page

/-- A leaf that an erasure took out of a node was emptied by it, and has handed its keys over. -/
theorem Invariant.erase_hands_over (h : session.Invariant) {key : K} {reached : Reached K V}
    (called : session.tree.call (.erase key) session.storage = .ok reached)
    {parent leaf : PageId} (owned : session.tree.Owns session.storage.content parent)
    (mem : leaf ∈ (session.tree.nodes session.storage.content parent).pointers)
    (gone : leaf ∉ (session.tree.nodes reached.storage.content parent).pointers) :
    session.tree.nodes reached.storage.content leaf = .leaf [] ∧
      ¬ session.tree.Owns reached.storage.content leaf ∧ ∃ i neighbour, session.tree.HandsOver
        session.storage.content reached.storage.content parent leaf neighbour i := by
  rcases h.erase_clears called with content | ⟨trail, above, leaf', content, leads, cleared, tidy⟩
  · rw [content] at gone
    exact absurd mem gone
  rw [content] at gone ⊢
  obtain ⟨root, anchored, -⟩ := id owned
  obtain ⟨level, well_formed⟩ := h.well_formed anchored
  by_cases unlinks : Unlinks session.storage.content above (trail.content leaf') parent
  · obtain ⟨i, neighbour, hands⟩ :=
      cleared.hands_over h.suitable well_formed anchored h.tidy leads unlinks
    -- Only one child has gone, so it is the one that the key led to.
    obtain ⟨j, inside⟩ := List.mem_iff_getElem?.mp mem
    rw [hands.rest, List.mem_eraseIdx_iff_getElem?, not_exists] at gone
    obtain rfl : j = i := by
      by_contra apart
      exact gone j ⟨apart, inside⟩
    obtain rfl := Option.some.inj (inside.symm.trans hands.place)
    exact ⟨Node.of_eq_bare_iff.mpr ⟨(hands.levels leaf).trans hands.level, unlinks.2.1⟩,
      hands.not_owned well_formed anchored tidy, j, neighbour, hands⟩
  · have apart : parent ≠ leaf' := by
      rintro rfl
      obtain ⟨root', anchored', leads⟩ := leads
      obtain ⟨level_zero, -⟩ := leads.last_step h.suitable h.tidy ⟨root', anchored', .here⟩
      exact (Node.mem_pointers_iff.mp mem).1 level_zero
    rw [nodes, cleared.same parent apart unlinks] at gone
    exact absurd mem gone

theorem Invariant.erase_prunes (h : session.Invariant) {key : K} {reached : Reached K V}
    (called : session.tree.call (.erase key) session.storage = .ok reached) :
    session.tree.Prunes session.storage reached := by
  have anchor : reached.tree.anchor = session.tree.anchor := call_edits called fun _ edits => edits
  have same : reached.tree = session.tree := by rw [tree_of_call called, anchor]
  have levels : reached.tree.levels reached.storage.content =
      session.tree.levels session.storage.content := by
    rw [same, levels, levels]
    cases session.tree.anchor.root with
    | none => rfl
    | some root => rw [Option.elim_some, Option.elim_some, h.erase_keeps_levels called]
  have admitted : session.Admits (.erase key) := trivial
  have invariant := call_preserves_invariant h admitted called
  refine ⟨anchor, levels, ⟨h.yields_height, levels ▸ invariant.yields_height⟩, ?_⟩
  intro parent leaf i owned place gone
  rw [same] at gone ⊢
  obtain ⟨root, anchored, -⟩ := id owned
  obtain ⟨level, well_formed⟩ := h.well_formed anchored
  obtain ⟨bare, unowned, i', neighbour, hands⟩ :=
    h.erase_hands_over called owned (List.mem_of_getElem? place) gone
  obtain ⟨inside, -⟩ := List.getElem?_eq_some_iff.mp place
  obtain rfl : i = i' := (List.getElem?_inj inside
    (well_formed.children_nodup anchored owned)).mp (place.trans hands.place.symm)
  exact ⟨bare, unowned, neighbour, hands.beside, fun key above leaf' =>
    hands.leads h.suitable well_formed anchored h.tidy⟩

/-- Whatever calls succeeded or failed before, a leaf without entries is the root or the only child
of its parent. An erasure leaves the root, the page counter and the height, and the keys of a leaf
that it takes out lead to a neighbour. -/
theorem emptied_leaves_go (reachable : Reachable session) :
    session.tree.Trimmed session.storage.content ∧ ∀ key, ∃ reached,
      session.tree.call (.erase key) session.storage = .ok reached ∧
        session.tree.Prunes session.storage reached := by
  have h := reachable_invariant reachable
  refine ⟨(reachable_trim reachable).trimmed h.tidy fun root => h.well_formed, fun key => ?_⟩
  obtain ⟨reached, called, -⟩ := erase_settles h key
  exact ⟨reached, called, h.erase_prunes called⟩

/-- Two entries to a leaf and three insertions make two leaves. The first goes with its only entry,
and its key leads to the second. -/
theorem first_leaf_goes : ∃ (session : Session (Word false 1) (Word false 1))
    (root left right : PageId) (reached : Reached (Word false 1) (Word false 1)),
    Reachable session ∧
    session.tree.Leads session.storage.content ⟨1⟩ (some root) left ∧
    session.tree.call (.erase ⟨1⟩) session.storage = .ok reached ∧
    (reached.tree.nodes reached.storage.content root).pointers = [right] ∧
    reached.tree.Leads reached.storage.content ⟨1⟩ (some root) right := by
  let root : PageId := .ofParts ⟨0⟩ 2
  let left : PageId := .ofParts ⟨0⟩ 0
  let right : PageId := .ofParts ⟨0⟩ 1
  have checked : (insertThree 3).any (fun session => session.tree.anchor.root = some root ∧
      (session.tree.nodes session.storage.content root).pointers = [left, right] ∧
      (session.tree.inner.childFor (session.storage.content root) ⟨1⟩).toOption = some left ∧
      (Header.of (session.storage.content left)).level = 0 ∧
      (session.tree.call (.erase ⟨1⟩) session.storage).toOption.any fun reached =>
        (reached.tree.nodes reached.storage.content root).pointers = [right]) = true := by
    decide +kernel
  obtain ⟨session, made, found⟩ := (Option.any_eq_true _ _).mp checked
  obtain ⟨anchored, pointers, routed, leaf, found⟩ := of_decide_eq_true found
  obtain ⟨reached, called, rest⟩ := (Option.any_eq_true _ _).mp found
  have rest := of_decide_eq_true rest
  have reachable := reachable_insertThree made
  obtain ⟨reached', called', prunes⟩ := (emptied_leaves_go reachable).2 ⟨1⟩
  cases (ok_of_toOption called).symm.trans called'
  have inner : (Header.of (session.storage.content root)).level ≠ 0 :=
    (Node.mem_pointers_iff.mp (pointers ▸ List.mem_cons_self : left ∈ _)).1
  have leads : session.tree.Leads session.storage.content ⟨1⟩ (some root) left :=
    ⟨root, anchored, .down inner (ok_of_toOption routed) (.here leaf)⟩
  have place : (session.tree.nodes session.storage.content root).pointers[0]? = some left := by
    rw [pointers]
    rfl
  obtain ⟨-, -, neighbour, beside, moved⟩ :=
    prunes.hands_over root left 0 ⟨root, anchored, .here⟩ place (by rw [rest]; decide)
  rw [pointers] at beside
  obtain rfl : right = neighbour := Option.some.inj beside
  exact ⟨session, root, left, right, reached, reachable, leads, called', rest,
    moved ⟨1⟩ (some root) left leads⟩

end Session

end PagedIndex
