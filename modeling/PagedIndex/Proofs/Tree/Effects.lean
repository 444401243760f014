import PagedIndex.Proofs.Pool.Durability
import PagedIndex.Proofs.Tree.Footprints

/-!
# Calls dirty only what they must

A call that looks, or erases a key that is not there, leaves every page as it is. An insertion
changes the leaf that takes the entry, and the pages of its splits. An erasure changes a leaf, and
the node above it if the leaf goes. Pages that an insertion was handed out for a split it did not
complete are never reached again, whatever is called later.
-/

namespace PagedIndex

/-- Nothing was changed or has become dirty, so a flush writes nothing. -/
structure Storage.Unspoiled (s s' : Storage) : Prop where
  content : s'.content = s.content
  clean : ∀ page, ¬ s'.pool.Dirty page
  idle : ∀ residents : List (PageId × FrameId),
    (∀ resident ∈ residents, s'.pool.table[resident.1]? = some resident.2) →
    Ends (Pool.flushInOrder residents) s'
      (fun _ s'' => s''.pool = s'.pool ∧ s''.disk.file = s'.disk.file)
      (fun _ s'' => s''.pool = s'.pool ∧ s''.disk.file = s'.disk.file)

theorem Storage.Unspoiled.of_clean {s s' : Storage} (content : s'.content = s.content)
    (clean : ∀ page, ¬ s'.pool.Dirty page) : s.Unspoiled s' := by
  refine ⟨content, clean, fun residents found => Pool.flush_of_clean fun resident mem => ?_⟩
  exact Bool.eq_false_iff.mpr fun dirty => clean resident.1 ⟨resident.2, found resident mem, dirty⟩

namespace Tree

open Access

variable {K V : Type} [IndexKey K] [FixedWidth V] {tree tree' : Tree K V} {own : PageId → Prop}
  {s s' : Storage} {reached : Reached K V} {key : K} {value : V}

theorem look_comes {call : Call K V} (coherent : s.Coherent .nothing) (look : looks call = true)
    (called : tree.call call s = .ok reached) :
    ∃ trail, Rested s trail ⟨reached.tree.anchor, reached.storage⟩ ∧
      tree.Still s.content trail := by
  have asks := tree.program_asks call
  have goes : Goes tree.segment (tree.Still s.content) (tree.program call)
      (fun _ => tree.Still s.content) ⟨⟨tree.anchor, s.content, []⟩, [], []⟩ := by
    refine goes_of_looks (tree.program_within call) ?_ fun trail anchor same touched =>
      ⟨anchor, same, touched⟩
    cases call with
    | insert | erase => cases look
    | lookup | height | length | isEmpty | validate => exact asks
  obtain ⟨trail, rested, ended⟩ := call_goes coherent called goes
  refine ⟨trail, rested, ?_⟩
  split at ended <;> exact ended

section Comes

variable (suitable : tree.capacities.Suitable K V) (coherent : s.Coherent .nothing)
  (tidy : tree.Tidy own tree.anchor s.content)

include suitable coherent tidy

theorem insert_comes (called : tree.call (.insert key value) s = .ok reached) :
    ∃ trail, Rested s trail ⟨reached.tree.anchor, reached.storage⟩ ∧
      match reached.outcome with
      | .ok _ => (∃ leaf, tree.Planted s.content key value leaf trail) ∨
        ∃ partings content' leaf, tree.Entered own s.content key value partings content' leaf trail
      | .error _ => tree.Stopped own s.content trail :=
  call_goes coherent called ((insert_goes suitable tidy).andThen fun _ _ ended =>
    Goes.pure_iff.mpr ended)

theorem erase_comes (called : tree.call (.erase key) s = .ok reached) :
    ∃ trail, Rested s trail ⟨reached.tree.anchor, reached.storage⟩ ∧
      match reached.outcome with
      | .ok _ => (tree.Still s.content trail ∧
          ∀ above leaf, ¬ tree.Bears s.content key above leaf) ∨
        ∃ above leaf, tree.Bears s.content key above leaf ∧
          tree.Cleared s.content key above leaf trail ∧ tree.Tidy own tree.anchor trail.content
      | .error _ => tree.Still s.content trail :=
  call_goes coherent called ((erase_goes suitable tidy).andThen fun _ _ ended =>
    Goes.pure_iff.mpr ended)

end Comes

section Pages

variable {content content' : PageId → Page} {partings : List Parting} {anchor : Anchor}
  {leaf : PageId} {trail : Trail} (suitable : tree.capacities.Suitable K V)

include suitable

theorem Planted.leaves_tidy (h : tree.Planted content key value leaf trail) :
    tree.Tidy (· = leaf) trail.anchor trail.content := by
  have stocked : tree.capacities.Stocked (trail.content leaf) := by
    rw [Capacities.stocked_iff (K := K) (V := V) h.level, ← leaf_eq, h.listing]
    exact Nat.le_of_succ_le suitable.leaf_least
  refine ⟨fun root anchored => ?_, fun page here => ?_, fun page here => ?_, fun page here => ?_⟩
  · rw [h.anchor] at anchored
    exact (Option.some.inj anchored).symm
  · rw [here, h.anchor]
    exact h.new.2
  · rw [here]
    exact .of_leaf h.level
  · rw [here]
    exact stocked

variable (tidy : tree.Tidy own tree.anchor content)

include tidy

theorem Entered.stored (h : tree.Entered own content key value partings content' leaf trail) :
    (Header.of (trail.content leaf)).level = 0 ∧
      (key, value) ∈ tree.leaf.listing (trail.content leaf) ∧
      tree.capacities.Stocked (trail.content leaf) := by
  obtain ⟨added, ran⟩ := h.inserted
  have kept := (LeafLayout.insert_keeps_level _ _ _).of_run ran
  obtain ⟨stocked, mem⟩ :=
    ((h.splits.tidy suitable tidy).stocked leaf h.gained).insert suitable h.level ran
  exact ⟨kept.trans h.level, mem, stocked⟩

theorem Entered.same_level (h : tree.Entered own content key value partings content' leaf trail)
    (page : PageId) :
    (Header.of (trail.content page)).level = (Header.of (content' page)).level := by
  obtain rfl | apart := eq_or_ne page leaf
  · rw [(h.stored suitable tidy).1, h.level]
  · rw [h.same page apart]

theorem Entered.leaves_tidy (h : tree.Entered own content key value partings content' leaf trail) :
    tree.Tidy (Gained own partings) trail.anchor trail.content := by
  obtain ⟨level, -, stocked⟩ := h.stored suitable tidy
  refine ((h.splits.tidy suitable tidy).write (.of_leaf level) stocked leaf).congr fun page _ => ?_
  obtain rfl | apart := eq_or_ne page leaf
  · rw [Function.update_self]
  · rw [Function.update_of_ne apart, h.same page apart]

theorem Ahead.leaves_tidy (h : tree.Ahead own content partings anchor content' trail) :
    tree.Tidy (Gained own partings) trail.anchor trail.content := by
  obtain ⟨root, minted, linked, stocked⟩ := h.splits.tidy suitable tidy
  refine Tidy.congr ⟨fun page anchored => root page (h.root ▸ anchored),
    fun page mem => (minted page mem).mono h.taken, linked, stocked⟩ fun page mem => ?_
  exact h.same page fun added => added.1 (minted page mem)

end Pages

theorem tidy_of_rested {call : Call K V} {trail : Trail}
    (called : tree.call call s = .ok reached)
    (rested : Rested s trail ⟨reached.tree.anchor, reached.storage⟩)
    (tidy : tree.Tidy own trail.anchor trail.content) :
    reached.tree.Tidy own reached.tree.anchor reached.storage.content := by
  rw [← rested.anchor, ← rested.content] at tidy
  rw [tree_of_call called]
  exact ⟨tidy.root, tidy.minted, tidy.linked, tidy.stocked⟩

theorem call_tidy {call : Call K V} (suitable : tree.capacities.Suitable K V)
    (coherent : s.Coherent .nothing) (tidy : tree.Tidy own tree.anchor s.content)
    (called : tree.call call s = .ok reached) :
    ∃ own', reached.tree.Tidy own' reached.tree.anchor reached.storage.content ∧
      ∀ page, own' page → own page ∨ ¬ Minted tree.segment tree.anchor.nextPageNo page := by
  have of_still {trail : Trail}
      (rested : Rested s trail ⟨reached.tree.anchor, reached.storage⟩)
      (still : tree.Still s.content trail) :
      reached.tree.Tidy own reached.tree.anchor reached.storage.content := by
    refine tidy_of_rested called rested ?_
    rw [still.anchor, still.content]
    exact tidy
  cases call with
  | insert key value =>
    obtain ⟨trail, rested, ended⟩ := insert_comes suitable coherent tidy called
    split at ended
    · rcases ended with ⟨leaf, planted⟩ | ⟨partings, content', leaf, entered⟩
      · refine ⟨_, tidy_of_rested called rested (planted.leaves_tidy suitable), ?_⟩
        rintro page rfl
        exact .inr planted.new.1
      · exact ⟨_, tidy_of_rested called rested (entered.leaves_tidy suitable tidy),
          fun page => entered.splits.new_of_gained⟩
    · obtain ⟨partings, anchor, content', ahead⟩ := ended
      exact ⟨_, tidy_of_rested called rested (ahead.leaves_tidy suitable tidy),
        fun page => ahead.splits.new_of_gained⟩
  | erase key =>
    obtain ⟨trail, rested, ended⟩ := erase_comes suitable coherent tidy called
    refine ⟨own, ?_, fun _ => .inl⟩
    split at ended
    · rcases ended with ⟨still, -⟩ | ⟨above, leaf, -, cleared, tidy'⟩
      · exact of_still rested still
      · exact tidy_of_rested called rested (cleared.anchor ▸ tidy')
    · exact of_still rested ended
  | lookup | height | length | isEmpty | validate =>
    obtain ⟨trail, rested, still⟩ := look_comes coherent rfl called
    exact ⟨own, of_still rested still, fun _ => .inl⟩

theorem Lineage.tidy {pages : List PageId} (lineage : Lineage pages tree s) :
    tree.Tidy (tree.Owns s.content) tree.anchor s.content := by
  induction lineage with
  | opened opened attached new =>
    obtain ⟨rfl, -⟩ := of_reopen opened
    exact .of_bare rfl
  | called before called ih =>
    obtain ⟨own, lodged⟩ := before.recoverable.lodged
    obtain ⟨own', tidy, -⟩ := call_tidy
      (Capacities.suitable_of_check before.recoverable.accepted) lodged.coherent ih called
    exact tidy.owned
  | elsewhere before spares leaves ih =>
    obtain ⟨own, lodged⟩ := before.recoverable.lodged
    have apart := Pool.apart_of_leaves lodged.coherent before.recoverable.free spares leaves
    exact (ih.congr fun page owned => apart.content page (ih.minted page owned).1).owned
  | reopened before whole flushed attached new reopened ih =>
    obtain rfl := Except.ok.inj (before.recoverable.reopens.symm.trans reopened)
    exact (ih.congr fun page owned =>
      before.recoverable.same_reopened whole flushed attached new (ih.minted page owned).1).owned

/-- What a tree comes to when it is called, closed and opened again, and others use the pool. -/
inductive Becomes (tree : Tree K V) (s : Storage) : Tree K V → Storage → Prop
  | here : Becomes tree s tree s
  | called {tree' : Tree K V} {s' : Storage} {call : Call K V} {reached : Reached K V}
      (before : Becomes tree s tree' s') (called : tree'.call call s' = .ok reached) :
      Becomes tree s reached.tree reached.storage
  | elsewhere {tree' : Tree K V} {s' s'' : Storage} {operation : Pool.Operation}
      (before : Becomes tree s tree' s') (spares : operation.Spares tree'.segment)
      (leaves : operation.Leaves s' s'') : Becomes tree s tree' s''
  | reopened {tree' tree'' : Tree K V} {s' s'' : Storage} {residents : List (PageId × FrameId)}
      {store : SegmentStore} {volume : Volume} {size : Nat} {pool : Pool}
      (before : Becomes tree s tree' s')
      (whole : ∀ (page : PageId) (id : FrameId), s'.pool.table[page]? = some id →
        (page, id) ∈ residents)
      (flushed : (Pool.flushInOrder residents).run s' = .ok () s'')
      (attached : (SegmentStore.attach s''.disk.store.directory).run s''.disk.volume =
        .ok store volume)
      (new : Pool.new size = .ok pool)
      (reopened : Tree.reopen tree'.segment tree'.capacities tree'.anchor = .ok tree'') :
      Becomes tree s tree'' ⟨⟨store, volume⟩, pool⟩

theorem Lineage.becomes {pages : List PageId} (lineage : Lineage pages tree s)
    (becomes : tree.Becomes s tree' s') : ∃ pages', Lineage pages' tree' s' := by
  induction becomes with
  | here => exact ⟨_, lineage⟩
  | called before called ih =>
    obtain ⟨pages', before⟩ := ih
    exact ⟨_, .called before called⟩
  | elsewhere before spares leaves ih =>
    obtain ⟨pages', before⟩ := ih
    exact ⟨_, .elsewhere before spares leaves⟩
  | reopened before whole flushed attached new reopened ih =>
    obtain ⟨pages', before⟩ := ih
    exact ⟨_, .reopened before whole flushed attached new reopened⟩

/-- Of the pages that were handed out, a tree never reaches more than it did. -/
theorem Becomes.owns {pages : List PageId} (lineage : Lineage pages tree s)
    (becomes : tree.Becomes s tree' s') :
    tree'.segment = tree.segment ∧ tree.anchor.nextPageNo ≤ tree'.anchor.nextPageNo ∧
      ∀ page, tree'.Owns s'.content page → Minted tree.segment tree.anchor.nextPageNo page →
        tree.Owns s.content page := by
  induction becomes with
  | here => exact ⟨rfl, Nat.le_refl _, fun _ owned _ => owned⟩
  | @called tree' s' call reached before called ih =>
    obtain ⟨segment, more, owns⟩ := ih
    obtain ⟨pages', lineage'⟩ := lineage.becomes before
    have recoverable := lineage'.recoverable
    obtain ⟨own, lodged⟩ := recoverable.lodged
    obtain ⟨own', tidy, among⟩ := call_tidy (Capacities.suitable_of_check recoverable.accepted)
      lodged.coherent lineage'.tidy called
    refine ⟨by rw [tree_of_call called]; exact segment,
      Nat.le_trans more (call_counts called).more, fun page owned minted => ?_⟩
    rcases among page (tidy.owns owned) with mine | new
    · exact owns page mine minted
    · rw [segment] at new
      exact absurd (minted.mono more) new
  | @elsewhere tree' s' s'' operation before spares leaves ih =>
    obtain ⟨segment, more, owns⟩ := ih
    obtain ⟨pages', lineage'⟩ := lineage.becomes before
    have recoverable := lineage'.recoverable
    obtain ⟨own, lodged⟩ := recoverable.lodged
    have apart := Pool.apart_of_leaves lodged.coherent recoverable.free spares leaves
    have tidy := lineage'.tidy.congr fun page owned =>
      apart.content page (lineage'.tidy.minted page owned).1
    exact ⟨segment, more, fun page owned => owns page (tidy.owns owned)⟩
  | reopened before whole flushed attached new reopened ih =>
    obtain ⟨pages', lineage'⟩ := lineage.becomes before
    have recoverable := lineage'.recoverable
    obtain rfl := Except.ok.inj (recoverable.reopens.symm.trans reopened)
    obtain ⟨segment, more, owns⟩ := ih
    have tidy := lineage'.tidy.congr fun page owned =>
      recoverable.same_reopened whole flushed attached new (lineage'.tidy.minted page owned).1
    exact ⟨segment, more, fun page owned => owns page (tidy.owns owned)⟩

/-- An insertion has made some splits and put the entry into a leaf. Only that leaf and the pages of
the splits were changed or are dirty. If nothing was split, it is the leaf that the key led to. -/
structure Stores (tree : Tree K V) (key : K) (value : V) (s : Storage) (reached : Reached K V)
    (partings : List Parting) (leaf : PageId) : Prop where
  made : ∃ content', tree.Splits (tree.Owns s.content) s.content partings reached.tree.anchor
      content' ∧
    (∃ added, (tree.leaf.insert key value).run (content' leaf) =
      .ok (added, reached.storage.content leaf)) ∧
    ∀ page, page ≠ leaf → reached.storage.content page = content' page
  gained : Gained (tree.Owns s.content) partings leaf
  level : (Header.of (reached.storage.content leaf)).level = 0
  stored : (key, value) ∈ tree.leaf.listing (reached.storage.content leaf)
  dirty : reached.storage.pool.Dirty leaf
  others : ∀ page, page ≠ leaf → (∀ parting ∈ partings, page ∉ parting.pages) →
    reached.storage.content page = s.content page ∧ ¬ reached.storage.pool.Dirty page
  unsplit : partings = [] ↔ reached.tree.anchor = tree.anchor
  leads : partings = [] → ∃ above, tree.Leads s.content key above leaf

/-- An insertion into a tree without pages has made its root, a new leaf with the entry. -/
structure Roots (tree : Tree K V) (key : K) (value : V) (s : Storage) (reached : Reached K V)
    (leaf : PageId) : Prop where
  bare : tree.anchor.root = none
  new : Added tree.segment tree.anchor.nextPageNo reached.tree.anchor.nextPageNo leaf
  root : reached.tree.anchor.root = some leaf
  level : (Header.of (reached.storage.content leaf)).level = 0
  stored : tree.leaf.listing (reached.storage.content leaf) = [(key, value)]
  dirty : reached.storage.pool.Dirty leaf
  others : ∀ page, page ≠ leaf →
    reached.storage.content page = s.content page ∧ ¬ reached.storage.pool.Dirty page

/-- An insertion failed after some splits. Besides the pages of these, only pages that it was handed
out since were changed or are dirty, and the tree never comes to reach those. -/
structure Abandons (tree : Tree K V) (s : Storage) (reached : Reached K V)
    (partings : List Parting) (anchor : Anchor) (content' : PageId → Page) : Prop where
  splits : tree.Splits (tree.Owns s.content) s.content partings anchor content'
  root : reached.tree.anchor.root = anchor.root
  same : ∀ page,
    ¬ Added tree.segment anchor.nextPageNo reached.tree.anchor.nextPageNo page →
    reached.storage.content page = content' page
  others : ∀ page, (∀ parting ∈ partings, page ∉ parting.pages) →
    ¬ Added tree.segment anchor.nextPageNo reached.tree.anchor.nextPageNo page →
    reached.storage.content page = s.content page ∧ ¬ reached.storage.pool.Dirty page
  unreachable : ∀ page,
    Added tree.segment anchor.nextPageNo reached.tree.anchor.nextPageNo page →
    ∀ tree' s', reached.tree.Becomes reached.storage tree' s' → ¬ tree'.Owns s'.content page

/-- An erasure has taken the key out of its leaf, and the leaf out of the node above it if it became
empty and was not the only one there. Only these pages were changed, and they are dirty. -/
structure Erases (tree : Tree K V) (key : K) (s : Storage) (reached : Reached K V)
    (above : Option PageId) (leaf : PageId) : Prop where
  anchor : reached.tree.anchor = tree.anchor
  removed : ∃ removed, (tree.leaf.erase key).run (s.content leaf) =
    .ok (removed, reached.storage.content leaf)
  unlinked : ∀ page, Unlinks s.content above (reached.storage.content leaf) page →
    ∃ removed, (tree.inner.removeChildFor key).run (s.content page) =
      .ok (removed, reached.storage.content page)
  same : ∀ page, page ≠ leaf → ¬ Unlinks s.content above (reached.storage.content leaf) page →
    reached.storage.content page = s.content page
  dirty : ∀ page, reached.storage.pool.Dirty page ↔
    page = leaf ∨ Unlinks s.content above (reached.storage.content leaf) page

section Rests

variable {content' : PageId → Page} {partings : List Parting} {anchor : Anchor} {leaf : PageId}
  {above : Option PageId} {trail : Trail} (clean : ∀ page, ¬ s.pool.Dirty page)
  (rested : Rested s trail ⟨reached.tree.anchor, reached.storage⟩)

include clean rested

omit [IndexKey K] [FixedWidth V] in
theorem mem_touched {page : PageId} (dirty : reached.storage.pool.Dirty page) :
    page ∈ trail.touched :=
  (rested.touched page dirty).resolve_left (clean page)

omit [IndexKey K] [FixedWidth V] in
theorem Still.unspoiled (h : tree.Still s.content trail) : s.Unspoiled reached.storage := by
  refine .of_clean (rested.content.trans h.content) fun page dirty => ?_
  have touched := mem_touched clean rested dirty
  rw [h.touched] at touched
  exact List.not_mem_nil touched

theorem Planted.roots (h : tree.Planted s.content key value leaf trail) :
    tree.Roots key value s reached leaf := by
  have content : reached.storage.content = trail.content := rested.content
  have anchored : reached.tree.anchor = ⟨some leaf, tree.anchor.nextPageNo + 1⟩ :=
    rested.anchor.trans h.anchor
  refine ⟨h.bare, ?_, ?_, ?_, ?_, rested.lately leaf h.lately, fun page apart => ⟨?_, ?_⟩⟩
  · rw [anchored]
    exact h.new
  · rw [anchored]
  · rw [content]
    exact h.level
  · rw [content]
    exact h.listing
  · rw [content]
    exact h.same page apart
  · exact fun dirty => apart (h.touched page (mem_touched clean rested dirty))

theorem Cleared.erases (h : tree.Cleared s.content key above leaf trail) :
    tree.Erases key s reached above leaf := by
  have content : reached.storage.content = trail.content := rested.content
  refine ⟨rested.anchor.trans h.anchor, ?_, ?_, ?_, fun page => ?_⟩
  · rw [content]
    exact h.removed
  · rw [content]
    exact h.unlinked
  · rw [content]
    exact h.same
  · rw [content]
    exact ⟨fun dirty => h.touched page (mem_touched clean rested dirty),
      fun there => rested.lately page (h.lately page there)⟩

theorem Entered.stores (suitable : tree.capacities.Suitable K V)
    (tidy : tree.Tidy (tree.Owns s.content) tree.anchor s.content)
    (h : tree.Entered (tree.Owns s.content) s.content key value partings content' leaf trail) :
    tree.Stores key value s reached partings leaf := by
  have content : reached.storage.content = trail.content := rested.content
  have anchored : reached.tree.anchor = trail.anchor := rested.anchor
  obtain ⟨level, stored, -⟩ := h.stored suitable tidy
  refine ⟨⟨content', ?_, ?_, ?_⟩, h.gained, ?_, ?_, rested.lately leaf h.lately,
    fun page apart outside => ⟨?_, fun dirty => ?_⟩, ?_, h.leads⟩
  · rw [anchored]
    exact h.splits
  · rw [content]
    exact h.inserted
  · rw [content]
    exact h.same
  · rw [content]
    exact level
  · rw [content]
    exact stored
  · rw [content, h.same page apart]
    exact h.splits.same outside
  · rcases h.touched page (mem_touched clean rested dirty) with here | ⟨parting, mem, among⟩
    · exact apart here
    · exact outside parting mem among
  · rw [anchored]
    exact h.splits.nil_iff

theorem Ahead.abandons {pages : List PageId} {call : Call K V} (lineage : Lineage pages tree s)
    (called : tree.call call s = .ok reached)
    (h : tree.Ahead (tree.Owns s.content) s.content partings anchor content' trail) :
    tree.Abandons s reached partings anchor content' := by
  have content : reached.storage.content = trail.content := rested.content
  have anchored : reached.tree.anchor = trail.anchor := rested.anchor
  have suitable := Capacities.suitable_of_check lineage.recoverable.accepted
  refine ⟨h.splits, anchored ▸ h.root, ?_, fun page outside old => ⟨?_, fun dirty => ?_⟩,
    fun page added tree' s' becomes owned => ?_⟩
  · rw [content, anchored]
    exact h.same
  · rw [anchored] at old
    rw [content, h.same page old]
    exact h.splits.same outside
  · rw [anchored] at old
    rcases h.touched page (mem_touched clean rested dirty) with ⟨parting, mem, among⟩ | added
    · exact outside parting mem among
    · exact old added
  · obtain ⟨-, -, owns⟩ := becomes.owns (.called lineage called)
    have tidy := tidy_of_rested called rested (h.leaves_tidy suitable lineage.tidy)
    have minted : Minted reached.tree.segment reached.tree.anchor.nextPageNo page := by
      rw [tree_of_call called]
      exact added.2
    have gained := tidy.owns (owns page owned minted)
    exact added.1 ((h.splits.tidy suitable lineage.tidy).minted page gained)

end Rests

/-- Calls on a tree whose pages are all clean: a call that looks leaves every page as it is, whether
or not it fails, and so does an erasure that fails or whose key is not there. An insertion that
succeeds changes the leaf that takes the entry, and besides it only pages of the splits it made; one
that fails, only pages of the splits it completed and new ones that are never reached. An erasure
that succeeds changes the leaf of its key, and the node above that if the leaf goes. -/
theorem dirties_only_what_it_must {pages : List PageId} (lineage : Lineage pages tree s)
    (clean : ∀ page, ¬ s.pool.Dirty page) {call : Call K V}
    (called : tree.call call s = .ok reached) :
    match call with
    | .insert key value =>
      match reached.outcome with
      | .ok _ => (∃ leaf, tree.Roots key value s reached leaf) ∨
        ∃ partings leaf, tree.Stores key value s reached partings leaf
      | .error _ => ∃ partings anchor content', tree.Abandons s reached partings anchor content'
    | .erase key =>
      (((∃ error, reached.outcome = .error error) ∨
        ∀ above leaf, ¬ tree.Bears s.content key above leaf) → s.Unspoiled reached.storage) ∧
      ∀ answer above leaf, reached.outcome = .ok answer → tree.Bears s.content key above leaf →
        tree.Erases key s reached above leaf
    | .lookup _ | .height | .length | .isEmpty | .validate => s.Unspoiled reached.storage := by
  have recoverable := lineage.recoverable
  have suitable := Capacities.suitable_of_check recoverable.accepted
  have tidy := lineage.tidy
  obtain ⟨own, lodged⟩ := recoverable.lodged
  have coherent := lodged.coherent
  cases call with
  | insert key value =>
    obtain ⟨trail, rested, ended⟩ := insert_comes suitable coherent tidy called
    split at ended
    · rcases ended with ⟨leaf, planted⟩ | ⟨partings, content', leaf, entered⟩
      · exact .inl ⟨leaf, planted.roots clean rested⟩
      · exact .inr ⟨partings, leaf, entered.stores clean rested suitable tidy⟩
    · obtain ⟨partings, anchor, content', ahead⟩ := ended
      exact ⟨partings, anchor, content', ahead.abandons clean rested lineage called⟩
  | erase key =>
    obtain ⟨trail, rested, ended⟩ := erase_comes suitable coherent tidy called
    split at ended
    · rename_i answer outcome
      rcases ended with ⟨still, absent⟩ | ⟨above, leaf, bears, cleared, -⟩
      · exact ⟨fun _ => still.unspoiled clean rested,
          fun _ above leaf _ bears => absurd bears (absent above leaf)⟩
      · refine ⟨?_, fun _ above' leaf' _ bears' => ?_⟩
        · rintro (⟨error, other⟩ | absent)
          · cases outcome.symm.trans other
          · exact absurd bears (absent above leaf)
        · obtain ⟨rfl, rfl⟩ := bears'.leads.unique bears.leads
          exact cleared.erases clean rested
    · rename_i error outcome
      exact ⟨fun _ => ended.unspoiled clean rested,
        fun answer _ _ other => nomatch outcome.symm.trans other⟩
  | lookup | height | length | isEmpty | validate =>
    obtain ⟨trail, rested, still⟩ := look_comes coherent rfl called
    exact still.unspoiled clean rested

/-- Where a root leaf has room for two entries, a third one splits it: the halves and a new root are
dirty then, and nothing else. -/
theorem third_entry_dirties_three : ∃ (pages : List PageId)
    (tree : Tree (Word false 1) (Word false 1)) (s : Storage)
    (reached : Reached (Word false 1) (Word false 1)) (partings : List Parting) (leaf : PageId),
    Lineage pages tree s ∧ (∀ page, ¬ s.pool.Dirty page) ∧
    tree.call (.insert ⟨3⟩ ⟨30⟩) s = .ok reached ∧ reached.outcome = .ok .done ∧
    reached.storage.pool.dirtyPages.length = 3 ∧ partings ≠ [] ∧
    tree.Stores ⟨3⟩ ⟨30⟩ s reached partings leaf := by
  have opened : Tree.reopen ⟨1⟩ ⟨2, 3⟩ ⟨none, 0⟩ =
      .ok (⟨⟨1⟩, ⟨2, 3⟩, ⟨none, 0⟩⟩ : Tree (Word false 1) (Word false 1)) := rfl
  let splits (tree : Tree (Word false 1) (Word false 1))
      (reached : Reached (Word false 1) (Word false 1)) : Bool :=
    reached.outcome = .ok .done && (reached.storage.pool.dirtyPages.length = 3 &&
      (tree.anchor.root.isSome && reached.tree.anchor ≠ tree.anchor))
  let check : List PageId × Tree (Word false 1) (Word false 1) × Storage → Bool
    | (_, tree, s) => match Pool.flushAll.run s with
      | .ok _ s' => s'.pool.dirtyPages = [] &&
          (tree.call (.insert ⟨3⟩ ⟨30⟩) s').toOption.any (splits tree)
      | .error _ _ => false
  obtain ⟨pool, new, checked⟩ : ∃ pool, Pool.new 4 = .ok pool ∧
      (callAll ⟨⟨1⟩, ⟨2, 3⟩, ⟨none, 0⟩⟩ ⟨Disk.twoFiles, pool⟩
        [.insert ⟨1⟩ ⟨10⟩, .insert ⟨2⟩ ⟨20⟩]).any check = true :=
    ⟨_, rfl, by decide +kernel⟩
  obtain ⟨⟨pages, tree, s⟩, made, found⟩ := (Option.any_eq_true _ _).mp checked
  have lineage := (Lineage.opened opened Disk.attached_twoFiles new).callAll made
  cases flushed : Pool.flushAll.run s with
  | error failure s' =>
    simp only [check, flushed] at found
    cases found
  | ok _ s' =>
    simp only [check, flushed] at found
    obtain ⟨none_dirty, found⟩ := Bool.and_eq_true_iff.mp found
    obtain ⟨reached, called, found⟩ := (Option.any_eq_true _ _).mp found
    obtain ⟨outcome, found⟩ := Bool.and_eq_true_iff.mp found
    obtain ⟨three, found⟩ := Bool.and_eq_true_iff.mp found
    obtain ⟨rooted, grown⟩ := Bool.and_eq_true_iff.mp found
    have called := Session.ok_of_toOption called
    have outcome := of_decide_eq_true outcome
    have whole : (Pool.flushInOrder s.pool.table.toList).run s = .ok () s' := flushed
    have leaves : (Pool.Operation.flushAll s.pool.table.toList).Leaves s s' := .of_ok whole
    have spares : (Pool.Operation.flushAll s.pool.table.toList).Spares tree.segment := trivial
    have lineage : Lineage ([] ++ pages) tree s' := .elsewhere lineage spares leaves
    have clean (page : PageId) : ¬ s'.pool.Dirty page := by
      rw [← Pool.mem_dirtyPages, of_decide_eq_true none_dirty]
      exact List.not_mem_nil
    have dirties := dirties_only_what_it_must lineage clean called
    simp only [outcome] at dirties
    rcases dirties with ⟨leaf, roots⟩ | ⟨partings, leaf, stores⟩
    · rw [roots.bare] at rooted
      cases rooted
    · refine ⟨_, tree, s', reached, partings, leaf, lineage, clean, called, outcome,
        of_decide_eq_true three, fun unsplit => ?_, stores⟩
      exact of_decide_eq_true grown (stores.unsplit.mp unsplit)

end Tree

end PagedIndex
