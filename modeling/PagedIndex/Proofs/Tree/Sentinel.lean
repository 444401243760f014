import PagedIndex.Proofs.Tree.Numbering

/-!
# The page that has the word of the sentinel

The last page of the last segment has the word of the sentinel, and no other page has. A tree hands
out its numbers up to the last one whatever its segment, so a tree over that segment hands out the
sentinel just when it uses its numbers up. Any other tree has valid pages only.
-/

namespace PagedIndex

namespace PageId

/-- The segment whose last page has the word of the sentinel. -/
def lastSegment : SegmentId := ⟨65535⟩

theorem sentinel_eq : sentinel = ofParts lastSegment maxPageNo := by decide +kernel

theorem eq_sentinel_iff (page : PageId) :
    page = sentinel ↔ page.segment = lastSegment ∧ page.pageNo = maxPageNo := by
  constructor
  · rintro rfl
    rw [sentinel_eq, segment_ofParts, pageNo_of_le le_rfl]
    exact ⟨rfl, rfl⟩
  · rintro ⟨segment, pageNo⟩
    rw [sentinel_eq, ← segment, ← pageNo, ofParts_segment_pageNo]

theorem isValid_iff {page : PageId} : page.isValid = true ↔ page ≠ sentinel := bne_iff_ne

end PageId

theorem Handed.sentinel_mem_iff {segment : SegmentId} {n n' : Nat} {pages : List PageId}
    (h : Handed segment n n' pages) : PageId.sentinel ∈ pages ↔
      segment = PageId.lastSegment ∧ n ≤ maxPageNo ∧ n' = maxPageNo + 1 := by
  constructor
  · intro mem
    have here := h.segment_eq _ mem
    have number : PageId.sentinel.pageNo ∈ List.range' n pages.length := by
      rw [← h.numbers_eq]
      exact List.mem_map_of_mem mem
    obtain ⟨segment_eq, pageNo_eq⟩ := (PageId.eq_sentinel_iff _).mp rfl
    rw [pageNo_eq] at number
    obtain ⟨low, high⟩ := List.mem_range'_1.mp number
    have count := h.length_eq
    have fits := h.fits (by omega)
    exact ⟨here.symm.trans segment_eq, low, by omega⟩
  · rintro ⟨rfl, low, rfl⟩
    rw [h.pages, PageId.sentinel_eq]
    exact List.mem_map_of_mem (List.mem_range'_1.mpr ⟨low, by omega⟩)

theorem Tree.Minted.isValid {segment : SegmentId} {nextPageNo : Nat} {page : PageId}
    (minted : Tree.Minted segment nextPageNo page)
    (short : segment = PageId.lastSegment → nextPageNo ≤ maxPageNo) : page.isValid = true := by
  refine PageId.isValid_iff.mpr fun same => ?_
  obtain ⟨here, last⟩ := (PageId.eq_sentinel_iff page).mp same
  have below := minted.2
  have bound := short (minted.1.symm.trans here)
  omega

namespace Tree

variable {K V : Type} [IndexKey K] [FixedWidth V] {tree tree' : Tree K V} {s s' : Storage}
  {calls : List (Call K V)} {pages : List PageId}

theorem callAll_counts (made : tree.callAll s calls = some (pages, tree', s')) :
    tree'.segment = tree.segment ∧
      Handed tree.segment tree.anchor.nextPageNo tree'.anchor.nextPageNo pages := by
  refine callAll_keeps (fun pages now _ => now.segment = tree.segment ∧
    Handed tree.segment tree.anchor.nextPageNo now.anchor.nextPageNo pages) ?_
    [] ⟨rfl, .nothing _ _⟩ made
  rintro pages now s call reached ⟨here, handed⟩ called
  have more := call_counts called
  rw [here] at more
  rw [tree_of_call called]
  exact ⟨here, handed.append more⟩

theorem Recoverable.callAll (h : tree.Recoverable s)
    (made : tree.callAll s calls = some (pages, tree', s')) : tree'.Recoverable s' :=
  callAll_keeps (fun _ now s => now.Recoverable s) (fun _ _ _ _ _ kept called => kept.call called)
    [] h made

/-- Whatever anchor a tree was opened with and whatever storage holds, calls hand out the sentinel
just when they use up the numbers of the last segment. Otherwise they hand out valid pages, and where
the tree's pages can be had, the root and every page below it are valid. -/
theorem sentinel_handed_out_iff {segment : SegmentId} {capacities : Capacities} {anchor : Anchor}
    (opened : Tree.reopen segment capacities anchor = .ok tree)
    (made : tree.callAll s calls = some (pages, tree', s')) :
    (PageId.sentinel ∈ pages ↔ segment = PageId.lastSegment ∧ anchor.nextPageNo ≤ maxPageNo ∧
      tree'.anchor.nextPageNo = maxPageNo + 1) ∧
    ((segment = PageId.lastSegment → tree'.anchor.nextPageNo ≤ maxPageNo) →
      (∀ page ∈ pages, page.isValid = true) ∧
      (tree.Recoverable s → ∀ page, tree'.Owns s'.content page → page.isValid = true)) := by
  obtain ⟨rfl, -⟩ := of_reopen opened
  obtain ⟨here, handed⟩ := callAll_counts made
  refine ⟨handed.sentinel_mem_iff, fun short =>
    ⟨fun page mem => ?_, fun recoverable page owned => ?_⟩⟩
  · refine PageId.isValid_iff.mpr ?_
    rintro rfl
    obtain ⟨last, -, full⟩ := handed.sentinel_mem_iff.mp mem
    have := short last
    omega
  · obtain ⟨own, lodged⟩ := (recoverable.callAll made).lodged
    refine (lodged.minted page (lodged.owns owned)).isValid fun last => short ?_
    exact here.symm.trans last

/-- A tree over the last segment whose one entry takes the last page: its root has the word of the
sentinel. -/
theorem root_has_sentinel_word : ∃ (pool : Pool) (tree tree' : Tree (Word false 1) (Word false 1))
    (s' : Storage), Pool.new 4 = .ok pool ∧
    Tree.reopen ⟨65535⟩ ⟨2, 3⟩ ⟨none, maxPageNo⟩ = .ok tree ∧
    tree.callAll ⟨Disk.twoFiles, pool⟩ [.insert ⟨1⟩ ⟨10⟩] = some ([.sentinel], tree', s') ∧
    tree'.anchor.root = some .sentinel ∧ PageId.sentinel.isValid = false := by
  let check : List PageId × Tree (Word false 1) (Word false 1) × Storage → Bool
    | (pages, tree, _) => pages = [.sentinel] && tree.anchor.root = some .sentinel
  obtain ⟨pool, new, checked⟩ : ∃ pool, Pool.new 4 = .ok pool ∧
      (callAll ⟨⟨65535⟩, ⟨2, 3⟩, ⟨none, maxPageNo⟩⟩ ⟨Disk.twoFiles, pool⟩
        [.insert ⟨1⟩ ⟨10⟩]).any check = true := ⟨_, rfl, by decide +kernel⟩
  obtain ⟨⟨pages, tree', s'⟩, made, found⟩ := (Option.any_eq_true _ _).mp checked
  obtain ⟨pages_eq, root_eq⟩ := Bool.and_eq_true_iff.mp found
  have pages_eq : pages = [.sentinel] := of_decide_eq_true pages_eq
  subst pages_eq
  exact ⟨pool, _, tree', s', new, rfl, made, of_decide_eq_true root_eq, by decide⟩

/-- With the same anchor in the segment before it, the last page is valid. -/
theorem last_page_but_one_valid : ∃ (pool : Pool) (tree tree' : Tree (Word false 1) (Word false 1))
    (s' : Storage) (page : PageId), Pool.new 4 = .ok pool ∧
    Tree.reopen ⟨65534⟩ ⟨2, 3⟩ ⟨none, maxPageNo⟩ = .ok tree ∧
    tree.callAll ⟨Disk.twoFiles, pool⟩ [.insert ⟨1⟩ ⟨10⟩] = some ([page], tree', s') ∧
    tree'.anchor = ⟨some page, maxPageNo + 1⟩ ∧ PageId.sentinel ∉ [page] ∧ page.isValid = true ∧
    ∀ page, tree'.Owns s'.content page → page.isValid = true := by
  have opened : Tree.reopen ⟨65534⟩ ⟨2, 3⟩ ⟨none, maxPageNo⟩ =
      .ok (⟨⟨65534⟩, ⟨2, 3⟩, ⟨none, maxPageNo⟩⟩ : Tree (Word false 1) (Word false 1)) := rfl
  let last : PageId := .ofParts ⟨65534⟩ maxPageNo
  let check : List PageId × Tree (Word false 1) (Word false 1) × Storage → Bool
    | (pages, tree, _) => pages = [last] && tree.anchor = ⟨some last, maxPageNo + 1⟩
  obtain ⟨pool, new, checked⟩ : ∃ pool, Pool.new 4 = .ok pool ∧
      (callAll ⟨⟨65534⟩, ⟨2, 3⟩, ⟨none, maxPageNo⟩⟩ ⟨Disk.twoFiles, pool⟩
        [.insert ⟨1⟩ ⟨10⟩]).any check = true := ⟨_, rfl, by decide +kernel⟩
  obtain ⟨⟨pages, tree', s'⟩, made, found⟩ := (Option.any_eq_true _ _).mp checked
  obtain ⟨pages_eq, anchor_eq⟩ := Bool.and_eq_true_iff.mp found
  have pages_eq : pages = [last] := of_decide_eq_true pages_eq
  subst pages_eq
  have elsewhere : (⟨65534⟩ : SegmentId) ≠ PageId.lastSegment := by decide
  obtain ⟨handed, valid⟩ := sentinel_handed_out_iff opened made
  obtain ⟨handed_valid, owned_valid⟩ := valid fun same => absurd same elsewhere
  exact ⟨pool, _, tree', s', last, new, opened, made, of_decide_eq_true anchor_eq,
    fun mem => elsewhere (handed.mp mem).1, handed_valid last (by simp),
    owned_valid (recoverable_of_opened opened Disk.attached_twoFiles new)⟩

end Tree

end PagedIndex
