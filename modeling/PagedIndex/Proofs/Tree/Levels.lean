import PagedIndex.Proofs.Tree.Adoption
import PagedIndex.Proofs.Tree.Effects
import PagedIndex.Proofs.Tree.Heights

/-!
# Levels never wrap

A level is a number of two bytes, and a split of the root writes the level after that of the old
root. With room for four children in its inner nodes a tree costs no more than it took pages, so
with the pages of one segment its root stays far below the levels there are.
-/

namespace PagedIndex.Tree

open Access Session

variable {K V : Type} [IndexKey K] [FixedWidth V] {tree : Tree K V} {s : Storage}
  {pages : List PageId}

/-- A tree that was opened without a page costs no more than it took pages, whatever was called and
however often it was closed and opened again. -/
theorem Lineage.thrifty (lineage : Lineage pages tree s) (roomy : 4 ≤ tree.capacities.inner) :
    ∃ map n, Session.Thrifty ⟨tree, s, map⟩ n := by
  induction lineage with
  | opened opened attached new => exact ⟨_, _, bare_thrifty opened new⟩
  | called before called ih =>
    rw [tree_of_call called] at roomy
    obtain ⟨map, n, h⟩ := ih roomy
    exact ⟨_, _, call_preserves_thrift h roomy called⟩
  | elsewhere before spares leaves ih =>
    obtain ⟨map, n, h⟩ := ih roomy
    have apart := Pool.apart_of_leaves h.invariant.coherent h.invariant.free spares leaves
    exact ⟨map, n, h.of_same apart.coherent apart.free apart.content⟩
  | reopened before whole flushed attached new reopened ih =>
    have recoverable := before.recoverable
    obtain rfl := Except.ok.inj (recoverable.reopens.symm.trans reopened)
    obtain ⟨map, n, h⟩ := ih roomy
    refine ⟨map, n, h.of_same (Pool.new_coherent new _).1 ?_ fun page here =>
      recoverable.same_reopened whole flushed attached new here⟩
    rw [Pool.guards_of_new new]
    exact fun guard mem => absurd mem List.not_mem_nil

/-- What a call that changes the root makes of it: the first leaf, or an inner node one level above
the old root. -/
def Promotes (tree : Tree K V) (s : Storage) (reached : Reached K V) : Prop :=
  (tree.anchor.root = none ∧ ∃ root, reached.tree.anchor.root = some root ∧
    (Header.of (reached.storage.content root)).level = 0) ∨
  ∃ old new, tree.anchor.root = some old ∧ reached.tree.anchor.root = some new ∧
    (Header.of (reached.storage.content new)).level = (Header.of (s.content old)).level + 1

theorem insert_promotes {key : K} {value : V} {reached : Reached K V}
    (lineage : Lineage pages tree s) (called : tree.call (.insert key value) s = .ok reached) :
    reached.tree.anchor.root = tree.anchor.root ∨ tree.Promotes s reached := by
  have recoverable := lineage.recoverable
  have suitable := Capacities.suitable_of_check recoverable.accepted
  obtain ⟨own, lodged⟩ := recoverable.lodged
  obtain ⟨trail, rested, ended⟩ := insert_comes suitable lodged.coherent lineage.tidy called
  have anchored : reached.tree.anchor = trail.anchor := rested.anchor
  have content : reached.storage.content = trail.content := rested.content
  rw [Promotes, anchored, content]
  split at ended
  · rcases ended with ⟨leaf, planted⟩ | ⟨partings, content', leaf, entered⟩
    · exact .inr (.inl ⟨planted.bare, leaf, by rw [planted.anchor], planted.level⟩)
    · refine (entered.splits.root_level suitable lineage.tidy).imp_right ?_
      rintro ⟨old, new, was, is, level⟩
      exact .inr ⟨old, new, was, is, (entered.same_level suitable lineage.tidy new).trans level⟩
  · obtain ⟨partings, anchor, content', ahead⟩ := ended
    rw [ahead.root]
    refine (ahead.splits.root_level suitable lineage.tidy).imp_right ?_
    rintro ⟨old, new, was, is, level⟩
    have minted := (ahead.splits.tidy suitable lineage.tidy).minted new
      ((ahead.splits.tidy suitable lineage.tidy).root new is)
    rw [← ahead.same new fun added => added.1 minted] at level
    exact .inr ⟨old, new, was, is, level⟩

/-- With room for four children in its inner nodes, a tree that was opened without a page never has
more than 50 levels, whichever calls were made and wherever they failed. The level of the root tells
how many there are. A call that changes the root makes it the first leaf, or an inner node whose
level is that of the old root and one, as a number. -/
theorem level_never_wraps (lineage : Lineage pages tree s) (roomy : 4 ≤ tree.capacities.inner) :
    ∃ height ≤ 50, tree.Yields .height s (· = .count height) ∧
      (∀ root, tree.anchor.root = some root →
        (Header.of (s.content root)).level.toNat + 1 = height) ∧
      ∀ call : Call K V, ∃ reached, tree.call call s = .ok reached ∧
        (reached.tree.anchor.root = tree.anchor.root ∨
        (tree.anchor.root = none ∧ ∃ root, reached.tree.anchor.root = some root ∧
          (Header.of (reached.storage.content root)).isLeaf = true) ∨
        ∃ old new, tree.anchor.root = some old ∧ reached.tree.anchor.root = some new ∧
          (Header.of (reached.storage.content new)).level.toNat =
            (Header.of (s.content old)).level.toNat + 1 ∧
          (Header.of (reached.storage.content new)).isLeaf = false) := by
  obtain ⟨map, n, h⟩ := lineage.thrifty roomy
  have low := h.invariant.levels_lt h.covered
  refine ⟨tree.levels s.content, Nat.le_of_lt low, h.invariant.yields_height,
    fun root anchored => ?_, fun call => ?_⟩
  · rw [levels, anchored, Option.elim_some]
  have admitted := h.invariant.admits h.covered call
  obtain ⟨reached, called, -⟩ := h.invariant.call_settles admitted
  refine ⟨reached, called, ?_⟩
  have still (edits : ∀ request, call.Requires request → request.Edits) :
      reached.tree.anchor.root = tree.anchor.root := by rw [call_edits called edits]
  cases call with
  | erase key => exact .inl (still fun _ edits => edits)
  | lookup | height | length | isEmpty | validate => exact .inl (still fun _ => Request.Looks.edits)
  | insert key value =>
    refine (insert_promotes lineage called).imp_right ?_
    rintro (⟨bare, root, anchored, leaf⟩ | ⟨old, new, was, is, level⟩)
    · exact .inl ⟨bare, root, anchored, by rw [Header.isLeaf, leaf]; rfl⟩
    · rw [levels, was, Option.elim_some] at low
      have number : (Header.of (reached.storage.content new)).level.toNat =
          (Header.of (s.content old)).level.toNat + 1 := by
        rw [level, UInt16.toNat_add]
        exact Nat.mod_eq_of_lt (Nat.lt_trans low (by decide))
      refine .inr ⟨old, new, was, is, number, ?_⟩
      rw [Header.isLeaf, beq_eq_false_iff_ne]
      intro zero
      rw [zero] at number
      exact Nat.succ_ne_zero _ number.symm

/-- The third entry splits the root of a tree with four slots in inner nodes. -/
theorem third_entry_promotes : ∃ (pages : List PageId) (tree : Tree (Word false 1) (Word false 1))
    (s : Storage) (reached : Reached (Word false 1) (Word false 1)) (old new : PageId),
    Lineage pages tree s ∧ 4 ≤ tree.capacities.inner ∧
    tree.call (.insert ⟨3⟩ ⟨30⟩) s = .ok reached ∧ tree.anchor.root = some old ∧
    reached.tree.anchor.root = some new ∧
    (Header.of (reached.storage.content new)).level.toNat =
      (Header.of (s.content old)).level.toNat + 1 := by
  have opened : Tree.reopen ⟨1⟩ ⟨2, 4⟩ ⟨none, 0⟩ =
      .ok (⟨⟨1⟩, ⟨2, 4⟩, ⟨none, 0⟩⟩ : Tree (Word false 1) (Word false 1)) := rfl
  let check : List PageId × Tree (Word false 1) (Word false 1) × Storage → Bool
    | (_, tree, s) => 4 ≤ tree.capacities.inner && (tree.anchor.root.isSome &&
        (tree.call (.insert ⟨3⟩ ⟨30⟩) s).toOption.any
          (·.tree.anchor.root ≠ tree.anchor.root))
  obtain ⟨pool, new, checked⟩ : ∃ pool, Pool.new 4 = .ok pool ∧
      (callAll ⟨⟨1⟩, ⟨2, 4⟩, ⟨none, 0⟩⟩ ⟨Disk.twoFiles, pool⟩
        [.insert ⟨1⟩ ⟨10⟩, .insert ⟨2⟩ ⟨20⟩]).any check = true :=
    ⟨_, rfl, by decide +kernel⟩
  obtain ⟨⟨pages, tree, s⟩, made, found⟩ := (Option.any_eq_true _ _).mp checked
  obtain ⟨roomy, found⟩ := Bool.and_eq_true_iff.mp found
  obtain ⟨rooted, found⟩ := Bool.and_eq_true_iff.mp found
  obtain ⟨reached, called, moved⟩ := (Option.any_eq_true _ _).mp found
  have called := Session.ok_of_toOption called
  have lineage := (Lineage.opened opened Disk.attached_twoFiles new).callAll made
  have roomy : 4 ≤ tree.capacities.inner := of_decide_eq_true roomy
  obtain ⟨height, -, -, -, calls⟩ := level_never_wraps lineage roomy
  obtain ⟨reached', called', same | ⟨bare, -⟩ | ⟨old, new, was, is, level, -⟩⟩ :=
    calls (.insert ⟨3⟩ ⟨30⟩)
  · cases called.symm.trans called'
    exact absurd same (of_decide_eq_true moved)
  · rw [bare] at rooted
    cases rooted
  · cases called.symm.trans called'
    exact ⟨_, tree, s, reached, old, new, lineage, roomy, called, was, is, level⟩

end PagedIndex.Tree
