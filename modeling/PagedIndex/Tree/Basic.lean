import PagedIndex.Node.Capacities
import PagedIndex.Tree.Access

/-!
Trees: ordered indexes whose nodes are pages of one segment.

A tree owns its segment. It takes page numbers in ascending order and never gives one back, so no
page id is used twice. Calls on a tree run on the storage its pages are in and leave nothing
pinned.
-/

namespace PagedIndex

structure Tree (K V : Type) where
  segment : SegmentId
  capacities : Capacities
  anchor : Anchor
  deriving DecidableEq, Repr

namespace Tree

variable {K V : Type}

/-- A tree over the pages it had when its anchor was noted. The capacities must be the same. -/
def reopen [FixedWidth K] [FixedWidth V] (segment : SegmentId) (capacities : Capacities)
    (anchor : Anchor) : Except Error (Tree K V) := do
  match capacities.check K V with
  | .error fault => throw (.config fault)
  | .ok () => pure ()
  if maxPageNo + 1 < anchor.nextPageNo then
    throw (.corrupted (.counterPastEnd anchor.nextPageNo segment))
  if let some root := anchor.root then
    if root.segment ≠ segment ∨ anchor.nextPageNo ≤ root.pageNo then
      throw (.corrupted (.foreignRoot root segment))
  return { segment, capacities, anchor }

def new [FixedWidth K] [FixedWidth V] (segment : SegmentId) (capacities : Capacities) :
    Except Error (Tree K V) :=
  reopen segment capacities .empty

def leaf (tree : Tree K V) : LeafLayout K V := tree.capacities.leafLayout K V

def inner (tree : Tree K V) : InnerLayout K := tree.capacities.innerLayout K

/-- Runs a call of the tree. What the call changed stays changed when it fails. -/
def perform {α : Type} (tree : Tree K V) (program : Access α) (storage : Storage) :
    Except Failure α × Tree K V × Storage :=
  match (program.perform tree.segment).run ⟨tree.anchor, storage⟩ with
  | .ok a footing => (.ok a, { tree with anchor := footing.anchor }, footing.storage)
  | .error failure footing =>
    (.error failure, { tree with anchor := footing.anchor }, footing.storage)

/-- Steps after which a descent has met some page twice: there are no more page ids. -/
def descentBound : Nat := 1 <<< 64

end Tree

end PagedIndex
