import PagedIndex.Tree.Basic

/-!
Lookups. A lookup goes down from the root with shared guards and lets go of a node once it holds
the node below.
-/

namespace PagedIndex.Tree

variable {K V : Type} [IndexKey K] [FixedWidth V]

def descend (tree : Tree K V) (key : K) : Nat → Pinned → Access Pinned
  | 0, _ => Access.violate .endlessDescent
  | steps + 1, current => do
    let header ← Access.ofNode (Header.read current.bytes)
    if header.isLeaf then return current
    let child ← Access.ofNode (tree.inner.childFor current.bytes key)
    let next ← Access.fetch .shared child
    Access.release current
    tree.descend key steps next

def lookup (tree : Tree K V) (key : K) : Access (Option V) := do
  let some root := tree.anchor.root | return none
  let top ← Access.fetch .shared root
  let bottom ← tree.descend key descentBound top
  Access.ofNode (tree.leaf.lookup bottom.bytes key)

end PagedIndex.Tree
