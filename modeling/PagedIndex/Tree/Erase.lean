import PagedIndex.Tree.Insert

/-!
Erasure. A leaf that loses its last entry is taken out of its parent unless it is the only child;
a neighbour then answers for its keys. Nodes are not merged and pages not given back.
-/

namespace PagedIndex.Tree

variable {K V : Type} [IndexKey K] [FixedWidth V]

/-- Goes down to the leaf whose range holds `key`, with its parent. -/
def descendExclusive (tree : Tree K V) (key : K) : Nat → Descent → Access Descent
  | 0, _ => Access.violate .endlessDescent
  | steps + 1, descent => do
    let header ← Access.ofNode (Header.read descent.current.bytes)
    if header.isLeaf then return descent
    tree.descendExclusive key steps (← tree.enterChild key descent)

/-- Takes the child whose range holds `key` out of a node, unless it is the only one. -/
def unlink (tree : Tree K V) (key : K) (parent : Pinned) : Access Unit := do
  if 1 < (← Access.ofNode (tree.inner.count parent.bytes)) then
    let (_, bytes) ← Access.ofNode ((tree.inner.removeChildFor key).run parent.bytes)
    Access.write parent bytes

def erase (tree : Tree K V) (key : K) : Access Unit := do
  let some root := tree.anchor.root | return
  let top ← Access.fetch .exclusive root
  let descent ← tree.descendExclusive key descentBound ⟨none, top⟩
  let bottom := descent.current
  let position ← Access.ofNode (tree.leaf.position bottom.bytes key)
  if position.found then
    let (_, bytes) ← Access.ofNode ((tree.leaf.erase key).run bottom.bytes)
    Access.write bottom bytes
    if (← Access.ofNode (tree.leaf.count bytes)) = 0 then
      if let some parent := descent.parent then tree.unlink key parent

end PagedIndex.Tree
