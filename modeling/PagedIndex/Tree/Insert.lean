import PagedIndex.Tree.Basic

/-!
Insertion.

An insert goes down with exclusive guards on a node and its parent and splits every full node
before it enters it, so a parent always has room for the separator of a split below it. A split
pins all its pages before it changes any. A leaf that already holds the key is never split.
-/

namespace PagedIndex.Tree

variable {K V : Type} [IndexKey K] [FixedWidth V]

/-- A node and, below the root, its parent. -/
structure Descent where
  parent : Option Pinned
  current : Pinned

/-- Two nodes that came from one, the separator between them, and the parent of both. -/
structure Parted (K : Type) where
  left : Pinned
  right : Pinned
  separator : K
  parent : Pinned

def halve (tree : Tree K V) (level : UInt16) (source target : Page) :
    Except Violation (Halves K pageSize) :=
  if level = 0 then tree.leaf.split source target else tree.inner.split source target

/-- Hands a program the pages of a split: the sibling, and the parent or a new root. -/
def pinForSplit (parent : Option Pinned) : Access (Pinned × Pinned) := do
  let sibling ← Access.create (← Access.mint)
  match parent with
  | some parent => return (sibling, parent)
  | none => return (sibling, ← Access.create (← Access.mint))

/-- Splits a full node and hooks its new sibling into the parent, or into a new root above. -/
def split (tree : Tree K V) (descent : Descent) : Access (Parted K) := do
  let current := descent.current
  let header ← Access.ofNode (Header.read current.bytes)
  let (sibling, parent) ← pinForSplit descent.parent
  let halves ← Access.ofNode (tree.halve header.level current.bytes sibling.bytes)
  Access.write sibling halves.right
  Access.write current halves.left
  let edit : Edit pageSize Unit :=
    match descent.parent with
    | none => tree.inner.format (header.level + 1) current.page halves.separator sibling.page
    | some _ => discard (tree.inner.insert halves.separator sibling.page)
  let ((), bytes) ← Access.ofNode (edit.run parent.bytes)
  Access.write parent bytes
  if descent.parent.isNone then Access.setRoot parent.page
  return {
    left := { current with bytes := halves.left }
    right := { sibling with bytes := halves.right }
    separator := halves.separator
    parent := { parent with bytes } }

def enterHalf (tree : Tree K V) (key : K) (descent : Descent) : Access Descent := do
  let parted ← tree.split descent
  if (compare key parted.separator).isGE then
    Access.release parted.left
    return ⟨some parted.parent, parted.right⟩
  else
    Access.release parted.right
    return ⟨some parted.parent, parted.left⟩

/-- Goes down one level, and lets go of the node above the one it leaves. -/
def enterChild (tree : Tree K V) (key : K) (descent : Descent) : Access Descent := do
  let child ← Access.ofNode (tree.inner.childFor descent.current.bytes key)
  let next ← Access.fetch .exclusive child
  if let some parent := descent.parent then Access.release parent
  return ⟨some descent.current, next⟩

def insertFrom (tree : Tree K V) (key : K) (value : V) : Nat → Descent → Access Unit
  | 0, _ => Access.violate .endlessDescent
  | steps + 1, descent => do
    let current := descent.current
    let header ← Access.ofNode (Header.read current.bytes)
    if header.isLeaf then
      let position ← Access.ofNode (tree.leaf.position current.bytes key)
      if position.found || header.count.toNat < tree.capacities.leaf then
        let (_, bytes) ← Access.ofNode ((tree.leaf.insert key value).run current.bytes)
        Access.write current bytes
      else
        tree.insertFrom key value steps (← tree.enterHalf key descent)
    else if header.count.toNat < tree.capacities.inner then
      tree.insertFrom key value steps (← tree.enterChild key descent)
    else
      tree.insertFrom key value steps (← tree.enterHalf key descent)

/-- Every split mints a page number, and between two splits a descent changes no page. -/
def insertBound : Nat := (pageNoSpan + 1) * (descentBound + 1)

def plant (tree : Tree K V) (key : K) (value : V) : Access Unit := do
  let root ← Access.create (← Access.mint)
  let edit : Edit pageSize Unit := do
    tree.leaf.format
    discard (tree.leaf.insert key value)
  let ((), bytes) ← Access.ofNode (edit.run root.bytes)
  Access.write root bytes
  Access.setRoot root.page

def insert (tree : Tree K V) (key : K) (value : V) : Access Unit := do
  match tree.anchor.root with
  | none => tree.plant key value
  | some root =>
    let top ← Access.fetch .exclusive root
    tree.insertFrom key value insertBound ⟨none, top⟩

end PagedIndex.Tree
