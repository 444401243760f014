import PagedIndex.Tree.Basic
import Std.Data.TreeSet

/-!
Inspection of whole trees: height, number of entries, structural validation and a listing of the
nodes. Each holds one page at a time.

Validation trusts nothing it reads: it checks a node's count before its slots, the level of a
child before it goes on, and meets no page twice, so it ends on any page contents.
-/

namespace PagedIndex.Tree

variable {K V : Type} [IndexKey K] [FixedWidth V]

def visit (page : PageId) : Access Page := do
  let pinned ← Access.fetch .shared page
  Access.release pinned
  return pinned.bytes

def height (tree : Tree K V) : Access Nat := do
  let some root := tree.anchor.root | return 0
  let header ← Access.ofNode (Header.read (← visit root))
  return header.level.toNat + 1

/-- Entries below a page, counted from the last child to the first. -/
def countFrom (tree : Tree K V) : Nat → PageId → Access Nat
  | 0, _ => Access.violate .endlessDescent
  | depth + 1, page => do
    let bytes ← visit page
    let header ← Access.ofNode (Header.read bytes)
    if header.isLeaf then return header.count.toNat
    let children ← Access.ofNode (tree.inner.children bytes)
    children.foldrM (fun child total => return total + (← tree.countFrom depth child)) 0

def length (tree : Tree K V) : Access Nat := do
  let some root := tree.anchor.root | return 0
  tree.countFrom descentBound root

def isEmpty (tree : Tree K V) : Access Bool := return (← tree.length) = 0

structure Shape where
  height : Nat
  leaves : Nat
  inners : Nat
  entries : Nat
  deriving DecidableEq, Repr

/-- The keys from `low` on and below `high`; a bound that is missing bounds nothing. -/
structure Range (K : Type) where
  low : Option K
  high : Option K

namespace Range

def all : Range K := ⟨none, none⟩

def contains (range : Range K) (key : K) : Bool :=
  range.low.all (fun low => (compare low key).isLE) &&
    range.high.all fun high => compare key high == .lt

end Range

def isAscending : List K → Bool
  | first :: second :: rest => compare first second == .lt && isAscending (second :: rest)
  | _ => true

def checkKeys (page : PageId) (keys : List K) (range : Range K) : Except TreeFault Unit :=
  if !isAscending keys then .error (.unsortedKeys page)
  else if !keys.all range.contains then .error (.misroutedKeys page)
  else .ok ()

def subranges (range : Range K) : List K → List (Range K)
  | [] => [range]
  | key :: rest => ⟨range.low, some key⟩ :: subranges ⟨some key, range.high⟩ rest

/-- What a validation has met so far. -/
structure Census where
  seen : Std.TreeSet PageId
  shape : Shape

def ofCheck {α : Type} : Except TreeFault α → Access α
  | .ok a => return a
  | .error fault => Access.error (.corrupted fault)

def checkLeaf (tree : Tree K V) (page : PageId) (bytes : Page) (count : Nat) (range : Range K)
    (census : Census) : Access Census := do
  if tree.capacities.leaf < count then
    Access.error (.corrupted (.entryCount page count tree.capacities.leaf))
  ofCheck (checkKeys page (← Access.ofNode (tree.leaf.keys bytes)) range)
  let shape := census.shape
  return { census with
    shape := { shape with leaves := shape.leaves + 1, entries := shape.entries + count } }

/-- The children of an inner node with their ranges, once the node itself is checked. -/
def checkInner (tree : Tree K V) (page : PageId) (bytes : Page) (count : Nat) (range : Range K) :
    Access (List (PageId × Range K)) := do
  if count = 0 ∨ tree.capacities.inner < count then
    Access.error (.corrupted (.childCount page count tree.capacities.inner))
  let keys ← Access.ofNode (tree.inner.keys bytes)
  ofCheck (checkKeys page keys range)
  let children ← Access.ofNode (tree.inner.children bytes)
  return children.zip (subranges range keys)

/-- Checks the nodes from a page down, the last child first. The root is at any level. -/
def validateFrom (tree : Tree K V) : Nat → PageId → Option UInt16 → Range K → Census →
    Access Census
  | 0, _, _, _, _ => Access.violate .endlessDescent
  | depth + 1, page, expected, range, census => do
    if page ∈ census.seen then Access.error (.corrupted (.reachedTwice page))
    let census := { census with seen := census.seen.insert page }
    let bytes ← visit page
    let header ← Access.ofNode (Header.read bytes)
    let census ←
      match expected with
      | none => pure { census with shape.height := header.level.toNat + 1 }
      | some level =>
        if level = header.level then pure census
        else Access.error (.corrupted (.wrongLevel page header.level level))
    let count := header.count.toNat
    if header.isLeaf then tree.checkLeaf page bytes count range census
    else
      let children ← tree.checkInner page bytes count range
      let census := { census with shape.inners := census.shape.inners + 1 }
      children.foldrM (fun (child, range) census =>
        tree.validateFrom depth child (some (header.level - 1)) range census) census

/-- Levels drop from a root of any level to zero, one by one. -/
def depthBound : Nat := 65536

/-- The shape of a tree whose structure is sound, or the first fault found in it. -/
def validate (tree : Tree K V) : Access Shape := do
  let none : Shape := ⟨0, 0, 0, 0⟩
  let some root := tree.anchor.root | return none
  return (← tree.validateFrom depthBound root Option.none .all ⟨∅, none⟩).shape

inductive NodeListing (K V : Type) where
  | leaf (page : PageId) (entries : List (K × V))
  | inner (page : PageId) (level : UInt16) (keys : List K) (children : List PageId)

def listFrom (tree : Tree K V) : Nat → PageId → Access (List (NodeListing K V))
  | 0, _ => Access.violate .endlessDescent
  | depth + 1, page => do
    let bytes ← visit page
    let header ← Access.ofNode (Header.read bytes)
    if header.isLeaf then
      return [.leaf page (← Access.ofNode (tree.leaf.entries bytes))]
    let keys ← Access.ofNode (tree.inner.keys bytes)
    let children ← Access.ofNode (tree.inner.children bytes)
    let below ← children.mapM (tree.listFrom depth)
    return .inner page header.level keys children :: below.flatten

/-- The nodes of a tree, each before those below it, from left to right. -/
def list (tree : Tree K V) : Access (List (NodeListing K V)) := do
  let some root := tree.anchor.root | return []
  tree.listFrom descentBound root

end PagedIndex.Tree
