import PagedIndex.Fault
import PagedIndex.Node.Inner
import PagedIndex.Page

/-!
How many slots the nodes of a tree have. Every page of a tree is laid out for its capacities, so
they stay the same for the tree's lifetime.
-/

namespace PagedIndex

structure Capacities where
  leaf : Nat
  inner : Nat
  deriving DecidableEq, Repr

namespace Capacities

def default : Capacities := ⟨42, 42⟩

/-- The smallest leaf that splits into two that are not empty. -/
def leastLeaf : Nat := 2

/-- The smallest inner node whose split leaves two children on the right. -/
def leastInner : Nat := 3

/-- Entries of a width that fit a page. The header counts them in two bytes. -/
def pageSlots (width : Nat) : Nat := min ((pageSize - headerSize) / max width 1) 65535

def entryWidth (K V : Type) [FixedWidth K] [FixedWidth V] : Nat :=
  FixedWidth.width K + FixedWidth.width V

def mostLeaf (K V : Type) [FixedWidth K] [FixedWidth V] : Nat := pageSlots (entryWidth K V)

def mostInner (K : Type) [FixedWidth K] : Nat := pageSlots (entryWidth K PageId)

def filling (K V : Type) [FixedWidth K] [FixedWidth V] : Capacities :=
  ⟨mostLeaf K V, mostInner K⟩

/-- Accepts the capacities under which both kinds of node fit a page and can be split. -/
def check (K V : Type) [FixedWidth K] [FixedWidth V] (capacities : Capacities) :
    Except ConfigFault Unit := do
  if capacities.leaf < leastLeaf then throw (.leafBelow capacities.leaf leastLeaf)
  if capacities.inner < leastInner then throw (.innerBelow capacities.inner leastInner)
  if mostLeaf K V < capacities.leaf then
    throw (.leafAbove capacities.leaf (mostLeaf K V) (entryWidth K V))
  if mostInner K < capacities.inner then
    throw (.innerAbove capacities.inner (mostInner K) (entryWidth K PageId))

def leafLayout (K V : Type) (capacities : Capacities) : LeafLayout K V := ⟨capacities.leaf⟩

def innerLayout (K : Type) (capacities : Capacities) : InnerLayout K := ⟨capacities.inner⟩

end Capacities

end PagedIndex
