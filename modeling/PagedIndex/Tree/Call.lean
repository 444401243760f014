import PagedIndex.Tree.Erase
import PagedIndex.Tree.Inspect
import PagedIndex.Tree.Lookup

/-!
The calls of a tree as data. A call that fails answers with an error and leaves a tree that can be
called again; a violated call leaves none.
-/

namespace PagedIndex

inductive Call (K V : Type) where
  | insert (key : K) (value : V)
  | erase (key : K)
  | lookup (key : K)
  | height
  | length
  | isEmpty
  | validate
  deriving DecidableEq, Repr

inductive Answer (V : Type) where
  | done
  | value (found : Option V)
  | count (n : Nat)
  | verdict (holds : Bool)
  | shape (shape : Tree.Shape)
  deriving DecidableEq, Repr

abbrev Outcome (V : Type) := Except Error (Answer V)

namespace Tree

variable {K V : Type} [IndexKey K] [FixedWidth V]

def program (tree : Tree K V) : Call K V → Access (Answer V)
  | .insert key value => do
    tree.insert key value
    return .done
  | .erase key => do
    tree.erase key
    return .done
  | .lookup key => Answer.value <$> tree.lookup key
  | .height => Answer.count <$> tree.height
  | .length => Answer.count <$> tree.length
  | .isEmpty => Answer.verdict <$> tree.isEmpty
  | .validate => Answer.shape <$> tree.validate

structure Reached (K V : Type) where
  outcome : Outcome V
  tree : Tree K V
  storage : Storage

def call (tree : Tree K V) (call : Call K V) (storage : Storage) :
    Except Violation (Reached K V) :=
  match tree.perform (tree.program call) storage with
  | (.ok answer, tree, storage) => .ok ⟨.ok answer, tree, storage⟩
  | (.error (.error error), tree, storage) => .ok ⟨.error error, tree, storage⟩
  | (.error (.violation violation), _, _) => .error violation

end Tree

end PagedIndex
