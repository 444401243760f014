import Mathlib.Algebra.Order.BigOperators.Group.List
import Mathlib.Algebra.Order.Ring.Nat
import PagedIndex.Proofs.Tree.InOrder

/-!
# What a tree costs

The cost of a tree is how many leaves had to be split at least to make it. When each inner node has
two children, that is all leaves but one; each child beyond two counts for as many leaves as a tree
of pairs has in its place. When a node with four children or more is split, two more of them come to
be among the first two of a node, and pay for the child that the parent gets. So with room for four
children only the split of a leaf makes a tree cost more, by one.
-/

namespace PagedIndex.Tree

section Sums

variable {listed listed' fresh : List PageId} {page other : PageId}

theorem sum_le_of_subperm (fewer : listed'.Subperm (fresh ++ listed)) (f : PageId → Nat) :
    (listed'.map f).sum ≤ (fresh.map f).sum + (listed.map f).sum := by
  obtain ⟨among, same, sub⟩ := fewer
  have less := (sub.map f).sum_le_sum fun _ _ => Nat.zero_le _
  rwa [(same.map f).sum_eq, List.map_append, List.sum_append] at less

variable (nodup : listed.Nodup) (f f' : PageId → Nat)

include nodup

theorem sum_exchange (mem : page ∈ listed) (no_more : ∀ p ∈ listed, p ≠ page → f' p ≤ f p) :
    (listed.map f').sum + f page ≤ (listed.map f).sum + f' page := by
  have others : ((listed.erase page).map f').sum ≤ ((listed.erase page).map f).sum := by
    refine List.sum_le_sum fun p mem => ?_
    obtain ⟨apart, mem⟩ := nodup.mem_erase_iff.mp mem
    exact no_more p mem apart
  have before := List.sum_map_erase f mem
  have after := List.sum_map_erase f' mem
  omega

theorem sum_exchange_pair (mem : page ∈ listed) (mem' : other ∈ listed) (apart : other ≠ page)
    (no_more : ∀ p ∈ listed, p ≠ page → p ≠ other → f' p ≤ f p) :
    (listed.map f').sum + f page + f other ≤ (listed.map f).sum + f' page + f' other := by
  have first := sum_exchange nodup f (Function.update f page (f' page)) mem fun p _ apart => by
    rw [Function.update_of_ne apart]
  have second := sum_exchange nodup (Function.update f page (f' page)) f' mem' fun p mem apart => by
    by_cases here : p = page
    · subst here
      rw [Function.update_self]
    · rw [Function.update_of_ne here]
      exact no_more p mem here apart
  rw [Function.update_self] at first
  rw [Function.update_of_ne apart] at second
  omega

end Sums

variable {K V : Type}

/-- What the children of a node beyond two cost. -/
def Node.cost : Node K V → Nat
  | leaf _ => 0
  | inner level _ pointers => 2 ^ (level - 1) * (pointers.length - 2)

def costBelow (nodes : Nodes K V) (height : Nat) (root : PageId) : Nat :=
  2 ^ height - 1 + ((pages nodes height root).map fun p => (nodes p).cost).sum

theorem costBelow_congr {nodes nodes' : Nodes K V} {height : Nat} {root : PageId}
    (same : ∀ p ∈ pages nodes height root, nodes' p = nodes p) :
    costBelow nodes' height root = costBelow nodes height root := by
  rw [costBelow, costBelow, pages_congr same, List.map_congr_left fun p mem => by rw [same p mem]]

variable [IndexKey K] {capacities : Capacities} {nodes nodes' : Nodes K V} {height level : Nat}
  {root page sibling above : PageId} {separator : K}

/-- Two children fewer are beyond two after a cut, and pay for the one that the node above gets. -/
theorem Cut.cost_le
    (cut : Cut capacities nodes nodes' height root level page sibling above separator)
    (roomy : 4 ≤ capacities.inner) :
    (nodes' page).cost + (nodes' sibling).cost + 2 ^ level ≤
      (nodes page).cost + leafSplits level := by
  have halved := cut.halved
  have full := cut.full
  obtain ⟨range, sound⟩ := cut.sound
  generalize nodes' page = lower at halved ⊢
  generalize nodes' sibling = upper at halved ⊢
  cases level with
  | zero =>
    obtain ⟨listed, node, -⟩ := sound
    rw [node] at halved ⊢
    cases halved with
    | leaf occupied => exact Nat.le_refl 1
  | succ level =>
    obtain ⟨separators, pointers, node, -, -⟩ := sound
    rw [node] at halved full ⊢
    cases halved with
    | @inner _ left right _ before after place even =>
      have many : 4 ≤ (before ++ after).length := Nat.le_trans roomy (Nat.le_of_not_lt full)
      rw [List.length_append] at even many
      obtain ⟨kept, lower_length⟩ : ∃ kept, before.length = 2 + kept :=
        Nat.exists_eq_add_of_le (by omega)
      obtain ⟨moved, upper_length⟩ : ∃ moved, after.length = 2 + moved :=
        Nat.exists_eq_add_of_le (by omega)
      have parted : (before ++ after).length - 2 = kept + moved + 2 := by
        rw [List.length_append]
        omega
      simp only [Node.cost, parted, lower_length, upper_length, Nat.add_sub_cancel_left,
        Nat.add_sub_cancel, Nat.mul_add, Nat.pow_succ]
      exact Nat.le_add_right _ _

/-- A child more costs as much as a tree of pairs has leaves in its place. -/
theorem Hooked.cost_le {left right : List K} {before after : List PageId} {parent : PageId}
    (node : nodes parent = .inner (level + 1) (left ++ right) (before ++ page :: after))
    (hooked : Hooked (level + 1) left right before after page sibling separator (nodes' parent)) :
    (nodes' parent).cost ≤ (nodes parent).cost + 2 ^ level := by
  rw [node]
  generalize nodes' parent = hooked_node at hooked
  cases hooked with
  | added smaller =>
    have one_more : (before ++ page :: sibling :: after).length - 2 ≤
        (before ++ page :: after).length - 2 + 1 := by
      simp only [List.length_append, List.length_cons]
      omega
    exact Nat.mul_le_mul_left _ one_more
  | retargeted last =>
    have as_many : (before ++ sibling :: after).length = (before ++ page :: after).length := by
      simp only [List.length_append, List.length_cons]
    rw [Node.cost, Node.cost, as_many]
    exact Nat.le_add_right _ _

section Changes

variable [FixedWidth V] {tree : Tree K V} {anchor anchor' : Anchor}
  {content content' : PageId → Page} {n : Nat}

def cost (tree : Tree K V) (anchor : Anchor) (content : PageId → Page) : Nat :=
  anchor.root.elim 0 fun root =>
    costBelow (tree.nodes content) (Header.of (content root)).level.toNat root

theorem Stood.cost_eq (h : tree.Stood anchor content height root) :
    tree.cost anchor content = costBelow (tree.nodes content) height root := by
  obtain ⟨anchored, held, rooted⟩ := h
  rw [cost, anchored, Option.elim_some, rooted.sound.level_eq]

theorem Stood.nodup (h : tree.Stood anchor content height root) :
    (pages (tree.nodes content) height root).Nodup := by
  obtain ⟨-, held, rooted⟩ := h
  exact rooted.nodup

theorem cost_of_same {held : List (K × V)} (order : InOrder tree anchor content held)
    (root : anchor'.root = anchor.root)
    (same : ∀ p, Minted tree.segment anchor.nextPageNo p → content' p = content p) :
    tree.cost anchor' content' = tree.cost anchor content := by
  cases anchored : anchor.root with
  | none => rw [cost, cost, root, anchored]; rfl
  | some top =>
    obtain ⟨height, rooted⟩ := order.rooted top anchored
    rw [cost, cost, root, anchored, Option.elim_some, Option.elim_some,
      same top (rooted.minted top (mem_pages_self _ _ _)), rooted.sound.level_eq]
    exact costBelow_congr fun p mem => by rw [nodes, same p (rooted.minted p mem)]; rfl

theorem cost_of_write {bytes : Page} (before : tree.Stood anchor content height root)
    (after : tree.Stood anchor (Function.update content page bytes) height root)
    (fewer : (pages (tree.nodes (Function.update content page bytes)) height root).Subperm
      (pages (tree.nodes content) height root))
    (no_more : (Node.of tree.capacities bytes : Node K V).cost ≤ (tree.nodes content page).cost) :
    tree.cost anchor (Function.update content page bytes) ≤ tree.cost anchor content := by
  have each (p : PageId) : (tree.nodes (Function.update content page bytes) p).cost ≤
      (tree.nodes content p).cost := by
    rw [nodes_update]
    by_cases here : p = page
    · subst here
      rw [Function.update_self]
      exact no_more
    · rw [Function.update_of_ne here]
  rw [before.cost_eq, after.cost_eq]
  refine Nat.add_le_add_left (Nat.le_trans ?_ (List.sum_le_sum fun p _ => each p)) _
  have listed := sum_le_of_subperm (show List.Subperm _ ([] ++ _) from fewer)
    fun p => (tree.nodes (Function.update content page bytes) p).cost
  rwa [List.map_nil, List.sum_nil, Nat.zero_add] at listed

/-- A change costs as many splits as it makes of leaves. -/
theorem Change.cost_le (change : Change tree n anchor content anchor' content')
    (roomy : 4 ≤ tree.capacities.inner) :
    tree.cost anchor' content' ≤ tree.cost anchor content + n := by
  cases change with
  | took order root more same => exact Nat.le_of_eq (cost_of_same order root same)
  | planted bare after more node =>
    rw [after.cost_eq, costBelow, pages, List.map_singleton, node]
    exact Nat.zero_le _
  | rewrote before after fewer node node' =>
    refine cost_of_write before after fewer ?_
    rw [node']
    exact Nat.zero_le _
  | unlinked before after fewer node node' left =>
    refine cost_of_write before after fewer ?_
    rw [node, node']
    exact Nat.mul_le_mul_left _ (Nat.sub_le_sub_right left.length_le 2)
  | @promoted _ _ _ _ height root top sibling _ before after more fewer cut new node =>
    have parted := cut.cost_le roomy
    have at_top : (tree.nodes content' top).cost = 0 := by rw [node]; rfl
    have listed := sum_le_of_subperm fewer fun p => (tree.nodes content' p).cost
    have exchanged := sum_exchange before.nodup (fun p => (tree.nodes content p).cost)
      (fun p => (tree.nodes content' p).cost) cut.mem fun p mem apart => by
        rw [cut.same p mem apart (by rintro rfl; exact new mem)]
    rw [before.cost_eq, after.cost_eq, costBelow, costBelow, Nat.pow_succ]
    simp only [List.map_cons, List.map_nil, List.sum_cons, List.sum_nil, at_top] at listed
    omega
  | @hooked _ _ _ _ height level root page sibling parent _ _ _ _ _ before after more fewer cut mem
      node hooked =>
    have parted := cut.cost_le roomy
    have at_parent := hooked.cost_le node
    have listed := sum_le_of_subperm (show List.Subperm _ ([sibling] ++ _) from fewer)
      fun p => (tree.nodes content' p).cost
    have exchanged := sum_exchange_pair before.nodup (fun p => (tree.nodes content p).cost)
      (fun p => (tree.nodes content' p).cost) cut.mem mem cut.apart fun p mem apart apart' => by
        rw [cut.same p mem apart apart']
    rw [before.cost_eq, after.cost_eq, costBelow, costBelow]
    simp only [List.map_cons, List.map_nil, List.sum_cons, List.sum_nil] at listed
    omega

theorem Change.taken (change : Change tree n anchor content anchor' content') :
    anchor.nextPageNo + n ≤ anchor'.nextPageNo := by
  cases change with
  | took order root more same => exact more
  | planted bare after more node => exact Nat.le_of_lt more
  | rewrote | unlinked => exact Nat.le_refl _
  | promoted before after more | hooked before after more =>
    exact Nat.le_trans (Nat.add_le_add_left (leafSplits_le _) _) more

variable {start : PageId → Page}

theorem Changes.cost_le (changes : Changes tree start n anchor content)
    (roomy : 4 ≤ tree.capacities.inner) :
    tree.cost anchor content ≤ tree.cost tree.anchor start + n := by
  induction changes with
  | none => exact Nat.le_refl _
  | andThen _ change ih =>
    have more := change.cost_le roomy
    omega

theorem Changes.taken (changes : Changes tree start n anchor content) :
    tree.anchor.nextPageNo + n ≤ anchor.nextPageNo := by
  induction changes with
  | none => exact Nat.le_refl _
  | andThen _ change ih =>
    have more := change.taken
    omega

end Changes

end PagedIndex.Tree
