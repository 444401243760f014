import PagedIndex.Proofs.Node.Capacities
import PagedIndex.Proofs.Tree.Splits
import PagedIndex.Tree.Erase

/-!
# Pages as nodes

A page of any bytes is read as a node. On the page of a sound node each operation of the layouts
succeeds and leaves the page of the node that it should.
-/

namespace PagedIndex.Tree

open KeyOrder

theorem leaf_eq {K V : Type} [FixedWidth K] [FixedWidth V] (tree : Tree K V) :
    tree.leaf = tree.capacities.leafLayout K V := rfl

theorem inner_eq {K V : Type} [FixedWidth K] [FixedWidth V] (tree : Tree K V) :
    tree.inner = tree.capacities.innerLayout K := rfl

variable {K V : Type} [IndexKey K] [FixedWidth V]

def Node.of (capacities : Capacities) (bytes : Page) : Node K V :=
  if (Header.of bytes).level = 0 then leaf ((capacities.leafLayout K V).listing bytes)
  else inner (Header.of bytes).level.toNat ((capacities.innerLayout K).separators bytes)
    ((capacities.innerLayout K).pointers bytes)

def nodes (tree : Tree K V) (content : PageId → Page) : Nodes K V :=
  fun page => .of tree.capacities (content page)

theorem nodes_update (tree : Tree K V) (content : PageId → Page) (page : PageId) (bytes : Page) :
    tree.nodes (Function.update content page bytes) =
      Function.update (tree.nodes content) page (.of tree.capacities bytes) := by
  funext p
  by_cases here : p = page
  · subst here
    simp [nodes]
  · simp [nodes, here]

namespace Node

variable {capacities : Capacities} {bytes : Page} {listed before after : List (K × V)}
  {level : Nat} {separators left right : List K} {pointers : List PageId} {range : Range K}
  {key : K}

theorem of_eq_leaf_iff : (of capacities bytes : Node K V) = leaf listed ↔
    (Header.of bytes).level = 0 ∧ (capacities.leafLayout K V).listing bytes = listed := by
  unfold of
  split
  · rename_i zero
    simp [zero]
  · rename_i not_zero
    simp [not_zero]

theorem of_eq_inner_iff : (of capacities bytes : Node K V) = inner level separators pointers ↔
    (Header.of bytes).level ≠ 0 ∧ (Header.of bytes).level.toNat = level ∧
      (capacities.innerLayout K).separators bytes = separators ∧
      (capacities.innerLayout K).pointers bytes = pointers := by
  unfold of
  split
  · rename_i zero
    simp [zero]
  · rename_i not_zero
    simp [not_zero]

theorem of_eq_bare_iff : (of capacities bytes : Node K V) = leaf [] ↔
    (Header.of bytes).level = 0 ∧ (Header.of bytes).count = 0 := by
  have none_listed : (capacities.leafLayout K V).listing bytes = [] ↔
      (Header.of bytes).count = 0 := by
    rw [← List.length_eq_zero_iff, LeafLayout.length_listing, ← UInt16.toNat_inj]
    rfl
  rw [of_eq_leaf_iff, none_listed]

theorem pointers_of (capacities : Capacities) (bytes : Page) :
    (of capacities bytes : Node K V).pointers =
      if (Header.of bytes).level = 0 then [] else (capacities.innerLayout K).pointers bytes := by
  unfold of
  split <;> rfl

theorem mem_pointers_iff {child : PageId} :
    child ∈ (of capacities bytes : Node K V).pointers ↔ (Header.of bytes).level ≠ 0 ∧
      child ∈ (capacities.innerLayout K).pointers bytes := by
  by_cases zero : (Header.of bytes).level = 0
  · simp [pointers_of, zero]
  · simp [pointers_of, zero]

theorem of_cases (capacities : Capacities) (bytes : Page) :
    (∃ listed, (of capacities bytes : Node K V) = leaf listed) ∨
      ∃ separators pointers, (of capacities bytes : Node K V) =
        inner (Header.of bytes).level.toNat separators pointers := by
  unfold of
  split
  · exact .inl ⟨_, rfl⟩
  · exact .inr ⟨_, _, rfl⟩

theorem level_pos (node : (of capacities bytes : Node K V) = inner level separators pointers) :
    0 < (Header.of bytes).level.toNat :=
  Nat.pos_of_ne_zero fun zero => (of_eq_inner_iff.mp node).1 (UInt16.toNat_inj.mp zero)

theorem one_more_of_inner
    (node : (of capacities bytes : Node K V) = inner level separators pointers)
    (some : pointers ≠ []) : pointers.length = separators.length + 1 := by
  obtain ⟨-, -, rfl, rfl⟩ := of_eq_inner_iff.mp node
  have one_less := InnerLayout.length_separators (capacities.innerLayout K) bytes
  have := List.length_pos_of_ne_nil some
  omega

theorem isLeaf_of_leaf (node : (of capacities bytes : Node K V) = leaf listed) :
    (Header.of bytes).isLeaf = true := by
  rw [Header.isLeaf, (of_eq_leaf_iff.mp node).1]
  rfl

theorem isLeaf_of_inner
    (node : (of capacities bytes : Node K V) = inner level separators pointers) :
    (Header.of bytes).isLeaf = false := by
  rw [Header.isLeaf]
  simpa using (of_eq_inner_iff.mp node).1

theorem count_of_leaf (node : (of capacities bytes : Node K V) = leaf listed) :
    (Header.of bytes).count.toNat = listed.length := by
  rw [← (of_eq_leaf_iff.mp node).2, LeafLayout.length_listing]

theorem count_of_inner (node : (of capacities bytes : Node K V) = inner level separators pointers) :
    (Header.of bytes).count.toNat = pointers.length := by
  rw [← (of_eq_inner_iff.mp node).2.2.2, InnerLayout.length_pointers]

variable (suitable : capacities.Suitable K V)

include suitable

theorem header_eq (bytes : Page) : Header.read bytes = .ok (Header.of bytes) :=
  Header.read_eq bytes suitable.leaf.header

theorem leaf_count_eq (node : (of capacities bytes : Node K V) = leaf listed) :
    (capacities.leafLayout K V).count bytes = .ok listed.length := by
  rw [LeafLayout.count_eq suitable.leaf, (of_eq_leaf_iff.mp node).2]

theorem inner_count_eq (node : (of capacities bytes : Node K V) = inner level separators pointers) :
    (capacities.innerLayout K).count bytes = .ok pointers.length := by
  rw [InnerLayout.count_eq suitable.inner, (of_eq_inner_iff.mp node).2.2.2]

theorem leaf_keys_eq (node : (of capacities bytes : Node K V) = leaf listed)
    (within : listed.length ≤ capacities.leaf) :
    (capacities.leafLayout K V).keys bytes = .ok (listed.map Prod.fst) := by
  obtain ⟨-, rfl⟩ := of_eq_leaf_iff.mp node
  exact LeafLayout.keys_eq suitable.leaf within

theorem inner_keys_eq (node : (of capacities bytes : Node K V) = inner level separators pointers)
    (within : pointers.length ≤ capacities.inner) :
    (capacities.innerLayout K).keys bytes = .ok separators := by
  obtain ⟨-, -, rfl, rfl⟩ := of_eq_inner_iff.mp node
  exact InnerLayout.keys_eq suitable.inner within

theorem inner_children_eq
    (node : (of capacities bytes : Node K V) = inner level separators pointers)
    (within : pointers.length ≤ capacities.inner) :
    (capacities.innerLayout K).children bytes = .ok pointers := by
  obtain ⟨-, -, rfl, rfl⟩ := of_eq_inner_iff.mp node
  exact InnerLayout.children_eq suitable.inner within

section Leaves

variable {own : Option V} (node : (of capacities bytes : Node K V) = leaf listed)
  (sound : LeafSound capacities range listed) (cuts : Cuts key listed before own after)

include node sound cuts

theorem position_eq : (capacities.leafLayout K V).position bytes key =
    .ok ⟨before.length, own.isSome⟩ := by
  obtain ⟨-, rfl⟩ := of_eq_leaf_iff.mp node
  exact LeafLayout.position_eq suitable.leaf sound.within sound.ascending cuts

theorem lookup_eq : (capacities.leafLayout K V).lookup bytes key = .ok own := by
  obtain ⟨-, rfl⟩ := of_eq_leaf_iff.mp node
  exact LeafLayout.lookup_eq suitable.leaf sound.within sound.ascending cuts

theorem insert_ok (value : V) (vacant : own = none → listed.length < capacities.leaf) :
    ∃ added bytes', ((capacities.leafLayout K V).insert key value).run bytes = .ok (added, bytes') ∧
      of capacities bytes' = leaf (before ++ (key, value) :: after) := by
  obtain ⟨zero, rfl⟩ := of_eq_leaf_iff.mp node
  obtain ⟨added, bytes', run, -, listing, level⟩ := Edit.run_of_ends
    (LeafLayout.insert_ends suitable.leaf sound.within sound.ascending cuts value vacant)
  exact ⟨added, bytes', run, of_eq_leaf_iff.mpr ⟨level.trans zero, listing⟩⟩

theorem erase_ok : ∃ removed bytes',
    ((capacities.leafLayout K V).erase key).run bytes = .ok (removed, bytes') ∧
      of capacities bytes' = leaf (before ++ after) := by
  obtain ⟨zero, rfl⟩ := of_eq_leaf_iff.mp node
  obtain ⟨removed, bytes', run, -, listing, level, -⟩ := Edit.run_of_ends
    (LeafLayout.erase_ends suitable.leaf sound.within sound.ascending cuts)
  exact ⟨removed, bytes', run, of_eq_leaf_iff.mpr ⟨level.trans zero, listing⟩⟩

end Leaves

theorem plant_ok (bytes : Page) (key : K) (value : V) : ∃ bytes',
    Edit.run ((capacities.leafLayout K V).format >>= fun _ =>
      discard ((capacities.leafLayout K V).insert key value)) bytes = .ok ((), bytes') ∧
      of capacities bytes' = leaf [(key, value)] := by
  have vacant : 0 < capacities.leaf := Nat.lt_of_lt_of_le Nat.two_pos suitable.leaf_least
  obtain ⟨bytes', run, listing, level⟩ :=
    LeafLayout.plant_eq suitable.leaf vacant bytes key value
  exact ⟨bytes', run, of_eq_leaf_iff.mpr ⟨level, listing⟩⟩

section Inners

variable (node : (of capacities bytes : Node K V) = inner level separators pointers)
  (sound : InnerSound capacities range separators pointers)

include node sound

theorem childFor_eq {before after : List PageId} {child : PageId}
    (route : Chain.Route separators pointers key left right before child after) :
    (capacities.innerLayout K).childFor bytes key = .ok child := by
  obtain ⟨-, -, rfl, listed⟩ := of_eq_inner_iff.mp node
  have at_child := listed.trans route.children_eq
  have here : before.length < ((capacities.innerLayout K).pointers bytes).length := by
    rw [at_child]; simp
  rw [InnerLayout.childFor_eq suitable.inner (listed ▸ sound.within) sound.ascending route.countP_eq
    here]
  simp [at_child]

theorem removeChildFor_ok {before after : List PageId} {child : PageId}
    (route : Chain.Route separators pointers key left right before child after)
    {below above : List K} {separator : K} (listed : separators = below ++ separator :: above)
    (beside : below.length = before.length - 1) : ∃ removed bytes',
    ((capacities.innerLayout K).removeChildFor key).run bytes = .ok (removed, bytes') ∧
      (of capacities bytes' : Node K V) = inner level (below ++ above) (before ++ after) := by
  obtain ⟨not_zero, rfl, rfl, pointers_eq⟩ := of_eq_inner_iff.mp node
  obtain ⟨removed, bytes', run, -, separators', pointers', level'⟩ := Edit.run_of_ends
    (InnerLayout.removeChildFor_ends suitable.inner (pointers_eq ▸ sound.within) listed
      sound.ascending (pointers_eq.trans route.children_eq) route.countP_eq beside)
  exact ⟨removed, bytes', run,
    of_eq_inner_iff.mpr ⟨by rw [level']; exact not_zero, by rw [level'], separators', pointers'⟩⟩

theorem hook_ok {before after : List PageId} {child sibling : PageId} {separator : K}
    (listed : separators = left ++ right) (pointers_eq : pointers = before ++ child :: after)
    (place : before.length = left.length)
    (between : (range.between left right).contains separator = true)
    (room : pointers.length < capacities.inner) : ∃ bytes',
    Edit.run (discard ((capacities.innerLayout K).insert separator sibling)) bytes =
        .ok ((), bytes') ∧
      Hooked level left right before after child sibling separator
        (of capacities bytes' : Node K V) := by
  obtain ⟨not_zero, rfl, separators_at, pointers_at⟩ := of_eq_inner_iff.mp node
  have within : ((capacities.innerLayout K).pointers bytes).length ≤ capacities.inner :=
    pointers_at ▸ sound.within
  have ascending : ((capacities.innerLayout K).separators bytes).Pairwise (· < ·) :=
    separators_at ▸ sound.ascending
  have ascending_left := (List.pairwise_append.mp (listed ▸ sound.ascending)).1
  obtain ⟨reached, greater⟩ := Range.of_contains_between (listed ▸ sound.ascending) between
  rw [listed] at separators_at
  rw [pointers_eq] at pointers_at
  by_cases present : separator ∈ left
  · obtain ⟨below, rest, rfl⟩ := List.append_of_mem present
    have nothing : rest = [] := by
      refine List.eq_nil_iff_forall_not_mem.mpr fun s mem => ?_
      have above := (List.pairwise_cons.mp (List.pairwise_append.mp ascending_left).2.1).1 s mem
      exact lt_irrefl _ (lt_of_lt_of_le above (reached s (by simp [mem])))
    subst nothing
    obtain ⟨_, bytes', run, -, separators', pointers', level'⟩ := Edit.run_of_ends
      (InnerLayout.insert_old_ends suitable.inner within _ (by simpa using separators_at) ascending
        pointers_at (by simpa using place))
    refine ⟨bytes', Edit.run_discard run, ?_⟩
    rw [of_eq_inner_iff.mpr ⟨by rw [level']; exact not_zero, rfl, separators', pointers'⟩, level']
    have hooked : Hooked (V := V) (Header.of bytes).level.toNat (below ++ [separator]) right before
        after child sibling separator _ := .retargeted (by simp)
    simpa using hooked
  · have smaller (s : K) (mem : s ∈ left) : s < separator :=
      lt_of_le_of_ne (reached s mem) fun same => present (same ▸ mem)
    obtain ⟨_, bytes', run, -, separators', pointers', level'⟩ := Edit.run_of_ends
      (InnerLayout.insert_new_ends suitable.inner within _ separators_at ascending smaller greater
        (show (capacities.innerLayout K).pointers bytes = (before ++ [child]) ++ after by
          simpa using pointers_at)
        (by simpa using place) (by rw [pointers_at, ← pointers_eq]; exact room))
    refine ⟨bytes', Edit.run_discard run, ?_⟩
    rw [of_eq_inner_iff.mpr ⟨by rw [level']; exact not_zero, rfl, separators', pointers'⟩, level']
    simpa using Hooked.added (V := V) smaller

end Inners

theorem format_ok (bytes : Page) {level : UInt16} (low : level.toNat < 65535) (left : PageId)
    (separator : K) (right : PageId) : ∃ bytes',
    Edit.run ((capacities.innerLayout K).format (level + 1) left separator right) bytes =
      .ok ((), bytes') ∧
      (of capacities bytes' : Node K V) = inner (level.toNat + 1) [separator] [left, right] := by
  have two : 2 ≤ capacities.inner := Nat.le_trans (by decide) suitable.inner_least
  obtain ⟨_, bytes', run, separators', pointers', level'⟩ := Edit.run_of_ends
    (InnerLayout.format_ends suitable.inner bytes (level + 1) left separator right two)
  have number : (level + 1).toNat = level.toNat + 1 := by
    rw [UInt16.toNat_add]
    exact Nat.mod_eq_of_lt (by show level.toNat + 1 < 65536; omega)
  refine ⟨bytes', run, of_eq_inner_iff.mpr ⟨?_, by rw [level', number], separators', pointers'⟩⟩
  rw [level']
  intro zero
  rw [zero] at number
  simp at number

end Node

/-- A node that takes another entry or child. -/
def Node.Vacant (capacities : Capacities) : Node K V → Prop
  | leaf entries => entries.length < capacities.leaf
  | inner _ _ pointers => pointers.length < capacities.inner

section Halving

variable {tree : Tree K V} {nodes : Nodes K V} {level : Nat} {range : Range K} {page : PageId}
  {source : Page}

theorem halve_leaf {listed : List (K × V)} (suitable : tree.capacities.Suitable K V)
    (node : (Node.of tree.capacities source : Node K V) = .leaf listed)
    (full : listed.length = tree.capacities.leaf) (target : Page) :
    ∃ halves, tree.halve (Header.of source).level source target = .ok halves ∧
      Halved (.of tree.capacities source : Node K V) halves.separator
        (.of tree.capacities halves.left) (.of tree.capacities halves.right) ∧
      (Node.of tree.capacities halves.left : Node K V).Vacant tree.capacities ∧
      (Node.of tree.capacities halves.right : Node K V).Vacant tree.capacities := by
  obtain ⟨zero, rfl⟩ := Node.of_eq_leaf_iff.mp node
  have least := suitable.leaf_least
  obtain ⟨halves, split, left, right, left_level, right_level, first⟩ :=
    LeafLayout.split_eq suitable.leaf (Nat.le_of_eq full) suitable.leaf target (by omega)
  have left_node := Node.of_eq_leaf_iff.mpr ⟨left_level.trans zero, left⟩
  have right_node := Node.of_eq_leaf_iff.mpr ⟨right_level, right⟩
  obtain ⟨keep, half⟩ : ∃ keep, keep =
    (((tree.capacities.leafLayout K V).listing source).length + 1) / 2 := ⟨_, rfl⟩
  rw [← half] at left_node right_node right
  refine ⟨halves, by rw [halve, if_pos zero]; exact split, ?_, ?_, ?_⟩
  · rw [node, left_node, right_node]
    obtain ⟨value, upper, drop⟩ : ∃ value upper,
        ((tree.capacities.leafLayout K V).listing source).drop keep =
          (halves.separator, value) :: upper := by
      rw [right] at first
      match dropped : ((tree.capacities.leafLayout K V).listing source).drop keep with
      | [] => rw [dropped] at first; simp at first
      | (key, value) :: upper =>
        rw [dropped] at first
        simp only [List.head?_cons, Option.map_some, Option.some.injEq] at first
        exact ⟨value, upper, by rw [first]⟩
    have halved : Halved (.leaf (((tree.capacities.leafLayout K V).listing source).take keep ++
        (halves.separator, value) :: upper)) halves.separator _ _ :=
      .leaf (List.ne_nil_of_length_pos (by rw [List.length_take]; omega))
    rw [← drop, List.take_append_drop] at halved
    exact halved
  · rw [left_node]
    change (List.take _ _).length < _
    rw [List.length_take]
    omega
  · rw [right_node]
    change (List.drop _ _).length < _
    rw [List.length_drop]
    omega

theorem halve_inner {separators : List K} {pointers : List PageId}
    (suitable : tree.capacities.Suitable K V)
    (node : (Node.of tree.capacities source : Node K V) = .inner level separators pointers)
    (full : pointers.length = tree.capacities.inner) (target : Page) :
    ∃ halves, tree.halve (Header.of source).level source target = .ok halves ∧
      Halved (.of tree.capacities source : Node K V) halves.separator
        (.of tree.capacities halves.left) (.of tree.capacities halves.right) ∧
      (Node.of tree.capacities halves.left : Node K V).Vacant tree.capacities ∧
      (Node.of tree.capacities halves.right : Node K V).Vacant tree.capacities := by
  obtain ⟨not_zero, rfl, rfl, rfl⟩ := Node.of_eq_inner_iff.mp node
  have least := suitable.inner_least
  have one_less := InnerLayout.length_separators (tree.capacities.innerLayout K) source
  obtain ⟨halves, keep, split, half, left_separators, left, left_level, right_separators, right,
    right_level, between⟩ :=
    InnerLayout.split_eq suitable.inner (Nat.le_of_eq full) suitable.inner target (by omega)
  have left_node : (Node.of tree.capacities halves.left : Node K V) = _ := Node.of_eq_inner_iff.mpr
    ⟨by rw [left_level]; exact not_zero, by rw [left_level], left_separators, left⟩
  have right_node : (Node.of tree.capacities halves.right : Node K V) = _ :=
    Node.of_eq_inner_iff.mpr
    ⟨by rw [right_level]; exact not_zero, by rw [right_level], right_separators, right⟩
  refine ⟨halves, by rw [halve, if_neg not_zero]; exact split, ?_, ?_, ?_⟩
  · rw [node, left_node, right_node]
    have listed : ((tree.capacities.innerLayout K).separators source).take (keep - 1) ++
        halves.separator :: ((tree.capacities.innerLayout K).separators source).drop keep =
          (tree.capacities.innerLayout K).separators source := by
      obtain ⟨inside, at_between⟩ := List.getElem?_eq_some_iff.mp between
      have cut := List.drop_eq_getElem_cons inside
      rw [at_between, show keep - 1 + 1 = keep by omega] at cut
      rw [← cut, List.take_append_drop]
    have halved : Halved (V := V) (.inner (Header.of source).level.toNat
        (((tree.capacities.innerLayout K).separators source).take (keep - 1) ++
          halves.separator :: ((tree.capacities.innerLayout K).separators source).drop keep)
        (((tree.capacities.innerLayout K).pointers source).take keep ++
          ((tree.capacities.innerLayout K).pointers source).drop keep)) halves.separator _ _ :=
      .inner (by rw [List.length_take, List.length_take]; omega)
        (by rw [List.take_append_drop, List.length_take]; omega)
    rw [listed, List.take_append_drop] at halved
    exact halved
  · rw [left_node]
    change (List.take _ _).length < _
    rw [List.length_take]
    omega
  · rw [right_node]
    change (List.drop _ _).length < _
    rw [List.length_drop]
    omega

theorem halve_ok {content : PageId → Page} (suitable : tree.capacities.Suitable K V)
    (sound : Sound tree.capacities (tree.nodes content) level range page)
    (full : ¬ (tree.nodes content page).Vacant tree.capacities) (target : Page) :
    ∃ halves, tree.halve (Header.of (content page)).level (content page) target = .ok halves ∧
      Halved (tree.nodes content page) halves.separator (.of tree.capacities halves.left)
        (.of tree.capacities halves.right) ∧
      (Node.of tree.capacities halves.left : Node K V).Vacant tree.capacities ∧
      (Node.of tree.capacities halves.right : Node K V).Vacant tree.capacities := by
  cases level with
  | zero =>
    obtain ⟨listed, node, sound⟩ := sound
    rw [node] at full
    exact halve_leaf suitable node (Nat.le_antisymm sound.within (Nat.le_of_not_lt full)) target
  | succ level =>
    obtain ⟨separators, pointers, node, sound, chain⟩ := sound
    rw [node] at full
    exact halve_inner suitable node (Nat.le_antisymm sound.within (Nat.le_of_not_lt full)) target

end Halving

theorem Sound.level_eq {tree : Tree K V} {content : PageId → Page} {level : Nat} {range : Range K}
    {page : PageId} (sound : Sound tree.capacities (tree.nodes content) level range page) :
    (Header.of (content page)).level.toNat = level := by
  cases level with
  | zero =>
    obtain ⟨listed, node, -⟩ := sound
    rw [(Node.of_eq_leaf_iff.mp node).1]
    rfl
  | succ level =>
    obtain ⟨separators, pointers, node, -, -⟩ := sound
    exact (Node.of_eq_inner_iff.mp node).2.1

theorem Sound.level_lt {tree : Tree K V} {content : PageId → Page} {level : Nat} {range : Range K}
    {page : PageId} (sound : Sound tree.capacities (tree.nodes content) level range page) :
    level < 65536 := by
  rw [← sound.level_eq]
  exact UInt16.toNat_lt _

end PagedIndex.Tree
