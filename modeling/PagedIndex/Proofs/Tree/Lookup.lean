import PagedIndex.Proofs.Tree.Nodes
import PagedIndex.Proofs.Tree.Scene
import PagedIndex.Tree.Lookup

/-!
# Lookups find what a sound tree holds

A lookup goes down to the leaf that the key is routed to and answers what the leaf holds, which is
what the tree holds.
-/

namespace PagedIndex.Tree

open KeyOrder Access

variable {K V : Type} [IndexKey K] [FixedWidth V] {tree : Tree K V} {ground : Ground}
  {failed : Error → Scene → Prop} {key : K} {height level : Nat} {range : Range K}
  {root : PageId} {around : Surroundings K V} {current : Pinned}

theorem descend_ensures (suitable : tree.capacities.Suitable K V) {anchor : Anchor}
    {content : PageId → Page} {holds : List Hold} {steps : Nat}
    (held : Held .shared [current] holds) (bytes : current.bytes = content current.page)
    (focus :
      Focus tree.capacities (tree.nodes content) key height root around level range current.page)
    (sound : Sound tree.capacities (tree.nodes content) level range current.page)
    (mine : ∀ p ∈ pages (tree.nodes content) level current.page, ground.mine p)
    (two : 2 ≤ ground.limit)
    (refused : ∀ (fault : StorageFault) holds, failed (.storage fault) ⟨anchor, content, holds⟩)
    (enough : level < steps) :
    Ensures ground failed (tree.descend key steps current)
      (fun bottom scene => ∃ holds around range, scene = ⟨anchor, content, holds⟩ ∧
        bottom.bytes = content bottom.page ∧
        Focus tree.capacities (tree.nodes content) key height root around 0 range bottom.page ∧
        Sound tree.capacities (tree.nodes content) 0 range bottom.page)
      ⟨anchor, content, holds⟩ := by
  induction steps generalizing holds level range around current with
  | zero => omega
  | succ steps ih =>
    rw [descend, Ensures.bind_iff, Ensures.ofNode_iff (Node.header_eq suitable _), bytes]
    cases level with
    | zero =>
      obtain ⟨listed, node, leaf_sound⟩ := sound
      rw [Node.isLeaf_of_leaf node, if_pos rfl, Ensures.pure_iff]
      exact ⟨holds, around, range, rfl, bytes, focus, listed, node, leaf_sound⟩
    | succ level =>
      have at_level := sound.level_eq
      obtain ⟨separators, pointers, node, inner_sound, chain⟩ := sound
      obtain ⟨left, right, before, child, after, route⟩ :=
        chain.exists_route inner_sound.ascending key
      have down := focus.down node inner_sound chain route
      have below := route.holds chain
      have listed (p : PageId) (mem : p ∈ pages (tree.nodes content) level child) :
          ground.mine p := by
        refine mine p (mem_pages_of_child ?_ mem)
        rw [node, Node.pointers, route.children_eq]
        simp
      have apart : current.page ≠ child := by
        rintro rfl
        exact absurd (at_level.symm.trans below.level_eq) (Nat.succ_ne_self level)
      rw [Node.isLeaf_of_inner node, if_neg Bool.false_ne_true, Ensures.bind_iff, inner_eq,
        Ensures.ofNode_iff (Node.childFor_eq suitable node inner_sound route), Ensures.bind_iff]
      refine Ensures.fetch_held held (listed child (mem_pages_self _ _ _)) two
        (List.forall_mem_singleton.mpr apart) (fun fault => refused fault holds)
        fun guard holds held => ?_
      rw [Ensures.bind_iff]
      refine Ensures.release_held held (List.Perm.swap ..) fun holds held => ?_
      have lower : level < steps := by omega
      exact ih held rfl down below listed lower

theorem lookup_ensures (suitable : tree.capacities.Suitable K V) {content : PageId → Page}
    (anchored : tree.anchor.root = some root)
    (sound : Sound tree.capacities (tree.nodes content) height .all root)
    (mine : ∀ p ∈ pages (tree.nodes content) height root, ground.mine p)
    (two : 2 ≤ ground.limit)
    (refused : ∀ (fault : StorageFault) holds,
      failed (.storage fault) ⟨tree.anchor, content, holds⟩) :
    Ensures ground failed (tree.lookup key)
      (fun found scene => ∃ holds before after, scene = ⟨tree.anchor, content, holds⟩ ∧
        Cuts key (entries (tree.nodes content) height root) before found after)
      ⟨tree.anchor, content, []⟩ := by
  rw [lookup, anchored]
  apply Ensures.bind_iff.mpr
  refine Ensures.fetch_held (.nothing .shared) (mine root (mem_pages_self _ _ _)) (by simp; omega)
    nofun (fun fault => refused fault _) fun guard holds held => ?_
  have far : height < descentBound := Nat.lt_trans sound.level_lt (by decide)
  refine Ensures.andThen
    (descend_ensures suitable held rfl (.top _ _ key height root) sound mine two
    refused far) ?_
  intro bottom _ ended
  rcases ended with ⟨holds, around, range, rfl, bytes, focus, listed, node, leaf_sound⟩
  obtain ⟨before, own, after, cuts⟩ := exists_cuts leaf_sound.ascending key
  rw [bytes]
  refine (Ensures.ofNode_iff (Node.lookup_eq suitable node leaf_sound cuts)).mpr ?_
  exact ⟨holds, _, _, rfl, focus.cuts node leaf_sound cuts⟩

end PagedIndex.Tree
