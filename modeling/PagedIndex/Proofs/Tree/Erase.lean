import PagedIndex.Proofs.Tree.InOrder

/-!
# Erasure keeps a tree in order

The leaf that the key is routed to loses its entry. When it is empty and has siblings it goes, and a
neighbour has its range; the other entries stay.
-/

namespace PagedIndex.Tree

open KeyOrder Access

section Unlinking

variable {K V : Type} [IndexKey K] {capacities : Capacities} {nodes nodes' : Nodes K V} {key : K}
  {height level : Nat} {range : Range K} {root parent : PageId} {around : Surroundings K V}
  {minted : PageId → Prop} {held : List (K × V)} {left right : List K} {separator : K}
  {before children after : List PageId} {neighbour child : PageId}

/-- A child without entries goes, and the neighbour behind the separator between them has the range
of both. -/
theorem Focus.unlink
    (focus : Focus capacities nodes key height root around (level + 1) range parent)
    (rooted : Rooted capacities nodes minted held height root)
    (node : nodes parent =
      .inner (level + 1) (left ++ [separator] ++ right) (before ++ children ++ after))
    (sound : InnerSound capacities range (left ++ [separator] ++ right)
      (before ++ children ++ after))
    (chain : Chain (Sound capacities nodes level) range (left ++ [separator] ++ right)
      (before ++ children ++ after))
    (place : before.length = left.length)
    (pair : children = [neighbour, child] ∨ children = [child, neighbour])
    (bare : entries nodes level child = [])
    (node' : nodes' parent = .inner (level + 1) (left ++ right) (before ++ neighbour :: after))
    (same : ∀ p ∈ pages nodes height root, p ≠ parent → nodes' p = nodes p) :
    Rooted capacities nodes' minted held height root ∧
      (pages nodes' height root).Subperm (pages nodes height root) := by
  have size : children.length = [separator].length + 1 := by rcases pair with rfl | rfl <;> rfl
  have among : neighbour ∈ children := by rcases pair with rfl | rfl <;> simp
  have whole : Sound capacities nodes (level + 1) range parent := ⟨_, _, node, sound, chain⟩
  have nodup := (List.nodup_append.mp
    ((focus.pages_perm whole).nodup_iff.mp rooted.nodup)).2.1
  have at_parent : neighbour ∈ (nodes parent).pointers := by
    rw [node]
    exact List.mem_append_left _ (List.mem_append_right _ among)
  have below (p : PageId) (mem : p ∈ pages nodes level neighbour) : nodes' p = nodes p := by
    apply same p (focus.pages_subset whole (mem_pages_of_child at_parent mem))
    rintro rfl
    rw [pages] at nodup
    exact (List.nodup_cons.mp nodup).1 (List.mem_flatMap.mpr ⟨neighbour, at_parent, mem⟩)
  have inside : (range.between left right).contains separator = true := by
    obtain ⟨ascending, -, across⟩ := List.pairwise_append.mp sound.ascending
    refine Range.contains_between (sound.inside separator (by simp)) (fun s mem => le_of_lt ?_)
      fun s mem => across separator (by simp) s mem
    exact (List.pairwise_append.mp ascending).2.2 s mem separator (by simp)
  have widened : Sound capacities nodes level (range.between left right) neighbour := by
    have piece := (chain.splice place size).1
    rcases pair with rfl | rfl
    · exact Sound.widen piece.1 (Range.within_below inside)
    · exact Sound.widen piece.2 (Range.within_above inside)
  have sound' : InnerSound capacities range (left ++ [] ++ right)
      (before ++ [neighbour] ++ after) := by
    have fewer : (left ++ [] ++ right).Sublist (left ++ [separator] ++ right) :=
      ((List.nil_sublist _).append_left left).append_right right
    refine ⟨?_, sound.ascending.sublist fewer, fun s mem => sound.inside s (fewer.subset mem)⟩
    have within := sound.within
    simp only [List.length_append, size, List.length_singleton] at within ⊢
    omega
  have entries_same : [neighbour].flatMap (entries nodes' level) =
      children.flatMap (entries nodes level) := by
    rw [List.flatMap_singleton, entries_congr below]
    rcases pair with rfl | rfl <;> simp [bare]
  have fewer : ([neighbour].flatMap (pages nodes' level)).Subperm
      ([] ++ children.flatMap (pages nodes level)) := by
    rw [List.flatMap_singleton, pages_congr below, List.nil_append]
    rcases pair with rfl | rfl
    · simpa using (List.sublist_append_left _ (pages nodes level child)).subperm
    · simpa using (List.sublist_append_right (pages nodes level child) _).subperm
  obtain ⟨rooted', -, -, fewer⟩ := focus.regraft rooted node sound chain place size
    (fun p mem apart _ => same p mem apart) (by simpa using node') sound' (widened.congr below)
    entries_same fewer List.nodup_nil (by simp) fun p older => older
  exact ⟨rooted', fewer⟩

end Unlinking

variable {K V : Type} [IndexKey K] [FixedWidth V] {tree : Tree K V} {ground : Ground}
  {failed : Error → Scene → Prop} {scene : Scene} {key : K} {held : List (K × V)} {root : PageId}
  {height level : Nat} {range : Range K} {descent : Descent} {start : PageId → Page}
  {splits most : Nat}

theorem unlink_writes {parent : Pinned}
    (h : Underway tree start splits key held root height level range descent scene)
    (at_parent : descent.parent = some parent) (few : scene.anchor.nextPageNo ≤ most)
    {separators separators' : List K} {pointers pointers' : List PageId} {bytes : Page}
    (node : tree.nodes scene.content parent.page = .inner (level + 1) separators pointers)
    (node' : (Node.of tree.capacities bytes : Node K V) = .inner (level + 1) separators' pointers')
    (left : pointers'.Sublist pointers)
    (unlinked : Rooted tree.capacities
        (tree.nodes (Function.update scene.content parent.page bytes))
        (Minted tree.segment scene.anchor.nextPageNo) held height root ∧
      (pages (tree.nodes (Function.update scene.content parent.page bytes)) height root).Subperm
        (pages (tree.nodes scene.content) height root)) :
    Ensures ground failed (write parent bytes)
      (fun _ scene' => Altered tree start splits most held scene') scene := by
  apply Ensures.write_held h.pins (by simp [at_parent])
  obtain ⟨rooted', fewer⟩ := unlinked
  have change := Change.unlinked h.stood ⟨h.anchored, held, rooted'⟩ fewer node node' left
  refine ⟨⟨h.counter, fun no_root => ?_, fun page at_root => ⟨height, ?_⟩⟩,
    h.changes.andThen change, few⟩
  · rw [h.anchored] at no_root
    cases no_root
  · rw [h.anchored] at at_root
    cases at_root
    exact rooted'

theorem unlink_ensures (suitable : tree.capacities.Suitable K V) {parent : Pinned}
    (h : Underway tree start splits key held root height level range descent scene)
    (at_parent : descent.parent = some parent)
    (bare : entries (tree.nodes scene.content) level descent.current.page = [])
    (few : scene.anchor.nextPageNo ≤ most) :
    Ensures ground failed (tree.unlink key parent)
      (fun _ scene' => Altered tree start splits most held scene') scene := by
  have stands := h.stands
  rw [at_parent] at stands
  obtain ⟨around, range', left, right, before, after, focus, node, sound, chain, route, -⟩ :=
    stands.of_some
  rw [unlink, Ensures.bind_iff, h.parent parent at_parent, inner_eq,
    Ensures.ofNode_iff (Node.inner_count_eq suitable node)]
  by_cases others : 1 < (before ++ descent.current.page :: after).length
  · rw [if_pos others, Ensures.bind_iff]
    have unchanged (bytes : Page) : ∀ p ∈ pages (tree.nodes scene.content) height root,
        p ≠ parent.page → tree.nodes (Function.update scene.content parent.page bytes) p =
          tree.nodes scene.content p := by
      intro p _ apart
      rw [nodes_update, Function.update_of_ne apart]
    rcases List.eq_nil_or_concat before with rfl | ⟨before, neighbour, rfl⟩
    · have no_left := List.length_eq_zero_iff.mp route.place.symm
      subst no_left
      have length := chain.length_eq
      match right, after with
      | [], after =>
        simp only [List.nil_append, List.length_cons, List.length_nil] at length others
        omega
      | separator :: right, [] => simp at others
      | separator :: right, neighbour :: after =>
        obtain ⟨removed, bytes, removed_ok, node'⟩ :=
          Node.removeChildFor_ok suitable node sound route rfl rfl
        rw [Ensures.ofNode_iff removed_ok]
        have cut : tree.nodes scene.content parent.page = .inner (level + 1)
            ([] ++ [separator] ++ right) ([] ++ [descent.current.page, neighbour] ++ after) := node
        refine unlink_writes h at_parent few node node' (List.sublist_cons_self ..)
          (focus.unlink h.rooted cut sound chain rfl (.inr rfl) bare ?_ (unchanged bytes))
        rw [nodes_update, Function.update_self]
        exact node'
    · rw [List.concat_eq_append] at *
      rcases List.eq_nil_or_concat left with rfl | ⟨left, separator, rfl⟩
      · have place := route.place
        simp at place
      · rw [List.concat_eq_append] at *
        have place := route.place
        simp only [List.length_append, List.length_singleton, Nat.add_right_cancel_iff] at place
        have listed : left ++ [separator] ++ right = left ++ separator :: right := by simp
        obtain ⟨removed, bytes, removed_ok, node'⟩ :=
          Node.removeChildFor_ok suitable node sound route listed (by simp [place])
        rw [Ensures.ofNode_iff removed_ok]
        refine unlink_writes h at_parent few node node' (by simp)
          (focus.unlink h.rooted (by simpa using node) (by simpa using sound)
            (by simpa using chain) place (.inl rfl) bare ?_ (unchanged bytes))
        rw [nodes_update, Function.update_self]
        simpa using node'
  · rw [if_neg others]
    exact Ensures.pure_iff.mpr ⟨h.inOrder, h.changes, few⟩

theorem descendExclusive_ensures (suitable : tree.capacities.Suitable K V)
    (three : 3 ≤ ground.limit) (mine : ∀ p, p.segment = tree.segment → ground.mine p)
    {steps : Nat} (h : Underway tree start splits key held root height level range descent scene)
    (refused : ∀ fault holds, failed (.storage fault) { scene with holds })
    (enough : level < steps) :
    Ensures ground failed (tree.descendExclusive key steps descent)
      (fun descent' scene' => ∃ range' holds, scene' = { scene with holds } ∧
        Underway tree start splits key held root height 0 range' descent' scene') scene := by
  induction steps generalizing scene level range descent with
  | zero => omega
  | succ steps ih =>
    have sound := h.sound
    rw [descendExclusive, Ensures.bind_iff, Ensures.ofNode_iff (Node.header_eq suitable _),
      h.current]
    cases level with
    | zero =>
      obtain ⟨listed, node, -⟩ := sound
      rw [Node.isLeaf_of_leaf node, if_pos rfl, Ensures.pure_iff]
      exact ⟨range, scene.holds, rfl, h⟩
    | succ level =>
      obtain ⟨separators, pointers, node, -, -⟩ := sound
      rw [Node.isLeaf_of_inner node, if_neg Bool.false_ne_true]
      apply Ensures.andThen (enterChild_ensures suitable mine three
        (fun fault => refused fault scene.holds) h)
      intro descent' scene' ended
      rcases ended with ⟨range', holds, rfl, -, underway⟩
      exact ih underway refused (Nat.lt_of_succ_lt_succ enough)

def Erased (key : K) (held held' : List (K × V)) : Prop :=
  ∃ before own after, Cuts key held before own after ∧ held' = before ++ after

theorem erase_ensures (suitable : tree.capacities.Suitable K V)
    (three : 3 ≤ ground.limit) (mine : ∀ p, p.segment = tree.segment → ground.mine p)
    (refused : ∀ fault holds, failed (.storage fault) ⟨tree.anchor, start, holds⟩)
    (order : InOrder tree tree.anchor start held) :
    Ensures ground failed (tree.erase key)
      (fun _ scene' => ∃ held', Erased key held held' ∧
        Altered tree start 0 tree.anchor.nextPageNo held' scene') ⟨tree.anchor, start, []⟩ := by
  rw [erase]
  cases anchored : tree.anchor.root with
  | none =>
    have nothing := order.bare anchored
    subst nothing
    exact Ensures.pure_iff.mpr
      ⟨[], ⟨[], none, [], ⟨rfl, by simp, by simp⟩, rfl⟩, order, .none, Nat.le_refl _⟩
  | some root =>
    obtain ⟨height, rooted⟩ := order.rooted root anchored
    have far : height < descentBound := Nat.lt_trans rooted.sound.level_lt (by decide)
    refine Ensures.bind_iff.mpr (Ensures.fetch_held (.nothing .exclusive)
      (mine root (rooted.minted root (mem_pages_self _ _ _)).1) (by simp; omega) nofun
      (fun fault => refused fault []) fun guard holds pins => ?_)
    have at_top : Underway tree start 0 key held root height height .all
        ⟨none, ⟨guard, root, start root⟩⟩ ⟨tree.anchor, start, holds⟩ :=
      ⟨.none, anchored, order.counter, rooted, .top, pins, rfl, nofun⟩
    apply Ensures.andThen (descendExclusive_ensures suitable three mine at_top refused far)
    intro descent scene ended
    rcases ended with ⟨range, holds, rfl, h⟩
    obtain ⟨listed, node, sound⟩ := h.sound
    obtain ⟨before, own, after, cuts⟩ := exists_cuts sound.ascending key
    obtain ⟨removed, bytes, erased_ok, node'⟩ := Node.erase_ok suitable node sound cuts
    obtain ⟨around, focus, written⟩ := h.write_leaf node sound node' (sound.sublist cuts.sublist)
    have whole := focus.cuts node sound cuts
    rw [h.rooted.entries_eq] at whole
    rw [Ensures.bind_iff, h.current, leaf_eq,
      Ensures.ofNode_iff (Node.position_eq suitable node sound cuts)]
    cases own with
    | none =>
      refine Ensures.pure_iff.mpr
        ⟨held, ⟨_, none, _, whole, ?_⟩, h.inOrder, h.changes, Nat.le_refl _⟩
      rw [whole.entries_eq]
      simp
    | some value =>
      have erased : Erased key held (around.smaller ++ (before ++ after) ++ around.larger) :=
        ⟨_, some value, _, whole, by simp⟩
      rw [Option.isSome_some, if_pos rfl, Ensures.bind_iff, Ensures.ofNode_iff erased_ok,
        Ensures.bind_iff]
      apply Ensures.write_held h.pins (by simp)
      rw [Ensures.bind_iff, Ensures.ofNode_iff (Node.leaf_count_eq suitable node')]
      have done : Altered tree start 0 tree.anchor.nextPageNo _ _ :=
        ⟨written.inOrder, written.changes, Nat.le_refl _⟩
      by_cases empty : (before ++ after).length = 0
      · rw [if_pos empty]
        cases at_parent : descent.parent with
        | none => exact Ensures.pure_iff.mpr ⟨_, erased, done⟩
        | some parent =>
          refine (unlink_ensures suitable written at_parent ?_ (Nat.le_refl _)).weaken
            fun _ scene' altered => ⟨_, erased, altered⟩
          change (tree.nodes _ _).entries = _
          rw [nodes_update, Function.update_self, node', Node.entries]
          exact List.length_eq_zero_iff.mp empty
      · rw [if_neg empty]
        exact Ensures.pure_iff.mpr ⟨_, erased, done⟩

end PagedIndex.Tree
