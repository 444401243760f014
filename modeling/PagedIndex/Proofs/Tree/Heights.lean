import PagedIndex.Proofs.Tree.Growth
import PagedIndex.Proofs.Tree.Sessions

/-!
# Height and insertions

A tree in use costs no more than it had insertions. So with room for four children in its inner
nodes its height grows with the logarithm of their number, and so do the length of a descent and the
number of pages that an insertion takes. With room for three only it does not: a node that is split
keeps a single child on the left, and ascending keys never go there again.
-/

namespace PagedIndex

variable {K V : Type} [IndexKey K]

def Call.insertions : Call K V → Nat
  | .insert _ _ => 1
  | .erase _ | .lookup _ | .height | .length | .isEmpty | .validate => 0

namespace Tree

/-- Child pointers lead from a page to another in so many steps. -/
inductive Descends (nodes : Nodes K V) (page : PageId) : Nat → PageId → Prop
  | here : Descends nodes page 0 page
  | down {depth : Nat} {above child : PageId} (descends : Descends nodes page depth above)
      (mem : child ∈ (nodes above).pointers) : Descends nodes page (depth + 1) child

theorem Sound.depth_le {capacities : Capacities} {nodes : Nodes K V} {height depth : Nat}
    {range : Range K} {root page : PageId} (h : Sound capacities nodes height range root)
    (descends : Descends nodes root depth page) : depth ≤ height := by
  -- Each step goes one level down.
  suffices ∃ level range', Sound capacities nodes level range' page ∧ depth + level = height by
    obtain ⟨level, -, -, sum⟩ := this
    exact Nat.le_of_add_right_le (Nat.le_of_eq sum)
  induction descends with
  | here => exact ⟨height, range, h, Nat.zero_add _⟩
  | down _ mem ih =>
    obtain ⟨level, range', sound, sum⟩ := ih
    cases level with
    | zero =>
      obtain ⟨listed, node, -⟩ := sound
      rw [node] at mem
      exact absurd mem List.not_mem_nil
    | succ level =>
      obtain ⟨separators, pointers, node, -, chain⟩ := sound
      rw [node] at mem
      obtain ⟨range'', below⟩ := chain.exists_range mem
      exact ⟨level, range'', below, by omega⟩

variable [FixedWidth V] {tree : Tree K V} {content : PageId → Page}

theorem Reads.height_eq {shape : Shape} {held : List (K × V)}
    (reads : tree.Reads content shape held) : shape.height = tree.levels content := by
  cases anchored : tree.anchor.root with
  | none =>
    obtain ⟨rfl, -⟩ := reads.bare anchored
    rw [levels, anchored, Option.elim_none]
  | some root =>
    obtain ⟨level, well_formed, rfl, -⟩ := reads.rooted root anchored
    rw [levels, anchored, Option.elim_some, well_formed.sound.level_eq, shapeAt]

theorem Stood.levels_eq {height : Nat} {root : PageId}
    (stood : tree.Stood tree.anchor content height root) : tree.levels content = height + 1 := by
  obtain ⟨anchored, held, rooted⟩ := stood
  rw [levels, anchored, Option.elim_some, rooted.sound.level_eq]

theorem Stood.height_le {anchor : Anchor} {height : Nat} {root : PageId}
    (stood : tree.Stood anchor content height root) {n : Nat}
    (covered : tree.cost anchor content ≤ n) : 2 ^ height ≤ n + 1 := by
  rw [stood.cost_eq, costBelow] at covered
  omega

end Tree

/-- The call did no more to a tree than split a leaf if it inserts, and take a page for each level
and one more. -/
def Call.Alters [FixedWidth V] (call : Call K V) (tree : Tree K V) (start : PageId → Page)
    (anchor : Anchor) (content : PageId → Page) : Prop :=
  ∃ splits held, splits ≤ call.insertions ∧ Tree.Altered tree start splits
    (tree.anchor.nextPageNo + tree.levels start + 1) held ⟨anchor, content, []⟩

theorem Tree.Altered.alters [FixedWidth V] {call : Call K V} {tree : Tree K V}
    {start : PageId → Page} {splits most : Nat} {held : List (K × V)} {scene : Scene}
    (altered : Tree.Altered tree start splits most held scene) (once : splits ≤ call.insertions)
    (few : most ≤ tree.anchor.nextPageNo + tree.levels start + 1) :
    call.Alters tree start scene.anchor scene.content :=
  ⟨splits, held, once, altered.order, altered.changes, Nat.le_trans altered.few few⟩

namespace Session

open PagedIndex.Tree

variable [FixedWidth V]

/-- The sessions that a tree opened empty comes to with so many insertions called, whether or not
they fail, while others use the pool for other segments. -/
inductive Inserted : Nat → Session K V → Prop
  | opened {segment : SegmentId} {capacities : Capacities} {tree : Tree K V} {disk : Disk}
      {size : Nat} {pool : Pool} (opened : Tree.new segment capacities = .ok tree)
      (new : Pool.new size = .ok pool) : Inserted 0 ⟨tree, ⟨disk, pool⟩, ∅⟩
  | called {n : Nat} {session : Session K V} {call : Call K V} {reached : Tree.Reached K V}
      (before : Inserted n session)
      (called : session.tree.call call session.storage = .ok reached) :
      Inserted (n + call.insertions)
        ⟨reached.tree, reached.storage, call.record session.map reached.outcome⟩
  | elsewhere {n : Nat} {session : Session K V} {operation : Pool.Operation} {storage : Storage}
      (before : Inserted n session) (spares : operation.Spares session.tree.segment)
      (leaves : operation.Leaves session.storage storage) : Inserted n { session with storage }

variable {session : Session K V}

theorem Invariant.call_alters (h : session.Invariant) {call : Call K V}
    (admitted : session.Admits call) {reached : Reached K V}
    (called : session.tree.call call session.storage = .ok reached) :
    call.Alters session.tree session.storage.content reached.tree.anchor
      reached.storage.content := by
  obtain ⟨held, order, lists⟩ := h.holds
  have of_look (look : looks call = true) : call.Alters session.tree session.storage.content
      reached.tree.anchor reached.storage.content := by
    obtain ⟨shape, held', reads, -⟩ := h.reads
    obtain ⟨reached', ran, kept, -⟩ := look_reaches h.suitable h.coherent h.unowned reads look
    cases called.symm.trans ran
    rw [kept.tree, kept.content]
    exact ⟨0, held, Nat.zero_le _, order, .none, Nat.le_add_right _ (_ + 1)⟩
  have of_ensures (ensures : Access.Ensures
      ⟨session.tree.segment, (·.segment = session.tree.segment), 3⟩
      (fun _ scene => call.Alters session.tree session.storage.content scene.anchor scene.content)
      (session.tree.program call)
      (fun _ scene => call.Alters session.tree session.storage.content scene.anchor scene.content)
      ⟨session.tree.anchor, session.storage.content, []⟩) :
      call.Alters session.tree session.storage.content reached.tree.anchor
        reached.storage.content := by
    obtain ⟨reached', scene, ran, tree, -, content, -, ended⟩ :=
      call_reaches h.coherent h.free ensures
    cases called.symm.trans ran
    rw [tree, content]
    cases outcome : reached.outcome with
    | ok answer => rw [outcome] at ended; exact ended
    | error error => rw [outcome] at ended; exact ended
  cases call with
  | insert key value =>
    refine of_ensures (Access.Ensures.andThen (insert_ensures h.suitable rfl (Nat.le_refl 3)
      (fun _ mine => mine) (fun _ scene altered => altered.alters (Nat.zero_le _) (Nat.le_refl _))
      order admitted (Nat.le_refl _)) fun _ scene ended => Access.Ensures.pure_iff.mpr ?_)
    obtain ⟨splits, held', once, -, altered⟩ := ended
    exact altered.alters once (Nat.le_refl _)
  | erase key =>
    have none_taken : session.tree.anchor.nextPageNo ≤ session.tree.anchor.nextPageNo +
        session.tree.levels session.storage.content + 1 := Nat.le_add_right _ (_ + 1)
    refine of_ensures (Access.Ensures.andThen (erase_ensures h.suitable (Nat.le_refl 3)
      (fun _ mine => mine) (fun _ holds => ⟨0, held, Nat.zero_le _, order, .none, none_taken⟩)
      order) fun _ scene ended => Access.Ensures.pure_iff.mpr ?_)
    obtain ⟨held', -, altered⟩ := ended
    exact altered.alters (Nat.zero_le _) none_taken
  | lookup | height | length | isEmpty | validate => exact of_look rfl

theorem Invariant.yields_height (h : session.Invariant) :
    session.tree.Yields .height session.storage
      (· = .count (session.tree.levels session.storage.content)) := by
  obtain ⟨shape, held, reads, -⟩ := h.reads
  rw [← reads.height_eq]
  exact (h.reports reads rfl).yields

theorem Invariant.stood (h : session.Invariant) {root : PageId}
    (anchored : session.tree.anchor.root = some root) :
    ∃ height, session.tree.Stood session.tree.anchor session.storage.content height root := by
  obtain ⟨held, order, -⟩ := h.holds
  obtain ⟨height, rooted⟩ := order.rooted root anchored
  exact ⟨height, anchored, held, rooted⟩

theorem Invariant.depth_lt (h : session.Invariant) {root page : PageId} {depth : Nat}
    (anchored : session.tree.anchor.root = some root)
    (descends : Descends (session.tree.nodes session.storage.content) root depth page) :
    depth < session.tree.levels session.storage.content := by
  obtain ⟨height, stood⟩ := h.stood anchored
  rw [stood.levels_eq]
  obtain ⟨-, held, rooted⟩ := stood
  exact Nat.lt_succ_of_le (rooted.sound.depth_le descends)

/-- The pages of a segment make 49 levels at most, when no more is spent on the tree than it took
pages. -/
theorem Invariant.levels_lt (h : session.Invariant)
    (covered : session.tree.cost session.tree.anchor session.storage.content ≤
      session.tree.anchor.nextPageNo) :
    session.tree.levels session.storage.content < 50 := by
  cases anchored : session.tree.anchor.root with
  | none =>
    rw [levels, anchored]
    exact Nat.zero_lt_succ 49
  | some root =>
    obtain ⟨held, order, -⟩ := h.holds
    obtain ⟨height, stood⟩ := h.stood anchored
    have low := stood.height_le (Nat.le_trans covered order.counter)
    rw [stood.levels_eq]
    by_contra high
    have huge : 2 ^ 49 ≤ 2 ^ height := Nat.pow_le_pow_right (by decide) (by omega)
    have most : maxPageNo + 1 + 1 < 2 ^ 49 := by decide
    omega

theorem Invariant.admits (h : session.Invariant)
    (covered : session.tree.cost session.tree.anchor session.storage.content ≤
      session.tree.anchor.nextPageNo) (call : Call K V) : session.Admits call := by
  cases call with
  | insert key value =>
    intro root anchored
    have low := h.levels_lt covered
    rw [levels, anchored, Option.elim_some] at low
    omega
  | erase | lookup | height | length | isEmpty | validate => trivial

/-- The tree is in order, and it costs no more than the insertions and no more than its pages. -/
structure Thrifty (session : Session K V) (n : Nat) : Prop where
  invariant : session.Invariant
  paid : session.tree.cost session.tree.anchor session.storage.content ≤ n
  covered : session.tree.cost session.tree.anchor session.storage.content ≤
    session.tree.anchor.nextPageNo

variable {n : Nat}

theorem call_preserves_thrift (h : session.Thrifty n) (roomy : 4 ≤ session.tree.capacities.inner)
    {call : Call K V} {reached : Reached K V}
    (called : session.tree.call call session.storage = .ok reached) :
    Thrifty ⟨reached.tree, reached.storage, call.record session.map reached.outcome⟩
      (n + call.insertions) := by
  have admitted := h.invariant.admits h.covered call
  have same := tree_of_call called
  obtain ⟨splits, held, once, altered⟩ := h.invariant.call_alters admitted called
  have costs : reached.tree.cost reached.tree.anchor reached.storage.content ≤
      session.tree.cost session.tree.anchor session.storage.content + splits := by
    rw [same]
    exact altered.changes.cost_le roomy
  have taken : session.tree.anchor.nextPageNo + splits ≤ reached.tree.anchor.nextPageNo :=
    altered.changes.taken
  exact ⟨call_preserves_invariant h.invariant admitted called,
    Nat.le_trans costs (Nat.add_le_add h.paid once),
    Nat.le_trans costs (Nat.le_trans (Nat.add_le_add_right h.covered _) taken)⟩

theorem Thrifty.of_same (h : session.Thrifty n) {storage : Storage}
    (coherent : storage.Coherent .nothing)
    (free : ∀ guard ∈ storage.pool.guards, guard.page.segment ≠ session.tree.segment)
    (same : ∀ page, page.segment = session.tree.segment →
      storage.content page = session.storage.content page) :
    Thrifty { session with storage } n := by
  obtain ⟨held, order, -⟩ := h.invariant.holds
  have cost : session.tree.cost session.tree.anchor storage.content =
      session.tree.cost session.tree.anchor session.storage.content :=
    cost_of_same order rfl fun p minted => same p minted.1
  exact ⟨h.invariant.of_same coherent free same, cost ▸ h.paid, cost ▸ h.covered⟩

theorem bare_thrifty {segment : SegmentId} {capacities : Capacities} {counter : Nat}
    {tree : Tree K V} {disk : Disk} {size : Nat} {pool : Pool}
    (opened : Tree.reopen segment capacities ⟨none, counter⟩ = .ok tree)
    (new : Pool.new size = .ok pool) : Thrifty ⟨tree, ⟨disk, pool⟩, ∅⟩ 0 := by
  refine ⟨bare_invariant opened new, ?_, ?_⟩ <;>
    (obtain ⟨rfl, -⟩ := of_reopen opened; exact Nat.zero_le _)

theorem inserted_thrifty (inserted : Inserted n session)
    (roomy : 4 ≤ session.tree.capacities.inner) : session.Thrifty n := by
  induction inserted with
  | opened opened new => exact bare_thrifty opened new
  | called before called ih =>
    rw [tree_of_call called] at roomy
    exact call_preserves_thrift (ih roomy) roomy called
  | elsewhere before spares leaves ih =>
    have h := ih roomy
    have apart := Pool.apart_of_leaves h.invariant.coherent h.invariant.free spares leaves
    exact h.of_same apart.coherent apart.free apart.content

theorem Thrifty.levels_le (h : session.Thrifty n)
    (two : 2 ≤ session.tree.levels session.storage.content) :
    2 ^ (session.tree.levels session.storage.content - 2) ≤ n := by
  cases anchored : session.tree.anchor.root with
  | none =>
    rw [levels, anchored] at two
    cases two
  | some root =>
    obtain ⟨height, stood⟩ := h.invariant.stood anchored
    have low := stood.height_le h.paid
    rw [stood.levels_eq] at two ⊢
    obtain ⟨below, rfl⟩ : ∃ below, height = below + 1 := ⟨height - 1, by omega⟩
    have positive := Nat.two_pow_pos below
    rw [Nat.pow_succ] at low
    change 2 ^ below ≤ n
    omega

/-- With room for four children in inner nodes, a tree of height `h` has seen `2 ^ (h - 2)`
insertions or more, whatever was erased and whichever calls failed. No chain of child pointers from
its root has `h` steps, and an insertion takes `h + 1` pages at most. -/
theorem height_logarithmic (inserted : Inserted n session)
    (roomy : 4 ≤ session.tree.capacities.inner) : ∃ height,
      session.tree.Yields .height session.storage (· = .count height) ∧
      (2 ≤ height → 2 ^ (height - 2) ≤ n) ∧
      (∀ root depth page, session.tree.anchor.root = some root →
        Descends (session.tree.nodes session.storage.content) root depth page → depth < height) ∧
      ∀ key value, ∃ reached,
        session.tree.call (.insert key value) session.storage = .ok reached ∧
        reached.tree.anchor.nextPageNo ≤ session.tree.anchor.nextPageNo + height + 1 := by
  have h := inserted_thrifty inserted roomy
  refine ⟨session.tree.levels session.storage.content, h.invariant.yields_height, h.levels_le,
    fun root depth page anchored => h.invariant.depth_lt anchored, fun key value => ?_⟩
  have admitted := h.invariant.admits h.covered (.insert key value)
  obtain ⟨reached, called, -⟩ := insert_settles h.invariant admitted
  obtain ⟨splits, held', -, altered⟩ := h.invariant.call_alters admitted called
  exact ⟨reached, called, altered.few⟩

theorem inserted_of_makes {session' : Session K V} (inserted : Inserted n session)
    {calls : List (Call K V)} (made : session.makes calls = some session') :
    Inserted (n + (calls.map Call.insertions).sum) session' := by
  induction calls generalizing n session with
  | nil => exact Option.some.inj made ▸ inserted
  | cons call rest ih =>
    rw [makes] at made
    split at made
    · obtain ⟨reached, called, made⟩ := Option.bind_eq_some_iff.mp made
      rw [List.map_cons, List.sum_cons, ← Nat.add_assoc]
      exact ih (.called inserted (ok_of_toOption called)) made
    · cases made

def insertAscending (capacities : Capacities) (count : Nat) :
    Option (Session (Word false 1) (Word false 1)) :=
  (Pool.new 40).toOption.bind fun pool =>
    makes ⟨⟨⟨0⟩, capacities, .empty⟩, ⟨Pool.oneFile, pool⟩, ∅⟩
      ((List.range count).map fun i => .insert ⟨BitVec.ofNat 8 i⟩ ⟨0⟩)

theorem inserted_insertAscending {capacities : Capacities} {count : Nat}
    {session : Session (Word false 1) (Word false 1)}
    (accepted : capacities.check (Word false 1) (Word false 1) = .ok ())
    (made : insertAscending capacities count = some session) : Inserted count session := by
  obtain ⟨pool, new, made⟩ := Option.bind_eq_some_iff.mp made
  have opened : Tree.new ⟨0⟩ capacities =
      .ok (⟨⟨0⟩, capacities, .empty⟩ : Tree (Word false 1) (Word false 1)) := by
    rw [Tree.new, Tree.reopen, accepted]
    rfl
  have inserted := inserted_of_makes (.opened opened (ok_of_toOption new)) made
  rwa [List.map_map, show Call.insertions ∘ _ = Function.const Nat 1 from rfl, List.map_const,
    List.length_range, List.sum_replicate_nat, Nat.mul_one, Nat.zero_add] at inserted

theorem split_doubles_insertions : ∃ session, Inserted 6 session ∧
    insertAscending ⟨2, 4⟩ 6 = some session ∧
    ∃ reached, session.tree.call .height session.storage = .ok reached ∧
      reached.outcome = .ok (.count 3) ∧ 2 ^ (3 - 2) ≤ 6 := by
  have checked : (insertAscending ⟨2, 4⟩ 6).any (fun session =>
      session.tree.capacities = ⟨2, 4⟩ ∧
        (session.tree.call .height session.storage).toOption.any
          (·.outcome = .ok (.count 3)) = true) = true := by decide +kernel
  obtain ⟨session, made, told⟩ := (Option.any_eq_true _ _).mp checked
  obtain ⟨capacities, told⟩ := of_decide_eq_true told
  have inserted := inserted_insertAscending rfl made
  obtain ⟨height, yields, bounded, -⟩ := height_logarithmic inserted (by rw [capacities])
  obtain ⟨reached, ran, outcome⟩ := (Option.any_eq_true _ _).mp told
  obtain ⟨reached', ran', answered⟩ := yields
  cases ran'.symm.trans (ok_of_toOption ran)
  rw [of_decide_eq_true outcome] at answered
  cases answered
  exact ⟨session, inserted, made, reached, ok_of_toOption ran, of_decide_eq_true outcome,
    bounded (by decide)⟩

/-- Where inner nodes have room for three children only, eleven ascending keys make a tree of six
levels. None of the insertions fails. -/
theorem ascending_keys_outgrow : ∃ session, Inserted 11 session ∧
    insertAscending ⟨2, 3⟩ 11 = some session ∧ session.map.size = 11 ∧
    ∃ reached, session.tree.call .height session.storage = .ok reached ∧
      reached.outcome = .ok (.count 6) ∧ ¬ 2 ^ (6 - 2) ≤ 11 := by
  have checked : (insertAscending ⟨2, 3⟩ 11).any (fun session => session.map.size = 11 ∧
      (session.tree.call .height session.storage).toOption.any
        (·.outcome = .ok (.count 6)) = true) = true := by decide +kernel
  obtain ⟨session, made, told⟩ := (Option.any_eq_true _ _).mp checked
  obtain ⟨size, told⟩ := of_decide_eq_true told
  obtain ⟨reached, ran, outcome⟩ := (Option.any_eq_true _ _).mp told
  exact ⟨session, inserted_insertAscending rfl made, made, size, reached, ok_of_toOption ran,
    of_decide_eq_true outcome, by decide⟩

end Session

end PagedIndex
