import PagedIndex.Proofs.Tree.Lookup
import PagedIndex.Proofs.Tree.Reading
import PagedIndex.Proofs.Tree.Validate

/-!
# Calls that only look

On a well-formed tree a lookup, a measurement or a validation answers for the entries that the
leaves hold, or fails with a storage fault. Either way nothing changes.
-/

namespace PagedIndex.Tree

open KeyOrder Access

variable {K V : Type} [IndexKey K] [FixedWidth V] {tree : Tree K V} {ground : Ground}
  {failed : Error → Scene → Prop} {scene : Scene} {page root : PageId} {level : Nat}
  {range : Range K}
  {shape : Shape} {held : List (K × V)} {content : PageId → Page}

theorem foldrM_count_ensures {α : Type} {count : PageId → Access Nat} {children : List PageId}
    {held : PageId → List α}
    (each : ∀ child ∈ children, Ensures ground failed (count child)
      (fun n scene' => scene' = scene ∧ n = (held child).length) scene) :
    Ensures ground failed (children.foldrM (fun child total => return total + (← count child)) 0)
      (fun n scene' => scene' = scene ∧ n = (children.flatMap held).length) scene := by
  induction children with
  | nil => exact Ensures.pure_iff.mpr ⟨rfl, rfl⟩
  | cons child rest ih =>
    rw [List.foldrM_cons]
    apply Ensures.andThen (ih fun other mem => each other (List.mem_cons_of_mem _ mem))
    intro total _ ended
    rcases ended with ⟨rfl, rfl⟩
    apply Ensures.andThen (each child (by simp))
    intro n _ ended
    rcases ended with ⟨rfl, rfl⟩
    exact Ensures.pure_iff.mpr ⟨rfl, by rw [List.flatMap_cons, List.length_append, Nat.add_comm]⟩

theorem countFrom_ensures (suitable : tree.capacities.Suitable K V) (bare : scene.holds = [])
    (one : 1 ≤ ground.limit) {depth : Nat}
    (sound : Sound tree.capacities (tree.nodes scene.content) level range page)
    (mine : ∀ p ∈ pages (tree.nodes scene.content) level page, ground.mine p)
    (refused : ∀ fault : StorageFault, failed (.storage fault) scene) (enough : level < depth) :
    Ensures ground failed (tree.countFrom depth page)
      (fun n scene' => scene' = scene ∧ n = (entries (tree.nodes scene.content) level page).length)
      scene := by
  induction depth generalizing level range page with
  | zero => omega
  | succ depth ih =>
    rw [countFrom]
    apply Ensures.andThen (visit_ensures bare (mine page (mem_pages_self _ _ _)) one refused)
    intro bytes scene ended
    rcases ended with ⟨rfl, rfl⟩
    refine Ensures.bind_iff.mpr ((Ensures.ofNode_iff (Node.header_eq suitable _)).mpr ?_)
    cases level with
    | zero =>
      obtain ⟨listed, node, -⟩ := sound
      rw [Node.isLeaf_of_leaf node, if_pos rfl, Ensures.pure_iff, Node.count_of_leaf node, entries,
        node]
      exact ⟨rfl, rfl⟩
    | succ level =>
      obtain ⟨separators, pointers, node, inner_sound, chain⟩ := sound
      rw [Node.isLeaf_of_inner node, if_neg Bool.false_ne_true, Ensures.bind_iff, inner_eq,
        Ensures.ofNode_iff (Node.inner_children_eq suitable node inner_sound.within), entries, node]
      refine foldrM_count_ensures fun child mem => ?_
      obtain ⟨r, below⟩ := chain.exists_range mem
      refine ih below (fun p listed => mine p (mem_pages_of_child ?_ listed)) (by omega)
      rw [node]
      exact mem

namespace Reads

theorem unique {shape' : Shape} {held' : List (K × V)} (reads : tree.Reads content shape held)
    (reads' : tree.Reads content shape' held') : shape = shape' ∧ held = held' := by
  cases anchored : tree.anchor.root with
  | none =>
    obtain ⟨rfl, rfl⟩ := reads.bare anchored
    obtain ⟨rfl, rfl⟩ := reads'.bare anchored
    exact ⟨rfl, rfl⟩
  | some root =>
    obtain ⟨level, well_formed, rfl, rfl⟩ := reads.rooted root anchored
    obtain ⟨level', well_formed', rfl, rfl⟩ := reads'.rooted root anchored
    rw [← well_formed.sound.level_eq, ← well_formed'.sound.level_eq]
    exact ⟨rfl, rfl⟩

theorem entries_eq (reads : tree.Reads content shape held) : shape.entries = held.length := by
  cases anchored : tree.anchor.root with
  | none =>
    obtain ⟨rfl, rfl⟩ := reads.bare anchored
    rfl
  | some root =>
    obtain ⟨level, -, rfl, rfl⟩ := reads.rooted root anchored
    rfl

end Reads

structure Untouched (tree : Tree K V) (content : PageId → Page) (scene : Scene) : Prop where
  anchor : scene.anchor = tree.anchor
  content : scene.content = content

/-- A call that only looks fails with a storage fault, nothing else. -/
def LookFails (tree : Tree K V) (content : PageId → Page) (error : Error) (scene : Scene) : Prop :=
  (∃ fault, error = .storage fault) ∧ tree.Untouched content scene

/-- The answer that a tree of this shape with these entries gives to a call that only looks. -/
def Answers (shape : Shape) (held : List (K × V)) : Call K V → Answer V → Prop
  | .lookup key, answer =>
    ∃ found, answer = .value found ∧ ∀ value, found = some value ↔ (key, value) ∈ held
  | .height, answer => answer = .count shape.height
  | .length, answer => answer = .count shape.entries
  | .isEmpty, answer => answer = .verdict held.isEmpty
  | .validate, answer => answer = .shape shape
  | .insert _ _, _ | .erase _, _ => False

def looks : Call K V → Bool
  | .insert _ _ | .erase _ => false
  | .lookup _ | .height | .length | .isEmpty | .validate => true

section Looks

variable (suitable : tree.capacities.Suitable K V) (two : 2 ≤ ground.limit)
  (mine : ∀ root, tree.anchor.root = some root → ∀ p, Reaches (tree.nodes content) root p →
    ground.mine p)
  (reads : tree.Reads content shape held)

include suitable two mine reads

theorem lookup_answers (key : K) : Ensures ground (LookFails tree content) (tree.lookup key)
    (fun found scene => (∀ value, found = some value ↔ (key, value) ∈ held) ∧
      tree.Untouched content scene) ⟨tree.anchor, content, []⟩ := by
  cases anchored : tree.anchor.root with
  | none =>
    obtain ⟨-, rfl⟩ := reads.bare anchored
    rw [lookup, anchored]
    exact Ensures.pure_iff.mpr ⟨by simp, rfl, rfl⟩
  | some root =>
    obtain ⟨level, well_formed, -, rfl⟩ := reads.rooted root anchored
    refine Ensures.weaken (lookup_ensures suitable anchored well_formed.sound
      (fun p mem => mine root anchored p (.of_mem_pages mem)) two
      fun fault holds => ⟨⟨fault, rfl⟩, rfl, rfl⟩) ?_
    intro found _ ended
    rcases ended with ⟨holds, before, after, rfl, cuts⟩
    exact ⟨fun value => (cuts.mem_iff value).symm, rfl, rfl⟩

theorem height_answers : Ensures ground (LookFails tree content) tree.height
    (fun n scene => n = shape.height ∧ tree.Untouched content scene)
    ⟨tree.anchor, content, []⟩ := by
  rw [height]
  cases anchored : tree.anchor.root with
  | none =>
    obtain ⟨rfl, -⟩ := reads.bare anchored
    exact Ensures.pure_iff.mpr ⟨rfl, rfl, rfl⟩
  | some root =>
    obtain ⟨level, well_formed, rfl, -⟩ := reads.rooted root anchored
    refine Ensures.andThen (visit_ensures rfl (mine root anchored root .here)
      (Nat.le_of_succ_le two) fun fault => ⟨⟨fault, rfl⟩, rfl, rfl⟩) ?_
    intro bytes _ ended
    rcases ended with ⟨rfl, rfl⟩
    refine Ensures.bind_iff.mpr ((Ensures.ofNode_iff (Node.header_eq suitable _)).mpr ?_)
    exact Ensures.pure_iff.mpr ⟨by rw [well_formed.sound.level_eq]; rfl, rfl, rfl⟩

theorem length_answers : Ensures ground (LookFails tree content) tree.length
    (fun n scene => n = shape.entries ∧ tree.Untouched content scene)
    ⟨tree.anchor, content, []⟩ := by
  rw [length]
  cases anchored : tree.anchor.root with
  | none =>
    obtain ⟨rfl, -⟩ := reads.bare anchored
    exact Ensures.pure_iff.mpr ⟨rfl, rfl, rfl⟩
  | some root =>
    obtain ⟨level, well_formed, rfl, -⟩ := reads.rooted root anchored
    have far : level < descentBound := Nat.lt_trans well_formed.sound.level_lt (by decide)
    refine Ensures.weaken (countFrom_ensures suitable rfl (Nat.le_of_succ_le two) well_formed.sound
      (fun p mem => mine root anchored p (.of_mem_pages mem))
      (fun fault => ⟨⟨fault, rfl⟩, rfl, rfl⟩) far) ?_
    intro n _ ended
    rcases ended with ⟨rfl, rfl⟩
    exact ⟨rfl, rfl, rfl⟩

theorem validate_answers : Ensures ground (LookFails tree content) tree.validate
    (fun shape' scene => shape' = shape ∧ tree.Untouched content scene)
    ⟨tree.anchor, content, []⟩ := by
  refine Ensures.imp (validate_ensures suitable (Nat.le_of_succ_le two) mine) ?_ ?_
  · intro shape' _ ended
    rcases ended with ⟨rfl, held', reads'⟩
    exact ⟨(reads'.unique reads).1, rfl, rfl⟩
  · intro error _ ended
    rcases ended with ⟨rfl, found | ⟨-, refuted⟩⟩
    · exact ⟨found, rfl, rfl⟩
    · exact absurd ⟨shape, held, reads⟩ refuted

theorem look_ensures {call : Call K V} (look : looks call = true) :
    Ensures ground (LookFails tree content) (tree.program call)
      (fun answer scene => Answers shape held call answer ∧ tree.Untouched content scene)
      ⟨tree.anchor, content, []⟩ := by
  cases call with
  | insert key value => cases look
  | erase key => cases look
  | lookup key =>
    refine Ensures.map_iff.mpr (Ensures.weaken (lookup_answers suitable two mine reads key) ?_)
    exact fun found scene h => ⟨⟨found, rfl, h.1⟩, h.2⟩
  | height =>
    refine Ensures.map_iff.mpr (Ensures.weaken (height_answers suitable two mine reads) ?_)
    exact fun n scene h => ⟨congrArg Answer.count h.1, h.2⟩
  | length =>
    refine Ensures.map_iff.mpr (Ensures.weaken (length_answers suitable two mine reads) ?_)
    exact fun n scene h => ⟨congrArg Answer.count h.1, h.2⟩
  | isEmpty =>
    refine Ensures.map_iff.mpr (Ensures.andThen (length_answers suitable two mine reads) ?_)
    intro n scene ended
    rcases ended with ⟨rfl, untouched⟩
    refine Ensures.pure_iff.mpr ⟨congrArg Answer.verdict ?_, untouched⟩
    rw [reads.entries_eq, Bool.eq_iff_iff, decide_eq_true_iff, List.isEmpty_iff_length_eq_zero]
  | validate =>
    refine Ensures.map_iff.mpr (Ensures.weaken (validate_answers suitable two mine reads) ?_)
    exact fun shape' scene h => ⟨congrArg Answer.shape h.1, h.2⟩

end Looks

/-- The page is in the tree of the anchor. -/
def Owns (tree : Tree K V) (content : PageId → Page) (page : PageId) : Prop :=
  ∃ root, tree.anchor.root = some root ∧ Reaches (tree.nodes content) root page

structure Kept (tree : Tree K V) (storage : Storage) (reached : Reached K V) : Prop where
  tree : reached.tree = tree
  coherent : reached.storage.Coherent .nothing
  content : reached.storage.content = storage.content
  guards : reached.storage.pool.guards = storage.pool.guards

omit [IndexKey K] [FixedWidth V] in
theorem requires_of_looks {call : Call K V} (look : looks call = true) :
    call.Requires = Request.Looks := by
  cases call with
  | insert key value => cases look
  | erase key => cases look
  | lookup | height | length | isEmpty | validate => rfl

/-- The pages of the tree are in frames or on disk, the disk is steady, and there are as many frames
without pins as the call holds pages at a time. -/
structure AtHand (tree : Tree K V) (call : Call K V) (storage : Storage) : Prop where
  available : ∀ page, tree.Owns storage.content page → storage.Available page
  steady : storage.disk.Steady
  frames : storage.pool.pinnedFrameCount + call.guardLimit ≤ storage.pool.size

/-- The call is not violated. It ends with a right answer or with the fault of a request that was
refused, and with a right answer whenever its pages can be read. -/
structure Reports (tree : Tree K V) (call : Call K V) (storage : Storage)
    (right : Answer V → Prop) : Prop where
  yields : tree.Yields call storage right
  told : tree.Readable call storage → ∃ reached answer,
    tree.call call storage = .ok reached ∧ reached.outcome = .ok answer ∧ right answer

namespace Reports

variable {call : Call K V} {storage : Storage} {right right' : Answer V → Prop}

theorem of_yields (coherent : storage.Coherent .nothing) (look : looks call = true)
    (h : tree.Yields call storage right) : tree.Reports call storage right := by
  refine ⟨h, fun readable => ?_⟩
  obtain ⟨reached, called, ended⟩ := h
  cases outcome : reached.outcome with
  | ok answer =>
    rw [outcome] at ended
    exact ⟨reached, answer, called, outcome, ended⟩
  | error error =>
    rw [outcome] at ended
    obtain ⟨fault, rfl, -⟩ := ended
    have asked := requires_of_looks look
    obtain ⟨latch, page, refused⟩ := unread_of_fault coherent asked called outcome
    exact absurd refused (readable latch page fault)

theorem imp (h : tree.Reports call storage right) (hr : ∀ answer, right answer → right' answer) :
    tree.Reports call storage right' := by
  refine ⟨h.yields.imp hr, fun readable => ?_⟩
  obtain ⟨reached, answer, called, outcome, ended⟩ := h.told readable
  exact ⟨reached, answer, called, outcome, hr answer ended⟩

end Reports

theorem look_reaches (suitable : tree.capacities.Suitable K V) {storage : Storage}
    (coherent : storage.Coherent .nothing)
    (free : ∀ guard ∈ storage.pool.guards, ¬ tree.Owns storage.content guard.page)
    (reads : tree.Reads storage.content shape held) {call : Call K V} (look : looks call = true) :
    ∃ reached, tree.call call storage = .ok reached ∧ Kept tree storage reached ∧
      match reached.outcome with
      | .ok answer => Answers shape held call answer
      | .error error => ∃ fault, error = .storage fault := by
  let ground : Ground := ⟨tree.segment, tree.Owns storage.content, 2⟩
  have two : 2 ≤ ground.limit := Nat.le_refl 2
  have mine (root : PageId) (anchored : tree.anchor.root = some root) (p : PageId)
      (reaches : Reaches (tree.nodes storage.content) root p) : ground.mine p :=
    ⟨root, anchored, reaches⟩
  obtain ⟨reached, scene, ran, anchor, coherent', content, guards, ended⟩ :=
    call_reaches coherent free (look_ensures suitable two mine reads look)
  refine ⟨reached, ran, ?_⟩
  have kept (untouched : tree.Untouched storage.content scene) : Kept tree storage reached :=
    ⟨by rw [anchor, untouched.anchor], coherent', content.trans untouched.content, guards⟩
  cases outcome : reached.outcome with
  | ok answer =>
    rw [outcome] at ended
    exact ⟨kept ended.2, ended.1⟩
  | error error =>
    rw [outcome] at ended
    exact ⟨kept ended.2, ended.1⟩

theorem look_reports (suitable : tree.capacities.Suitable K V) {storage : Storage}
    (coherent : storage.Coherent .nothing)
    (free : ∀ guard ∈ storage.pool.guards, ¬ tree.Owns storage.content guard.page)
    (reads : tree.Reads storage.content shape held) {call : Call K V} (look : looks call = true) :
    tree.Reports call storage (Answers shape held call) := by
  obtain ⟨reached, ran, -, ended⟩ := look_reaches suitable coherent free reads look
  refine .of_yields coherent look (.of_ends coherent ran ?_)
  exact ended

theorem look_readable (suitable : tree.capacities.Suitable K V) {storage : Storage}
    (coherent : storage.Coherent .nothing) (backed : storage.Backed)
    (free : ∀ guard ∈ storage.pool.guards, ¬ tree.Owns storage.content guard.page)
    (reads : tree.Reads storage.content shape held) {call : Call K V} (look : looks call = true)
    (at_hand : tree.AtHand call storage) : tree.Readable call storage := by
  let ground : Ground := ⟨tree.segment, tree.Owns storage.content, 2⟩
  have two : 2 ≤ ground.limit := Nat.le_refl 2
  have unviolated : (tree.program call).Unviolated ground ⟨tree.anchor, storage.content, []⟩ :=
    (look_ensures suitable two (fun root anchored p reaches => ⟨root, anchored, reaches⟩) reads
      look).imp (fun _ _ _ => trivial) fun _ _ _ => trivial
  exact readable_of_available coherent backed free unviolated at_hand.available at_hand.steady
    at_hand.frames

end PagedIndex.Tree
