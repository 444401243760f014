import Mathlib.Data.Set.Card
import PagedIndex.FixedWidth.Word
import PagedIndex.Proofs.Node.Capacities
import PagedIndex.Proofs.Pool.Transparency
import PagedIndex.Proofs.Tree.Inspect

/-!
# Validation is exact

Whatever bytes the pages hold, a validation accepts the tree below the root if and only if it is
well-formed, and then the other calls that look answer for exactly the entries of its leaves.
-/

namespace PagedIndex.Tree

open KeyOrder

variable {K V : Type} [IndexKey K] [FixedWidth V] {tree : Tree K V} {content : PageId → Page}
  {shape : Shape} {held : List (K × V)}

theorem encard_eq_countP {P : PageId → Prop} {list : List PageId} (nodup : list.Nodup)
    (mem_iff : ∀ page, page ∈ list ↔ P page) (f : PageId → Bool) :
    {page | P page ∧ f page = true}.encard = list.countP f := by
  have same : {page | P page ∧ f page = true} = ((list.filter f).toFinset : Set PageId) := by
    ext page
    simp [mem_iff]
  rw [same, Set.encard_coe_eq_coe_finsetCard, List.toFinset_card_of_nodup (nodup.filter f),
    List.countP_eq_length_filter]

namespace Reads

theorem mem_iff (reads : tree.Reads content shape held) (entry : K × V) :
    entry ∈ held ↔ ∃ page listed, tree.Owns content page ∧
      tree.nodes content page = .leaf listed ∧ entry ∈ listed := by
  cases anchored : tree.anchor.root with
  | none =>
    obtain ⟨-, rfl⟩ := reads.bare anchored
    simp [Owns, anchored]
  | some root =>
    obtain ⟨level, well_formed, -, rfl⟩ := reads.rooted root anchored
    rw [well_formed.sound.entries_eq_flatMap, List.mem_flatMap]
    constructor
    · intro given
      rcases given with ⟨page, mem, listed⟩
      cases node : tree.nodes content page with
      | leaf entries =>
        rw [node] at listed
        exact ⟨page, entries, ⟨root, anchored, .of_mem_pages mem⟩, node, listed⟩
      | inner level separators pointers =>
        rw [node] at listed
        exact absurd listed List.not_mem_nil
    · intro given
      rcases given with ⟨page, listed, ⟨root', anchored', reaches⟩, node, mem⟩
      cases anchored.symm.trans anchored'
      refine ⟨page, well_formed.sound.mem_pages_of_reaches reaches, ?_⟩
      rw [node]
      exact mem

theorem encard_eq (reads : tree.Reads content shape held) :
    {page | tree.Owns content page ∧ (tree.nodes content page).isLeaf = true}.encard =
        shape.leaves ∧
      {page | tree.Owns content page ∧ (!(tree.nodes content page).isLeaf) = true}.encard =
        shape.inners := by
  cases anchored : tree.anchor.root with
  | none =>
    obtain ⟨rfl, -⟩ := reads.bare anchored
    simp [Owns, anchored]
  | some root =>
    obtain ⟨level, well_formed, rfl, -⟩ := reads.rooted root anchored
    have mem_iff (page : PageId) : page ∈ pages (tree.nodes content) level root ↔
        tree.Owns content page := by
      rw [← well_formed.sound.reaches_iff]
      simp [Owns, anchored]
    exact ⟨encard_eq_countP well_formed.nodup mem_iff _,
      encard_eq_countP well_formed.nodup mem_iff _⟩

end Reads

theorem validate_program_ensures (suitable : tree.capacities.Suitable K V) :
    Access.Ensures ⟨tree.segment, tree.Owns content, 1⟩
      (Refused ⟨tree.anchor, content, []⟩ (∃ shape held, tree.Reads content shape held))
      (tree.program .validate)
      (fun answer scene => scene = ⟨tree.anchor, content, []⟩ ∧
        ∃ shape held, answer = .shape shape ∧ tree.Reads content shape held)
      ⟨tree.anchor, content, []⟩ := by
  refine Access.Ensures.map_iff.mpr (Access.Ensures.weaken (validate_ensures suitable
    (Nat.le_refl 1) fun root anchored p reaches => ⟨root, anchored, reaches⟩) ?_)
  intro shape scene ended
  rcases ended with ⟨rfl, held, reads⟩
  exact ⟨rfl, shape, held, rfl, reads⟩

theorem validate_reaches (suitable : tree.capacities.Suitable K V) {storage : Storage}
    (coherent : storage.Coherent .nothing)
    (free : ∀ guard ∈ storage.pool.guards, ¬ tree.Owns storage.content guard.page) :
    ∃ reached, tree.call .validate storage = .ok reached ∧ Kept tree storage reached ∧
      match reached.outcome with
      | .ok answer => ∃ shape held, answer = .shape shape ∧ tree.Reads storage.content shape held
      | .error error => (∃ fault, error = .storage fault ∧
            ∃ latch page, tree.Refuses .validate storage (.fetch latch page) fault) ∨
          (∃ fault, error = .corrupted fault) ∧ ¬ tree.IsTree storage.content := by
  obtain ⟨reached, scene, ran, anchor, coherent', content, guards, ended⟩ :=
    call_reaches coherent free (validate_program_ensures suitable)
  refine ⟨reached, ran, ?_⟩
  have kept (same : scene = ⟨tree.anchor, storage.content, []⟩) : Kept tree storage reached := by
    rw [same] at anchor content
    exact ⟨anchor, coherent', content, guards⟩
  cases outcome : reached.outcome with
  | ok answer =>
    rw [outcome] at ended
    exact ⟨kept ended.1, ended.2⟩
  | error error =>
    rw [outcome] at ended
    obtain ⟨same, ⟨fault, rfl⟩ | corrupted⟩ := ended
    · exact ⟨kept same, .inl ⟨fault, rfl, unread_of_fault coherent rfl ran outcome⟩⟩
    · rw [isTree_iff]
      exact ⟨kept same, .inr corrupted⟩

theorem validate_readable (suitable : tree.capacities.Suitable K V) {storage : Storage}
    (coherent : storage.Coherent .nothing) (backed : storage.Backed)
    (free : ∀ guard ∈ storage.pool.guards, ¬ tree.Owns storage.content guard.page)
    (at_hand : tree.AtHand .validate storage) : tree.Readable .validate storage :=
  readable_of_available coherent backed free
    ((validate_program_ensures suitable).imp (fun _ _ _ => trivial) fun _ _ _ => trivial)
    at_hand.available at_hand.steady at_hand.frames

/-- A validation that can read its pages tells a tree from what is none. -/
theorem validate_decides (suitable : tree.capacities.Suitable K V) {storage : Storage}
    (coherent : storage.Coherent .nothing)
    (free : ∀ guard ∈ storage.pool.guards, ¬ tree.Owns storage.content guard.page)
    {reached : Reached K V} (called : tree.call .validate storage = .ok reached)
    (readable : tree.Readable .validate storage) :
    ((∃ shape, reached.outcome = .ok (.shape shape)) ↔ tree.IsTree storage.content) ∧
      ((∃ fault, reached.outcome = .error (.corrupted fault)) ↔
        ¬ tree.IsTree storage.content) := by
  obtain ⟨reached', ran, -, ended⟩ := validate_reaches suitable coherent free
  cases called.symm.trans ran
  cases outcome : reached.outcome with
  | ok answer =>
    rw [outcome] at ended
    obtain ⟨shape, held, rfl, reads⟩ := ended
    have is_tree := isTree_iff.mpr ⟨shape, held, reads⟩
    simp [is_tree]
  | error error =>
    rw [outcome] at ended
    rcases ended with ⟨fault, rfl, latch, page, refused⟩ | ⟨⟨fault, rfl⟩, refuted⟩
    · exact absurd refused (readable latch page fault)
    · simp [refuted]

/-- A validation that can read its pages accepts those below the root if they form a tree and calls
them corrupted otherwise; if it cannot, it says which fault it met. Once it accepts them, a lookup
finds exactly the entries of the leaves, and the numbers it told are those of the tree. -/
theorem validate_exact {tree : Tree K V} (accepted : tree.capacities.check K V = .ok ())
    {disk : Disk} {size : Nat} {pool : Pool} (new : Pool.new size = .ok pool)
    {operations : List Pool.Operation} {ledger : Pool.Ledger}
    (run : (Pool.Ledger.start disk pool).run operations = .ok ledger)
    (free : ∀ guard ∈ ledger.storage.pool.guards,
      ¬ tree.Owns ledger.storage.content guard.page) :
    ∃ reached, tree.call .validate ledger.storage = .ok reached ∧
      (tree.AtHand .validate ledger.storage → tree.Readable .validate ledger.storage) ∧
      (tree.Readable .validate ledger.storage →
        ((∃ shape, reached.outcome = .ok (.shape shape)) ↔
          tree.IsTree ledger.storage.content) ∧
        ((∃ fault, reached.outcome = .error (.corrupted fault)) ↔
          ¬ tree.IsTree ledger.storage.content)) ∧
      match reached.outcome with
      | .error error => (∃ fault, error = .storage fault ∧
            ∃ latch page, tree.Refuses .validate ledger.storage (.fetch latch page) fault) ∨
          (∃ fault, error = .corrupted fault) ∧ ¬ tree.IsTree ledger.storage.content
      | .ok answer => tree.IsTree ledger.storage.content ∧ ∃ shape, answer = .shape shape ∧
          (∀ key, reached.tree.Reports (.lookup key) reached.storage fun answer =>
            ∃ found, answer = .value found ∧ ∀ value, found = some value ↔
              ∃ page listed, tree.Owns ledger.storage.content page ∧
                tree.nodes ledger.storage.content page = .leaf listed ∧ (key, value) ∈ listed) ∧
          reached.tree.Reports .length reached.storage (· = .count shape.entries) ∧
          reached.tree.Reports .height reached.storage (· = .count shape.height) ∧
          {page | tree.Owns ledger.storage.content page ∧
            (tree.nodes ledger.storage.content page).isLeaf = true}.encard = shape.leaves ∧
          {page | tree.Owns ledger.storage.content page ∧
            (!(tree.nodes ledger.storage.content page).isLeaf) = true}.encard = shape.inners := by
  have suitable := Capacities.suitable_of_check accepted
  have coherent := (Pool.run_preserves_invariant (Pool.start_invariant new) run).coherent
  have lasts := Pool.run_lasts (Pool.start_invariant new) (Pool.backed_of_new new disk) run
  obtain ⟨reached, ran, kept, ended⟩ := validate_reaches suitable coherent free
  refine ⟨reached, ran, validate_readable suitable coherent lasts.backed free,
    validate_decides suitable coherent free ran, ?_⟩
  cases outcome : reached.outcome with
  | error error =>
    rw [outcome] at ended
    exact ended
  | ok answer =>
    rw [outcome] at ended
    obtain ⟨shape, held, rfl, reads⟩ := ended
    refine ⟨isTree_iff.mpr ⟨shape, held, reads⟩, shape, rfl, ?_⟩
    have look {call : Call K V} (look : looks call = true) :
        reached.tree.Reports call reached.storage (Answers shape held call) := by
      rw [kept.tree]
      refine look_reports suitable kept.coherent ?_ ?_ look
      · rw [kept.guards, kept.content]
        exact free
      · rw [kept.content]
        exact reads
    refine ⟨fun key => (look rfl).imp ?_, look rfl, look rfl, reads.encard_eq.1, reads.encard_eq.2⟩
    intro answer ended
    rcases ended with ⟨found, rfl, exact_found⟩
    exact ⟨found, rfl, fun value => (exact_found value).trans (reads.mem_iff (key, value))⟩

/-- A tree of bytes whose root is the first page. -/
def rootedAtFirst : Tree (Word false 1) (Word false 1) := ⟨⟨0⟩, ⟨2, 3⟩, ⟨some ⟨0⟩, 1⟩⟩

theorem eq_first_of_owns {content : PageId → Page}
    (is_leaf : (rootedAtFirst.nodes content ⟨0⟩).isLeaf = true) {page : PageId}
    (owned : rootedAtFirst.Owns content page) : page = ⟨0⟩ := by
  obtain ⟨root, anchored, reaches⟩ := owned
  cases anchored
  induction reaches with
  | here => rfl
  | down _ mem above =>
    rw [above] at mem
    cases node : rootedAtFirst.nodes content ⟨0⟩ with
    | leaf listed => rw [node] at mem; cases mem
    | inner number separators pointers => rw [node] at is_leaf; cases is_leaf

theorem zeroed_page_is_tree : ∃ pool ledger, Pool.new 1 = .ok pool ∧
    (Pool.Ledger.start Disk.twoFiles pool).run [.create ⟨0⟩, .release ⟨0⟩] = .ok ledger ∧
    rootedAtFirst.IsTree ledger.storage.content ∧
    rootedAtFirst.Readable .validate ledger.storage ∧
    ∃ reached, rootedAtFirst.call .validate ledger.storage = .ok reached ∧
      reached.outcome = .ok (.shape ⟨1, 1, 0, 0⟩) ∧
      reached.tree.Reports .length reached.storage (· = .count 0) := by
  let check (ledger : Pool.Ledger) : Bool := decide (ledger.storage.pool.guards = [] ∧
    (rootedAtFirst.nodes ledger.storage.content ⟨0⟩).isLeaf = true ∧
    (⟨0⟩ : PageId) ∈ ledger.storage.pool.table ∧
    ledger.storage.pool.pinnedFrameCount + 1 ≤ ledger.storage.pool.size ∧
    (rootedAtFirst.call .validate ledger.storage).toOption.any (fun reached =>
      reached.outcome = .ok (.shape ⟨1, 1, 0, 0⟩)) = true)
  obtain ⟨pool, new, checked⟩ : ∃ pool, Pool.new 1 = .ok pool ∧
      ((Pool.Ledger.start Disk.twoFiles pool).run
        [.create ⟨0⟩, .release ⟨0⟩]).toOption.any check = true := ⟨_, rfl, by decide +kernel⟩
  cases run : (Pool.Ledger.start Disk.twoFiles pool).run [.create ⟨0⟩, .release ⟨0⟩] with
  | error violation => rw [run] at checked; cases checked
  | ok ledger =>
    rw [run] at checked
    obtain ⟨unguarded, is_leaf, resident, frames, told⟩ := of_decide_eq_true checked
    have free : ∀ guard ∈ ledger.storage.pool.guards,
        ¬ rootedAtFirst.Owns ledger.storage.content guard.page := by
      rw [unguarded]
      exact fun guard mem => absurd mem List.not_mem_nil
    have lasts := Pool.run_lasts (Pool.start_invariant new)
      (Pool.backed_of_new new Disk.twoFiles) run
    have at_hand : rootedAtFirst.AtHand .validate ledger.storage :=
      ⟨fun page owned => .inl (eq_first_of_owns is_leaf owned ▸ resident),
        lasts.disk.steady Disk.steady_twoFiles, frames⟩
    obtain ⟨reached, ran, readable, decides, ended⟩ := validate_exact rfl new run free
    rw [ran] at told
    have outcome : reached.outcome = .ok (.shape ⟨1, 1, 0, 0⟩) := of_decide_eq_true told
    rw [outcome] at ended
    obtain ⟨-, shape, same, -, length, -⟩ := ended
    cases same
    have is_tree := (decides (readable at_hand)).1.mp ⟨_, outcome⟩
    exact ⟨pool, ledger, new, run, is_tree, readable at_hand, reached, ran, outcome, length⟩

end PagedIndex.Tree
