import PagedIndex.Proofs.Tree.Exactness
import PagedIndex.Proofs.Tree.Sessions

/-!
# A tree that validates may be changed

A tree opened on any pages is as good as one that its own calls built, once a validation accepts it
and its pages were handed out before. A change goes on from the entries found in its leaves, and
however it ends a validation accepts the tree again. So empty leaves, inner nodes with one child and
separators at a lower bound do no harm.
-/

namespace PagedIndex

open KeyOrder

variable {K V : Type} [IndexKey K]

theorem Session.lists_ofList {held : List (K × V)} (ascending : Ascending held) :
    Lists held (Std.TreeMap.ofList held compare) := by
  have distinct : held.Pairwise fun a b => ¬ compare a.1 b.1 = .eq :=
    (List.pairwise_map.mp ascending).imp fun less same =>
      ne_of_lt less (Std.LawfulEqCmp.compare_eq_iff_eq.mp same)
  intro key value
  constructor
  · exact fun mem =>
      Std.TreeMap.getElem?_ofList_of_mem Std.ReflCmp.compare_self distinct mem
  · intro found
    by_cases listed : key ∈ held.map Prod.fst
    · obtain ⟨⟨_, value'⟩, mem, rfl⟩ := List.mem_map.mp listed
      rw [Std.TreeMap.getElem?_ofList_of_mem Std.ReflCmp.compare_self distinct mem] at found
      exact Option.some.inj found ▸ mem
    · rw [Std.TreeMap.getElem?_ofList_of_contains_eq_false (by simpa using listed)] at found
      cases found

namespace Tree

variable [FixedWidth V] {tree : Tree K V} {content : PageId → Page} {shape : Shape}
  {held : List (K × V)}

def Carries (tree : Tree K V) (content : PageId → Page) (entry : K × V) : Prop :=
  ∃ page listed, tree.Owns content page ∧ tree.nodes content page = .leaf listed ∧ entry ∈ listed

theorem Reads.ascending (reads : tree.Reads content shape held) : Ascending held := by
  cases anchored : tree.anchor.root with
  | none =>
    obtain ⟨-, rfl⟩ := reads.bare anchored
    exact List.Pairwise.nil
  | some root =>
    obtain ⟨level, well_formed, -, rfl⟩ := reads.rooted root anchored
    exact well_formed.sound.entries_ascending.1

theorem Reads.inOrder (reads : tree.Reads content shape held)
    (counter : tree.anchor.nextPageNo ≤ maxPageNo + 1)
    (minted : ∀ page, tree.Owns content page →
      Minted tree.segment tree.anchor.nextPageNo page) :
    InOrder tree tree.anchor content held := by
  refine ⟨counter, fun bare => (reads.bare bare).2, fun root anchored => ?_⟩
  obtain ⟨level, well_formed, -, rfl⟩ := reads.rooted root anchored
  exact ⟨level, well_formed.sound, well_formed.nodup,
    fun page mem => minted page ⟨root, anchored, .of_mem_pages mem⟩, rfl⟩

end Tree

namespace Session

open PagedIndex.Tree

variable [FixedWidth V]

theorem Invariant.carries_iff {session : Session K V} (h : session.Invariant) (key : K)
    (value : V) : session.tree.Carries session.storage.content (key, value) ↔
      session.map[key]? = some value := by
  obtain ⟨shape, held, reads, lists, -⟩ := h.reads
  rw [← lists key value]
  exact (reads.mem_iff (key, value)).symm

theorem Invariant.validates {session : Session K V} (h : session.Invariant) :
    session.tree.Reports .validate session.storage
      fun answer => ∃ shape, answer = .shape shape := by
  obtain ⟨shape, held, reads, -⟩ := h.reads
  exact (h.reports reads rfl).imp fun _ same => ⟨shape, same⟩

theorem Invariant.call_settles {session : Session K V} (h : session.Invariant) {call : Call K V}
    (admitted : session.Admits call) :
    ∃ reached, session.tree.call call session.storage = .ok reached ∧
      Invariant ⟨reached.tree, reached.storage, call.record session.map reached.outcome⟩ ∧
      ∀ error, reached.outcome = .error error → ∃ fault, error = .storage fault := by
  have of_yields {right : Answer V → Prop}
      (yields : session.tree.Yields call session.storage right) :
      ∃ reached, session.tree.call call session.storage = .ok reached ∧
        Invariant ⟨reached.tree, reached.storage, call.record session.map reached.outcome⟩ ∧
        ∀ error, reached.outcome = .error error → ∃ fault, error = .storage fault := by
    obtain ⟨reached, ran, ended⟩ := yields
    refine ⟨reached, ran, call_preserves_invariant h admitted ran, fun error failed => ?_⟩
    rw [failed] at ended
    obtain ⟨fault, rfl, -⟩ := ended
    exact ⟨fault, rfl⟩
  obtain ⟨shape, held, reads, -⟩ := h.reads
  cases call with
  | insert key value =>
    exact of_yields (insert_yields h admitted)
  | erase key =>
    exact of_yields (erase_yields h key)
  | lookup | height | length | isEmpty | validate =>
    exact of_yields (h.reports reads rfl).yields

end Session

/-- What a call that ended so makes of a set of entries. -/
def Call.Effect (before : K × V → Prop) : Call K V → Outcome V → K × V → Prop
  | .insert key value, .ok _, entry =>
    entry = (key, value) ∨ entry.1 ≠ key ∧ before entry
  | .erase key, .ok _, entry => entry.1 ≠ key ∧ before entry
  | _, _, entry => before entry

theorem Call.record_iff (map : Std.TreeMap K V) (call : Call K V) (outcome : Outcome V) (key : K)
    (value : V) : (call.record map outcome)[key]? = some value ↔
      call.Effect (fun entry => map[entry.1]? = some entry.2) outcome (key, value) := by
  cases outcome with
  | error error => cases call <;> exact Iff.rfl
  | ok answer =>
    cases call with
    | insert key' value' =>
      simp only [record, Effect, Std.TreeMap.getElem?_insert, Std.LawfulEqCmp.compare_eq_iff_eq,
        Prod.mk.injEq]
      by_cases same : key = key'
      · simp [same, eq_comm]
      · simp [same, Ne.symm same]
    | erase key' =>
      simp only [record, Effect, Std.TreeMap.getElem?_erase, Std.LawfulEqCmp.compare_eq_iff_eq]
      by_cases same : key = key'
      · simp [same]
      · simp [same, Ne.symm same]
    | lookup | height | length | isEmpty | validate => exact Iff.rfl

omit [IndexKey K] in
theorem Call.Effect.congr {before before' : K × V → Prop}
    (same : ∀ entry, before entry ↔ before' entry) (call : Call K V) (outcome : Outcome V)
    (entry : K × V) : call.Effect before outcome entry ↔ call.Effect before' outcome entry := by
  rw [show before = before' from funext fun entry => propext (same entry)]

namespace Tree

variable [FixedWidth V]

/-- Once a validation accepts a tree, whatever pages it was opened on, a call returns and fails only
on a storage fault. The tree validates again, its pages were handed out by then, and its leaves
carry what the call makes of the entries that they carried. -/
theorem validated_may_change {segment : SegmentId} {capacities : Capacities} {anchor : Anchor}
    {tree : Tree K V} (opened : Tree.reopen segment capacities anchor = .ok tree) {disk : Disk}
    {size : Nat} {pool : Pool} (new : Pool.new size = .ok pool) {operations : List Pool.Operation}
    {ledger : Pool.Ledger} (run : (Pool.Ledger.start disk pool).run operations = .ok ledger)
    (free : ∀ guard ∈ ledger.storage.pool.guards, guard.page.segment ≠ segment)
    (minted : ∀ page, tree.Owns ledger.storage.content page →
      Minted segment anchor.nextPageNo page)
    (low : ∀ root, anchor.root = some root →
      (Header.of (ledger.storage.content root)).level.toNat < 65535)
    {looked : Reached K V} (validated : tree.call .validate ledger.storage = .ok looked)
    {answer : Answer V} (accepted : looked.outcome = .ok answer) (call : Call K V) :
    ∃ reached, looked.tree.call call looked.storage = .ok reached ∧
      (∀ error, reached.outcome = .error error → ∃ fault, error = .storage fault) ∧
      reached.tree.IsTree reached.storage.content ∧
      reached.tree.Reports .validate reached.storage
        (fun answer => ∃ shape, answer = .shape shape) ∧
      (∀ page, reached.tree.Owns reached.storage.content page →
        Minted segment reached.tree.anchor.nextPageNo page) ∧
      ∀ entry, reached.tree.Carries reached.storage.content entry ↔
        call.Effect (tree.Carries ledger.storage.content) reached.outcome entry := by
  obtain ⟨rfl, suitable, counter⟩ := of_reopen opened
  have coherent := (Pool.run_preserves_invariant (Pool.start_invariant new) run).coherent
  obtain ⟨looked', ran, kept, ended⟩ := validate_reaches suitable coherent
    fun guard mem owned => free guard mem (minted _ owned).1
  cases validated.symm.trans ran
  rw [accepted] at ended
  obtain ⟨shape, held, -, reads⟩ := ended
  have adopted :
      Session.Invariant ⟨looked.tree, looked.storage, Std.TreeMap.ofList held compare⟩ := by
    refine ⟨by rw [kept.tree]; exact suitable, kept.coherent, ?_, held, ?_,
      Session.lists_ofList reads.ascending⟩
    · rw [kept.guards, kept.tree]
      exact free
    · rw [kept.tree, kept.content]
      exact reads.inOrder counter minted
  have admitted : Session.Admits ⟨looked.tree, looked.storage, Std.TreeMap.ofList held compare⟩
      call := by
    cases call with
    | insert key value =>
      intro root anchored
      rw [kept.content]
      rw [kept.tree] at anchored
      exact low root anchored
    | lookup | erase | height | length | isEmpty | validate => trivial
  obtain ⟨reached, called, settled, faults⟩ := adopted.call_settles admitted
  have segment_kept : reached.tree.segment = segment := by
    rw [tree_of_call called, kept.tree]
  refine ⟨reached, called, faults, ?_, settled.validates, fun page owned => ?_, fun entry => ?_⟩
  · obtain ⟨shape, held, reads, -⟩ := settled.reads
    exact isTree_iff.mpr ⟨shape, held, reads⟩
  · exact segment_kept ▸ settled.owned_minted owned
  · obtain ⟨key, value⟩ := entry
    rw [settled.carries_iff, Call.record_iff]
    refine Call.Effect.congr (fun entry => ?_) call reached.outcome (key, value)
    have carried := adopted.carries_iff entry.1 entry.2
    rw [kept.tree, kept.content] at carried
    exact carried.symm

theorem zeroed_page_takes_entry : ∃ pool ledger looked reached, Pool.new 1 = .ok pool ∧
    (Pool.Ledger.start Pool.oneFile pool).run [.create ⟨0⟩, .release ⟨0⟩] = .ok ledger ∧
    rootedAtFirst.call .validate ledger.storage = .ok looked ∧
    looked.tree.call (.insert ⟨1⟩ ⟨10⟩) looked.storage = .ok reached ∧
    reached.tree.IsTree reached.storage.content ∧
    reached.tree.Carries reached.storage.content (⟨1⟩, ⟨10⟩) := by
  let check (ledger : Pool.Ledger) : Bool :=
    (ledger.storage.pool.guards = [] &&
      (rootedAtFirst.nodes ledger.storage.content ⟨0⟩).isLeaf) &&
    ((Header.of (ledger.storage.content ⟨0⟩)).level.toNat = 0 &&
      (rootedAtFirst.call .validate ledger.storage).toOption.any fun looked =>
        looked.outcome = .ok (.shape ⟨1, 1, 0, 0⟩) &&
          (looked.tree.call (.insert ⟨1⟩ ⟨10⟩) looked.storage).toOption.any
            (·.outcome = .ok .done))
  obtain ⟨pool, new, checked⟩ : ∃ pool, Pool.new 1 = .ok pool ∧
      ((Pool.Ledger.start Pool.oneFile pool).run [.create ⟨0⟩, .release ⟨0⟩]).toOption.any check =
        true := ⟨_, rfl, by decide +kernel⟩
  cases run : (Pool.Ledger.start Pool.oneFile pool).run [.create ⟨0⟩, .release ⟨0⟩] with
  | error violation => rw [run] at checked; cases checked
  | ok ledger =>
    rw [run] at checked
    obtain ⟨alone, rest⟩ := (Bool.and_eq_true _ _).mp checked
    obtain ⟨unguarded, is_leaf⟩ := (Bool.and_eq_true _ _).mp alone
    obtain ⟨level, told⟩ := (Bool.and_eq_true _ _).mp rest
    cases validated : rootedAtFirst.call .validate ledger.storage with
    | error violation => rw [validated] at told; cases told
    | ok looked =>
      rw [validated] at told
      obtain ⟨accepted, inserted⟩ := (Bool.and_eq_true _ _).mp told
      obtain ⟨reached, called, -, is_tree, -, -, carries⟩ := validated_may_change
        (show Tree.reopen ⟨0⟩ ⟨2, 3⟩ ⟨some ⟨0⟩, 1⟩ = .ok rootedAtFirst from rfl) new run
        (by rw [of_decide_eq_true unguarded]; exact fun guard mem => absurd mem List.not_mem_nil)
        (fun page owned => by rw [eq_first_of_owns is_leaf owned]; exact ⟨rfl, Nat.zero_lt_one⟩)
        (fun root anchored => by
          cases anchored
          rw [of_decide_eq_true level]
          decide)
        validated (of_decide_eq_true accepted) (.insert ⟨1⟩ ⟨10⟩)
      rw [called] at inserted
      have done : reached.outcome = .ok .done := of_decide_eq_true inserted
      rw [done] at carries
      exact ⟨pool, ledger, looked, reached, new, run, validated, called, is_tree,
        (carries (⟨1⟩, ⟨10⟩)).mpr (.inl rfl)⟩

end Tree

end PagedIndex
