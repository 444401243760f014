import PagedIndex.FixedWidth.Word
import PagedIndex.Proofs.Node.Capacities
import PagedIndex.Proofs.Pool.Elsewhere
import PagedIndex.Proofs.Tree.Erase
import PagedIndex.Proofs.Tree.Insert
import PagedIndex.Proofs.Tree.Inspect

/-!
# A tree in use is a finite map

A session is a tree that was opened empty over a segment of its own, in a pool that others use for
other segments. Calls that succeed make a map. Whichever calls fail on a storage fault, and wherever
they stop, the tree stays well-formed and holds the entries of that map.
-/

namespace PagedIndex

variable {K V : Type} [IndexKey K]

namespace Tree

variable [FixedWidth V] {tree : Tree K V}

theorem of_reopen {segment : SegmentId} {capacities : Capacities} {anchor : Anchor}
    (opened : Tree.reopen segment capacities anchor = .ok tree) :
    tree = ⟨segment, capacities, anchor⟩ ∧ tree.capacities.Suitable K V ∧
      tree.anchor.nextPageNo ≤ maxPageNo + 1 := by
  rw [Tree.reopen] at opened
  cases accepted : capacities.check K V with
  | error fault => rw [accepted] at opened; cases opened
  | ok _ =>
    rw [accepted] at opened
    have suitable := Capacities.suitable_of_check accepted
    by_cases past : maxPageNo + 1 < anchor.nextPageNo
    · rw [if_pos past] at opened; cases opened
    · rw [if_neg past] at opened
      have same : tree = ⟨segment, capacities, anchor⟩ := by
        cases at_root : anchor.root with
        | none =>
          rw [at_root] at opened
          cases opened
          rfl
        | some root =>
          rw [at_root] at opened
          by_cases foreign : root.segment ≠ segment ∨ anchor.nextPageNo ≤ root.pageNo
          · simp only [if_pos foreign] at opened; cases opened
          · simp only [if_neg foreign] at opened; cases opened; rfl
      subst same
      exact ⟨rfl, suitable, Nat.le_of_not_lt past⟩

theorem tree_of_call {call : Call K V} {storage : Storage} {reached : Reached K V}
    (called : tree.call call storage = .ok reached) :
    reached.tree = { tree with anchor := reached.tree.anchor } :=
  (perform_of_call called).1

end Tree

/-- A tree, the storage its pages are in and the map that its calls have made. -/
structure Session (K V : Type) [IndexKey K] where
  tree : Tree K V
  storage : Storage
  map : Std.TreeMap K V

/-- What a call that ended so makes of a map. -/
def Call.record (map : Std.TreeMap K V) : Call K V → Outcome V → Std.TreeMap K V
  | .insert key value, .ok _ => map.insert key value
  | .erase key, .ok _ => map.erase key
  | _, _ => map

namespace Session

theorem record_error (map : Std.TreeMap K V) (call : Call K V) (error : Error) :
    call.record map (.error error) = map := by
  cases call <;> rfl

def Lists (held : List (K × V)) (map : Std.TreeMap K V) : Prop :=
  ∀ key value, (key, value) ∈ held ↔ map[key]? = some value

namespace Lists

variable {held held' : List (K × V)} {map : Std.TreeMap K V} {key : K} {value : V}

open PagedIndex.Tree

theorem upserted (h : Lists held map) (put : Upserted key value held held') :
    Lists held' (map.insert key value) := by
  obtain ⟨before, own, after, cuts, rfl⟩ := put
  intro k v
  have split : (k, v) ∈ before ++ (key, value) :: after ↔
      (k, v) = (key, value) ∨ (k, v) ∈ before ++ after := by
    rw [List.mem_append, List.mem_cons, List.mem_append, or_left_comm]
  rw [split, cuts.mem_sides_iff, h k v, Std.TreeMap.getElem?_insert]
  by_cases same : k = key
  · subst same
    simp [eq_comm]
  · simp [same, Ne.symm same, Std.LawfulEqCmp.compare_eq_iff_eq]

theorem erased (h : Lists held map) (removed : Erased key held held') :
    Lists held' (map.erase key) := by
  obtain ⟨before, own, after, cuts, rfl⟩ := removed
  intro k v
  rw [cuts.mem_sides_iff, h k v, Std.TreeMap.getElem?_erase]
  by_cases same : k = key
  · subst same
    simp
  · simp [same, Ne.symm same, Std.LawfulEqCmp.compare_eq_iff_eq]

theorem length_eq (h : Lists held map) (ascending : Ascending held) : held.length = map.size := by
  have distinct : map.toList.Nodup :=
    map.distinct_keys_toList.imp fun apart same => apart (by simp [same])
  have same : held.Perm map.toList := by
    refine (List.perm_ext_iff_of_nodup ascending.nodup distinct).mpr fun ⟨k, v⟩ => ?_
    rw [h k v, Std.TreeMap.mem_toList_iff_getElem?_eq_some]
  rw [same.length_eq, Std.TreeMap.length_toList]

end Lists

variable [FixedWidth V]

/-- An insertion needs a root whose level can still grow. -/
def Admits (session : Session K V) : Call K V → Prop
  | .insert _ _ => ∀ root, session.tree.anchor.root = some root →
    (Header.of (session.storage.content root)).level.toNat < 65535
  | _ => True

instance (session : Session K V) (call : Call K V) : Decidable (session.Admits call) :=
  match call with
  | .insert _ _ => inferInstanceAs (Decidable (∀ root ∈ session.tree.anchor.root,
      (Header.of (session.storage.content root)).level.toNat < 65535))
  | .lookup _ | .erase _ | .height | .length | .isEmpty | .validate => isTrue trivial

/-- The sessions that a tree opened empty comes to while others use the pool for other segments. -/
inductive Reachable : Session K V → Prop
  | opened {segment : SegmentId} {capacities : Capacities} {tree : Tree K V} {disk : Disk}
      {size : Nat} {pool : Pool} (opened : Tree.new segment capacities = .ok tree)
      (new : Pool.new size = .ok pool) :
      Reachable ⟨tree, ⟨disk, pool⟩, ∅⟩
  | called {session : Session K V} {call : Call K V} {reached : Tree.Reached K V}
      (before : Reachable session) (admitted : session.Admits call)
      (called : session.tree.call call session.storage = .ok reached) :
      Reachable ⟨reached.tree, reached.storage, call.record session.map reached.outcome⟩
  | elsewhere {session : Session K V} {operation : Pool.Operation} {storage : Storage}
      (before : Reachable session) (spares : operation.Spares session.tree.segment)
      (leaves : operation.Leaves session.storage storage) :
      Reachable { session with storage }

/-- The tree is in order and holds what the map says. -/
structure Invariant (session : Session K V) : Prop where
  suitable : session.tree.capacities.Suitable K V
  coherent : session.storage.Coherent .nothing
  free : ∀ guard ∈ session.storage.pool.guards, guard.page.segment ≠ session.tree.segment
  holds : ∃ held, Tree.InOrder session.tree session.tree.anchor session.storage.content held ∧
    Lists held session.map

open PagedIndex.Tree

theorem bare_invariant {segment : SegmentId} {capacities : Capacities} {counter : Nat}
    {tree : Tree K V} {disk : Disk} {size : Nat} {pool : Pool}
    (opened : Tree.reopen segment capacities ⟨none, counter⟩ = .ok tree)
    (new : Pool.new size = .ok pool) : Invariant ⟨tree, ⟨disk, pool⟩, ∅⟩ := by
  obtain ⟨rfl, suitable, counter⟩ := of_reopen opened
  obtain ⟨coherent, -⟩ := Pool.new_coherent new disk
  refine ⟨suitable, coherent, ?_, [], ⟨counter, fun _ => rfl, nofun⟩, ?_⟩
  · rw [Pool.guards_of_new new]
    exact fun guard mem => absurd mem List.not_mem_nil
  · intro key value
    simp

theorem opened_invariant {segment : SegmentId} {capacities : Capacities} {tree : Tree K V}
    {disk : Disk} {size : Nat} {pool : Pool} (opened : Tree.new segment capacities = .ok tree)
    (new : Pool.new size = .ok pool) : Invariant ⟨tree, ⟨disk, pool⟩, ∅⟩ :=
  bare_invariant opened new

/-- How a call ends that may change the tree: with the entries it is to hold then, or on a storage
fault with those it held. -/
theorem change_reaches {session : Session K V} (h : session.Invariant) {call : Call K V}
    {held : List (K × V)} {becomes : List (K × V) → Prop} (lists : Lists held session.map)
    (ensures : Access.Ensures ⟨session.tree.segment, (·.segment = session.tree.segment), 3⟩
      (fun error scene => (∃ fault, error = .storage fault) ∧
        InOrder session.tree scene.anchor scene.content held)
      (session.tree.program call)
      (fun answer scene => answer = .done ∧ ∃ held', becomes held' ∧
        InOrder session.tree scene.anchor scene.content held')
      ⟨session.tree.anchor, session.storage.content, []⟩)
    (made : ∀ held', becomes held' → Lists held' (call.record session.map (.ok .done))) :
    ∃ reached, session.tree.call call session.storage = .ok reached ∧
      Invariant ⟨reached.tree, reached.storage, call.record session.map reached.outcome⟩ ∧
      match reached.outcome with
      | .ok answer => answer = .done
      | .error error => ∃ fault, error = .storage fault := by
  obtain ⟨reached, scene, ran, tree, coherent, content, guards, ended⟩ :=
    call_reaches h.coherent h.free ensures
  have settled {held' : List (K × V)} {map : Std.TreeMap K V} (lists : Lists held' map)
      (order : InOrder session.tree scene.anchor scene.content held') :
      Invariant ⟨reached.tree, reached.storage, map⟩ := by
    rw [tree]
    refine ⟨h.suitable, coherent, ?_, held', ?_, lists⟩
    · rw [guards]
      exact h.free
    · rw [content]
      exact ⟨order.counter, order.bare, order.rooted⟩
  refine ⟨reached, ran, ?_⟩
  cases outcome : reached.outcome with
  | ok answer =>
    rw [outcome] at ended
    obtain ⟨rfl, held', became, order⟩ := ended
    exact ⟨settled (made held' became) order, rfl⟩
  | error error =>
    rw [outcome] at ended
    rw [record_error]
    exact ⟨settled lists ended.2, ended.1⟩

theorem insert_settles {session : Session K V} (h : session.Invariant) {key : K} {value : V}
    (admitted : session.Admits (.insert key value)) :
    ∃ reached, session.tree.call (.insert key value) session.storage = .ok reached ∧
      Invariant ⟨reached.tree, reached.storage,
        (Call.insert key value).record session.map reached.outcome⟩ ∧
      match reached.outcome with
      | .ok answer => answer = .done
      | .error error => ∃ fault, error = .storage fault := by
  obtain ⟨held, order, lists⟩ := h.holds
  refine change_reaches h lists ?_ fun held' => lists.upserted
  refine Access.Ensures.andThen (insert_ensures h.suitable rfl (Nat.le_refl 3) (fun _ mine => mine)
    (fun fault scene altered => ⟨⟨fault, rfl⟩, altered.order⟩) order admitted (Nat.le_refl _)) ?_
  intro _ scene ended
  rcases ended with ⟨splits, held', once, upserted, altered⟩
  exact Access.Ensures.pure_iff.mpr ⟨rfl, held', upserted, altered.order⟩

theorem erase_settles {session : Session K V} (h : session.Invariant) (key : K) :
    ∃ reached, session.tree.call (.erase key) session.storage = .ok reached ∧
      Invariant ⟨reached.tree, reached.storage,
        (Call.erase (V := V) key).record session.map reached.outcome⟩ ∧
      match reached.outcome with
      | .ok answer => answer = .done
      | .error error => ∃ fault, error = .storage fault := by
  obtain ⟨held, order, lists⟩ := h.holds
  refine change_reaches h lists ?_ fun held' => lists.erased
  refine Access.Ensures.andThen (erase_ensures h.suitable (Nat.le_refl 3) (fun _ mine => mine)
    (fun fault holds => ⟨⟨fault, rfl⟩, order⟩) order) ?_
  intro _ scene ended
  rcases ended with ⟨held', erased, altered⟩
  exact Access.Ensures.pure_iff.mpr ⟨rfl, held', erased, altered.order⟩

theorem insert_yields {session : Session K V} (h : session.Invariant) {key : K} {value : V}
    (admitted : session.Admits (.insert key value)) :
    session.tree.Yields (.insert key value) session.storage (· = .done) := by
  obtain ⟨reached, ran, -, ended⟩ := insert_settles h admitted
  refine .of_ends h.coherent ran ?_
  exact ended

theorem erase_yields {session : Session K V} (h : session.Invariant) (key : K) :
    session.tree.Yields (.erase key) session.storage (· = .done) := by
  obtain ⟨reached, ran, -, ended⟩ := erase_settles h key
  refine .of_ends h.coherent ran ?_
  exact ended

theorem Invariant.reads {session : Session K V} (h : session.Invariant) :
    ∃ shape held, session.tree.Reads session.storage.content shape held ∧
      Lists held session.map ∧ held.length = session.map.size := by
  obtain ⟨held, order, lists⟩ := h.holds
  cases anchored : session.tree.anchor.root with
  | none =>
    obtain rfl := order.bare anchored
    exact ⟨_, _, .of_bare anchored, lists, lists.length_eq List.Pairwise.nil⟩
  | some root =>
    obtain ⟨level, rooted⟩ := order.rooted root anchored
    obtain rfl := rooted.entries_eq
    exact ⟨_, _, .of_rooted anchored ⟨rooted.sound, rooted.nodup⟩, lists,
      lists.length_eq rooted.sound.entries_ascending.1⟩

theorem Invariant.owned_minted {session : Session K V} (h : session.Invariant) {page : PageId}
    (owned : session.tree.Owns session.storage.content page) :
    Minted session.tree.segment session.tree.anchor.nextPageNo page := by
  obtain ⟨held, order, -⟩ := h.holds
  obtain ⟨root, anchored, reaches⟩ := owned
  obtain ⟨level, rooted⟩ := order.rooted root anchored
  exact rooted.minted _ (rooted.sound.mem_pages_of_reaches reaches)

theorem Invariant.unowned {session : Session K V} (h : session.Invariant) :
    ∀ guard ∈ session.storage.pool.guards,
      ¬ session.tree.Owns session.storage.content guard.page :=
  fun guard mem owned => h.free guard mem (h.owned_minted owned).1

theorem Invariant.reports {session : Session K V} (h : session.Invariant) {shape : Shape}
    {held : List (K × V)} (reads : session.tree.Reads session.storage.content shape held)
    {call : Call K V} (look : looks call = true) :
    session.tree.Reports call session.storage (Answers shape held call) :=
  look_reports h.suitable h.coherent h.unowned reads look

theorem look_settles {session : Session K V} (h : session.Invariant) {call : Call K V}
    (look : looks call = true) :
    ∃ reached, session.tree.call call session.storage = .ok reached ∧
      Invariant ⟨reached.tree, reached.storage, session.map⟩ := by
  obtain ⟨shape, held, reads, lists, -⟩ := h.reads
  obtain ⟨reached, ran, kept, -⟩ := look_reaches h.suitable h.coherent h.unowned reads look
  refine ⟨reached, ran, ?_⟩
  rw [kept.tree]
  refine ⟨h.suitable, kept.coherent, ?_, ?_⟩
  · rw [kept.guards]
    exact h.free
  · rw [kept.content]
    exact h.holds

theorem call_preserves_invariant {session : Session K V} (h : session.Invariant) {call : Call K V}
    (admitted : session.Admits call) {reached : Reached K V}
    (called : session.tree.call call session.storage = .ok reached) :
    Invariant ⟨reached.tree, reached.storage, call.record session.map reached.outcome⟩ := by
  have of_look (look : looks call = true) :
      Invariant ⟨reached.tree, reached.storage, session.map⟩ := by
    obtain ⟨reached', ran, invariant⟩ := look_settles h look
    cases called.symm.trans ran
    exact invariant
  cases call with
  | insert key value =>
    obtain ⟨reached', ran, invariant, -⟩ := insert_settles h admitted
    cases called.symm.trans ran
    exact invariant
  | erase key =>
    obtain ⟨reached', ran, invariant, -⟩ := erase_settles h key
    cases called.symm.trans ran
    exact invariant
  | lookup key => exact of_look rfl
  | height => exact of_look rfl
  | length => exact of_look rfl
  | isEmpty => exact of_look rfl
  | validate => exact of_look rfl

theorem Invariant.of_same {session : Session K V} (h : session.Invariant) {storage : Storage}
    (coherent : storage.Coherent .nothing)
    (free : ∀ guard ∈ storage.pool.guards, guard.page.segment ≠ session.tree.segment)
    (same : ∀ page, page.segment = session.tree.segment →
      storage.content page = session.storage.content page) : Invariant { session with storage } := by
  obtain ⟨held, order, lists⟩ := h.holds
  exact ⟨h.suitable, coherent, free, held, order.grow rfl (Nat.le_refl _) order.counter
    fun p minted => same p minted.1, lists⟩

theorem elsewhere_preserves_invariant {session : Session K V} (h : session.Invariant)
    {operation : Pool.Operation} {storage : Storage}
    (spares : operation.Spares session.tree.segment)
    (leaves : operation.Leaves session.storage storage) : Invariant { session with storage } := by
  have apart := Pool.apart_of_leaves h.coherent h.free spares leaves
  exact h.of_same apart.coherent apart.free apart.content

theorem reachable_invariant {session : Session K V} (reachable : Reachable session) :
    session.Invariant := by
  induction reachable with
  | opened opened new => exact opened_invariant opened new
  | called _ admitted called ih => exact call_preserves_invariant ih admitted called
  | elsewhere _ spares leaves ih => exact elsewhere_preserves_invariant ih spares leaves

/-- Makes calls one after another, as long as the level of the root can grow. -/
def makes (session : Session K V) : List (Call K V) → Option (Session K V)
  | [] => some session
  | call :: rest =>
    if session.Admits call then do
      let reached ← (session.tree.call call session.storage).toOption
      makes ⟨reached.tree, reached.storage, call.record session.map reached.outcome⟩ rest
    else none

theorem ok_of_toOption {α ε : Type} {result : Except ε α} {a : α}
    (found : result.toOption = some a) : result = .ok a := by
  cases result with
  | ok a' => exact congrArg _ (Option.some.inj found)
  | error e => cases found

theorem reachable_of_makes {session session' : Session K V} (reachable : Reachable session)
    {calls : List (Call K V)} (made : session.makes calls = some session') :
    Reachable session' := by
  induction calls generalizing session with
  | nil => exact Option.some.inj made ▸ reachable
  | cons call rest ih =>
    rw [makes] at made
    split at made
    · rename_i admitted
      obtain ⟨reached, called, made⟩ := Option.bind_eq_some_iff.mp made
      exact ih (.called reachable admitted (ok_of_toOption called)) made
    · cases made

/-- A tree of bytes with two entries to a leaf, after three insertions if its pool allows them. The
last has to split the root, which takes three frames. -/
def insertThree (frames : Nat) : Option (Session (Word false 1) (Word false 1)) :=
  (Pool.new frames).toOption.bind fun pool =>
    makes ⟨⟨⟨0⟩, ⟨2, 3⟩, .empty⟩, ⟨Pool.oneFile, pool⟩, ∅⟩
      [.insert ⟨1⟩ ⟨10⟩, .insert ⟨2⟩ ⟨20⟩, .insert ⟨3⟩ ⟨30⟩]

theorem reachable_insertThree {frames : Nat} {session : Session (Word false 1) (Word false 1)}
    (made : insertThree frames = some session) : Reachable session := by
  obtain ⟨pool, new, made⟩ := Option.bind_eq_some_iff.mp made
  have opened : Tree.new ⟨0⟩ ⟨2, 3⟩ =
      .ok (⟨⟨0⟩, ⟨2, 3⟩, .empty⟩ : Tree (Word false 1) (Word false 1)) := rfl
  exact reachable_of_makes (.opened opened (ok_of_toOption new)) made

/-- A tree is the map that its calls have made: a lookup that succeeds finds what the map has under
its key. No call is violated, and those that fail do so on a storage fault and count for nothing. -/
theorem refines_map {session : Session K V} (reachable : Reachable session) :
    (∀ key, session.tree.Yields (.lookup key) session.storage (· = .value session.map[key]?)) ∧
      (∀ key value, session.Admits (.insert key value) →
        session.tree.Yields (.insert key value) session.storage (· = .done)) ∧
      ∀ key, session.tree.Yields (.erase key) session.storage (· = .done) := by
  have h := reachable_invariant reachable
  refine ⟨fun key => ?_, fun key value => insert_yields h, fun key => erase_yields h key⟩
  obtain ⟨shape, held, reads, lists, -⟩ := h.reads
  refine (h.reports reads rfl).yields.imp ?_
  intro answer ended
  rcases ended with ⟨found, rfl, exact_found⟩
  refine congrArg Answer.value (Option.ext fun value => ?_)
  exact (exact_found value).trans (lists key value)

theorem refused_split_counts_for_nothing : ∃ session, Reachable session ∧
    insertThree 1 = some session ∧
    session.tree.Yields (.lookup ⟨2⟩) session.storage (· = .value (some ⟨20⟩)) ∧
    session.tree.Yields (.lookup ⟨3⟩) session.storage (· = .value none) := by
  have checked : (insertThree 1).any (fun session =>
      session.map[(⟨2⟩ : Word false 1)]? = some ⟨20⟩ ∧ session.map[(⟨3⟩ : Word false 1)]? = none) =
        true := by decide +kernel
  obtain ⟨session, made, found⟩ := (Option.any_eq_true _ _).mp checked
  obtain ⟨two, three⟩ := of_decide_eq_true found
  have lookups := (refines_map (reachable_insertThree made)).1
  exact ⟨session, reachable_insertThree made, made, two ▸ lookups ⟨2⟩, three ▸ lookups ⟨3⟩⟩

theorem backed_of_reachable {session : Session K V} (reachable : Reachable session) :
    session.storage.Backed := by
  induction reachable with
  | opened opened new => exact Pool.backed_of_new new _
  | called before admitted called ih =>
    exact (endures_of_call (reachable_invariant before).coherent ih called).lasts.backed
  | elsewhere before spares leaves ih =>
    exact (Pool.lasts_of_leaves (reachable_invariant before).coherent ih spares leaves).backed

/-- Whatever calls succeeded or failed before, the pages form a tree. Whenever they can be read, as
they can where they are at hand, a validation accepts them, and the numbers told agree with it and
with the map. -/
theorem stays_well_formed {session : Session K V} (reachable : Reachable session) :
    session.tree.IsTree session.storage.content ∧
    (∀ call, looks call = true → session.tree.AtHand call session.storage →
      session.tree.Readable call session.storage) ∧
    ∃ shape : Shape, shape.entries = session.map.size ∧
      session.tree.Reports .validate session.storage (· = .shape shape) ∧
      session.tree.Reports .length session.storage (· = .count session.map.size) ∧
      session.tree.Reports .height session.storage (· = .count shape.height) ∧
      session.tree.Reports .isEmpty session.storage (· = .verdict session.map.isEmpty) := by
  have h := reachable_invariant reachable
  obtain ⟨shape, held, reads, lists, size⟩ := h.reads
  have entries := reads.entries_eq.trans size
  have readable (call : Call K V) (look : looks call = true) :=
    look_readable h.suitable h.coherent (backed_of_reachable reachable) h.unowned reads look
  refine ⟨isTree_iff.mpr ⟨shape, held, reads⟩, readable, shape, entries, h.reports reads rfl,
    (h.reports reads rfl).imp ?_, h.reports reads rfl, (h.reports reads rfl).imp ?_⟩
  · rintro answer rfl
    exact congrArg Answer.count entries
  · rintro answer rfl
    apply congrArg Answer.verdict
    rw [Bool.eq_iff_iff, List.isEmpty_iff_length_eq_zero, size, Std.TreeMap.isEmpty_eq_size_eq_zero,
      beq_iff_eq]

theorem split_keeps_well_formed : ∃ session reached, Reachable session ∧
    insertThree 3 = some session ∧ session.tree.IsTree session.storage.content ∧
    session.tree.call .validate session.storage = .ok reached ∧
    reached.outcome = .ok (.shape ⟨2, 2, 1, 3⟩) ∧
    session.tree.Reports .length session.storage (· = .count 3) := by
  have checked : (insertThree 3).any (fun session => session.map.size = 3 ∧
      (session.tree.call .validate session.storage).toOption.any (fun reached =>
        reached.outcome = .ok (.shape ⟨2, 2, 1, 3⟩)) = true) = true := by decide +kernel
  obtain ⟨session, made, found⟩ := (Option.any_eq_true _ _).mp checked
  obtain ⟨size, told⟩ := of_decide_eq_true found
  obtain ⟨reached, called, told⟩ := (Option.any_eq_true _ _).mp told
  obtain ⟨is_tree, -, shape, -, -, length, -⟩ := stays_well_formed (reachable_insertThree made)
  exact ⟨session, reached, reachable_insertThree made, made, is_tree, ok_of_toOption called,
    of_decide_eq_true told, size ▸ length⟩

end Session

end PagedIndex
