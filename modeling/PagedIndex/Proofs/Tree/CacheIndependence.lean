import PagedIndex.FixedWidth.Word
import PagedIndex.Proofs.Tree.Adoption
import PagedIndex.Proofs.Tree.Commons

/-!
# What a tree is told does not depend on its pool

A tree that is opened empty gives the same answers whichever frames its pages are in, how often
they are evicted and when the pool is flushed, as long as there are three frames and the disk
serves. Nobody can tell two such pools apart by calling the tree, or by reading its pages.
-/

namespace PagedIndex.Commons

theorem Mirrors.reads {ι : Type} {K V : ι → Type} [∀ i, IndexKey (K i)] [∀ i, FixedWidth (V i)]
    {own : ι → PageId → Prop} {contents : ι → PageId → Page} {commons : Commons K V}
    (h : commons.Mirrors own contents) {i : ι} {page : PageId} (mem : own i page) :
    ∃ storage, (Pool.readThrough page).run commons.storage = .ok (contents i page) storage := by
  have lodged := h.lodged i
  have free : ∀ guard ∈ commons.storage.pool.guards, guard.page ≠ page := by
    rintro guard listed rfl
    exact h.free i guard listed (lodged.minted _ mem).1
  have ends := Pool.readThrough_ends lodged.coherent lodged.backed (lodged.available page mem) free
    h.steady (Nat.lt_of_lt_of_le (Nat.lt_add_of_pos_right (Nat.succ_pos 2)) h.roomy)
  obtain ⟨bytes, storage, ran, rfl⟩ := ends.exists_ok
  exact ⟨storage, by rw [ran, h.agree i page mem]⟩

variable {K V : Type} [IndexKey K] [FixedWidth V] {tree : Tree K V}

/-- An insertion is called although the level of the root cannot grow. -/
def Overgrown (commons : Commons (fun _ : Unit => K) (fun _ => V))
    (moves : List (Move (fun _ : Unit => K) (fun _ => V))) : Prop :=
  ∃ early made late reached, moves = early ++ .call () made :: late ∧
    commons.run early = .ok reached ∧
    ¬ Session.Admits ⟨reached.trees (), reached.storage, ∅⟩ made

theorem Overgrown.cons {commons next : Commons (fun _ : Unit => K) (fun _ => V)}
    {move : Move (fun _ : Unit => K) (fun _ => V)}
    {rest : List (Move (fun _ : Unit => K) (fun _ => V))} (stepped : commons.step move = .ok next)
    (h : next.Overgrown rest) : commons.Overgrown (move :: rest) := by
  obtain ⟨early, made, late, reached, rfl, ran, full⟩ := h
  refine ⟨move :: early, made, late, reached, rfl, ?_, full⟩
  rw [run, List.foldlM_cons, stepped]
  exact ran

/-- While the level of the root can grow, no run of a tree in order is cut short. -/
theorem overgrown_of_violated {commons : Commons (fun _ : Unit => K) (fun _ => V)}
    {map : Std.TreeMap K V} {violation : Violation}
    (h : Session.Invariant ⟨commons.trees (), commons.storage, map⟩)
    (idle : commons.storage.pool.guards = [])
    {own : Unit → PageId → Prop} {contents : Unit → PageId → Page}
    (mirrors : commons.Mirrors own contents) {moves : List (Move (fun _ : Unit => K) (fun _ => V))}
    (violated : commons.run moves = .error violation) : commons.Overgrown moves := by
  induction moves generalizing commons map own contents with
  | nil => cases violated
  | cons move rest ih =>
    rw [run, List.foldlM_cons] at violated
    cases move with
    | call i made =>
      by_cases admitted : Session.Admits ⟨commons.trees (), commons.storage, map⟩ made
      · obtain ⟨reached, called, next, -⟩ := h.call_settles admitted
        have comes := mirrors.call_comes () made
        have called : (commons.trees ()).call made commons.storage = .ok reached := called
        rw [called] at comes
        obtain ⟨own', content', -, -, -, -, guards, mirrors'⟩ := comes
        have stepped := step_call called
        rw [stepped] at violated
        have tree : (commons.after () reached).trees () = reached.tree := trees_after_self
        rw [← tree] at next
        exact .cons stepped (ih next (guards.trans idle) mirrors' violated)
      · refine ⟨[], made, rest, commons, rfl, rfl, fun admits => admitted ?_⟩
        cases made <;> exact admits
    | flush residents =>
      have comes := mirrors.flush_comes residents
      cases flushed : (Pool.flushInOrder residents).run commons.storage with
      | ok _ storage =>
        obtain ⟨mirrors', guards⟩ := comes.of_ok flushed
        have stepped := step_flush flushed
        rw [stepped] at violated
        have leaves : (Pool.Operation.flushAll residents).Leaves commons.storage storage :=
          .of_ok flushed
        have spares : (Pool.Operation.flushAll residents).Spares (commons.trees ()).segment :=
          trivial
        exact .cons stepped (ih (Session.elsewhere_preserves_invariant h spares leaves)
          (guards.trans idle) mirrors' violated)
      | error failure storage =>
        obtain ⟨-, guard, mem, -⟩ := comes.of_error flushed
        rw [idle] at mem
        cases mem

section Alike

variable {moves moves' : List (Move (fun _ : Unit => K) (fun _ => V))}
  (same : moves'.map (Move.call? ()) = moves.map (Move.call? ()))

include same

omit [IndexKey K] [FixedWidth V] in
theorem callsOf_congr : callsOf () moves' = callsOf () moves := by
  have listed (moves : List (Move (fun _ : Unit => K) (fun _ => V))) :
      callsOf () moves = (moves.map (Move.call? ())).filterMap id := by
    rw [List.filterMap_map]
    rfl
  rw [listed, listed, same]

omit [IndexKey K] [FixedWidth V] in
theorem countP_isFlush_congr : moves'.countP Move.isFlush = moves.countP Move.isFlush := by
  have counted (moves : List (Move (fun _ : Unit => K) (fun _ => V))) :
      moves.countP Move.isFlush = (moves.map (Move.call? ())).countP Option.isNone := by
    rw [List.countP_map]
    refine List.countP_congr fun move _ => ?_
    cases move <;> exact Iff.rfl
  rw [counted, counted, same]

end Alike

theorem opened_run {segment : SegmentId} {capacities : Capacities}
    (opened : Tree.new segment capacities = .ok tree) {s : Storage} (fresh : s.Fresh)
    (moves : List (Move (fun _ : Unit => K) (fun _ => V))) :
    match (alone tree s).run moves with
    | .ok commons => ∃ content, tree.idealRun (fun _ => Page.zeroed) (callsOf () moves) =
          some (commons.shown (), commons.trees (), content) ∧
        commons.flushed = List.replicate (moves.countP Move.isFlush) (.ok ()) ∧
        (∀ sight ∈ commons.shown (), ∀ fault, sight.1 = .error (.storage fault) →
          fault = .segmentExhausted segment) ∧
        ∀ page, Tree.Minted segment (commons.trees ()).anchor.nextPageNo page →
          ∃ left, (Pool.readThrough page).run commons.storage = .ok (content page) left
    | .error _ => tree.idealRun (fun _ => Page.zeroed) (callsOf () moves) = none ∧
        (alone tree s).Overgrown moves := by
  obtain ⟨size, -, new⟩ := fresh.new
  have idle := Pool.guards_of_new new
  have begun : (alone tree s).Mirrors (fun _ _ => False) (fun _ _ => Page.zeroed) :=
    .of_fresh_alone (.of_new opened _) fresh (.none _ _)
  have comes := run_tells begun moves (.inl idle)
  cases ran : (alone tree s).run moves with
  | ok commons =>
    rw [ran] at comes
    obtain ⟨own, contents, came⟩ := comes
    obtain ⟨shown, ⟨ideal, -, grown, inherent⟩, shows⟩ := came.shown ()
    obtain rfl : commons.shown () = shown := shows
    obtain ⟨rfl, -⟩ := Tree.of_reopen opened
    refine ⟨contents (), ideal, came.flushed, inherent, fun page minted => ?_⟩
    rcases grown.taken page minted with ⟨-, none⟩ | mem
    · exact absurd none (Nat.not_lt_zero _)
    · exact came.mirrors.reads mem
  | error violation =>
    rw [ran] at comes
    obtain ⟨_, violated⟩ := comes
    exact ⟨violated, overgrown_of_violated (Session.opened_invariant opened new) idle begun ran⟩

/-- Two new pools of three frames or more, on disks that serve, give a tree that is opened empty the
same answers and the same pages, whenever they are flushed. The only thing storage can lack is page
numbers. A run is cut short on both or on neither, and only by an insertion below a root whose level
cannot grow. -/
theorem independent_of_cache {segment : SegmentId} {capacities : Capacities}
    (opened : Tree.new segment capacities = .ok tree) {s s' : Storage} (fresh : s.Fresh)
    (fresh' : s'.Fresh) {moves moves' : List (Move (fun _ : Unit => K) (fun _ => V))}
    (same : moves'.map (Move.call? ()) = moves.map (Move.call? ())) :
    match (alone tree s).run moves, (alone tree s').run moves' with
    | .ok commons, .ok commons' =>
      commons'.shown () = commons.shown () ∧ commons'.flushed = commons.flushed ∧
      (∀ ended ∈ commons.flushed, ended = .ok ()) ∧
      (∀ sight ∈ commons.shown (), ∀ fault, sight.1 = .error (.storage fault) →
        fault = .segmentExhausted segment) ∧
      commons'.trees () = commons.trees () ∧
      ∀ page, Tree.Minted segment (commons.trees ()).anchor.nextPageNo page → ∃ bytes left left',
        (Pool.readThrough page).run commons.storage = .ok bytes left ∧
        (Pool.readThrough page).run commons'.storage = .ok bytes left'
    | .error _, .error _ => (alone tree s).Overgrown moves ∧ (alone tree s').Overgrown moves'
    | _, _ => False := by
  have comes := opened_run opened fresh moves
  have comes' := opened_run opened fresh' moves'
  rw [callsOf_congr same, countP_isFlush_congr same] at comes'
  cases ran : (alone tree s).run moves with
  | ok commons =>
    rw [ran] at comes
    obtain ⟨content, ideal, flushed, inherent, reads⟩ := comes
    cases ran' : (alone tree s').run moves' with
    | ok commons' =>
      rw [ran'] at comes'
      obtain ⟨content', ideal', flushed', -, reads'⟩ := comes'
      obtain ⟨shown, trees, rfl⟩ : commons'.shown () = commons.shown () ∧
          commons'.trees () = commons.trees () ∧ content' = content := by
        simpa using ideal'.symm.trans ideal
      rw [trees] at reads'
      refine ⟨shown, flushed'.trans flushed.symm, ?_, inherent, trees, fun page minted => ?_⟩
      · rw [flushed]
        exact fun ended mem => List.eq_of_mem_replicate mem
      · obtain ⟨left, read⟩ := reads page minted
        obtain ⟨left', read'⟩ := reads' page minted
        exact ⟨content' page, left, left', read, read'⟩
    | error violation =>
      rw [ran'] at comes'
      cases comes'.1.symm.trans ideal
  | error violation =>
    rw [ran] at comes
    cases ran' : (alone tree s').run moves' with
    | ok commons' =>
      rw [ran'] at comes'
      obtain ⟨content', ideal', -⟩ := comes'
      cases comes.1.symm.trans ideal'
    | error violation' =>
      rw [ran'] at comes'
      exact ⟨comes.2, comes'.2⟩

/-- Five insertions with a flush in between, which writes pages back in the given order. -/
def fiveInsertions (residents : List (PageId × FrameId)) :
    List (Move (fun _ : Unit => Word false 1) (fun _ => Word false 1)) :=
  [.call () (.insert ⟨1⟩ ⟨10⟩), .call () (.insert ⟨2⟩ ⟨20⟩), .call () (.insert ⟨3⟩ ⟨30⟩),
    .flush residents, .call () (.insert ⟨4⟩ ⟨40⟩), .call () (.insert ⟨5⟩ ⟨50⟩), .call () .validate]

/-- The tree has five pages in the end. -/
theorem three_frames_tell_as_eight : ∃ pool pool' commons commons',
    Pool.new 3 = .ok pool ∧ Pool.new 8 = .ok pool' ∧
    (alone ⟨⟨0⟩, ⟨2, 3⟩, .empty⟩ ⟨Disk.twoFiles, pool⟩).run
      (fiveInsertions [(⟨0⟩, ⟨0⟩), (⟨1⟩, ⟨1⟩), (⟨2⟩, ⟨2⟩)]) = .ok commons ∧
    (alone ⟨⟨0⟩, ⟨2, 3⟩, .empty⟩ ⟨Disk.twoFiles, pool'⟩).run (fiveInsertions []) = .ok commons' ∧
    commons'.shown () = commons.shown () ∧ (commons.shown ()).length = 6 ∧
    ∃ bytes left left', (Pool.readThrough ⟨0⟩).run commons.storage = .ok bytes left ∧
      (Pool.readThrough ⟨0⟩).run commons'.storage = .ok bytes left' := by
  have opened : Tree.new ⟨0⟩ ⟨2, 3⟩ =
      .ok (⟨⟨0⟩, ⟨2, 3⟩, .empty⟩ : Tree (Word false 1) (Word false 1)) := rfl
  obtain ⟨pool, new, checked⟩ : ∃ pool, Pool.new 3 = .ok pool ∧
      ((alone ⟨⟨0⟩, ⟨2, 3⟩, .empty⟩ ⟨Disk.twoFiles, pool⟩).run
        (fiveInsertions [(⟨0⟩, ⟨0⟩), (⟨1⟩, ⟨1⟩), (⟨2⟩, ⟨2⟩)])).toOption.any (fun commons =>
          (commons.shown ()).length = 6 ∧ 1 ≤ (commons.trees ()).anchor.nextPageNo) = true :=
    ⟨_, rfl, by decide +kernel⟩
  obtain ⟨commons, ran, found⟩ := (Option.any_eq_true _ _).mp checked
  obtain ⟨six, some_page⟩ := of_decide_eq_true found
  have ran := Session.ok_of_toOption ran
  obtain ⟨pool', new'⟩ : ∃ pool, Pool.new 8 = .ok pool := ⟨_, rfl⟩
  have fresh : Storage.Fresh ⟨Disk.twoFiles, pool⟩ := ⟨Disk.steady_twoFiles, 3, Nat.le_refl 3, new⟩
  have fresh' : Storage.Fresh ⟨Disk.twoFiles, pool'⟩ := ⟨Disk.steady_twoFiles, 8, by decide, new'⟩
  have same : (fiveInsertions []).map (Move.call? ()) =
      (fiveInsertions [(⟨0⟩, ⟨0⟩), (⟨1⟩, ⟨1⟩), (⟨2⟩, ⟨2⟩)]).map (Move.call? ()) := rfl
  have alike := independent_of_cache opened fresh fresh' same
  rw [ran] at alike
  split at alike
  · rename_i commons₁ commons' same ran'
    cases same
    obtain ⟨shown, -, -, -, -, reads⟩ := alike
    exact ⟨pool, pool', commons, commons', new, new', ran, ran', shown, six,
      reads ⟨0⟩ ⟨rfl, some_page⟩⟩
  · rename_i same _
    cases same
  · exact alike.elim

end PagedIndex.Commons
