import PagedIndex.FixedWidth.Word
import PagedIndex.Proofs.Tree.Commons
import PagedIndex.Proofs.Tree.Sessions

/-!
# What was flushed is found again

After a flush that succeeds, every page of a tree is on disk as it reads. A tree that is opened with
the same anchor, in a new pool over the same directory, therefore goes on as the old one would.
-/

namespace PagedIndex

variable {K V : Type} [IndexKey K] [FixedWidth V]

namespace Tree

/-- The trees that were opened empty in a pool over a directory, and called since. Calls may have
failed, and others may have used the pool for other segments or flushed it. -/
inductive Founded : Tree K V → Storage → Prop
  | opened {segment : SegmentId} {capacities : Capacities} {tree : Tree K V} {disk : Disk}
      {size : Nat} {pool : Pool} (opened : Tree.new segment capacities = .ok tree)
      (attached : disk.Attached) (new : Pool.new size = .ok pool) : Founded tree ⟨disk, pool⟩
  | called {tree : Tree K V} {s : Storage} {call : Call K V} {reached : Reached K V}
      (before : Founded tree s) (called : tree.call call s = .ok reached) :
      Founded reached.tree reached.storage
  | elsewhere {tree : Tree K V} {s s' : Storage} {operation : Pool.Operation}
      (before : Founded tree s) (spares : operation.Spares tree.segment)
      (leaves : operation.Leaves s s') : Founded tree s'

/-- The tree's pages can be had, nobody else holds them, and the directory is found again. -/
structure Recoverable (tree : Tree K V) (s : Storage) : Prop where
  accepted : tree.capacities.check K V = .ok ()
  attached : s.disk.Attached
  free : ∀ guard ∈ s.pool.guards, guard.page.segment ≠ tree.segment
  lodged : ∃ own, tree.Lodged own ⟨tree.anchor, s⟩

variable {tree : Tree K V} {s s' : Storage}

theorem accepted_of_reopen {segment : SegmentId} {capacities : Capacities} {anchor : Anchor}
    (opened : Tree.reopen segment capacities anchor = .ok tree) :
    capacities.check K V = .ok () := by
  rw [Tree.reopen] at opened
  cases accepted : capacities.check K V with
  | error fault => rw [accepted] at opened; cases opened
  | ok _ => rfl

theorem Lodged.reopens {own : PageId → Prop} (lodged : tree.Lodged own ⟨tree.anchor, s⟩)
    (accepted : tree.capacities.check K V = .ok ()) :
    Tree.reopen tree.segment tree.capacities tree.anchor = .ok tree := by
  have counter : ¬ maxPageNo + 1 < tree.anchor.nextPageNo := Nat.not_lt_of_le lodged.counter
  rw [Tree.reopen, accepted]
  simp only [if_neg counter]
  cases anchored : tree.anchor.root with
  | none => rfl
  | some root =>
    obtain ⟨here, known⟩ := lodged.minted root (lodged.root root anchored)
    have own : ¬ (root.segment ≠ tree.segment ∨ tree.anchor.nextPageNo ≤ root.pageNo) := by
      rintro (foreign | unknown)
      · exact foreign here
      · exact Nat.not_lt_of_le unknown known
    simp only [if_neg own]
    rfl

theorem Recoverable.call {call : Call K V} {reached : Reached K V} (h : tree.Recoverable s)
    (called : tree.call call s = .ok reached) : reached.tree.Recoverable reached.storage := by
  obtain ⟨accepted, attached, free, own, lodged⟩ := h
  have comes := call_comes (Capacities.suitable_of_check accepted) lodged free (fun _ _ => rfl) call
  rw [called] at comes
  obtain ⟨own', settled, -⟩ := comes
  have segment : reached.tree.segment = tree.segment := by rw [settled.same]
  have capacities : reached.tree.capacities = tree.capacities := by rw [settled.same]
  refine ⟨by rw [capacities]; exact accepted, settled.lasts.disk.attached attached, ?_,
    own', settled.lodged⟩
  rw [settled.guards, segment]
  exact free

theorem Recoverable.elsewhere {operation : Pool.Operation} (h : tree.Recoverable s)
    (spares : operation.Spares tree.segment) (leaves : operation.Leaves s s') :
    tree.Recoverable s' := by
  obtain ⟨accepted, attached, free, own, lodged⟩ := h
  have apart := Pool.apart_of_leaves lodged.coherent free spares leaves
  have lasts := Pool.lasts_of_leaves lodged.coherent lodged.backed spares leaves
  refine ⟨accepted, lasts.disk.attached attached, apart.free, own, ?_⟩
  exact lodged.of_lasts apart.coherent lasts
    (fun page mem foreign => foreign (lodged.minted page mem).1)
    (fun page foreign here => absurd here foreign)
    fun page mem => apart.content page (lodged.minted page mem).1

theorem Founded.recoverable (founded : tree.Founded s) : tree.Recoverable s := by
  induction founded with
  | @opened segment capacities tree disk size pool opened attached new =>
    refine ⟨?_, attached, ?_, _, Grounded.lodged (.of_new opened disk.content) new (.none _ _)⟩
    · obtain ⟨rfl, -⟩ := of_reopen opened
      exact accepted_of_reopen opened
    · rw [Pool.guards_of_new new]
      exact fun guard mem => absurd mem List.not_mem_nil
  | called before called ih => exact ih.call called
  | elsewhere before spares leaves ih => exact ih.elsewhere spares leaves

theorem Recoverable.flushed_reads {residents : List (PageId × FrameId)} (h : tree.Recoverable s)
    (whole : ∀ (page : PageId) (id : FrameId), s.pool.table[page]? = some id →
      (page, id) ∈ residents)
    (flushed : (Pool.flushInOrder residents).run s = .ok () s') (page : PageId)
    (here : page.segment = tree.segment) :
    s'.disk.content page = s'.content page ∧ s'.content page = s.content page := by
  obtain ⟨accepted, attached, free, own, lodged⟩ := h
  have ends := (Pool.flushInOrder_ends lodged.coherent residents).and
    (Pool.flushInOrder_lasts lodged.backed lodged.coherent.pool.bound residents)
  obtain ⟨⟨coherent, kept⟩, stays, table, clean⟩ := ends.of_ok flushed
  refine ⟨?_, congrFun kept.content page⟩
  rw [Storage.content]
  cases at_page : s'.pool.table[page]? with
  | none => rfl
  | some id =>
    have before : s.pool.table[page]? = some id := table ▸ at_page
    refine (coherent.synced page id at_page (clean page id (whole page id before) before) ?_).symm
    intro guard listed on_frame
    have same := coherent.pool.guard_page guard listed
    rw [on_frame, (coherent.pool.bound page id).mp at_page] at same
    cases Option.some.inj same
    exact absurd here (free guard (kept.guards ▸ listed))

theorem Recoverable.flushed {residents : List (PageId × FrameId)} (h : tree.Recoverable s)
    (whole : ∀ (page : PageId) (id : FrameId), s.pool.table[page]? = some id →
      (page, id) ∈ residents)
    (flushed : (Pool.flushInOrder residents).run s = .ok () s') :
    ∃ own, tree.Recoverable s' ∧ tree.Lodged own ⟨tree.anchor, s'⟩ ∧
      s'.disk.Has own s'.content := by
  have reads := h.flushed_reads whole flushed
  obtain ⟨accepted, attached, free, own, lodged⟩ := h
  have ends := (Pool.flushInOrder_ends lodged.coherent residents).and
    (Pool.flushInOrder_lasts lodged.backed lodged.coherent.pool.bound residents)
  obtain ⟨⟨coherent, kept⟩, stays, table, clean⟩ := ends.of_ok flushed
  have lodged' : tree.Lodged own ⟨tree.anchor, s'⟩ :=
    lodged.of_lasts coherent stays (fun _ _ => id) (fun _ never => never.elim)
      fun page _ => congrFun kept.content page
  have free' : ∀ guard ∈ s'.pool.guards, guard.page.segment ≠ tree.segment := by
    rw [kept.guards]
    exact free
  refine ⟨own, ⟨accepted, stays.disk.attached attached, free', own, lodged'⟩, lodged', ?_, ?_⟩
  · intro page mem
    rcases lodged'.available page mem with resident | holds
    · obtain ⟨id, at_page⟩ := Option.isSome_iff_exists.mp
        (Std.TreeMap.mem_iff_isSome_getElem?.mp resident)
      rw [table] at at_page
      have cleaned := clean page id (whole page id at_page) at_page
      exact stays.backed page id (table ▸ at_page) cleaned
    · exact holds
  · exact fun page mem => (reads page (lodged'.minted page mem).1).1

/-- A tree that was flushed, closed and opened again reads its pages as they were. -/
theorem Recoverable.same_reopened {residents : List (PageId × FrameId)} {store : SegmentStore}
    {volume : Volume} {size : Nat} {pool : Pool} {page : PageId} (h : tree.Recoverable s)
    (whole : ∀ (page : PageId) (id : FrameId), s.pool.table[page]? = some id →
      (page, id) ∈ residents)
    (flushed : (Pool.flushInOrder residents).run s = .ok () s')
    (attached : (SegmentStore.attach s'.disk.store.directory).run s'.disk.volume = .ok store volume)
    (new : Pool.new size = .ok pool) (here : page.segment = tree.segment) :
    (⟨⟨store, volume⟩, pool⟩ : Storage).content page = s.content page := by
  obtain ⟨own, ⟨-, found, -, -⟩, -⟩ := h.flushed whole flushed
  cases found.attach_eq.symm.trans attached
  obtain ⟨on_disk, same⟩ := h.flushed_reads whole flushed page here
  have reattached : s'.disk.reattached.content page = s'.disk.content page := by
    rw [Disk.content, found.file_reattached]
    rfl
  exact (congrFun (Pool.new_coherent new _).2 page).trans
    (reattached.trans (on_disk.trans same))

end Tree

namespace Commons

open PagedIndex.Tree

variable {tree : Tree K V} {s s' : Storage}

/-- Whatever calls succeeded or failed before, and whoever else used the pool for other segments: if
a flush of all resident pages succeeds, the directory can be attached again, and the tree can be
opened with its old anchor over a new pool of three frames or more. Any calls then give the same
results and come to the same anchors as on the tree that was left open. -/
theorem reopening_loses_nothing {residents : List (PageId × FrameId)} (founded : tree.Founded s)
    (whole : ∀ (page : PageId) (id : FrameId), s.pool.table[page]? = some id →
      (page, id) ∈ residents)
    (flushed : (Pool.flushInOrder residents).run s = .ok () s') (steady : s'.disk.Steady)
    (roomy : s'.pool.pinnedFrameCount + 3 ≤ s'.pool.size) {size : Nat} (enough : 3 ≤ size) :
    ∃ store volume pool,
      (SegmentStore.attach s'.disk.store.directory).run s'.disk.volume = .ok store volume ∧
      Pool.new size = .ok pool ∧
      Tree.reopen tree.segment tree.capacities tree.anchor = .ok tree ∧
      ∀ calls : List (Call K V),
        sightsOf () ((alone tree ⟨⟨store, volume⟩, pool⟩).run (calls.map (.call ()))) =
          sightsOf () ((alone tree s').run (calls.map (.call ()))) := by
  obtain ⟨own, ⟨accepted, attached, free, -⟩, lodged, has⟩ :=
    founded.recoverable.flushed whole flushed
  have reopens := lodged.reopens accepted
  obtain ⟨pool, new⟩ : ∃ pool, Pool.new size = .ok pool := by
    rw [Pool.new, if_neg (by omega)]
    exact ⟨_, rfl⟩
  refine ⟨_, _, pool, attached.attach_eq, new, reopens, fun calls => ?_⟩
  have fresh : Storage.Fresh ⟨s'.disk.reattached, pool⟩ :=
    ⟨attached.steady_reattached steady, size, enough, new⟩
  have grounded : tree.Grounded own s'.content :=
    ⟨reopens, lodged.root, lodged.minted, lodged.linked⟩
  have has' : s'.disk.reattached.Has own s'.content := by
    refine ⟨fun page mem => (Disk.holds_congr attached.file_reattached).mpr (has.holds page mem),
      fun page mem => ?_⟩
    rw [Disk.content, attached.file_reattached]
    exact has.reads page mem
  have open_still : (alone tree s').Mirrors (fun _ => own) (fun _ => s'.content) :=
    ⟨fun _ _ _ => rfl, fun _ => Capacities.suitable_of_check accepted, fun _ => lodged,
      fun _ => free,
      fun _ _ _ => rfl, steady, roomy⟩
  have never : ∀ residents, Move.flush residents ∉
      (calls.map (.call ()) : List (Move (fun _ : Unit => K) fun _ => V)) := by
    intro residents mem
    obtain ⟨call, -, same⟩ := List.mem_map.mp mem
    cases same
  rw [sightsOf_fresh grounded fresh has', sightsOf_alone open_still (.inr never)]

theorem founded_step {commons next : Commons (fun _ : Unit => K) (fun _ => V)}
    (founded : (commons.trees ()).Founded commons.storage)
    {move : Move (fun _ : Unit => K) fun _ => V} (stepped : commons.step move = .ok next) :
    (next.trees ()).Founded next.storage := by
  cases move with
  | call i made =>
    rw [step] at stepped
    cases called : (commons.trees i).call made commons.storage with
    | error violation => rw [called] at stepped; cases stepped
    | ok reached =>
      rw [called] at stepped
      cases stepped
      rw [trees_after_self]
      exact .called founded called
  | flush residents =>
    rw [step] at stepped
    have spares : (Pool.Operation.flushAll residents).Spares (commons.trees ()).segment := trivial
    cases flushed : (Pool.flushInOrder residents).run commons.storage with
    | ok _ storage =>
      rw [flushed] at stepped
      cases stepped
      exact .elsewhere founded spares (.of_ok flushed)
    | error failure storage =>
      rw [flushed] at stepped
      cases failure with
      | error error =>
        cases stepped
        exact .elsewhere founded spares (.of_error flushed)
      | violation violation => cases stepped

theorem founded_run {commons commons' : Commons (fun _ : Unit => K) (fun _ => V)}
    (founded : (commons.trees ()).Founded commons.storage)
    {moves : List (Move (fun _ : Unit => K) fun _ => V)} (ran : commons.run moves = .ok commons') :
    (commons'.trees ()).Founded commons'.storage :=
  foldlM_keeps (fun commons => (commons.trees ()).Founded commons.storage)
    (fun _ _ _ founded stepped => founded_step founded stepped) founded ran

def fiveEntries : List (Call (Word false 1) (Word false 1)) :=
  [.insert ⟨1⟩ ⟨10⟩, .insert ⟨2⟩ ⟨20⟩, .insert ⟨3⟩ ⟨30⟩, .insert ⟨4⟩ ⟨40⟩, .insert ⟨5⟩ ⟨50⟩]

/-- Continues with calls of each kind. -/
def goOn : List (Call (Word false 1) (Word false 1)) :=
  [.lookup ⟨2⟩, .insert ⟨6⟩ ⟨60⟩, .erase ⟨1⟩, .height, .length, .validate]

theorem reopened_after_five : ∃ (tree : Tree (Word false 1) (Word false 1)) (s s' : Storage)
    (store : SegmentStore) (volume : Volume) (pool : Pool), tree.Founded s ∧
    Pool.flushAll.run s = .ok () s' ∧
    (SegmentStore.attach s'.disk.store.directory).run s'.disk.volume = .ok store volume ∧
    Pool.new 4 = .ok pool ∧ Tree.reopen tree.segment tree.capacities tree.anchor = .ok tree ∧
    ∃ sights, sightsOf () ((alone tree ⟨⟨store, volume⟩, pool⟩).run (goOn.map (.call ()))) =
        some sights ∧
      sightsOf () ((alone tree s').run (goOn.map (.call ()))) = some sights := by
  have opened : Tree.new ⟨1⟩ ⟨2, 3⟩ =
      .ok (⟨⟨1⟩, ⟨2, 3⟩, .empty⟩ : Tree (Word false 1) (Word false 1)) := rfl
  let check (commons : Commons (fun _ : Unit => Word false 1) (fun _ => Word false 1)) : Bool :=
    match Pool.flushAll.run commons.storage with
    | .ok _ s' => (sightsOf () ((alone (commons.trees ()) s').run (goOn.map (.call ())))).isSome
    | .error _ _ => false
  obtain ⟨pool, new, checked⟩ : ∃ pool, Pool.new 3 = .ok pool ∧
      ((alone ⟨⟨1⟩, ⟨2, 3⟩, .empty⟩ ⟨Disk.twoFiles, pool⟩).run
        (fiveEntries.map (.call ()))).toOption.any check = true :=
    ⟨_, rfl, by decide +kernel⟩
  obtain ⟨commons, ran, found⟩ := (Option.any_eq_true _ _).mp checked
  have ran := Session.ok_of_toOption ran
  have founded := founded_run (.opened opened Disk.attached_twoFiles new) ran
  have begun : (alone ⟨⟨1⟩, ⟨2, 3⟩, .empty⟩ ⟨Disk.twoFiles, pool⟩).Mirrors (fun _ _ => False) _ :=
    .of_fresh_alone (.of_new opened fun _ => Page.zeroed)
      ⟨Disk.steady_twoFiles, 3, Nat.le_refl 3, new⟩
      (.none _ _)
  have comes := run_tells begun (fiveEntries.map (.call ())) (.inl (Pool.guards_of_new new))
  rw [ran] at comes
  obtain ⟨own, contents, came⟩ := comes
  have flushes := came.mirrors.flush_comes commons.storage.pool.table.toList
  cases flushed : (Pool.flushInOrder commons.storage.pool.table.toList).run commons.storage with
  | error failure s' =>
    have refused : Pool.flushAll.run commons.storage = .error failure s' := flushed
    simp only [check, refused] at found
    cases found
  | ok _ s' =>
    obtain ⟨⟨-, -, -, -, -, steady, roomy⟩, -⟩ := flushes.of_ok flushed
    obtain ⟨store, volume, pool', attached, new', reopens, same⟩ :=
      reopening_loses_nothing founded
        (fun page id => Std.TreeMap.mem_toList_iff_getElem?_eq_some.mpr) flushed steady roomy
        (by decide : 3 ≤ 4)
    have all : Pool.flushAll.run commons.storage = .ok () s' := flushed
    simp only [check, all] at found
    obtain ⟨sights, told⟩ := Option.isSome_iff_exists.mp found
    exact ⟨_, _, _, store, volume, pool', founded, all, attached, new', reopens, sights,
      (same goOn).trans told, told⟩

end Commons

end PagedIndex
