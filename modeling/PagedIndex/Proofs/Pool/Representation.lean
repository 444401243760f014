import PagedIndex.Proofs.Pool.Transparency

/-!
# A pool divides its frames between the free list and the table

At every point of every run over an empty pool, whichever operations failed before, the free list
and the table divide the frames between them, and pins, recency record and guards agree with that.
So a guard can always be let go, a page with pins is neither evicted nor dropped, and frames are
lacking only while each of them has pins.
-/

namespace PagedIndex.Pool

open StorageM Storage

/-- Free list, table, frames, recency record and guards tell of the same pages in the same
frames. -/
structure Consistent (pool : Pool) : Prop where
  free_nodup : pool.free.Nodup
  free_unmapped : ∀ id ∈ pool.free, ∀ page : PageId, pool.table[page]? ≠ some id
  covered : ∀ id, id.index < pool.size ↔
    id ∈ pool.free ∨ ∃ page : PageId, pool.table[page]? = some id
  counted : pool.freeFrameCount + pool.residentCount = pool.size
  injective : ∀ (page other : PageId) (id : FrameId),
    pool.table[page]? = some id → pool.table[other]? = some id → page = other
  bound : ∀ (page : PageId) (id : FrameId),
    pool.table[page]? = some id ↔ (pool.frame id).page = some page
  pins : ∀ id, ((pool.frame id).pins : Nat) = pool.guards.countP (·.frame = id)
  guarded : ∀ guard ∈ pool.guards, pool.table[guard.page]? = some guard.frame
  recency : pool.recency.Invariant
  tracked : ∀ id, id ∈ pool.recency.stamps ↔ ∃ page : PageId, pool.table[page]? = some id
  evictable : ∀ id, id ∈ pool.recency.evictable ↔
    (∃ page : PageId, pool.table[page]? = some id) ∧ (pool.frame id).pins = 0
  free_idle : ∀ id ∈ pool.free,
    (pool.frame id).page = none ∧ (pool.frame id).dirty = false ∧ (pool.frame id).pins = 0

def Exhausted (pool : Pool) : Prop := ∀ id, id.index < pool.size → (pool.frame id).pins ≠ 0

namespace Invariant

variable {pool : Pool}

theorem resident_iff (h : pool.Invariant .nothing) (id : FrameId) :
    (∃ page : PageId, pool.table[page]? = some id) ↔ (pool.frame id).page ≠ none := by
  simp only [h.bound, Option.ne_none_iff_exists']

theorem mapped_injective (h : pool.Invariant .nothing) {page other : PageId} {id : FrameId}
    (mapped : pool.table[page]? = some id) (mapped' : pool.table[other]? = some id) :
    page = other :=
  Option.some.inj (((h.bound page id).mp mapped).symm.trans ((h.bound other id).mp mapped'))

theorem mapped_nodup (h : pool.Invariant .nothing) :
    (pool.table.toList.map Prod.snd).Nodup := by
  refine List.pairwise_map.mpr
    (Std.TreeMap.distinct_keys_toList.imp_of_mem fun {a b} listed listed' apart same => apart ?_)
  have mapped := Std.TreeMap.mem_toList_iff_getElem?_eq_some.mp listed
  have mapped' := Std.TreeMap.mem_toList_iff_getElem?_eq_some.mp listed'
  rw [← same] at mapped'
  exact Std.LawfulEqCmp.compare_eq_iff_eq.mpr (h.mapped_injective mapped mapped')

theorem mem_mapped_iff {id : FrameId} :
    id ∈ pool.table.toList.map Prod.snd ↔ ∃ page : PageId, pool.table[page]? = some id := by
  simp [Std.TreeMap.mem_toList_iff_getElem?_eq_some]

theorem free_unmapped (h : pool.Invariant .nothing) {id : FrameId} (free : id ∈ pool.free)
    (page : PageId) : pool.table[page]? ≠ some id := by
  intro mapped
  exact (h.resident_iff id).mp ⟨page, mapped⟩ ((h.free_iff id).mp free).2.1

theorem covered (h : pool.Invariant .nothing) (id : FrameId) :
    id.index < pool.size ↔ id ∈ pool.free ∨ ∃ page : PageId, pool.table[page]? = some id := by
  rw [h.free_iff, h.resident_iff]
  constructor
  · intro inside
    by_cases unbound : (pool.frame id).page = none
    · exact .inl ⟨inside, unbound, by simp⟩
    · exact .inr unbound
  · rintro (⟨inside, -⟩ | bound)
    · exact inside
    · exact bound_in_range bound

/-- The free frames and those of the table are all the frames, each once. -/
theorem partition (h : pool.Invariant .nothing) :
    (pool.free ++ pool.table.toList.map Prod.snd).Perm
      ((List.range pool.size).map FrameId.mk) := by
  have numbered : ((List.range pool.size).map FrameId.mk).Nodup :=
    List.nodup_range.map fun _ _ same => congrArg FrameId.index same
  have disjoint : pool.free.Disjoint (pool.table.toList.map Prod.snd) := by
    intro id free mapped
    obtain ⟨page, mapped⟩ := mem_mapped_iff.mp mapped
    exact h.free_unmapped free page mapped
  refine (List.perm_ext_iff_of_nodup
    (h.free_nodup.append h.mapped_nodup disjoint) numbered).mpr fun id => ?_
  rw [List.mem_append, mem_mapped_iff, ← h.covered]
  obtain ⟨index⟩ := id
  simp

theorem consistent (h : pool.Invariant .nothing) : pool.Consistent where
  free_nodup := h.free_nodup
  free_unmapped _ free := h.free_unmapped free
  covered := h.covered
  counted := by
    have count := h.partition.length_eq
    simpa [freeFrameCount, residentCount, Std.TreeMap.length_toList] using count
  injective _ _ _ := h.mapped_injective
  bound := h.bound
  pins id := by simpa using h.pins id
  guarded guard mem := (h.bound _ _).mpr (h.guard_page guard mem)
  recency := h.recency
  tracked id := by rw [h.tracked, h.resident_iff]
  evictable id := by rw [h.evictable, h.resident_iff]
  free_idle id free := by
    obtain ⟨-, unbound, -⟩ := (h.free_iff id).mp free
    exact ⟨unbound, (h.unbound_idle id unbound).2, (h.unbound_idle id unbound).1⟩

theorem exhausted (h : pool.Invariant .nothing) (free : pool.free = [])
    (victim : pool.recency.victim = none) : pool.Exhausted := by
  intro id inside idle
  rcases (h.covered id).mp inside with listed | mapped
  · rw [free] at listed
    cases listed
  · exact Recency.victim_none h.recency victim id
      ((h.evictable id).mpr ⟨(h.resident_iff id).mp mapped, idle⟩)

end Invariant

section Lacking

variable {s : Storage}

/-- The failure says that frames are lacking only if they are. -/
def Truthful (pool : Pool) (failure : Failure) : Prop :=
  failure = .error (.storage .noFreeFrames) → pool.Exhausted

theorem writeBack_truthful (id : FrameId) (page : PageId) (pool : Pool) (s : Storage) :
    Ends (writeBack id page) s (fun _ _ => True) (fun failure _ => pool.Truthful failure) := by
  refine (writeBack_ends id page s).imp (fun _ _ _ => trivial) ?_
  rintro failure s' (⟨rfl, -⟩ | ⟨⟨cause, rfl⟩, -⟩) lacking <;> cases lacking

theorem evict_truthful (h : s.Coherent .nothing) (free : s.pool.free = []) :
    Ends evict s (fun _ _ => True) (fun failure _ => s.pool.Truthful failure) := by
  simp only [evict, Ends.bind_iff, pool_iff, Recency.evict]
  cases found : s.pool.recency.victim with
  | none => exact fun _ => h.pool.exhausted free found
  | some victim =>
    simp only [Option.map_some, Ends.bind_iff, mapPool_iff, pool_iff]
    split
    · rename_i page _
      simp only [Ends.bind_iff, Ends.tryCatch_iff, mapPool_iff, Ends.throw_iff, Ends.pure_iff]
      exact writeBack_truthful victim page s.pool _
    · trivial

theorem acquireFrame_truthful (h : s.Coherent .nothing) :
    Ends acquireFrame s (fun _ _ => True) (fun failure _ => s.pool.Truthful failure) := by
  simp only [acquireFrame, Ends.bind_iff, pool_iff]
  cases free : s.pool.free with
  | nil => exact evict_truthful h free
  | cons id rest => trivial

theorem pinPage_truthful (h : s.Coherent .nothing) (page : PageId) :
    Ends (pinPage page) s (fun _ _ => True) (fun failure _ => s.pool.Truthful failure) := by
  rw [pinPage_iff]
  cases s.pool.table[page]? with
  | some id =>
    dsimp only
    split
    · intro lacking
      cases lacking
    · trivial
  | none =>
    simp only [load, Ends.bind_iff, mapPool_iff]
    obtain ⟨start, -⟩ := tally_coherent h fun c => { c with cacheMisses := c.cacheMisses + 1 }
    refine (acquireFrame_truthful start).imp ?_ fun _ _ truthful => truthful
    intro id t _
    simp only [Ends.tryCatch_iff, Ends.bind_iff, mapPool_iff, Ends.throw_iff, Ends.pure_iff]
    refine onDisk_ends ((Disk.readPage_ends page t.disk).imp (fun _ _ _ => trivial) ?_)
    rintro fault disk ⟨-, ⟨rfl, -⟩ | ⟨cause, rfl⟩⟩ lacking <;> cases lacking

theorem takeGuard_truthful (latch : Latch) (page : PageId) (frame : FrameId) (pool : Pool)
    (s : Storage) :
    Ends (takeGuard latch page frame) s (fun _ _ => True)
      (fun failure _ => pool.Truthful failure) := by
  simp only [takeGuard, Ends.bind_iff, pool_iff]
  split
  · intro lacking
    cases lacking
  · trivial

theorem fetch_truthful (h : s.Coherent .nothing) (latch : Latch) (page : PageId) :
    Ends (fetch latch page) s (fun _ _ => True) (fun failure _ => s.pool.Truthful failure) := by
  rw [fetch, Ends.bind_iff]
  exact (pinPage_truthful h page).imp (fun frame t _ => takeGuard_truthful latch page frame _ t)
    fun _ _ truthful => truthful

theorem create_truthful (h : s.Coherent .nothing) (page : PageId) :
    Ends (create page) s (fun _ _ => True) (fun failure _ => s.pool.Truthful failure) := by
  simp only [create, Ends.bind_iff, pool_iff]
  split
  · intro lacking
    cases lacking
  · simp only [Ends.bind_iff, mapPool_iff]
    exact (acquireFrame_truthful h).imp (fun frame _ _ => takeGuard_truthful _ page frame _ _)
      fun _ _ truthful => truthful

theorem delete_truthful (page : PageId) (pool : Pool) (s : Storage) :
    Ends (delete page) s (fun _ _ => True) (fun failure _ => pool.Truthful failure) := by
  simp only [delete, Ends.bind_iff, pool_iff]
  split
  · simp only [Ends.bind_iff, pool_iff]
    split
    · intro lacking
      cases lacking
    · trivial
  · trivial

theorem flush_truthful (page : PageId) (pool : Pool) (s : Storage) :
    Ends (flush page) s (fun _ _ => True) (fun failure _ => pool.Truthful failure) := by
  simp only [flush, Ends.bind_iff, pool_iff]
  split
  · exact writeBack_truthful _ page pool s
  · trivial

theorem flushInOrder_truthful (residents : List (PageId × FrameId)) (pool : Pool) (s : Storage) :
    Ends (flushInOrder residents) s (fun _ _ => True)
      (fun failure _ => pool.Truthful failure) := by
  rw [flushInOrder, Ends.bind_iff]
  refine (Ends.forM_keeps (fun _ => True) trivial ?_).imp ?_ fun _ _ truthful => truthful
  · rintro ⟨page, id⟩ - t -
    exact writeBack_truthful id page pool t
  · intro _ t _
    refine onDisk_ends ((Disk.sync_ends t.disk).imp (fun _ _ _ => trivial) ?_)
    rintro fault disk ⟨-, cause, rfl⟩ lacking
    cases lacking

theorem operation_truthful (h : s.Coherent .nothing) (operation : Operation) :
    Ends operation.perform s (fun _ _ => True) (fun failure _ => s.pool.Truthful failure) := by
  have of_stale {failure : Failure} (stale : failure = .violation .staleGuard) :
      s.pool.Truthful failure := by
    subst stale
    intro lacking
    cases lacking
  cases operation with
  | create page => exact Ends.discard_iff.mpr (create_truthful h page)
  | fetch latch page => exact Ends.discard_iff.mpr (fetch_truthful h latch page)
  | read id =>
    exact Ends.discard_iff.mpr
      ((bytes_ends h id).imp (fun _ _ _ => trivial) fun _ _ ended => of_stale ended.2.1)
  | write id bytes =>
    exact (write_ends h id bytes).imp (fun _ _ _ => trivial) fun _ _ ended => of_stale ended.2.1
  | release id =>
    exact (release_ends h id).imp (fun _ _ _ => trivial) fun _ _ ended => of_stale ended.2.1
  | delete page => exact delete_truthful page s.pool s
  | flush page => exact flush_truthful page s.pool s
  | flushAll residents => exact flushInOrder_truthful residents s.pool s

end Lacking

/-- There are as many frames as before, and each page with pins is still in its frame. -/
structure Holds (pool pool' : Pool) : Prop where
  size : pool'.size = pool.size
  resident : ∀ (page : PageId) (id : FrameId), pool.table[page]? = some id →
    (pool.frame id).pins ≠ 0 → pool'.table[page]? = some id

section Held

variable {s s' : Storage}

theorem holds_of_guards (h : s.Coherent .nothing) (h' : s'.Coherent .nothing)
    (size : s'.pool.size = s.pool.size)
    (guards : ∀ guard ∈ s.pool.guards, ∃ guard' ∈ s'.pool.guards,
      guard'.frame = guard.frame ∧ guard'.page = guard.page) : s.pool.Holds s'.pool := by
  refine ⟨size, fun page id mapped pinned => ?_⟩
  have count : 0 < s.pool.guards.countP (·.frame = id) := by
    rw [← h.pool.consistent.pins id]
    exact Nat.pos_of_ne_zero (mt Frame.pins_eq_zero_iff.mpr pinned)
  obtain ⟨guard, mem, here⟩ := List.countP_pos_iff.mp count
  have here : guard.frame = id := of_decide_eq_true here
  obtain ⟨guard', mem', frame, same⟩ := guards guard mem
  have on_page : guard.page = page :=
    h.pool.mapped_injective (here ▸ h.pool.consistent.guarded guard mem) mapped
  have stays := h'.pool.consistent.guarded guard' mem'
  rwa [frame, same, here, on_page] at stays

theorem holds_of_kept (h : s.Coherent .nothing) (h' : s'.Coherent .nothing) (kept : s.Kept s') :
    s.pool.Holds s'.pool := by
  refine holds_of_guards h h' kept.size fun guard mem => ⟨guard, ?_, rfl, rfl⟩
  rw [kept.guards]
  exact mem

theorem holds_of_took {latch : Latch} {page : PageId} {id : GuardId} (h : s.Coherent .nothing)
    (h' : s'.Coherent .nothing) (took : s.Took latch page id s') : s.pool.Holds s'.pool := by
  refine holds_of_guards h h' took.size fun guard mem => ⟨guard, ?_, rfl, rfl⟩
  obtain ⟨frame, guards⟩ := took.guards
  rw [guards]
  exact List.mem_cons_of_mem _ mem

theorem Operation.Makes.holds {operation : Operation} (makes : operation.Makes s s')
    (h : s.Coherent .nothing) (h' : s'.Coherent .nothing) : s.pool.Holds s'.pool := by
  cases makes with
  | create took => exact holds_of_took h h' took
  | fetch took => exact holds_of_took h h' took
  | read => exact holds_of_kept h h (.refl _)
  | @write writer _ _ _ _ guards size =>
    refine holds_of_guards h h' size fun guard mem =>
      ⟨marked writer.id guard, ?_, by simp, by simp⟩
    rw [guards]
    exact List.mem_map_of_mem mem
  | release _ _ table size =>
    refine ⟨size, fun page frame mapped _ => ?_⟩
    rw [table]
    exact mapped
  | delete _ guards size =>
    refine holds_of_guards h h' size fun guard mem => ⟨guard, ?_, rfl, rfl⟩
    rw [guards]
    exact mem
  | flush kept => exact holds_of_kept h h' kept
  | flushAll kept => exact holds_of_kept h h' kept

theorem operation_holds (h : s.Coherent .nothing) (operation : Operation) :
    Ends operation.perform s (fun _ s' => s.pool.Holds s'.pool)
      (fun failure s' => (∃ error, failure = .error error) ∧ s.pool.Holds s'.pool ∨
        ∃ violation, failure = .violation violation ∧ operation.Breaks s.pool violation) := by
  refine (perform_ends h operation).imp ?_ ?_
  · rintro _ s' ⟨coherent, makes⟩
    exact makes.holds h coherent
  · rintro failure s' (refused | breaks)
    · obtain ⟨⟨fault, same, -⟩, coherent, kept⟩ := refused
      exact .inl ⟨⟨_, same⟩, holds_of_kept h coherent kept⟩
    · exact .inr ⟨_, rfl, breaks⟩

theorem release_of_live (h : s.Coherent .nothing) {guard : Guard} (mem : guard ∈ s.pool.guards) :
    ∃ s', (release guard.id).run s = .ok () s' := by
  cases ran : (release guard.id).run s with
  | ok _ s' => exact ⟨s', rfl⟩
  | error failure s' => exact absurd rfl (((release_ends h guard.id).of_error ran).2.2 guard mem)

theorem delete_of_pinned {page : PageId} {id : FrameId} (mapped : s.pool.table[page]? = some id)
    (pinned : (s.pool.frame id).pins ≠ 0) :
    (delete page).run s = .error (.error (.storage (.pagePinned page))) s := by
  have refused : Ends (delete page) s (fun _ _ => False)
      (fun failure s' => failure = .error (.storage (.pagePinned page)) ∧ s' = s) := by
    simp only [delete, Ends.bind_iff, pool_iff, mapped]
    rw [if_pos (Frame.isPinned_iff.mpr pinned)]
    exact ⟨rfl, rfl⟩
  obtain ⟨failure, s', ran, rfl, rfl⟩ := refused.exists_error
  exact ran

end Held

theorem step_keeps_size {ledger ledger' : Ledger} (h : ledger.Invariant) {operation : Operation}
    (step : ledger.step operation = .ok ledger') :
    ledger'.storage.pool.size = ledger.storage.pool.size := by
  have ends := operation_holds h.coherent operation
  rcases Ledger.step_cases step with ⟨s', ran, rfl⟩ | ⟨error, s', ran, rfl⟩
  · exact (ends.of_ok ran).size
  · rcases ends.of_error ran with ⟨-, holds⟩ | ⟨_, other, -⟩
    · exact holds.size
    · cases other

theorem run_keeps_size {ledger ledger' : Ledger} (h : ledger.Invariant)
    {operations : List Operation} (run : ledger.run operations = .ok ledger') :
    ledger'.storage.pool.size = ledger.storage.pool.size := by
  refine (foldlM_keeps (fun reached : Ledger => reached.Invariant ∧
    reached.storage.pool.size = ledger.storage.pool.size) ?_ ⟨h, rfl⟩ run).2
  intro reached _ next ⟨invariant, same⟩ step
  exact ⟨step_preserves_invariant invariant step, (step_keeps_size invariant step).trans same⟩

theorem size_of_new {size : Nat} {pool : Pool} (new : Pool.new size = .ok pool) :
    pool.size = size := by
  unfold Pool.new at new
  split at new <;> cases new
  simp [Pool.size]

/-- Wherever a run over an empty pool gets to, the parts of the pool are consistent, each guard
can be let go, and no operation takes a page with pins out of its frame. A run ends where a frame
would get one pin more than its counter can count. -/
theorem consistent_after_run {disk : Disk} {size : Nat} {pool : Pool}
    (new : Pool.new size = .ok pool) {operations : List Operation} {ledger : Ledger}
    (run : (Ledger.start disk pool).run operations = .ok ledger) :
    ledger.storage.pool.Consistent ∧ ledger.storage.pool.size = size ∧
    (∀ guard ∈ ledger.storage.pool.guards,
      ∃ s', (Pool.release guard.id).run ledger.storage = .ok () s') ∧
    (∀ (page : PageId) (id : FrameId), ledger.storage.pool.table[page]? = some id →
      (ledger.storage.pool.frame id).pins ≠ 0 → (Pool.delete page).run ledger.storage =
        .error (.error (.storage (.pagePinned page))) ledger.storage) ∧
    ∀ operation : Operation, match operation.perform.run ledger.storage with
      | .ok () s' => ledger.storage.pool.Holds s'.pool
      | .error (.error error) s' => ledger.storage.pool.Holds s'.pool ∧
          (error = .storage .noFreeFrames → ledger.storage.pool.Exhausted)
      | .error (.violation violation) _ => operation.Breaks ledger.storage.pool violation ∧
          violation ≠ .pinUnderflow := by
  have start : (Ledger.start disk pool).Invariant := start_invariant new
  have coherent := (run_preserves_invariant start run).coherent
  refine ⟨coherent.pool.consistent, (run_keeps_size start run).trans (size_of_new new),
    fun guard mem => release_of_live coherent mem, fun page id => delete_of_pinned, ?_⟩
  intro operation
  have ends := (operation_holds coherent operation).and (operation_truthful coherent operation)
  cases ran : operation.perform.run ledger.storage with
  | ok _ s' => exact (ends.of_ok ran).1
  | error failure s' =>
    cases failure with
    | error error =>
      obtain ⟨⟨-, holds⟩ | ⟨_, other, -⟩, truthful⟩ := ends.of_error ran
      · exact ⟨holds, fun lacking => truthful (congrArg _ lacking)⟩
      · cases other
    | violation violation =>
      obtain ⟨⟨⟨_, other⟩, -⟩ | ⟨_, same, breaks⟩, -⟩ := ends.of_error ran
      · cases other
      · cases same
        exact ⟨breaks, breaks.not_underflow⟩

/-- With one frame, a fetch finds no frame, and another empties it for a page that is not on
disk. -/
def failTwice : List Operation :=
  [.create ⟨0⟩, .fetch .shared ⟨1⟩, .release ⟨0⟩, .fetch .shared ⟨9⟩, .create ⟨2⟩]

theorem consistent_after_failures : ∃ pool ledger, Pool.new 1 = .ok pool ∧
    (Ledger.start oneFile pool).run failTwice = .ok ledger ∧
    ledger.storage.pool.Consistent ∧ ∃ guard ∈ ledger.storage.pool.guards, guard.page = ⟨2⟩ ∧
      ∃ s', (Pool.release guard.id).run ledger.storage = .ok () s' := by
  let check (ledger : Ledger) : Bool :=
    ledger.storage.pool.guards = [⟨⟨1⟩, ⟨0⟩, ⟨2⟩, .exclusive, false⟩]
  obtain ⟨pool, new, checked⟩ : ∃ pool, Pool.new 1 = .ok pool ∧
      ((Ledger.start oneFile pool).run failTwice).toOption.any check = true :=
    ⟨_, rfl, by decide +kernel⟩
  cases run : (Ledger.start oneFile pool).run failTwice with
  | error violation => rw [run] at checked; cases checked
  | ok ledger =>
    rw [run] at checked
    have mem : ⟨⟨1⟩, ⟨0⟩, ⟨2⟩, .exclusive, false⟩ ∈ ledger.storage.pool.guards := by
      rw [of_decide_eq_true checked]
      exact List.mem_singleton_self _
    obtain ⟨consistent, -, releases, -⟩ := consistent_after_run new run
    exact ⟨pool, ledger, new, run, consistent, _, mem, rfl, releases _ mem⟩

end PagedIndex.Pool
