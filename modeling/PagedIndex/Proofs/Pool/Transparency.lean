import PagedIndex.Proofs.Pool.Operations

/-!
# A pool is transparent over the disk

A ledger keeps, beside the storage, the bytes last given to each page: those on disk at the start,
zeros when the page was created, and then what was written through its guards. Whatever is evicted
and reloaded in between, and whichever operations fail, a guard shows the bytes in the ledger.
Nothing is said of a page between its deletion and the next write to it.
-/

namespace PagedIndex.Pool

open Storage

/-- What the users of a pool may ask of it, one after another. -/
inductive Operation where
  | create (page : PageId)
  | fetch (latch : Latch) (page : PageId)
  | read (guard : GuardId)
  | write (guard : GuardId) (bytes : Page)
  | release (guard : GuardId)
  | delete (page : PageId)
  | flush (page : PageId)
  /-- Flushes the resident pages in the order in which they happen to be found. -/
  | flushAll (residents : List (PageId × FrameId))

namespace Operation

def perform {D : Type} [Device D] : Operation → StorageOn D Unit
  | create page => discard (Pool.create page)
  | fetch latch page => discard (Pool.fetch latch page)
  | read guard => discard (Pool.bytes guard)
  | write guard bytes => Pool.write guard bytes
  | release guard => Pool.release guard
  | delete page => Pool.delete page
  | flush page => Pool.flush page
  | flushAll residents => Pool.flushInOrder residents

/-- What a success of the operation makes of the bytes last given to each page. -/
def record (pool : Pool) (last : PageId → Option Page) : Operation → PageId → Option Page
  | create page => Function.update last page (some Page.zeroed)
  | write guard bytes =>
    match pool.guard? guard with
    | some guard => Function.update last guard.page (some bytes)
    | none => last
  | delete page => Function.update last page none
  | fetch _ _ | read _ | release _ | flush _ | flushAll _ => last

/-- The operation waits for a latch that a guard has. -/
def Waits (pool : Pool) : Operation → Prop
  | fetch latch page => pool.Blocked latch page
  | flush page => pool.Blocked .shared page
  | flushAll residents => ∃ resident ∈ residents, pool.writeLatched resident.2 = true
  | create _ | read _ | write _ _ | release _ | delete _ => False

def Stale (pool : Pool) : Operation → Prop
  | read id | write id _ | release id => ∀ guard ∈ pool.guards, guard.id ≠ id
  | create _ | fetch _ _ | delete _ | flush _ | flushAll _ => False

/-- The operation asks for one guard more on a page than its frame can count. -/
def Crowds (pool : Pool) : Operation → Prop
  | fetch _ page => pool.Crowded page
  | create _ | read _ | write _ _ | release _ | delete _ | flush _ | flushAll _ => False

/-- Why an operation is violated: for want of a latch, of a guard or of room for a pin. -/
inductive Breaks (pool : Pool) (operation : Operation) : Violation → Prop where
  | waits (waits : operation.Waits pool) : Breaks pool operation .latchHeld
  | stale (stale : operation.Stale pool) : Breaks pool operation .staleGuard
  | crowds (crowds : operation.Crowds pool) : Breaks pool operation .pinOverflow

theorem Breaks.not_underflow {pool : Pool} {operation : Operation} {violation : Violation}
    (breaks : operation.Breaks pool violation) : violation ≠ .pinUnderflow := by
  cases breaks <;> simp

theorem Breaks.bars {pool : Pool} {latch : Latch} {page : PageId} {violation : Violation}
    (breaks : (fetch latch page).Breaks pool violation) :
    pool.Bars latch page (.violation violation) := by
  cases breaks with
  | waits blocked => exact .blocked blocked
  | stale stale => exact stale.elim
  | crowds crowded => exact .crowded crowded

theorem Breaks.not_create {pool : Pool} {page : PageId} {violation : Violation}
    (breaks : (create page).Breaks pool violation) : False := by
  cases breaks with
  | waits waits => exact waits
  | stale stale => exact stale
  | crowds crowds => exact crowds

def isFlush : Operation → Bool
  | flush _ | flushAll _ => true
  | create _ | fetch _ _ | read _ | write _ _ | release _ | delete _ => false

/-- What an operation that succeeds makes of the pages and of the guards. -/
inductive Makes (s : Storage) : Operation → Storage → Prop where
  | create {page : PageId} {id : GuardId} {s' : Storage} (took : s.Took .exclusive page id s')
      (content : s'.content = Function.update s.content page Page.zeroed) :
      Makes s (.create page) s'
  | fetch {latch : Latch} {page : PageId} {id : GuardId} {s' : Storage}
      (took : s.Took latch page id s') (content : s'.content = s.content) :
      Makes s (.fetch latch page) s'
  | read {id : GuardId} : Makes s (.read id) s
  | write {guard : Guard} {bytes : Page} {s' : Storage} (mem : guard ∈ s.pool.guards)
      (content : s'.content = Function.update s.content guard.page bytes)
      (guards : s'.pool.guards = s.pool.guards.map (marked guard.id))
      (size : s'.pool.size = s.pool.size) : Makes s (.write guard.id bytes) s'
  | release {id : GuardId} {s' : Storage} (content : s'.content = s.content)
      (guards : s'.pool.guards = s.pool.guards.filter (·.id ≠ id))
      (table : s'.pool.table = s.pool.table) (size : s'.pool.size = s.pool.size) :
      Makes s (.release id) s'
  | delete {page : PageId} {s' : Storage}
      (content : ∀ other, other ≠ page → s'.content other = s.content other)
      (guards : s'.pool.guards = s.pool.guards) (size : s'.pool.size = s.pool.size) :
      Makes s (.delete page) s'
  | flush {page : PageId} {s' : Storage} (kept : s.Kept s') : Makes s (.flush page) s'
  | flushAll {residents : List (PageId × FrameId)} {s' : Storage} (kept : s.Kept s') :
      Makes s (.flushAll residents) s'

inductive Fails (s : Storage) (operation : Operation) : Failure → Storage → Prop where
  | refused {failure : Failure} {s' : Storage} (refused : s.Refused failure s') :
      Fails s operation failure s'
  | violated {violation : Violation} {s' : Storage} (breaks : operation.Breaks s.pool violation) :
      Fails s operation (.violation violation) s'

variable {s s' : Storage} {operation : Operation} {failure : Failure}

theorem Fails.of_latch
    (ended : failure = .violation .latchHeld ∧ operation.Waits s.pool ∨ s.Refused failure s') :
    operation.Fails s failure s' := by
  rcases ended with ⟨rfl, waits⟩ | refused
  · exact .violated (.waits waits)
  · exact .refused refused

theorem Fails.of_guard
    (ended : s' = s ∧ failure = .violation .staleGuard ∧ operation.Stale s.pool) :
    operation.Fails s failure s' := by
  rcases ended with ⟨-, rfl, stale⟩
  exact .violated (.stale stale)

theorem Fails.of_fetch {latch : Latch} {page : PageId}
    (ended : s.pool.Bars latch page failure ∨ s.Refused failure s') :
    (Operation.fetch latch page).Fails s failure s' := by
  rcases ended with bars | refused
  · cases bars with
    | blocked blocked => exact .violated (.waits blocked)
    | crowded crowded => exact .violated (.crowds crowded)
  · exact .refused refused

theorem Fails.unless_violated {P : Prop} (fails : operation.Fails s failure s')
    (of_refused : s.Refused failure s' → P) :
    P ∨ ∃ violation, failure = .violation violation := by
  cases fails with
  | refused refused => exact .inl (of_refused refused)
  | violated => exact .inr ⟨_, rfl⟩

theorem Makes.content_of_flush (makes : operation.Makes s s') (flush : operation.isFlush) :
    s'.content = s.content := by
  cases makes with
  | flush kept => exact kept.content
  | flushAll kept => exact kept.content
  | create | fetch | read | write | release | delete => cases flush

end Operation

/-- A storage and the bytes last given to each page. -/
structure Ledger where
  storage : Storage
  last : PageId → Option Page

namespace Ledger

def start (disk : Disk) (pool : Pool) : Ledger :=
    ⟨⟨disk, pool⟩, fun page => some (disk.content page)⟩

/-- An operation that fails may be followed by others, a violated one ends the run. -/
def step (ledger : Ledger) (operation : Operation) : Except Violation Ledger :=
  match operation.perform.run ledger.storage with
  | .ok () storage => .ok ⟨storage, operation.record ledger.storage.pool ledger.last⟩
  | .error (.error _) storage => .ok ⟨storage, ledger.last⟩
  | .error (.violation violation) _ => .error violation

def run (ledger : Ledger) (operations : List Operation) : Except Violation Ledger :=
  operations.foldlM step ledger

structure Invariant (ledger : Ledger) : Prop where
  coherent : ledger.storage.Coherent .nothing
  reads : ∀ page bytes, ledger.last page = some bytes → ledger.storage.content page = bytes

end Ledger

theorem Invariant.guard?_eq {hand : InHand} {pool : Pool} (h : pool.Invariant hand) {guard : Guard}
    (mem : guard ∈ pool.guards) : pool.guard? guard.id = some guard := by
  cases found : pool.guard? guard.id with
  | none =>
    have := List.find?_eq_none.mp found guard mem
    simp at this
  | some other =>
    have same : other.id = guard.id := by simpa using List.find?_some found
    exact congrArg some
      (List.inj_on_of_nodup_map h.guard_ids (List.mem_of_find?_eq_some found) mem same)

theorem reads_update {s s' : Storage} {last : PageId → Option Page} {page : PageId} {bytes : Page}
    (reads : ∀ page bytes, last page = some bytes → s.content page = bytes)
    (content : s'.content = Function.update s.content page bytes) (other : PageId) (found : Page)
    (recorded : Function.update last page (some bytes) other = some found) :
    s'.content other = found := by
  rw [content]
  by_cases here : other = page
  · subst here
    rw [Function.update_self] at recorded ⊢
    exact Option.some.inj recorded
  · rw [Function.update_of_ne here] at recorded ⊢
    exact reads other found recorded

/-- How any operation ends: what a run keeps is read from here. -/
theorem perform_ends {s : Storage} (h : s.Coherent .nothing) (operation : Operation) :
    Ends operation.perform s (fun _ s' => s'.Coherent .nothing ∧ operation.Makes s s')
      (fun failure s' => operation.Fails s failure s') := by
  cases operation with
  | create page =>
    refine Ends.discard_iff.mpr ((create_ends h page).imp ?_ fun _ _ => .refused)
    rintro id s' ⟨coherent, content, took, -⟩
    exact ⟨coherent, .create took content⟩
  | fetch latch page =>
    refine Ends.discard_iff.mpr ((fetch_ends h latch page).imp ?_ fun _ _ => .of_fetch)
    rintro id s' ⟨coherent, content, took⟩
    exact ⟨coherent, .fetch took content⟩
  | read id =>
    refine Ends.discard_iff.mpr ((bytes_ends h id).imp ?_ fun _ _ ended => .of_guard ended)
    rintro bytes _ ⟨rfl, -⟩
    exact ⟨h, .read⟩
  | write id bytes =>
    refine (write_ends h id bytes).imp ?_ fun _ _ ended => .of_guard ended
    rintro _ s' ⟨coherent, ⟨guard, mem, rfl, content⟩, guards, -, size⟩
    exact ⟨coherent, .write mem content guards size⟩
  | release id =>
    refine (release_ends h id).imp ?_ fun _ _ ended => .of_guard ended
    rintro _ s' ⟨coherent, content, -, guards, -, size, table⟩
    exact ⟨coherent, .release content guards table size⟩
  | delete page =>
    refine (delete_ends h page).imp ?_ fun _ _ => .refused
    rintro _ s' ⟨coherent, content, guards, -, size⟩
    exact ⟨coherent, .delete content guards size⟩
  | flush page =>
    refine (flush_ends h page).imp ?_ fun _ _ ended => .of_latch ended
    rintro _ s' ⟨coherent, kept⟩
    exact ⟨coherent, .flush kept⟩
  | flushAll residents =>
    refine (flushInOrder_ends h residents).imp ?_ fun _ _ ended => .of_latch ended
    rintro _ s' ⟨coherent, kept⟩
    exact ⟨coherent, .flushAll kept⟩

theorem Ledger.Invariant.of_makes {ledger : Ledger} (h : ledger.Invariant) {s' : Storage}
    {operation : Operation} (coherent : s'.Coherent .nothing)
    (makes : operation.Makes ledger.storage s') :
    Ledger.Invariant ⟨s', operation.record ledger.storage.pool ledger.last⟩ := by
  have of_content {s' : Storage} (content : s'.content = ledger.storage.content) :
      ∀ page bytes, ledger.last page = some bytes → s'.content page = bytes := by
    rw [content]
    exact h.reads
  refine ⟨coherent, ?_⟩
  cases makes with
  | create took content => exact reads_update h.reads content
  | fetch took content => exact of_content content
  | read => exact h.reads
  | @write guard bytes _ mem content =>
    change ∀ page found, (match ledger.storage.pool.guard? guard.id with
      | some guard => Function.update ledger.last guard.page (some bytes)
      | none => ledger.last) page = some found → s'.content page = found
    rw [h.coherent.pool.guard?_eq mem]
    exact reads_update h.reads content
  | release content => exact of_content content
  | @delete page _ content =>
    intro other bytes recorded
    have apart : other ≠ page := by
      rintro rfl
      simp [Operation.record] at recorded
    refine (content other apart).trans (h.reads other bytes ?_)
    simpa [Operation.record, apart] using recorded
  | flush kept => exact of_content kept.content
  | flushAll kept => exact of_content kept.content

theorem operation_ends {ledger : Ledger} (h : ledger.Invariant) (operation : Operation) :
    Ends operation.perform ledger.storage
      (fun _ s' =>
        Ledger.Invariant ⟨s', operation.record ledger.storage.pool ledger.last⟩ ∧
          (operation.isFlush → s'.content = ledger.storage.content))
      (fun failure s' => ledger.storage.Refused failure s' ∨
        ∃ violation, failure = .violation violation ∧
          operation.Breaks ledger.storage.pool violation) := by
  refine (perform_ends h.coherent operation).imp ?_ ?_
  · rintro _ s' ⟨coherent, makes⟩
    exact ⟨h.of_makes coherent makes, makes.content_of_flush⟩
  · rintro failure s' (refused | breaks)
    · exact .inl refused
    · exact .inr ⟨_, rfl, breaks⟩

theorem start_invariant {disk : Disk} {size : Nat} {pool : Pool} (new : Pool.new size = .ok pool) :
    (Ledger.start disk pool).Invariant := by
  obtain ⟨coherent, content⟩ := new_coherent new disk
  refine ⟨coherent, fun page bytes recorded => ?_⟩
  cases recorded
  exact congrFun content page

theorem Ledger.step_cases {ledger ledger' : Ledger} {operation : Operation}
    (step : ledger.step operation = .ok ledger') :
    (∃ s', operation.perform.run ledger.storage = .ok () s' ∧
      ledger' = ⟨s', operation.record ledger.storage.pool ledger.last⟩) ∨
    ∃ error s', operation.perform.run ledger.storage = .error (.error error) s' ∧
      ledger' = ⟨s', ledger.last⟩ := by
  unfold Ledger.step at step
  cases ran : operation.perform.run ledger.storage with
  | ok _ s' =>
    rw [ran] at step
    cases step
    exact .inl ⟨s', rfl, rfl⟩
  | error failure s' =>
    rw [ran] at step
    cases failure with
    | error error =>
      cases step
      exact .inr ⟨error, s', rfl, rfl⟩
    | violation violation => cases step

theorem step_preserves_invariant {ledger ledger' : Ledger} (h : ledger.Invariant)
    {operation : Operation} (step : ledger.step operation = .ok ledger') : ledger'.Invariant := by
  rcases Ledger.step_cases step with ⟨s', ran, rfl⟩ | ⟨error, s', ran, rfl⟩
  · exact ((operation_ends h operation).of_ok ran).1
  · rcases (operation_ends h operation).of_error ran with refused | ⟨violation, other, -⟩
    · exact ⟨refused.coherent, by rw [refused.kept.content]; exact h.reads⟩
    · cases other

theorem run_preserves_invariant {ledger ledger' : Ledger} (h : ledger.Invariant)
    {operations : List Operation} (run : ledger.run operations = .ok ledger') :
    ledger'.Invariant :=
  foldlM_keeps Ledger.Invariant (fun _ _ _ h step => step_preserves_invariant h step) h run

/-- After any operations, failed or not, each guard shows the bytes last given to its page. No
failure and no flush changes what a page reads as, and an operation is violated only if it waits
for a latch, its guard was let go or its page's frame can count no more pins. -/
theorem transparent_over_disk {disk : Disk} {size : Nat} {pool : Pool}
    (new : Pool.new size = .ok pool) {operations : List Operation} {ledger : Ledger}
    (run : (Ledger.start disk pool).run operations = .ok ledger) :
    (∀ guard ∈ ledger.storage.pool.guards, ∀ bytes, ledger.last guard.page = some bytes →
      (Pool.bytes guard.id).run ledger.storage = .ok bytes ledger.storage) ∧
    ∀ operation : Operation, match operation.perform.run ledger.storage with
      | .ok () s' => operation.isFlush → s'.content = ledger.storage.content
      | .error (.error _) s' => s'.content = ledger.storage.content ∧
          s'.pool.guards = ledger.storage.pool.guards
      | .error (.violation violation) _ => operation.Breaks ledger.storage.pool violation := by
  have invariant := run_preserves_invariant (start_invariant new) run
  constructor
  · intro guard mem bytes recorded
    have ends := bytes_ends invariant.coherent guard.id
    cases ran : (Pool.bytes guard.id).run ledger.storage with
    | ok read s' =>
      obtain ⟨rfl, other, mem', same, rfl⟩ := ends.of_ok ran
      have : other = guard :=
        List.inj_on_of_nodup_map invariant.coherent.pool.guard_ids mem' mem same
      rw [this, invariant.reads guard.page bytes recorded]
    | error failure s' => exact absurd rfl ((ends.of_error ran).2.2 guard mem)
  · intro operation
    have ends := operation_ends invariant operation
    cases ran : operation.perform.run ledger.storage with
    | ok _ s' => exact (ends.of_ok ran).2
    | error failure s' =>
      rcases ends.of_error ran with ⟨⟨fault, rfl, -⟩, -, kept⟩ | ⟨violation, rfl, breaks⟩
      · exact ⟨kept.content, kept.guards⟩
      · exact breaks

def oneFile : Disk :=
  ⟨⟨"db", (∅ : Std.TreeMap SegmentId Path).insert ⟨0⟩ ["db"]⟩,
    ⟨(∅ : Std.TreeMap Path Entry).insert ["db", "segment_0.db"] (.file .empty), []⟩⟩

/-- With one frame, a page that was written makes way for another and is fetched again. -/
def evictAndReload : List Operation :=
  [.create ⟨0⟩, .write ⟨0⟩ (Vector.replicate pageSize 7), .release ⟨0⟩, .create ⟨1⟩,
    .release ⟨1⟩, .fetch .shared ⟨0⟩]

theorem transparent_after_reload : ∃ pool ledger, Pool.new 1 = .ok pool ∧
    (Ledger.start oneFile pool).run evictAndReload = .ok ledger ∧
    ∃ guard ∈ ledger.storage.pool.guards, ∃ bytes, ledger.last guard.page = some bytes ∧
      bytes[0] = 7 ∧ (Pool.bytes guard.id).run ledger.storage = .ok bytes ledger.storage := by
  let check (ledger : Ledger) : Bool :=
    ledger.storage.pool.guards = [⟨⟨2⟩, ⟨0⟩, ⟨0⟩, .shared, false⟩] &&
      (ledger.last ⟨0⟩).any fun bytes => bytes[0] = 7
  obtain ⟨pool, new, checked⟩ : ∃ pool, Pool.new 1 = .ok pool ∧
      ((Ledger.start oneFile pool).run evictAndReload).toOption.any check = true :=
    ⟨_, rfl, by decide +kernel⟩
  cases run : (Ledger.start oneFile pool).run evictAndReload with
  | error violation => rw [run] at checked; cases checked
  | ok ledger =>
    rw [run] at checked
    obtain ⟨guards, seven⟩ := (Bool.and_eq_true _ _).mp checked
    obtain ⟨bytes, recorded, seven⟩ := (Option.any_eq_true _ _).mp seven
    have mem : ⟨⟨2⟩, ⟨0⟩, ⟨0⟩, .shared, false⟩ ∈ ledger.storage.pool.guards := by
      rw [of_decide_eq_true guards]
      exact List.mem_singleton_self _
    exact ⟨pool, ledger, new, run, _, mem, bytes, recorded, of_decide_eq_true seven,
      (transparent_over_disk new run).1 _ mem bytes recorded⟩

end PagedIndex.Pool
