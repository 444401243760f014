import Mathlib.Algebra.Order.Ring.Nat
import PagedIndex.Proofs.Pool.Elsewhere
import PagedIndex.Proofs.Pool.Outcomes
import PagedIndex.Proofs.Pool.Watching

/-!
# The counters of a pool balance

An audit keeps, beside a storage whose disk is watched, the operations that were carried out, each
with the pools before and after it. What an operation counts as can be read off these: a fetch is a
hit or a miss, and a page that is gone after an operation that dropped none was evicted. The
counters are the numbers of these events, and pages that came in are still there, were evicted or
were dropped.
-/

namespace PagedIndex.Pool

open Storage

/-- An operation, the pools before and after it, and whether it succeeded. -/
structure Event where
  operation : Operation
  before : Pool
  after : Pool
  succeeded : Bool

/-- What an operation may count as. -/
structure Kinds where
  hit : Bool := false
  miss : Bool := false
  load : Bool := false
  creation : Bool := false
  eviction : Bool := false
  removal : Bool := false

namespace Event

def lost (event : Event) : Bool :=
  event.before.table.toList.any fun resident => resident.1 ∉ event.after.table

def isFetch (event : Event) : Bool :=
  match event.operation with
  | .fetch _ _ => true
  | .create _ | .read _ | .write _ _ | .release _ | .delete _ | .flush _ | .flushAll _ => false

def kinds (event : Event) : Kinds :=
  match event.operation with
  | .fetch _ page =>
    { hit := page ∈ event.before.table
      miss := page ∉ event.before.table
      load := page ∉ event.before.table && event.succeeded
      eviction := event.lost }
  | .create _ => { creation := event.succeeded, eviction := event.lost }
  | .delete page => { removal := page ∈ event.before.table && event.succeeded }
  | .read _ | .write _ _ | .release _ | .flush _ | .flushAll _ => { eviction := event.lost }

def isFailedMiss (event : Event) : Bool := event.kinds.miss && !event.succeeded

end Event

/-- What happened to a storage whose disk is watched, the last event first. -/
structure Audit where
  storage : Storage WatchedDisk
  events : List Event

namespace Audit

def start (disk : Disk) (pool : Pool) : Audit := ⟨⟨⟨disk, []⟩, pool⟩, []⟩

def step (audit : Audit) (operation : Operation) : Except Violation Audit :=
  let event (storage : Storage WatchedDisk) (succeeded : Bool) : Event :=
    ⟨operation, audit.storage.pool, storage.pool, succeeded⟩
  match operation.perform.run audit.storage with
  | .ok () storage => .ok ⟨storage, event storage true :: audit.events⟩
  | .error (.error _) storage => .ok ⟨storage, event storage false :: audit.events⟩
  | .error (.violation violation) _ => .error violation

def run (audit : Audit) (operations : List Operation) : Except Violation Audit :=
  operations.foldlM step audit

def count (audit : Audit) (kind : Kinds → Bool) : Nat :=
  audit.events.countP fun event => kind event.kinds

abbrev counters (audit : Audit) : Counters := audit.storage.pool.counters

/-- No counter has come round. -/
structure Bounded (audit : Audit) : Prop where
  hits : audit.count Kinds.hit < 2 ^ 64
  misses : audit.count Kinds.miss < 2 ^ 64
  created : audit.count Kinds.creation < 2 ^ 64
  evictions : audit.count Kinds.eviction < 2 ^ 64
  read : audit.count Kinds.load < 2 ^ 64
  written : audit.storage.disk.written.length < 2 ^ 64

/-- What the counters say of the events and of each other. -/
structure Balanced (audit : Audit) : Prop where
  fetches : audit.counters.cacheHits.toNat + audit.counters.cacheMisses.toNat =
    audit.events.countP Event.isFetch
  reads : audit.counters.pagesRead.toNat + audit.events.countP Event.isFailedMiss =
    audit.counters.cacheMisses.toNat
  created : audit.counters.pagesCreated.toNat = audit.count Kinds.creation
  evicted : audit.counters.evictions.toNat = audit.count Kinds.eviction
  written : audit.counters.pagesWritten.toNat = audit.storage.disk.written.length
  residents : audit.counters.pagesCreated.toNat + audit.counters.pagesRead.toNat =
    audit.storage.pool.residentCount + audit.counters.evictions.toNat +
      audit.count Kinds.removal

end Audit

namespace Event

def charge (kinds : Kinds) (written : UInt64) (counters : Counters) : Counters where
  cacheHits := counters.cacheHits + .ofNat kinds.hit.toNat
  cacheMisses := counters.cacheMisses + .ofNat kinds.miss.toNat
  pagesCreated := counters.pagesCreated + .ofNat kinds.creation.toNat
  evictions := counters.evictions + .ofNat kinds.eviction.toNat
  pagesRead := counters.pagesRead + .ofNat kinds.load.toNat
  pagesWritten := written

def brought (operation : Operation) (succeeded : Bool) (counters : Counters) : Counters :=
  match operation with
  | .create _ => { counters with pagesCreated := counters.pagesCreated + .ofNat succeeded.toNat }
  | .fetch _ _ => { counters with pagesRead := counters.pagesRead + .ofNat succeeded.toNat }
  | .read _ | .write _ _ | .release _ | .delete _ | .flush _ | .flushAll _ => counters

/-- The counters and the number of resident pages change as the kinds of the event say. -/
structure Accounted (event : Event) : Prop where
  counters : ∃ written, event.after.counters = charge event.kinds written event.before.counters
  residents : event.before.residentCount + event.kinds.creation.toNat + event.kinds.load.toNat =
    event.after.residentCount + event.kinds.eviction.toNat + event.kinds.removal.toNat

theorem lost_iff {event : Event} :
    event.lost = true ↔ ∃ page ∈ event.before.table, page ∉ event.after.table := by
  simp only [lost, List.any_eq_true, decide_eq_true_eq, Prod.exists,
    Std.TreeMap.mem_toList_iff_getElem?_eq_some]
  constructor
  · intro found
    obtain ⟨page, id, mapped, gone⟩ := found
    exact ⟨page, mem_table_iff.mpr ⟨id, mapped⟩, gone⟩
  · intro found
    obtain ⟨page, resident, gone⟩ := found
    obtain ⟨id, mapped⟩ := mem_table_iff.mp resident
    exact ⟨page, id, mapped, gone⟩

theorem lost_eq {event : Event} {gone : Bool}
    (iff : gone = true ↔ ∃ page ∈ event.before.table, page ∉ event.after.table) :
    event.lost = gone := by
  rw [Bool.eq_iff_iff, lost_iff, iff]

theorem lost_of_same {event : Event} (same : event.after.table = event.before.table) :
    event.lost = false := by
  apply lost_eq
  rw [same]
  simp

theorem Accounted.of_kinds {event : Event} (kinds : Kinds) (written : UInt64)
    (same : event.kinds = kinds)
    (counters : event.after.counters = charge kinds written event.before.counters)
    (residents : event.before.residentCount + kinds.creation.toNat + kinds.load.toNat =
      event.after.residentCount + kinds.eviction.toNat + kinds.removal.toNat) :
    event.Accounted :=
  ⟨⟨written, by rw [same, counters]⟩, by rw [same, residents]⟩

end Event

section Accounts

variable {s s' t : Storage} {operation : Operation} {id : FrameId}

/-- What became of the frame that was emptied: it was free or a page lost it. -/
structure Cleared (gone : Bool) (pool pool' : Pool) : Prop where
  counters : ∃ written, pool'.counters = { pool.counters with
    evictions := pool.counters.evictions + .ofNat gone.toNat, pagesWritten := written }
  residents : pool.residentCount = pool'.residentCount + gone.toNat
  subset : ∀ page ∈ pool'.table, page ∈ pool.table
  lost : gone = true ↔ ∃ page ∈ pool.table, page ∉ pool'.table

theorem size_erase_of_mem {table : Std.TreeMap PageId FrameId} {page : PageId}
    (resident : page ∈ table) : table.size = (table.erase page).size + 1 := by
  have occupied := Std.TreeMap.isEmpty_eq_false_iff_exists_mem.mpr ⟨page, resident⟩
  rw [Std.TreeMap.isEmpty_eq_size_eq_zero] at occupied
  have some_page : table.size ≠ 0 := by simpa using occupied
  rw [Std.TreeMap.size_erase, if_pos (Std.TreeMap.contains_iff_mem.mpr resident)]
  omega

theorem size_insert_of_not_mem {table : Std.TreeMap PageId FrameId} {page : PageId}
    (absent : page ∉ table) : (table.insert page id).size = table.size + 1 := by
  rw [Std.TreeMap.size_insert, if_neg (mt Std.TreeMap.contains_iff_mem.mp absent)]

theorem Emptied.cleared (h : s.pool.Invariant .nothing) (emptied : Emptied s id t) :
    ∃ gone, Cleared gone s.pool t.pool := by
  cases emptied with
  | free =>
    refine ⟨false, ⟨s.pool.counters.pagesWritten, ?_⟩, rfl, fun _ resident => resident, ?_⟩
    · simp
    · simp
  | @evicted page _ free victim written =>
    have resident := mem_table_iff.mpr ⟨id, (victim_bound h victim).2.1⟩
    refine ⟨true, ?_, size_erase_of_mem resident, fun _ => Std.TreeMap.mem_of_mem_erase, ?_⟩
    · rw [vacated, saved]
      split
      · exact ⟨_, rfl⟩
      · exact ⟨_, rfl⟩
    · refine ⟨fun _ => ⟨page, resident, fun still => ?_⟩, fun _ => rfl⟩
      exact (Std.TreeMap.mem_erase.mp still).1 Std.ReflCmp.compare_self

theorem Denied.cleared {failure : Failure} (denied : Denied s failure t) :
    Cleared false s.pool t.pool := by
  have same {recency : Recency} : Cleared false s.pool { s.pool with recency } := by
    refine ⟨⟨s.pool.counters.pagesWritten, ?_⟩, rfl, fun _ resident => resident, ?_⟩
    · simp
    · simp
  cases denied with
  | full => exact same
  | kept => exact same

theorem Cleared.lost_eq {gone : Bool} {event : Event} {page : PageId} {pool pool' : Pool}
    (h : Cleared gone pool pool') (before : event.before.table = pool.table)
    (absent : page ∉ pool.table) (kept : ∀ other ∈ pool'.table, other ∈ event.after.table)
    (came : ∀ other ∈ event.after.table, other ∈ pool'.table ∨ other = page) :
    event.lost = gone := by
  apply Event.lost_eq
  rw [h.lost, before]
  constructor
  · intro lost
    obtain ⟨other, resident, gone⟩ := lost
    refine ⟨other, resident, fun still => ?_⟩
    rcases came other still with there | same
    · exact gone there
    · exact absent (same ▸ resident)
  · intro lost
    obtain ⟨other, resident, gone⟩ := lost
    exact ⟨other, resident, fun there => gone (kept other there)⟩

end Accounts

namespace Event.Accounted

open Operation

variable {s s' t : Storage} {operation : Operation} {id : FrameId} {page : PageId} {latch : Latch}

theorem of_still {event : Event} (table : event.after.table = event.before.table)
    (counters : ∃ written,
      event.after.counters = { event.before.counters with pagesWritten := written })
    (kinds : event.lost = false → event.kinds = {}) : event.Accounted := by
  obtain ⟨written, counters⟩ := counters
  apply of_kinds {} written (kinds (lost_of_same table))
  · rw [counters]
    simp [charge]
  · rw [residentCount, residentCount, table]

/-- An event that brings a page in, or fails to, counts as a creation or as a load if it succeeds.
It may be an eviction in either case. -/
theorem of_taken {before after pool : Pool} {succeeded gone : Bool}
    (wanted : operation.wanted? = some page) (absent : page ∉ before.table)
    (cleared : Cleared gone (operation.asked before) pool)
    (counters : after.counters = brought operation succeeded pool.counters)
    (residents : after.residentCount = pool.residentCount + succeeded.toNat)
    (kept : ∀ other ∈ pool.table, other ∈ after.table)
    (came : ∀ other ∈ after.table, other ∈ pool.table ∨ other = page) :
    Event.Accounted ⟨operation, before, after, succeeded⟩ := by
  obtain ⟨written, counted⟩ := cleared.counters
  have unasked : (operation.asked before).table = before.table := by
    obtain ⟨_, asked⟩ := asked_eq before operation
    rw [asked]
  have lost : lost ⟨operation, before, after, succeeded⟩ = gone :=
    cleared.lost_eq unasked.symm (unasked ▸ absent) kept came
  have emptied : before.residentCount = pool.residentCount + gone.toNat := by
    rw [← cleared.residents, residentCount, residentCount, unasked]
  rcases Operation.eq_of_wanted wanted with rfl | ⟨latch, rfl⟩
  · apply of_kinds { creation := succeeded, eviction := gone } written
    · simp [kinds, lost]
    · rw [counters, counted]
      simp [brought, asked, charge]
    · change before.residentCount + succeeded.toNat + 0 = after.residentCount + gone.toNat + 0
      omega
  · apply of_kinds { miss := true, load := succeeded, eviction := gone } written
    · simp [kinds, absent, lost]
    · rw [counters, counted]
      simp [brought, asked, tally, charge]
    · change before.residentCount + 0 + succeeded.toNat = after.residentCount + gone.toNat + 0
      omega

theorem of_bound {before after pool : Pool} {gone : Bool}
    (wanted : operation.wanted? = some page) (absent : page ∉ before.table)
    (cleared : Cleared gone (operation.asked before) pool)
    (counters : after.counters = brought operation true pool.counters)
    (table : after.table = pool.table.insert page id) :
    Event.Accounted ⟨operation, before, after, true⟩ := by
  have mem (other : PageId) : other ∈ after.table ↔ other ∈ pool.table ∨ other = page := by
    rw [table, Std.TreeMap.mem_insert, Std.LawfulEqCmp.compare_eq_iff_eq, or_comm, eq_comm]
  apply of_taken wanted absent cleared counters
  · rw [residentCount, residentCount, table]
    apply size_insert_of_not_mem
    intro resident
    obtain ⟨_, asked⟩ := asked_eq before operation
    have resident := cleared.subset page resident
    rw [asked] at resident
    exact absent resident
  · exact fun other resident => (mem other).mpr (.inl resident)
  · exact fun other => (mem other).mp

theorem of_refused {before after pool : Pool} {gone : Bool}
    (wanted : operation.wanted? = some page) (absent : page ∉ before.table)
    (cleared : Cleared gone (operation.asked before) pool)
    (counters : after.counters = pool.counters) (table : after.table = pool.table) :
    Event.Accounted ⟨operation, before, after, false⟩ := by
  apply of_taken wanted absent cleared
  · rw [counters]
    cases operation <;> simp [brought]
  · rw [residentCount, residentCount, table]
    rfl
  · exact fun other resident => table ▸ resident
  · exact fun other resident => .inl (table ▸ resident)

theorem kinds_of_passive {event : Event} (passive : event.operation.Passive)
    (lost : event.lost = false) : event.kinds = {} := by
  obtain ⟨operation, before, after, succeeded⟩ := event
  cases operation with
  | create page => exact passive.elim
  | fetch latch page => exact passive.elim
  | delete page => exact passive.elim
  | read id => simp [kinds, lost]
  | write id bytes => simp [kinds, lost]
  | release id => simp [kinds, lost]
  | flush page => simp [kinds, lost]
  | flushAll residents => simp [kinds, lost]

theorem of_hit {before after : Pool} {succeeded : Bool} (resident : page ∈ before.table)
    (table : after.table = before.table)
    (counters : after.counters =
      { before.counters with cacheHits := before.counters.cacheHits + 1 }) :
    Event.Accounted ⟨.fetch latch page, before, after, succeeded⟩ := by
  have lost : lost ⟨.fetch latch page, before, after, succeeded⟩ = false := lost_of_same table
  apply of_kinds { hit := true } before.counters.pagesWritten
  · simp [kinds, resident, lost]
  · rw [counters]
    simp [charge]
  · rw [residentCount, residentCount, table]

theorem of_removal {before after : Pool} (resident : page ∈ before.table)
    (table : after.table = before.table.erase page) (counters : after.counters = before.counters) :
    Event.Accounted ⟨.delete page, before, after, true⟩ := by
  apply of_kinds { removal := true } before.counters.pagesWritten
  · simp [kinds, resident]
  · rw [counters]
    simp [charge]
  · rw [residentCount, residentCount, table, size_erase_of_mem resident]
    rfl

theorem of_done (h : s.pool.Invariant .nothing) (done : Done s operation s') :
    Event.Accounted ⟨operation, s.pool, s'.pool, true⟩ := by
  cases done with
  | hit resident => exact of_hit (mem_table_iff.mpr ⟨_, resident⟩) rfl rfl
  | @loaded latch page _ _ _ _ _ _ absent emptied hand read =>
    obtain ⟨gone, cleared⟩ := emptied.cleared (asked_invariant h (.fetch latch page))
    exact of_bound rfl absent cleared rfl rfl
  | created absent emptied hand =>
    obtain ⟨gone, cleared⟩ := emptied.cleared h
    exact of_bound rfl absent cleared rfl rfl
  | dropped resident => exact of_removal (mem_table_iff.mpr ⟨_, resident⟩) rfl rfl
  | nothing absent => exact of_still rfl ⟨_, rfl⟩ fun _ => by simp [kinds, absent]
  | unmoved passive unmoved =>
    exact of_still unmoved.table unmoved.counters (kinds_of_passive passive)

theorem of_failed {error : Error} (h : s.pool.Invariant .nothing)
    (failed : Failed s operation (.error error) s') :
    Event.Accounted ⟨operation, s.pool, s'.pool, false⟩ := by
  cases failed with
  | resident resident => exact of_still rfl ⟨_, rfl⟩ fun lost => by simp [kinds, lost]
  | denied wanted absent denied => exact of_refused wanted absent denied.cleared rfl rfl
  | @unread latch page _ _ _ _ absent emptied refused =>
    obtain ⟨gone, cleared⟩ := emptied.cleared (asked_invariant h (.fetch latch page))
    exact of_refused rfl absent cleared rfl rfl
  | pinned resident => exact of_still rfl ⟨_, rfl⟩ fun _ => by simp [kinds]
  | unmoved passive unmoved =>
    exact of_still unmoved.table unmoved.counters (kinds_of_passive passive)

end Event.Accounted

namespace Audit

/-- The counters and the resident pages are those that the events tell of. -/
structure Invariant (audit : Audit) : Prop where
  coherent : audit.storage.unwatched.Coherent .nothing
  faithful : audit.storage.Faithful
  hits : audit.counters.cacheHits = .ofNat (audit.count Kinds.hit)
  misses : audit.counters.cacheMisses = .ofNat (audit.count Kinds.miss)
  created : audit.counters.pagesCreated = .ofNat (audit.count Kinds.creation)
  evicted : audit.counters.evictions = .ofNat (audit.count Kinds.eviction)
  read : audit.counters.pagesRead = .ofNat (audit.count Kinds.load)
  residents : audit.count Kinds.creation + audit.count Kinds.load =
    audit.storage.pool.residentCount + audit.count Kinds.eviction +
      audit.count Kinds.removal

theorem count_cons (audit : Audit) (storage : Storage WatchedDisk) (event : Event)
    (kind : Kinds → Bool) : count ⟨storage, event :: audit.events⟩ kind =
      audit.count kind + (kind event.kinds).toNat := by
  rw [count, count, List.countP_cons]
  cases kind event.kinds <;> rfl

theorem Invariant.add {audit : Audit} (h : audit.Invariant) {storage : Storage WatchedDisk}
    {event : Event} (before : event.before = audit.storage.pool)
    (after : event.after = storage.pool) (accounted : event.Accounted)
    (coherent : storage.unwatched.Coherent .nothing) (faithful : storage.Faithful) :
    Invariant ⟨storage, event :: audit.events⟩ := by
  obtain ⟨⟨written, counters⟩, residents⟩ := accounted
  rw [before, after] at counters residents
  have counted := count_cons audit storage event
  constructor
  case coherent => exact coherent
  case faithful => exact faithful
  case hits =>
    rw [counted, UInt64.ofNat_add, ← h.hits]
    exact congrArg Counters.cacheHits counters
  case misses =>
    rw [counted, UInt64.ofNat_add, ← h.misses]
    exact congrArg Counters.cacheMisses counters
  case created =>
    rw [counted, UInt64.ofNat_add, ← h.created]
    exact congrArg Counters.pagesCreated counters
  case evicted =>
    rw [counted, UInt64.ofNat_add, ← h.evicted]
    exact congrArg Counters.evictions counters
  case read =>
    rw [counted, UInt64.ofNat_add, ← h.read]
    exact congrArg Counters.pagesRead counters
  case residents =>
    have balance := h.residents
    rw [counted, counted, counted, counted]
    change _ = storage.pool.residentCount + _ + _
    omega

theorem start_invariant {disk : Disk} {size : Nat} {pool : Pool}
    (new : Pool.new size = .ok pool) : (start disk pool).Invariant := by
  have coherent : (start disk pool).storage.unwatched.Coherent .nothing := (new_coherent new disk).1
  unfold Pool.new at new
  split at new
  · cases new
  · cases new
    exact ⟨coherent, rfl, rfl, rfl, rfl, rfl, rfl, rfl⟩

theorem step_follows {ledger ledger' : Ledger} {audit : Audit} {operation : Operation}
    (h : audit.Invariant) (same : audit.storage.unwatched = ledger.storage)
    (step : ledger.step operation = .ok ledger') :
    ∃ audit', audit.step operation = .ok audit' ∧ audit'.storage.unwatched = ledger'.storage ∧
      audit'.Invariant := by
  have cases := operation_cases h.coherent operation
  have watches := perform_watches operation audit.storage h.faithful
  unfold Ledger.step at step
  rw [← same] at step
  unfold Audit.step
  cases ran : operation.perform.run audit.storage with
  | ok _ storage =>
    obtain ⟨plain, faithful⟩ := watches.of_ok ran
    have coherent := coherent_of_leaves h.coherent (.of_ok plain)
    rw [plain] at step
    cases step
    exact ⟨_, rfl, rfl, h.add rfl rfl (.of_done h.coherent.pool (cases.of_ok plain)) coherent
      faithful⟩
  | error failure storage =>
    obtain ⟨plain, faithful⟩ := watches.of_error ran
    cases failure with
    | violation violation =>
      rw [plain] at step
      cases step
    | error error =>
      have coherent := coherent_of_leaves h.coherent (.of_error plain)
      rw [plain] at step
      cases step
      exact ⟨_, rfl, rfl, h.add rfl rfl (.of_failed h.coherent.pool (cases.of_error plain))
        coherent faithful⟩

theorem run_follows {ledger ledger' : Ledger} {audit : Audit} {operations : List Operation}
    (h : audit.Invariant) (same : audit.storage.unwatched = ledger.storage)
    (run : ledger.run operations = .ok ledger') :
    ∃ audit', audit.run operations = .ok audit' ∧ audit'.storage.unwatched = ledger'.storage ∧
      audit'.Invariant := by
  induction operations generalizing ledger audit with
  | nil =>
    cases run
    exact ⟨audit, rfl, same, h⟩
  | cons operation rest ih =>
    rw [Ledger.run, List.foldlM_cons] at run
    cases first : ledger.step operation with
    | error violation => rw [first] at run; cases run
    | ok next =>
      rw [first] at run
      obtain ⟨audit', step, same', h'⟩ := step_follows h same first
      obtain ⟨audit'', run', last⟩ := ih h' same' run
      refine ⟨audit'', ?_, last⟩
      rw [Audit.run, List.foldlM_cons, step]
      exact run'

theorem countP_eq_add {p q r : Event → Bool}
    (parts : ∀ event, (p event).toNat = (q event).toNat + (r event).toNat) (events : List Event) :
    events.countP p = events.countP q + events.countP r := by
  have cons (p : Event → Bool) (event : Event) (rest : List Event) :
      (event :: rest).countP p = rest.countP p + (p event).toNat := by
    rw [List.countP_cons]
    cases p event <;> rfl
  induction events with
  | nil => rfl
  | cons event rest ih =>
    rw [cons, cons, cons, ih, parts]
    omega

theorem isFetch_parts (event : Event) :
    event.isFetch.toNat = event.kinds.hit.toNat + event.kinds.miss.toNat := by
  obtain ⟨operation, before, after, succeeded⟩ := event
  cases operation with
  | fetch latch page =>
    by_cases resident : page ∈ before.table <;> simp [Event.isFetch, Event.kinds, resident]
  | create page => rfl
  | read id => rfl
  | write id bytes => rfl
  | release id => rfl
  | delete page => rfl
  | flush page => rfl
  | flushAll residents => rfl

theorem miss_parts (event : Event) :
    event.kinds.miss.toNat = event.kinds.load.toNat + event.isFailedMiss.toNat := by
  obtain ⟨operation, before, after, succeeded⟩ := event
  cases operation with
  | fetch latch page => cases succeeded <;> simp [Event.isFailedMiss, Event.kinds]
  | create page => rfl
  | read id => rfl
  | write id bytes => rfl
  | release id => rfl
  | delete page => rfl
  | flush page => rfl
  | flushAll residents => rfl

theorem Invariant.balanced {audit : Audit} (h : audit.Invariant) (bounded : audit.Bounded) :
    audit.Balanced := by
  have exact_count {counter : UInt64} {count : Nat} (counted : counter = .ofNat count)
      (small : count < 2 ^ 64) : counter.toNat = count := by
    rw [counted, UInt64.toNat_ofNat', Nat.mod_eq_of_lt small]
  have hits := exact_count h.hits bounded.hits
  have misses := exact_count h.misses bounded.misses
  have created := exact_count h.created bounded.created
  have evicted := exact_count h.evicted bounded.evictions
  have read := exact_count h.read bounded.read
  have written := exact_count h.faithful bounded.written
  constructor
  case fetches =>
    rw [hits, misses]
    exact (countP_eq_add isFetch_parts audit.events).symm
  case reads =>
    rw [read, misses]
    exact (countP_eq_add miss_parts audit.events).symm
  case created => exact created
  case evicted => exact evicted
  case written => exact written
  case residents =>
    rw [created, read, evicted]
    exact h.residents

end Audit

/-- Over any run of a new pool, whichever operations failed, the counters that have not come round
are those of an audit of the run. -/
theorem counters_balance {disk : Disk} {size : Nat} {pool : Pool} (new : Pool.new size = .ok pool)
    {operations : List Operation} {ledger : Ledger}
    (run : (Ledger.start disk pool).run operations = .ok ledger) :
    ∃ audit, (Audit.start disk pool).run operations = .ok audit ∧
      audit.storage.unwatched = ledger.storage ∧ (audit.Bounded → audit.Balanced) := by
  obtain ⟨audit, ran, same, invariant⟩ := Audit.run_follows (Audit.start_invariant new) rfl run
  exact ⟨audit, ran, same, invariant.balanced⟩

/-- With one frame, two pages are created and a third is not on disk. The first page is fetched
before and after, and then dropped. -/
def everyKind : List Operation :=
  [.create ⟨0⟩, .release ⟨0⟩, .fetch .shared ⟨0⟩, .release ⟨1⟩, .create ⟨1⟩, .release ⟨2⟩,
    .fetch .shared ⟨9⟩, .fetch .shared ⟨0⟩, .release ⟨3⟩, .delete ⟨0⟩]

theorem every_kind_balances : ∃ pool ledger audit, Pool.new 1 = .ok pool ∧
    (Ledger.start oneFile pool).run everyKind = .ok ledger ∧
    (Audit.start oneFile pool).run everyKind = .ok audit ∧
    audit.storage.unwatched = ledger.storage ∧ audit.Balanced ∧
    audit.counters = ⟨1, 2, 2, 2, 1, 2⟩ ∧ audit.storage.disk.written = [⟨1⟩, ⟨0⟩] := by
  let check (audit : Audit) : Bool :=
    audit.count Kinds.hit = 1 ∧ audit.count Kinds.miss = 2 ∧ audit.count Kinds.creation = 2 ∧
      audit.count Kinds.eviction = 2 ∧ audit.count Kinds.load = 1 ∧
      audit.counters = ⟨1, 2, 2, 2, 1, 2⟩ ∧ audit.storage.disk.written = [⟨1⟩, ⟨0⟩]
  obtain ⟨pool, new, checked⟩ : ∃ pool, Pool.new 1 = .ok pool ∧
      ((Ledger.start oneFile pool).run everyKind).toOption.isSome = true ∧
      ((Audit.start oneFile pool).run everyKind).toOption.any check = true :=
    ⟨_, rfl, by decide +kernel, by decide +kernel⟩
  cases run : (Ledger.start oneFile pool).run everyKind with
  | error violation => rw [run] at checked; cases checked.1
  | ok ledger =>
    obtain ⟨audit, ran, same, balanced⟩ := counters_balance new run
    rw [ran] at checked
    obtain ⟨hit, miss, creation, eviction, load, counters, written⟩ :=
      of_decide_eq_true checked.2
    have bounded : audit.Bounded := by
      constructor
      case hits => rw [hit]; decide
      case misses => rw [miss]; decide
      case created => rw [creation]; decide
      case evictions => rw [eviction]; decide
      case read => rw [load]; decide
      case written => rw [written]; decide
    exact ⟨pool, ledger, audit, new, run, ran, same, balanced bounded, counters, written⟩

end PagedIndex.Pool
