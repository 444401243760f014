import PagedIndex.Proofs.Pool.Transparency

/-!
# How operations end, case by case

An operation that brings a page in takes a free frame, or the victim's once its page was written if
it had to be, or it is refused. `operation_cases` says for each way in which an operation may end
which pool and which disk are left. What neither brings a page in nor drops one leaves the table
and the order of use as they are.
-/

namespace PagedIndex.Pool

open StorageM Storage

theorem mem_table_iff {table : Std.TreeMap PageId FrameId} {page : PageId} :
    page ∈ table ↔ ∃ id, table[page]? = some id := by
  rw [Std.TreeMap.mem_iff_isSome_getElem?, Option.isSome_iff_exists]

/-- The frame an eviction would take, and the page in it. -/
def victim? (pool : Pool) : Option (FrameId × PageId) :=
  pool.recency.victim.bind fun id => (pool.frame id).page.map fun page => (id, page)

/-- What has to be written before a frame may be taken from its page. -/
def saves (pool : Pool) (id : FrameId) (page : PageId) : DiskM Unit :=
  if (pool.frame id).dirty then Disk.writePage page (pool.frame id).bytes else pure ()

def saved (id : FrameId) (pool : Pool) : Pool :=
  if (pool.frame id).dirty then wrote id pool else pool

def vacated (id : FrameId) (page : PageId) (pool : Pool) : Pool :=
  mapFrame id Frame.clear (tally (fun c => { c with evictions := c.evictions + 1 })
    { saved id pool with
      recency := pool.recency.remove id
      table := pool.table.erase page })

def retained (id : FrameId) (pool : Pool) : Pool :=
  { pool with recency := ((pool.recency.remove id).access id).setEvictable id true }

/-- The frame holds no page now: it was free, or its page was taken from it. -/
inductive Emptied (s : Storage) (id : FrameId) : Storage → Prop where
  | free {rest : List FrameId} (free : s.pool.free = id :: rest) :
      Emptied s id ⟨s.disk, { s.pool with free := rest }⟩
  | evicted {page : PageId} {disk : Disk} (free : s.pool.free = [])
      (victim : s.pool.victim? = some (id, page))
      (written : (saves s.pool id page).run s.disk = .ok () disk) :
      Emptied s id ⟨disk, vacated id page s.pool⟩

/-- No frame was to be had: all have pins, or the victim's page could not be written. -/
inductive Denied (s : Storage) : Failure → Storage → Prop where
  | full (free : s.pool.free = []) (victim : s.pool.victim? = none) :
      Denied s (.error (.storage .noFreeFrames)) s
  | kept {id : FrameId} {page : PageId} {fault : StorageFault} {disk : Disk}
      (free : s.pool.free = []) (victim : s.pool.victim? = some (id, page))
      (refused : (saves s.pool id page).run s.disk = .error fault disk) :
      Denied s (.error (.storage fault)) ⟨disk, retained id s.pool⟩

/-- Pages stay in their frames and in the order of their use. Of the counters only that of the
pages written may go up. -/
structure Unmoved (pool pool' : Pool) : Prop where
  table : pool'.table = pool.table
  stamps : pool'.recency.stamps = pool.recency.stamps
  counters : ∃ written, pool'.counters = { pool.counters with pagesWritten := written }

namespace Operation

/-- The page that an operation brings in if it is not there. -/
def wanted? : Operation → Option PageId
  | create page | fetch _ page => some page
  | read _ | write _ _ | release _ | delete _ | flush _ | flushAll _ => none

/-- The pool that is asked for a frame: the fetch of a page that is not there is a miss. -/
def asked (pool : Pool) : Operation → Pool
  | fetch _ _ => tally (fun c => { c with cacheMisses := c.cacheMisses + 1 }) pool
  | create _ | read _ | write _ _ | release _ | delete _ | flush _ | flushAll _ => pool

/-- The operation neither brings a page in nor drops one. -/
def Passive : Operation → Prop
  | read _ | write _ _ | release _ | flush _ | flushAll _ => True
  | create _ | fetch _ _ | delete _ => False

inductive Done (s : Storage) : Operation → Storage → Prop where
  | hit {latch : Latch} {page : PageId} {id : FrameId} {guards : List Guard} {nextGuard : Nat}
      (resident : s.pool.table[page]? = some id) :
      Done s (.fetch latch page) ⟨s.disk,
        { tally (fun c => { c with cacheHits := c.cacheHits + 1 })
            (trackPinned id (mapFrame id Frame.pin s.pool)) with guards, nextGuard }⟩
  | loaded {latch : Latch} {page : PageId} {id : FrameId} {t : Storage} {bytes : Page}
      {disk : Disk} {guards : List Guard} {nextGuard : Nat} (absent : page ∉ s.pool.table)
      (emptied : Emptied ⟨s.disk, asked s.pool (.fetch latch page)⟩ id t)
      (hand : t.pool.Invariant (.emptied id))
      (read : (Disk.readPage page).run t.disk = .ok bytes disk) :
      Done s (.fetch latch page) ⟨disk,
        { Pool.bind id page (some bytes) false
            (tally (fun c => { c with pagesRead := c.pagesRead + 1 }) t.pool) with
          guards, nextGuard }⟩
  | created {page : PageId} {id : FrameId} {t : Storage} {guards : List Guard} {nextGuard : Nat}
      (absent : page ∉ s.pool.table) (emptied : Emptied s id t)
      (hand : t.pool.Invariant (.emptied id)) :
      Done s (.create page) ⟨t.disk,
        { tally (fun c => { c with pagesCreated := c.pagesCreated + 1 })
            (Pool.bind id page none true t.pool) with guards, nextGuard }⟩
  | dropped {page : PageId} {id : FrameId} (resident : s.pool.table[page]? = some id) :
      Done s (.delete page) ⟨s.disk, { mapFrame id Frame.clear s.pool with
        table := s.pool.table.erase page
        recency := s.pool.recency.remove id
        free := id :: s.pool.free }⟩
  | nothing {page : PageId} (absent : page ∉ s.pool.table) : Done s (.delete page) s
  | unmoved {operation : Operation} {s' : Storage} (passive : operation.Passive)
      (unmoved : s.pool.Unmoved s'.pool) : Done s operation s'

inductive Failed (s : Storage) : Operation → Failure → Storage → Prop where
  | resident {page : PageId} (resident : page ∈ s.pool.table) :
      Failed s (.create page) (.error (.storage (.pageAlreadyResident page))) s
  | denied {operation : Operation} {page : PageId} {failure : Failure} {t : Storage}
      (wanted : operation.wanted? = some page) (absent : page ∉ s.pool.table)
      (denied : Denied ⟨s.disk, operation.asked s.pool⟩ failure t) : Failed s operation failure t
  | unread {latch : Latch} {page : PageId} {id : FrameId} {t : Storage} {fault : StorageFault}
      {disk : Disk} (absent : page ∉ s.pool.table)
      (emptied : Emptied ⟨s.disk, asked s.pool (.fetch latch page)⟩ id t)
      (refused : (Disk.readPage page).run t.disk = .error fault disk) :
      Failed s (.fetch latch page) (.error (.storage fault))
        ⟨disk, { t.pool with free := id :: t.pool.free }⟩
  | pinned {page : PageId} (resident : page ∈ s.pool.table) :
      Failed s (.delete page) (.error (.storage (.pagePinned page))) s
  | unmoved {operation : Operation} {failure : Failure} {s' : Storage}
      (passive : operation.Passive) (unmoved : s.pool.Unmoved s'.pool) :
      Failed s operation failure s'
  | violated {operation : Operation} {violation : Violation} {s' : Storage} :
      Failed s operation (.violation violation) s'

end Operation

variable {s : Storage}

theorem Operation.Passive.wanted?_eq {operation : Operation} (passive : operation.Passive) :
    operation.wanted? = none := by
  cases operation with
  | create page => exact passive.elim
  | fetch latch page => exact passive.elim
  | delete page => exact passive.elim
  | read id => rfl
  | write id bytes => rfl
  | release id => rfl
  | flush page => rfl
  | flushAll residents => rfl

theorem Operation.eq_of_wanted {operation : Operation} {page : PageId}
    (wanted : operation.wanted? = some page) :
    operation = .create page ∨ ∃ latch, operation = .fetch latch page := by
  cases operation with
  | create other => cases wanted; exact .inl rfl
  | fetch latch other => cases wanted; exact .inr ⟨latch, rfl⟩
  | read id => cases wanted
  | write id bytes => cases wanted
  | release id => cases wanted
  | delete other => cases wanted
  | flush other => cases wanted
  | flushAll residents => cases wanted

theorem asked_eq (pool : Pool) (operation : Operation) :
    ∃ counters, operation.asked pool = { pool with counters } := by
  cases operation <;> exact ⟨_, rfl⟩

theorem asked_invariant {pool : Pool} (h : pool.Invariant .nothing) (operation : Operation) :
    (operation.asked pool).Invariant .nothing := by
  obtain ⟨counters, asked⟩ := asked_eq pool operation
  rw [asked]
  exact h.tally fun _ => counters

theorem victim_bound {pool : Pool} (h : pool.Invariant .nothing) {id : FrameId} {page : PageId}
    (victim : pool.victim? = some (id, page)) :
    pool.recency.victim = some id ∧ pool.table[page]? = some id ∧ (pool.frame id).pins = 0 := by
  obtain ⟨found, first, here⟩ := Option.bind_eq_some_iff.mp victim
  obtain ⟨bound, there, same⟩ := Option.map_eq_some_iff.mp here
  cases same
  exact ⟨first, (h.bound page id).mpr there,
    ((h.evictable id).mp (Recency.victim_evictable first)).2⟩

theorem victim?_of_first {pool : Pool} (h : pool.Invariant .nothing) {id : FrameId}
    (first : pool.recency.victim = some id) :
    ∃ page, pool.victim? = some (id, page) ∧ (pool.frame id).page = some page ∧
      pool.writeLatched id = false := by
  obtain ⟨bound, idle⟩ := (h.evictable id).mp (Recency.victim_evictable first)
  obtain ⟨page, bound⟩ := Option.ne_none_iff_exists'.mp bound
  refine ⟨page, ?_, bound, ?_⟩
  · rw [victim?, first, Option.bind_some, bound]
    rfl
  · apply List.any_eq_false.mpr
    intro guard mem latched
    exact h.unguarded idle mem (of_decide_eq_true latched).1

theorem saved_table (id : FrameId) (pool : Pool) : (saved id pool).table = pool.table := by
  unfold saved
  split <;> rfl

theorem saved_recency (id : FrameId) (pool : Pool) (recency : Recency) :
    saved id { pool with recency } = { saved id pool with recency } := by
  unfold saved
  rw [show frame { pool with recency } id = pool.frame id from rfl]
  split <;> rfl

theorem writeBack_cases {id : FrameId} {page : PageId} (bound : (s.pool.frame id).page = some page)
    (unlatched : s.pool.writeLatched id = false) :
    Ends (writeBack id page) s
      (fun _ s' => ∃ disk, (saves s.pool id page).run s.disk = .ok () disk ∧
        s' = ⟨disk, saved id s.pool⟩)
      (fun failure s' => ∃ fault disk, (saves s.pool id page).run s.disk = .error fault disk ∧
        failure = .error (.storage fault) ∧ s' = ⟨disk, s.pool⟩) := by
  simp only [writeBack, Ends.bind_iff, pool_iff, unlatched, bound, true_and, Bool.false_eq_true,
    if_false]
  by_cases dirty : (s.pool.frame id).dirty = true
  · rw [if_pos dirty, saves, if_pos dirty, saved, if_pos dirty, Ends.bind_iff]
    apply onDisk_ends
    apply (Ends.run_eq _ _).imp
    · intro _ disk written
      exact ⟨disk, written, rfl⟩
    · intro fault disk refused
      exact ⟨fault, disk, refused, rfl, rfl⟩
  · rw [if_neg dirty, saves, if_neg dirty, saved, if_neg dirty]
    exact ⟨s.disk, rfl, rfl⟩

theorem evict_cases (h : s.Coherent .nothing) (free : s.pool.free = []) :
    Ends evict s (fun id s' => Emptied s id s') (fun failure s' => Denied s failure s') := by
  simp only [evict, Ends.bind_iff, pool_iff, Recency.evict]
  cases found : s.pool.recency.victim with
  | none => exact .full free (by rw [victim?, found]; rfl)
  | some id =>
    obtain ⟨page, victim, bound, unlatched⟩ := victim?_of_first h.pool found
    let t : Storage := ⟨s.disk, { s.pool with recency := s.pool.recency.remove id }⟩
    have bound' : (t.pool.frame id).page = some page := bound
    simp only [Option.map_some, Ends.bind_iff, mapPool_iff, pool_iff]
    rw [show ({ s.pool with recency := s.pool.recency.remove id } : Pool).frame id =
      t.pool.frame id from rfl, bound']
    simp only [Ends.bind_iff, mapPool_iff, Ends.tryCatch_iff, Ends.throw_iff]
    apply (writeBack_cases (s := t) bound' unlatched).imp
    · intro _ s' ended
      obtain ⟨disk, written, rfl⟩ := ended
      rw [saved_recency]
      change Emptied s id ⟨disk, mapFrame id Frame.clear (tally _ { saved id s.pool with
        recency := s.pool.recency.remove id
        table := (saved id s.pool).table.erase page })⟩
      rw [saved_table]
      exact .evicted free victim written
    · intro failure s' ended
      obtain ⟨fault, disk, refused, rfl, rfl⟩ := ended
      exact .kept free victim refused

theorem acquireFrame_cases (h : s.Coherent .nothing) :
    Ends acquireFrame s (fun id s' => Emptied s id s' ∧ s'.pool.Invariant (.emptied id))
      (fun failure s' => Denied s failure s') := by
  have cases : Ends acquireFrame s (fun id s' => Emptied s id s')
      (fun failure s' => Denied s failure s') := by
    simp only [acquireFrame, Ends.bind_iff, pool_iff]
    cases free : s.pool.free with
    | nil => exact evict_cases h free
    | cons id rest => exact .free free
  exact (cases.and (acquireFrame_ends h)).imp (fun _ _ ended => ⟨ended.1, ended.2.1.pool⟩)
    fun _ _ ended => ended.1

theorem takeGuard_cases (latch : Latch) (page : PageId) (frame : FrameId) (s : Storage) :
    Ends (takeGuard latch page frame) s
      (fun _ s' => ∃ guards nextGuard, s' = ⟨s.disk, { s.pool with guards, nextGuard }⟩)
      (fun failure _ => ∃ violation, failure = .violation violation) := by
  simp only [takeGuard, Ends.bind_iff, pool_iff]
  split
  · exact ⟨_, rfl⟩
  · exact ⟨_, _, rfl⟩

theorem load_cases {page : PageId} (h : s.Coherent .nothing) (absent : page ∉ s.pool.table)
    (latch : Latch) :
    Ends (load page) s
      (fun id s' => ∃ t bytes disk,
        Emptied ⟨s.disk, Operation.asked s.pool (.fetch latch page)⟩ id t ∧
        t.pool.Invariant (.emptied id) ∧ (Disk.readPage page).run t.disk = .ok bytes disk ∧
        s' = ⟨disk, Pool.bind id page (some bytes) false
          (tally (fun c => { c with pagesRead := c.pagesRead + 1 }) t.pool)⟩)
      (fun failure s' => Operation.Failed s (.fetch latch page) failure s') := by
  simp only [load, Ends.bind_iff, mapPool_iff]
  obtain ⟨start, -⟩ := tally_coherent h fun c => { c with cacheMisses := c.cacheMisses + 1 }
  apply (acquireFrame_cases start).imp
  · intro id t ended
    obtain ⟨emptied, hand⟩ := ended
    simp only [Ends.tryCatch_iff, Ends.bind_iff, mapPool_iff, Ends.throw_iff, Ends.pure_iff]
    apply onDisk_ends
    apply (Ends.run_eq _ _).imp
    · intro bytes disk read
      exact ⟨t, bytes, disk, emptied, hand, read, rfl⟩
    · intro fault disk refused
      exact .unread (t := t) absent emptied refused
  · intro failure t denied
    exact .denied rfl absent denied

theorem fetch_cases (h : s.Coherent .nothing) (latch : Latch) (page : PageId) :
    Ends (fetch latch page) s (fun _ s' => Operation.Done s (.fetch latch page) s')
      (fun failure s' => Operation.Failed s (.fetch latch page) failure s') := by
  rw [fetch, Ends.bind_iff, pinPage_iff]
  cases resident : s.pool.table[page]? with
  | some id =>
    dsimp only
    split
    · exact .violated
    apply (takeGuard_cases latch page id _).imp
    · intro _ s' ended
      obtain ⟨guards, nextGuard, rfl⟩ := ended
      exact .hit resident
    · intro failure s' ended
      obtain ⟨violation, rfl⟩ := ended
      exact .violated
  | none =>
    have absent : page ∉ s.pool.table := by simpa using resident
    apply (load_cases h absent latch).imp
    · intro id u ended
      obtain ⟨t, bytes, disk, emptied, hand, read, rfl⟩ := ended
      apply (takeGuard_cases latch page id _).imp
      · intro _ s' ended
        obtain ⟨guards, nextGuard, rfl⟩ := ended
        exact .loaded absent emptied hand read
      · intro failure s' ended
        obtain ⟨violation, rfl⟩ := ended
        exact .violated
    · exact fun _ _ failed => failed

theorem create_cases (h : s.Coherent .nothing) (page : PageId) :
    Ends (create page) s (fun _ s' => Operation.Done s (.create page) s')
      (fun failure s' => Operation.Failed s (.create page) failure s') := by
  simp only [create, Ends.bind_iff, pool_iff]
  by_cases resident : page ∈ s.pool.table
  · rw [if_pos resident]
    exact .resident resident
  · rw [if_neg resident]
    simp only [Ends.bind_iff, mapPool_iff]
    apply (acquireFrame_cases h).imp
    · intro id t ended
      obtain ⟨emptied, hand⟩ := ended
      apply (takeGuard_cases .exclusive page id _).imp
      · intro _ s' ended
        obtain ⟨guards, nextGuard, rfl⟩ := ended
        exact .created resident emptied hand
      · intro failure s' ended
        obtain ⟨violation, rfl⟩ := ended
        exact .violated
    · intro failure t denied
      exact .denied rfl resident denied

theorem delete_cases (page : PageId) (s : Storage) :
    Ends (delete page) s (fun _ s' => Operation.Done s (.delete page) s')
      (fun failure s' => Operation.Failed s (.delete page) failure s') := by
  simp only [delete, Ends.bind_iff, pool_iff]
  cases resident : s.pool.table[page]? with
  | none => exact .nothing (by simpa using resident)
  | some id =>
    simp only [Ends.bind_iff, pool_iff]
    split
    · exact .pinned (mem_table_iff.mpr ⟨id, resident⟩)
    · exact .dropped resident

namespace Unmoved

variable {pool pool' pool'' : Pool}

theorem refl (pool : Pool) : pool.Unmoved pool := ⟨rfl, rfl, _, rfl⟩

theorem trans (h : pool.Unmoved pool') (h' : pool'.Unmoved pool'') : pool.Unmoved pool'' := by
  obtain ⟨_, counted⟩ := h.counters
  obtain ⟨written, counted'⟩ := h'.counters
  exact ⟨h'.table.trans h.table, h'.stamps.trans h.stamps, written, by rw [counted', counted]⟩

end Unmoved

theorem writeBack_unmoved (id : FrameId) (page : PageId) (s : Storage) :
    Ends (writeBack id page) s (fun _ s' => s.pool.Unmoved s'.pool)
      (fun _ s' => s.pool.Unmoved s'.pool) := by
  simp only [writeBack, Ends.bind_iff, pool_iff]
  split
  · exact .refl _
  · split
    · rw [Ends.bind_iff]
      apply onDisk_ends
      apply (Ends.run_eq _ _).imp
      · intro _ disk _
        exact ⟨rfl, rfl, _, rfl⟩
      · intro _ disk _
        exact .refl _
    · exact .refl _

theorem unpin_unmoved (id : FrameId) (dirty : Bool) (s : Storage) :
    Ends (unpin id dirty) s (fun _ s' => s.pool.Unmoved s'.pool)
      (fun _ s' => s.pool.Unmoved s'.pool) := by
  have clean (t : Storage) : Ends (unpin id false) t (fun _ s' => t.pool.Unmoved s'.pool)
      (fun _ s' => t.pool.Unmoved s'.pool) := by
    change Ends (pool >>= _) t _ _
    simp only [Ends.bind_iff, pool_iff]
    split
    · exact .refl _
    · simp only [Ends.bind_iff, mapPool_iff]
      split
      · exact ⟨rfl, Recency.stamps_setEvictable .., _, rfl⟩
      · exact ⟨rfl, rfl, _, rfl⟩
  cases dirty with
  | false => exact clean s
  | true =>
    have marked : s.pool.Unmoved (mapFrame id Frame.markDirty s.pool) := ⟨rfl, rfl, _, rfl⟩
    exact (clean ⟨s.disk, mapFrame id Frame.markDirty s.pool⟩).imp (fun _ _ => marked.trans)
      fun _ _ => marked.trans

theorem flushInOrder_unmoved (residents : List (PageId × FrameId)) (s : Storage) :
    Ends (flushInOrder residents) s (fun _ s' => s.pool.Unmoved s'.pool)
      (fun _ s' => s.pool.Unmoved s'.pool) := by
  rw [flushInOrder, Ends.bind_iff]
  apply (Ends.forM_keeps (fun t => s.pool.Unmoved t.pool) (.refl _) _).imp
  · intro _ t unmoved
    apply onDisk_ends
    exact (Ends.run_eq _ _).imp (fun _ _ _ => unmoved) fun _ _ _ => unmoved
  · exact fun _ _ unmoved => unmoved
  · intro resident _ t unmoved
    exact (writeBack_unmoved resident.2 resident.1 t).imp (fun _ _ => unmoved.trans)
      fun _ _ => unmoved.trans

theorem passive_unmoved {operation : Operation} (passive : operation.Passive) (s : Storage) :
    Ends operation.perform s (fun _ s' => s.pool.Unmoved s'.pool)
      (fun _ s' => s.pool.Unmoved s'.pool) := by
  have of_same {t : Storage} (same : t = s) : s.pool.Unmoved t.pool := by
    rw [same]
    exact .refl _
  cases operation with
  | create page => exact passive.elim
  | fetch latch page => exact passive.elim
  | delete page => exact passive.elim
  | read id =>
    simp only [Operation.perform, bytes, Ends.discard_iff, Ends.bind_iff, pool_iff, Ends.pure_iff]
    exact (heldGuard_ends id s).imp (fun _ _ ended => of_same ended.1)
      fun _ _ ended => of_same ended.1
  | write id bytes =>
    simp only [Operation.perform, write, Ends.bind_iff, mapPool_iff]
    apply (heldGuard_ends id s).imp
    · intro guard t ended
      obtain ⟨rfl, -⟩ := ended
      exact ⟨rfl, rfl, _, rfl⟩
    · exact fun _ _ ended => of_same ended.1
  | release id =>
    simp only [Operation.perform, release, Ends.bind_iff, mapPool_iff]
    apply (heldGuard_ends id s).imp
    · intro guard t ended
      obtain ⟨rfl, -⟩ := ended
      have dropped : t.pool.Unmoved
          { t.pool with guards := t.pool.guards.filter (·.id ≠ id) } := ⟨rfl, rfl, _, rfl⟩
      exact (unpin_unmoved guard.frame guard.dirty ⟨t.disk, _⟩).imp (fun _ _ => dropped.trans)
        fun _ _ => dropped.trans
    · exact fun _ _ ended => of_same ended.1
  | flush page =>
    simp only [Operation.perform, flush, Ends.bind_iff, pool_iff]
    split
    · exact writeBack_unmoved _ page s
    · exact .refl _
  | flushAll residents => exact flushInOrder_unmoved residents s

theorem operation_cases (h : s.Coherent .nothing) (operation : Operation) :
    Ends operation.perform s (fun _ s' => operation.Done s s')
      (fun failure s' => operation.Failed s failure s') := by
  have of_passive (passive : operation.Passive) : Ends operation.perform s
      (fun _ s' => operation.Done s s') (fun failure s' => operation.Failed s failure s') :=
    (passive_unmoved passive s).imp (fun _ _ => .unmoved passive) fun _ _ => .unmoved passive
  cases operation with
  | create page => exact Ends.discard_iff.mpr (create_cases h page)
  | fetch latch page => exact Ends.discard_iff.mpr (fetch_cases h latch page)
  | delete page => exact delete_cases page s
  | read id => exact of_passive trivial
  | write id bytes => exact of_passive trivial
  | release id => exact of_passive trivial
  | flush page => exact of_passive trivial
  | flushAll residents => exact of_passive trivial

end PagedIndex.Pool
