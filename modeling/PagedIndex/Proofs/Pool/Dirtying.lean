import PagedIndex.Proofs.Pool.Flushing

/-!
# What makes a page dirty

A page is dirty once it was created, or once a guard that wrote it was let go. Nothing else makes
one dirty: a page that is fetched comes in clean, and one that is evicted is clean or gone. So as
long as a caller has its guards, the pages that are dirty or will be when it lets go are those that
were dirty before, and those that it created or wrote.
-/

namespace PagedIndex

namespace Pool

/-- The page is dirty, or will be when the guards with this number or a later one are let go. -/
def Stained (mark : Nat) (pool : Pool) (page : PageId) : Prop :=
  pool.Dirty page ∨
    ∃ guard ∈ pool.guards, mark ≤ guard.id.index ∧ guard.page = page ∧ guard.dirty = true

theorem Stained.of_unguarded {mark : Nat} {pool : Pool} {page : PageId}
    (before : ∀ guard ∈ pool.guards, guard.id.index < mark) (stained : pool.Stained mark page) :
    pool.Dirty page :=
  stained.resolve_right fun ⟨guard, mem, since, _⟩ =>
    Nat.not_lt_of_le since (before guard mem)

end Pool

namespace Storage

/-- Only pages that were soiled have become dirty. -/
def Soils (soiled : PageId → Prop) (s s' : Storage) : Prop :=
  ∀ page, s'.pool.Dirty page → s.pool.Dirty page ∨ soiled page

abbrev Clean (s s' : Storage) : Prop := s.Soils (fun _ => False) s'

namespace Soils

variable {soiled : PageId → Prop} {s s' s'' : Storage}

theorem of_clean (h : s.Clean s') : s.Soils soiled s' :=
  fun page dirty => (h page dirty).imp_right False.elim

theorem trans (h : s.Soils soiled s') (h' : s'.Soils soiled s'') : s.Soils soiled s'' :=
  fun page dirty => (h' page dirty).elim (h page) .inr

theorem of_fewer (table : ∀ (page : PageId) (id : FrameId),
      s'.pool.table[page]? = some id → s.pool.table[page]? = some id)
    (dirty : ∀ id, (s'.pool.frame id).dirty = true → (s.pool.frame id).dirty = true) :
    s.Clean s' :=
  fun page ⟨id, resident, newer⟩ => .inl ⟨id, table page id resident, dirty id newer⟩

theorem of_table (table : s'.pool.table = s.pool.table)
    (dirty : ∀ id, (s'.pool.frame id).dirty = true → (s.pool.frame id).dirty = true) :
    s.Clean s' :=
  of_fewer (fun _ _ resident => table ▸ resident) dirty

theorem refl (s : Storage) : s.Clean s := of_table rfl fun _ newer => newer

theorem of_pool (pool : s'.pool = s.pool) : s.Clean s' :=
  of_table (by rw [pool]) fun _ newer => pool ▸ newer

theorem of_bind {disk : Disk} {pool : Pool} {id : FrameId} {page : PageId} {bytes : Option Page}
    {dirty : Bool} (hand : pool.Invariant (.emptied id)) :
    Soils (fun other => other = page ∧ dirty = true) ⟨disk, pool⟩
      ⟨disk, Pool.bind id page bytes dirty pool⟩ := by
  obtain ⟨inside, unbound⟩ := hand.in_range id rfl
  have frames := Pool.Invariant.frame_bind inside page bytes dirty
  rintro other ⟨at_frame, resident, newer⟩
  rw [show (Pool.bind id page bytes dirty pool).table = pool.table.insert page id from rfl,
    Std.TreeMap.getElem?_insert] at resident
  split at resident
  · rename_i same
    cases resident
    simp only [frames, if_pos] at newer
    exact .inr ⟨(Std.LawfulEqCmp.compare_eq_iff_eq.mp same).symm, newer⟩
  · have apart : at_frame ≠ id := by
      rintro rfl
      have there := (hand.bound other at_frame).mp resident
      rw [unbound] at there
      cases there
    simp only [frames, if_neg apart] at newer
    exact .inl ⟨at_frame, resident, newer⟩

end Soils

end Storage

namespace Pool

open StorageM Storage

variable {s : Storage}

theorem dirty_of_mapFrame {pool : Pool} {id other : FrameId} {f : Frame → Frame}
    (same : ∀ frame, (f frame).dirty = true → frame.dirty = true)
    (newer : ((mapFrame id f pool).frame other).dirty = true) :
    (pool.frame other).dirty = true := by
  rw [frame_mapFrame] at newer
  split at newer
  · exact same _ newer
  · exact newer

theorem writeBack_clean (id : FrameId) (page : PageId) (s : Storage) :
    Ends (writeBack id page) s (fun _ s' => s.Clean s') (fun _ s' => s.Clean s') := by
  refine ((writeBack_ends id page s).and (writeBack_serves id page s)).imp ?_ ?_
  · rintro - s' ⟨⟨rfl, -⟩ | ⟨-, -, pool⟩, -⟩
    · exact .refl _
    · refine .of_table (by rw [pool]; rfl) fun other newer => ?_
      rw [pool] at newer
      exact dirty_of_mapFrame (f := Frame.clearDirty) nofun newer
  · rintro failure s' ⟨-, -, pool, -⟩
    exact .of_pool pool

theorem evict_clean (s : Storage) :
    Ends evict s (fun _ s' => s.Clean s') (fun _ s' => s.Clean s') := by
  simp only [evict, Ends.bind_iff, pool_iff]
  cases s.pool.recency.evict with
  | none => exact .refl s
  | some found =>
    obtain ⟨victim, recency⟩ := found
    simp only [Ends.bind_iff, mapPool_iff, pool_iff]
    have start : s.Clean ⟨s.disk, { s.pool with recency }⟩ := .of_table rfl fun _ newer => newer
    have emptied {t : Storage} (h : s.Clean t) :
        s.Clean ⟨t.disk, mapFrame victim Frame.clear
          (tally (fun c => { c with evictions := c.evictions + 1 }) t.pool)⟩ :=
      h.trans (.of_table rfl fun _ newer => dirty_of_mapFrame (f := Frame.clear)
        (fun _ dirty => absurd dirty Bool.false_ne_true) newer)
    split
    · rename_i page _
      simp only [Ends.bind_iff, mapPool_iff, Ends.tryCatch_iff, Ends.throw_iff]
      refine (writeBack_clean victim page _).imp (fun _ t clean => ?_) fun _ t clean => ?_
      · refine emptied (t := ⟨t.disk, { t.pool with table := t.pool.table.erase page }⟩)
          ((start.trans clean).trans (.of_fewer (fun other id resident => ?_) fun _ newer => newer))
        rw [Std.TreeMap.getElem?_erase] at resident
        split at resident
        · cases resident
        · exact resident
      · exact (start.trans clean).trans (.of_table rfl fun _ newer => newer)
    · exact emptied start

theorem acquireFrame_clean (s : Storage) :
    Ends acquireFrame s (fun _ s' => s.Clean s') (fun _ s' => s.Clean s') := by
  simp only [acquireFrame, Ends.bind_iff, pool_iff]
  cases s.pool.free with
  | nil => exact evict_clean s
  | cons id rest => exact .of_table rfl fun _ newer => newer

theorem load_clean (h : s.Coherent .nothing) (page : PageId) :
    Ends (load page) s (fun _ s' => s.Clean s') (fun _ s' => s.Clean s') := by
  simp only [load, Ends.bind_iff, mapPool_iff]
  obtain ⟨start, -⟩ := tally_coherent h fun c => { c with cacheMisses := c.cacheMisses + 1 }
  have counted : s.Clean ⟨s.disk, tally
      (fun c => { c with cacheMisses := c.cacheMisses + 1 }) s.pool⟩ :=
    .of_table rfl fun _ newer => newer
  refine ((acquireFrame_ends start).and (acquireFrame_clean _)).imp ?_
    fun _ _ ended => counted.trans ended.2
  rintro id t ⟨⟨emptied, -, -⟩, clean⟩
  simp only [Ends.tryCatch_iff, Ends.bind_iff, mapPool_iff, Ends.throw_iff, Ends.pure_iff]
  refine onDisk_ends ((Ends.run_eq (Disk.readPage page) t.disk).imp ?_ ?_)
  · intro bytes disk _
    have read : s.Clean ⟨disk, tally (fun c => { c with pagesRead := c.pagesRead + 1 }) t.pool⟩ :=
      (counted.trans clean).trans (.of_table rfl fun _ newer => newer)
    refine read.trans fun other dirty => ?_
    exact (Soils.of_bind (emptied.pool.tally _) other dirty).imp_right fun soiled =>
      Bool.noConfusion soiled.2
  · intro fault disk _
    exact (counted.trans clean).trans (.of_table rfl fun _ newer => newer)

theorem pinPage_clean (h : s.Coherent .nothing) (page : PageId) :
    Ends (pinPage page) s (fun _ s' => s.Clean s') (fun _ s' => s.Clean s') := by
  rw [pinPage_iff]
  split
  · split
    · exact .refl s
    · exact .of_table rfl fun _ newer =>
        dirty_of_mapFrame (f := Frame.pin) (fun _ same => same) newer
  · exact load_clean h page

theorem takeGuard_clean (latch : Latch) (page : PageId) (frame : FrameId) (s : Storage) :
    Ends (takeGuard latch page frame) s (fun _ s' => s.Clean s') (fun _ s' => s.Clean s') := by
  simp only [takeGuard, Ends.bind_iff, pool_iff]
  split
  · exact .refl s
  · exact .of_table rfl fun _ newer => newer

theorem fetch_clean (h : s.Coherent .nothing) (latch : Latch) (page : PageId) :
    Ends (fetch latch page) s (fun _ s' => s.Clean s') (fun _ s' => s.Clean s') := by
  rw [fetch, Ends.bind_iff]
  refine (pinPage_clean h page).imp (fun frame t clean => ?_) fun _ _ clean => clean
  exact (takeGuard_clean latch page frame t).imp (fun _ _ taken => clean.trans taken)
    fun _ _ taken => clean.trans taken

theorem create_soils (h : s.Coherent .nothing) (page : PageId) :
    Ends (create page) s (fun _ s' => s.Soils (· = page) s' ∧ s'.pool.Dirty page)
      (fun _ s' => s.Clean s') := by
  have created : Ends (create page) s (fun _ s' => s.Soils (· = page) s' ∧ s'.pool.Dirty page)
      (fun failure s' => failure = .violation .latchHeld ∨ s.Clean s') := by
    simp only [create, Ends.bind_iff, pool_iff]
    split
    · exact .inr (.refl s)
    · simp only [Ends.bind_iff]
      refine ((acquireFrame_ends h).and (acquireFrame_clean s)).imp ?_ fun _ _ ended => .inr ended.2
      rintro frame t ⟨⟨emptied, -, -⟩, clean⟩
      simp only [mapPool_iff, takeGuard, Ends.bind_iff, pool_iff]
      split
      · exact .inl rfl
      · refine ⟨(Soils.of_clean clean).trans fun other dirty => ?_, frame, ?_, ?_⟩
        · exact (Soils.of_bind emptied.pool other dirty).imp_right And.left
        · exact Std.TreeMap.getElem?_insert_self
        · have frames := Invariant.frame_bind (emptied.pool.in_range frame rfl).1 page none true
          exact congrArg Frame.dirty ((frames frame).trans (if_pos rfl))
  refine (created.and (create_ends h page)).imp (fun _ _ ended => ended.1) ?_
  rintro failure s' ⟨rfl | clean, refused⟩
  · obtain ⟨fault, violated, -⟩ := refused.fault
    cases violated
  · exact clean

variable {mark : Nat} {guard : Guard}

theorem stained_of_took {latch : Latch} {page : PageId} {id : GuardId} {s' : Storage}
    (took : s.Took latch page id s') {other : PageId} (stained : s'.pool.Stained mark other) :
    s.pool.Stained mark other ∨ s'.pool.Dirty other := by
  obtain ⟨frame, guards⟩ := took.guards
  refine stained.elim .inr ?_
  rintro ⟨guard, mem, since, here, newer⟩
  rw [guards] at mem
  rcases List.mem_cons.mp mem with rfl | mem
  · cases newer
  · exact .inl (.inr ⟨guard, mem, since, here, newer⟩)

theorem stained_of_kept {s' : Storage} (kept : s.Kept s') (clean : s.Clean s') {page : PageId}
    (stained : s'.pool.Stained mark page) : s.pool.Stained mark page := by
  refine stained.imp (fun dirty => (clean page dirty).resolve_right id) ?_
  rw [kept.guards]
  exact fun listed => listed

theorem write_stains (h : s.Coherent .nothing) (mem : guard ∈ s.pool.guards)
    (since : mark ≤ guard.id.index) (bytes : Page) :
    Ends (write guard.id bytes) s
      (fun _ s' => ∀ page, s'.pool.Stained mark page ↔
        s.pool.Stained mark page ∨ page = guard.page)
      (fun _ _ => True) := by
  simp only [write, Ends.bind_iff, mapPool_iff]
  refine (heldGuard_ends guard.id s).imp ?_ fun _ _ _ => trivial
  rintro other t ⟨rfl, mem', same⟩ page
  obtain rfl : other = guard := List.inj_on_of_nodup_map h.pool.guard_ids mem' mem same
  have frames (id : FrameId) :
      ((mapFrame other.frame (fun frame => { frame with bytes }) t.pool).frame id).dirty =
        (t.pool.frame id).dirty := by
    rw [frame_mapFrame]; split <;> rfl
  have dirty : (mapFrame other.frame (fun frame => { frame with bytes }) t.pool).Dirty page ↔
      t.pool.Dirty page :=
    exists_congr fun id => by rw [frames]; rfl
  change (mapFrame other.frame (fun frame => { frame with bytes }) t.pool).Dirty page ∨ _ ↔ _
  rw [dirty, Stained, or_assoc]
  refine or_congr_right ⟨?_, ?_⟩
  · rintro ⟨_, listed, later, here, newer⟩
    obtain ⟨guard, among, rfl⟩ := List.mem_map.mp listed
    by_cases same : guard.id = other.id
    · obtain rfl := List.inj_on_of_nodup_map h.pool.guard_ids among mem same
      rw [if_pos rfl] at here
      exact .inr here.symm
    · rw [if_neg same] at later here newer
      exact .inl ⟨guard, among, later, here, newer⟩
  · rintro (⟨guard, listed, later, here, newer⟩ | rfl)
    · refine ⟨marked other.id guard, List.mem_map_of_mem listed, ?_, ?_, ?_⟩
      · rw [marked_id]; exact later
      · rw [marked_page]; exact here
      · rw [marked]; split
        · rfl
        · exact newer
    · refine ⟨marked other.id other, List.mem_map_of_mem mem, ?_, marked_page _ _, ?_⟩
      · rw [marked_id]; exact since
      · rw [marked, if_pos rfl]

theorem release_stains (h : s.Coherent .nothing) (mem : guard ∈ s.pool.guards)
    (since : mark ≤ guard.id.index) :
    Ends (release guard.id) s
      (fun _ s' => ∀ page, s'.pool.Stained mark page ↔ s.pool.Stained mark page)
      (fun _ _ => True) := by
  simp only [release, Ends.bind_iff, mapPool_iff]
  refine (heldGuard_ends guard.id s).imp ?_ fun _ _ _ => trivial
  rintro other t ⟨rfl, mem', same⟩
  obtain rfl : other = guard := List.inj_on_of_nodup_map h.pool.guard_ids mem' mem same
  have bound := h.pool.guard_page other mem
  have resident := (h.pool.bound _ _).mpr bound
  refine (unpin_ends (s := ⟨t.disk, _⟩) (h.pool.drop_guard mem)
    (show (t.pool.frame other.frame).page ≠ none by simp [bound]) other.dirty).imp ?_
    fun _ _ never => never.elim
  intro _ s' unpinned page
  have table : s'.pool.table = t.pool.table := unpinned.table
  have guards : s'.pool.guards = t.pool.guards.filter (·.id ≠ other.id) := unpinned.guards
  constructor
  · rintro (⟨id, at_page, newer⟩ | ⟨guard, listed, later, here, newer⟩)
    · rw [table] at at_page
      rw [unpinned.frames] at newer
      split at newer
      · rename_i at_frame
        subst at_frame
        rcases Bool.or_eq_true_iff.mp newer with newer | wrote
        · exact .inl ⟨_, at_page, newer⟩
        · have there := (h.pool.bound page _).mp at_page
          rw [bound] at there
          exact .inr ⟨other, mem, since, Option.some.inj there, wrote⟩
      · exact .inl ⟨id, at_page, newer⟩
    · rw [guards] at listed
      exact .inr ⟨guard, List.mem_of_mem_filter listed, later, here, newer⟩
  · rintro (⟨id, at_page, newer⟩ | ⟨guard, listed, later, here, newer⟩)
    · refine .inl ⟨id, table ▸ at_page, ?_⟩
      rw [unpinned.frames]
      split
      · rename_i at_frame
        subst at_frame
        exact Bool.or_eq_true_iff.mpr (.inl newer)
      · exact newer
    · by_cases same : guard.id = other.id
      · obtain rfl := List.inj_on_of_nodup_map h.pool.guard_ids listed mem same
        refine .inl ⟨guard.frame, by rw [table, ← here]; exact resident, ?_⟩
        rw [unpinned.frames, if_pos rfl]
        exact Bool.or_eq_true_iff.mpr (.inr newer)
      · refine .inr ⟨guard, ?_, later, here, newer⟩
        rw [guards]
        exact List.mem_filter.mpr ⟨listed, decide_eq_true same⟩

end Pool

end PagedIndex
