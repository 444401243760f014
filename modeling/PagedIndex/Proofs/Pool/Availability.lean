import Mathlib.Data.List.Perm.Subperm
import PagedIndex.Proofs.DiskService
import PagedIndex.Proofs.Pool.Elsewhere
import PagedIndex.Proofs.Pool.Representation

/-!
# Pages that can be had

A page is available if it is in a frame or on disk. Whatever is evicted, loaded or written in
between, and whichever operation fails, a page stays available until it is dropped. So on a steady
disk a pool hands out an available page unless every frame has pins or a guard is in the way.
-/

namespace PagedIndex

def Pool.Bound (pool : Pool) : Prop := ∀ (page : PageId) (id : FrameId),
  pool.table[page]? = some id ↔ (pool.frame id).page = some page

def Disk.Blamed (disk : Disk) (failure : Failure) : Prop :=
  ¬ disk.Steady ∧ ∃ cause, failure = .error (.storage (.io cause))

theorem Disk.Blamed.imp {disk disk' : Disk} {failure : Failure} (blamed : disk'.Blamed failure)
    (steady : disk.Steady → disk'.Steady) : disk.Blamed failure :=
  ⟨fun before => blamed.1 (steady before), blamed.2⟩

namespace Storage

/-- The page is in a frame or on disk. -/
def Available (s : Storage) (page : PageId) : Prop := page ∈ s.pool.table ∨ s.disk.Holds page

/-- A page that need not be written back is on disk. -/
def Backed (s : Storage) : Prop := ∀ (page : PageId) (id : FrameId),
  s.pool.table[page]? = some id → (s.pool.frame id).dirty = false → s.disk.Holds page

/-- Available pages stay so, apart from those that are gone, and only those come in that came. -/
structure Lasts (came gone : PageId → Prop) (s s' : Storage) : Prop where
  disk : s.disk.Follows s'.disk
  backed : s'.Backed
  available : ∀ page, s.Available page → gone page ∨ s'.Available page
  residents : ∀ page ∈ s'.pool.table, page ∈ s.pool.table ∨ came page

abbrev Stays (s s' : Storage) : Prop := s.Lasts (fun _ => False) (fun _ => False) s'

/-- No frame can be had: every one has pins, or the disk is at fault. -/
def Short (s : Storage) (failure : Failure) : Prop :=
  s.disk.Blamed failure ∨ failure = .error (.storage .noFreeFrames) ∧ s.pool.Exhausted

theorem Short.imp {s s' : Storage} {failure : Failure} (short : s'.Short failure)
    (steady : s.disk.Steady → s'.disk.Steady) (pinned : s'.pool.Exhausted → s.pool.Exhausted) :
    s.Short failure :=
  Or.imp (fun blamed => blamed.imp steady) (fun all => ⟨all.1, pinned all.2⟩) short

namespace Lasts

variable {came came' gone gone' : PageId → Prop} {s s' s'' : Storage}

theorem trans (h : s.Lasts came gone s') (h' : s'.Lasts came gone s'') :
    s.Lasts came gone s'' := by
  refine ⟨h.disk.trans h'.disk, h'.backed, fun page there => ?_, fun page resident => ?_⟩
  · exact (h.available page there).elim .inl (h'.available page)
  · exact (h'.residents page resident).elim (h.residents page) .inr

theorem imp (h : s.Lasts came gone s') (more : ∀ page, came page → came' page)
    (less : ∀ page, gone page → gone' page) : s.Lasts came' gone' s' :=
  ⟨h.disk, h.backed, fun page there => (h.available page there).imp (less page) fun there => there,
    fun page resident => (h.residents page resident).imp (fun there => there) (more page)⟩

theorem of_stays (h : s.Stays s') : s.Lasts came gone s' :=
  h.imp (fun _ => False.elim) fun _ => False.elim

theorem still (h : s.Stays s') {page : PageId} (there : s.Available page) : s'.Available page :=
  (h.available page there).resolve_left not_false

theorem of_table (backed : s.Backed) (disk : s.disk.Follows s'.disk)
    (held : ∀ page, s.disk.Holds page → s'.disk.Holds page)
    (table : s'.pool.table = s.pool.table)
    (dirty : ∀ id, (s'.pool.frame id).dirty = false → (s.pool.frame id).dirty = false) :
    s.Stays s' := by
  refine ⟨disk, fun page id resident clean => ?_, fun page there => .inr ?_, fun page there => ?_⟩
  · exact held page (backed page id (table ▸ resident) (dirty id clean))
  · rw [Available, table]
    exact there.imp id (held page)
  · rw [table] at there
    exact .inl there

theorem of_pool {disk : Disk} {pool pool' : Pool} (backed : Backed ⟨disk, pool⟩)
    (table : pool'.table = pool.table)
    (dirty : ∀ id, (pool'.frame id).dirty = false → (pool.frame id).dirty = false) :
    Stays ⟨disk, pool⟩ ⟨disk, pool'⟩ :=
  of_table backed (.refl _) (fun _ => id) table dirty

theorem tally (backed : s.Backed) (count : Counters → Counters) :
    s.Stays ⟨s.disk, Pool.tally count s.pool⟩ :=
  of_pool backed rfl fun _ clean => clean

theorem refl (backed : s.Backed) : s.Stays s := of_pool backed rfl fun _ => id

theorem of_erased {id : FrameId} {page : PageId} (backed : s.Backed) (bound : s.pool.Bound)
    (here : (s.pool.frame id).page = some page) (disk : s'.disk = s.disk)
    (table : s'.pool.table = s.pool.table.erase page)
    (others : ∀ other, other ≠ id → s'.pool.frame other = s.pool.frame other)
    (lost : gone page ∨ s.disk.Holds page) : s.Lasts (fun _ => False) gone s' := by
  refine ⟨by rw [disk]; exact .refl _, fun other_page other at_page clean => ?_, ?_, ?_⟩
  · rw [table, Std.TreeMap.getElem?_erase] at at_page
    split at at_page
    · cases at_page
    · rename_i apart
      have apart : other ≠ id := by
        rintro rfl
        have there := (bound other_page other).mp at_page
        rw [here] at there
        exact apart (Std.LawfulEqCmp.compare_eq_iff_eq.mpr (Option.some.inj there))
      rw [others other apart] at clean
      rw [disk]
      exact backed other_page other at_page clean
  · intro other there
    by_cases same : page = other
    · subst same
      exact lost.imp (fun gone => gone) fun holds => .inr (disk ▸ holds)
    · refine .inr (there.imp (fun resident => ?_) fun holds => disk ▸ holds)
      rw [table]
      exact Std.TreeMap.mem_erase.mpr
        ⟨fun equal => same (Std.LawfulEqCmp.compare_eq_iff_eq.mp equal), resident⟩
  · intro other resident
    rw [table] at resident
    exact .inl (Std.TreeMap.mem_of_mem_erase resident)

theorem of_bind {disk : Disk} {pool : Pool} {id : FrameId} {page : PageId} {bytes : Option Page}
    {dirty : Bool} (backed : Backed ⟨disk, pool⟩) (hand : pool.Invariant (.emptied id))
    (held : dirty = false → disk.Holds page) :
    Lasts (· = page) (fun _ => False) ⟨disk, pool⟩ ⟨disk, Pool.bind id page bytes dirty pool⟩ := by
  obtain ⟨inside, unbound⟩ := hand.in_range id rfl
  have frames := Pool.Invariant.frame_bind inside page bytes dirty
  have table : (Pool.bind id page bytes dirty pool).table = pool.table.insert page id := rfl
  refine ⟨.refl _, fun other_page other at_page clean => ?_, fun other there => .inr ?_, ?_⟩
  · simp only [table, Std.TreeMap.getElem?_insert] at at_page
    split at at_page
    · rename_i same
      cases at_page
      simp only [frames, if_pos] at clean
      rw [← Std.LawfulEqCmp.compare_eq_iff_eq.mp same]
      exact held clean
    · have apart : other ≠ id := by
        rintro rfl
        have there := (hand.bound other_page other).mp at_page
        rw [unbound] at there
        cases there
      simp only [frames, if_neg apart] at clean
      exact backed other_page other at_page clean
  · refine there.imp (fun resident => ?_) fun holds => holds
    rw [table]
    exact Std.TreeMap.mem_insert.mpr (.inr resident)
  · intro other resident
    rw [table] at resident
    rcases Std.TreeMap.mem_insert.mp resident with same | resident
    · exact .inr (Std.LawfulEqCmp.compare_eq_iff_eq.mp same).symm
    · exact .inl resident

end Lasts

end Storage

namespace Pool

open StorageM Storage

variable {s : Storage}

theorem writeBack_serves (id : FrameId) (page : PageId) (s : Storage) :
    Ends (writeBack id page) s (fun _ s' => s.disk.Follows s'.disk)
      (fun failure s' => s.disk.Follows s'.disk ∧ s'.pool = s.pool ∧
        s'.disk.file = s.disk.file ∧
        (failure = .violation .latchHeld ∧ s.pool.writeLatched id = true ∨
          s.disk.Blamed failure)) := by
  simp only [writeBack, Ends.bind_iff, pool_iff]
  split
  · rename_i latched
    exact ⟨.refl _, rfl, rfl, .inl ⟨rfl, latched⟩⟩
  · split
    · rw [Ends.bind_iff]
      refine onDisk_ends (((Disk.writePage_ends page _ s.disk).and
        (Disk.writePage_serves s.disk page _)).imp ?_ ?_)
      · rintro _ disk ⟨-, follows⟩
        exact follows
      · rintro _ disk ⟨⟨files, cause, rfl⟩, follows, excused⟩
        exact ⟨follows, rfl, files, .inr ⟨fun steady => excused steady _ rfl, _, rfl⟩⟩
    · exact .refl _

structure WroteBack (id : FrameId) (page : PageId) (s s' : Storage) : Prop where
  stays : s.Stays s'
  table : s'.pool.table = s.pool.table
  pages : ∀ other, (s'.pool.frame other).page = (s.pool.frame other).page
  clean : ∀ other, (s.pool.frame other).dirty = false → (s'.pool.frame other).dirty = false
  cleaned : (s.pool.frame id).page = some page → (s'.pool.frame id).dirty = false

theorem WroteBack.bound {id : FrameId} {page : PageId} {s' : Storage} (h : WroteBack id page s s')
    (bound : s.pool.Bound) : s'.pool.Bound := by
  intro other_page other
  rw [h.table, h.pages]
  exact bound other_page other

theorem writeBack_lasts (backed : s.Backed) (bound : s.pool.Bound) (id : FrameId) (page : PageId) :
    Ends (writeBack id page) s (fun _ s' => WroteBack id page s s')
      (fun failure s' => s.Stays s' ∧ s'.pool = s.pool ∧
        (failure = .violation .latchHeld ∧ s.pool.writeLatched id = true ∨
          s.disk.Blamed failure)) := by
  refine ((writeBack_ends id page s).and (writeBack_serves id page s)).imp ?_ ?_
  · rintro - s' ⟨⟨rfl, clean⟩ | ⟨⟨here, -⟩, files, pool⟩, follows⟩
    · exact ⟨.refl backed, rfl, fun _ => rfl, fun _ clean => clean, clean⟩
    · have inside : id.index < s.pool.size := Invariant.bound_in_range (by simp [here])
      have frames (other : FrameId) : s'.pool.frame other =
          if other = id then (s.pool.frame id).clearDirty else s.pool.frame other := by
        rw [pool]
        exact frame_mapFrame_inside s.pool other _ inside
      have table : s'.pool.table = s.pool.table := by rw [pool]; rfl
      have held (other : PageId) (holds : s.disk.Holds other) : s'.disk.Holds other :=
        Disk.holds_of_write files holds
      refine ⟨⟨follows, fun other_page other at_page clean => ?_, fun other there => .inr ?_, ?_⟩,
        table, fun other => ?_, fun other clean => ?_, fun _ => ?_⟩
      · rw [table] at at_page
        by_cases same : other = id
        · subst same
          have there := (bound other_page other).mp at_page
          rw [here] at there
          obtain rfl := Option.some.inj there
          exact Disk.holds_written files
        · rw [frames, if_neg same] at clean
          exact held _ (backed other_page other at_page clean)
      · rw [Available, table]
        exact there.imp (fun resident => resident) (held other)
      · rw [table]
        exact fun _ => .inl
      · rw [frames]; split
        · rename_i same; rw [same]; rfl
        · rfl
      · rw [frames]; split
        · rfl
        · exact clean
      · rw [frames, if_pos rfl]; rfl
  · rintro failure s' ⟨-, follows, pool, files, reason⟩
    refine ⟨.of_table backed follows (fun page => (Disk.holds_congr files).mpr) (by rw [pool])
      fun other clean => by rw [pool] at clean; exact clean, pool, reason⟩

theorem evict_lasts (h : s.Coherent .nothing) (backed : s.Backed) (free : s.pool.free = []) :
    Ends evict s (fun _ s' => s.Stays s') (fun failure s' => s.Stays s' ∧ s.Short failure) := by
  simp only [evict, Ends.bind_iff, pool_iff, Recency.evict]
  cases found : s.pool.recency.victim with
  | none => exact ⟨.refl backed, .inr ⟨rfl, h.pool.exhausted free found⟩⟩
  | some victim =>
    obtain ⟨bound, idle⟩ := (h.pool.evictable victim).mp (Recency.victim_evictable found)
    obtain ⟨page, bound⟩ := Option.ne_none_iff_exists'.mp bound
    have bound' : (frame { s.pool with recency := s.pool.recency.remove victim } victim).page =
      some page := bound
    simp only [Option.map_some, Ends.bind_iff, mapPool_iff, pool_iff, bound', Ends.tryCatch_iff,
      Ends.throw_iff]
    let t : Storage := { s with
      pool := { s.pool with recency := s.pool.recency.remove victim } }
    have start : s.Stays t := .of_pool backed rfl fun _ clean => clean
    refine (writeBack_lasts (s := t) backed h.pool.bound victim page).imp ?_ ?_
    · intro _ u wrote
      have here : (u.pool.frame victim).page = some page := (wrote.pages victim).trans bound
      have bounds := wrote.bound h.pool.bound
      have inside : victim.index < u.pool.size := Invariant.bound_in_range (by simp [here])
      have holds := wrote.stays.backed page victim ((bounds page victim).mpr here)
        (wrote.cleaned bound')
      refine (start.trans wrote.stays).trans (.of_erased wrote.stays.backed bounds here rfl rfl
        (fun other apart => ?_) (.inr holds))
      exact (frame_mapFrame_inside _ other _ inside).trans (if_neg apart)
    · rintro failure u ⟨stays, -, ⟨-, latched⟩ | blamed⟩
      · obtain ⟨guard, mem, here⟩ := List.any_eq_true.mp latched
        simp only [decide_eq_true_eq] at here
        exact absurd here.1 (h.pool.unguarded idle mem)
      · exact ⟨(start.trans stays).trans (.of_pool stays.backed rfl fun _ clean => clean),
          .inl blamed⟩

theorem acquireFrame_lasts (h : s.Coherent .nothing) (backed : s.Backed) :
    Ends acquireFrame s (fun _ s' => s.Stays s')
      (fun failure s' => s.Stays s' ∧ s.Short failure) := by
  simp only [acquireFrame, Ends.bind_iff, pool_iff]
  cases free : s.pool.free with
  | nil => exact evict_lasts h backed free
  | cons id rest => exact .of_pool backed rfl fun _ clean => clean

theorem load_lasts {page : PageId} (h : s.Coherent .nothing) (backed : s.Backed)
    (absent : page ∉ s.pool.table) :
    Ends (load page) s (fun _ s' => s.Lasts (· = page) (fun _ => False) s')
      (fun failure s' => s.Stays s' ∧ (s.Short failure ∨
        failure = .error (.storage (.pageNotFound page)) ∧ ¬ s.Available page)) := by
  simp only [load, Ends.bind_iff, mapPool_iff]
  have counted := Lasts.tally backed fun c => { c with cacheMisses := c.cacheMisses + 1 }
  obtain ⟨start, -⟩ := tally_coherent h fun c => { c with cacheMisses := c.cacheMisses + 1 }
  refine ((acquireFrame_ends start).and (acquireFrame_lasts start counted.backed)).imp ?_ ?_
  · rintro id t ⟨⟨emptied, -, still⟩, stays⟩
    have stays : s.Stays t := counted.trans stays
    simp only [Ends.tryCatch_iff, Ends.bind_iff, mapPool_iff, Ends.throw_iff, Ends.pure_iff]
    refine onDisk_ends (((Disk.readPage_ends page t.disk).and
      (Disk.readPage_serves t.disk page)).imp ?_ ?_)
    · rintro _ disk ⟨⟨files, holds, rfl⟩, follows⟩
      have read : t.Stays ⟨disk, t.pool⟩ := .of_table stays.backed follows
        (fun _ => (Disk.holds_congr files).mpr) rfl fun _ clean => clean
      have stays := (stays.trans read).trans
        (.tally read.backed fun c => { c with pagesRead := c.pagesRead + 1 })
      exact (Lasts.of_stays stays).trans
        (.of_bind stays.backed (emptied.pool.tally _) fun _ => (Disk.holds_congr files).mpr holds)
    · rintro fault disk ⟨⟨files, reason⟩, follows, excused⟩
      have read : t.Stays ⟨disk, { t.pool with free := id :: t.pool.free }⟩ :=
        .of_table stays.backed follows (fun _ => (Disk.holds_congr files).mpr) rfl
          fun _ clean => clean
      refine ⟨stays.trans read, ?_⟩
      rcases reason with ⟨rfl, missing⟩ | ⟨cause, rfl⟩
      · refine .inr ⟨rfl, fun there => ?_⟩
        rcases stays.available page there with gone | resident | holds
        · exact gone
        · exact still page absent resident
        · exact missing holds
      · exact .inl (.inl ⟨fun steady => excused (stays.disk.steady steady) _ rfl, _, rfl⟩)
  · rintro failure s' ⟨-, stays, short⟩
    exact ⟨counted.trans stays, .inl (short.imp (fun steady => steady) fun pinned => pinned)⟩

theorem pinPage_lasts (h : s.Coherent .nothing) (backed : s.Backed) (page : PageId) :
    Ends (pinPage page) s (fun _ s' => s.Lasts (· = page) (fun _ => False) s')
      (fun failure s' => s.Stays s' ∧ (failure = .violation .pinOverflow ∨ s.Short failure ∨
        failure = .error (.storage (.pageNotFound page)) ∧ ¬ s.Available page)) := by
  rw [pinPage_iff]
  cases resident : s.pool.table[page]? with
  | none =>
    exact (load_lasts h backed (by simpa using resident)).imp (fun _ _ lasts => lasts)
      fun _ _ ended => ⟨ended.1, .inr ended.2⟩
  | some id =>
    dsimp only
    split
    · exact ⟨.refl backed, .inl rfl⟩
    refine .of_stays (.of_pool backed rfl fun other clean => ?_)
    have clean : ((mapFrame id Frame.pin s.pool).frame other).dirty = false := clean
    rw [frame_mapFrame] at clean
    split at clean <;> exact clean

theorem takeGuard_lasts (backed : s.Backed) (latch : Latch) (page : PageId) (frame : FrameId) :
    Ends (takeGuard latch page frame) s (fun _ s' => s.Stays s')
      (fun failure s' => s' = s ∧ failure = .violation .latchHeld) := by
  simp only [takeGuard, Ends.bind_iff, pool_iff]
  split
  · exact ⟨rfl, rfl⟩
  · exact .of_pool backed rfl fun _ clean => clean

theorem fetch_lasts (h : s.Coherent .nothing) (backed : s.Backed) (latch : Latch)
    (page : PageId) :
    Ends (fetch latch page) s (fun _ s' => s.Lasts (· = page) (fun _ => False) s')
      (fun failure s' => s.Lasts (· = page) (fun _ => False) s' ∧
        ((∃ violation, failure = .violation violation) ∨ s.Short failure ∨
          failure = .error (.storage (.pageNotFound page)) ∧ ¬ s.Available page)) := by
  rw [fetch, Ends.bind_iff]
  refine (pinPage_lasts h backed page).imp ?_ ?_
  · intro frame t lasts
    refine (takeGuard_lasts lasts.backed latch page frame).imp ?_ ?_
    · exact fun _ _ stays => lasts.trans (.of_stays stays)
    · rintro failure _ ⟨rfl, rfl⟩
      exact ⟨lasts, .inl ⟨_, rfl⟩⟩
  · rintro failure s' ⟨stays, reason⟩
    exact ⟨Lasts.of_stays stays, reason.imp_left fun overflow => ⟨_, overflow⟩⟩

theorem create_lasts (h : s.Coherent .nothing) (backed : s.Backed) (page : PageId) :
    Ends (create page) s (fun _ s' => s.Lasts (· = page) (fun _ => False) s')
      (fun failure s' => s.Lasts (· = page) (fun _ => False) s' ∧
        (failure = .violation .latchHeld ∨ s.Short failure ∨
          failure = .error (.storage (.pageAlreadyResident page)) ∧ page ∈ s.pool.table)) := by
  simp only [create, Ends.bind_iff, pool_iff]
  split
  · rename_i resident
    exact ⟨.of_stays (.refl backed), .inr (.inr ⟨rfl, resident⟩)⟩
  · simp only [Ends.bind_iff]
    refine ((acquireFrame_ends h).and (acquireFrame_lasts h backed)).imp ?_ ?_
    · rintro frame t ⟨⟨emptied, -⟩, stays⟩
      simp only [mapPool_iff]
      have bound : s.Lasts (· = page) (fun _ => False)
          ⟨t.disk, Pool.bind frame page none true t.pool⟩ :=
        (Lasts.of_stays stays).trans (.of_bind stays.backed emptied.pool Bool.noConfusion)
      have counted := bound.trans (.of_stays (.tally bound.backed
        fun c => { c with pagesCreated := c.pagesCreated + 1 }))
      refine (takeGuard_lasts counted.backed .exclusive page frame).imp ?_ ?_
      · exact fun _ _ stays =>
          counted.trans (.of_stays stays)
      · rintro failure _ ⟨rfl, rfl⟩
        exact ⟨counted, .inl rfl⟩
    · rintro failure s' ⟨-, stays, short⟩
      exact ⟨.of_stays stays, .inr (.inl short)⟩

/-- A page that can be had is had, unless other guards are in the way or the storage is short. -/
theorem fetch_of_available (h : s.Coherent .nothing) (backed : s.Backed) (latch : Latch)
    {page : PageId} (available : s.Available page) :
    Ends (fetch latch page) s
      (fun id s' => s'.Coherent .nothing ∧ s.Took latch page id s' ∧ s'.content = s.content ∧
        s.Lasts (· = page) (fun _ => False) s')
      (fun failure s' => s.pool.Bars latch page failure ∨
        s.Short failure ∧ s'.Coherent .nothing ∧ s.Kept s' ∧
          s.Lasts (· = page) (fun _ => False) s') := by
  refine ((fetch_ends h latch page).and (fetch_lasts h backed latch page)).imp ?_ ?_
  · rintro id s' ⟨⟨coherent, content, took⟩, lasts⟩
    exact ⟨coherent, took, content, lasts⟩
  · rintro failure s' ⟨bars | ⟨⟨fault, rfl, -⟩, coherent, kept⟩, lasts, reason⟩
    · exact .inl bars
    · rcases reason with ⟨_, violated⟩ | short | ⟨-, lost⟩
      · cases violated
      · exact .inr ⟨short, coherent, kept, lasts⟩
      · exact absurd available lost

theorem create_of_absent (h : s.Coherent .nothing) (backed : s.Backed) {page : PageId}
    (absent : page ∉ s.pool.table) :
    Ends (create page) s
      (fun id s' => s'.Coherent .nothing ∧ s.Took .exclusive page id s' ∧
        s'.content = Function.update s.content page Page.zeroed ∧
        s.Lasts (· = page) (fun _ => False) s' ∧ s'.Available page)
      (fun failure s' => s.Short failure ∧ s'.Coherent .nothing ∧ s.Kept s' ∧
        s.Lasts (· = page) (fun _ => False) s') := by
  refine ((create_ends h page).and (create_lasts h backed page)).imp ?_ ?_
  · rintro id s' ⟨⟨coherent, content, took, -⟩, lasts⟩
    refine ⟨coherent, took, content, lasts, .inl ?_⟩
    obtain ⟨frame, guards⟩ := took.guards
    have bound := coherent.pool.guard_page ⟨id, frame, page, .exclusive, false⟩
      (by rw [guards]; exact List.mem_cons_self)
    exact (Std.TreeMap.isSome_getElem?_iff_mem).mp
      (by rw [(coherent.pool.bound page frame).mpr bound]; rfl)
  · rintro failure s' ⟨⟨⟨fault, rfl, -⟩, coherent, kept⟩, lasts, reason⟩
    rcases reason with violated | short | ⟨-, resident⟩
    · cases violated
    · exact ⟨short, coherent, kept, lasts⟩
    · exact absurd resident absent

theorem flushInOrder_lasts (backed : s.Backed) (bound : s.pool.Bound)
    (residents : List (PageId × FrameId)) :
    Ends (flushInOrder residents) s
      (fun _ s' => s.Stays s' ∧ s'.pool.table = s.pool.table ∧
        ∀ page id, (page, id) ∈ residents → s.pool.table[page]? = some id →
          (s'.pool.frame id).dirty = false)
      (fun failure s' => s.Stays s' ∧
        (failure = .violation .latchHeld ∨ s.disk.Blamed failure)) := by
  rw [flushInOrder, Ends.bind_iff]
  have wrote : Ends (residents.forM fun resident => writeBack resident.2 resident.1) s
      (fun _ s' => s.Stays s' ∧ s'.pool.table = s.pool.table ∧
        (∀ id, (s.pool.frame id).dirty = false → (s'.pool.frame id).dirty = false) ∧
        ∀ page id, (page, id) ∈ residents → s.pool.table[page]? = some id →
          (s'.pool.frame id).dirty = false)
      (fun failure s' => s.Stays s' ∧
        (failure = .violation .latchHeld ∨ s.disk.Blamed failure)) := by
    induction residents generalizing s with
    | nil =>
      exact ⟨.refl backed, rfl, fun _ clean => clean,
        fun _ _ mem => absurd mem List.not_mem_nil⟩
    | cons first rest ih =>
      obtain ⟨page, id⟩ := first
      change Ends (writeBack id page >>= fun _ =>
        rest.forM fun resident => writeBack resident.2 resident.1) s _ _
      rw [Ends.bind_iff]
      refine (writeBack_lasts backed bound id page).imp ?_ ?_
      · intro _ t wrote
        refine (ih wrote.stays.backed (wrote.bound bound)).imp ?_ ?_
        · rintro _ s' ⟨stays, table, clean, cleaned⟩
          refine ⟨wrote.stays.trans stays, table.trans wrote.table,
            fun other before => clean other (wrote.clean other before), ?_⟩
          intro other_page other mem at_page
          rcases List.mem_cons.mp mem with same | mem
          · cases same
            exact clean id (wrote.cleaned ((bound page id).mp at_page))
          · exact cleaned other_page other mem (wrote.table ▸ at_page)
        · rintro failure s' ⟨stays, reason⟩
          exact ⟨wrote.stays.trans stays,
            reason.imp (fun latched => latched) fun blamed => blamed.imp wrote.stays.disk.steady⟩
      · rintro failure s' ⟨stays, -, latched | blamed⟩
        · exact ⟨stays, .inl latched.1⟩
        · exact ⟨stays, .inr blamed⟩
  refine wrote.imp ?_ fun _ _ ended => ended
  rintro _ t ⟨stays, table, -, cleaned⟩
  refine onDisk_ends (((Disk.sync_ends t.disk).and (Disk.sync_serves t.disk)).imp ?_ ?_)
  · rintro _ disk ⟨files, follows⟩
    exact ⟨stays.trans (.of_table stays.backed follows (fun _ => (Disk.holds_congr files).mpr) rfl
      fun _ clean => clean), table, cleaned⟩
  · rintro _ disk ⟨⟨files, cause, rfl⟩, follows, excused⟩
    exact ⟨stays.trans (.of_table stays.backed follows (fun _ => (Disk.holds_congr files).mpr) rfl
      fun _ clean => clean), .inr ⟨fun steady => excused (stays.disk.steady steady) _ rfl, _, rfl⟩⟩

theorem write_lasts (backed : s.Backed) (id : GuardId) (bytes : Page) :
    Ends (write id bytes) s (fun _ s' => s.Stays s') (fun _ s' => s' = s) := by
  simp only [write, Ends.bind_iff, mapPool_iff]
  refine (heldGuard_ends id s).imp ?_ fun _ _ ended => ended.1
  rintro guard _ ⟨rfl, -⟩
  refine .of_pool backed rfl fun other clean => ?_
  have clean : ((mapFrame guard.frame (fun frame => { frame with bytes }) _).frame other).dirty =
    false := clean
  rw [frame_mapFrame] at clean
  split at clean <;> exact clean

theorem release_lasts (h : s.Coherent .nothing) (backed : s.Backed) (id : GuardId) :
    Ends (release id) s (fun _ s' => s.Stays s' ∧ s'.pool.table = s.pool.table)
      (fun _ s' => s' = s) := by
  simp only [release, Ends.bind_iff, mapPool_iff]
  refine (heldGuard_ends id s).imp ?_ fun _ _ ended => ended.1
  rintro guard t ⟨rfl, mem, rfl⟩
  have bound := h.pool.guard_page guard mem
  refine (unpin_ends (s := ⟨t.disk, _⟩) (h.pool.drop_guard mem)
    (show (t.pool.frame guard.frame).page ≠ none by simp [bound]) guard.dirty).imp ?_
    fun _ _ never => never.elim
  intro _ s' unpinned
  refine ⟨.of_table backed (by rw [unpinned.disk]; exact .refl _)
    (fun page holds => by rw [unpinned.disk]; exact holds) unpinned.table fun other clean => ?_,
    unpinned.table⟩
  rw [unpinned.frames] at clean
  split at clean
  · rename_i here
    rw [here]
    exact (Bool.or_eq_false_iff.mp clean).1
  · exact clean

theorem delete_lasts (h : s.Coherent .nothing) (backed : s.Backed) (page : PageId) :
    Ends (delete page) s (fun _ s' => s.Lasts (fun _ => False) (· = page) s')
      (fun _ s' => s' = s) := by
  simp only [delete, Ends.bind_iff, pool_iff]
  cases resident : s.pool.table[page]? with
  | none => exact .of_stays (.refl backed)
  | some id =>
    have bound := (h.pool.bound page id).mp resident
    have inside : id.index < s.pool.size := Invariant.bound_in_range (by simp [bound])
    simp only [Ends.bind_iff, pool_iff]
    split
    · exact rfl
    · exact .of_erased backed h.pool.bound bound rfl rfl
        (fun other apart => (frame_mapFrame_inside _ other _ inside).trans (if_neg apart))
        (.inl rfl)

namespace Operation

def Brings : Operation → PageId → Prop
  | create page | fetch _ page => (· = page)
  | read _ | write _ _ | release _ | delete _ | flush _ | flushAll _ => fun _ => False

def Drops : Operation → PageId → Prop
  | delete page => (· = page)
  | create _ | fetch _ _ | read _ | write _ _ | release _ | flush _ | flushAll _ => fun _ => False

theorem segment_of_brings {segment : SegmentId} {operation : Operation} {page : PageId}
    (spares : operation.Spares segment) (brings : operation.Brings page) :
    page.segment ≠ segment := by
  cases operation with
  | create other => exact brings ▸ spares
  | fetch latch other => exact brings ▸ spares
  | read id => exact brings.elim
  | write id bytes => exact brings.elim
  | release id => exact brings.elim
  | delete other => exact brings.elim
  | flush other => exact brings.elim
  | flushAll residents => exact brings.elim

theorem segment_of_drops {segment : SegmentId} {operation : Operation} {page : PageId}
    (spares : operation.Spares segment) (drops : operation.Drops page) :
    page.segment ≠ segment := by
  cases operation with
  | delete other => exact drops ▸ spares
  | create other => exact drops.elim
  | fetch latch other => exact drops.elim
  | read id => exact drops.elim
  | write id bytes => exact drops.elim
  | release id => exact drops.elim
  | flush other => exact drops.elim
  | flushAll residents => exact drops.elim

end Operation

/-- However an operation ends, only what it asks for comes in and only what it drops is gone. -/
theorem operation_lasts (h : s.Coherent .nothing) (backed : s.Backed) (operation : Operation) :
    Ends operation.perform s (fun _ s' => s.Lasts operation.Brings operation.Drops s')
      (fun _ s' => s.Lasts operation.Brings operation.Drops s') := by
  have of_same {s' : Storage} (same : s' = s) : s.Lasts operation.Brings operation.Drops s' := by
    rw [same]
    exact .of_stays (.refl backed)
  cases operation with
  | create page =>
    exact Ends.discard_iff.mpr ((create_lasts h backed page).imp
      (fun _ _ lasts => lasts) fun _ _ ended => ended.1)
  | fetch latch page =>
    exact Ends.discard_iff.mpr ((fetch_lasts h backed latch page).imp
      (fun _ _ lasts => lasts) fun _ _ ended => ended.1)
  | read id =>
    exact Ends.discard_iff.mpr ((bytes_ends h id).imp (fun _ _ ended => of_same ended.1)
      fun _ _ ended => of_same ended.1)
  | write id bytes =>
    exact (write_lasts backed id bytes).imp (fun _ _ stays => stays) fun _ _ same => of_same same
  | release id =>
    exact (release_lasts h backed id).imp (fun _ _ ended => ended.1) fun _ _ same => of_same same
  | delete page =>
    exact (delete_lasts h backed page).imp (fun _ _ lasts => lasts) fun _ _ same => of_same same
  | flush page =>
    simp only [Operation.perform, flush, Ends.bind_iff, pool_iff]
    cases s.pool.table[page]? with
    | none => exact of_same rfl
    | some id =>
      exact (writeBack_lasts backed h.pool.bound id page).imp
        (fun _ _ wrote => wrote.stays) fun _ _ ended => ended.1
  | flushAll residents =>
    exact (flushInOrder_lasts backed h.pool.bound residents).imp
      (fun _ _ ended => ended.1) fun _ _ ended => ended.1

theorem spares_lasts {segment : SegmentId} {operation : Operation} (h : s.Coherent .nothing)
    (backed : s.Backed) (spares : operation.Spares segment) :
    Ends operation.perform s
      (fun _ s' => s.Lasts (·.segment ≠ segment) (·.segment ≠ segment) s')
      (fun _ s' => s.Lasts (·.segment ≠ segment) (·.segment ≠ segment) s') :=
  have spared {s' : Storage} (lasts : s.Lasts operation.Brings operation.Drops s') :
      s.Lasts (·.segment ≠ segment) (·.segment ≠ segment) s' :=
    lasts.imp (fun _ => Operation.segment_of_brings spares)
      fun _ => Operation.segment_of_drops spares
  (operation_lasts h backed operation).imp (fun _ _ => spared) fun _ _ => spared

theorem lasts_of_leaves {segment : SegmentId} {operation : Operation} {s' : Storage}
    (h : s.Coherent .nothing) (backed : s.Backed) (spares : operation.Spares segment)
    (leaves : operation.Leaves s s') :
    s.Lasts (·.segment ≠ segment) (·.segment ≠ segment) s' :=
  leaves.of_ends ((spares_lasts h backed spares).imp (fun _ _ lasts => lasts)
    fun _ _ lasts => .inl lasts)

theorem unblocked_of_took {s' : Storage} {latch : Latch} {page : PageId} {id : GuardId}
    (h : s.Coherent .nothing) (h' : s'.Coherent .nothing) (took : s.Took latch page id s') :
    ¬ s.pool.Blocked latch page := by
  rintro ⟨other, mem, here, conflict⟩
  obtain ⟨frame, guards⟩ := took.guards
  have newest : (⟨id, frame, page, latch, false⟩ : Guard) ∈ s'.pool.guards := by
    rw [guards]
    exact List.mem_cons_self
  have mem' : other ∈ s'.pool.guards := by
    rw [guards]
    exact List.mem_cons_of_mem _ mem
  have resident := (h'.pool.bound page frame).mpr (h'.pool.guard_page _ newest)
  have resident' := (h'.pool.bound page other.frame).mpr (here ▸ h'.pool.guard_page other mem')
  have same_frame : other.frame = frame := Option.some.inj (resident'.symm.trans resident)
  have same : other = ⟨id, frame, page, latch, false⟩ := by
    rcases conflict with exclusive | exclusive
    · exact h'.pool.exclusive _ newest exclusive other mem' same_frame
    · exact (h'.pool.exclusive other mem' exclusive _ newest same_frame.symm).symm
  have older := h.pool.guard_numbers other mem
  rw [same, took.fresh] at older
  exact Nat.lt_irrefl _ older

theorem bytes_of_took {s' : Storage} {latch : Latch} {page : PageId} {id : GuardId}
    (h : s'.Coherent .nothing) (took : s.Took latch page id s') :
    Ends (bytes id) s' (fun bytes t => t = s' ∧ bytes = s'.content page) (fun _ _ => False) := by
  obtain ⟨frame, guards⟩ := took.guards
  have newest : (⟨id, frame, page, latch, false⟩ : Guard) ∈ s'.pool.guards := by
    rw [guards]
    exact List.mem_cons_self
  refine (bytes_ends h id).imp ?_ ?_
  · rintro bytes t ⟨rfl, guard, mem, same, rfl⟩
    have same := List.inj_on_of_nodup_map h.pool.guard_ids mem newest same
    rw [same]
    exact ⟨rfl, rfl⟩
  · rintro failure _ ⟨rfl, -, gone⟩
    exact gone _ newest rfl

theorem pinnedFrameCount_eq (pool : Pool) : pool.pinnedFrameCount =
    (List.range pool.size).countP fun i => (pool.frame ⟨i⟩).isPinned := by
  have frames : pool.frames.toList = (List.range pool.size).map fun i => pool.frame ⟨i⟩ := by
    refine List.ext_getElem (by simp [size]) fun i inside _ => ?_
    have inside : i < pool.frames.size := by simpa using inside
    simp [frame, Array.getElem?_eq_getElem inside]
  rw [pinnedFrameCount, ← Array.countP_toList, frames, List.countP_map]
  rfl

theorem pinnedFrameCount_congr {pool pool' : Pool} (h : pool.Invariant .nothing)
    (h' : pool'.Invariant .nothing) (guards : pool'.guards = pool.guards)
    (size : pool'.size = pool.size) : pool'.pinnedFrameCount = pool.pinnedFrameCount := by
  rw [pinnedFrameCount_eq, pinnedFrameCount_eq, size]
  refine List.countP_congr fun i _ => ?_
  rw [Frame.isPinned_iff, Frame.isPinned_iff, Ne, Ne, Frame.pins_eq_zero_iff,
    Frame.pins_eq_zero_iff, h'.consistent.pins, h.consistent.pins, guards]

/-- Where every frame has pins, those that had none before are under the guards taken since. -/
theorem size_le_of_exhausted {pool pool' : Pool} {mine : List Guard}
    (h : pool.Invariant .nothing) (h' : pool'.Invariant .nothing)
    (guards : pool'.guards = mine ++ pool.guards) (size : pool'.size = pool.size)
    (all : pool'.Exhausted) : pool.size ≤ pool.pinnedFrameCount + mine.length := by
  let idle (i : Nat) : Bool := decide ¬ (pool.frame ⟨i⟩).isPinned = true
  have counted :
      pool.size = pool.pinnedFrameCount + ((List.range pool.size).filter idle).length := by
    rw [pinnedFrameCount_eq, ← List.countP_eq_length_filter, ← List.length_eq_countP_add_countP,
      List.length_range]
  have nodup : ((List.range pool.size).filter idle).Nodup := List.nodup_range.filter _
  have taken : ∀ i ∈ (List.range pool.size).filter idle, i ∈ mine.map (·.frame.index) := by
    intro i mem
    obtain ⟨inside, idle⟩ := List.mem_filter.mp mem
    have idle : ((pool.frame ⟨i⟩).pins : Nat) = 0 := by
      simpa [Frame.isPinned_iff, Frame.pins_eq_zero_iff] using of_decide_eq_true idle
    have pinned := mt Frame.pins_eq_zero_iff.mpr (all ⟨i⟩ (size ▸ List.mem_range.mp inside))
    rw [h'.consistent.pins, guards, List.countP_append, ← h.consistent.pins, idle] at pinned
    obtain ⟨guard, mem, here⟩ := List.countP_pos_iff.mp (Nat.pos_of_ne_zero pinned)
    exact List.mem_map.mpr ⟨guard, mem, congrArg FrameId.index (of_decide_eq_true here)⟩
  have few := (List.subperm_of_subset nodup taken).length_le
  rw [List.length_map] at few
  omega

theorem table_of_new {size : Nat} {pool : Pool} (new : Pool.new size = .ok pool) :
    pool.table = ∅ := by
  unfold Pool.new at new
  split at new <;> cases new
  rfl

theorem backed_of_new {size : Nat} {pool : Pool} (new : Pool.new size = .ok pool) (disk : Disk) :
    Backed ⟨disk, pool⟩ := by
  intro page id resident
  rw [show (⟨disk, pool⟩ : Storage).pool.table = ∅ from table_of_new new] at resident
  simp at resident

theorem run_lasts {ledger ledger' : Ledger} (h : ledger.Invariant)
    (backed : ledger.storage.Backed) {operations : List Operation}
    (run : ledger.run operations = .ok ledger') :
    ledger.storage.Lasts (fun _ => True) (fun _ => True) ledger'.storage := by
  have kept := foldlM_keeps (fun later : Ledger => later.Invariant ∧
    ledger.storage.Lasts (fun _ => True) (fun _ => True) later.storage)
    (fun later operation next before step => ?_) ⟨h, .of_stays (.refl backed)⟩ run
  · exact kept.2
  · refine ⟨step_preserves_invariant before.1 step, before.2.trans ?_⟩
    have lasts := operation_lasts before.1.coherent before.2.backed operation
    rcases Ledger.step_cases step with ⟨s', ran, rfl⟩ | ⟨error, s', ran, rfl⟩
    · exact (lasts.of_ok ran).imp (fun _ _ => trivial) fun _ _ => trivial
    · exact (lasts.of_error ran).imp (fun _ _ => trivial) fun _ _ => trivial

theorem pinnedFrameCount_of_new {size : Nat} {pool : Pool} (new : Pool.new size = .ok pool) :
    pool.pinnedFrameCount = 0 := by
  rw [pinnedFrameCount_eq]
  refine List.countP_eq_zero.mpr fun i _ => ?_
  rw [Frame.isPinned_iff, Ne, Frame.pins_eq_zero_iff, (new_invariant new).consistent.pins,
    guards_of_new new]
  simp

/-- What a page reads as to one who takes a guard on it. -/
def readThrough (page : PageId) : StorageM Page := do bytes (← fetch .shared page)

theorem readThrough_ends {page : PageId} (h : s.Coherent .nothing) (backed : s.Backed)
    (available : s.Available page) (free : ∀ guard ∈ s.pool.guards, guard.page ≠ page)
    (steady : s.disk.Steady) (idle : s.pool.pinnedFrameCount < s.pool.size) :
    Ends (readThrough page) s (fun bytes _ => bytes = s.content page) (fun _ _ => False) := by
  rw [readThrough, Ends.bind_iff]
  refine ((fetch_ends h .shared page).and (fetch_lasts h backed .shared page)).imp ?_ ?_
  · rintro id t ⟨⟨coherent, content, took⟩, -⟩
    refine (bytes_of_took coherent took).imp ?_ fun _ _ => False.elim
    rintro bytes _ ⟨-, rfl⟩
    exact congrFun content page
  · rintro failure t ⟨bars | ⟨⟨fault, rfl, -⟩, -⟩, -, reason⟩
    · obtain ⟨guard, mem, here⟩ := bars.exists_guard
      exact free guard mem here
    · rcases reason with ⟨_, violated⟩ | (⟨unsteady, -⟩ | ⟨-, exhausted⟩) | ⟨-, lost⟩
      · cases violated
      · exact unsteady steady
      · have full : s.pool.size ≤ s.pool.pinnedFrameCount + ([] : List Guard).length :=
          size_le_of_exhausted h.pool h.pool rfl rfl exhausted
        exact absurd idle (Nat.not_lt_of_le full)
      · exact lost available

end Pool

end PagedIndex
