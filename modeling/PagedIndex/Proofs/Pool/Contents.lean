import PagedIndex.Pool.Flush
import PagedIndex.Pool.Guards
import PagedIndex.Proofs.DiskContents
import PagedIndex.Proofs.Pool.Invariant

/-!
# What pages read as through a pool

`Storage.content` is the frame's bytes for a resident page and the disk's for any other. In a
coherent storage a clean frame agrees with the disk, so a page may leave its frame and come back
without reading as anything else. Each operation is specified by what it does to the contents, to
the guards and to the coherence of the storage.
-/

namespace PagedIndex

namespace StorageM

variable {D α : Type} {s : Storage D}

@[simp] theorem pool_iff {done : Pool → Storage D → Prop} {failed : Failure → Storage D → Prop} :
    Ends StorageM.pool s done failed ↔ done s.pool s := Iff.rfl

@[simp] theorem mapPool_iff {f : Pool → Pool} {done : Unit → Storage D → Prop}
    {failed : Failure → Storage D → Prop} :
    Ends (mapPool f) s done failed ↔ done () { s with pool := f s.pool } := Iff.rfl

theorem run_onDisk (action : EStateM StorageFault D α) (s : Storage D) :
    (onDisk action).run s = match action.run s.disk with
      | .ok a disk => .ok a { s with disk }
      | .error fault disk => .error (.error (.storage fault)) { s with disk } := rfl

theorem onDisk_ends {action : EStateM StorageFault D α} {done : α → Storage D → Prop}
    {failed : Failure → Storage D → Prop}
    (h : Ends action s.disk (fun a disk => done a { s with disk })
      (fun fault disk => failed (.error (.storage fault)) { s with disk })) :
    Ends (onDisk action) s done failed := by
  simp only [Ends, onDisk, EStateM.run] at *
  cases run : action s.disk <;> simp only [run] at h ⊢ <;> exact h

end StorageM

namespace Pool

theorem pinPage_iff {s : Storage} {page : PageId} {done : FrameId → Storage → Prop}
    {failed : Failure → Storage → Prop} :
    Ends (pinPage page) s done failed ↔ match s.pool.table[page]? with
      | some id => if (s.pool.frame id).isCrowded then failed (.violation .pinOverflow) s
        else done id { s with pool := hit id s.pool }
      | none => Ends (load page) s done failed := by
  simp only [pinPage, Ends.bind_iff, StorageM.pool_iff]
  cases s.pool.table[page]? with
  | none => rfl
  | some id => simp only [Ends.bind_iff, StorageM.pool_iff]; split <;> rfl

end Pool

/-- A fault that the pool or the disk answers with. -/
def StorageFault.OfPages : StorageFault → Prop
  | .segmentExhausted _ => False
  | _ => True

namespace Storage

/-- What a page reads as. -/
def content (s : Storage) (page : PageId) : Page :=
  match s.pool.table[page]? with
  | some id => (s.pool.frame id).bytes
  | none => s.disk.content page

structure Coherent (hand : Pool.InHand) (s : Storage) : Prop where
  pool : s.pool.Invariant hand
  synced : ∀ (page : PageId) (id : FrameId), s.pool.table[page]? = some id →
    (s.pool.frame id).dirty = false →
    (∀ guard ∈ s.pool.guards, guard.frame = id → guard.dirty = false) →
    (s.pool.frame id).bytes = s.disk.content page

structure Kept (s s' : Storage) : Prop where
  content : s'.content = s.content
  guards : s'.pool.guards = s.pool.guards
  nextGuard : s'.pool.nextGuard = s.pool.nextGuard
  size : s'.pool.size = s.pool.size

/-- The operation failed with a fault of the pool or the disk and did nothing that shows. -/
structure Refused (s : Storage) (failure : Failure) (s' : Storage) : Prop where
  fault : ∃ fault : StorageFault, failure = .error (.storage fault) ∧ fault.OfPages
  coherent : s'.Coherent .nothing
  kept : s.Kept s'

theorem Kept.refl (s : Storage) : s.Kept s := ⟨rfl, rfl, rfl, rfl⟩

theorem Kept.trans {s s' s'' : Storage} (h : s.Kept s') (h' : s'.Kept s'') : s.Kept s'' :=
  ⟨h'.content.trans h.content, h'.guards.trans h.guards, h'.nextGuard.trans h.nextGuard,
    h'.size.trans h.size⟩

theorem Refused.of_kept {s s' s'' : Storage} {failure : Failure} (h : s.Kept s')
    (h' : s'.Refused failure s'') : s.Refused failure s'' :=
  ⟨h'.fault, h'.coherent, h.trans h'.kept⟩

theorem content_of_resident {s : Storage} {page : PageId} {id : FrameId}
    (h : s.pool.table[page]? = some id) : s.content page = (s.pool.frame id).bytes := by
  rw [content, h]

theorem content_of_absent {s : Storage} {page : PageId} (h : page ∉ s.pool.table) :
    s.content page = s.disk.content page := by
  rw [content, Std.TreeMap.getElem?_eq_none h]

theorem content_eq_of_frame {s s' : Storage} {page : PageId}
    (table : s'.pool.table = s.pool.table) (disk : s'.disk.content page = s.disk.content page)
    (bytes : ∀ id, s.pool.table[page]? = some id →
      (s'.pool.frame id).bytes = (s.pool.frame id).bytes) :
    s'.content page = s.content page := by
  cases resident : s.pool.table[page]? with
  | none => rw [content, content, table, resident, disk]
  | some id =>
    have resident' : s'.pool.table[page]? = some id := table ▸ resident
    rw [content_of_resident resident, content_of_resident resident', bytes id resident]

end Storage

namespace Pool

open StorageM Storage

def wrote (id : FrameId) (pool : Pool) : Pool :=
  tally (fun c => { c with pagesWritten := c.pagesWritten + 1 })
    (mapFrame id Frame.clearDirty pool)

theorem writeBack_ends (id : FrameId) (page : PageId) (s : Storage) :
    Ends (writeBack id page) s
      (fun _ s' => s' = s ∧ ((s.pool.frame id).page = some page → (s.pool.frame id).dirty = false) ∨
        ((s.pool.frame id).page = some page ∧ (s.pool.frame id).dirty = true) ∧
          s'.disk.file = Function.update s.disk.file page.segment
            ((s.disk.file page.segment).write page.pageNo (s.pool.frame id).bytes) ∧
          s'.pool = wrote id s.pool)
      (fun failure s' => failure = .violation .latchHeld ∧ s.pool.writeLatched id = true ∨
        (∃ cause, failure = .error (.storage (.io (.refused cause)))) ∧ s'.pool = s.pool ∧
          s'.disk.file = s.disk.file) := by
  simp only [writeBack, Ends.bind_iff, pool_iff]
  split
  · rename_i latched
    exact .inl ⟨rfl, latched⟩
  · split
    · rename_i due
      rw [Ends.bind_iff]
      refine onDisk_ends ((Disk.writePage_ends page _ s.disk).imp ?_ ?_)
      · intro _ disk files
        exact .inr ⟨due, files, rfl⟩
      · intro _ disk ended
        rcases ended with ⟨files, cause, rfl⟩
        exact .inr ⟨⟨cause, rfl⟩, rfl, files⟩
    · rename_i idle
      exact .inl ⟨rfl, fun bound => by simpa [bound] using idle⟩

theorem cleaned_coherent {s s' : Storage} {id : FrameId} {page : PageId}
    (h : s.Coherent .nothing) (bound : (s.pool.frame id).page = some page)
    (files : s'.disk.file = Function.update s.disk.file page.segment
      ((s.disk.file page.segment).write page.pageNo (s.pool.frame id).bytes))
    (pool : s'.pool = wrote id s.pool) : s'.Coherent .nothing ∧ s.Kept s' := by
  have resident := (h.pool.bound page id).mpr bound
  have disk : s'.disk.content = _ := Disk.content_of_write files
  have table : s'.pool.table = s.pool.table := by rw [pool]; rfl
  have bytes (other : FrameId) : (s'.pool.frame other).bytes = (s.pool.frame other).bytes := by
    rw [pool]
    change ((mapFrame id _ s.pool).frame other).bytes = _
    rw [frame_mapFrame]; split <;> rfl
  refine ⟨⟨?_, ?_⟩, ⟨?_, ?_, ?_, ?_⟩⟩
  · rw [pool]
    exact (h.pool.mapFrame_of_same id _ rfl rfl (by simp [bound])).tally _
  · intro other_page other at_id clean guards
    rw [bytes, disk]
    rw [table] at at_id
    by_cases same : other_page = page
    · subst same
      rw [resident] at at_id
      cases at_id
      rw [Function.update_self]
    · have apart : id ≠ other := by
        rintro rfl
        have := (h.pool.bound other_page id).mp at_id
        rw [bound] at this
        exact same (Option.some.inj this).symm
      rw [Function.update_of_ne same]
      refine h.synced other_page other at_id ?_ ?_
      · have : (s'.pool.frame other).dirty = (s.pool.frame other).dirty := by
          rw [pool]
          change ((mapFrame id _ s.pool).frame other).dirty = _
          rw [frame_mapFrame, if_neg (fun e => apart e.1)]
        rw [← this]; exact clean
      · rw [pool] at guards; exact guards
  · funext other_page
    unfold Storage.content
    rw [table]
    cases at_page : s.pool.table[other_page]? with
    | some other => exact bytes other
    | none =>
      have apart : other_page ≠ page := by
        rintro rfl
        rw [resident] at at_page
        cases at_page
      simp only [disk, Function.update_of_ne apart]
  · rw [pool]; rfl
  · rw [pool]; rfl
  · rw [pool]; exact size_mapFrame _ _ _

theorem content_congr {s s' : Storage} (pool : s'.pool = s.pool)
    (files : s'.disk.file = s.disk.file) : s'.content = s.content := by
  funext page
  simp only [Storage.content, pool, Disk.content_congr files]

theorem coherent_congr {hand : InHand} {s s' : Storage} (h : s.Coherent hand)
    (pool : s'.pool = s.pool) (files : s'.disk.file = s.disk.file) : s'.Coherent hand := by
  refine ⟨pool ▸ h.pool, ?_⟩
  rw [pool, Disk.content_congr files]
  exact h.synced

theorem kept_congr {s s' : Storage} (pool : s'.pool = s.pool)
    (files : s'.disk.file = s.disk.file) : s.Kept s' :=
  ⟨content_congr pool files, by rw [pool], by rw [pool], by rw [pool]⟩

theorem writeBack_coherent (id : FrameId) (page : PageId) {s : Storage} (h : s.Coherent .nothing) :
    Ends (writeBack id page) s (fun _ s' => s'.Coherent .nothing ∧ s.Kept s')
      (fun failure s' => failure = .violation .latchHeld ∨ s.Refused failure s') := by
  refine (writeBack_ends id page s).imp ?_ ?_
  · rintro - s' (⟨rfl, -⟩ | ⟨⟨bound, -⟩, files, pool⟩)
    · exact ⟨h, .refl _⟩
    · exact cleaned_coherent h bound files pool
  · intro failure s' ended
    rcases ended with ⟨latched, -⟩ | ⟨⟨cause, rfl⟩, pool, files⟩
    · exact .inl latched
    · exact .inr ⟨⟨_, rfl, trivial⟩, coherent_congr h pool files, kept_congr pool files⟩

theorem forget_coherent {s s' : Storage} {id : FrameId} {page : PageId}
    (h : s.Coherent .nothing) (bound : (s.pool.frame id).page = some page)
    (disk : s'.disk = s.disk) (pool : s'.pool.Invariant (.emptied id))
    (others : ∀ other, other ≠ id → s'.pool.frame other = s.pool.frame other)
    (table : s'.pool.table = s.pool.table.erase page) (guards : s'.pool.guards = s.pool.guards) :
    s'.Coherent (.emptied id) ∧
      s'.content = Function.update s.content page (s.disk.content page) := by
  have elsewhere {other_page : PageId} {other : FrameId} (apart : page ≠ other_page)
      (at_page : s.pool.table[other_page]? = some other) : other ≠ id := by
    rintro rfl
    have := (h.pool.bound other_page other).mp at_page
    rw [bound] at this
    exact apart (Option.some.inj this)
  refine ⟨⟨pool, ?_⟩, ?_⟩
  · intro other_page other at_page
    rw [table, Std.TreeMap.getElem?_erase] at at_page
    split at at_page
    · cases at_page
    · rename_i apart
      have apart : page ≠ other_page := fun e => apart (Std.LawfulEqCmp.compare_eq_iff_eq.mpr e)
      rw [others other (elsewhere apart at_page), disk, guards]
      exact h.synced other_page other at_page
  · funext other_page
    unfold Storage.content
    rw [table, Std.TreeMap.getElem?_erase, disk]
    by_cases same : page = other_page
    · subst same
      rw [if_pos Std.ReflCmp.compare_self, Function.update_self]
    · rw [if_neg (fun e => same (Std.LawfulEqCmp.compare_eq_iff_eq.mp e)),
        Function.update_of_ne (Ne.symm same)]
      cases at_page : s.pool.table[other_page]? with
      | none => rfl
      | some other => simp only [others other (elsewhere same at_page)]

theorem empty_victim {s : Storage} {id : FrameId} {page : PageId} (h : s.Coherent .nothing)
    (bound : (s.pool.frame id).page = some page) (idle : (s.pool.frame id).pins = 0)
    (clean : (s.pool.frame id).dirty = false) (count : Counters → Counters) :
    let s' : Storage := { s with
      pool := mapFrame id Frame.clear (tally count { s.pool with
        recency := s.pool.recency.remove id
        table := s.pool.table.erase page }) }
    s'.Coherent (.emptied id) ∧ s.Kept s' ∧
      ∀ page, page ∉ s.pool.table → page ∉ s'.pool.table := by
  intro s'
  have inside : id.index < s.pool.size := Invariant.bound_in_range (by simp [bound])
  have frames (other : FrameId) : s'.pool.frame other =
      if other = id then (s.pool.frame id).clear else s.pool.frame other :=
    frame_mapFrame_inside s.pool other _ inside
  have others (other : FrameId) (apart : other ≠ id) :
      s'.pool.frame other = s.pool.frame other := by rw [frames, if_neg apart]
  have size : s'.pool.size = s.pool.size := size_mapFrame _ _ _
  have invariant := h.pool.forget bound idle others
    (by rw [frames, if_pos rfl]; exact ⟨rfl, rfl, rfl⟩) size rfl rfl rfl rfl rfl
  have resident := (h.pool.bound page id).mpr bound
  have synced : s.disk.content page = s.content page := by
    rw [content_of_resident resident]
    exact (h.synced page id resident clean
      fun guard mem here => absurd here (h.pool.unguarded idle mem)).symm
  obtain ⟨coherent, content⟩ := forget_coherent h bound (show s'.disk = s.disk from rfl) invariant
    others rfl rfl
  rw [synced, Function.update_eq_self] at content
  refine ⟨coherent, ⟨content, rfl, rfl, size⟩, ?_⟩
  intro other absent listed
  exact absent (Std.TreeMap.mem_of_mem_erase listed)

theorem evict_ends {s : Storage} (h : s.Coherent .nothing) :
    Ends evict s
      (fun id s' => s'.Coherent (.emptied id) ∧ s.Kept s' ∧
        ∀ page, page ∉ s.pool.table → page ∉ s'.pool.table)
      (fun failure s' => s.Refused failure s') := by
  simp only [evict, Ends.bind_iff, pool_iff, Recency.evict]
  cases found : s.pool.recency.victim with
  | none => exact ⟨⟨_, rfl, trivial⟩, h, .refl s⟩
  | some victim =>
    obtain ⟨bound, idle⟩ := (h.pool.evictable victim).mp (Recency.victim_evictable found)
    obtain ⟨page, bound⟩ := Option.ne_none_iff_exists'.mp bound
    have bound' : (frame { s.pool with recency := s.pool.recency.remove victim } victim).page =
      some page := bound
    simp only [Option.map_some, Ends.bind_iff, mapPool_iff, pool_iff, bound', Ends.tryCatch_iff,
      Ends.throw_iff]
    refine (writeBack_ends victim page _).imp ?_ ?_
    · rintro - s' (⟨rfl, clean⟩ | ⟨-, files, pool⟩)
      · exact empty_victim h bound idle (clean bound) _
      · let t : Storage := ⟨s'.disk, wrote victim s.pool⟩
        have files : t.disk.file = _ := files
        obtain ⟨coherent, kept⟩ := cleaned_coherent h bound files rfl
        have frame : t.pool.frame victim = (s.pool.frame victim).clearDirty := by
          change (mapFrame victim _ s.pool).frame victim = _
          rw [frame_mapFrame, if_pos ⟨rfl, Invariant.bound_in_range (by simp [bound])⟩]
        obtain ⟨emptied, kept', absent⟩ := empty_victim coherent
          (by rw [frame]; exact bound) (by rw [frame]; exact idle) (by rw [frame]; rfl)
          fun c => { c with evictions := c.evictions + 1 }
        simp only [pool]
        exact ⟨emptied, kept.trans kept', absent⟩
    · intro failure s' ended
      rcases ended with ⟨-, latched⟩ | ⟨⟨cause, rfl⟩, pool, files⟩
      · obtain ⟨guard, mem, here⟩ := List.any_eq_true.mp latched
        simp only [decide_eq_true_eq] at here
        exact absurd here.1 (h.pool.unguarded idle mem)
      · simp only [pool]
        exact ⟨⟨_, rfl, trivial⟩,
          ⟨h.pool.reregister (by simp [bound]) idle, by
            rw [Disk.content_congr files]; exact h.synced⟩,
          ⟨by funext; simp only [Storage.content, Disk.content_congr files]; rfl, rfl, rfl, rfl⟩⟩

theorem acquireFrame_ends {s : Storage} (h : s.Coherent .nothing) :
    Ends acquireFrame s
      (fun id s' => s'.Coherent (.emptied id) ∧ s.Kept s' ∧
        ∀ page, page ∉ s.pool.table → page ∉ s'.pool.table)
      (fun failure s' => s.Refused failure s') := by
  simp only [acquireFrame, Ends.bind_iff, pool_iff]
  cases free : s.pool.free with
  | nil => exact evict_ends h
  | cons id rest => exact ⟨⟨h.pool.take_free free, h.synced⟩, ⟨rfl, rfl, rfl, rfl⟩, fun _ h => h⟩

theorem bind_coherent {s : Storage} {id : FrameId} {page : PageId} (h : s.Coherent (.emptied id))
    (absent : page ∉ s.pool.table) (bytes : Option Page) (dirty : Bool)
    (synced : dirty = false → bytes.getD Page.zeroed = s.disk.content page) :
    let s' : Storage := { s with pool := Pool.bind id page bytes dirty s.pool }
    s'.Coherent (.pinned id) ∧
      s'.content = Function.update s.content page (bytes.getD Page.zeroed) := by
  intro s'
  obtain ⟨inside, unbound⟩ := h.pool.in_range id rfl
  have frames (other : FrameId) : s'.pool.frame other = _ :=
    Invariant.frame_bind inside page bytes dirty other
  have table : s'.pool.table = s.pool.table.insert page id := rfl
  have elsewhere {other_page : PageId} {other : FrameId}
      (at_page : s.pool.table[other_page]? = some other) : other ≠ id := by
    rintro rfl
    have := (h.pool.bound other_page other).mp at_page
    rw [unbound] at this
    cases this
  refine ⟨⟨h.pool.bind absent bytes dirty, ?_⟩, ?_⟩
  · intro other_page other at_page clean guards
    rw [table, Std.TreeMap.getElem?_insert] at at_page
    split at at_page
    · rename_i same
      cases at_page
      rw [frames, if_pos rfl] at clean ⊢
      rw [← Std.LawfulEqCmp.compare_eq_iff_eq.mp same]
      exact synced clean
    · rw [frames, if_neg (elsewhere at_page)] at clean ⊢
      exact h.synced other_page other at_page clean guards
  · funext other_page
    unfold Storage.content
    rw [table, Std.TreeMap.getElem?_insert]
    by_cases same : page = other_page
    · subst same
      rw [if_pos Std.ReflCmp.compare_self, Function.update_self]
      simp only [frames, if_pos]
    · rw [if_neg (fun e => same (Std.LawfulEqCmp.compare_eq_iff_eq.mp e)),
        Function.update_of_ne (Ne.symm same)]
      cases at_page : s.pool.table[other_page]? with
      | none => rfl
      | some other => simp only [frames, if_neg (elsewhere at_page)]

theorem guards_of_new {size : Nat} {pool : Pool} (new : Pool.new size = .ok pool) :
    pool.guards = [] := by
  unfold Pool.new at new
  split at new <;> cases new
  rfl

theorem new_coherent {size : Nat} {pool : Pool} (new : Pool.new size = .ok pool) (disk : Disk) :
    (⟨disk, pool⟩ : Storage).Coherent .nothing ∧
      (⟨disk, pool⟩ : Storage).content = disk.content := by
  have invariant := new_invariant new
  have absent (page : PageId) : pool.table[page]? = none := by
    unfold Pool.new at new
    split at new
    · cases new
    · cases new; simp
  refine ⟨⟨invariant, fun page id resident => ?_⟩, funext fun page => ?_⟩
  · exact absurd ((absent page).symm.trans resident) (by simp)
  · rw [Storage.content, absent]

end Pool

end PagedIndex
