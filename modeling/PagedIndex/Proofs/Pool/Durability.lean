import PagedIndex.Proofs.Pool.Flushing

/-!
# A flush makes the disk equal to the pool

A frame is clean only if its page is on disk as the frame has it, apart from what guards that wrote
have yet to report. With no exclusive guard live there is nothing to report, so once every frame
is clean the disk reads as the pool does. A flush that is refused leaves each page clean and on
disk or still dirty, and the next one takes it from there.
-/

namespace PagedIndex

namespace Pool

/-- What the guards allow: only an exclusive one is written through. -/
def Operation.Lawful (pool : Pool) : Operation → Prop
  | write id _ => ∀ guard ∈ pool.guards, guard.id = id → guard.latch = .exclusive
  | create _ | fetch _ _ | read _ | release _ | delete _ | flush _ | flushAll _ => True

end Pool

namespace Storage

open Pool

/-- What users make of a storage by operations that guards allow, failed ones among them, and by
resets of its counters. Only pages that are `gone` were dropped on the way. -/
inductive Used (gone : PageId → Prop) (s : Storage) : Storage → Prop where
  | start : s.Used gone s
  | after {t u : Storage} {operation : Operation} (used : s.Used gone t)
      (lawful : operation.Lawful t.pool) (drops : ∀ page, operation.Drops page → gone page)
      (leaves : operation.Leaves t u) : s.Used gone u
  | reset {t : Storage} (used : s.Used gone t) : s.Used gone ⟨t.disk, t.pool.resetCounters⟩

def Unwritten (s : Storage) : Prop :=
  ∀ guard ∈ s.pool.guards, guard.latch = .shared → guard.dirty = false

structure Tended (s : Storage) : Prop where
  coherent : s.Coherent .nothing
  backed : s.Backed
  unwritten : s.Unwritten

section Use

variable {s s' t : Storage} {gone : PageId → Prop}

theorem Took.unwritten {latch : Latch} {page : PageId} {id : GuardId}
    (took : s.Took latch page id s') (h : s.Unwritten) : s'.Unwritten := by
  obtain ⟨frame, guards⟩ := took.guards
  rw [Unwritten, guards]
  exact List.forall_mem_cons.mpr ⟨fun _ => rfl, h⟩

theorem Kept.unwritten (kept : s.Kept s') (h : s.Unwritten) : s'.Unwritten := by
  rw [Unwritten, kept.guards]
  exact h

theorem unwritten_of_makes {operation : Operation} (makes : operation.Makes s s')
    (lawful : operation.Lawful s.pool) (h : s.Unwritten) : s'.Unwritten := by
  cases makes with
  | create took => exact took.unwritten h
  | fetch took => exact took.unwritten h
  | read => exact h
  | @write writer _ _ _ _ guards =>
    intro written mem shared
    rw [guards] at mem
    obtain ⟨guard, listed, rfl⟩ := List.mem_map.mp mem
    rw [marked_latch] at shared
    have other : guard.id ≠ writer.id := fun same => by
      have exclusive := lawful guard listed same
      rw [shared] at exclusive
      cases exclusive
    rw [marked, if_neg other]
    exact h guard listed shared
  | release _ guards =>
    intro guard mem
    rw [guards] at mem
    exact h guard (List.mem_of_mem_filter mem)
  | delete _ guards =>
    rw [Unwritten, guards]
    exact h
  | flush kept => exact kept.unwritten h
  | flushAll kept => exact kept.unwritten h

theorem lawful_unwritten (h : s.Tended) {operation : Operation}
    (lawful : operation.Lawful s.pool) :
    Ends operation.perform s (fun _ s' => s'.Unwritten)
      (fun failure s' => s'.Unwritten ∨ ∃ violation, failure = .violation violation) :=
  (perform_ends h.coherent operation).imp
    (fun _ _ ended => unwritten_of_makes ended.2 lawful h.unwritten)
    fun _ _ fails => fails.unless_violated fun refused => refused.kept.unwritten h.unwritten

theorem Tended.new {size : Nat} {pool : Pool} (new : Pool.new size = .ok pool) (disk : Disk) :
    Tended ⟨disk, pool⟩ := by
  refine ⟨(new_coherent new disk).1, backed_of_new new disk, fun guard mem => ?_⟩
  rw [show (⟨disk, pool⟩ : Storage).pool.guards = [] from guards_of_new new] at mem
  cases mem

theorem Tended.leaves (h : s.Tended) {operation : Operation} (lawful : operation.Lawful s.pool)
    (leaves : operation.Leaves s t) : t.Tended ∧ s.Lasts operation.Brings operation.Drops t := by
  have lasts : s.Lasts operation.Brings operation.Drops t :=
    leaves.of_ends ((operation_lasts h.coherent h.backed operation).imp (fun _ _ lasts => lasts)
      fun _ _ lasts => .inl lasts)
  exact ⟨⟨coherent_of_leaves h.coherent leaves, lasts.backed,
    leaves.of_ends (lawful_unwritten h lawful)⟩, lasts⟩

theorem Used.keeps (used : s.Used gone t) (h : s.Tended) :
    t.Tended ∧ s.Lasts (fun _ => True) gone t := by
  induction used with
  | start => exact ⟨h, .of_stays (.refl h.backed)⟩
  | after used lawful drops leaves ih =>
    obtain ⟨tended, lasts⟩ := ih
    obtain ⟨tended', lasts'⟩ := tended.leaves lawful leaves
    exact ⟨tended', lasts.trans (lasts'.imp (fun _ _ => trivial) drops)⟩
  | reset used ih =>
    obtain ⟨⟨coherent, backed, unwritten⟩, lasts⟩ := ih
    have stays := Lasts.of_pool backed (rfl : (resetCounters _).table = _) fun _ clean => clean
    exact ⟨⟨⟨coherent.pool.tally fun _ => .zero, coherent.synced⟩, stays.backed, unwritten⟩,
      lasts.trans (.of_stays stays)⟩

end Use

/-- A flush went through: all frames are clean and on disk, and only dirty pages were written. -/
structure Flushed (s s' : Storage) : Prop where
  pool : s'.pool = { s.pool with
    frames := s.pool.frames.map Frame.clearDirty
    counters := { s.pool.counters with
      pagesWritten := s.pool.counters.pagesWritten + UInt64.ofNat s.pool.dirtyPages.length } }
  durable : ∀ page id, s'.pool.table[page]? = some id → (s'.pool.frame id).dirty = false ∧
    s'.disk.Holds page ∧ s'.disk.content page = (s'.pool.frame id).bytes
  disk : s.disk.Rewrote s.pool.Dirty s'.disk

section Endings

variable {s s' : Storage} {residents visited : List (PageId × FrameId)}

/-- With no exclusive guard live a clean frame is on disk. -/
theorem Tended.image (h : s.Tended) (free : ∀ guard ∈ s.pool.guards, guard.latch = .shared)
    {page : PageId} {id : FrameId} (resident : s.pool.table[page]? = some id)
    (clean : (s.pool.frame id).dirty = false) :
    s.disk.Holds page ∧ s.disk.content page = (s.pool.frame id).bytes :=
  ⟨h.backed page id resident clean, (h.coherent.synced page id resident clean
    fun guard mem _ => h.unwritten guard mem (free guard mem)).symm⟩

theorem Flushed.clean (flushed : s.Flushed s') (order : residents.Perm s'.pool.table.toList)
    {resident : PageId × FrameId} (mem : resident ∈ residents) :
    (s'.pool.frame resident.2).dirty = false :=
  (flushed.durable _ _ (mem_toList.mp (order.mem_iff.mp mem))).1

theorem Flushed.holds (flushed : s.Flushed s') {page : PageId} (available : s'.Available page) :
    s'.disk.Holds page := by
  rcases available with resident | holds
  · obtain ⟨id, resident⟩ := Option.isSome_iff_exists.mp
      (Std.TreeMap.isSome_getElem?_iff_mem.mpr resident)
    exact (flushed.durable page id resident).2.1
  · exact holds

end Endings

end Storage

namespace Pool

open StorageM Storage

variable {s : Storage}

theorem flush_of_clean {residents : List (PageId × FrameId)}
    (clean : ∀ resident ∈ residents, (s.pool.frame resident.2).dirty = false) :
    Ends (flushInOrder residents) s
      (fun _ s' => s'.pool = s.pool ∧ s'.disk.file = s.disk.file)
      (fun _ s' => s'.pool = s.pool ∧ s'.disk.file = s.disk.file) := by
  rw [flushInOrder, Ends.bind_iff]
  refine (Ends.forM_keeps (fun t => t = s) rfl ?_).imp ?_ fun _ _ ended => ended
  · rintro ⟨page, id⟩ mem _ rfl
    refine ((writeBack_ends id page _).and (writeBack_serves id page _)).imp ?_
      fun _ _ ended => ⟨ended.2.2.1, ended.2.2.2.1⟩
    rintro - s' ⟨⟨same, -⟩ | ⟨⟨-, dirty⟩, -⟩, -⟩
    · exact same
    · rw [clean _ mem] at dirty
      cases dirty
  · rintro _ _ rfl
    exact onDisk_ends ((Disk.sync_ends _).imp (fun _ _ files => ⟨rfl, files⟩)
      fun _ _ ended => ⟨rfl, ended.1⟩)

instance (pool : Pool) : (operation : Operation) → Decidable (operation.Lawful pool)
  | .write id _ => inferInstanceAs
      (Decidable (∀ guard ∈ pool.guards, guard.id = id → guard.latch = .exclusive))
  | .create _ | .fetch _ _ | .read _ | .release _ | .delete _ | .flush _ | .flushAll _ =>
      .isTrue trivial

end Pool

end PagedIndex
