import PagedIndex.Proofs.Pool.Transparency

/-!
# Watching what the disk writes

A watched disk notes each page whose write it completed. The operations of a pool do over it what
they do over the disk alone, and the pool's count of the pages written is the number of notes.
-/

namespace PagedIndex

/-- A disk, and the pages that it has written, the last one first. -/
structure WatchedDisk where
  disk : Disk
  written : List PageId

namespace WatchedDisk

def unseen {α : Type} (action : DiskM α) : EStateM StorageFault WatchedDisk α := fun watched =>
  match action.run watched.disk with
  | .ok a disk => .ok a { watched with disk }
  | .error fault disk => .error fault { watched with disk }

def note (page : PageId) : EStateM StorageFault WatchedDisk Unit :=
  modify fun watched => { watched with written := page :: watched.written }

instance : Device WatchedDisk where
  readPage page := unseen (Disk.readPage page)
  writePage page bytes := do
    unseen (Disk.writePage page bytes)
    note page
  sync := unseen Disk.sync

theorem run_writePage (page : PageId) (bytes : Page) (watched : WatchedDisk) :
    (Device.writePage page bytes).run watched =
      match (Disk.writePage page bytes).run watched.disk with
      | .ok a disk => .ok a ⟨disk, page :: watched.written⟩
      | .error fault disk => .error fault ⟨disk, watched.written⟩ := by
  change EStateM.bind (unseen (Disk.writePage page bytes)) (fun _ => note page) watched = _
  unfold EStateM.bind unseen
  cases (Disk.writePage page bytes).run watched.disk <;> rfl

end WatchedDisk

namespace Storage

def unwatched (watched : Storage WatchedDisk) : Storage := ⟨watched.disk.disk, watched.pool⟩

/-- The count of the pages written is the number of notes. -/
def Faithful (watched : Storage WatchedDisk) : Prop :=
  watched.pool.counters.pagesWritten = UInt64.ofNat watched.disk.written.length

end Storage

/-- Over a watched disk the action ends as it does over the disk, and its notes are as many as are
counted. -/
def Watches {α : Type} (watched : StorageOn WatchedDisk α) (action : StorageM α) : Prop :=
  ∀ w : Storage WatchedDisk, w.Faithful → Ends watched w
    (fun a w' => action.run w.unwatched = .ok a w'.unwatched ∧ w'.Faithful)
    (fun failure w' => action.run w.unwatched = .error failure w'.unwatched ∧ w'.Faithful)

namespace Watches

variable {α β : Type} {watched : StorageOn WatchedDisk α} {action : StorageM α}

theorem pure (a : α) : Watches (Pure.pure a) (Pure.pure a) :=
  fun _ faithful => ⟨rfl, faithful⟩

theorem throw (failure : Failure) :
    Watches (MonadExcept.throw failure : StorageOn WatchedDisk α) (MonadExcept.throw failure) :=
  fun _ faithful => ⟨rfl, faithful⟩

theorem bind {next : α → StorageOn WatchedDisk β} {next' : α → StorageM β}
    (h : Watches watched action) (h' : ∀ a, Watches (next a) (next' a)) :
    Watches (watched >>= next) (action >>= next') := by
  intro w faithful
  rw [Ends.bind_iff]
  apply (h w faithful).imp
  · intro a w' ended
    obtain ⟨ran, faithful'⟩ := ended
    apply (h' a w' faithful').imp
    · intro b w'' ended
      obtain ⟨ran', faithful''⟩ := ended
      refine ⟨?_, faithful''⟩
      rw [EStateM.run_bind, ran]
      exact ran'
    · intro failure w'' ended
      obtain ⟨ran', faithful''⟩ := ended
      refine ⟨?_, faithful''⟩
      rw [EStateM.run_bind, ran]
      exact ran'
  · intro failure w' ended
    obtain ⟨ran, faithful'⟩ := ended
    refine ⟨?_, faithful'⟩
    rw [EStateM.run_bind, ran]

theorem run_tryCatch {ε σ : Type} (action : EStateM ε σ α) (handler : ε → EStateM ε σ α) (s : σ) :
    (tryCatch action handler).run s = match action.run s with
      | .ok a s' => .ok a s'
      | .error failure s' => (handler failure).run s' := by
  change EStateM.tryCatch action handler s = _
  unfold EStateM.tryCatch EStateM.run
  cases action s <;> rfl

theorem recover {handler : Failure → StorageOn WatchedDisk α} {handler' : Failure → StorageM α}
    (h : Watches watched action) (h' : ∀ failure, Watches (handler failure) (handler' failure)) :
    Watches (tryCatch watched handler) (tryCatch action handler') := by
  intro w faithful
  rw [Ends.tryCatch_iff, run_tryCatch]
  apply (h w faithful).imp
  · intro a w' ended
    obtain ⟨ran, faithful'⟩ := ended
    exact ⟨by rw [ran], faithful'⟩
  · intro failure w' ended
    obtain ⟨ran, faithful'⟩ := ended
    rw [ran]
    exact h' failure w' faithful'

theorem ite {condition : Prop} [Decidable condition] {other : StorageOn WatchedDisk α}
    {other' : StorageM α} (h : Watches watched action) (h' : Watches other other') :
    Watches (if condition then watched else other) (if condition then action else other') := by
  split
  · exact h
  · exact h'

theorem discard (h : Watches watched action) :
    Watches (Functor.discard watched) (Functor.discard action) := by
  change Watches ((fun _ => PUnit.unit) <$> watched) ((fun _ => PUnit.unit) <$> action)
  rw [map_eq_pure_bind, map_eq_pure_bind]
  exact h.bind fun _ => .pure _

theorem forM {items : List β} {each : β → StorageOn WatchedDisk Unit} {each' : β → StorageM Unit}
    (h : ∀ item, Watches (each item) (each' item)) :
    Watches (items.forM each) (items.forM each') := by
  induction items with
  | nil => exact .pure ()
  | cons item rest ih => exact .bind (h item) fun _ => ih

theorem pool : Watches StorageM.pool StorageM.pool := fun _ faithful => ⟨rfl, faithful⟩

theorem fail (fault : StorageFault) :
    Watches (StorageM.fail fault : StorageOn WatchedDisk α) (StorageM.fail fault) := .throw _

theorem violate (violation : Violation) :
    Watches (StorageM.violate violation : StorageOn WatchedDisk α) (StorageM.violate violation) :=
  .throw _

theorem mapPool {f : Pool → Pool}
    (same : ∀ pool, (f pool).counters.pagesWritten = pool.counters.pagesWritten) :
    Watches (StorageM.mapPool f) (StorageM.mapPool f) :=
  fun w faithful => ⟨rfl, (same w.pool).trans faithful⟩

theorem onDisk {watched : EStateM StorageFault WatchedDisk α} {action : DiskM α}
    (same : watched = WatchedDisk.unseen action) :
    Watches (StorageM.onDisk watched) (StorageM.onDisk action) := by
  intro w faithful
  subst same
  unfold Ends StorageM.onDisk
  simp only [EStateM.run, WatchedDisk.unseen]
  cases ran : action w.disk.disk with
  | ok a disk => exact ⟨by simp only [Storage.unwatched, ran], faithful⟩
  | error fault disk => exact ⟨by simp only [Storage.unwatched, ran], faithful⟩

end Watches

namespace Pool

open StorageM

theorem written_watches (id : FrameId) (page : PageId) (bytes : Page) :
    Watches (do
        onDisk (Device.writePage page bytes)
        mapPool (mapFrame id Frame.clearDirty)
        mapPool (tally fun c => { c with pagesWritten := c.pagesWritten + 1 }))
      (do
        onDisk (Device.writePage page bytes)
        mapPool (mapFrame id Frame.clearDirty)
        mapPool (tally fun c => { c with pagesWritten := c.pagesWritten + 1 })) := by
  intro w faithful
  have plain := run_onDisk (Device.writePage page bytes) w.unwatched
  have noted := run_onDisk (Device.writePage page bytes) w
  rw [WatchedDisk.run_writePage] at noted
  rw [Ends, EStateM.run_bind, EStateM.run_bind, noted]
  cases ran : (Disk.writePage page bytes).run w.disk.disk with
  | ok _ disk =>
    rw [show (Device.writePage page bytes).run w.unwatched.disk = _ from ran] at plain
    refine ⟨by rw [plain]; rfl, ?_⟩
    change w.pool.counters.pagesWritten + 1 = UInt64.ofNat (w.disk.written.length + 1)
    rw [faithful, UInt64.ofNat_add]
    rfl
  | error fault disk =>
    rw [show (Device.writePage page bytes).run w.unwatched.disk = _ from ran] at plain
    exact ⟨by rw [plain]; rfl, faithful⟩

theorem writeBack_watches (id : FrameId) (page : PageId) :
    Watches (writeBack id page) (writeBack id page) := by
  refine .bind .pool fun pool => ?_
  split
  · exact .bind (.violate _) fun _ => .ite (written_watches id page _) (.pure ())
  · exact .ite (written_watches id page _) (.pure ())

theorem evict_watches : Watches evict evict := by
  refine .bind .pool fun pool => ?_
  cases pool.recency.evict with
  | none => exact .fail _
  | some choice =>
    obtain ⟨victim, recency⟩ := choice
    refine .bind (.mapPool fun _ => rfl) fun _ => .bind .pool fun pool => ?_
    cases (pool.frame victim).page with
    | none =>
      exact .bind (.mapPool fun _ => rfl) fun _ =>
        .bind (.mapPool fun _ => rfl) fun _ => .pure victim
    | some page =>
      refine .bind (.recover (writeBack_watches victim page) fun failure => ?_) fun _ =>
        .bind (.mapPool fun _ => rfl) fun _ => .bind (.mapPool fun _ => rfl) fun _ =>
          .bind (.mapPool fun _ => rfl) fun _ => .pure victim
      exact .bind (.mapPool fun _ => rfl) fun _ => .throw failure

theorem acquireFrame_watches : Watches acquireFrame acquireFrame := by
  refine .bind .pool fun pool => ?_
  cases pool.free with
  | nil => exact evict_watches
  | cons id rest => exact .bind (.mapPool fun _ => rfl) fun _ => .pure id

theorem load_watches (page : PageId) : Watches (load page) (load page) := by
  refine .bind (.mapPool fun _ => rfl) fun _ => .bind acquireFrame_watches fun id =>
    .bind (.recover (.onDisk rfl) fun failure => ?_) fun bytes => ?_
  · exact .bind (.mapPool fun _ => rfl) fun _ => .throw failure
  · exact .bind (.mapPool fun _ => rfl) fun _ => .bind (.mapPool fun _ => rfl) fun _ => .pure id

theorem pinPage_watches (page : PageId) : Watches (pinPage page) (pinPage page) := by
  refine .bind .pool fun pool => ?_
  cases pool.table[page]? with
  | none => exact load_watches page
  | some id =>
    refine .bind .pool fun pool => ?_
    split
    · exact .bind (.violate _) fun _ => .bind (.mapPool fun _ => rfl) fun _ => .pure id
    · exact .bind (.mapPool fun _ => rfl) fun _ => .pure id

theorem takeGuard_watches (latch : Latch) (page : PageId) (frame : FrameId) :
    Watches (takeGuard latch page frame) (takeGuard latch page frame) := by
  refine .bind .pool fun pool => ?_
  split
  · exact .bind (.violate _) fun _ => .bind (.mapPool fun _ => rfl) fun _ => .pure _
  · exact .bind (.mapPool fun _ => rfl) fun _ => .pure _

theorem fetch_watches (latch : Latch) (page : PageId) :
    Watches (fetch latch page) (fetch latch page) :=
  .bind (pinPage_watches page) fun frame => takeGuard_watches latch page frame

theorem create_watches (page : PageId) : Watches (create page) (create page) := by
  refine .bind .pool fun pool => ?_
  split
  · exact .bind (.fail _) fun _ => .bind acquireFrame_watches fun id =>
      .bind (.mapPool fun _ => rfl) fun _ => .bind (.mapPool fun _ => rfl) fun _ =>
        takeGuard_watches _ page id
  · exact .bind acquireFrame_watches fun id =>
      .bind (.mapPool fun _ => rfl) fun _ => .bind (.mapPool fun _ => rfl) fun _ =>
        takeGuard_watches _ page id

theorem heldGuard_watches (id : GuardId) : Watches (heldGuard id) (heldGuard id) := by
  refine .bind .pool fun pool => ?_
  cases pool.guard? id with
  | none => exact .violate _
  | some guard => exact .pure guard

theorem bytes_watches (id : GuardId) : Watches (bytes id) (bytes id) :=
  .bind (heldGuard_watches id) fun _ => .bind .pool fun _ => .pure _

theorem write_watches (id : GuardId) (bytes : Page) : Watches (write id bytes) (write id bytes) :=
  .bind (heldGuard_watches id) fun _ => .bind (.mapPool fun _ => rfl) fun _ =>
    .mapPool fun _ => rfl

theorem unpin_watches (id : FrameId) (dirty : Bool) :
    Watches (unpin id dirty) (unpin id dirty) := by
  have given : Watches (unpin id false) (unpin id false) := by
    refine .bind .pool fun pool => ?_
    cases (pool.frame id).unpin with
    | error violation => exact .violate violation
    | ok frame =>
      refine .bind (.mapPool fun _ => rfl) fun _ => ?_
      split
      · exact .mapPool fun _ => rfl
      · exact .pure ()
  cases dirty with
  | false => exact given
  | true => exact .bind (.mapPool fun _ => rfl) fun _ => given

theorem release_watches (id : GuardId) : Watches (release id) (release id) :=
  .bind (heldGuard_watches id) fun guard => .bind (.mapPool fun _ => rfl) fun _ =>
    unpin_watches guard.frame guard.dirty

theorem delete_watches (page : PageId) : Watches (delete page) (delete page) := by
  refine .bind .pool fun pool => ?_
  cases pool.table[page]? with
  | none => exact .pure ()
  | some id =>
    refine .bind .pool fun pool => ?_
    split
    · exact .bind (.fail _) fun _ => .mapPool fun _ => rfl
    · exact .mapPool fun _ => rfl

theorem flush_watches (page : PageId) : Watches (flush page) (flush page) := by
  refine .bind .pool fun pool => ?_
  cases pool.table[page]? with
  | none => exact .pure ()
  | some id => exact writeBack_watches id page

theorem flushInOrder_watches (residents : List (PageId × FrameId)) :
    Watches (flushInOrder residents) (flushInOrder residents) :=
  .bind (.forM fun resident => writeBack_watches resident.2 resident.1) fun _ => .onDisk rfl

/-- Watching the disk changes nothing of an operation. -/
theorem perform_watches (operation : Operation) :
    Watches operation.perform operation.perform := by
  cases operation with
  | create page => exact .discard (create_watches page)
  | fetch latch page => exact .discard (fetch_watches latch page)
  | read id => exact .discard (bytes_watches id)
  | write id bytes => exact write_watches id bytes
  | release id => exact release_watches id
  | delete page => exact delete_watches page
  | flush page => exact flush_watches page
  | flushAll residents => exact flushInOrder_watches residents

end Pool

end PagedIndex
