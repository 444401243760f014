import PagedIndex.Pool.Residency

/-!
Taking guards on pages, reading and writing through them, and letting them go.

A latch that a guard of the same caller holds is never waited for: that caller would wait for
itself.
-/

namespace PagedIndex.Pool

open StorageM

variable {D : Type}

def takeGuard (latch : Latch) (page : PageId) (frame : FrameId) : StorageOn D GuardId := do
  let pool ← StorageM.pool
  if pool.writeLatched frame || (latch = .exclusive && pool.latched frame) then
    violate .latchHeld
  let id : GuardId := ⟨pool.nextGuard⟩
  mapPool fun pool =>
    { pool with
      guards := { id, frame, page, latch, dirty := false } :: pool.guards
      nextGuard := pool.nextGuard + 1 }
  return id

def fetch [Device D] (latch : Latch) (page : PageId) : StorageOn D GuardId := do
  takeGuard latch page (← pinPage page)

/-- Pins a new page of zeros, which is dirty from the start, and takes its exclusive latch. -/
def create [Device D] (page : PageId) : StorageOn D GuardId := do
  if page ∈ (← pool).table then fail (.pageAlreadyResident page)
  let id ← acquireFrame
  mapPool (bind id page none true)
  mapPool (tally fun c => { c with pagesCreated := c.pagesCreated + 1 })
  takeGuard .exclusive page id

def heldGuard (id : GuardId) : StorageOn D Guard := do
  let some guard := (← pool).guard? id | violate .staleGuard
  return guard

def bytes (id : GuardId) : StorageOn D Page := do
  let guard ← heldGuard id
  return ((← pool).frame guard.frame).bytes

/-- Replaces the bytes of a guarded page. The guard remembers that it wrote. -/
def write (id : GuardId) (bytes : Page) : StorageOn D Unit := do
  let guard ← heldGuard id
  mapPool (mapFrame guard.frame fun frame => { frame with bytes })
  mapPool fun pool =>
    { pool with
      guards := pool.guards.map fun other =>
        if other.id = id then { other with dirty := true } else other }

/-- Gives a pin back; a frame without pins may be evicted. -/
def unpin (id : FrameId) (dirty : Bool) : StorageOn D Unit := do
  if dirty then mapPool (mapFrame id Frame.markDirty)
  match ((← pool).frame id).unpin with
  | .error violation => violate violation
  | .ok frame =>
    mapPool (mapFrame id fun _ => frame)
    if frame.pins = 0 then
      mapPool fun pool => { pool with recency := pool.recency.setEvictable id true }

def release (id : GuardId) : StorageOn D Unit := do
  let guard ← heldGuard id
  mapPool fun pool => { pool with guards := pool.guards.filter (·.id ≠ id) }
  unpin guard.frame guard.dirty

end PagedIndex.Pool
