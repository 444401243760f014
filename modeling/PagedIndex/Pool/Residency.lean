import PagedIndex.Pool.Storage

/-!
How pages come into frames and leave them.

A frame without a page is taken first. When there is none, the least recently used frame without
pins gives up its page, which is written back before if it is dirty.
-/

namespace PagedIndex.Pool

open StorageM

variable {D : Type} [Device D]

/-- Writes a frame's page to its segment if it is dirty. Waits for no latch: a writer of the same
caller would never let go. -/
def writeBack (id : FrameId) (page : PageId) : StorageOn D Unit := do
  let pool ← StorageM.pool
  if pool.writeLatched id then violate .latchHeld
  let frame := pool.frame id
  if frame.page = some page ∧ frame.dirty then
    onDisk (Device.writePage page frame.bytes)
    mapPool (mapFrame id Frame.clearDirty)
    mapPool (tally fun c => { c with pagesWritten := c.pagesWritten + 1 })

/-- Takes the least recently used unpinned frame from its page. If its page cannot be written
back the frame keeps it and becomes the most recent.

The frame that the recency gives has no pins, so none is given back to look for another: a frame
becomes evictable when its last pin goes and stops being so when it is pinned, and nothing runs
between the two. -/
def evict : StorageOn D FrameId := do
  let some (victim, recency) := (← pool).recency.evict | fail .noFreeFrames
  mapPool fun pool => { pool with recency }
  if let some page := ((← pool).frame victim).page then
    try writeBack victim page
    catch failure =>
      mapPool fun pool =>
        { pool with recency := (pool.recency.access victim).setEvictable victim true }
      throw failure
    mapPool fun pool => { pool with table := pool.table.erase page }
  mapPool (tally fun c => { c with evictions := c.evictions + 1 })
  mapPool (mapFrame victim Frame.clear)
  return victim

/-- A frame that holds no page: the next free one, or else one that is evicted. -/
def acquireFrame : StorageOn D FrameId := do
  match (← pool).free with
  | id :: rest =>
    mapPool fun pool => { pool with free := rest }
    return id
  | [] => evict

def bind (id : FrameId) (page : PageId) (bytes : Option Page) (dirty : Bool) (pool : Pool) :
    Pool :=
  trackPinned id
    { mapFrame id (·.install page bytes dirty) pool with table := pool.table.insert page id }

def load (page : PageId) : StorageOn D FrameId := do
  mapPool (tally fun c => { c with cacheMisses := c.cacheMisses + 1 })
  let id ← acquireFrame
  let bytes ←
    try onDisk (Device.readPage page)
    catch failure =>
      mapPool fun pool => { pool with free := id :: pool.free }
      throw failure
  mapPool (tally fun c => { c with pagesRead := c.pagesRead + 1 })
  mapPool (bind id page (some bytes) false)
  return id

def hit (id : FrameId) (pool : Pool) : Pool :=
  tally (fun c => { c with cacheHits := c.cacheHits + 1 })
    (trackPinned id (mapFrame id Frame.pin pool))

/-- Makes a page resident and pins its frame. One pin more than the frame can count ends the
run. -/
def pinPage (page : PageId) : StorageOn D FrameId := do
  match (← pool).table[page]? with
  | some id =>
    if ((← pool).frame id).isCrowded then violate .pinOverflow
    mapPool (hit id)
    return id
  | none => load page

end PagedIndex.Pool
