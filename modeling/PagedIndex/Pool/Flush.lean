import PagedIndex.Pool.Residency

/-! Writing resident pages back to their segments, and dropping pages without that. -/

namespace PagedIndex.Pool

open StorageM

variable {D : Type}

/-- Drops a page from the pool without writing it back. -/
def delete (page : PageId) : StorageOn D Unit := do
  if let some id := (← pool).table[page]? then
    if ((← pool).frame id).isPinned then fail (.pagePinned page)
    mapPool fun pool =>
      { mapFrame id Frame.clear pool with
        table := pool.table.erase page
        recency := pool.recency.remove id
        free := id :: pool.free }

def flush [Device D] (page : PageId) : StorageOn D Unit := do
  if let some id := (← pool).table[page]? then writeBack id page

/-- Writes the dirty ones of some resident pages back, in the given order, and syncs. -/
def flushInOrder [Device D] (residents : List (PageId × FrameId)) : StorageOn D Unit := do
  residents.forM fun (page, id) => writeBack id page
  onDisk Device.sync

def flushAll [Device D] : StorageOn D Unit := do flushInOrder (← pool).table.toList

end PagedIndex.Pool
