import PagedIndex.SegmentStore

/-!
Pages on disk. Page `n` of a segment lies at offset `n * pageSize` of the segment's file.

No page numbers are handed out here. A page exists once its file reaches past it, so writing a
page brings those before it into being, all zero. The first read or write of a segment creates its
file.
-/

namespace PagedIndex

/-- A segment store and the volume that its directory is on. -/
structure Disk where
  store : SegmentStore
  volume : Volume

abbrev DiskM := EStateM StorageFault Disk

namespace Disk

def onVolume {α : Type} (action : VolumeM α) : DiskM α := fun disk =>
  match action.run disk.volume with
  | .ok a volume => .ok a { disk with volume }
  | .error cause volume => .error (.io (.refused cause)) { disk with volume }

def openSegment (segment : SegmentId) : DiskM Path := do
  let store := (← get).store
  match store.opened[segment]? with
  | some directory => return directory ++ [SegmentStore.fileName segment]
  | none =>
    let place ← onVolume (Volume.openFile (store.locate segment))
    modify fun disk =>
      { disk with store.opened := disk.store.opened.insert segment place.dropLast }
    return place

def readPage (page : PageId) : DiskM Page := do
  let file ← onVolume (Volume.content (← openSegment page.segment))
  if file.length < (page.pageNo + 1) * pageSize then throw (.pageNotFound page)
  return file.page page.pageNo

def writePage (page : PageId) (bytes : Page) : DiskM Unit := do
  let place ← openSegment page.segment
  onVolume (Volume.mapContent place (·.write page.pageNo bytes))

/-- Whole pages in a segment's file. A segment without a file has none, and gets no file. -/
def pageCount (segment : SegmentId) : DiskM Nat := do
  let disk ← get
  if !disk.store.holds segment disk.volume then return 0
  let file ← onVolume (Volume.content (← openSegment segment))
  return file.length / pageSize

/-- Makes what was written durable, one open file after another. -/
def sync : DiskM Unit := do
  (← get).store.opened.keys.forM fun _ => onVolume Volume.access

end Disk

/-- What the pages of a pool are kept on. -/
class Device (D : Type) where
  readPage : PageId → EStateM StorageFault D Page
  writePage : PageId → Page → EStateM StorageFault D Unit
  sync : EStateM StorageFault D Unit

instance : Device Disk := ⟨Disk.readPage, Disk.writePage, Disk.sync⟩

end PagedIndex
