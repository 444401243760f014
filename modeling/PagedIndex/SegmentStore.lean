import PagedIndex.Volume.Basic

/-!
A database directory with one file per segment.

The store knows its directory by name. A segment's file is opened under that name when it is first
needed and stays open, so later changes to directories on the way do not reach an open file.
-/

namespace PagedIndex

structure SegmentStore where
  /-- The directory as its user named it. -/
  directory : String
  /-- The place of the directory in which each file opened so far lies. -/
  opened : Std.TreeMap SegmentId Path

abbrev StoreM := EStateM StorageFault Volume

namespace SegmentStore

def create (directory : String) : StoreM SegmentStore := do
  (Volume.createDirectory directory).adaptExcept fun cause => .io (.refused cause)
  return ⟨directory, ∅⟩

def attach (directory : String) : StoreM SegmentStore := do
  match (← get).lookup directory with
  | .ok .directory => return ⟨directory, ∅⟩
  | _ => throw (.io (.missingDirectory directory))

def attachOrCreate (directory : String) : StoreM SegmentStore := do
  if ((← get).lookup directory).isOk then attach directory else create directory

def fileName (segment : SegmentId) : String := s!"segment_{segment.number}.db"

def segmentPath (store : SegmentStore) (segment : SegmentId) : String :=
  let separator := if store.directory = "" || store.directory.endsWith "/" then "" else "/"
  store.directory ++ separator ++ fileName segment

/-- The place of a segment's file, as far as the directory's name leads there now. -/
def locate (store : SegmentStore) (segment : SegmentId) (volume : Volume) :
    Except OsError Path := do
  volume.member (← volume.resolve store.directory) (fileName segment)

def holds (store : SegmentStore) (segment : SegmentId) (volume : Volume) : Bool :=
  store.opened.contains segment ||
    match store.locate segment volume with
    | .ok place => (volume.entryAt place).isSome
    | .error _ => false

end SegmentStore

end PagedIndex
