import PagedIndex.Fault
import PagedIndex.Volume.File

/-!
A tree of directories and files, addressed by path.

Paths are relative to the root, which is a directory. `outcomes` says ahead which accesses the
volume refuses: each access takes the next entry, and one without an entry is not refused. A
refused access changes nothing.
-/

namespace PagedIndex

/-- The names from the root down to an entry. -/
abbrev Path := List String

inductive Entry where
  | directory
  | file (content : File)

structure Volume where
  entries : Std.TreeMap Path Entry
  outcomes : List (Option OsError)

abbrev VolumeM := EStateM OsError Volume

namespace Volume

def empty : Volume := ⟨∅, []⟩

def entryAt (volume : Volume) (path : Path) : Option Entry :=
  if path = [] then some .directory else volume.entries[path]?

def put (path : Path) (entry : Entry) (volume : Volume) : Volume :=
  { volume with entries := volume.entries.insert path entry }

/-- The place of a name in a directory, whether or not anything is there. -/
def member (volume : Volume) (path : Path) (name : String) : Except OsError Path :=
  match volume.entryAt path with
  | none => .error .notFound
  | some (.file _) => .error .notADirectory
  | some .directory => .ok (path ++ [name])

/-- Follows a name from a directory: "." stays there and ".." goes up. -/
def step (volume : Volume) (path : Path) (name : String) : Except OsError Path := do
  let below ← volume.member path name
  return if name = "." then path else if name = ".." then path.dropLast else below

def walk (volume : Volume) (names : List String) : Except OsError Path :=
  names.foldlM volume.step []

/-- The names that make up a path. Slashes next to each other count as one. -/
def names (path : String) : List String := (path.splitOn "/").filter (· ≠ "")

def resolve (volume : Volume) (path : String) : Except OsError Path :=
  if path = "" then .error .notFound else volume.walk (names path)

/-- The place of what is at a path. A slash at the end asks for a directory. -/
def resolveEntry (volume : Volume) (path : String) : Except OsError Path := do
  let place ← volume.resolve path
  if path.endsWith "/" then volume.step place "." else .ok place

/-- The place of a file to be opened. A path with a slash at its end names no file. -/
def resolveFile (volume : Volume) (path : String) : Except OsError Path := do
  let place ← volume.resolve path
  if path.endsWith "/" then .error .isADirectory else .ok place

def lookup (volume : Volume) (path : String) : Except OsError Entry := do
  match volume.entryAt (← volume.resolveEntry path) with
  | some entry => return entry
  | none => throw .notFound

/-- Takes the next outcome. -/
def access : VolumeM Unit := fun volume =>
  match volume.outcomes with
  | [] => .ok () volume
  | none :: rest => .ok () { volume with outcomes := rest }
  | some cause :: rest => .error cause { volume with outcomes := rest }

def ofExcept {α : Type} : Except OsError α → VolumeM α
  | .ok a => pure a
  | .error cause => throw cause

def createDirectory (path : String) : VolumeM Unit := do
  access
  let place ← ofExcept ((← get).resolve path)
  if ((← get).entryAt place).isSome then throw .alreadyExists
  modify (put place .directory)

/-- Removes a directory that holds nothing. It is named by its own name, not by "." or "..". -/
def removeDirectory (path : String) : VolumeM Unit := do
  access
  let place ← ofExcept ((← get).resolve path)
  match (names path).getLast? with
  | some "." => throw .invalidArgument
  | some ".." => throw .directoryNotEmpty
  | _ => pure ()
  match (← get).entryAt place with
  | none => throw .notFound
  | some (.file _) => throw .notADirectory
  | some .directory =>
    if (← get).entries.keys.any fun other => place.isPrefixOf other && other != place then
      throw .directoryNotEmpty
    modify fun volume => { volume with entries := volume.entries.erase place }

/-- Opens the file at the place that `locate` finds, created empty if there is none. Nothing moves
a file or takes one away, so the place goes on to name the open file. -/
def openFile (locate : Volume → Except OsError Path) : VolumeM Path := do
  access
  let place ← ofExcept (locate (← get))
  match (← get).entryAt place with
  | some (.file _) => return place
  | some .directory => throw .isADirectory
  | none =>
    modify (put place (.file .empty))
    return place

def content (place : Path) : VolumeM File := do
  access
  match (← get).entryAt place with
  | some (.file content) => return content
  | _ => throw .notFound

def mapContent (place : Path) (f : File → File) : VolumeM Unit := do
  let old ← content place
  modify (put place (.file (f old)))

def putFile (path : String) (content : File) : VolumeM Unit := do
  mapContent (← openFile (·.resolveFile path)) fun _ => content

def list (path : String) : VolumeM (List String) := do
  access
  let place ← ofExcept ((← get).resolveEntry path)
  match (← get).entryAt place with
  | none => throw .notFound
  | some (.file _) => throw .notADirectory
  | some .directory =>
    return (← get).entries.keys.filterMap fun other =>
      if other.dropLast = place then other.getLast? else none

end Volume

end PagedIndex
