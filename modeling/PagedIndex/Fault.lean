import PagedIndex.PageId
import PagedIndex.Violation

/-!
The errors that calls answer with, and their texts.

A storage fault comes from the pool or the files below it, a config fault from capacities that do
not fit a page, a tree fault from pages that do not form a tree. A missing key is no error.
-/

namespace PagedIndex

inductive OsError where
  | notFound
  | alreadyExists
  | notADirectory
  | isADirectory
  | directoryNotEmpty
  | invalidArgument
  | deviceFailure
  deriving DecidableEq, Repr

def OsError.text : OsError → String
  | notFound => "No such file or directory (os error 2)"
  | alreadyExists => "File exists (os error 17)"
  | notADirectory => "Not a directory (os error 20)"
  | isADirectory => "Is a directory (os error 21)"
  | directoryNotEmpty => "Directory not empty (os error 39)"
  | invalidArgument => "Invalid argument (os error 22)"
  | deviceFailure => "Input/output error (os error 5)"

inductive IoError where
  | refused (cause : OsError)
  | missingDirectory (path : String)
  | stated (text : String)
  deriving DecidableEq, Repr

def IoError.text : IoError → String
  | refused cause => cause.text
  | missingDirectory path => s!"database directory {path} does not exist"
  | stated text => text

inductive StorageFault where
  | io (cause : IoError)
  | pageNotFound (page : PageId)
  /-- Every frame is pinned. -/
  | noFreeFrames
  | pageAlreadyResident (page : PageId)
  | pagePinned (page : PageId)
  | segmentExhausted (segment : SegmentId)
  deriving DecidableEq, Repr

def StorageFault.text : StorageFault → String
  | io cause => s!"I/O error: {cause.text}"
  | pageNotFound page => s!"{page.text} not found"
  | noFreeFrames => "no free frames available in buffer pool"
  | pageAlreadyResident page => s!"{page.text} is already resident"
  | pagePinned page => s!"{page.text} is pinned"
  | segmentExhausted segment => s!"{segment.text} has no page numbers left"

inductive ConfigFault where
  | leafBelow (capacity least : Nat)
  | innerBelow (capacity least : Nat)
  | leafAbove (capacity most width : Nat)
  | innerAbove (capacity most width : Nat)
  | stated (text : String)
  deriving DecidableEq, Repr

def ConfigFault.text : ConfigFault → String
  | leafBelow capacity least => s!"leaf capacity {capacity} is below {least}"
  | innerBelow capacity least => s!"inner capacity {capacity} is below {least}"
  | leafAbove capacity most width =>
      s!"leaf capacity {capacity} exceeds {most} entries of {width} bytes per page"
  | innerAbove capacity most width =>
      s!"inner capacity {capacity} exceeds {most} children of {width} bytes per page"
  | stated text => text

inductive TreeFault where
  | counterPastEnd (nextPageNo : Nat) (segment : SegmentId)
  | foreignRoot (root : PageId) (segment : SegmentId)
  | reachedTwice (page : PageId)
  | wrongLevel (page : PageId) (level expected : UInt16)
  | entryCount (page : PageId) (count capacity : Nat)
  | childCount (page : PageId) (count capacity : Nat)
  | unsortedKeys (page : PageId)
  | misroutedKeys (page : PageId)
  | stated (text : String)
  deriving DecidableEq, Repr

def TreeFault.text : TreeFault → String
  | counterPastEnd nextPageNo segment =>
      s!"page counter {nextPageNo} is past the end of {segment.text}"
  | foreignRoot root segment => s!"root {root.text} was not minted by {segment.text}"
  | reachedTwice page => s!"{page.text} is reachable twice"
  | wrongLevel page level expected => s!"{page.text} has level {level}, expected {expected}"
  | entryCount page count capacity =>
      s!"{page.text} holds {count} entries, capacity {capacity}"
  | childCount page count capacity =>
      s!"{page.text} has {count} children, capacity {capacity}"
  | unsortedKeys page => s!"{page.text} keys are not ascending"
  | misroutedKeys page =>
      s!"{page.text} has keys outside the range its parent routes to it"
  | stated text => text

inductive Error where
  | storage (fault : StorageFault)
  | config (fault : ConfigFault)
  | corrupted (fault : TreeFault)
  deriving DecidableEq, Repr

namespace Error

def text : Error → String
  | storage fault => s!"storage fault: {fault.text}"
  | config fault => s!"invalid configuration: {fault.text}"
  | corrupted fault => s!"corrupted tree: {fault.text}"

def isStorageFault : Error → Bool
  | storage _ => true
  | config _ | corrupted _ => false

def chain (error : Error) : List String :=
  error.text :: match error with
    | storage fault => fault.text :: match fault with
      | .io cause => [cause.text]
      | _ => []
    | config _ | corrupted _ => []

end Error

/-- How a call ends that has no result. -/
inductive Failure where
  | error (error : Error)
  | violation (violation : Violation)
  deriving DecidableEq, Repr

end PagedIndex
