import PagedIndex.Pool.Counters
import PagedIndex.Pool.Recency

/-!
A pool of frames that caches pages, and the guards on them.

A guard pins a page's frame and holds its latch, shared or exclusive. What a guard wrote makes
the frame dirty when the guard is released.
-/

namespace PagedIndex

inductive Latch where
  | shared
  | exclusive
  deriving DecidableEq, Repr

structure GuardId where
  index : Nat
  deriving DecidableEq, Repr

structure Guard where
  id : GuardId
  frame : FrameId
  page : PageId
  latch : Latch
  dirty : Bool
  deriving DecidableEq, Repr

structure Pool where
  frames : Array Frame
  table : Std.TreeMap PageId FrameId
  /-- Frames that hold no page; the first is the next to be taken. -/
  free : List FrameId
  recency : Recency
  counters : Counters
  guards : List Guard
  /-- No guard taken so far has this or a later number. -/
  nextGuard : Nat

namespace Pool

def new (size : Nat) : Except Violation Pool :=
  if size = 0 then .error .emptyPool
  else .ok
    { frames := Array.replicate size .free
      table := ∅
      free := (List.range size).map FrameId.mk
      recency := .empty
      counters := .zero
      guards := []
      nextGuard := 0 }

def size (pool : Pool) : Nat := pool.frames.size

def frame (pool : Pool) (id : FrameId) : Frame := pool.frames.getD id.index .free

def mapFrame (id : FrameId) (f : Frame → Frame) (pool : Pool) : Pool :=
  { pool with frames := pool.frames.modify id.index f }

def guard? (pool : Pool) (id : GuardId) : Option Guard := pool.guards.find? (·.id = id)

def writeLatched (pool : Pool) (id : FrameId) : Bool :=
  pool.guards.any fun guard => guard.frame = id ∧ guard.latch = .exclusive

def latched (pool : Pool) (id : FrameId) : Bool := pool.guards.any (·.frame = id)

def pinCount (pool : Pool) (page : PageId) : Option UInt32 :=
  pool.table[page]?.map fun id => (pool.frame id).pins

def pinnedFrameCount (pool : Pool) : Nat := pool.frames.countP (·.isPinned)

def residentCount (pool : Pool) : Nat := pool.table.size

def freeFrameCount (pool : Pool) : Nat := pool.free.length

def residents (pool : Pool) (segment : SegmentId) (start stop : Nat) :
    List (PageId × UInt32) :=
  pool.table.toList.filterMap fun (page, id) =>
    if page.segment = segment ∧ start ≤ page.pageNo ∧ page.pageNo < stop then
      some (page, (pool.frame id).pins)
    else none

def tally (f : Counters → Counters) (pool : Pool) : Pool :=
  { pool with counters := f pool.counters }

def resetCounters (pool : Pool) : Pool := { pool with counters := .zero }

def trackPinned (id : FrameId) (pool : Pool) : Pool :=
  { pool with recency := (pool.recency.access id).setEvictable id false }

end Pool

end PagedIndex
