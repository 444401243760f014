import PagedIndex.Pool.Frame
import Std.Data.TreeMap
import Std.Data.TreeSet

/-!
Which frame to reuse: the evictable one whose last access is oldest.

Each access takes the next stamp of a clock that never runs back. Frames are found by stamp,
oldest first, and stamps by frame; the two maps are inverse to each other.
-/

namespace PagedIndex

structure Recency where
  clock : Nat
  stamps : Std.TreeMap FrameId Nat
  byStamp : Std.TreeMap Nat FrameId
  evictable : Std.TreeSet FrameId

namespace Recency

def empty : Recency := ⟨0, ∅, ∅, ∅⟩

def forgetStamp (byStamp : Std.TreeMap Nat FrameId) :
    Option Nat → Std.TreeMap Nat FrameId
  | some stamp => byStamp.erase stamp
  | none => byStamp

/-- Makes a frame the most recent. Whether it is evictable does not change. -/
def access (recency : Recency) (frame : FrameId) : Recency :=
  let stamp := recency.clock + 1
  { recency with
    clock := stamp
    stamps := recency.stamps.insert frame stamp
    byStamp := (forgetStamp recency.byStamp recency.stamps[frame]?).insert stamp frame }

/-- Marks a tracked frame; one that was never accessed is ignored. -/
def setEvictable (recency : Recency) (frame : FrameId) (evictable : Bool) : Recency :=
  if frame ∈ recency.stamps then
    { recency with
      evictable :=
        if evictable then recency.evictable.insert frame else recency.evictable.erase frame }
  else recency

def remove (recency : Recency) (frame : FrameId) : Recency :=
  { recency with
    stamps := recency.stamps.erase frame
    byStamp := forgetStamp recency.byStamp recency.stamps[frame]?
    evictable := recency.evictable.erase frame }

/-- The evictable frame of the oldest access. -/
def victim (recency : Recency) : Option FrameId :=
  (recency.byStamp.toList.find? fun entry => entry.2 ∈ recency.evictable).map Prod.snd

def evict (recency : Recency) : Option (FrameId × Recency) :=
  recency.victim.map fun frame => (frame, recency.remove frame)

def size (recency : Recency) : Nat := recency.evictable.size

end Recency

end PagedIndex
