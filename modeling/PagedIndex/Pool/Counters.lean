import PagedIndex.FixedPoint

/-! Tallies of what a buffer pool does, each a 64-bit counter that wraps. -/

namespace PagedIndex

structure Counters where
  /-- Fetches of a resident page. -/
  cacheHits : UInt64
  cacheMisses : UInt64
  pagesCreated : UInt64
  /-- Frames taken from another page. -/
  evictions : UInt64
  pagesRead : UInt64
  pagesWritten : UInt64
  deriving DecidableEq, Repr

namespace Counters

def zero : Counters := ⟨0, 0, 0, 0, 0, 0⟩

/-- The share of fetches that hit, from 0 to 1. -/
def hitRate (counters : Counters) : Float :=
  let total := counters.cacheHits + counters.cacheMisses
  if total = 0 then 0.0 else counters.cacheHits.toFloat / total.toFloat

def text (counters : Counters) : String :=
  let rate := FixedPoint.hundredths (counters.hitRate * 100.0)
  s!"Stats \x7b hits: {counters.cacheHits}, misses: {counters.cacheMisses}, " ++
    s!"created: {counters.pagesCreated}, evictions: {counters.evictions}, " ++
    s!"hit_rate: {rate}% \x7d"

end Counters

end PagedIndex
