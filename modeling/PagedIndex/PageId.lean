import PagedIndex.LittleEndian

/-!
Segments and the pages in them.

A page id is one 64-bit word: the segment in the upper 16 bits, the page number in the lower 48.
Ids are ordered by that word. The word of all ones is a sentinel that names no page.
-/

namespace PagedIndex

def pageNoBits : Nat := 48

def pageNoSpan : Nat := 1 <<< pageNoBits

theorem pageNoSpan_eq : pageNoSpan = 281474976710656 := rfl

def maxPageNo : Nat := pageNoSpan - 1

structure SegmentId where
  number : UInt16
  deriving DecidableEq, Repr

namespace SegmentId

def text (segment : SegmentId) : String := s!"Segment({segment.number})"

instance : Ord SegmentId := ⟨fun a b => compare a.number b.number⟩

instance : Std.TransOrd SegmentId where
  eq_swap := Std.OrientedOrd.eq_swap (α := UInt16)
  isLE_trans {a b c} := @Std.TransCmp.isLE_trans UInt16 compare _ a.number b.number c.number

instance : Std.LawfulEqOrd SegmentId where
  compare_self := Std.ReflOrd.compare_self (α := UInt16)
  eq_of_compare {a b} h := by
    cases a; cases b
    exact congrArg SegmentId.mk (Std.LawfulEqOrd.eq_of_compare (α := UInt16) h)

end SegmentId

structure PageId where
  raw : UInt64
  deriving DecidableEq, Repr

namespace PageId

def sentinel : PageId := ⟨0xFFFFFFFFFFFFFFFF⟩

/-- The page of the given number in a segment. Only the low 48 bits of the number count. -/
def ofParts (segment : SegmentId) (pageNo : Nat) : PageId :=
  ⟨UInt64.ofNat (segment.number.toNat * pageNoSpan + pageNo % pageNoSpan)⟩

def segment (page : PageId) : SegmentId := ⟨UInt16.ofNat (page.raw.toNat / pageNoSpan)⟩

def pageNo (page : PageId) : Nat := page.raw.toNat % pageNoSpan

def isValid (page : PageId) : Bool := page != sentinel

def text (page : PageId) : String :=
  if page = sentinel then "Page(INVALID)"
  else s!"Page({page.segment.number}:{page.pageNo})"

private theorem toNat_ofParts (segment : SegmentId) (pageNo : Nat) :
    (ofParts segment pageNo).raw.toNat =
      segment.number.toNat * pageNoSpan + pageNo % pageNoSpan := by
  have high := segment.number.toNat_lt
  have low := Nat.mod_lt pageNo (show pageNoSpan > 0 by decide)
  refine UInt64.toNat_ofNat'.trans (Nat.mod_eq_of_lt ?_)
  rw [pageNoSpan_eq] at *
  omega

@[simp] theorem segment_ofParts (segment : SegmentId) (pageNo : Nat) :
    (ofParts segment pageNo).segment = segment := by
  have low := Nat.mod_lt pageNo (show pageNoSpan > 0 by decide)
  have : (segment.number.toNat * pageNoSpan + pageNo % pageNoSpan) / pageNoSpan =
      segment.number.toNat := by
    rw [pageNoSpan_eq] at *
    omega
  rw [PageId.segment, toNat_ofParts, this, UInt16.ofNat_toNat]

@[simp] theorem pageNo_ofParts (segment : SegmentId) (pageNo : Nat) :
    (ofParts segment pageNo).pageNo = pageNo % pageNoSpan := by
  rw [PageId.pageNo, toNat_ofParts, Nat.mul_comm, Nat.mul_add_mod, Nat.mod_mod]

theorem ofParts_segment_pageNo (page : PageId) : ofParts page.segment page.pageNo = page := by
  have bound : page.raw.toNat / pageNoSpan < 65536 := by
    have := page.raw.toNat_lt
    rw [pageNoSpan_eq]
    omega
  have high : (UInt16.ofNat (page.raw.toNat / pageNoSpan)).toNat =
      page.raw.toNat / pageNoSpan := UInt16.toNat_ofNat'.trans (Nat.mod_eq_of_lt bound)
  obtain ⟨raw⟩ := page
  refine congrArg PageId.mk (UInt64.toNat_inj.mp ?_)
  have := toNat_ofParts (PageId.segment ⟨raw⟩) (PageId.pageNo ⟨raw⟩)
  rw [ofParts] at this
  rw [this, PageId.segment, PageId.pageNo, high, Nat.mod_mod, Nat.mul_comm, Nat.div_add_mod]

instance : Ord PageId := ⟨fun a b => compare a.raw b.raw⟩

instance : Std.TransOrd PageId where
  eq_swap := Std.OrientedOrd.eq_swap (α := UInt64)
  isLE_trans {a b c} := @Std.TransCmp.isLE_trans UInt64 compare _ a.raw b.raw c.raw

instance : Std.LawfulEqOrd PageId where
  compare_self := Std.ReflOrd.compare_self (α := UInt64)
  eq_of_compare {a b} h := by
    cases a; cases b
    exact congrArg PageId.mk (Std.LawfulEqOrd.eq_of_compare (α := UInt64) h)

end PageId

end PagedIndex
