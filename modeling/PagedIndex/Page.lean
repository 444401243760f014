import PagedIndex.Block
import PagedIndex.PageId

/-! Pages: the blocks that move between memory and the segment files. -/

namespace PagedIndex

def pageSize : Nat := 4096

def maxSegmentBytes : Nat := pageNoSpan * pageSize

abbrev Page := Block pageSize

def Page.zeroed : Page := Block.zeroed pageSize

end PagedIndex
