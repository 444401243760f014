import PagedIndex.Page
import Std.Data.TreeMap

/-!
Files as arrays of bytes with a length, kept as the pages that were written. A byte in no written
page is zero, and so is every byte past the end: what extends a file leaves zeros in between.
-/

namespace PagedIndex

namespace File

def byteIn (pages : Std.TreeMap Nat Page) (position : Nat) : UInt8 :=
  match pages[position / pageSize]? with
  | some page =>
    have inside : position % pageSize < pageSize := Nat.mod_lt _ (by decide)
    page[position % pageSize]
  | none => 0

end File

structure File where
  length : Nat
  pages : Std.TreeMap Nat Page
  zero_past_end : ∀ position, length ≤ position → File.byteIn pages position = 0

namespace File

def byte (file : File) (position : Nat) : UInt8 := byteIn file.pages position

def empty : File where
  length := 0
  pages := ∅
  zero_past_end _ _ := by simp [byteIn]

/-- The page at a page number, zero where the file holds no bytes. -/
def page (file : File) (number : Nat) : Page := file.pages[number]?.getD Page.zeroed

/-- Writes a whole page and extends the file to its end. -/
def write (file : File) (number : Nat) (bytes : Page) : File where
  length := max file.length ((number + 1) * pageSize)
  pages := file.pages.insert number bytes
  zero_past_end position past := by
    have far : number ≠ position / pageSize := by
      have := Nat.div_add_mod position pageSize
      rintro rfl
      have := Nat.mod_lt position (show pageSize > 0 by decide)
      have : (position / pageSize + 1) * pageSize ≤ position := by omega
      rw [Nat.add_mul, Nat.one_mul, Nat.mul_comm] at this
      omega
    have old := file.zero_past_end position (by omega)
    simpa [byteIn, Std.TreeMap.getElem?_insert, far] using old

private def chunk (bytes : List UInt8) (number : Nat) : Page :=
  Page.zeroed.overwrite 0 ((bytes.drop (number * pageSize)).take pageSize)

private def chunks (bytes : List UInt8) : Nat → Std.TreeMap Nat Page
  | 0 => ∅
  | count + 1 => (chunks bytes count).insert count (chunk bytes count)

private theorem getElem?_chunks (bytes : List UInt8) (count number : Nat) :
    (chunks bytes count)[number]? = if number < count then some (chunk bytes number) else none := by
  induction count with
  | zero => simp [chunks]
  | succ count ih =>
    rw [chunks, Std.TreeMap.getElem?_insert, ih]
    by_cases here : count = number
    · simp [here]
    · have : number < count + 1 ↔ number < count := by omega
      simp [here, this]

private theorem getElem_chunk (bytes : List UInt8) (number offset : Nat) (h : offset < pageSize) :
    (chunk bytes number)[offset] = bytes.getD (number * pageSize + offset) 0 := by
  rw [chunk, Block.getElem_overwrite]
  by_cases short : number * pageSize + offset < bytes.length
  · rw [dif_pos (by simp; omega)]
    simp [List.getD_eq_getElem?_getD, List.getElem?_eq_getElem short]
  · rw [dif_neg (by simp; omega)]
    simp [Page.zeroed, Block.zeroed, List.getD_eq_getElem?_getD,
      List.getElem?_eq_none (Nat.le_of_not_lt short)]

private theorem byteIn_chunks (bytes : List UInt8) (position : Nat) :
    byteIn (chunks bytes (bytes.length / pageSize + 1)) position = bytes.getD position 0 := by
  rw [byteIn, getElem?_chunks]
  by_cases inside : position / pageSize < bytes.length / pageSize + 1
  · simp only [inside, if_true]
    rw [getElem_chunk, Nat.div_add_mod']
  · have : bytes.length ≤ position := by
      apply Nat.le_of_lt
      have := Nat.lt_of_not_le (mt (Nat.div_le_div_right (c := pageSize)) (by omega :
        ¬ position / pageSize ≤ bytes.length / pageSize))
      exact this
    simp [inside, List.getElem?_eq_none this]

/-- A file of exactly `length` bytes: the given ones, cut off or followed by zeros. -/
def ofBytes (bytes : List UInt8) (length : Nat) : File where
  length := length
  pages := chunks (bytes.take length) ((bytes.take length).length / pageSize + 1)
  zero_past_end position past := by
    have short : (bytes.take length).length ≤ position := by
      rw [List.length_take]
      omega
    rw [byteIn_chunks, List.getD_eq_getElem?_getD, List.getElem?_eq_none short]
    rfl

theorem byte_ofBytes (bytes : List UInt8) (length position : Nat) :
    (ofBytes bytes length).byte position =
      if position < length then bytes.getD position 0 else 0 := by
  rw [byte, ofBytes, byteIn_chunks, List.getD_eq_getElem?_getD, List.getElem?_take]
  split
  · rw [List.getD_eq_getElem?_getD]
  · rfl

/-- The `count` bytes from `start` on, which must lie inside the file. -/
def read (file : File) (start count : Nat) : Except Violation (List UInt8) :=
  if start + count ≤ file.length then
    .ok ((List.range count).map fun i => file.byte (start + i))
  else .error .outOfBounds

end File

end PagedIndex
