import Mathlib.Algebra.Order.Ring.Nat
import Mathlib.Data.List.GetD
import Mathlib.Data.List.Induction
import Mathlib.Data.List.TakeDrop
import PagedIndex.Proofs.DiskService

/-!
# A disk is one growing array of bytes for each segment

What a disk answers depends on nothing but the bytes of the segments' files. A read or a count looks
at the array of one segment, and a write puts a page into it. So a steady disk and its arrays go
through any requests together, and what a page reads as comes from the last write to it or from the
bytes that were there first.
-/

namespace PagedIndex

abbrev SegmentArrays := SegmentId → List UInt8

namespace SegmentArrays

def pageCount (bytes : List UInt8) : Nat := bytes.length / pageSize

/-- The bytes at a page number, zero from the end of the array on. -/
def pageAt (bytes : List UInt8) (number : Nat) : List UInt8 :=
  (bytes.drop (number * pageSize)).takeD pageSize 0

/-- The array with new bytes from an offset on. Zeros fill the gap if it ends before that. -/
def overwritten (bytes : List UInt8) (offset : Nat) (new : List UInt8) : List UInt8 :=
  bytes.takeD offset 0 ++ new ++ bytes.drop (offset + new.length)

section Bytes

variable {bytes bytes' : List UInt8}

theorem eq_of_getD (length : bytes.length = bytes'.length)
    (same : ∀ i, bytes.getD i 0 = bytes'.getD i 0) : bytes = bytes' := by
  apply List.ext_getElem length
  intro i inside inside'
  have := same i
  rwa [List.getD_eq_getElem _ _ inside, List.getD_eq_getElem _ _ inside'] at this

theorem getD_takeD (bytes : List UInt8) (count i : Nat) :
    (bytes.takeD count 0).getD i 0 = if i < count then bytes.getD i 0 else 0 := by
  induction count generalizing bytes i with
  | zero => simp
  | succ count ih =>
    cases i with
    | zero => cases bytes <;> simp
    | succ i =>
      rw [List.takeD_succ, List.getD_cons_succ, ih]
      cases bytes <;> simp

theorem getD_drop (bytes : List UInt8) (count i : Nat) :
    (bytes.drop count).getD i 0 = bytes.getD (count + i) 0 := by
  rw [List.getD_eq_getElem?_getD, List.getElem?_drop, List.getD_eq_getElem?_getD]

theorem length_overwritten (bytes : List UInt8) (offset : Nat) (new : List UInt8) :
    (overwritten bytes offset new).length = max bytes.length (offset + new.length) := by
  simp only [overwritten, List.length_append, List.takeD_length, List.length_drop]
  omega

theorem getD_overwritten (bytes : List UInt8) (offset : Nat) (new : List UInt8) (i : Nat) :
    (overwritten bytes offset new).getD i 0 =
      if offset ≤ i ∧ i < offset + new.length then new.getD (i - offset) 0
      else bytes.getD i 0 := by
  have gap : (bytes.takeD offset 0 ++ new).length = offset + new.length := by simp
  rw [overwritten]
  by_cases before : i < offset
  · rw [List.getD_append _ _ _ _ (by omega), List.getD_append _ _ _ _ (by simpa using before),
      getD_takeD, if_pos before, if_neg (by omega)]
  · by_cases inside : i < offset + new.length
    · rw [List.getD_append _ _ _ _ (by omega),
        List.getD_append_right _ _ _ _ (by simpa using before), List.takeD_length,
        if_pos (by omega)]
    · rw [List.getD_append_right _ _ _ _ (by omega), gap, if_neg (by omega), getD_drop,
        Nat.add_sub_cancel' (by omega)]

@[simp] theorem length_pageAt (bytes : List UInt8) (number : Nat) :
    (pageAt bytes number).length = pageSize :=
  List.takeD_length _ _ _

theorem getD_pageAt (bytes : List UInt8) (number : Nat) {i : Nat} (inside : i < pageSize) :
    (pageAt bytes number).getD i 0 = bytes.getD (number * pageSize + i) 0 := by
  rw [pageAt, getD_takeD, if_pos inside, getD_drop]

theorem eq_pageAt {number : Nat} (length : bytes'.length = pageSize)
    (same : ∀ i < pageSize, bytes'.getD i 0 = bytes.getD (number * pageSize + i) 0) :
    bytes' = pageAt bytes number := by
  apply eq_of_getD (length.trans (length_pageAt bytes number).symm)
  intro i
  by_cases inside : i < pageSize
  · rw [same i inside, getD_pageAt bytes number inside]
  · rw [List.getD_eq_default _ _ (by omega), List.getD_eq_default _ _ (by simp; omega)]

theorem getD_overwritten_page (bytes : List UInt8) (number other : Nat) (page : Page) {i : Nat}
    (inside : i < pageSize) :
    (overwritten bytes (number * pageSize) page.toList).getD (other * pageSize + i) 0 =
      if other = number then page.toList.getD i 0 else bytes.getD (other * pageSize + i) 0 := by
  have reached : (number * pageSize ≤ other * pageSize + i ∧
      other * pageSize + i < number * pageSize + pageSize) ↔ other = number := by
    unfold pageSize at *
    omega
  rw [getD_overwritten, Vector.length_toList]
  by_cases same : other = number
  · rw [if_pos (reached.mpr same), if_pos same, same, Nat.add_sub_cancel_left]
  · rw [if_neg (mt reached.mp same), if_neg same]

theorem pageAt_overwritten (bytes : List UInt8) (number other : Nat) (page : Page) :
    pageAt (overwritten bytes (number * pageSize) page.toList) other =
      if other = number then page.toList else pageAt bytes other := by
  symm
  apply eq_pageAt
  · split <;> simp
  · intro i inside
    rw [getD_overwritten_page bytes number other page inside]
    split
    · rfl
    · exact getD_pageAt bytes other inside

theorem pageCount_overwritten (bytes : List UInt8) (number : Nat) (page : Page) :
    pageCount (overwritten bytes (number * pageSize) page.toList) =
      max (pageCount bytes) (number + 1) := by
  rw [pageCount, pageCount, length_overwritten, Vector.length_toList]
  unfold pageSize
  omega

end Bytes

end SegmentArrays

namespace File

open SegmentArrays

def bytes (file : File) : List UInt8 := (List.range file.length).map file.byte

@[simp] theorem length_bytes (file : File) : file.bytes.length = file.length := by
  simp [bytes]

theorem getD_bytes (file : File) (position : Nat) :
    file.bytes.getD position 0 = file.byte position := by
  by_cases inside : position < file.length
  · rw [List.getD_eq_getElem _ _ (by simpa using inside)]
    simp [bytes]
  · rw [List.getD_eq_default _ _ (by simpa using inside)]
    exact (file.zero_past_end position (by omega)).symm

theorem byte_of_page (file : File) (number : Nat) {i : Nat} (inside : i < pageSize) :
    file.byte (number * pageSize + i) = (file.page number).toList.getD i 0 := by
  have quotient : (number * pageSize + i) / pageSize = number := by
    unfold pageSize at *
    omega
  have rest : (number * pageSize + i) % pageSize = i := by
    unfold pageSize at *
    omega
  rw [List.getD_eq_getElem _ _ (by simpa using inside), byte, byteIn, quotient]
  simp only [rest]
  cases written : file.pages[number]? with
  | none => simp [page, written, Page.zeroed, Block.zeroed]
  | some page => simp [File.page, written]

theorem toList_page (file : File) (number : Nat) :
    (file.page number).toList = pageAt file.bytes number := by
  apply eq_pageAt (by simp)
  intro i inside
  rw [getD_bytes, byte_of_page file number inside]

theorem bytes_write (file : File) (number : Nat) (page : Page) :
    (file.write number page).bytes =
      overwritten file.bytes (number * pageSize) page.toList := by
  apply eq_of_getD
  · rw [length_bytes, length_overwritten, length_bytes, Vector.length_toList, ← Nat.succ_mul]
    rfl
  · intro position
    obtain ⟨other, i, inside, rfl⟩ : ∃ other i, i < pageSize ∧ position = other * pageSize + i :=
      ⟨position / pageSize, position % pageSize, Nat.mod_lt _ (by decide),
        (Nat.div_add_mod' position pageSize).symm⟩
    rw [getD_bytes, byte_of_page _ other inside, page_write,
      getD_overwritten_page _ _ _ _ inside, getD_bytes, byte_of_page file other inside]
    split <;> rfl

theorem bytes_ofBytes (bytes : List UInt8) : (ofBytes bytes bytes.length).bytes = bytes := by
  apply eq_of_getD (length_bytes _)
  intro i
  rw [getD_bytes, byte_ofBytes]
  split
  · rfl
  · rw [List.getD_eq_default _ _ (by omega)]

end File

namespace Disk

inductive Request where
  | read (page : PageId)
  | write (page : PageId) (bytes : Page)
  | count (segment : SegmentId)
  | sync

inductive Reply where
  | page (bytes : List UInt8)
  | count (pages : Nat)
  | done

abbrev Answer := Except StorageFault Reply

def Request.perform : Request → DiskM Reply
  | read page => return .page (← readPage page).toList
  | write page bytes => do
    writePage page bytes
    return .done
  | count segment => return .count (← pageCount segment)
  | sync => do
    Disk.sync
    return .done

def serve (disk : Disk) (request : Request) : Answer × Disk :=
  match request.perform.run disk with
  | .ok reply left => (.ok reply, left)
  | .error fault left => (.error fault, left)

def answers (disk : Disk) : List Request → List Answer
  | [] => []
  | request :: rest => (disk.serve request).1 :: (disk.serve request).2.answers rest

def after (disk : Disk) (requests : List Request) : Disk :=
  requests.foldl (fun disk request => (disk.serve request).2) disk

def arrays (disk : Disk) : SegmentArrays := fun segment => (disk.file segment).bytes

end Disk

namespace SegmentArrays

open Disk (Request Answer)

/-- How an array for each segment answers, and the arrays that are left. -/
def serve (arrays : SegmentArrays) : Request → Answer × SegmentArrays
  | .read page =>
    (if page.pageNo < pageCount (arrays page.segment) then
        .ok (.page (pageAt (arrays page.segment) page.pageNo))
      else .error (.pageNotFound page), arrays)
  | .write page bytes =>
    (.ok .done, Function.update arrays page.segment
      (overwritten (arrays page.segment) (page.pageNo * pageSize) bytes.toList))
  | .count segment => (.ok (.count (pageCount (arrays segment))), arrays)
  | .sync => (.ok .done, arrays)

def answers (arrays : SegmentArrays) : List Request → List Answer
  | [] => []
  | request :: rest => (arrays.serve request).1 :: answers (arrays.serve request).2 rest

def after (arrays : SegmentArrays) (requests : List Request) : SegmentArrays :=
  requests.foldl (fun arrays request => (arrays.serve request).2) arrays

end SegmentArrays

namespace Disk

open SegmentArrays

variable {disk disk' : Disk}

theorem holds_iff_lt_pageCount {page : PageId} :
    disk.Holds page ↔ page.pageNo < SegmentArrays.pageCount (disk.arrays page.segment) := by
  rw [Holds, SegmentArrays.pageCount, arrays, File.length_bytes]
  unfold pageSize
  omega

theorem arrays_congr (files : disk'.file = disk.file) : disk'.arrays = disk.arrays := by
  funext segment
  rw [arrays, arrays, files]

theorem arrays_of_write {page : PageId} {bytes : Page}
    (files : disk'.file = Function.update disk.file page.segment
      ((disk.file page.segment).write page.pageNo bytes)) :
    disk'.arrays = Function.update disk.arrays page.segment
      (overwritten (disk.arrays page.segment) (page.pageNo * pageSize) bytes.toList) := by
  funext segment
  rw [arrays, files]
  by_cases same : segment = page.segment
  · subst same
    rw [Function.update_self, Function.update_self, File.bytes_write]
    rfl
  · rw [Function.update_of_ne same, Function.update_of_ne same]
    rfl

theorem file_of_not_holds {segment : SegmentId}
    (missing : disk.store.holds segment disk.volume = false) : disk.file segment = .empty := by
  rw [SegmentStore.holds, Bool.or_eq_false_iff] at missing
  obtain ⟨closed, nothing⟩ := missing
  have unopened : disk.store.opened[segment]? = none := by
    rw [Std.TreeMap.contains_eq_isSome_getElem?] at closed
    exact Option.not_isSome_iff_eq_none.mp (by rw [closed]; decide)
  rw [file, place?, unopened]
  cases located : disk.store.locate segment disk.volume with
  | error cause => rfl
  | ok place =>
    rw [located] at nothing
    cases there : disk.volume.entryAt place with
    | none => simp [Except.toOption, there]
    | some entry => simp [there] at nothing

theorem Steady.not_refused (steady : disk.Steady) {fault : StorageFault}
    (excused : disk.Excused fault) : ¬ ∃ cause, fault = .io (.refused cause) := by
  intro refused
  obtain ⟨cause, rfl⟩ := refused
  exact excused steady _ rfl

theorem readPage_of_steady (steady : disk.Steady) (page : PageId) :
    Ends (readPage page) disk
      (fun bytes d => disk.Follows d ∧ d.file = disk.file ∧ disk.Holds page ∧
        bytes = disk.content page)
      (fun fault d => disk.Follows d ∧ d.file = disk.file ∧ ¬ disk.Holds page ∧
        fault = .pageNotFound page) := by
  apply ((readPage_ends page disk).and (readPage_serves disk page)).imp
  · intro bytes d ended
    obtain ⟨⟨files, held, read⟩, follows⟩ := ended
    exact ⟨follows, files, held, read⟩
  · intro fault d ended
    obtain ⟨⟨files, missing | refused⟩, follows, excused⟩ := ended
    · exact ⟨follows, files, missing.2, missing.1⟩
    · exact absurd refused (steady.not_refused excused)

theorem writePage_of_steady (steady : disk.Steady) (page : PageId) (bytes : Page) :
    Ends (writePage page bytes) disk
      (fun _ d => disk.Follows d ∧ d.file = Function.update disk.file page.segment
        ((disk.file page.segment).write page.pageNo bytes))
      (fun _ _ => False) := by
  apply ((writePage_ends page bytes disk).and (writePage_serves disk page bytes)).imp
  · intro _ d ended
    exact ended.symm
  · intro fault d ended
    obtain ⟨⟨-, refused⟩, -, excused⟩ := ended
    exact steady.not_refused excused refused

theorem sync_of_steady (steady : disk.Steady) :
    Ends sync disk (fun _ d => disk.Follows d ∧ d.file = disk.file) (fun _ _ => False) := by
  apply ((sync_ends disk).and (sync_serves disk)).imp
  · intro _ d ended
    exact ended.symm
  · intro fault d ended
    obtain ⟨⟨-, refused⟩, -, excused⟩ := ended
    exact steady.not_refused excused refused

theorem pageCount_of_steady (steady : disk.Steady) (segment : SegmentId) :
    Ends (pageCount segment) disk
      (fun pages d => disk.Follows d ∧ d.file = disk.file ∧
        pages = (disk.file segment).length / pageSize)
      (fun _ _ => False) := by
  simp only [pageCount, Ends.bind_iff, Ends.get_iff]
  cases held : disk.store.holds segment disk.volume with
  | false =>
    refine ⟨.refl disk, rfl, ?_⟩
    rw [file_of_not_holds held]
    rfl
  | true =>
    simp only [Bool.not_true, Bool.false_eq_true, if_false, Ends.bind_iff]
    apply ((openSegment_ends segment disk).and (openSegment_serves disk segment)).imp
    · intro place d ended
      obtain ⟨⟨files, found⟩, follows, opened⟩ := ended
      apply onVolume_ends
      apply (Volume.content_follows place d.volume).imp
      · intro file volume ended
        obtain ⟨same, outcomes, there⟩ := ended
        have read : disk.file segment = file := by
          rw [← files, Disk.file, found, Option.bind_some, ← Volume.entryAt_congr same, there]
        exact ⟨follows.trans (.of_entries same outcomes), (file_of_entries same).trans files,
          by rw [read]⟩
      · intro cause volume ended
        obtain ⟨-, -, refused⟩ := ended
        exact excused_of_open found opened refused (follows.steady steady) _ rfl
    · intro fault d ended
      obtain ⟨⟨-, refused⟩, -, excused⟩ := ended
      exact steady.not_refused excused refused

/-- A request ends as the arrays serve it, and leaves the arrays that they leave. -/
theorem perform_refines (steady : disk.Steady) (request : Request) :
    Ends request.perform disk
      (fun reply d => disk.Follows d ∧ disk.arrays.serve request = (.ok reply, d.arrays))
      (fun fault d => disk.Follows d ∧ disk.arrays.serve request = (.error fault, d.arrays)) := by
  cases request with
  | read page =>
    simp only [Request.perform, Ends.bind_iff]
    apply (readPage_of_steady steady page).imp
    · intro bytes d ended
      obtain ⟨follows, files, held, rfl⟩ := ended
      refine ⟨follows, ?_⟩
      rw [SegmentArrays.serve, if_pos (holds_iff_lt_pageCount.mp held), arrays_congr files,
        content, File.toList_page]
      rfl
    · intro fault d ended
      obtain ⟨follows, files, missing, rfl⟩ := ended
      refine ⟨follows, ?_⟩
      rw [SegmentArrays.serve, if_neg (mt holds_iff_lt_pageCount.mpr missing),
        arrays_congr files]
  | write page bytes =>
    simp only [Request.perform, Ends.bind_iff]
    apply (writePage_of_steady steady page bytes).imp
    · intro _ d ended
      obtain ⟨follows, files⟩ := ended
      exact ⟨follows, by rw [SegmentArrays.serve, arrays_of_write files]⟩
    · exact fun _ _ => False.elim
  | count segment =>
    simp only [Request.perform, Ends.bind_iff]
    apply (pageCount_of_steady steady segment).imp
    · intro _ d ended
      obtain ⟨follows, files, rfl⟩ := ended
      refine ⟨follows, ?_⟩
      rw [SegmentArrays.serve, arrays_congr files, SegmentArrays.pageCount, arrays,
        File.length_bytes]
    · exact fun _ _ => False.elim
  | sync =>
    simp only [Request.perform, Ends.bind_iff]
    apply (sync_of_steady steady).imp
    · intro _ d ended
      obtain ⟨follows, files⟩ := ended
      exact ⟨follows, by rw [SegmentArrays.serve, arrays_congr files]⟩
    · exact fun _ _ => False.elim

theorem serve_refines (steady : disk.Steady) (request : Request) :
    (disk.serve request).1 = (disk.arrays.serve request).1 ∧
      (disk.serve request).2.arrays = (disk.arrays.serve request).2 ∧
      (disk.serve request).2.Steady := by
  have ends := perform_refines steady request
  rw [serve]
  cases ran : request.perform.run disk with
  | ok reply d =>
    obtain ⟨follows, served⟩ := ends.of_ok ran
    rw [served]
    exact ⟨rfl, rfl, follows.steady steady⟩
  | error fault d =>
    obtain ⟨follows, served⟩ := ends.of_error ran
    rw [served]
    exact ⟨rfl, rfl, follows.steady steady⟩

theorem run_refines (steady : disk.Steady) (requests : List Request) :
    disk.answers requests = disk.arrays.answers requests ∧
      (disk.after requests).arrays = disk.arrays.after requests ∧
      (disk.after requests).Steady := by
  induction requests generalizing disk with
  | nil => exact ⟨rfl, rfl, steady⟩
  | cons request rest ih =>
    obtain ⟨answer, arrays, steady⟩ := serve_refines steady request
    obtain ⟨answers, left, steady⟩ := ih steady
    rw [arrays] at answers left
    refine ⟨?_, left, steady⟩
    rw [Disk.answers, SegmentArrays.answers, answer, answers]

def Request.written? (page : PageId) : Request → Option Page
  | write other bytes => if other = page then some bytes else none
  | read _ | count _ | sync => none

def lastWritten (page : PageId) (requests : List Request) : Option Page :=
  requests.reverse.findSome? (Request.written? page)

end Disk

namespace SegmentArrays

open Disk (Request)

/-- The bytes that a page has after the requests: those last written, or else the first ones. -/
def pageAfter (arrays : SegmentArrays) (requests : List Request) (page : PageId) : List UInt8 :=
  match Disk.lastWritten page requests with
  | some bytes => bytes.toList
  | none => pageAt (arrays page.segment) page.pageNo

theorem pageAt_serve (arrays : SegmentArrays) (request : Request) (page : PageId) :
    pageAt ((arrays.serve request).2 page.segment) page.pageNo =
      match request.written? page with
      | some bytes => bytes.toList
      | none => pageAt (arrays page.segment) page.pageNo := by
  cases request with
  | read _ | count _ | sync => rfl
  | write other bytes =>
    simp only [serve, Request.written?]
    by_cases segment : page.segment = other.segment
    · rw [segment, Function.update_self, pageAt_overwritten]
      by_cases same : other = page
      · rw [if_pos same, if_pos (congrArg PageId.pageNo same.symm)]
      · have apart : page.pageNo ≠ other.pageNo := fun number =>
          same (PageId.eq_of_parts segment number).symm
        rw [if_neg same, if_neg apart]
    · have apart : other ≠ page := fun same => segment (congrArg PageId.segment same.symm)
      rw [Function.update_of_ne segment, if_neg apart]

theorem pageAt_after (arrays : SegmentArrays) (requests : List Request) (page : PageId) :
    pageAt (arrays.after requests page.segment) page.pageNo = arrays.pageAfter requests page := by
  -- On the last request, since a write hides those before it.
  induction requests using List.reverseRecOn with
  | nil => rfl
  | append_singleton requests request ih =>
    rw [after, List.foldl_append, List.foldl_cons, List.foldl_nil, pageAt_serve, pageAfter,
      Disk.lastWritten, List.reverse_append, List.reverse_singleton, List.singleton_append,
      List.findSome?_cons]
    cases request.written? page with
    | some bytes => rfl
    | none => exact ih

end SegmentArrays

def PageId.offset (page : PageId) : UInt64 := (page.raw &&& 0xFFFFFFFFFFFF) * 4096

/-- Pages end at `2 ^ 60` at the latest, so no step of the computation wraps around. -/
theorem PageId.offset_exact (page : PageId) :
    page.offset.toNat = page.pageNo * pageSize ∧
      (page.offset + 4096).toNat = (page.pageNo + 1) * pageSize ∧
      (page.pageNo + 1) * pageSize ≤ 2 ^ 60 := by
  have bound : page.pageNo < 281474976710656 := Nat.mod_lt _ (by decide)
  have masked : (page.raw &&& 0xFFFFFFFFFFFF).toNat = page.pageNo :=
    (UInt64.toNat_and _ _).trans (Nat.and_two_pow_sub_one_eq_mod _ 48)
  have offset : page.offset.toNat = page.pageNo * pageSize := by
    rw [PageId.offset, UInt64.toNat_mul, masked]
    change page.pageNo * 4096 % 2 ^ 64 = page.pageNo * 4096
    omega
  refine ⟨offset, ?_, ?_⟩
  · rw [UInt64.toNat_add, offset]
    change (page.pageNo * 4096 + 4096) % 2 ^ 64 = (page.pageNo + 1) * 4096
    omega
  · unfold pageSize
    omega

namespace Disk

open SegmentArrays

variable {disk : Disk}

theorem serve_count_of_missing (steady : disk.Steady) {segment : SegmentId} {place : Path}
    (found : disk.place? segment = some place) (nothing : disk.volume.entryAt place = none) :
    disk.serve (.count segment) = (.ok (.count 0), disk) := by
  have closed : disk.store.opened[segment]? = none := by
    cases opened : disk.store.opened[segment]? with
    | none => rfl
    | some directory =>
      obtain ⟨place', file, found', there⟩ := steady.opened segment
        (Std.TreeMap.mem_iff_isSome_getElem?.mpr (by rw [opened]; rfl))
      rw [found] at found'
      cases found'
      rw [nothing] at there
      cases there
  have missing : disk.store.holds segment disk.volume = false := by
    rw [place?, closed] at found
    rw [SegmentStore.holds, Std.TreeMap.contains_eq_isSome_getElem?, closed]
    cases located : disk.store.locate segment disk.volume with
    | error cause => rfl
    | ok path =>
      rw [located] at found
      cases found
      simp [nothing]
  have counted : (Request.count segment).perform.run disk = .ok (.count 0) disk := by
    rw [Request.perform, pageCount]
    simp [EStateM.run_bind, missing]
  rw [serve, counted]

/-- The page was written: other pages that could be read read the same, other segments have the
same bytes, and the segment goes to the end of the page at least. -/
structure Written (disk : Disk) (page : PageId) (disk' : Disk) : Prop where
  others : ∀ other bytes, other ≠ page → (disk.serve (.read other)).1 = .ok (.page bytes) →
    (disk'.serve (.read other)).1 = .ok (.page bytes)
  elsewhere : ∀ segment, segment ≠ page.segment → disk'.arrays segment = disk.arrays segment
  count : ∀ pages, (disk.serve (.count page.segment)).1 = .ok (.count pages) →
    (disk'.serve (.count page.segment)).1 = .ok (.count (max pages (page.pageNo + 1)))

theorem serve_write (steady : disk.Steady) (page : PageId) (bytes : Page) :
    (disk.serve (.write page bytes)).1 = .ok .done ∧
      disk.Written page (disk.serve (.write page bytes)).2 := by
  obtain ⟨answer, arrays, steady'⟩ := serve_refines steady (.write page bytes)
  refine ⟨answer, ?_⟩
  generalize (disk.serve (.write page bytes)).2 = disk' at arrays steady' ⊢
  have elsewhere (segment : SegmentId) (apart : segment ≠ page.segment) :
      disk'.arrays segment = disk.arrays segment := by
    rw [arrays]
    exact Function.update_of_ne apart _ _
  have here : disk'.arrays page.segment =
      overwritten (disk.arrays page.segment) (page.pageNo * pageSize) bytes.toList := by
    rw [arrays]
    exact Function.update_self _ _ _
  constructor
  · intro other old apart read
    rw [(serve_refines steady (.read other)).1] at read
    rw [(serve_refines steady' (.read other)).1]
    by_cases segment : other.segment = page.segment
    · have number : other.pageNo ≠ page.pageNo := fun number =>
        apart (PageId.eq_of_parts segment number)
      simp only [SegmentArrays.serve, segment] at read ⊢
      rw [here, pageCount_overwritten, pageAt_overwritten, if_neg number]
      split at read
      · rename_i inside
        rw [if_pos (Nat.lt_of_lt_of_le inside (Nat.le_max_left _ _))]
        exact read
      · cases read
    · simp only [SegmentArrays.serve, elsewhere other.segment segment]
      exact read
  · exact elsewhere
  · intro pages counted
    rw [(serve_refines steady (.count page.segment)).1] at counted
    rw [(serve_refines steady' (.count page.segment)).1]
    cases counted
    simp only [SegmentArrays.serve, here, pageCount_overwritten]

/-- On a steady disk every run of requests has the answers of one array for each segment and leaves
the bytes of those arrays. A page can then be read if its segment counts more pages than its
number, and its bytes are those last written, or else the first ones. -/
theorem refines_byte_arrays {disk : Disk} (steady : disk.Steady) (requests : List Request) :
    disk.answers requests = disk.arrays.answers requests ∧
      (disk.after requests).arrays = disk.arrays.after requests ∧
      (∀ page, ∃ pages,
        ((disk.after requests).serve (.count page.segment)).1 = .ok (.count pages) ∧
          ((disk.after requests).serve (.read page)).1 =
            if page.pageNo < pages then .ok (.page (disk.arrays.pageAfter requests page))
            else .error (.pageNotFound page)) ∧
      (∀ page bytes, ((disk.after requests).serve (.write page bytes)).1 = .ok .done ∧
        (disk.after requests).Written page ((disk.after requests).serve (.write page bytes)).2) ∧
      (∀ segment place, (disk.after requests).place? segment = some place →
        (disk.after requests).volume.entryAt place = none →
          (disk.after requests).serve (.count segment) = (.ok (.count 0), disk.after requests)) ∧
      ∀ page : PageId, page.offset.toNat = page.pageNo * pageSize ∧
        (page.offset + 4096).toNat = (page.pageNo + 1) * pageSize ∧
        (page.pageNo + 1) * pageSize ≤ 2 ^ 60 := by
  obtain ⟨answers, arrays, steady'⟩ := run_refines steady requests
  refine ⟨answers, arrays, ?_, serve_write steady',
    fun segment place => serve_count_of_missing steady', PageId.offset_exact⟩
  intro page
  refine ⟨_, (serve_refines steady' (.count page.segment)).1, ?_⟩
  rw [(serve_refines steady' (.read page)).1, arrays, ← pageAt_after]
  rfl

def sevens : List UInt8 := List.replicate 5000 7

theorem pageAt_sevens : pageAt sevens 1 = List.replicate 904 7 ++ List.replicate 3192 0 := by
  symm
  apply eq_pageAt
  · rw [List.length_append, List.length_replicate, List.length_replicate]
    rfl
  intro i inside
  rw [sevens, pageSize, List.getD_eq_getElem?_getD, List.getD_eq_getElem?_getD,
    List.getElem?_append, List.getElem?_replicate, List.getElem?_replicate, List.getElem?_replicate,
    List.length_replicate]
  unfold pageSize at inside
  by_cases seven : i < 904
  · rw [if_pos seven, if_pos seven, if_pos (by omega)]
  · rw [if_neg seven, if_pos (by omega), if_neg (by omega)]
    rfl

/-- The directory `twoFiles` with some bytes in the second file. -/
def unevenFile : Disk :=
  { twoFiles with
    volume := twoFiles.volume.put ["db", "segment_1.db"]
      (.file (File.ofBytes sevens sevens.length)) }

theorem steady_unevenFile : unevenFile.Steady := by
  have directories : twoFiles.volume.SameDirectories unevenFile.volume :=
    Volume.SameDirectories.put_file _ (by simp) nofun
  refine (Follows.of_volume directories (fun place file there => ?_) fun _ mem => mem).steady
    steady_twoFiles
  rw [unevenFile, Volume.entryAt_put (by simp)]
  split
  · exact ⟨_, rfl⟩
  · exact ⟨file, there⟩

theorem file_unevenFile :
    unevenFile.file = Function.update twoFiles.file ⟨1⟩ (File.ofBytes sevens sevens.length) :=
  file_of_changed (place_twoFiles ⟨1⟩) (by rfl) rfl

/-- The part of a page cannot be read until a later page is written. -/
theorem part_of_page_is_filled : unevenFile.Steady ∧
    unevenFile.answers [.count ⟨1⟩, .read (.ofParts ⟨1⟩ 1), .write (.ofParts ⟨1⟩ 2) Page.zeroed,
        .count ⟨1⟩, .read (.ofParts ⟨1⟩ 1)] =
      [.ok (.count 1), .error (.pageNotFound (.ofParts ⟨1⟩ 1)), .ok .done, .ok (.count 3),
        .ok (.page (List.replicate 904 7 ++ List.replicate 3192 0))] := by
  refine ⟨steady_unevenFile, (refines_byte_arrays steady_unevenFile _).1.trans ?_⟩
  have bytes : unevenFile.arrays ⟨1⟩ = sevens := by
    rw [arrays, file_unevenFile, Function.update_self, File.bytes_ofBytes]
  have count : SegmentArrays.pageCount sevens = 1 := by
    rw [SegmentArrays.pageCount, sevens, List.length_replicate]
    rfl
  have number (n : Nat) (inside : n < pageNoSpan) : (PageId.ofParts ⟨1⟩ n).pageNo = n :=
    (PageId.pageNo_ofParts _ _).trans (Nat.mod_eq_of_lt inside)
  have first := number 1 (by decide)
  have second := number 2 (by decide)
  simp only [SegmentArrays.answers, SegmentArrays.serve, PageId.segment_ofParts, first, second,
    bytes, count, Function.update_self, pageCount_overwritten, pageAt_overwritten, pageAt_sevens]
  rfl

end Disk

end PagedIndex
