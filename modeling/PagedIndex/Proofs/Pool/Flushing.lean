import PagedIndex.Proofs.Pool.Availability

/-!
# What a flush writes

A flush goes through the resident pages in some order and may be refused at any of them. Where it
stops, the pages it came to are clean and on disk as they are in their frames, and nothing else in
the pool or on disk is different. Stopping points are prefixes of the order, so one invariant on
prefixes tells of every order and of every way to end.
-/

namespace PagedIndex

theorem File.byte_write (file : File) {number position : Nat} (bytes : Page)
    (apart : number ≠ position / pageSize) :
    (file.write number bytes).byte position = file.byte position := by
  simp [byte, byteIn, write, Std.TreeMap.getElem?_insert, apart]

/-- Only bytes of the changed pages differ, where those past the end of a file count as zero. Each
file ends where it did or at the end of a changed page past that. -/
structure Disk.Rewrote (changed : PageId → Prop) (disk disk' : Disk) : Prop where
  bytes : ∀ segment position,
    (∀ page, changed page → page.segment = segment → page.pageNo ≠ position / pageSize) →
      (disk'.file segment).byte position = (disk.file segment).byte position
  content : ∀ page, ¬ changed page → disk'.content page = disk.content page
  ends : ∀ segment, (disk'.file segment).length = (disk.file segment).length ∨
    (disk.file segment).length ≤ (disk'.file segment).length ∧
      ∃ page, changed page ∧ page.segment = segment ∧
        (disk'.file segment).length = (page.pageNo + 1) * pageSize

namespace Disk.Rewrote

variable {changed changed' : PageId → Prop} {disk disk' disk'' : Disk}

theorem mono (h : disk.Rewrote changed disk') (more : ∀ page, changed page → changed' page) :
    disk.Rewrote changed' disk' :=
  ⟨fun segment position apart => h.bytes segment position fun page here => apart page (more page here),
    fun page same => h.content page (mt (more page) same),
    fun segment => (h.ends segment).imp id fun ⟨longer, page, here, there⟩ =>
      ⟨longer, page, more page here, there⟩⟩

theorem of_files (files : disk'.file = disk.file) : disk.Rewrote changed disk' := by
  refine ⟨fun segment position _ => by rw [files], fun page _ => ?_, fun segment => ?_⟩
  · rw [content_congr files]
  · exact .inl (by rw [files])

theorem trans (h : disk.Rewrote changed disk') (h' : disk'.Rewrote changed disk'') :
    disk.Rewrote changed disk'' := by
  refine ⟨fun segment position apart => ?_, fun page same => ?_, fun segment => ?_⟩
  · exact (h'.bytes segment position apart).trans (h.bytes segment position apart)
  · exact (h'.content page same).trans (h.content page same)
  · rcases h'.ends segment with same | ⟨longer, there⟩
    · rw [same]
      exact h.ends segment
    · refine .inr ⟨Nat.le_trans ?_ longer, there⟩
      rcases h.ends segment with same | ⟨longer, -⟩
      · exact Nat.le_of_eq same.symm
      · exact longer

theorem of_write {page : PageId} {bytes : Page} (here : changed page)
    (files : disk'.file = Function.update disk.file page.segment
      ((disk.file page.segment).write page.pageNo bytes)) : disk.Rewrote changed disk' := by
  refine ⟨fun segment position apart => ?_, fun other same => ?_, fun segment => ?_⟩
  · rw [files]
    by_cases there : segment = page.segment
    · subst there
      rw [Function.update_self]
      exact File.byte_write _ bytes (apart page here rfl)
    · rw [Function.update_of_ne there]
  · rw [content_of_write files, Function.update_of_ne]
    rintro rfl
    exact same here
  · rw [files]
    by_cases there : segment = page.segment
    · subst there
      rw [Function.update_self]
      change max _ _ = _ ∨ _ ≤ max _ _ ∧ _
      rcases Nat.le_total ((page.pageNo + 1) * pageSize) (disk.file page.segment).length
        with inside | past
      · exact .inl (Nat.max_eq_left inside)
      · exact .inr ⟨Nat.le_max_left _ _, page, here, rfl, Nat.max_eq_right past⟩
    · rw [Function.update_of_ne there]
      exact .inl rfl

end Disk.Rewrote

namespace Pool

open StorageM Storage

def Dirty (pool : Pool) (page : PageId) : Prop :=
  ∃ id, pool.table[page]? = some id ∧ (pool.frame id).dirty = true

def dirtyPages (pool : Pool) : List PageId :=
  (pool.table.toList.filter fun resident => (pool.frame resident.2).dirty).map (·.1)

theorem mem_toList {pool : Pool} {resident : PageId × FrameId} :
    resident ∈ pool.table.toList ↔ pool.table[resident.1]? = some resident.2 :=
  Std.TreeMap.mem_toList_iff_getElem?_eq_some

theorem mem_dirtyPages {pool : Pool} {page : PageId} : page ∈ pool.dirtyPages ↔ pool.Dirty page := by
  simp only [dirtyPages, List.mem_map, List.mem_filter, mem_toList]
  constructor
  · rintro ⟨⟨_, id⟩, ⟨resident, dirty⟩, rfl⟩
    exact ⟨id, resident, dirty⟩
  · rintro ⟨id, resident, dirty⟩
    exact ⟨(page, id), ⟨resident, dirty⟩, rfl⟩

def DirtyAmong (residents : List (PageId × FrameId)) (pool : Pool) (page : PageId) : Prop :=
  ∃ id, (page, id) ∈ residents ∧ (pool.frame id).dirty = true

theorem dirtyAmong_append {pool : Pool} {residents : List (PageId × FrameId)}
    (more : List (PageId × FrameId)) (page : PageId) :
    pool.DirtyAmong residents page → pool.DirtyAmong (residents ++ more) page :=
  fun ⟨id, mem, dirty⟩ => ⟨id, List.mem_append_left _ mem, dirty⟩

/-- From `s` a flush went through some resident pages. -/
structure Visited (residents : List (PageId × FrameId)) (s s' : Storage) : Prop where
  listed : ∀ resident ∈ residents, s.pool.table[resident.1]? = some resident.2
  rest : s'.pool = { s.pool with frames := s'.pool.frames, counters := s'.pool.counters }
  size : s'.pool.size = s.pool.size
  frames : ∀ id, s'.pool.frame id =
    if id ∈ residents.map (·.2) then (s.pool.frame id).clearDirty else s.pool.frame id
  counters : s'.pool.counters = { s.pool.counters with
    pagesWritten := s.pool.counters.pagesWritten +
      UInt64.ofNat (residents.countP fun resident => (s.pool.frame resident.2).dirty) }
  disk : s.disk.Rewrote (s.pool.DirtyAmong residents) s'.disk
  holds : ∀ page, s.disk.Holds page → s'.disk.Holds page
  images : ∀ resident ∈ residents, (s.pool.frame resident.2).dirty = true →
    s'.disk.Holds resident.1 ∧ s'.disk.content resident.1 = (s.pool.frame resident.2).bytes

namespace Visited

variable {residents : List (PageId × FrameId)} {s t t' : Storage} {page : PageId} {id : FrameId}

theorem refl (s : Storage) : Visited [] s s := by
  refine ⟨fun _ mem => absurd mem List.not_mem_nil, rfl, rfl, fun _ => rfl, ?_, .of_files rfl,
    fun _ holds => holds, fun _ mem => absurd mem List.not_mem_nil⟩
  simp

theorem table (h : Visited residents s t) : t.pool.table = s.pool.table := by rw [h.rest]

theorem guards (h : Visited residents s t) : t.pool.guards = s.pool.guards := by rw [h.rest]

theorem congr (h : Visited residents s t) (pool : t'.pool = t.pool)
    (files : t'.disk.file = t.disk.file) : Visited residents s t' := by
  refine ⟨h.listed, by rw [pool]; exact h.rest, by rw [pool]; exact h.size,
    by rw [pool]; exact h.frames, by rw [pool]; exact h.counters, h.disk.trans (.of_files files),
    fun other holds => (Disk.holds_congr files).mpr (h.holds other holds), ?_⟩
  intro resident mem dirty
  rw [Disk.holds_congr files, Disk.content_congr files]
  exact h.images resident mem dirty

theorem pass (h : Visited residents s t) (resident : s.pool.table[page]? = some id)
    (clean : (s.pool.frame id).dirty = false) : Visited (residents ++ [(page, id)]) s t := by
  refine { h with
      listed := ?listed, frames := ?frames, counters := ?counters,
      disk := h.disk.mono (dirtyAmong_append _), images := ?images }
  case listed =>
    intro other mem
    rcases List.mem_append.mp mem with mem | mem
    · exact h.listed other mem
    · rw [List.mem_singleton.mp mem]
      exact resident
  case frames =>
    intro other
    rw [h.frames, List.map_append, List.map_singleton]
    by_cases here : other = id
    · subst here
      have same : (s.pool.frame other).clearDirty = s.pool.frame other := by
        rw [Frame.clearDirty, ← clean]
      simp [same]
    · simp only [List.mem_append, List.mem_singleton, here, or_false]
  case counters =>
    rw [h.counters, List.countP_append, List.countP_singleton]
    simp [clean]
  case images =>
    intro other mem dirty
    rcases List.mem_append.mp mem with mem | mem
    · exact h.images other mem dirty
    · rw [List.mem_singleton.mp mem, clean] at dirty
      cases dirty

theorem write (h : Visited residents s t) (invariant : s.pool.Invariant .nothing)
    (resident : s.pool.table[page]? = some id) (fresh : id ∉ residents.map (·.2))
    (dirty : (s.pool.frame id).dirty = true)
    (files : t'.disk.file = Function.update t.disk.file page.segment
      ((t.disk.file page.segment).write page.pageNo (s.pool.frame id).bytes))
    (pool : t'.pool = wrote id t.pool) : Visited (residents ++ [(page, id)]) s t' := by
  have bound := (invariant.bound page id).mp resident
  have inside : id.index < t.pool.size := by
    rw [h.size]
    exact Invariant.bound_in_range (by simp [bound])
  have frames (other : FrameId) : t'.pool.frame other =
      if other = id then (t.pool.frame id).clearDirty else t.pool.frame other := by
    rw [pool]
    exact frame_mapFrame_inside t.pool other _ inside
  have here : t.pool.frame id = s.pool.frame id := by rw [h.frames, if_neg fresh]
  refine ⟨?_, ?_, ?_, ?_, ?_, (h.disk.mono (dirtyAmong_append _)).trans
    (.of_write ⟨id, List.mem_append_right _ List.mem_cons_self, dirty⟩ files), ?_, ?_⟩
  · intro other mem
    rcases List.mem_append.mp mem with mem | mem
    · exact h.listed other mem
    · rw [List.mem_singleton.mp mem]
      exact resident
  · have rest : t'.pool =
        { t.pool with frames := t'.pool.frames, counters := t'.pool.counters } := by
      rw [pool]; rfl
    exact rest.trans (by rw [h.rest])
  · rw [pool, ← h.size]
    exact size_mapFrame _ _ _
  · intro other
    rw [frames, here, h.frames, List.map_append, List.map_singleton]
    by_cases same : other = id
    · simp [same]
    · simp only [List.mem_append, List.mem_singleton, same, or_false, if_false]
  · have counted : t'.pool.counters =
        { t.pool.counters with pagesWritten := t.pool.counters.pagesWritten + 1 } := by
      rw [pool]; rfl
    rw [counted, h.counters, List.countP_append, List.countP_singleton, if_pos dirty,
      UInt64.ofNat_add, UInt64.add_assoc]
    rfl
  · exact fun other holds => Disk.holds_of_write files (h.holds other holds)
  · intro other mem other_dirty
    rcases List.mem_append.mp mem with mem | mem
    · have apart : other.1 ≠ page := by
        intro same
        have there := h.listed other mem
        rw [same, resident] at there
        exact fresh (Option.some.inj there ▸ List.mem_map_of_mem mem)
      obtain ⟨holds, image⟩ := h.images other mem other_dirty
      exact ⟨Disk.holds_of_write files holds, by
        rw [Disk.content_of_write files, Function.update_of_ne apart, image]⟩
    · rw [List.mem_singleton.mp mem]
      exact ⟨Disk.holds_written files, by rw [Disk.content_of_write files, Function.update_self]⟩

theorem next (h : Visited residents s t) (invariant : s.pool.Invariant .nothing)
    (free : ∀ guard ∈ s.pool.guards, guard.latch = .shared)
    (resident : s.pool.table[page]? = some id) (fresh : id ∉ residents.map (·.2)) :
    Ends (writeBack id page) t (fun _ t' => Visited (residents ++ [(page, id)]) s t')
      (fun failure t' => (∃ cause, failure = .error (.storage (.io (.refused cause)))) ∧
        Visited residents s t') := by
  have here : t.pool.frame id = s.pool.frame id := by rw [h.frames, if_neg fresh]
  refine (writeBack_ends id page t).imp ?_ ?_
  · rintro - t' (⟨rfl, clean⟩ | ⟨⟨-, dirty⟩, files, pool⟩)
    · rw [here] at clean
      exact h.pass resident (clean ((invariant.bound page id).mp resident))
    · rw [here] at dirty files
      exact h.write invariant resident fresh dirty files pool
  · rintro failure t' (⟨-, latched⟩ | ⟨refused, pool, files⟩)
    · obtain ⟨guard, mem, written⟩ := List.any_eq_true.mp latched
      rw [h.guards] at mem
      simp [free guard mem] at written
    · exact ⟨refused, h.congr pool files⟩

end Visited

end Pool

end PagedIndex
