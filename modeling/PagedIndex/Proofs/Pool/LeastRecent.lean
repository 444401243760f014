import PagedIndex.Proofs.Pool.Availability
import PagedIndex.Proofs.Pool.Outcomes
import PagedIndex.Proofs.Pool.RecencyList

/-!
# The page that gives up its frame

A diary keeps, beside the ledger of a run, the pages in the order of their use: a page is used when
it is fetched or created, and when it had to be kept because it could not be written. The recency
record stands for the frames what the diary says of the pages in them. So an operation that needs a
frame, when none is free, takes that of the page without pins whose last use is oldest, and only
once that page is on disk.
-/

namespace PagedIndex.Pool

open Storage

namespace Operation

/-- The operation needs a frame and none is free. -/
def Displaces (pool : Pool) (operation : Operation) : Prop :=
  pool.free = [] ∧ ∃ page ∈ operation.wanted?, page ∉ pool.table

instance (pool : Pool) (operation : Operation) : Decidable (operation.Displaces pool) :=
  inferInstanceAs (Decidable (_ ∧ _))

/-- The page that was to give up its frame and could not be written. -/
def kept (s : Storage) (operation : Operation) : List PageId :=
  if operation.Displaces s.pool then
    match s.pool.victim? with
    | some (id, page) => match (saves s.pool id page).run s.disk with
      | .ok _ _ => []
      | .error _ _ => [page]
    | none => []
  else []

/-- The pages that an operation uses. -/
def uses (s : Storage) (operation : Operation) : List PageId :=
  match operation.perform.run s with
  | .ok () _ => operation.wanted?.toList
  | .error (.error _) _ => operation.kept s
  | .error (.violation _) _ => []

end Operation

/-- A ledger and the pages as they were used, the last one first. -/
structure Diary where
  ledger : Ledger
  uses : List PageId

namespace Diary

def start (disk : Disk) (pool : Pool) : Diary := ⟨.start disk pool, []⟩

def step (diary : Diary) (operation : Operation) : Except Violation Diary :=
  (diary.ledger.step operation).map fun ledger =>
    ⟨ledger, operation.uses diary.ledger.storage ++ diary.uses⟩

def run (diary : Diary) (operations : List Operation) : Except Violation Diary :=
  operations.foldlM step diary

end Diary

/-- Of the resident pages without pins, the one whose last use is oldest. -/
structure LeastRecent (uses : List PageId) (pool : Pool) (page : PageId) : Prop where
  idle : pool.pinCount page = some 0
  used : page ∈ uses
  oldest : ∀ other, pool.pinCount other = some 0 → other ≠ page →
    uses.idxOf other < uses.idxOf page

/-- The page gave up its frame. What the frame had to be written for is on disk, and every other
page is where it was. -/
structure Displaced (page : PageId) (id : FrameId) (s s' : Storage) : Prop where
  gone : page ∉ s'.pool.table
  written : (s.pool.frame id).dirty = true →
    s'.disk.Holds page ∧ s'.disk.content page = (s.pool.frame id).bytes
  others : ∀ other frame, other ≠ page → s.pool.table[other]? = some frame →
    s'.pool.table[other]? = some frame

/-- The frame still holds its page, which is dirty and without pins, and may be evicted. -/
structure Withheld (id : FrameId) (pool pool' : Pool) : Prop where
  unchanged : pool' = { pool with recency := pool'.recency }
  dirty : (pool'.frame id).dirty = true
  idle : (pool'.frame id).pins = 0
  evictable : id ∈ pool'.recency.evictable

/-- Both pages are resident, and the frame of the first was accessed before that of the second. -/
def Older (pool : Pool) (page other : PageId) : Prop :=
  ∃ id id', pool.table[page]? = some id ∧ pool.table[other]? = some id' ∧
    pool.recency.Before id id'

/-- Pages may go, those that are used are the last in the order, and the others stay in order. -/
structure Reorders (used : List PageId) (pool pool' : Pool) : Prop where
  residents : ∀ page ∈ pool'.table, page ∈ used ∨ page ∈ pool.table
  older : ∀ page other, pool'.Older page other →
    page ∉ used ∧ (other ∈ used ∨ pool.Older page other)

namespace Reorders

variable {used : List PageId} {pool pool' pool'' : Pool}

theorem trans (h : Reorders [] pool pool') (h' : Reorders used pool' pool'') :
    Reorders used pool pool'' := by
  constructor
  · intro page resident
    rcases h'.residents page resident with now | before
    · exact .inl now
    · exact (h.residents page before).imp (fun none => absurd none List.not_mem_nil) id
  · intro page other older
    obtain ⟨unused, now | before⟩ := h'.older page other older
    · exact ⟨unused, .inl now⟩
    · obtain ⟨-, none | first⟩ := h.older page other before
      · exact absurd none List.not_mem_nil
      · exact ⟨unused, .inr first⟩

theorem of_fewer (table : ∀ (page : PageId) (id : FrameId), pool'.table[page]? = some id →
      pool.table[page]? = some id ∧ pool'.recency.stamps[id]? = pool.recency.stamps[id]?) :
    Reorders [] pool pool' := by
  constructor
  · intro page resident
    obtain ⟨id, mapped⟩ := mem_table_iff.mp resident
    exact .inr (mem_table_iff.mpr ⟨id, (table page id mapped).1⟩)
  · intro page other older
    obtain ⟨id, id', mapped, mapped', before⟩ := older
    obtain ⟨first, same⟩ := table page id mapped
    obtain ⟨second, same'⟩ := table other id' mapped'
    exact ⟨List.not_mem_nil, .inr ⟨id, id', first, second,
      before.of_stamps same.symm same'.symm⟩⟩

theorem of_unmoved (h : pool.Unmoved pool') : Reorders [] pool pool' :=
  of_fewer fun page id mapped => ⟨h.table ▸ mapped, by rw [h.stamps]⟩

theorem refl (pool : Pool) : Reorders [] pool pool := of_unmoved (.refl pool)

theorem of_asked (pool : Pool) (operation : Operation) :
    Reorders [] pool (operation.asked pool) := by
  obtain ⟨counters, asked⟩ := asked_eq pool operation
  rw [asked]
  exact of_fewer fun _ _ mapped => ⟨mapped, rfl⟩

theorem of_erased {page : PageId} {id : FrameId} (invariant : pool.Invariant .nothing)
    (mapped : pool.table[page]? = some id) (table : pool'.table = pool.table.erase page)
    (recency : pool'.recency = pool.recency.remove id) : Reorders [] pool pool' := by
  apply of_fewer
  intro other frame mapped'
  rw [table, Std.TreeMap.getElem?_erase] at mapped'
  split at mapped'
  · cases mapped'
  · rename_i apart
    have elsewhere : id ≠ frame := by
      rintro rfl
      have same := invariant.mapped_injective mapped mapped'
      exact apart (Std.LawfulEqCmp.compare_eq_iff_eq.mpr same)
    exact ⟨mapped', by rw [recency, Recency.stamps_remove, if_neg elsewhere]⟩

theorem of_accessed {page : PageId} {id : FrameId} (stamp : Nat)
    (table : ∀ (other : PageId) (frame : FrameId), pool'.table[other]? = some frame →
      (other = page ↔ id = frame) ∧ (other = page ∨ pool.table[other]? = some frame))
    (stamps : ∀ frame : FrameId, pool'.recency.stamps[frame]? =
      if id = frame then some stamp else pool.recency.stamps[frame]?)
    (last : ∀ (frame : FrameId) (earlier : Nat),
      pool.recency.stamps[frame]? = some earlier → earlier < stamp) :
    Reorders [page] pool pool' := by
  constructor
  · intro other resident
    obtain ⟨frame, mapped⟩ := mem_table_iff.mp resident
    rcases (table other frame mapped).2 with same | before
    · exact .inl (List.mem_singleton.mpr same)
    · exact .inr (mem_table_iff.mpr ⟨frame, before⟩)
  · intro first second older
    obtain ⟨frame, frame', mapped, mapped', early, late, stamped, stamped', lt⟩ := older
    obtain ⟨here, there⟩ := table first frame mapped
    obtain ⟨here', there'⟩ := table second frame' mapped'
    rw [stamps] at stamped stamped'
    have unused : first ≠ page := by
      intro same
      rw [if_pos (here.mp same)] at stamped
      obtain rfl := Option.some.inj stamped
      split at stamped'
      · obtain rfl := Option.some.inj stamped'
        exact Nat.lt_irrefl _ lt
      · exact Nat.lt_asymm lt (last frame' late stamped')
    rw [if_neg (fun same => unused (here.mpr same))] at stamped
    constructor
    · exact fun mem => unused (List.mem_singleton.mp mem)
    · by_cases same : second = page
      · exact .inl (List.mem_singleton.mpr same)
      · rw [if_neg (fun frames => same (here'.mpr frames))] at stamped'
        exact .inr ⟨frame, frame', there.resolve_left unused, there'.resolve_left same,
          early, late, stamped, stamped', lt⟩

theorem of_resident {page : PageId} {id : FrameId} (invariant : pool.Invariant .nothing)
    (mapped : pool.table[page]? = some id) (table : pool'.table = pool.table)
    (stamps : ∀ frame : FrameId, pool'.recency.stamps[frame]? =
      if id = frame then some (pool.recency.clock + 1) else pool.recency.stamps[frame]?) :
    Reorders [page] pool pool' := by
  apply of_accessed (pool.recency.clock + 1) _ stamps
  · exact fun frame earlier stamped =>
      Nat.lt_succ_of_le (invariant.recency.clock_bound frame earlier stamped)
  · intro other frame mapped'
    rw [table] at mapped'
    refine ⟨⟨?_, ?_⟩, .inr mapped'⟩
    · rintro rfl
      exact Option.some.inj (mapped.symm.trans mapped')
    · rintro rfl
      exact invariant.mapped_injective mapped' mapped

theorem of_bound {page : PageId} {id : FrameId} (hand : pool.Invariant (.emptied id))
    (table : pool'.table = pool.table.insert page id)
    (recency : pool'.recency = (pool.recency.access id).setEvictable id false) :
    Reorders [page] pool pool' := by
  obtain ⟨-, unbound⟩ := hand.in_range id rfl
  apply of_accessed (pool.recency.clock + 1)
  · intro other frame mapped
    rw [table, Std.TreeMap.getElem?_insert] at mapped
    by_cases same : other = page
    · rw [if_pos (Std.LawfulEqCmp.compare_eq_iff_eq.mpr same.symm)] at mapped
      exact ⟨⟨fun _ => Option.some.inj mapped, fun _ => same⟩, .inl same⟩
    · rw [if_neg (fun e => same (Std.LawfulEqCmp.compare_eq_iff_eq.mp e).symm)] at mapped
      have elsewhere : id ≠ frame := by
        rintro rfl
        rw [(hand.bound other id).mp mapped] at unbound
        cases unbound
      exact ⟨⟨fun e => absurd e same, fun e => absurd e elsewhere⟩, .inr mapped⟩
  · intro frame
    rw [recency, Recency.stamps_setEvictable, Recency.stamps_access]
  · exact fun frame earlier stamped =>
      Nat.lt_succ_of_le (hand.recency.clock_bound frame earlier stamped)

end Reorders

section Steps

variable {s s' : Storage} {operation : Operation}

theorem Emptied.reorders {id : FrameId} (operation : Operation) (h : s.pool.Invariant .nothing)
    (emptied : Emptied ⟨s.disk, operation.asked s.pool⟩ id s') : Reorders [] s.pool s'.pool := by
  apply (Reorders.of_asked s.pool operation).trans
  have asked := asked_invariant h operation
  cases emptied with
  | free => exact .of_fewer fun _ _ mapped => ⟨mapped, rfl⟩
  | evicted free victim written => exact .of_erased asked (victim_bound asked victim).2.1 rfl rfl

theorem stamps_retained (pool : Pool) (id frame : FrameId) :
    (retained id pool).recency.stamps[frame]? =
      if id = frame then some (pool.recency.clock + 1) else pool.recency.stamps[frame]? := by
  rw [retained, Recency.stamps_setEvictable, Recency.stamps_access, Recency.stamps_remove]
  by_cases same : id = frame
  · rw [if_pos same, if_pos same]
    rfl
  · rw [if_neg same, if_neg same, if_neg same]

theorem Operation.Done.reorders (h : s.pool.Invariant .nothing) (done : operation.Done s s') :
    Reorders operation.wanted?.toList s.pool s'.pool := by
  cases done with
  | hit resident =>
    refine .of_resident h resident rfl fun frame => ?_
    exact (congrArg (·[frame]?) (Recency.stamps_setEvictable _ _)).trans
      (Recency.stamps_access _ frame)
  | @loaded latch page _ _ _ _ _ _ absent emptied hand read =>
    exact (emptied.reorders (.fetch latch page) h).trans (.of_bound hand rfl rfl)
  | @created page _ _ _ _ absent emptied hand =>
    exact (emptied.reorders (.create page) h).trans (.of_bound hand rfl rfl)
  | dropped resident => exact .of_erased h resident rfl rfl
  | nothing absent => exact .refl _
  | unmoved passive unmoved =>
    rw [passive.wanted?_eq]
    exact .of_unmoved unmoved

theorem kept_of_free (operation : Operation) (free : s.pool.free ≠ []) : operation.kept s = [] :=
  if_neg fun displaces => free displaces.1

theorem kept_of_resident (wanted : ∀ page ∈ operation.wanted?, page ∈ s.pool.table) :
    operation.kept s = [] := by
  apply if_neg
  intro displaces
  obtain ⟨-, page, mem, absent⟩ := displaces
  exact absent (wanted page mem)

theorem kept_of_written {id : FrameId} {page : PageId} {disk : Disk}
    (victim : s.pool.victim? = some (id, page))
    (written : (saves s.pool id page).run s.disk = .ok () disk) : operation.kept s = [] := by
  unfold Operation.kept
  split
  · simp only [victim, written]
  · rfl

theorem kept_of_refused {id : FrameId} {page : PageId} {fault : StorageFault} {disk : Disk}
    (displaces : operation.Displaces s.pool) (victim : s.pool.victim? = some (id, page))
    (refused : (saves s.pool id page).run s.disk = .error fault disk) :
    operation.kept s = [page] := by
  rw [Operation.kept, if_pos displaces]
  simp only [victim, refused]

theorem kept_of_full (victim : s.pool.victim? = none) : operation.kept s = [] := by
  unfold Operation.kept
  split
  · simp only [victim]
  · rfl

theorem Operation.Failed.reorders {error : Error} (h : s.pool.Invariant .nothing)
    (failed : operation.Failed s (.error error) s') :
    Reorders (operation.kept s) s.pool s'.pool := by
  cases failed with
  | resident resident =>
    rw [kept_of_resident (by simpa [Operation.wanted?] using resident)]
    exact .refl _
  | denied wanted absent denied =>
    obtain ⟨counters, asked⟩ := asked_eq s.pool operation
    rw [asked] at denied
    cases denied with
    | full free victim =>
      rw [kept_of_full (s := s) victim]
      exact .of_fewer fun _ _ mapped => ⟨mapped, rfl⟩
    | @kept id page _ _ free victim refused =>
      rw [kept_of_refused (s := s) ⟨free, _, wanted, absent⟩ victim refused]
      exact .of_resident h (victim_bound h victim).2.1 rfl (stamps_retained s.pool id)
  | @unread latch page id t _ _ absent emptied refused =>
    have given : Reorders [] s.pool { t.pool with free := id :: t.pool.free } :=
      (emptied.reorders (.fetch latch page) h).trans (.of_fewer fun _ _ mapped => ⟨mapped, rfl⟩)
    cases emptied with
    | free free =>
      have some_free : s.pool.free ≠ [] := by
        rw [show s.pool.free = _ from free]
        exact List.cons_ne_nil _ _
      rw [kept_of_free _ some_free]
      exact given
    | evicted free victim written =>
      rw [kept_of_written (s := s) victim written]
      exact given
  | pinned resident =>
    rw [kept_of_resident (by simp [Operation.wanted?])]
    exact .refl _
  | unmoved passive unmoved =>
    rw [kept_of_resident (by simp [passive.wanted?_eq])]
    exact .of_unmoved unmoved

end Steps

namespace Diary

structure Invariant (diary : Diary) : Prop where
  ledger : diary.ledger.Invariant
  used : ∀ page ∈ diary.ledger.storage.pool.table, page ∈ diary.uses
  ordered : ∀ page other, diary.ledger.storage.pool.Older page other →
    diary.uses.idxOf other < diary.uses.idxOf page

variable {diary diary' : Diary} {operation : Operation}

theorem Invariant.note (h : diary.Invariant) {ledger : Ledger} {used : List PageId}
    (invariant : ledger.Invariant)
    (reorders : Reorders used diary.ledger.storage.pool ledger.storage.pool) :
    Invariant ⟨ledger, used ++ diary.uses⟩ := by
  constructor
  · exact invariant
  · intro page resident
    rcases reorders.residents page resident with now | before
    · exact List.mem_append_left _ now
    · exact List.mem_append_right _ (h.used page before)
  · intro page other older
    obtain ⟨unused, later⟩ := reorders.older page other older
    rw [List.idxOf_append, List.idxOf_append, if_neg unused]
    by_cases now : other ∈ used
    · rw [if_pos now]
      exact Nat.lt_of_lt_of_le (List.idxOf_lt_length_of_mem now) (Nat.le_add_left _ _)
    · rw [if_neg now]
      exact Nat.add_lt_add_right (h.ordered page other (later.resolve_left now)) _

theorem ledger_reorders {ledger ledger' : Ledger} (h : ledger.Invariant)
    (step : ledger.step operation = .ok ledger') :
    Reorders (operation.uses ledger.storage) ledger.storage.pool ledger'.storage.pool := by
  have ends := operation_cases h.coherent operation
  unfold Operation.uses
  rcases Ledger.step_cases step with ⟨s', ran, rfl⟩ | ⟨error, s', ran, rfl⟩
  · rw [ran]
    exact (ends.of_ok ran).reorders h.coherent.pool
  · rw [ran]
    exact (ends.of_error ran).reorders h.coherent.pool

theorem step_preserves_invariant (h : diary.Invariant)
    (step : diary.step operation = .ok diary') : diary'.Invariant := by
  unfold Diary.step at step
  cases next : diary.ledger.step operation with
  | error violation => rw [next] at step; cases step
  | ok ledger =>
    rw [next] at step
    cases step
    exact h.note (Pool.step_preserves_invariant h.ledger next) (ledger_reorders h.ledger next)

theorem run_preserves_invariant (h : diary.Invariant) {operations : List Operation}
    (run : diary.run operations = .ok diary') : diary'.Invariant :=
  foldlM_keeps Diary.Invariant (fun _ _ _ h step => step_preserves_invariant h step) h run

theorem start_invariant {disk : Disk} {size : Nat} {pool : Pool}
    (new : Pool.new size = .ok pool) : (start disk pool).Invariant := by
  have table : (start disk pool).ledger.storage.pool.table = ∅ := table_of_new new
  constructor
  · exact Pool.start_invariant new
  · intro page resident
    rw [table] at resident
    simp at resident
  · intro page other older
    obtain ⟨id, id', mapped, -⟩ := older
    rw [table] at mapped
    simp at mapped

end Diary

theorem pinCount_eq_zero_iff {pool : Pool} {page : PageId} :
    pool.pinCount page = some 0 ↔
      ∃ id, pool.table[page]? = some id ∧ (pool.frame id).pins = 0 :=
  Option.map_eq_some_iff

theorem victim?_of_idle {pool : Pool} (h : pool.Invariant .nothing) {page : PageId}
    (idle : pool.pinCount page = some 0) : ∃ id page, pool.victim? = some (id, page) := by
  obtain ⟨frame, mapped, idle⟩ := pinCount_eq_zero_iff.mp idle
  have bound := (h.bound page frame).mp mapped
  have evictable := (h.evictable frame).mpr ⟨by simp [bound], idle⟩
  cases first : pool.recency.victim with
  | none => exact absurd evictable (Recency.victim_none h.recency first frame)
  | some id =>
    obtain ⟨page, victim, -⟩ := victim?_of_first h first
    exact ⟨id, page, victim⟩

/-- The victim of the recency record is the page that the diary calls least recent. -/
theorem least_recent {diary : Diary} (h : diary.Invariant) {id : FrameId} {page : PageId}
    (victim : diary.ledger.storage.pool.victim? = some (id, page)) :
    LeastRecent diary.uses diary.ledger.storage.pool page := by
  have invariant := h.ledger.coherent.pool
  obtain ⟨first, mapped, idle⟩ := victim_bound invariant victim
  constructor
  · exact pinCount_eq_zero_iff.mpr ⟨id, mapped, idle⟩
  · exact h.used page (mem_table_iff.mpr ⟨id, mapped⟩)
  · intro other idle' apart
    obtain ⟨frame, mapped', idle'⟩ := pinCount_eq_zero_iff.mp idle'
    have bound := (invariant.bound other frame).mp mapped'
    have elsewhere : frame ≠ id := by
      rintro rfl
      exact apart (invariant.mapped_injective mapped' mapped)
    have evictable := (invariant.evictable frame).mpr ⟨by simp [bound], idle'⟩
    exact h.ordered page other ⟨id, frame, mapped, mapped',
      Recency.victim_before invariant.recency first evictable elsewhere⟩

section Displacing

variable {s s' : Storage} {operation : Operation} {id : FrameId} {page : PageId}
  {disk disk' : Disk}

theorem displaced_of_written (written : (saves s.pool id page).run s.disk = .ok () disk)
    (files : s'.disk.file = disk.file) (gone : page ∉ s'.pool.table)
    (others : ∀ (other : PageId) (frame : FrameId),
      (s.pool.table.erase page)[other]? = some frame → s'.pool.table[other]? = some frame) :
    Displaced page id s s' := by
  constructor
  · exact gone
  · intro dirty
    rw [saves, if_pos dirty] at written
    have wrote := (Disk.writePage_ends page (s.pool.frame id).bytes s.disk).of_ok written
    constructor
    · exact (Disk.holds_congr files).mpr (Disk.holds_written wrote)
    · rw [Disk.content_congr files, Disk.content_of_write wrote, Function.update_self]
  · intro other frame apart mapped
    apply others
    rw [Std.TreeMap.getElem?_erase, if_neg, mapped]
    exact fun same => apart (Std.LawfulEqCmp.compare_eq_iff_eq.mp same).symm

theorem mapped_insert {table : Std.TreeMap PageId FrameId} {wanted other : PageId}
    {frame : FrameId} (absent : wanted ∉ table) (mapped : table[other]? = some frame) :
    (table.insert wanted id)[other]? = some frame := by
  rw [Std.TreeMap.getElem?_insert, if_neg, mapped]
  intro same
  rw [Std.LawfulEqCmp.compare_eq_iff_eq.mp same] at absent
  rw [Std.TreeMap.getElem?_eq_none absent] at mapped
  cases mapped

theorem displaced_of_bound {wanted : PageId} (h : s.pool.Invariant .nothing)
    (absent : wanted ∉ s.pool.table) (victim : s.pool.victim? = some (id, page))
    (written : (saves s.pool id page).run s.disk = .ok () disk)
    (files : s'.disk.file = disk.file)
    (table : s'.pool.table = (s.pool.table.erase page).insert wanted id) :
    Displaced page id s s' ∧ ∀ other ∈ some wanted, s'.pool.table[other]? = some id := by
  have mapped := (victim_bound h victim).2.1
  have apart : wanted ≠ page := by
    rintro rfl
    exact absent (mem_table_iff.mpr ⟨id, mapped⟩)
  have absent' : wanted ∉ s.pool.table.erase page :=
    fun resident => absent (Std.TreeMap.mem_of_mem_erase resident)
  constructor
  · apply displaced_of_written written files
    · rw [table, Std.TreeMap.mem_insert, Std.LawfulEqCmp.compare_eq_iff_eq]
      rintro (same | resident)
      · exact apart same
      · exact (Std.TreeMap.mem_erase.mp resident).1 Std.ReflCmp.compare_self
    · intro other frame mapped'
      rw [table]
      exact mapped_insert absent' mapped'
  · rintro _ ⟨⟩
    rw [table, Std.TreeMap.getElem?_insert_self]

theorem Operation.Done.displaced (h : s.pool.Invariant .nothing)
    (displaces : operation.Displaces s.pool) (done : operation.Done s s') :
    ∃ id page disk, s.pool.victim? = some (id, page) ∧
      (saves s.pool id page).run s.disk = .ok () disk ∧ Displaced page id s s' ∧
      ∀ wanted ∈ operation.wanted?, s'.pool.table[wanted]? = some id := by
  obtain ⟨free, wanted, mem, absent⟩ := displaces
  cases done with
  | hit resident =>
    cases mem
    exact absurd (mem_table_iff.mpr ⟨_, resident⟩) absent
  | @loaded _ _ id t bytes disk _ _ _ emptied hand read =>
    cases mem
    cases emptied with
    | free some_free =>
      rw [show s.pool.free = _ from some_free] at free
      cases free
    | @evicted page disk' _ victim written =>
      have files := ((Disk.readPage_ends wanted disk').of_ok read).1
      exact ⟨id, page, disk', victim, written,
        displaced_of_bound (s := s) h absent victim written files rfl⟩
  | @created _ id t _ _ _ emptied hand =>
    cases mem
    cases emptied with
    | free some_free =>
      rw [some_free] at free
      cases free
    | @evicted page disk' _ victim written =>
      exact ⟨id, page, disk', victim, written,
        displaced_of_bound (s := s) h absent victim written rfl rfl⟩
  | dropped resident => cases mem
  | nothing absent => cases mem
  | unmoved passive unmoved =>
    rw [passive.wanted?_eq] at mem
    cases mem

/-- How an operation fails that needs a frame when none is free. -/
inductive Operation.Lacks (s : Storage) (operation : Operation) : Error → Storage → Prop where
  | frame (victim : s.pool.victim? = none) :
      Lacks s operation (.storage .noFreeFrames) ⟨s.disk, operation.asked s.pool⟩
  | room {id : FrameId} {page : PageId} {fault : StorageFault} {disk : Disk}
      (victim : s.pool.victim? = some (id, page))
      (refused : (saves s.pool id page).run s.disk = .error fault disk) :
      Lacks s operation (.storage fault) ⟨disk, retained id (operation.asked s.pool)⟩
  | bytes {id : FrameId} {page : PageId} {fault : StorageFault} {disk : Disk} {s' : Storage}
      (victim : s.pool.victim? = some (id, page))
      (written : (saves s.pool id page).run s.disk = .ok () disk)
      (displaced : Displaced page id s s') : Lacks s operation (.storage fault) s'

theorem Operation.Failed.lacks {error : Error} (displaces : operation.Displaces s.pool)
    (failed : operation.Failed s (.error error) s') :
    operation.Lacks s error s' := by
  obtain ⟨free, wanted, mem, absent⟩ := displaces
  cases failed with
  | resident resident =>
    cases mem
    exact absurd resident absent
  | denied _ _ denied =>
    obtain ⟨counters, asked⟩ := asked_eq s.pool operation
    cases denied with
    | full _ victim =>
      rw [asked] at victim
      exact .frame victim
    | kept _ victim refused =>
      rw [asked] at victim refused
      exact .room victim refused
  | @unread _ _ id t fault disk _ emptied refused =>
    cases mem
    cases emptied with
    | free some_free =>
      rw [show s.pool.free = _ from some_free] at free
      cases free
    | @evicted page disk' _ victim written =>
      have files := ((Disk.readPage_ends wanted disk').of_error refused).1
      refine .bytes victim written (displaced_of_written (s := s) written files ?_ ?_)
      · exact fun resident => (Std.TreeMap.mem_erase.mp resident).1 Std.ReflCmp.compare_self
      · exact fun _ _ mapped => mapped
  | pinned resident => cases mem
  | unmoved passive unmoved =>
    rw [passive.wanted?_eq] at mem
    cases mem

theorem error_of_displaces {ledger : Ledger} (h : ledger.Invariant)
    (displaces : operation.Displaces ledger.storage.pool) {failure : Failure}
    (ran : operation.perform.run ledger.storage = .error failure s') :
    ∃ error, failure = .error error := by
  obtain ⟨-, wanted, mem, absent⟩ := displaces
  rcases (operation_ends h operation).of_error ran with refused | ⟨_, -, breaks⟩
  · obtain ⟨fault, same, -⟩ := refused.fault
    exact ⟨_, same⟩
  · rcases Operation.eq_of_wanted mem with rfl | ⟨latch, rfl⟩
    · exact breaks.not_create.elim
    · obtain ⟨guard, listed, rfl⟩ := breaks.bars.exists_guard
      have mapped := h.coherent.pool.consistent.guarded guard listed
      exact absurd (mem_table_iff.mpr ⟨_, mapped⟩) absent

theorem withheld_of_refused {pool asked : Pool} (h : pool.Invariant .nothing)
    {fault : StorageFault} (counted : ∃ counters, asked = { pool with counters })
    (victim : pool.victim? = some (id, page))
    (refused : (saves pool id page).run disk = .error fault disk') :
    (∃ cause, fault = .io cause) ∧ Withheld id asked (retained id asked) := by
  obtain ⟨counters, rfl⟩ := counted
  obtain ⟨first, mapped, idle⟩ := victim_bound h victim
  by_cases dirty : (pool.frame id).dirty = true
  · rw [saves, if_pos dirty] at refused
    obtain ⟨-, cause, rfl⟩ := (Disk.writePage_ends page _ disk).of_error refused
    refine ⟨⟨_, rfl⟩, rfl, dirty, idle, ?_⟩
    apply (Recency.mem_evictable_setEvictable (Recency.mem_stamps_access.mpr (.inl rfl))).mpr
    rw [if_pos rfl]
  · rw [saves, if_neg dirty] at refused
    cases refused

theorem perform_of_displaces {ledger : Ledger} (h : ledger.Invariant)
    (displaces : operation.Displaces ledger.storage.pool) :
    Ends operation.perform ledger.storage
      (fun _ s' => ∃ id page disk, ledger.storage.pool.victim? = some (id, page) ∧
        (saves ledger.storage.pool id page).run ledger.storage.disk = .ok () disk ∧
        Displaced page id ledger.storage s' ∧
        ∀ wanted ∈ operation.wanted?, s'.pool.table[wanted]? = some id)
      (fun failure s' => ∃ error, failure = .error error ∧
        operation.Lacks ledger.storage error s') := by
  have cases := operation_cases h.coherent operation
  apply (Ends.run_eq _ _).imp
  · intro _ s' ran
    exact (cases.of_ok ran).displaced h.coherent.pool displaces
  · intro failure s' ran
    obtain ⟨error, rfl⟩ := error_of_displaces h displaces ran
    exact ⟨error, rfl, (cases.of_error ran).lacks displaces⟩

theorem perform_of_full {ledger : Ledger} (h : ledger.Invariant)
    (displaces : operation.Displaces ledger.storage.pool)
    (full : ledger.storage.pool.victim? = none) :
    operation.perform.run ledger.storage = .error (.error (.storage .noFreeFrames))
      ⟨ledger.storage.disk, operation.asked ledger.storage.pool⟩ := by
  have ends := perform_of_displaces h displaces
  cases ran : operation.perform.run ledger.storage with
  | ok _ s' =>
    obtain ⟨id, page, disk, victim, -⟩ := ends.of_ok ran
    cases full.symm.trans victim
  | error failure s' =>
    obtain ⟨error, rfl, lacking⟩ := ends.of_error ran
    cases lacking with
    | frame => rfl
    | room victim => cases full.symm.trans victim
    | bytes victim => cases full.symm.trans victim

theorem perform_of_written {ledger : Ledger} (h : ledger.Invariant)
    (displaces : operation.Displaces ledger.storage.pool)
    (victim : ledger.storage.pool.victim? = some (id, page))
    (written : (saves ledger.storage.pool id page).run ledger.storage.disk = .ok () disk) :
    Ends operation.perform ledger.storage
      (fun _ s' => Displaced page id ledger.storage s' ∧
        ∀ wanted ∈ operation.wanted?, s'.pool.table[wanted]? = some id)
      (fun failure s' => Displaced page id ledger.storage s' ∧
        ∃ fault, failure = .error (.storage fault)) := by
  apply (perform_of_displaces h displaces).imp
  · intro _ s' ended
    obtain ⟨id', page', disk', victim', -, displaced, taken⟩ := ended
    cases victim.symm.trans victim'
    exact ⟨displaced, taken⟩
  · intro failure s' ended
    obtain ⟨error, rfl, lacking⟩ := ended
    cases lacking with
    | frame full => cases victim.symm.trans full
    | room victim' refused =>
      cases victim.symm.trans victim'
      cases written.symm.trans refused
    | bytes victim' written' displaced =>
      cases victim.symm.trans victim'
      exact ⟨displaced, _, rfl⟩

theorem perform_of_refused {ledger : Ledger} (h : ledger.Invariant)
    (displaces : operation.Displaces ledger.storage.pool)
    (victim : ledger.storage.pool.victim? = some (id, page)) {fault : StorageFault}
    (refused : (saves ledger.storage.pool id page).run ledger.storage.disk = .error fault disk) :
    operation.perform.run ledger.storage = .error (.error (.storage fault))
      ⟨disk, retained id (operation.asked ledger.storage.pool)⟩ := by
  have ends := perform_of_displaces h displaces
  cases ran : operation.perform.run ledger.storage with
  | ok _ s' =>
    obtain ⟨id', page', disk', victim', written, -⟩ := ends.of_ok ran
    cases victim.symm.trans victim'
    cases refused.symm.trans written
  | error failure s' =>
    obtain ⟨error, rfl, lacking⟩ := ends.of_error ran
    cases lacking with
    | frame full => cases victim.symm.trans full
    | room victim' refused' =>
      cases victim.symm.trans victim'
      cases refused.symm.trans refused'
      rfl
    | bytes victim' written =>
      cases victim.symm.trans victim'
      cases refused.symm.trans written

end Displacing

/-- When an operation of a run needs a frame and none is free, the page that gives up its frame is
the least recently used of those without pins, and it goes only once it is on disk. If it cannot be
written it stays, and if every page has pins nothing changes apart from the count of misses. No page
of a run has more pins than its frame can count, for there the run ends. -/
theorem evicts_least_recently_used {disk : Disk} {size : Nat} {pool : Pool}
    (new : Pool.new size = .ok pool) {operations : List Operation} {diary : Diary}
    (run : (Diary.start disk pool).run operations = .ok diary) {operation : Operation}
    (displaces : operation.Displaces diary.ledger.storage.pool) :
    let s := diary.ledger.storage
    ((∀ page, s.pool.pinCount page ≠ some 0) → operation.perform.run s =
      .error (.error (.storage .noFreeFrames)) ⟨s.disk, operation.asked s.pool⟩) ∧
    ((∃ page, s.pool.pinCount page = some 0) → ∃ page id,
      LeastRecent diary.uses s.pool page ∧ s.pool.table[page]? = some id ∧
      Ends (saves s.pool id page) s.disk
        (fun _ _ => Ends operation.perform s
          (fun _ s' => Displaced page id s s' ∧
            ∀ wanted ∈ operation.wanted?, s'.pool.table[wanted]? = some id)
          (fun failure s' => Displaced page id s s' ∧
            ∃ fault, failure = .error (.storage fault)))
        (fun fault disk => (∃ cause, fault = .io cause) ∧
          ∃ pool', Withheld id (operation.asked s.pool) pool' ∧
            operation.perform.run s = .error (.error (.storage fault)) ⟨disk, pool'⟩)) := by
  intro s
  have invariant := Diary.run_preserves_invariant (Diary.start_invariant new) run
  have h : s.pool.Invariant .nothing := invariant.ledger.coherent.pool
  constructor
  · intro busy
    apply perform_of_full invariant.ledger displaces
    cases victim : s.pool.victim? with
    | none => rfl
    | some taken =>
      obtain ⟨-, mapped, idle⟩ := victim_bound h victim
      exact absurd (pinCount_eq_zero_iff.mpr ⟨_, mapped, idle⟩) (busy _)
  · intro some_idle
    obtain ⟨other, idle⟩ := some_idle
    obtain ⟨id, page, victim⟩ := victim?_of_idle h idle
    refine ⟨page, id, least_recent invariant victim, (victim_bound h victim).2.1, ?_⟩
    apply (Ends.run_eq _ _).imp
    · intro _ disk written
      exact perform_of_written invariant.ledger displaces victim written
    · intro fault disk refused
      obtain ⟨cause, withheld⟩ := withheld_of_refused h (asked_eq s.pool operation) victim refused
      exact ⟨cause, _, withheld, perform_of_refused invariant.ledger displaces victim refused⟩

/-- Two pages are created in two frames, and the first of them is fetched again. -/
def useFirstAgain : List Operation :=
  [.create ⟨0⟩, .create ⟨1⟩, .release ⟨0⟩, .release ⟨1⟩, .fetch .shared ⟨0⟩, .release ⟨2⟩]

theorem second_page_makes_way : ∃ pool diary, Pool.new 2 = .ok pool ∧
    (Diary.start oneFile pool).run useFirstAgain = .ok diary ∧
    (Operation.create ⟨2⟩).Displaces diary.ledger.storage.pool ∧
    LeastRecent diary.uses diary.ledger.storage.pool ⟨1⟩ ∧ ∃ id s',
      (Operation.create ⟨2⟩).perform.run diary.ledger.storage = .ok () s' ∧
      Displaced ⟨1⟩ id diary.ledger.storage s' ∧ s'.pool.table[(⟨2⟩ : PageId)]? = some id := by
  let check (diary : Diary) : Bool :=
    decide ((Operation.create ⟨2⟩).Displaces diary.ledger.storage.pool ∧
      diary.uses = [⟨0⟩, ⟨1⟩, ⟨0⟩] ∧ diary.ledger.storage.pool.pinCount ⟨1⟩ = some 0) &&
      match (Operation.create ⟨2⟩).perform.run diary.ledger.storage with
      | .ok () _ => true
      | .error (.error _) _ => false
      | .error (.violation _) _ => false
  obtain ⟨pool, new, checked⟩ : ∃ pool, Pool.new 2 = .ok pool ∧
      ((Diary.start oneFile pool).run useFirstAgain).toOption.any check = true :=
    ⟨_, rfl, by decide +kernel⟩
  cases run : (Diary.start oneFile pool).run useFirstAgain with
  | error violation => rw [run] at checked; cases checked
  | ok diary =>
    rw [run] at checked
    obtain ⟨facts, ends⟩ := (Bool.and_eq_true _ _).mp checked
    obtain ⟨displaces, uses, idle⟩ := of_decide_eq_true facts
    obtain ⟨page, id, least, -, outcome⟩ :=
      (evicts_least_recently_used new run displaces).2 ⟨_, idle⟩
    have second : page = ⟨1⟩ := by
      have used := least.used
      have oldest := least.oldest ⟨1⟩ idle
      rw [uses] at used oldest
      by_cases same : page = ⟨1⟩
      · exact same
      · have first : page = ⟨0⟩ := by simpa [same] using used
        subst first
        exact absurd (oldest (Ne.symm same)) (by decide)
    subst second
    refine ⟨pool, diary, new, run, displaces, least, id, ?_⟩
    cases ran : (Operation.create ⟨2⟩).perform.run diary.ledger.storage with
    | error failure s' =>
      rw [ran] at ends
      cases failure with
      | error error => cases ends
      | violation violation => cases ends
    | ok _ s' =>
      cases wrote : (saves diary.ledger.storage.pool id ⟨1⟩).run diary.ledger.storage.disk with
      | error fault disk =>
        obtain ⟨-, pool', -, refused⟩ := outcome.of_error wrote
        cases ran.symm.trans refused
      | ok _ disk =>
        obtain ⟨displaced, taken⟩ := (outcome.of_ok wrote).of_ok ran
        exact ⟨s', rfl, displaced, taken ⟨2⟩ rfl⟩

end PagedIndex.Pool
