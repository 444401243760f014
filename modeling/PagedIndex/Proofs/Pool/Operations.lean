import PagedIndex.Pool.Flush
import PagedIndex.Pool.Guards
import PagedIndex.Proofs.Pool.Contents

/-!
# What the operations of a pool do to the contents

Fetching, letting go and flushing keep what every page reads as. Creating a page makes it read as
zero, and a write through a guard changes the page of the guard. An operation that is refused
changes no page and no guard.
-/

namespace PagedIndex

namespace Pool

/-- A guard on the page has a latch that another guard of the given kind would wait for. -/
def Blocked (pool : Pool) (latch : Latch) (page : PageId) : Prop :=
  ∃ guard ∈ pool.guards, guard.page = page ∧ (latch = .exclusive ∨ guard.latch = .exclusive)

/-- The page has as many guards as its frame can count. -/
def Crowded (pool : Pool) (page : PageId) : Prop :=
  pool.guards.countP (·.page = page) + 1 = UInt32.size

/-- How the guards on a page keep another one from being taken. -/
inductive Bars (pool : Pool) (latch : Latch) (page : PageId) : Failure → Prop where
  | blocked (blocked : pool.Blocked latch page) : Bars pool latch page (.violation .latchHeld)
  | crowded (crowded : pool.Crowded page) : Bars pool latch page (.violation .pinOverflow)

theorem Bars.violated {pool : Pool} {latch : Latch} {page : PageId} {failure : Failure}
    (bars : pool.Bars latch page failure) : ∃ violation, failure = .violation violation := by
  cases bars <;> exact ⟨_, rfl⟩

theorem Bars.exists_guard {pool : Pool} {latch : Latch} {page : PageId} {failure : Failure}
    (bars : pool.Bars latch page failure) : ∃ guard ∈ pool.guards, guard.page = page := by
  cases bars with
  | blocked blocked =>
    obtain ⟨guard, mem, here, -⟩ := blocked
    exact ⟨guard, mem, here⟩
  | crowded crowded =>
    obtain ⟨guard, mem, here⟩ := List.countP_pos_iff.mp
      (show 0 < pool.guards.countP (·.page = page) by unfold Crowded UInt32.size at crowded; omega)
    exact ⟨guard, mem, of_decide_eq_true here⟩

end Pool

/-- The newest guard is on `page`, and the others are as before. -/
structure Storage.Took (latch : Latch) (page : PageId) (id : GuardId) (s s' : Storage) : Prop where
  fresh : id = ⟨s.pool.nextGuard⟩
  guards : ∃ frame, s'.pool.guards = ⟨id, frame, page, latch, false⟩ :: s.pool.guards
  nextGuard : s'.pool.nextGuard = s.pool.nextGuard + 1
  size : s'.pool.size = s.pool.size

namespace Storage

variable {s s' s'' : Storage} {latch : Latch} {page : PageId} {id : GuardId}

theorem Took.of_kept (h : s.Kept s') (h' : s'.Took latch page id s'') : s.Took latch page id s'' :=
  ⟨h.nextGuard ▸ h'.fresh, h.guards ▸ h'.guards, h.nextGuard ▸ h'.nextGuard, h'.size.trans h.size⟩

end Storage

namespace Pool

open StorageM Storage

variable {s : Storage}

theorem Invariant.blocked_of_latched {hand : InHand} {pool : Pool} (h : pool.Invariant hand)
    {page : PageId} {frame : FrameId} {latch : Latch} (resident : pool.table[page]? = some frame)
    (held : pool.writeLatched frame = true ∨ latch = .exclusive ∧ pool.latched frame = true) :
    pool.Blocked latch page := by
  have bound := (h.bound page frame).mp resident
  have on_page {guard : Guard} (mem : guard ∈ pool.guards) (here : guard.frame = frame) :
      guard.page = page := by
    have := h.guard_page guard mem
    rw [here, bound] at this
    exact (Option.some.inj this).symm
  rcases held with held | ⟨exclusive, held⟩
  · obtain ⟨guard, mem, here⟩ := List.any_eq_true.mp held
    simp only [decide_eq_true_eq] at here
    exact ⟨guard, mem, on_page mem here.1, .inr here.2⟩
  · obtain ⟨guard, mem, here⟩ := List.any_eq_true.mp held
    exact ⟨guard, mem, on_page mem (by simpa using here), .inl exclusive⟩

theorem Invariant.crowded_of_isCrowded {pool : Pool} (h : pool.Invariant .nothing) {page : PageId}
    {frame : FrameId} (resident : pool.table[page]? = some frame)
    (full : (pool.frame frame).isCrowded) : pool.Crowded page := by
  have bound := (h.bound page frame).mp resident
  have same : pool.guards.countP (·.page = page) = pool.guards.countP (·.frame = frame) := by
    refine List.countP_congr fun guard mem => ?_
    have on_page := h.guard_page guard mem
    simp only [decide_eq_true_eq]
    constructor
    · rintro rfl
      exact Option.some.inj (((h.bound _ _).mpr on_page).symm.trans resident)
    · rintro rfl
      exact Option.some.inj (on_page.symm.trans bound)
  have counted := h.pins frame
  rw [if_neg (by simp)] at counted
  rw [Crowded, same, ← Nat.add_zero (List.countP _ _), ← counted]
  exact Frame.isCrowded_iff.mp full

theorem tally_coherent {hand : InHand} (h : s.Coherent hand) (count : Counters → Counters) :
    (⟨s.disk, tally count s.pool⟩ : Storage).Coherent hand ∧
      s.Kept ⟨s.disk, tally count s.pool⟩ :=
  ⟨⟨h.pool.tally count, h.synced⟩, rfl, rfl, rfl, rfl⟩

theorem load_ends {page : PageId} (h : s.Coherent .nothing) (absent : page ∉ s.pool.table) :
    Ends (load page) s
      (fun id s' => s'.Coherent (.pinned id) ∧ s.Kept s' ∧ s'.pool.table[page]? = some id)
      (fun failure s' => s.Refused failure s') := by
  simp only [load, Ends.bind_iff, mapPool_iff]
  obtain ⟨start, counted⟩ := tally_coherent h fun c => { c with cacheMisses := c.cacheMisses + 1 }
  refine (acquireFrame_ends start).imp ?_ fun _ _ refused => .of_kept counted refused
  intro id t' ended
  rcases ended with ⟨emptied, kept, still⟩
  have kept := counted.trans kept
  have absent := still page absent
  simp only [Ends.tryCatch_iff, Ends.bind_iff, mapPool_iff, Ends.throw_iff, Ends.pure_iff]
  refine onDisk_ends ((Disk.readPage_ends page t'.disk).imp ?_ ?_)
  · intro _ disk ended
    rcases ended with ⟨files, -, rfl⟩
    let u : Storage := ⟨disk, t'.pool⟩
    have read : u.Coherent (.emptied id) ∧ t'.Kept u :=
      ⟨coherent_congr emptied rfl files, kept_congr rfl files⟩
    obtain ⟨counted, kept'⟩ :=
      tally_coherent read.1 fun c => { c with pagesRead := c.pagesRead + 1 }
    have kept := (kept.trans read.2).trans kept'
    obtain ⟨bound, content⟩ := bind_coherent counted absent
      (some (t'.disk.content page)) false fun _ => congrFun (Disk.content_congr files).symm page
    have same : t'.disk.content page = u.content page := by
      rw [← content_of_absent absent, read.2.content]
    have unchanged : Function.update u.content page (t'.disk.content page) = u.content := by
      rw [same, Function.update_eq_self]
    refine ⟨bound, kept.trans ⟨content.trans ?_, rfl, rfl, size_mapFrame _ _ _⟩, ?_⟩
    · rw [Option.getD_some, kept'.content]; exact unchanged
    · exact Std.TreeMap.getElem?_insert_self
  · intro fault disk ended
    rcases ended with ⟨files, cause⟩
    refine ⟨⟨fault, rfl, ?_⟩, ⟨emptied.pool.give_back, ?_⟩, kept.trans ⟨?_, rfl, rfl, rfl⟩⟩
    · rcases cause with ⟨rfl, -⟩ | ⟨cause, rfl⟩ <;> trivial
    · rw [Disk.content_congr files]; exact emptied.synced
    · change (⟨disk, t'.pool⟩ : Storage).content = t'.content
      exact content_congr rfl files

theorem pinPage_ends (h : s.Coherent .nothing) (page : PageId) :
    Ends (pinPage page) s
      (fun id s' => s'.Coherent (.pinned id) ∧ s.Kept s' ∧ s'.pool.table[page]? = some id)
      (fun failure s' => failure = .violation .pinOverflow ∧ s.pool.Crowded page ∨
        s.Refused failure s') := by
  rw [pinPage_iff]
  cases resident : s.pool.table[page]? with
  | none =>
    exact (load_ends h (by simpa using resident)).imp (fun _ _ loaded => loaded) fun _ _ => .inr
  | some id =>
    dsimp only
    split
    · rename_i full
      exact .inl ⟨rfl, h.pool.crowded_of_isCrowded resident full⟩
    rename_i roomy
    have bound : (s.pool.frame id).page ≠ none := by
      rw [(h.pool.bound page id).mp resident]
      simp
    have frames (other : FrameId) :
        ((mapFrame id Frame.pin s.pool).frame other).bytes = (s.pool.frame other).bytes ∧
          ((mapFrame id Frame.pin s.pool).frame other).dirty = (s.pool.frame other).dirty := by
      rw [frame_mapFrame]; split <;> exact ⟨rfl, rfl⟩
    refine ⟨⟨(h.pool.pin bound roomy).tally fun c => { c with cacheHits := c.cacheHits + 1 }, ?_⟩,
      ⟨?_, rfl, rfl, size_mapFrame _ _ _⟩, resident⟩
    · intro other_page other at_page clean guards
      refine (frames other).1.trans (h.synced other_page other at_page ?_ guards)
      exact (frames other).2.symm.trans clean
    · funext other_page
      exact content_eq_of_frame rfl rfl fun other _ => (frames other).1

theorem takeGuard_ends {page : PageId} {frame : FrameId} (h : s.Coherent (.pinned frame))
    (resident : s.pool.table[page]? = some frame) (latch : Latch) :
    Ends (takeGuard latch page frame) s
      (fun id s' => s'.Coherent .nothing ∧ s'.content = s.content ∧ s.Took latch page id s')
      (fun failure _ => failure = .violation .latchHeld ∧ s.pool.Blocked latch page) := by
  simp only [takeGuard, Ends.bind_iff, pool_iff]
  split
  · rename_i held
    refine ⟨rfl, h.pool.blocked_of_latched resident ?_⟩
    simpa using held
  · rename_i free
    simp only [Bool.or_eq_true, Bool.and_eq_true, decide_eq_true_eq, not_or, not_and] at free
    have unlatched (guard : Guard) (mem : guard ∈ s.pool.guards) (here : guard.frame = frame) :
        latch = .shared ∧ guard.latch = .shared := by
      have not_written : guard.latch ≠ .exclusive := fun written =>
        free.1 (List.any_eq_true.mpr ⟨guard, mem, by simp [here, written]⟩)
      have not_writing : latch ≠ .exclusive := fun writing =>
        free.2 writing (List.any_eq_true.mpr ⟨guard, mem, by simp [here]⟩)
      cases latch <;> cases kind : guard.latch <;> simp_all
    refine ⟨⟨h.pool.take_guard ((h.pool.bound page frame).mp resident) unlatched, ?_⟩, rfl,
      ⟨rfl, ⟨frame, rfl⟩, rfl, rfl⟩⟩
    intro other_page other at_page clean guards
    exact h.synced other_page other at_page clean fun guard mem =>
      guards guard (List.mem_cons_of_mem _ mem)

theorem fetch_ends (h : s.Coherent .nothing) (latch : Latch) (page : PageId) :
    Ends (fetch latch page) s
      (fun id s' => s'.Coherent .nothing ∧ s'.content = s.content ∧ s.Took latch page id s')
      (fun failure s' => s.pool.Bars latch page failure ∨ s.Refused failure s') := by
  rw [fetch, Ends.bind_iff]
  refine (pinPage_ends h page).imp ?_ ?_
  · intro frame t ended
    rcases ended with ⟨pinned, kept, resident⟩
    refine (takeGuard_ends pinned resident latch).imp ?_ ?_
    · intro id s' ended
      rcases ended with ⟨coherent, content, took⟩
      exact ⟨coherent, content.trans kept.content, took.of_kept kept⟩
    · rintro failure s' ⟨rfl, blocked⟩
      exact .inl (.blocked (by rw [Blocked, ← kept.guards]; exact blocked))
  · rintro failure s' (⟨rfl, crowded⟩ | refused)
    · exact .inl (.crowded crowded)
    · exact .inr refused

theorem create_ends (h : s.Coherent .nothing) (page : PageId) :
    Ends (create page) s
      (fun id s' => s'.Coherent .nothing ∧
        s'.content = Function.update s.content page Page.zeroed ∧
        s.Took .exclusive page id s' ∧ ∀ guard ∈ s.pool.guards, guard.page ≠ page)
      (fun failure s' => s.Refused failure s') := by
  simp only [create, Ends.bind_iff, pool_iff]
  split
  · exact ⟨⟨_, rfl, trivial⟩, h, .refl s⟩
  · rename_i absent
    have unguarded (guard : Guard) (mem : guard ∈ s.pool.guards) : guard.page ≠ page := by
      rintro rfl
      have := (h.pool.bound _ _).mpr (h.pool.guard_page guard mem)
      rw [Std.TreeMap.getElem?_eq_none absent] at this
      cases this
    simp only [Ends.bind_iff]
    refine (acquireFrame_ends h).imp ?_ fun _ _ refused => refused
    intro frame t ended
    rcases ended with ⟨emptied, kept, still⟩
    simp only [mapPool_iff]
    obtain ⟨bound, content⟩ :=
      bind_coherent emptied (still page absent) none true (by simp)
    obtain ⟨counted, kept'⟩ :=
      tally_coherent bound fun c => { c with pagesCreated := c.pagesCreated + 1 }
    have resident : (Pool.bind frame page none true t.pool).table[page]? = some frame :=
      Std.TreeMap.getElem?_insert_self
    have size : (Pool.bind frame page none true t.pool).size = s.pool.size :=
      (size_mapFrame _ _ _).trans kept.size
    refine (takeGuard_ends counted resident .exclusive).imp ?_ ?_
    · intro id s' ended
      rcases ended with ⟨coherent, same, took⟩
      refine ⟨coherent, ?_, ⟨?_, ?_, ?_, took.size.trans size⟩, unguarded⟩
      · rw [same, kept'.content, content, kept.content]; rfl
      · rw [took.fresh, ← kept.nextGuard]; rfl
      · obtain ⟨frame, guards⟩ := took.guards
        exact ⟨frame, by rw [guards, ← kept.guards]; rfl⟩
      · rw [took.nextGuard, ← kept.nextGuard]; rfl
    · intro failure s' ended
      rcases ended with ⟨-, guard, mem, here, -⟩
      have mem : guard ∈ s.pool.guards := by rw [← kept.guards]; exact mem
      exact absurd here (unguarded guard mem)

theorem heldGuard_ends (id : GuardId) (s : Storage) :
    Ends (heldGuard id) s
      (fun guard s' => s' = s ∧ guard ∈ s.pool.guards ∧ guard.id = id)
      (fun failure s' => s' = s ∧ failure = .violation .staleGuard ∧
        ∀ guard ∈ s.pool.guards, guard.id ≠ id) := by
  simp only [heldGuard, Ends.bind_iff, pool_iff]
  cases found : s.pool.guard? id with
  | none =>
    refine ⟨rfl, rfl, fun guard mem => ?_⟩
    simpa using List.find?_eq_none.mp found guard mem
  | some guard =>
    exact ⟨rfl, List.mem_of_find?_eq_some found, by simpa using List.find?_some found⟩

theorem content_of_guard (h : s.Coherent .nothing) {guard : Guard} (mem : guard ∈ s.pool.guards) :
    s.content guard.page = (s.pool.frame guard.frame).bytes :=
  content_of_resident ((h.pool.bound _ _).mpr (h.pool.guard_page guard mem))

theorem bytes_ends (h : s.Coherent .nothing) (id : GuardId) :
    Ends (bytes id) s
      (fun bytes s' => s' = s ∧ ∃ guard ∈ s.pool.guards, guard.id = id ∧
        bytes = s.content guard.page)
      (fun failure s' => s' = s ∧ failure = .violation .staleGuard ∧
        ∀ guard ∈ s.pool.guards, guard.id ≠ id) := by
  simp only [bytes, Ends.bind_iff]
  refine (heldGuard_ends id s).imp ?_ fun _ _ h => h
  intro guard _ ended
  rcases ended with ⟨rfl, mem, here⟩
  exact ⟨rfl, guard, mem, here, (content_of_guard h mem).symm⟩

def marked (id : GuardId) (guard : Guard) : Guard :=
  if guard.id = id then { guard with dirty := true } else guard

@[simp] theorem marked_id (id : GuardId) (guard : Guard) : (marked id guard).id = guard.id := by
  unfold marked; split <;> rfl

@[simp] theorem marked_frame (id : GuardId) (guard : Guard) :
    (marked id guard).frame = guard.frame := by
  unfold marked; split <;> rfl

@[simp] theorem marked_page (id : GuardId) (guard : Guard) :
    (marked id guard).page = guard.page := by
  unfold marked; split <;> rfl

@[simp] theorem marked_latch (id : GuardId) (guard : Guard) :
    (marked id guard).latch = guard.latch := by
  unfold marked; split <;> rfl

theorem Invariant.mark {hand : InHand} {pool : Pool} (h : pool.Invariant hand) (id : GuardId) :
    { pool with guards := pool.guards.map (marked id) }.Invariant hand := by
  refine { h with
      pins := ?pins, guard_page := ?guard_page, guard_ids := ?guard_ids,
      guard_numbers := ?guard_numbers, exclusive := ?exclusive }
  case pins =>
    intro frame
    have same : (fun guard : Guard => decide (guard.frame = frame)) ∘ marked id =
        fun guard => decide (guard.frame = frame) := by
      funext guard; simp
    change ((pool.frame frame).pins : Nat) = (pool.guards.map (marked id)).countP _ + _
    rw [List.countP_map, same]
    exact h.pins frame
  case guard_page =>
    intro _ mem
    obtain ⟨guard, listed, rfl⟩ := List.mem_map.mp mem
    rw [marked_frame, marked_page]
    exact h.guard_page guard listed
  case guard_ids =>
    have same : Guard.id ∘ marked id = Guard.id := by
      funext guard; simp
    change ((pool.guards.map (marked id)).map Guard.id).Nodup
    rw [List.map_map, same]
    exact h.guard_ids
  case guard_numbers =>
    intro _ mem
    obtain ⟨guard, listed, rfl⟩ := List.mem_map.mp mem
    rw [marked_id]
    exact h.guard_numbers guard listed
  case exclusive =>
    intro _ mem exclusive _ mem' here
    obtain ⟨guard, listed, rfl⟩ := List.mem_map.mp mem
    obtain ⟨other, listed', rfl⟩ := List.mem_map.mp mem'
    simp only [marked_latch, marked_frame] at exclusive here
    rw [h.exclusive guard listed exclusive other listed' here]

theorem write_ends (h : s.Coherent .nothing) (id : GuardId) (bytes : Page) :
    Ends (write id bytes) s
      (fun _ s' => s'.Coherent .nothing ∧
        (∃ guard ∈ s.pool.guards, guard.id = id ∧
          s'.content = Function.update s.content guard.page bytes) ∧
        s'.pool.guards = s.pool.guards.map (marked id) ∧
        s'.pool.nextGuard = s.pool.nextGuard ∧ s'.pool.size = s.pool.size)
      (fun failure s' => s' = s ∧ failure = .violation .staleGuard ∧
        ∀ guard ∈ s.pool.guards, guard.id ≠ id) := by
  simp only [write, Ends.bind_iff, mapPool_iff]
  refine (heldGuard_ends id s).imp ?_ fun _ _ h => h
  intro guard t ended
  rcases ended with ⟨rfl, mem, here⟩
  have bound := h.pool.guard_page guard mem
  have resident := (h.pool.bound _ _).mpr bound
  have inside : guard.frame.index < t.pool.size := Invariant.bound_in_range (by simp [bound])
  have invariant := h.pool.mapFrame_of_same guard.frame (fun frame => { frame with bytes }) rfl rfl
    (by simp [bound])
  have frames (other : FrameId) :
      (mapFrame guard.frame (fun frame => { frame with bytes }) t.pool).frame other =
        if other = guard.frame then { t.pool.frame guard.frame with bytes }
        else t.pool.frame other := frame_mapFrame_inside t.pool other _ inside
  refine ⟨⟨invariant.mark id, ?_⟩, ⟨guard, mem, here, ?_⟩, rfl, rfl, size_mapFrame _ _ _⟩
  · intro page other at_page clean guards
    have apart : other ≠ guard.frame := by
      intro same
      have := guards (marked id guard) (List.mem_map_of_mem mem) (by simp [same])
      simp [marked, here] at this
    have frame := frames other
    rw [if_neg apart] at frame
    refine (congrArg Frame.bytes frame).trans (h.synced page other at_page ?_ ?_)
    · rw [← clean]; exact (congrArg Frame.dirty frame).symm
    · intro guard' mem' on
      have := guards (marked id guard') (List.mem_map_of_mem mem') (by simp [on])
      unfold marked at this
      split at this
      · cases this
      · exact this
  · funext page
    by_cases same : page = guard.page
    · subst same
      rw [Function.update_self]
      refine Eq.trans (content_of_resident resident) ?_
      exact congrArg Frame.bytes ((frames guard.frame).trans (if_pos rfl))
    · rw [Function.update_of_ne same]
      refine content_eq_of_frame rfl rfl fun other at_page => ?_
      have apart : other ≠ guard.frame := by
        rintro rfl
        have := (h.pool.bound page _).mp at_page
        rw [bound] at this
        exact same (Option.some.inj this).symm
      exact congrArg Frame.bytes ((frames other).trans (if_neg apart))

/-- The effect of giving back a pin: the frame takes the mark of the guard. -/
structure Unpinned (frame : FrameId) (dirty : Bool) (s s' : Storage) : Prop where
  invariant : s'.pool.Invariant .nothing
  disk : s'.disk = s.disk
  table : s'.pool.table = s.pool.table
  guards : s'.pool.guards = s.pool.guards
  nextGuard : s'.pool.nextGuard = s.pool.nextGuard
  size : s'.pool.size = s.pool.size
  frames : ∀ other, s'.pool.frame other = if other = frame then
    { s.pool.frame frame with
      pins := (s.pool.frame frame).pins - 1
      dirty := (s.pool.frame frame).dirty || dirty }
    else s.pool.frame other

theorem unpin_clean_ends {frame : FrameId} (h : s.pool.Invariant (.pinned frame))
    (bound : (s.pool.frame frame).page ≠ none) :
    Ends (unpin frame false) s (fun _ s' => Unpinned frame false s s') (fun _ _ => False) := by
  have inside := Invariant.bound_in_range bound
  have pinned := h.pinned_in_hand
  have given : (s.pool.frame frame).unpin =
      .ok { s.pool.frame frame with pins := (s.pool.frame frame).pins - 1 } := by
    rw [Frame.unpin, if_neg pinned]
  have frames (other : FrameId) : (mapFrame frame (fun _ => { s.pool.frame frame with
      pins := (s.pool.frame frame).pins - 1 }) s.pool).frame other = if other = frame then
        { s.pool.frame frame with
          pins := (s.pool.frame frame).pins - 1
          dirty := (s.pool.frame frame).dirty || false }
        else s.pool.frame other := by
    rw [frame_mapFrame_inside _ _ _ inside, Bool.or_false]
  have size := size_mapFrame s.pool frame (fun _ => { s.pool.frame frame with
      pins := (s.pool.frame frame).pins - 1 })
  change Ends (pool >>= _) s _ _
  simp only [Ends.bind_iff, pool_iff, given, mapPool_iff]
  split
  · rename_i last
    exact ⟨h.unpin bound _ frames size rfl rfl (by rw [if_pos last]; rfl) rfl rfl, rfl, rfl, rfl,
      rfl, size, frames⟩
  · rename_i more
    exact ⟨h.unpin bound _ frames size rfl rfl (by rw [if_neg more]; rfl) rfl rfl, rfl, rfl, rfl,
      rfl, size, frames⟩

theorem unpin_ends {frame : FrameId} (h : s.pool.Invariant (.pinned frame))
    (bound : (s.pool.frame frame).page ≠ none) (dirty : Bool) :
    Ends (unpin frame dirty) s (fun _ s' => Unpinned frame dirty s s') (fun _ _ => False) := by
  cases dirty with
  | false => exact unpin_clean_ends h bound
  | true =>
    have frames (other : FrameId) := frame_mapFrame_inside s.pool other Frame.markDirty
      (Invariant.bound_in_range bound)
    let t : Storage := ⟨s.disk, mapFrame frame Frame.markDirty s.pool⟩
    have marked : t.pool.Invariant (.pinned frame) := h.mapFrame_of_same frame _ rfl rfl bound
    have here : t.pool.frame frame = (s.pool.frame frame).markDirty := by
      rw [frames, if_pos rfl]
    refine (unpin_clean_ends (s := t) marked (by rw [here]; exact bound)).imp ?_ fun _ _ h => h
    intro _ s' unpinned
    refine { unpinned with size := unpinned.size.trans (size_mapFrame _ _ _), frames := ?_ }
    intro other
    rw [unpinned.frames, here]
    by_cases same : other = frame
    · rw [if_pos same, if_pos same]; simp [Frame.markDirty]
    · rw [if_neg same, if_neg same, frames, if_neg same]

theorem release_ends (h : s.Coherent .nothing) (id : GuardId) :
    Ends (release id) s
      (fun _ s' => s'.Coherent .nothing ∧ s'.content = s.content ∧
        (∃ guard ∈ s.pool.guards, guard.id = id) ∧
        s'.pool.guards = s.pool.guards.filter (·.id ≠ id) ∧
        s'.pool.nextGuard = s.pool.nextGuard ∧ s'.pool.size = s.pool.size ∧
        s'.pool.table = s.pool.table)
      (fun failure s' => s' = s ∧ failure = .violation .staleGuard ∧
        ∀ guard ∈ s.pool.guards, guard.id ≠ id) := by
  simp only [release, Ends.bind_iff, mapPool_iff]
  refine (heldGuard_ends id s).imp ?_ fun _ _ h => h
  intro guard t ended
  rcases ended with ⟨rfl, mem, rfl⟩
  have bound := h.pool.guard_page guard mem
  have dropped := h.pool.drop_guard mem
  have frame_bound : (t.pool.frame guard.frame).page ≠ none := by simp [bound]
  refine (unpin_ends (s := ⟨t.disk, _⟩) dropped frame_bound guard.dirty).imp ?_
    fun _ _ h => h.elim
  intro _ s' ended
  rcases ended with ⟨invariant, disk, table, guards, next, size, frames⟩
  have bytes (other : FrameId) : (s'.pool.frame other).bytes = (t.pool.frame other).bytes := by
    rw [frames]; split
    · rename_i here; rw [here]; rfl
    · rfl
  refine ⟨⟨invariant, ?_⟩, ?_, ⟨guard, mem, rfl⟩, guards, next, size, table⟩
  · intro page other at_page clean unwritten
    rw [table] at at_page
    rw [frames] at clean
    rw [guards] at unwritten
    rw [bytes, disk]
    by_cases here : other = guard.frame
    · subst here
      simp only [if_true, Bool.or_eq_false_iff] at clean
      refine h.synced page guard.frame at_page clean.1 fun other mem' on => ?_
      by_cases same : other.id = guard.id
      · have : other = guard := List.inj_on_of_nodup_map h.pool.guard_ids mem' mem same
        rw [this]; exact clean.2
      · exact unwritten other (List.mem_filter.mpr ⟨mem', by simpa using same⟩) on
    · rw [if_neg here] at clean
      refine h.synced page other at_page clean fun other' mem' on => ?_
      refine unwritten other' (List.mem_filter.mpr ⟨mem', ?_⟩) on
      have apart : other'.id ≠ guard.id := fun same => here (on ▸ congrArg Guard.frame
        (List.inj_on_of_nodup_map h.pool.guard_ids mem' mem same))
      simpa using apart
  · funext page
    simp only [Storage.content, table, disk]
    cases t.pool.table[page]? with
    | none => rfl
    | some other => exact bytes other

theorem delete_ends (h : s.Coherent .nothing) (page : PageId) :
    Ends (delete page) s
      (fun _ s' => s'.Coherent .nothing ∧
        (∀ other, other ≠ page → s'.content other = s.content other) ∧
        s'.pool.guards = s.pool.guards ∧ s'.pool.nextGuard = s.pool.nextGuard ∧
        s'.pool.size = s.pool.size)
      (fun failure s' => s.Refused failure s') := by
  simp only [delete, Ends.bind_iff, pool_iff]
  cases resident : s.pool.table[page]? with
  | none => exact ⟨h, fun _ _ => rfl, rfl, rfl, rfl⟩
  | some id =>
    have bound := (h.pool.bound page id).mp resident
    have inside : id.index < s.pool.size := Invariant.bound_in_range (by simp [bound])
    simp only [Ends.bind_iff, pool_iff]
    split
    · exact ⟨⟨_, rfl, trivial⟩, h, .refl s⟩
    · rename_i idle
      have idle : (s.pool.frame id).pins = 0 := by simpa [Frame.isPinned] using idle
      let t : Storage := ⟨s.disk, { mapFrame id Frame.clear s.pool with
        table := s.pool.table.erase page
        recency := s.pool.recency.remove id }⟩
      have frames (other : FrameId) : t.pool.frame other =
          if other = id then (s.pool.frame id).clear else s.pool.frame other :=
        frame_mapFrame_inside s.pool other _ inside
      have others (other : FrameId) (apart : other ≠ id) :
          t.pool.frame other = s.pool.frame other := by
        rw [frames, if_neg apart]
      have emptied := h.pool.forget bound idle others
        (by rw [frames, if_pos rfl]; exact ⟨rfl, rfl, rfl⟩)
        (size_mapFrame _ _ _) rfl rfl rfl rfl rfl
      obtain ⟨coherent, content⟩ := forget_coherent h bound (show t.disk = s.disk from rfl) emptied
        others rfl rfl
      refine ⟨⟨coherent.pool.give_back, coherent.synced⟩, ?_, rfl, rfl, size_mapFrame _ _ _⟩
      intro other apart
      apply Eq.trans (b := t.content other) rfl
      rw [content, Function.update_of_ne apart]

theorem flush_ends (h : s.Coherent .nothing) (page : PageId) :
    Ends (flush page) s (fun _ s' => s'.Coherent .nothing ∧ s.Kept s')
      (fun failure s' => failure = .violation .latchHeld ∧ s.pool.Blocked .shared page ∨
        s.Refused failure s') := by
  simp only [flush, Ends.bind_iff, pool_iff]
  cases resident : s.pool.table[page]? with
  | none => exact ⟨h, .refl s⟩
  | some id =>
    refine ((writeBack_ends id page s).and (writeBack_coherent id page h)).imp
      (fun _ _ h => h.2) ?_
    rintro failure s' ⟨latched, refused⟩
    rcases refused with held | refused
    · rcases latched with ⟨-, latched⟩ | ⟨⟨cause, rfl⟩, -⟩
      · exact .inl ⟨held, h.pool.blocked_of_latched resident (.inl latched)⟩
      · cases held
    · exact .inr refused

/-- Flushing waits for a frame's exclusive latch and for nothing else. -/
theorem flushInOrder_ends (h : s.Coherent .nothing) (residents : List (PageId × FrameId)) :
    Ends (flushInOrder residents) s (fun _ s' => s'.Coherent .nothing ∧ s.Kept s')
      (fun failure s' => failure = .violation .latchHeld ∧
        (∃ resident ∈ residents, s.pool.writeLatched resident.2 = true) ∨
        s.Refused failure s') := by
  rw [flushInOrder, Ends.bind_iff]
  refine (Ends.forM_keeps (fun t => t.Coherent .nothing ∧ s.Kept t) ⟨h, .refl s⟩ ?_).imp
    ?_ fun _ _ h => h
  · rintro ⟨page, id⟩ mem t ⟨coherent, kept⟩
    refine ((writeBack_ends id page t).and (writeBack_coherent id page coherent)).imp ?_ ?_
    · intro _ s' ended
      rcases ended with ⟨-, coherent', kept'⟩
      exact ⟨coherent', kept.trans kept'⟩
    · intro failure s' ended
      rcases ended with ⟨latched, refused⟩
      rcases refused with held | refused
      · rcases latched with ⟨-, latched⟩ | ⟨⟨cause, rfl⟩, -⟩
        · refine .inl ⟨held, ⟨page, id⟩, mem, ?_⟩
          rw [writeLatched, ← kept.guards]; exact latched
        · cases held
      · exact .inr (.of_kept kept refused)
  · intro _ t ended
    rcases ended with ⟨coherent, kept⟩
    refine onDisk_ends ((Disk.sync_ends t.disk).imp ?_ ?_)
    · intro _ disk files
      exact ⟨coherent_congr coherent rfl files, kept.trans (kept_congr rfl files)⟩
    · intro _ disk ended
      rcases ended with ⟨files, cause, rfl⟩
      exact .inr ⟨⟨_, rfl, trivial⟩, coherent_congr coherent rfl files,
        kept.trans (kept_congr rfl files)⟩

end Pool

end PagedIndex
