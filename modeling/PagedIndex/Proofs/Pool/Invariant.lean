import Mathlib.Data.List.Nodup
import PagedIndex.Pool.Residency
import PagedIndex.Proofs.Pool.RecencyOrder

/-!
# The representation invariant of a pool

Table, frames, free list, recency record and guards agree. While an operation is under way it may
have one frame in hand: emptied and not yet bound again, or pinned without a guard. Each change
that operations make to a pool keeps the invariant, up to what is in hand.
-/

namespace PagedIndex.Pool

/-- The frame that an operation under way has in hand. -/
inductive InHand where
  | nothing
  | emptied (frame : FrameId)
  | pinned (frame : FrameId)
  deriving DecidableEq

structure Invariant (hand : InHand) (pool : Pool) : Prop where
  recency : pool.recency.Invariant
  bound : ∀ (page : PageId) (id : FrameId),
    pool.table[page]? = some id ↔ (pool.frame id).page = some page
  free_nodup : pool.free.Nodup
  free_iff : ∀ id, id ∈ pool.free ↔
    id.index < pool.size ∧ (pool.frame id).page = none ∧ hand ≠ .emptied id
  in_range : ∀ id, hand = .emptied id → id.index < pool.size ∧ (pool.frame id).page = none
  unbound_idle : ∀ id, (pool.frame id).page = none →
    (pool.frame id).pins = 0 ∧ (pool.frame id).dirty = false
  tracked : ∀ id, id ∈ pool.recency.stamps ↔ (pool.frame id).page ≠ none
  evictable : ∀ id, id ∈ pool.recency.evictable ↔
    (pool.frame id).page ≠ none ∧ (pool.frame id).pins = 0
  pins : ∀ id, ((pool.frame id).pins : Nat) =
    pool.guards.countP (·.frame = id) + if hand = .pinned id then 1 else 0
  guard_page : ∀ guard ∈ pool.guards, (pool.frame guard.frame).page = some guard.page
  guard_ids : (pool.guards.map (·.id)).Nodup
  guard_numbers : ∀ guard ∈ pool.guards, guard.id.index < pool.nextGuard
  exclusive : ∀ guard ∈ pool.guards, guard.latch = .exclusive →
    ∀ other ∈ pool.guards, other.frame = guard.frame → other = guard

section Frames

variable (pool : Pool) (id other : FrameId) (f : Frame → Frame)

@[simp] theorem size_mapFrame : (mapFrame id f pool).size = pool.size := by
  simp [size, mapFrame]

theorem frame_mapFrame : (mapFrame id f pool).frame other =
    if id = other ∧ id.index < pool.size then f (pool.frame other) else pool.frame other := by
  have index : id = other ↔ id.index = other.index := by
    cases id; cases other; simp
  unfold mapFrame frame size
  simp only [Array.getD_eq_getD_getElem?, Array.getElem?_modify, index]
  by_cases same : id.index = other.index
  · by_cases inside : other.index < pool.frames.size
    · simp [same, inside]
    · simp [same, inside]
  · simp [same]

theorem frame_mapFrame_inside {id : FrameId} (inside : id.index < pool.size) :
    (mapFrame id f pool).frame other =
      if other = id then f (pool.frame id) else pool.frame other := by
  rw [frame_mapFrame]
  by_cases here : other = id
  · subst here; simp [inside]
  · simp [here, Ne.symm here]

theorem frame_out_of_range (h : ¬ id.index < pool.size) : pool.frame id = .free := by
  unfold frame
  rw [Array.getD_eq_getD_getElem?, Array.getElem?_eq_none (by simpa [size] using h)]
  rfl

end Frames

namespace Invariant

variable {hand : InHand} {pool : Pool}

theorem bound_in_range {id : FrameId}
    (bound : (pool.frame id).page ≠ none) : id.index < pool.size := by
  by_cases inside : id.index < pool.size
  · exact inside
  · rw [frame_out_of_range pool id inside] at bound
    exact absurd rfl bound

/-- A frame that gains or loses neither its page nor a pin may change its bytes or be marked. -/
theorem mapFrame_of_same (h : pool.Invariant hand) (id : FrameId) (f : Frame → Frame)
    (page : (f (pool.frame id)).page = (pool.frame id).page)
    (pins : (f (pool.frame id)).pins = (pool.frame id).pins)
    (bound : (pool.frame id).page ≠ none) : (mapFrame id f pool).Invariant hand := by
  have same_page (other : FrameId) :
      ((mapFrame id f pool).frame other).page = (pool.frame other).page := by
    rw [frame_mapFrame]; split
    · rename_i here; rw [← here.1]; exact page
    · rfl
  have same_pins (other : FrameId) :
      ((mapFrame id f pool).frame other).pins = (pool.frame other).pins := by
    rw [frame_mapFrame]; split
    · rename_i here; rw [← here.1]; exact pins
    · rfl
  refine { h with
      bound := ?bound, free_iff := ?free_iff, in_range := ?in_range, unbound_idle := ?unbound_idle,
      tracked := ?tracked, evictable := ?evictable, pins := ?pins, guard_page := ?guard_page }
  case bound => intro other at_id; rw [same_page]; exact h.bound other at_id
  case free_iff => intro other; rw [same_page, size_mapFrame]; exact h.free_iff other
  case in_range => intro other; rw [same_page, size_mapFrame]; exact h.in_range other
  case unbound_idle =>
    intro other unbound
    rw [same_page] at unbound
    have apart : id ≠ other := fun e => bound (e ▸ unbound)
    rw [frame_mapFrame, if_neg (fun here => apart here.1)]
    exact h.unbound_idle other unbound
  case tracked => intro other; rw [same_page]; exact h.tracked other
  case evictable => intro other; rw [same_page, same_pins]; exact h.evictable other
  case pins => intro other; rw [same_pins]; exact h.pins other
  case guard_page => intro guard mem; rw [same_page]; exact h.guard_page guard mem

theorem tally (h : pool.Invariant hand) (f : Counters → Counters) :
    (Pool.tally f pool).Invariant hand := { h with }

theorem take_free (h : pool.Invariant .nothing) {id : FrameId} {rest : List FrameId}
    (free : pool.free = id :: rest) : { pool with free := rest }.Invariant (.emptied id) := by
  have nodup := h.free_nodup
  rw [free, List.nodup_cons] at nodup
  have mem (other : FrameId) := h.free_iff other
  refine { h with
      free_nodup := nodup.2, free_iff := ?free_iff, in_range := ?in_range, pins := ?pins }
  case free_iff =>
    intro other
    have := mem other
    simp only [free, List.mem_cons, ne_eq, reduceCtorEq, not_false_eq_true, and_true] at this
    constructor
    · intro listed
      refine ⟨(this.mp (.inr listed)).1, (this.mp (.inr listed)).2, ?_⟩
      rintro ⟨⟩
      exact nodup.1 listed
    · intro given
      rcases given with ⟨inside, unbound, apart⟩
      rcases this.mpr ⟨inside, unbound⟩ with rfl | listed
      · exact absurd rfl apart
      · exact listed
  case in_range =>
    rintro other ⟨⟩
    have := (mem id).mp (by simp [free])
    exact ⟨this.1, this.2.1⟩
  case pins =>
    intro other
    change ((pool.frame other).pins : Nat) = _
    simpa using h.pins other

theorem give_back {id : FrameId} (h : pool.Invariant (.emptied id)) :
    { pool with free := id :: pool.free }.Invariant .nothing := by
  have own := h.in_range id rfl
  refine { h with
      free_nodup := ?free_nodup, free_iff := ?free_iff, in_range := ?in_range, pins := ?pins }
  case free_nodup =>
    refine List.nodup_cons.mpr ⟨fun listed => ?_, h.free_nodup⟩
    exact ((h.free_iff id).mp listed).2.2 rfl
  case free_iff =>
    intro other
    have := h.free_iff other
    constructor
    · intro listed
      rcases List.mem_cons.mp listed with rfl | listed
      · exact ⟨own.1, own.2, by simp⟩
      · exact ⟨(this.mp listed).1, (this.mp listed).2.1, by simp⟩
    · intro given
      rcases given with ⟨inside, unbound, -⟩
      by_cases same : other = id
      · simp [same]
      · refine List.mem_cons_of_mem _ (this.mpr ⟨inside, unbound, ?_⟩)
        rintro ⟨⟩; exact same rfl
  case in_range => intro other e; cases e
  case pins =>
    intro other
    change ((pool.frame other).pins : Nat) = _
    simpa using h.pins other

theorem unguarded {id : FrameId} (h : pool.Invariant hand) (idle : (pool.frame id).pins = 0)
    {guard : Guard} (mem : guard ∈ pool.guards) : guard.frame ≠ id := by
  have none := h.pins id
  rw [Frame.pins_eq_zero_iff.mp idle] at none
  have count : pool.guards.countP (·.frame = id) = 0 := by omega
  have := List.countP_eq_zero.mp count guard mem
  simpa using this

theorem forget {pool' : Pool} {id : FrameId} {page : PageId} (h : pool.Invariant .nothing)
    (bound : (pool.frame id).page = some page) (idle : (pool.frame id).pins = 0)
    (others : ∀ other, other ≠ id → pool'.frame other = pool.frame other)
    (cleared : (pool'.frame id).page = none ∧ (pool'.frame id).pins = 0 ∧
      (pool'.frame id).dirty = false)
    (size : pool'.size = pool.size) (free : pool'.free = pool.free)
    (table : pool'.table = pool.table.erase page)
    (recency : pool'.recency = pool.recency.remove id) (guards : pool'.guards = pool.guards)
    (next : pool'.nextGuard = pool.nextGuard) : pool'.Invariant (.emptied id) := by
  have at_page := (h.bound page id).mpr bound
  have inside : id.index < pool.size := bound_in_range (by simp [bound])
  constructor
  case recency => rw [recency]; exact Recency.remove_preserves_invariant h.recency id
  case bound =>
    intro other_page other
    rw [table, Std.TreeMap.getElem?_erase]
    by_cases same : page = other_page
    · subst same
      rw [if_pos Std.ReflCmp.compare_self]
      by_cases here : other = id
      · subst here; simp [cleared.1]
      · rw [others other here, ← h.bound page other, at_page]
        simp [Ne.symm here]
    · rw [if_neg (fun e => same (Std.LawfulEqCmp.compare_eq_iff_eq.mp e)), h.bound]
      by_cases here : other = id
      · subst here; simp [cleared.1, bound, same]
      · rw [others other here]
  case free_nodup => rw [free]; exact h.free_nodup
  case free_iff =>
    intro other
    rw [free, size, h.free_iff]
    by_cases here : other = id
    · subst here; simp [bound]
    · rw [others other here]; simp [Ne.symm here]
  case in_range =>
    rintro other ⟨⟩
    exact ⟨size ▸ inside, cleared.1⟩
  case unbound_idle =>
    intro other unbound
    by_cases here : other = id
    · subst here; exact cleared.2
    · rw [others other here] at unbound ⊢
      exact h.unbound_idle other unbound
  case tracked =>
    intro other
    rw [recency, Recency.mem_stamps_remove, h.tracked]
    by_cases here : other = id
    · subst here; simp [cleared.1]
    · rw [others other here]; simp [Ne.symm here]
  case evictable =>
    intro other
    rw [recency, Recency.mem_evictable_remove, h.evictable]
    by_cases here : other = id
    · subst here; simp [cleared.1]
    · rw [others other here]; simp [Ne.symm here]
  case pins =>
    intro other
    rw [guards]
    have := h.pins other
    by_cases here : other = id
    · subst here; rw [idle] at this; simpa [cleared.2.1] using this
    · rw [others other here]; simpa using this
  case guard_page =>
    intro guard mem
    rw [guards] at mem
    rw [others _ (h.unguarded idle mem)]
    exact h.guard_page guard mem
  case guard_ids => rw [guards]; exact h.guard_ids
  case guard_numbers => rw [guards, next]; exact h.guard_numbers
  case exclusive => rw [guards]; exact h.exclusive

theorem frame_bind {id : FrameId} (inside : id.index < pool.size) (page : PageId)
    (bytes : Option Page) (dirty : Bool) (other : FrameId) :
    (Pool.bind id page bytes dirty pool).frame other =
      if other = id then ⟨bytes.getD Page.zeroed, some page, 1, dirty⟩ else pool.frame other :=
  frame_mapFrame_inside pool other _ inside

theorem bind {id : FrameId} {page : PageId} (h : pool.Invariant (.emptied id))
    (absent : page ∉ pool.table) (bytes : Option Page) (dirty : Bool) :
    (Pool.bind id page bytes dirty pool).Invariant (.pinned id) := by
  obtain ⟨inside, unbound⟩ := h.in_range id rfl
  have frames := frame_bind inside page bytes dirty
  have table : (Pool.bind id page bytes dirty pool).table = pool.table.insert page id := rfl
  have recency : (Pool.bind id page bytes dirty pool).recency =
    (pool.recency.access id).setEvictable id false := rfl
  have free : (Pool.bind id page bytes dirty pool).free = pool.free := rfl
  have guards : (Pool.bind id page bytes dirty pool).guards = pool.guards := rfl
  have size : (Pool.bind id page bytes dirty pool).size = pool.size :=
    size_mapFrame pool id _
  have nowhere (other : FrameId) : (pool.frame other).page ≠ some page := by
    intro there
    have := (h.bound page other).mpr there
    rw [Std.TreeMap.getElem?_eq_none absent] at this
    cases this
  have unpinned := h.unbound_idle id unbound
  constructor
  case recency =>
    rw [recency]
    exact Recency.setEvictable_preserves_invariant
      (Recency.access_preserves_invariant h.recency id) id false
  case bound =>
    intro other_page other
    rw [table, frames, Std.TreeMap.getElem?_insert]
    by_cases same : page = other_page
    · subst same
      rw [if_pos Std.ReflCmp.compare_self]
      by_cases here : other = id
      · subst here; simp
      · simp [here, Ne.symm here, nowhere other]
    · rw [if_neg (fun e => same (Std.LawfulEqCmp.compare_eq_iff_eq.mp e)), h.bound]
      by_cases here : other = id
      · subst here; simp [unbound, same]
      · rw [if_neg here]
  case free_nodup => exact h.free_nodup
  case free_iff =>
    intro other
    rw [free, frames, size, h.free_iff]
    by_cases here : other = id
    · subst here; simp
    · simp [here, Ne.symm here]
  case in_range => intro other e; cases e
  case unbound_idle =>
    intro other
    rw [frames]
    by_cases here : other = id
    · simp [here]
    · rw [if_neg here]; exact h.unbound_idle other
  case tracked =>
    intro other
    rw [frames, recency, Recency.stamps_setEvictable, Recency.mem_stamps_access, h.tracked]
    by_cases here : other = id
    · simp [here]
    · simp [here, Ne.symm here]
  case evictable =>
    intro other
    rw [frames, recency, Recency.mem_evictable_setEvictable (by simp), Recency.evictable_access,
      h.evictable]
    by_cases here : other = id
    · simp [here]
    · simp [here, Ne.symm here]
  case pins =>
    intro other
    rw [frames, guards]
    have := h.pins other
    by_cases here : other = id
    · subst here; simpa [unpinned.1, eq_comm] using this
    · simpa [here, Ne.symm here] using this
  case guard_page =>
    intro guard mem
    rw [frames, if_neg (h.unguarded unpinned.1 mem)]
    exact h.guard_page guard mem
  case guard_ids => exact h.guard_ids
  case guard_numbers => exact h.guard_numbers
  case exclusive => exact h.exclusive

theorem pin {id : FrameId} (h : pool.Invariant .nothing) (bound : (pool.frame id).page ≠ none)
    (roomy : ¬ (pool.frame id).isCrowded) :
    (trackPinned id (mapFrame id Frame.pin pool)).Invariant (.pinned id) := by
  have inside := bound_in_range bound
  have frames (other : FrameId) : (trackPinned id (mapFrame id Frame.pin pool)).frame other =
      if other = id then (pool.frame id).pin else pool.frame other :=
    frame_mapFrame_inside pool other _ inside
  have page (other : FrameId) :
      ((trackPinned id (mapFrame id Frame.pin pool)).frame other).page =
        (pool.frame other).page := by
    rw [frames]; split
    · rename_i here; rw [here]; rfl
    · rfl
  have recency : (trackPinned id (mapFrame id Frame.pin pool)).recency =
    (pool.recency.access id).setEvictable id false := rfl
  have size : (trackPinned id (mapFrame id Frame.pin pool)).size = pool.size :=
    size_mapFrame pool id _
  constructor
  case recency =>
    rw [recency]
    exact Recency.setEvictable_preserves_invariant
      (Recency.access_preserves_invariant h.recency id) id false
  case bound => intro other_page other; rw [page]; exact h.bound other_page other
  case free_nodup => exact h.free_nodup
  case free_iff =>
    intro other
    rw [page, size]
    change other ∈ pool.free ↔ _
    simpa using h.free_iff other
  case in_range => intro other e; cases e
  case unbound_idle =>
    intro other unbound
    rw [page] at unbound
    have here : other ≠ id := fun e => bound (e ▸ unbound)
    rw [frames, if_neg here]
    exact h.unbound_idle other unbound
  case tracked =>
    intro other
    rw [page, recency, Recency.stamps_setEvictable, Recency.mem_stamps_access, h.tracked]
    by_cases here : other = id
    · subst here; simp [bound]
    · simp [Ne.symm here]
  case evictable =>
    intro other
    rw [page, recency, Recency.mem_evictable_setEvictable (by simp), Recency.evictable_access,
      h.evictable, frames]
    by_cases here : other = id
    · subst here; simp [Frame.pins_eq_zero_iff, Frame.toNat_pin roomy]
    · simp [here, Ne.symm here]
  case pins =>
    intro other
    have := h.pins other
    rw [frames]
    change _ = pool.guards.countP _ + _
    by_cases here : other = id
    · subst here; simpa [Frame.toNat_pin roomy] using this
    · simpa [here, Ne.symm here] using this
  case guard_page => intro guard mem; rw [page]; exact h.guard_page guard mem
  case guard_ids => exact h.guard_ids
  case guard_numbers => exact h.guard_numbers
  case exclusive => exact h.exclusive

theorem reregister {id : FrameId} (h : pool.Invariant .nothing)
    (bound : (pool.frame id).page ≠ none) (idle : (pool.frame id).pins = 0) :
    { pool with recency := ((pool.recency.remove id).access id).setEvictable id true }.Invariant
      .nothing := by
  refine { h with recency := ?recency, tracked := ?tracked, evictable := ?evictable, pins := ?pins }
  case recency =>
    exact Recency.setEvictable_preserves_invariant (Recency.access_preserves_invariant
      (Recency.remove_preserves_invariant h.recency id) id) id true
  case tracked =>
    intro other
    rw [Recency.stamps_setEvictable, Recency.mem_stamps_access, Recency.mem_stamps_remove,
      h.tracked]
    by_cases here : id = other
    · subst here; simp [bound]; exact bound
    · simp [here]; rfl
  case evictable =>
    intro other
    rw [Recency.mem_evictable_setEvictable (by simp), Recency.evictable_access,
      Recency.mem_evictable_remove, h.evictable]
    by_cases here : id = other
    · subst here; simp; exact ⟨bound, idle⟩
    · simp [here]; rfl
  case pins => exact h.pins

theorem take_guard {id : FrameId} {page : PageId} {latch : Latch} (h : pool.Invariant (.pinned id))
    (bound : (pool.frame id).page = some page)
    (free : ∀ guard ∈ pool.guards, guard.frame = id → latch = .shared ∧ guard.latch = .shared) :
    { pool with
      guards := ⟨⟨pool.nextGuard⟩, id, page, latch, false⟩ :: pool.guards
      nextGuard := pool.nextGuard + 1 }.Invariant .nothing := by
  refine { h with
      free_iff := ?free_iff, in_range := ?in_range, pins := ?pins, guard_page := ?guard_page,
      guard_ids := ?guard_ids, guard_numbers := ?guard_numbers, exclusive := ?exclusive }
  case free_iff =>
    intro other
    change other ∈ pool.free ↔ other.index < pool.size ∧ (pool.frame other).page = none ∧ _
    simpa using h.free_iff other
  case in_range => intro other e; cases e
  case pins =>
    intro other
    have := h.pins other
    change ((pool.frame other).pins : Nat) = _
    by_cases here : id = other
    · subst here; simpa using this
    · simpa [here] using this
  case guard_page =>
    intro guard mem
    rcases List.mem_cons.mp mem with rfl | mem
    · exact bound
    · exact h.guard_page guard mem
  case guard_ids =>
    rw [List.map_cons, List.nodup_cons]
    refine ⟨fun mem => ?_, h.guard_ids⟩
    obtain ⟨guard, mem, same⟩ := List.mem_map.mp mem
    have := h.guard_numbers guard mem
    rw [same] at this
    exact Nat.lt_irrefl _ this
  case guard_numbers =>
    intro guard mem
    rcases List.mem_cons.mp mem with rfl | mem
    · exact Nat.lt_succ_self _
    · exact Nat.lt_succ_of_lt (h.guard_numbers guard mem)
  case exclusive =>
    intro guard mem exclusive other mem' same
    rcases List.mem_cons.mp mem with rfl | mem
    · rcases List.mem_cons.mp mem' with rfl | mem'
      · rfl
      · have shared := (free other mem' same).1
        exact absurd (exclusive.symm.trans shared) (by simp)
    · rcases List.mem_cons.mp mem' with rfl | mem'
      · have shared := (free guard mem same.symm).2
        exact absurd (exclusive.symm.trans shared) (by simp)
      · exact h.exclusive guard mem exclusive other mem' same

theorem countP_filter_id {guards : List Guard} {guard : Guard} (mem : guard ∈ guards)
    (ids : (guards.map (·.id)).Nodup) (frame : FrameId) :
    guards.countP (·.frame = frame) =
      (guards.filter (·.id ≠ guard.id)).countP (·.frame = frame) +
        if guard.frame = frame then 1 else 0 := by
  induction guards with
  | nil => cases mem
  | cons first rest ih =>
    rw [List.map_cons, List.nodup_cons] at ids
    rcases List.mem_cons.mp mem with rfl | mem
    · have keep : rest.filter (·.id ≠ guard.id) = rest := by
        rw [List.filter_eq_self]
        intro other mem'
        have : other.id ≠ guard.id := fun e => ids.1 (e ▸ List.mem_map_of_mem mem')
        simpa using this
      rw [List.filter_cons_of_neg (by simp), keep, List.countP_cons]
      simp
    · have apart : first.id ≠ guard.id := fun e => ids.1 (e ▸ List.mem_map_of_mem mem)
      rw [List.filter_cons_of_pos (by simpa using apart), List.countP_cons, List.countP_cons,
        ih mem ids.2]
      omega

theorem drop_guard {guard : Guard} (h : pool.Invariant .nothing) (mem : guard ∈ pool.guards) :
    { pool with guards := pool.guards.filter (·.id ≠ guard.id) }.Invariant
      (.pinned guard.frame) := by
  have count := countP_filter_id mem h.guard_ids
  refine { h with
      free_iff := ?free_iff, in_range := ?in_range, pins := ?pins, guard_page := ?guard_page,
      guard_ids := ?guard_ids, guard_numbers := ?guard_numbers, exclusive := ?exclusive }
  case free_iff =>
    intro other
    change other ∈ pool.free ↔ other.index < pool.size ∧ (pool.frame other).page = none ∧ _
    simpa using h.free_iff other
  case in_range => intro other e; cases e
  case pins =>
    intro other
    have := h.pins other
    rw [count other] at this
    change ((pool.frame other).pins : Nat) = _
    simpa using this
  case guard_page => intro other mem'; exact h.guard_page other (List.mem_filter.mp mem').1
  case guard_ids => exact h.guard_ids.sublist (List.filter_sublist.map _)
  case guard_numbers => intro other mem'; exact h.guard_numbers other (List.mem_filter.mp mem').1
  case exclusive =>
    intro first mem₁ exclusive second mem₂ same
    exact h.exclusive first (List.mem_filter.mp mem₁).1 exclusive second
      (List.mem_filter.mp mem₂).1 same

theorem pinned_in_hand {id : FrameId} (h : pool.Invariant (.pinned id)) :
    (pool.frame id).pins ≠ 0 := by
  have counted := h.pins id
  rw [if_pos rfl] at counted
  exact mt Frame.pins_eq_zero_iff.mp (by omega)

theorem unpin {pool' : Pool} {id : FrameId} (h : pool.Invariant (.pinned id))
    (bound : (pool.frame id).page ≠ none) (dirty : Bool)
    (frames : ∀ other, pool'.frame other = if other = id then
      { pool.frame id with pins := (pool.frame id).pins - 1, dirty } else pool.frame other)
    (size : pool'.size = pool.size) (free : pool'.free = pool.free)
    (table : pool'.table = pool.table)
    (recency : pool'.recency = if (pool.frame id).pins - 1 = 0 then
      pool.recency.setEvictable id true else pool.recency)
    (guards : pool'.guards = pool.guards) (next : pool'.nextGuard = pool.nextGuard) :
    pool'.Invariant .nothing := by
  have page (other : FrameId) : (pool'.frame other).page = (pool.frame other).page := by
    rw [frames]; split
    · rename_i here; rw [here]
    · rfl
  have pinned := h.pinned_in_hand
  have tracked : id ∈ pool.recency.stamps := (h.tracked id).mpr bound
  constructor
  case recency =>
    rw [recency]; split
    · exact Recency.setEvictable_preserves_invariant h.recency id true
    · exact h.recency
  case bound => intro other_page other; rw [page, table]; exact h.bound other_page other
  case free_nodup => rw [free]; exact h.free_nodup
  case free_iff => intro other; rw [page, size, free]; simpa using h.free_iff other
  case in_range => intro other e; cases e
  case unbound_idle =>
    intro other unbound
    rw [page] at unbound
    have here : other ≠ id := fun e => bound (e ▸ unbound)
    rw [frames, if_neg here]
    exact h.unbound_idle other unbound
  case tracked =>
    intro other
    rw [page, ← h.tracked, recency]; split
    · rw [Recency.stamps_setEvictable]
    · rfl
  case evictable =>
    intro other
    have old := h.evictable other
    rw [page, frames, recency]
    by_cases here : other = id
    · subst here
      rw [if_pos rfl]
      split
      · rename_i last; rw [Recency.mem_evictable_setEvictable tracked]; simp [last, bound]
      · rename_i more; simp [old, pinned, more]
    · rw [if_neg here]
      split
      · rw [Recency.mem_evictable_setEvictable tracked, if_neg (Ne.symm here)]; exact old
      · exact old
  case pins =>
    intro other
    have := h.pins other
    rw [frames, guards]
    by_cases here : other = id
    · subst here
      have := Frame.toNat_pins_sub_one pinned
      simp only [if_true] at *
      simp
      omega
    · simpa [here, Ne.symm here] using this
  case guard_page => intro guard mem; rw [page]; exact h.guard_page guard (guards ▸ mem)
  case guard_ids => rw [guards]; exact h.guard_ids
  case guard_numbers => rw [guards, next]; exact h.guard_numbers
  case exclusive => rw [guards]; exact h.exclusive

end Invariant

theorem new_invariant {size : Nat} {pool : Pool} (h : new size = .ok pool) :
    pool.Invariant .nothing := by
  unfold new at h
  split at h
  · cases h
  · cases h
    have frame (id : FrameId) (pool : Pool) (frames : pool.frames = Array.replicate size .free) :
        pool.frame id = .free := by
      rw [Pool.frame, frames, Array.getD_eq_getD_getElem?, Array.getElem?_replicate]
      split <;> rfl
    constructor
    case recency => exact Recency.empty_invariant
    case bound => intro page id; rw [frame _ _ rfl]; simp [Frame.free]
    case free_nodup => exact List.Nodup.map (fun _ _ e => congrArg FrameId.index e) List.nodup_range
    case free_iff =>
      intro id
      rw [frame _ _ rfl]
      obtain ⟨index⟩ := id
      simp [Pool.size, Frame.free]
    case in_range => intro id e; cases e
    case unbound_idle => intro id _; rw [frame _ _ rfl]; exact ⟨rfl, rfl⟩
    case tracked => intro id; rw [frame _ _ rfl]; simp [Recency.empty, Frame.free]
    case evictable => intro id; rw [frame _ _ rfl]; simp [Recency.empty, Frame.free]
    case pins => intro id; rw [frame _ _ rfl]; rfl
    case guard_page => intro guard mem; cases mem
    case guard_ids => exact List.nodup_nil
    case guard_numbers => intro guard mem; cases mem
    case exclusive => intro guard mem; cases mem

end PagedIndex.Pool
