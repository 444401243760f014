import PagedIndex.Pool.Recency

/-!
# The two maps of a recency record mirror each other

`Recency.Invariant` ties stamps, frames and marks together. Every operation keeps it, and under it
a victim is evictable and is missing only when no frame is evictable.
-/

namespace PagedIndex.Recency

variable {recency : Recency}

structure Invariant (recency : Recency) : Prop where
  inverse : ∀ (frame : FrameId) (stamp : Nat),
    recency.stamps[frame]? = some stamp ↔ recency.byStamp[stamp]? = some frame
  clock_bound : ∀ (frame : FrameId) (stamp : Nat),
    recency.stamps[frame]? = some stamp → stamp ≤ recency.clock
  evictable_tracked : ∀ frame, frame ∈ recency.evictable → frame ∈ recency.stamps

theorem empty_invariant : empty.Invariant := by
  constructor <;> simp [empty]

@[simp] theorem mem_stamps_access {frame other : FrameId} :
    other ∈ (recency.access frame).stamps ↔ frame = other ∨ other ∈ recency.stamps := by
  simp [access, Std.TreeMap.mem_insert]

@[simp] theorem evictable_access (frame : FrameId) :
    (recency.access frame).evictable = recency.evictable := rfl

@[simp] theorem mem_stamps_remove {frame other : FrameId} :
    other ∈ (recency.remove frame).stamps ↔ frame ≠ other ∧ other ∈ recency.stamps := by
  simp [remove, Std.TreeMap.mem_erase]

@[simp] theorem mem_evictable_remove {frame other : FrameId} :
    other ∈ (recency.remove frame).evictable ↔ frame ≠ other ∧ other ∈ recency.evictable := by
  simp [remove, Std.TreeSet.mem_erase]

@[simp] theorem stamps_setEvictable (frame : FrameId) (mark : Bool) :
    (recency.setEvictable frame mark).stamps = recency.stamps := by
  unfold setEvictable
  split <;> rfl

theorem mem_evictable_setEvictable {frame other : FrameId} {mark : Bool}
    (tracked : frame ∈ recency.stamps) :
    other ∈ (recency.setEvictable frame mark).evictable ↔
      if frame = other then mark = true else other ∈ recency.evictable := by
  rw [setEvictable, if_pos tracked]
  cases mark <;> by_cases same : frame = other <;>
    simp [same, Std.TreeSet.mem_insert, Std.TreeSet.mem_erase]

theorem getElem?_forgetStamp (frame : FrameId) (stamp : Nat) :
    (forgetStamp recency.byStamp recency.stamps[frame]?)[stamp]? =
      if recency.stamps[frame]? = some stamp then none else recency.byStamp[stamp]? := by
  cases old : recency.stamps[frame]? with
  | none => simp [forgetStamp]
  | some old => simp [forgetStamp, Std.TreeMap.getElem?_erase]

theorem access_preserves_invariant (h : recency.Invariant) (frame : FrameId) :
    (recency.access frame).Invariant := by
  have fresh (other : FrameId) : recency.stamps[other]? ≠ some (recency.clock + 1) := by
    intro e
    have := h.clock_bound _ _ e
    omega
  constructor
  · intro other stamp
    have mirror := h.inverse other stamp
    have own := h.inverse frame stamp
    simp only [access, Std.TreeMap.getElem?_insert, Std.LawfulEqCmp.compare_eq_iff_eq,
      getElem?_forgetStamp]
    by_cases new : stamp = recency.clock + 1
    · subst new
      by_cases same : frame = other
      · simp [same]
      · simp [same, fresh other]
    · by_cases same : frame = other
      · subst same
        by_cases old : recency.stamps[frame]? = some stamp
        · simp [old, Ne.symm new]
        · simp [old, Ne.symm new, ← own]
      · rw [if_neg same, if_neg (Ne.symm new), mirror]
        by_cases old : recency.stamps[frame]? = some stamp
        · rw [if_pos old]
          simp [own.mp old, same]
        · rw [if_neg old]
  · intro other stamp
    simp only [access, Std.TreeMap.getElem?_insert, Std.LawfulEqCmp.compare_eq_iff_eq]
    split
    · rintro ⟨⟩; exact Nat.le_refl _
    · intro old; exact Nat.le_succ_of_le (h.clock_bound _ _ old)
  · intro other marked
    exact mem_stamps_access.mpr (.inr (h.evictable_tracked other marked))

theorem setEvictable_preserves_invariant (h : recency.Invariant) (frame : FrameId) (mark : Bool) :
    (recency.setEvictable frame mark).Invariant := by
  by_cases tracked : frame ∈ recency.stamps
  · refine ⟨?_, ?_, ?_⟩
    · simpa [setEvictable, tracked] using h.inverse
    · simpa [setEvictable, tracked] using h.clock_bound
    · intro other marked
      rw [mem_evictable_setEvictable tracked] at marked
      rw [stamps_setEvictable]
      by_cases same : frame = other
      · exact same ▸ tracked
      · rw [if_neg same] at marked
        exact h.evictable_tracked other marked
  · rw [setEvictable, if_neg tracked]
    exact h

theorem remove_preserves_invariant (h : recency.Invariant) (frame : FrameId) :
    (recency.remove frame).Invariant := by
  constructor
  · intro other stamp
    have mirror := h.inverse other stamp
    have own := h.inverse frame stamp
    simp only [remove, getElem?_forgetStamp, Std.TreeMap.getElem?_erase,
      Std.LawfulEqCmp.compare_eq_iff_eq]
    by_cases same : frame = other
    · subst same
      by_cases old : recency.stamps[frame]? = some stamp
      · simp [old]
      · simp [old, ← own]
    · rw [if_neg same, mirror]
      by_cases old : recency.stamps[frame]? = some stamp
      · simp [old, own.mp old, same]
      · rw [if_neg old]
  · intro other stamp
    simp only [remove, Std.TreeMap.getElem?_erase]
    split
    · intro none; cases none
    · exact h.clock_bound other stamp
  · intro other marked
    rw [mem_evictable_remove] at marked
    exact mem_stamps_remove.mpr ⟨marked.1, h.evictable_tracked other marked.2⟩

theorem victim_evictable {frame : FrameId} (h : recency.victim = some frame) :
    frame ∈ recency.evictable := by
  obtain ⟨entry, found, rfl⟩ := Option.map_eq_some_iff.mp h
  simpa using List.find?_some found

theorem victim_none (h : recency.Invariant) (none : recency.victim = none) (frame : FrameId) :
    frame ∉ recency.evictable := by
  intro marked
  have tracked := h.evictable_tracked frame marked
  obtain ⟨stamp, at_stamp⟩ := Option.isSome_iff_exists.mp
    (Std.TreeMap.mem_iff_isSome_getElem?.mp tracked)
  have listed := Std.TreeMap.mem_toList_iff_getElem?_eq_some.mpr
    ((h.inverse frame stamp).mp at_stamp)
  have missing := Option.map_eq_none_iff.mp none
  rw [List.find?_eq_none] at missing
  exact missing _ listed (by simpa using marked)

end PagedIndex.Recency
