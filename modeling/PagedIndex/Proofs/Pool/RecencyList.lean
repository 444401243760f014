import Mathlib.Data.Finset.Card
import PagedIndex.Proofs.Pool.RecencyOrder

/-!
# A recency record is a list of frames

`Recency.order` lists the tracked frames, oldest access first. An access takes its frame to the
end of the list, forgetting a frame takes it out, and the victim is the first frame of the list
that is evictable. So every run of commands does to the record what it does to a list of frames
with a set of marks, and both answer alike.
-/

namespace PagedIndex

/-- Tracked frames, oldest access first, and the frames among them that may be evicted. -/
structure RecencyList where
  frames : List FrameId
  evictable : Finset FrameId

namespace RecencyList

def empty : RecencyList := ⟨[], ∅⟩

def access (list : RecencyList) (frame : FrameId) : RecencyList :=
  { list with frames := list.frames.erase frame ++ [frame] }

def setEvictable (list : RecencyList) (frame : FrameId) (evictable : Bool) : RecencyList :=
  if frame ∈ list.frames then
    { list with
      evictable := if evictable then insert frame list.evictable else list.evictable.erase frame }
  else list

def remove (list : RecencyList) (frame : FrameId) : RecencyList :=
  ⟨list.frames.erase frame, list.evictable.erase frame⟩

def victim (list : RecencyList) : Option FrameId := list.frames.find? (· ∈ list.evictable)

def size (list : RecencyList) : Nat := list.evictable.card

end RecencyList

namespace Recency

variable {recency : Recency}

def order (recency : Recency) : List FrameId := recency.byStamp.toList.map Prod.snd

/-- Both frames are tracked, and the last access of the first came before that of the second. -/
def Before (recency : Recency) (frame other : FrameId) : Prop :=
  ∃ older newer : Nat, recency.stamps[frame]? = some older ∧
    recency.stamps[other]? = some newer ∧ older < newer

theorem Before.asymm {frame other : FrameId} (h : recency.Before frame other) :
    ¬ recency.Before other frame := by
  obtain ⟨older, newer, first, second, lt⟩ := h
  rintro ⟨older', newer', first', second', lt'⟩
  have same : newer = older' := Option.some.inj (second.symm.trans first')
  have same' : older = newer' := Option.some.inj (first.symm.trans second')
  omega

theorem mem_order (h : recency.Invariant) {frame : FrameId} :
    frame ∈ recency.order ↔ frame ∈ recency.stamps := by
  simp only [order, List.mem_map, Prod.exists, exists_eq_right,
    Std.TreeMap.mem_toList_iff_getElem?_eq_some, Std.TreeMap.mem_iff_isSome_getElem?,
    Option.isSome_iff_exists, h.inverse]

theorem order_pairwise (h : recency.Invariant) : recency.order.Pairwise recency.Before := by
  refine List.pairwise_map.mpr
    (Std.TreeMap.ordered_keys_toList.imp_of_mem fun {a b} listed listed' lt => ?_)
  have stamped := Std.TreeMap.mem_toList_iff_getElem?_eq_some.mp listed
  have stamped' := Std.TreeMap.mem_toList_iff_getElem?_eq_some.mp listed'
  exact ⟨a.1, b.1, (h.inverse _ _).mpr stamped, (h.inverse _ _).mpr stamped',
    Nat.compare_eq_lt.mp lt⟩

theorem nodup_of_pairwise {frames : List FrameId} (ordered : frames.Pairwise recency.Before) :
    frames.Nodup := by
  refine ordered.imp fun {a b} before => ?_
  rintro rfl
  exact before.asymm before

theorem order_nodup (h : recency.Invariant) : recency.order.Nodup :=
  nodup_of_pairwise (order_pairwise h)

/-- Frames have only one order by their last access. -/
theorem order_eq_of (h : recency.Invariant) {frames : List FrameId}
    (ordered : frames.Pairwise recency.Before)
    (mem : ∀ frame, frame ∈ frames ↔ frame ∈ recency.stamps) : recency.order = frames := by
  have perm : recency.order.Perm frames :=
    (List.perm_ext_iff_of_nodup (order_nodup h) (nodup_of_pairwise ordered)).mpr fun frame => by
      rw [mem_order h, mem]
  exact perm.eq_of_pairwise (fun _ _ _ _ before after => absurd after before.asymm)
    (order_pairwise h) ordered

theorem Before.of_stamps {recency' : Recency} {frame other : FrameId}
    (h : recency.Before frame other) (same : recency'.stamps[frame]? = recency.stamps[frame]?)
    (same' : recency'.stamps[other]? = recency.stamps[other]?) : recency'.Before frame other := by
  obtain ⟨older, newer, first, second, lt⟩ := h
  exact ⟨older, newer, same.trans first, same'.trans second, lt⟩

theorem stamps_access (frame other : FrameId) :
    (recency.access frame).stamps[other]? =
      if frame = other then some (recency.clock + 1) else recency.stamps[other]? := by
  simp [access, Std.TreeMap.getElem?_insert]

theorem stamps_remove (frame other : FrameId) :
    (recency.remove frame).stamps[other]? =
      if frame = other then none else recency.stamps[other]? := by
  simp [remove, Std.TreeMap.getElem?_erase]

theorem pairwise_erase (h : recency.Invariant) {recency' : Recency} {frame : FrameId}
    (same : ∀ other, other ≠ frame → recency'.stamps[other]? = recency.stamps[other]?) :
    (recency.order.erase frame).Pairwise recency'.Before := by
  have apart {other : FrameId} (mem : other ∈ recency.order.erase frame) : other ≠ frame :=
    ((order_nodup h).mem_erase_iff.mp mem).1
  refine ((order_pairwise h).sublist List.erase_sublist).imp_of_mem fun mem mem' before => ?_
  exact before.of_stamps (same _ (apart mem)) (same _ (apart mem'))

theorem order_access (h : recency.Invariant) (frame : FrameId) :
    (recency.access frame).order = recency.order.erase frame ++ [frame] := by
  refine order_eq_of (access_preserves_invariant h frame) ?_ fun other => ?_
  · refine List.pairwise_append.mpr
      ⟨?_, List.pairwise_singleton _ _, fun other mem last at_end => ?_⟩
    · exact pairwise_erase h fun other apart => by rw [stamps_access, if_neg (Ne.symm apart)]
    · obtain rfl := List.mem_singleton.mp at_end
      obtain ⟨apart, listed⟩ := (order_nodup h).mem_erase_iff.mp mem
      obtain ⟨stamp, stamped⟩ := Option.isSome_iff_exists.mp
        (Std.TreeMap.mem_iff_isSome_getElem?.mp ((mem_order h).mp listed))
      refine ⟨stamp, recency.clock + 1, ?_, ?_, Nat.lt_succ_of_le (h.clock_bound _ _ stamped)⟩
      · rw [stamps_access, if_neg (Ne.symm apart), stamped]
      · rw [stamps_access, if_pos rfl]
  · rw [mem_stamps_access, List.mem_append, (order_nodup h).mem_erase_iff, mem_order h,
      List.mem_singleton]
    by_cases same : frame = other
    · simp [same]
    · simp [same, Ne.symm same]

theorem order_remove (h : recency.Invariant) (frame : FrameId) :
    (recency.remove frame).order = recency.order.erase frame := by
  refine order_eq_of (remove_preserves_invariant h frame) ?_ fun other => ?_
  · exact pairwise_erase h fun other apart => by rw [stamps_remove, if_neg (Ne.symm apart)]
  · rw [mem_stamps_remove, (order_nodup h).mem_erase_iff, mem_order h, ne_comm]

theorem order_setEvictable (frame : FrameId) (mark : Bool) :
    (recency.setEvictable frame mark).order = recency.order := by
  unfold setEvictable
  split <;> rfl

theorem victim_eq (recency : Recency) :
    recency.victim = recency.order.find? (· ∈ recency.evictable) := by
  rw [victim, order, List.find?_map]
  rfl

theorem victim_before (h : recency.Invariant) {frame other : FrameId}
    (victim : recency.victim = some frame) (evictable : other ∈ recency.evictable)
    (apart : other ≠ frame) : recency.Before frame other := by
  rw [victim_eq, List.find?_eq_some_iff_append] at victim
  obtain ⟨-, older, newer, cut, skipped⟩ := victim
  have listed : other ∈ older ++ frame :: newer :=
    cut ▸ (mem_order h).mpr (h.evictable_tracked other evictable)
  have ordered : (older ++ frame :: newer).Pairwise recency.Before := cut ▸ order_pairwise h
  rcases List.mem_append.mp listed with first | rest
  · have marked := skipped other first
    simp [evictable] at marked
  · rcases List.mem_cons.mp rest with same | last
    · exact absurd same apart
    · exact List.rel_of_pairwise_cons (List.pairwise_append.mp ordered).2.1 last

def list (recency : Recency) : RecencyList :=
  ⟨recency.order, recency.evictable.toList.toFinset⟩

theorem mem_list_evictable {frame : FrameId} :
    frame ∈ recency.list.evictable ↔ frame ∈ recency.evictable := by
  simp [list]

theorem list_empty : empty.list = .empty := rfl

theorem list_access (h : recency.Invariant) (frame : FrameId) :
    (recency.access frame).list = recency.list.access frame := by
  rw [list, order_access h]
  rfl

theorem list_setEvictable (h : recency.Invariant) (frame : FrameId) (mark : Bool) :
    (recency.setEvictable frame mark).list = recency.list.setEvictable frame mark := by
  have mem : frame ∈ recency.list.frames ↔ frame ∈ recency.stamps := mem_order h
  by_cases tracked : frame ∈ recency.stamps
  · rw [RecencyList.setEvictable, if_pos (mem.mpr tracked)]
    refine congrArg₂ RecencyList.mk (order_setEvictable frame mark) (Finset.ext fun other => ?_)
    have marked : other ∈ (recency.setEvictable frame mark).list.evictable ↔
        other ∈ (recency.setEvictable frame mark).evictable := mem_list_evictable
    rw [mem_evictable_setEvictable tracked] at marked
    refine marked.trans ?_
    by_cases same : frame = other
    · cases mark <;> simp [same]
    · cases mark <;> simp [same, Ne.symm same, mem_list_evictable]
  · rw [RecencyList.setEvictable, if_neg (mt mem.mp tracked), setEvictable, if_neg tracked]

theorem list_remove (h : recency.Invariant) (frame : FrameId) :
    (recency.remove frame).list = recency.list.remove frame := by
  refine congrArg₂ RecencyList.mk (order_remove h frame) (Finset.ext fun other => ?_)
  rw [Finset.mem_erase, mem_list_evictable, ← mem_evictable_remove.trans (and_congr_left' ne_comm)]
  exact mem_list_evictable

theorem list_victim (recency : Recency) : recency.list.victim = recency.victim := by
  rw [victim_eq, RecencyList.victim]
  simp only [mem_list_evictable]
  rfl

theorem list_size (recency : Recency) : recency.list.size = recency.size := by
  have nodup : recency.evictable.toList.Nodup :=
    Std.TreeSet.distinct_toList.imp fun apart same =>
      apart (Std.LawfulEqCmp.compare_eq_iff_eq.mpr same)
  rw [RecencyList.size, list, List.toFinset_card_of_nodup nodup, Std.TreeSet.length_toList, size]

inductive Command where
  | access (frame : FrameId)
  | setEvictable (frame : FrameId) (evictable : Bool)
  | evict
  | remove (frame : FrameId)
  deriving DecidableEq

def Command.isAccess : Command → Bool
  | access _ => true
  | setEvictable _ _ | evict | remove _ => false

def perform (recency : Recency) : Command → Option FrameId × Recency
  | .access frame => (none, recency.access frame)
  | .setEvictable frame evictable => (none, recency.setEvictable frame evictable)
  | .evict => match recency.evict with
    | some (frame, rest) => (some frame, rest)
    | none => (none, recency)
  | .remove frame => (none, recency.remove frame)

/-- What commands answer one after another, and the size after each of them. -/
def answers (recency : Recency) : List Command → List (Option FrameId × Nat)
  | [] => []
  | command :: rest =>
    ((recency.perform command).1, (recency.perform command).2.size) ::
      (recency.perform command).2.answers rest

def after (recency : Recency) (commands : List Command) : Recency :=
  commands.foldl (fun recency command => (recency.perform command).2) recency

end Recency

namespace RecencyList

open Recency (Command)

def perform (list : RecencyList) : Command → Option FrameId × RecencyList
  | .access frame => (none, list.access frame)
  | .setEvictable frame evictable => (none, list.setEvictable frame evictable)
  | .evict => match list.victim with
    | some frame => (some frame, list.remove frame)
    | none => (none, list)
  | .remove frame => (none, list.remove frame)

def answers (list : RecencyList) : List Command → List (Option FrameId × Nat)
  | [] => []
  | command :: rest =>
    ((list.perform command).1, (list.perform command).2.size) ::
      (list.perform command).2.answers rest

def after (list : RecencyList) (commands : List Command) : RecencyList :=
  commands.foldl (fun list command => (list.perform command).2) list

end RecencyList

namespace Recency

variable {recency : Recency}

theorem perform_preserves_invariant (h : recency.Invariant) (command : Command) :
    (recency.perform command).2.Invariant := by
  cases command with
  | access frame => exact access_preserves_invariant h frame
  | setEvictable frame mark => exact setEvictable_preserves_invariant h frame mark
  | evict =>
    simp only [perform, evict]
    cases recency.victim with
    | none => exact h
    | some frame => exact remove_preserves_invariant h frame
  | remove frame => exact remove_preserves_invariant h frame

theorem perform_refines (h : recency.Invariant) (command : Command) :
    recency.list.perform command =
      ((recency.perform command).1, (recency.perform command).2.list) := by
  cases command with
  | access frame => rw [RecencyList.perform, ← list_access h]; rfl
  | setEvictable frame mark => rw [RecencyList.perform, ← list_setEvictable h]; rfl
  | evict =>
    simp only [RecencyList.perform, perform, evict, list_victim]
    cases recency.victim with
    | none => rfl
    | some frame => simp only [Option.map_some, list_remove h]
  | remove frame => rw [RecencyList.perform, ← list_remove h]; rfl

theorem run_refines (h : recency.Invariant) (commands : List Command) :
    recency.answers commands = recency.list.answers commands ∧
      (recency.after commands).list = recency.list.after commands ∧
      (recency.after commands).Invariant := by
  induction commands generalizing recency with
  | nil => exact ⟨rfl, rfl, h⟩
  | cons command rest ih =>
    obtain ⟨answers, after, invariant⟩ := ih (perform_preserves_invariant h command)
    refine ⟨?_, ?_, invariant⟩
    · rw [Recency.answers, RecencyList.answers, perform_refines h, answers, list_size]
    · rw [RecencyList.after, List.foldl_cons, perform_refines h]
      exact after

theorem clock_perform (recency : Recency) (command : Command) :
    (recency.perform command).2.clock = recency.clock + if command.isAccess then 1 else 0 := by
  cases command with
  | access frame => rfl
  | setEvictable frame mark => simp only [perform, setEvictable]; split <;> rfl
  | evict => simp only [perform, evict]; cases recency.victim <;> rfl
  | remove frame => rfl

theorem clock_after (recency : Recency) (commands : List Command) :
    (recency.after commands).clock = recency.clock + commands.countP Command.isAccess := by
  induction commands generalizing recency with
  | nil => rfl
  | cons command rest ih =>
    change ((recency.perform command).2.after rest).clock = _
    rw [ih, clock_perform, List.countP_cons]
    omega

end Recency

namespace RecencyList

open Recency (Command)

/-- The frames were accessed, and each was last accessed before those behind it in the list. -/
structure Follows (commands : List Command) (list : RecencyList) : Prop where
  accessed : ∀ frame ∈ list.frames, Command.access frame ∈ commands
  ordered : list.frames.Pairwise fun frame other =>
    commands.reverse.idxOf (Command.access other) < commands.reverse.idxOf (Command.access frame)

namespace Follows

variable {commands : List Command} {list list' : RecencyList}

theorem of_sublist (h : list.Follows commands) {command : Command}
    (sublist : list'.frames.Sublist list.frames)
    (other : ∀ frame ∈ list'.frames, command ≠ .access frame) :
    list'.Follows (commands ++ [command]) := by
  refine ⟨fun frame mem => List.mem_append_left _ (h.accessed frame (sublist.subset mem)), ?_⟩
  refine (h.ordered.sublist sublist).imp_of_mem fun {a b} mem mem' lt => ?_
  rw [List.reverse_append, List.reverse_singleton, List.singleton_append,
    List.idxOf_cons_ne _ (other a mem), List.idxOf_cons_ne _ (other b mem')]
  exact Nat.succ_lt_succ lt

theorem access (h : list.Follows commands) (nodup : list.frames.Nodup) (frame : FrameId) :
    (list.access frame).Follows (commands ++ [.access frame]) := by
  have others : (⟨list.frames.erase frame, list.evictable⟩ : RecencyList).Follows
      (commands ++ [.access frame]) :=
    h.of_sublist List.erase_sublist fun other mem same =>
      (nodup.mem_erase_iff.mp mem).1 (Command.access.inj same).symm
  refine ⟨fun other mem => ?_, ?_⟩
  · rcases List.mem_append.mp mem with mem | last
    · exact others.accessed other mem
    · rw [List.mem_singleton.mp last]
      exact List.mem_append_right _ (List.mem_singleton_self _)
  · refine List.pairwise_append.mpr
      ⟨others.ordered, List.pairwise_singleton _ _, fun other mem last at_end => ?_⟩
    obtain rfl := List.mem_singleton.mp at_end
    have apart : Command.access last ≠ Command.access other := fun same =>
      (nodup.mem_erase_iff.mp mem).1 (Command.access.inj same).symm
    rw [List.reverse_append, List.reverse_singleton, List.singleton_append, List.idxOf_cons_self,
      List.idxOf_cons_ne _ apart]
    exact Nat.succ_pos _

theorem perform (h : list.Follows commands) (nodup : list.frames.Nodup) (command : Command) :
    (list.perform command).2.Follows (commands ++ [command]) := by
  cases command with
  | access frame => exact h.access nodup frame
  | setEvictable frame mark =>
    refine h.of_sublist ?_ fun _ _ same => by cases same
    simp only [RecencyList.perform, setEvictable]
    split <;> exact List.Sublist.refl _
  | evict =>
    refine h.of_sublist ?_ fun _ _ same => by cases same
    simp only [RecencyList.perform]
    cases list.victim with
    | none => exact List.Sublist.refl _
    | some frame => exact List.erase_sublist
  | remove frame => exact h.of_sublist List.erase_sublist fun _ _ same => by cases same

end Follows

end RecencyList

namespace Recency

theorem after_follows (commands : List Command) :
    (empty.after commands).list.Follows commands := by
  -- On the last command, since what counts is how far back an access lies.
  induction commands using List.reverseRecOn with
  | nil =>
    rw [after, List.foldl_nil, list_empty]
    exact ⟨fun _ mem => absurd mem List.not_mem_nil, List.Pairwise.nil⟩
  | append_singleton commands command ih =>
    have invariant := (run_refines empty_invariant commands).2.2
    have last : empty.after (commands ++ [command]) =
        ((empty.after commands).perform command).2 := by
      rw [after, List.foldl_append]
      rfl
    rw [last]
    have followed := ih.perform (order_nodup invariant) command
    rw [perform_refines invariant] at followed
    exact followed

/-- Whatever the commands, a record answers as the list of frames does that it keeps, and its size
is the number of marks. In the list each tracked frame stands once, by its last access, and only
tracked frames are marked. The two maps of the record are inverse to each other, its clock has
counted the accesses, and no stamp is beyond it. -/
theorem refines_recency_list (commands : List Command) :
    empty.answers commands = RecencyList.empty.answers commands ∧
      (empty.after commands).list = RecencyList.empty.after commands ∧
      (empty.after commands).size = (RecencyList.empty.after commands).evictable.card ∧
      (RecencyList.empty.after commands).frames.Nodup ∧
      (RecencyList.empty.after commands).Follows commands ∧
      (∀ frame ∈ (RecencyList.empty.after commands).evictable,
        frame ∈ (RecencyList.empty.after commands).frames) ∧
      (empty.after commands).Invariant ∧
      (empty.after commands).clock = commands.countP Command.isAccess := by
  obtain ⟨answers, list, invariant⟩ := run_refines empty_invariant commands
  rw [list_empty] at answers list
  have follows := after_follows commands
  have nodup := order_nodup invariant
  have tracked (frame : FrameId) (marked : frame ∈ (empty.after commands).list.evictable) :
      frame ∈ (empty.after commands).list.frames :=
    (mem_order invariant).mpr (invariant.evictable_tracked frame (mem_list_evictable.mp marked))
  have size : (empty.after commands).list.evictable.card = _ := list_size (empty.after commands)
  rw [list] at follows tracked size
  refine ⟨answers, list, size.symm, ?_, follows, tracked, invariant, ?_⟩
  · rw [← list]
    exact nodup
  · rw [clock_after]
    exact Nat.zero_add _

end Recency

end PagedIndex
