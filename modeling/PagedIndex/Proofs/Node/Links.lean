import PagedIndex.Proofs.Node.Capacities

/-!
# Where the links of a page lead

A page is linked into a set of pages if it is that of a leaf, or that of an inner node whose
children are all in the set. Nothing is asked of the keys, so this holds of trees whose pages are in
no order, and of leaves with any number of entries. What the layouts make of linked pages is linked
again.
-/

namespace PagedIndex

namespace Edit

variable {size : Nat} {α β : Type}

/-- However it ends, the edit leaves the level of the node. -/
def KeepsLevel (edit : Edit size α) : Prop := ∀ block : Block size,
  Ends edit block (fun _ b => (Header.of b).level = (Header.of block).level) (fun _ _ => True)

namespace KeepsLevel

theorem pure (a : α) : KeepsLevel (Pure.pure a : Edit size α) := fun _ => rfl

theorem bind {edit : Edit size α} {next : α → Edit size β} (h : edit.KeepsLevel)
    (goes_on : ∀ a, (next a).KeepsLevel) : (edit >>= next).KeepsLevel := by
  intro block
  rw [Ends.bind_iff]
  refine (h block).imp (fun a b same => ?_) fun _ _ _ => trivial
  exact (goes_on a b).imp (fun _ _ same' => same'.trans same) fun _ _ _ => trivial

theorem discard {edit : Edit size α} (h : edit.KeepsLevel) :
    (Functor.discard edit).KeepsLevel := fun block =>
  Ends.discard_iff.mpr (h block)

theorem inspect (f : Block size → Except Violation α) : (Edit.inspect f).KeepsLevel := by
  intro block
  cases read : f block with
  | ok a => exact (inspect_of_ok read).mpr rfl
  | error violation => simp only [Ends, Edit.inspect, EStateM.run, read]

theorem require (condition : Prop) [Decidable condition] (violation : Violation) :
    (Edit.require condition violation : Edit size Unit).KeepsLevel := by
  intro block
  unfold Edit.require
  split <;> trivial

theorem write {start : Nat} (bytes : List UInt8) (behind : 2 ≤ start) :
    (Edit.write start bytes : Edit size Unit).KeepsLevel :=
  bind (require _ _) fun _ block =>
    block.value_overwrite_of_disjoint (α := UInt16) (.inl behind)

theorem put [FixedWidth α] {start : Nat} (a : α) (behind : 2 ≤ start) :
    (Edit.put start a : Edit size Unit).KeepsLevel := write _ behind

theorem move (start stop : Nat) {target : Nat} (behind : 2 ≤ target) :
    (Edit.move start stop target : Edit size Unit).KeepsLevel :=
  bind (require _ _) fun _ => bind (inspect _) fun bytes => write bytes behind

theorem setCount (count : Nat) : (Header.setCount count : Edit size Unit).KeepsLevel :=
  put _ (Nat.le_refl 2)

end KeepsLevel

theorem of_run {edit : Edit size α} {block after : Block size} {a : α}
    {done : α → Block size → Prop} (ends : Ends edit block done fun _ _ => True)
    (ran : edit.run block = .ok (a, after)) : done a after := by
  unfold Edit.run at ran
  cases result : EStateM.run edit block with
  | error violation b => rw [result] at ran; cases ran
  | ok a' b =>
    rw [result] at ran
    cases ran
    exact ends.of_ok result

theorem KeepsLevel.of_run {edit : Edit size α} {block after : Block size} {a : α}
    (h : edit.KeepsLevel) (ran : edit.run block = .ok (a, after)) :
    (Header.of after).level = (Header.of block).level :=
  Edit.of_run (h block) ran

theorem run_of_discard {edit : Edit size α} {block after : Block size} {u : Unit}
    (ran : (discard edit).run block = .ok (u, after)) : ∃ a, edit.run block = .ok (a, after) := by
  have ends : Ends (discard edit) block (fun _ b => ∃ a, edit.run block = .ok (a, b))
      (fun _ _ => True) := by
    refine Ends.discard_iff.mpr ((Ends.run_eq edit block).imp ?_ fun _ _ _ => trivial)
    intro a b done
    exact ⟨a, by rw [Edit.run, done]⟩
  exact Edit.of_run ends ran

end Edit

section Levels

variable {K V : Type} [IndexKey K] [FixedWidth V] {size size' : Nat}

theorem behind_level (base : Nat) : 2 ≤ headerSize + base := by unfold headerSize; omega

namespace LeafLayout

theorem insert_keeps_level (leaf : LeafLayout K V) (key : K) (value : V) :
    (leaf.insert key value : Edit size Bool).KeepsLevel := by
  have value_behind (index : Nat) : 2 ≤ leaf.valueOffset index :=
    Nat.le_trans (behind_level _) (Nat.le_add_right _ _)
  refine .bind (.inspect _) fun position => ?_
  split
  · exact .bind (.put value (value_behind _)) fun _ => .pure _
  · refine .bind (.inspect _) fun count => .bind (.require _ _) fun _ => ?_
    refine .bind (.move _ _ (behind_level _)) fun _ =>
      .bind (.move _ _ (value_behind _)) fun _ => ?_
    refine .bind (.put key (behind_level _)) fun _ =>
      .bind (.put value (value_behind _)) fun _ => ?_
    exact .bind (.setCount _) fun _ => .pure _

theorem erase_keeps_level (leaf : LeafLayout K V) (key : K) :
    (leaf.erase key : Edit size Bool).KeepsLevel := by
  simp only [erase, Arithmetic.plain_difference, keyOffset_sub_width, valueOffset_sub_width,
    Edit.inspect_ok, pure_bind]
  refine .bind (.inspect _) fun position => ?_
  split
  · exact .pure _
  · refine .bind (.inspect _) fun count => .bind (.move _ _ (behind_level _)) fun _ => ?_
    refine .bind (.move _ _ (Nat.le_trans (behind_level _) (Nat.le_add_right _ _))) fun _ => ?_
    exact .bind (.setCount _) fun _ => .pure _

omit [IndexKey K] [FixedWidth V] in
theorem format_level {leaf : LeafLayout K V} (room : headerSize ≤ size) (block : Block size) :
    Ends leaf.format block (fun _ b => (Header.of b).level = 0) (fun _ _ => True) := by
  rw [format, Header.write_iff room, Header.of_write _ _ room]

theorem plant_level {leaf : LeafLayout K V} {key : K} {value : V} {block after : Block size}
    {u : Unit} (room : headerSize ≤ size)
    (ran : Edit.run (do leaf.format; discard (leaf.insert key value)) block = .ok (u, after)) :
    (Header.of after).level = 0 := by
  have planted : Ends (do leaf.format; discard (leaf.insert key value)) block
      (fun _ b => (Header.of b).level = 0) (fun _ _ => True) := by
    refine Ends.bind_iff.mpr ((format_level room block).imp ?_ fun _ _ _ => trivial)
    intro _ formatted level
    refine ((insert_keeps_level leaf key value).discard formatted).imp ?_ fun _ _ _ => trivial
    exact fun _ _ kept => kept.trans level
  exact Edit.of_run planted ran

theorem split_runs {leaf : LeafLayout K V} {source : Block size} {target : Block size'}
    {halves : Halves K size size'} (ran : leaf.split source target = .ok halves) :
    ∃ count, leaf.count source = .ok count ∧ 2 ≤ count ∧
      (leaf.receive source ((count + 1) / 2) (count - (count + 1) / 2)).run target =
        .ok ((), halves.right) ∧
      (Header.setCount ((count + 1) / 2)).run source = .ok ((), halves.left) := by
  unfold LeafLayout.split at ran
  simp only [Arithmetic.plain_difference, bind, Except.bind] at ran
  split at ran
  · cases ran
  · rename_i count counted
    split at ran
    · cases ran
    · rename_i more
      split at ran
      · cases ran
      · rename_i right_ran
        split at ran
        · cases ran
        · rename_i left_ran
          split at ran
          · cases ran
          · cases ran
            exact ⟨count, counted, Nat.le_of_not_lt more, right_ran, left_ran⟩

theorem split_level {leaf : LeafLayout K V} {source target : Block size} {halves : Halves K size}
    (room : headerSize ≤ size) (ran : leaf.split source target = .ok halves) :
    (Header.of halves.left).level = (Header.of source).level ∧
      (Header.of halves.right).level = 0 := by
  obtain ⟨count, -, -, right_ran, left_ran⟩ := split_runs ran
  have ends : Ends (leaf.receive source ((count + 1) / 2) (count - (count + 1) / 2)) target
      (fun _ b => (Header.of b).level = 0) (fun _ _ => True) := by
    simp only [receive, Arithmetic.plain_count, Edit.inspect_ok, pure_bind]
    rw [Ends.bind_iff, Header.write_iff room]
    refine (Edit.KeepsLevel.bind (.inspect _) (fun _ => .bind (.write _ (behind_level _))
      fun _ => .bind (.inspect _) fun _ => .write _ ?_) _).imp ?_ fun _ _ h => h
    · exact Nat.le_trans (behind_level _) (Nat.le_add_right _ _)
    · intro _ b same
      rw [same, Header.of_write _ _ room]
  exact ⟨(Edit.KeepsLevel.setCount _).of_run left_ran, Edit.of_run ends right_ran⟩

end LeafLayout

namespace InnerLayout

theorem insert_keeps_level (inner : InnerLayout K) (separator : K) (child : PageId) :
    (inner.insert separator child : Edit size Bool).KeepsLevel := by
  have child_behind (index : Nat) : 2 ≤ inner.childOffset index :=
    Nat.le_trans (behind_level _) (Nat.le_add_right _ _)
  refine .bind (.inspect _) fun count => .bind (.inspect _) fun position => ?_
  split
  · exact .bind (.put child (child_behind _)) fun _ => .pure _
  · refine .bind (.require _ _) fun _ => .bind (.require _ _) fun _ => .bind (.inspect _) fun _ => ?_
    refine .bind (.move _ _ (behind_level _)) fun _ =>
      .bind (.move _ _ (child_behind _)) fun _ => ?_
    refine .bind (.put separator (behind_level _)) fun _ =>
      .bind (.put child (child_behind _)) fun _ => ?_
    exact .bind (.setCount _) fun _ => .pure _

theorem removeChildFor_keeps_level (inner : InnerLayout K) (key : K) :
    (inner.removeChildFor key : Edit size Bool).KeepsLevel := by
  simp only [removeChildFor, Arithmetic.plain_difference, keyOffset_sub_width,
    childOffset_sub_width, Edit.inspect_ok, pure_bind]
  refine .bind (.inspect _) fun count => ?_
  split
  · exact .pure _
  · refine .bind (.inspect _) fun child => .bind (.move _ _ (behind_level _)) fun _ => ?_
    refine .bind (.move _ _ (Nat.le_trans (behind_level _) (Nat.le_add_right _ _))) fun _ => ?_
    exact .bind (.setCount _) fun _ => .pure _

theorem split_runs {inner : InnerLayout K} {source : Block size} {target : Block size'}
    {halves : Halves K size size'} (ran : inner.split source target = .ok halves) :
    ∃ header, Header.read source = .ok header ∧ 2 ≤ header.count.toNat ∧
      (inner.receive source header.level (header.count.toNat / 2)
        (header.count.toNat - header.count.toNat / 2)).run target = .ok ((), halves.right) ∧
      (Header.setCount (header.count.toNat / 2)).run source = .ok ((), halves.left) := by
  unfold InnerLayout.split at ran
  simp only [Arithmetic.plain_difference, bind, Except.bind] at ran
  split at ran
  · cases ran
  · rename_i header read
    split at ran
    · cases ran
    · rename_i more
      split at ran
      · cases ran
      · split at ran
        · cases ran
        · rename_i right_ran
          split at ran
          · cases ran
          · rename_i left_ran
            cases ran
            exact ⟨header, read, Nat.le_of_not_lt more, right_ran, left_ran⟩

end InnerLayout

end Levels

theorem among_of_put {pointers pointers' : List PageId} {child : PageId} {first rest : Nat}
    (put : pointers' = pointers.take first ++ child :: pointers.drop rest) :
    pointers' ≠ [] ∧ ∀ p ∈ pointers', p ∈ pointers ∨ p = child := by
  subst put
  refine ⟨by simp, fun p mem => ?_⟩
  rcases List.mem_append.mp mem with mem | mem
  · exact .inl (List.mem_of_mem_take mem)
  · rcases List.mem_cons.mp mem with rfl | mem
    · exact .inr rfl
    · exact .inl (List.mem_of_mem_drop mem)

namespace InnerLayout

variable {K : Type} [IndexKey K] {size : Nat} {inner : InnerLayout K} {block : Block size}

section Searches

variable (fits : inner.Fits size) (within : (inner.pointers block).length ≤ inner.capacity)

include fits within

theorem position_among (key : K) : ∃ position, inner.position block key = .ok position ∧
    ∃ below above, position.index = below.length ∧ inner.separators block =
      below ++ if position.found then key :: above else above := by
  have readable : ∀ i < (inner.separators block).length,
      inner.keyAt block i = .ok ((inner.separators block).getD i key) := by
    intro i inside
    rw [keyAt_eq fits within i inside]
    simp [List.getD, inside]
  obtain ⟨⟨index, found⟩, searched, brackets⟩ := Position.search_brackets readable key
  rw [length_separators] at searched
  refine ⟨⟨index, found⟩, by rw [position, count_eq fits]; exact searched,
    (inner.separators block).take index, (inner.separators block).drop (index + found.toNat),
    (List.length_take_of_le brackets.index_le).symm, ?_⟩
  cases found with
  | false => exact (List.take_append_drop index _).symm
  | true =>
    obtain ⟨inside, same⟩ : index < (inner.separators block).length ∧
      (inner.separators block).getD index key = key := brackets.found rfl
    have same : (inner.separators block)[index] = key := by
      rw [← same]
      simp [List.getD, inside]
    simp only [if_true, Bool.toNat_true]
    rw [← same, List.getElem_cons_drop, List.take_append_drop]

theorem childIndex_lt (some : inner.pointers block ≠ []) (key : K) :
    ∃ index, inner.childIndex block key = .ok index ∧ index < (inner.pointers block).length := by
  obtain ⟨position, searched, below, above, at_index, separators⟩ :=
    position_among fits within key
  have one_less := congrArg List.length separators
  rw [length_separators] at one_less
  have positive := List.length_pos_of_ne_nil some
  rw [childIndex, searched]
  refine ⟨_, rfl, ?_⟩
  cases found : position.found <;>
    simp only [found, Bool.false_eq_true, if_false, if_true, List.length_append,
      List.length_cons] at one_less ⊢ <;> omega

theorem childFor_mem (some : inner.pointers block ≠ []) {key : K} {child : PageId}
    (routed : inner.childFor block key = .ok child) : child ∈ inner.pointers block := by
  obtain ⟨index, route, inside⟩ := childIndex_lt fits within some key
  rw [childFor, route] at routed
  have routed := (childAt_eq fits within index inside).symm.trans routed
  cases routed
  exact List.getElem_mem inside

theorem insert_among_ends {separator : K} {child : PageId} (some : inner.pointers block ≠ []) :
    Ends (inner.insert separator child) block
      (fun _ b => inner.pointers b ≠ [] ∧ (inner.pointers b).length ≤ inner.capacity ∧
        ∀ p ∈ inner.pointers b, p ∈ inner.pointers block ∨ p = child)
      (fun _ _ => True) := by
  obtain ⟨⟨index, found⟩, searched, below, above, rfl, separators⟩ :=
    position_among fits within separator
  have one_less := congrArg List.length separators
  rw [length_separators] at one_less
  have positive := List.length_pos_of_ne_nil some
  cases found with
  | false =>
    simp only [Bool.false_eq_true, if_false] at separators one_less
    rw [List.length_append] at one_less
    have cut := (List.take_append_drop (below.length + 1) (inner.pointers block)).symm
    by_cases vacant : (inner.pointers block).length < inner.capacity
    case neg =>
      simp only [insert, Ends.bind_iff, Edit.inspect_of_ok (count_eq fits block),
        Edit.inspect_of_ok (f := fun b => inner.position b separator) searched,
        Bool.false_eq_true, if_false, Edit.require, if_neg vacant, Ends.throw_iff]
    refine (insert_at_ends fits within separators searched cut
      (List.length_take_of_le (by omega)) vacant).imp ?_ fun _ _ _ => trivial
    rintro _ b ⟨-, -, pointers, -⟩
    have total := congrArg List.length cut
    rw [List.length_append] at total
    obtain ⟨some', among⟩ := among_of_put pointers
    refine ⟨some', ?_, among⟩
    rw [pointers, List.length_append, List.length_cons]
    omega
  | true =>
    simp only [if_true] at separators one_less
    rw [List.length_append, List.length_cons] at one_less
    have inside : below.length + 1 < (inner.pointers block).length := by omega
    have cut : inner.pointers block = (inner.pointers block).take (below.length + 1) ++
        (inner.pointers block)[below.length + 1] ::
          (inner.pointers block).drop (below.length + 1 + 1) := by
      rw [List.getElem_cons_drop, List.take_append_drop]
    refine (retarget_ends fits within separators searched cut
      (List.length_take_of_le (by omega))).imp ?_ fun _ _ _ => trivial
    rintro _ b ⟨-, -, pointers, -⟩
    have total := congrArg List.length cut
    rw [List.length_append, List.length_cons] at total
    obtain ⟨some', among⟩ := among_of_put pointers
    refine ⟨some', ?_, among⟩
    rw [pointers, List.length_append, List.length_cons]
    omega

theorem remove_among_ends {key : K} (more : 1 < (inner.pointers block).length) :
    Ends (inner.removeChildFor key) block
      (fun _ b => inner.pointers b ≠ [] ∧ (inner.pointers b).length ≤ inner.capacity ∧
        ∀ p ∈ inner.pointers b, p ∈ inner.pointers block)
      (fun _ _ => True) := by
  have some : inner.pointers block ≠ [] := List.ne_nil_of_length_pos (by omega)
  obtain ⟨index, route, inside⟩ := childIndex_lt fits within some key
  have one_less := length_separators inner block
  have cut : inner.pointers block = (inner.pointers block).take index ++
      (inner.pointers block)[index] :: (inner.pointers block).drop (index + 1) := by
    rw [List.getElem_cons_drop, List.take_append_drop]
  have beside : index - 1 < (inner.separators block).length := by omega
  have cut' : inner.separators block = (inner.separators block).take (index - 1) ++
      (inner.separators block)[index - 1] :: (inner.separators block).drop (index - 1 + 1) := by
    rw [List.getElem_cons_drop, List.take_append_drop]
  have at_index : ((inner.pointers block).take index).length = index :=
    List.length_take_of_le (Nat.le_of_lt inside)
  refine (remove_at_ends fits within cut' cut (by rw [at_index]; exact route)
    (by rw [at_index, List.length_take_of_le (Nat.le_of_lt beside)])).imp ?_ fun _ _ _ => trivial
  rintro _ b ⟨-, -, pointers, -⟩
  have total := congrArg List.length cut
  rw [List.length_append, List.length_cons] at total
  have length : (inner.pointers b).length + 1 = (inner.pointers block).length := by
    rw [pointers, List.length_append]
    omega
  refine ⟨List.ne_nil_of_length_pos (by omega), by omega, fun p mem => ?_⟩
  rw [pointers, List.mem_append] at mem
  exact mem.elim List.mem_of_mem_take List.mem_of_mem_drop

end Searches

end InnerLayout

/-- A leaf, or an inner node with some children, all among the given pages. -/
def Capacities.Linked (K : Type) [IndexKey K] (capacities : Capacities) (own : PageId → Prop)
    (bytes : Page) : Prop :=
  (Header.of bytes).level ≠ 0 → (capacities.innerLayout K).pointers bytes ≠ [] ∧
    ((capacities.innerLayout K).pointers bytes).length ≤ capacities.inner ∧
    ∀ child ∈ (capacities.innerLayout K).pointers bytes, own child

namespace Capacities.Linked

variable {K V : Type} [IndexKey K] {capacities : Capacities} {own own' : PageId → Prop}
  {bytes bytes' target : Page}

theorem mono (h : capacities.Linked K own bytes) (more : ∀ page, own page → own' page) :
    capacities.Linked K own' bytes := fun above =>
  ⟨(h above).1, (h above).2.1, fun child mem => more child ((h above).2.2 child mem)⟩

theorem of_leaf (level : (Header.of bytes).level = 0) : capacities.Linked K own bytes :=
  fun above => absurd level above

theorem zeroed : capacities.Linked K own Page.zeroed := of_leaf rfl

theorem of_pointers (some : (capacities.innerLayout K).pointers bytes' ≠ [])
    (within : ((capacities.innerLayout K).pointers bytes').length ≤ capacities.inner)
    (among : ∀ child ∈ (capacities.innerLayout K).pointers bytes', own child) :
    capacities.Linked K own bytes' := fun _ => ⟨some, within, among⟩

variable [FixedWidth V] (suitable : capacities.Suitable K V)

include suitable

theorem childFor_own {key : K} {child : PageId} (h : capacities.Linked K own bytes)
    (above : (Header.of bytes).level ≠ 0)
    (routed : (capacities.innerLayout K).childFor bytes key = .ok child) : own child := by
  obtain ⟨some, within, among⟩ := h above
  exact among child (InnerLayout.childFor_mem suitable.inner within some routed)

theorem children_own {children : List PageId} (h : capacities.Linked K own bytes)
    (above : (Header.of bytes).level ≠ 0)
    (read : (capacities.innerLayout K).children bytes = .ok children) :
    ∀ child ∈ children, own child := by
  obtain ⟨-, within, among⟩ := h above
  cases read.symm.trans (InnerLayout.children_eq suitable.inner within)
  exact among

theorem insert {separator : K} {child : PageId} {added : Bool}
    (h : capacities.Linked K own bytes) (mem : own child)
    (ran : ((capacities.innerLayout K).insert separator child).run bytes = .ok (added, bytes')) :
    capacities.Linked K own bytes' := by
  by_cases level : (Header.of bytes).level = 0
  · exact of_leaf (((InnerLayout.insert_keeps_level _ _ _).of_run ran).trans level)
  · obtain ⟨some, within, among⟩ := h level
    obtain ⟨some', within', among'⟩ :=
      Edit.of_run (InnerLayout.insert_among_ends suitable.inner within some) ran
    refine of_pointers some' within' fun p mem' => ?_
    rcases among' p mem' with mem' | rfl
    · exact among p mem'
    · exact mem

theorem remove {key : K} {removed : Bool} (h : capacities.Linked K own bytes)
    (more : 1 < ((capacities.innerLayout K).pointers bytes).length)
    (ran : ((capacities.innerLayout K).removeChildFor key).run bytes = .ok (removed, bytes')) :
    capacities.Linked K own bytes' := by
  by_cases level : (Header.of bytes).level = 0
  · exact of_leaf (((InnerLayout.removeChildFor_keeps_level _ _).of_run ran).trans level)
  · obtain ⟨-, within, among⟩ := h level
    obtain ⟨some', within', among'⟩ :=
      Edit.of_run (InnerLayout.remove_among_ends suitable.inner within more) ran
    exact of_pointers some' within' fun p mem => among p (among' p mem)

theorem format {level : UInt16} {left right : PageId} {separator : K} (mem : own left)
    (mem' : own right)
    (ran : ((capacities.innerLayout K).format level left separator right).run bytes =
      .ok ((), bytes')) : capacities.Linked K own bytes' := by
  have two : 2 ≤ capacities.inner := Nat.le_of_succ_le suitable.inner_least
  obtain ⟨-, pointers, -⟩ := Edit.of_run
    ((InnerLayout.format_ends suitable.inner bytes level left separator right two).imp
      (fun _ _ h => h) fun _ _ _ => trivial) ran
  refine of_pointers (by rw [pointers]; simp) (by rw [pointers]; exact two) ?_
  rw [pointers]
  simp [mem, mem']

theorem split_cuts {halves : Halves K pageSize} (h : capacities.Linked K own bytes)
    (above : (Header.of bytes).level ≠ 0)
    (ran : (capacities.innerLayout K).split bytes target = .ok halves) :
    ∃ keep, keep = ((capacities.innerLayout K).pointers bytes).length / 2 ∧ 0 < keep ∧
      (capacities.innerLayout K).pointers halves.left =
        ((capacities.innerLayout K).pointers bytes).take keep ∧
      (capacities.innerLayout K).pointers halves.right =
        ((capacities.innerLayout K).pointers bytes).drop keep ∧
      (Header.of halves.left).level = (Header.of bytes).level ∧
      (Header.of halves.right).level = (Header.of bytes).level := by
  obtain ⟨-, within, -⟩ := h above
  obtain ⟨header, read, more, -, -⟩ := InnerLayout.split_runs ran
  rw [Header.read_eq bytes suitable.inner.header] at read
  cases read
  rw [← InnerLayout.length_pointers (capacities.innerLayout K)] at more
  obtain ⟨halves', keep, ran', half, -, left, left_level, -, right, right_level, -⟩ :=
    InnerLayout.split_eq suitable.inner within suitable.inner target more
  cases ran.symm.trans ran'
  exact ⟨keep, half, by omega, left, right, left_level, right_level⟩

theorem split_inner {halves : Halves K pageSize} (h : capacities.Linked K own bytes)
    (above : (Header.of bytes).level ≠ 0)
    (ran : (capacities.innerLayout K).split bytes target = .ok halves) :
    capacities.Linked K own halves.left ∧ capacities.Linked K own halves.right := by
  obtain ⟨-, within, among⟩ := h above
  obtain ⟨keep, half, positive, left, right, -, -⟩ := h.split_cuts suitable above ran
  refine ⟨of_pointers ?_ ?_ ?_, of_pointers ?_ ?_ ?_⟩
  · rw [left]
    exact List.ne_nil_of_length_pos (by rw [List.length_take]; omega)
  · rw [left, List.length_take]
    omega
  · rw [left]
    exact fun child mem => among child (List.mem_of_mem_take mem)
  · rw [right]
    exact List.ne_nil_of_length_pos (by rw [List.length_drop]; omega)
  · rw [right, List.length_drop]
    omega
  · rw [right]
    exact fun child mem => among child (List.mem_of_mem_drop mem)

theorem split_leaf {halves : Halves K pageSize} (level : (Header.of bytes).level = 0)
    (ran : (capacities.leafLayout K V).split bytes target = .ok halves) :
    capacities.Linked K own halves.left ∧ capacities.Linked K own halves.right := by
  obtain ⟨left, right⟩ := LeafLayout.split_level suitable.leaf.header ran
  exact ⟨of_leaf (left.trans level), of_leaf right⟩

end Capacities.Linked

end PagedIndex
