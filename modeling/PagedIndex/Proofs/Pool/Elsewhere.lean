import PagedIndex.Proofs.Pool.Transparency

/-!
# Operations elsewhere

An operation that asks for no page of a segment leaves what its pages read as, and puts no guard on
them.
-/

namespace PagedIndex

/-- A storage whose pages in the segment are as before, with no guard on them. -/
structure Storage.Apart (segment : SegmentId) (s s' : Storage) : Prop where
  coherent : s'.Coherent .nothing
  content : ∀ page, page.segment = segment → s'.content page = s.content page
  free : ∀ guard ∈ s'.pool.guards, guard.page.segment ≠ segment

namespace Pool

/-- The operation asks for no page of the segment. -/
def Operation.Spares (segment : SegmentId) : Operation → Prop
  | create page | fetch _ page | delete page => page.segment ≠ segment
  | read _ | write _ _ | release _ | flush _ | flushAll _ => True

def Operation.Leaves (operation : Operation) (storage storage' : Storage) : Prop :=
  match operation.perform.run storage with
  | .ok () left | .error (.error _) left => left = storage'
  | .error (.violation _) _ => False

variable {segment : SegmentId} {s s' : Storage}

theorem apart_of_kept (coherent : s'.Coherent .nothing) (kept : s.Kept s')
    (free : ∀ guard ∈ s.pool.guards, guard.page.segment ≠ segment) : s.Apart segment s' :=
  ⟨coherent, fun page _ => by rw [kept.content], by rw [kept.guards]; exact free⟩

theorem apart_of_took {latch : Latch} {page : PageId} {id : GuardId}
    (took : s.Took latch page id s')
    (coherent : s'.Coherent .nothing) (elsewhere : page.segment ≠ segment)
    (content : ∀ other, other ≠ page → s'.content other = s.content other)
    (free : ∀ guard ∈ s.pool.guards, guard.page.segment ≠ segment) : s.Apart segment s' := by
  refine ⟨coherent, fun other here => content other fun same => elsewhere (same ▸ here), ?_⟩
  obtain ⟨frame, guards⟩ := took.guards
  rw [guards]
  exact List.forall_mem_cons.mpr ⟨elsewhere, free⟩

theorem Operation.Makes.apart {operation : Operation} (makes : operation.Makes s s')
    (coherent : s'.Coherent .nothing) (spares : operation.Spares segment)
    (free : ∀ guard ∈ s.pool.guards, guard.page.segment ≠ segment) : s.Apart segment s' := by
  cases makes with
  | create took content =>
    refine apart_of_took took coherent spares (fun other apart => ?_) free
    rw [content, Function.update_of_ne apart]
  | fetch took content =>
    exact apart_of_took took coherent spares (fun other _ => by rw [content]) free
  | read => exact ⟨coherent, fun _ _ => rfl, free⟩
  | @write writer _ _ among content guards =>
    refine ⟨coherent, fun page here => ?_, ?_⟩
    · rw [content, Function.update_of_ne]
      rintro rfl
      exact free writer among here
    · rw [guards]
      exact List.forall_mem_map.mpr fun guard mem => by simpa using free guard mem
  | release content guards =>
    refine ⟨coherent, fun _ _ => by rw [content], fun guard mem => ?_⟩
    rw [guards] at mem
    exact free guard (List.mem_of_mem_filter mem)
  | delete content guards =>
    refine ⟨coherent, fun other here => content other fun same => spares (same ▸ here), ?_⟩
    rw [guards]
    exact free
  | flush kept => exact apart_of_kept coherent kept free
  | flushAll kept => exact apart_of_kept coherent kept free

theorem spares_ends {operation : Operation} (coherent : s.Coherent .nothing)
    (free : ∀ guard ∈ s.pool.guards, guard.page.segment ≠ segment)
    (spares : operation.Spares segment) :
    Ends operation.perform s (fun _ s' => s.Apart segment s')
      (fun failure s' => s.Apart segment s' ∨ ∃ violation, failure = .violation violation) := by
  refine (perform_ends coherent operation).imp ?_ fun _ _ fails => fails.unless_violated ?_
  · rintro _ s' ⟨coherent', makes⟩
    exact makes.apart coherent' spares free
  · exact fun refused => apart_of_kept refused.coherent refused.kept free

theorem Operation.Leaves.of_ok {operation : Operation}
    (ran : operation.perform.run s = .ok () s') : operation.Leaves s s' := by
  rw [Operation.Leaves, ran]

theorem Operation.Leaves.of_error {operation : Operation} {error : Error}
    (ran : operation.perform.run s = .error (.error error) s') : operation.Leaves s s' := by
  rw [Operation.Leaves, ran]

theorem Operation.Leaves.of_ends {operation : Operation} {P : Storage → Prop}
    (leaves : operation.Leaves s s')
    (ends : Ends operation.perform s (fun _ => P)
      (fun failure s' => P s' ∨ ∃ violation, failure = .violation violation)) : P s' := by
  unfold Operation.Leaves at leaves
  cases ran : operation.perform.run s with
  | ok _ left =>
    rw [ran] at leaves
    exact leaves ▸ ends.of_ok ran
  | error failure left =>
    rw [ran] at leaves
    cases failure with
    | violation violation => exact leaves.elim
    | error error =>
      obtain held | ⟨violation, same⟩ := ends.of_error ran
      · exact leaves ▸ held
      · cases same

theorem apart_of_leaves {operation : Operation} (coherent : s.Coherent .nothing)
    (free : ∀ guard ∈ s.pool.guards, guard.page.segment ≠ segment)
    (spares : operation.Spares segment) (leaves : operation.Leaves s s') : s.Apart segment s' :=
  leaves.of_ends (spares_ends coherent free spares)

theorem coherent_of_leaves {operation : Operation} (coherent : s.Coherent .nothing)
    (leaves : operation.Leaves s s') : s'.Coherent .nothing :=
  leaves.of_ends ((perform_ends coherent operation).imp (fun _ _ ended => ended.1)
    fun _ _ fails => fails.unless_violated fun refused => refused.coherent)

end Pool

end PagedIndex
