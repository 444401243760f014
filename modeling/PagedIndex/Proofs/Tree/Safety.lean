import PagedIndex.Proofs.Node.Arithmetic
import PagedIndex.Proofs.Tree.Adoption
import PagedIndex.Proofs.Tree.Moments

/-!
# No call is violated

A call on a tree in use always returns. At each of its moments it has guards on distinct pages and
is not about to take a second one on any of them, so it never waits for itself. What the node
operations subtract and count on the way stays in range.
-/

namespace PagedIndex

open Access

def Access.wanted {α : Type} : Access α → Option PageId
  | .ask (.fetch _ page) _ | .ask (.create page) _ => some page
  | .ask (.write _ _) _ | .ask (.release _) _ | .ask .mint _ | .ask (.setRoot _) _ => none
  | .done _ | .fail _ => none

namespace Moment

variable {α : Type} {ground : Ground} {mark : Nat} {others : List Guard}

/-- The call has guards on distinct pages beside the guards of others, and is not about to take
another one on any of them. -/
def Distinct (others : List Guard) (moment : Moment α) : Prop :=
  ∃ own, moment.footing.storage.pool.guards = own ++ others ∧ (own.map (·.page)).Nodup ∧
    ∀ guard ∈ own, moment.rest.wanted ≠ some guard.page

def Breaks (segment : SegmentId) (request : Request) (footing : Footing) : Prop :=
  ∃ violation footing', (answer segment request).run footing =
    .error (.violation violation) footing'

/-- The call is violated: by a node operation, by the request under way or, once it has ended, by
letting a guard go. -/
def Violated (segment : SegmentId) (mark : Nat) (moment : Moment α) : Prop :=
  match moment.rest with
  | .ask request _ => Breaks segment request moment.footing
  | .fail (.violation _) => True
  | .fail (.error _) | .done _ => ∃ id ∈ takenSince mark moment.footing.storage.pool,
      Breaks segment (.release id) moment.footing

section Shows

variable {footing : Footing} {scene : Scene}

theorem not_breaks {failed : Error → Scene → Prop} {request : Request}
    {next : request.Reply → Scene → Prop} (shows : footing.Shows ground mark others scene)
    (meets : request.Meets ground failed next scene) : ¬ Breaks ground.segment request footing := by
  rintro ⟨violation, footing', ran⟩
  obtain ⟨error, -, same, -⟩ := (Access.answer_ends shows meets).of_error ran
  cases same

end Shows

theorem Fares.distinct {moment : Moment α} (fares : moment.Fares ground mark others) :
    moment.Distinct others := by
  obtain ⟨scene, shows, apart, ensures⟩ := fares
  obtain ⟨own, guards, held, -⟩ := shows.guards
  have pages : own.map (·.page) = scene.holds.map Hold.page := by
    rw [← held, List.map_map]
    rfl
  refine ⟨own, guards, pages ▸ apart, fun guard mem wants => ?_⟩
  have holds : guard.hold ∈ scene.holds := held ▸ List.mem_map_of_mem mem
  obtain ⟨rest, footing⟩ := moment
  cases rest with
  | done a => cases wants
  | fail failure => cases wants
  | ask request next =>
    have meets := Ensures.ask_iff.mp ensures
    cases request with
    | fetch latch page => exact meets.2.2.1 _ holds (Option.some.inj wants).symm
    | create page => exact meets.2.1 _ holds (Option.some.inj wants).symm
    | write | release | mint | setRoot => cases wants

theorem Fares.not_violated {moment : Moment α} (fares : moment.Fares ground mark others) :
    ¬ moment.Violated ground.segment mark := by
  obtain ⟨scene, shows, -, ensures⟩ := fares
  obtain ⟨rest, footing⟩ := moment
  cases rest with
  | ask request next => exact not_breaks shows (Ensures.ask_iff.mp ensures)
  | done a =>
    rintro ⟨id, taken, breaks⟩
    exact not_breaks shows (release_meets shows taken) breaks
  | fail failure =>
    obtain ⟨error, rfl, -⟩ := Ensures.fail_iff.mp ensures
    rintro ⟨id, taken, breaks⟩
    exact not_breaks shows (release_meets shows taken) breaks

end Moment

namespace Session

variable {K V : Type} [IndexKey K] [FixedWidth V]

open PagedIndex.Tree

theorem Invariant.program_unviolated {session : Session K V} (h : session.Invariant)
    {call : Call K V} (admitted : session.Admits call) :
    (session.tree.program call).Unviolated
      ⟨session.tree.segment, (·.segment = session.tree.segment), 3⟩
      ⟨session.tree.anchor, session.storage.content, []⟩ := by
  obtain ⟨held, order, -⟩ := h.holds
  have of_look (look : looks call = true) :
      (session.tree.program call).Unviolated
        ⟨session.tree.segment, (·.segment = session.tree.segment), 3⟩
        ⟨session.tree.anchor, session.storage.content, []⟩ := by
    obtain ⟨shape, held, reads, -⟩ := h.reads
    exact (look_ensures h.suitable (Nat.le_of_ble_eq_true rfl) (fun root anchored page reaches =>
      (h.owned_minted ⟨root, anchored, reaches⟩).1) reads look).imp
        (fun _ _ _ => trivial) fun _ _ _ => trivial
  cases call with
  | insert key value =>
    refine Ensures.andThen (insert_ensures h.suitable rfl (Nat.le_refl 3) (fun _ mine => mine)
      (fun _ _ _ => trivial) order admitted (Nat.le_refl _)) fun _ _ _ => ?_
    exact Ensures.pure_iff.mpr trivial
  | erase key =>
    refine Ensures.andThen (erase_ensures h.suitable (Nat.le_refl 3) (fun _ mine => mine)
      (fun _ _ => trivial) order) fun _ _ _ => ?_
    exact Ensures.pure_iff.mpr trivial
  | lookup | height | length | isEmpty | validate => exact of_look rfl

theorem Invariant.fares {session : Session K V} (h : session.Invariant) {call : Call K V}
    (admitted : session.Admits call) {moment : Moment (Answer V)}
    (during : session.tree.During call session.storage moment) :
    moment.Fares ⟨session.tree.segment, (·.segment = session.tree.segment), 3⟩
      session.storage.pool.nextGuard session.storage.pool.guards :=
  fares_during h.coherent h.free (h.program_unviolated admitted) during

/-- A call on a tree in use returns, whatever the storage refuses before it and during it. At no
moment of it is a contract broken, at each the pages it has guards on are distinct and the next one
it asks for is another, and no node operation subtracts below zero or writes a count that does not
fit. -/
theorem never_violated {session : Session K V} (reachable : Reachable session) (call : Call K V)
    (admitted : session.Admits call) :
    (∃ reached, session.tree.call call session.storage = .ok reached) ∧
    (∀ moment, session.tree.During call session.storage moment →
      ¬ moment.Violated session.tree.segment session.storage.pool.nextGuard ∧
        moment.Distinct session.storage.pool.guards) ∧
    session.tree.capacities.Exact K V := by
  have h := reachable_invariant reachable
  refine ⟨?_, fun moment during => ?_, h.suitable.exact⟩
  · obtain ⟨reached, called, -⟩ := h.call_settles admitted
    exact ⟨reached, called⟩
  · have fares := h.fares admitted during
    exact ⟨fares.not_violated, fares.distinct⟩

/-- With just the frames it takes, a full leaf below the root is split. -/
theorem split_never_violated : ∃ session reached rest, insertThree 3 = some session ∧
    Reachable session ∧ session.Admits (.insert ⟨4⟩ ⟨40⟩) ∧
    session.tree.call (.insert ⟨4⟩ ⟨40⟩) session.storage = .ok reached ∧
    session.tree.During (.insert ⟨4⟩ ⟨40⟩) session.storage
      ⟨rest, ⟨reached.tree.anchor, reached.storage⟩⟩ ∧
    ¬ Moment.Violated session.tree.segment session.storage.pool.nextGuard
      ⟨rest, ⟨reached.tree.anchor, reached.storage⟩⟩ ∧
    Moment.Distinct session.storage.pool.guards
      ⟨rest, ⟨reached.tree.anchor, reached.storage⟩⟩ := by
  have checked : (insertThree 3).any (fun session => session.Admits (.insert ⟨4⟩ ⟨40⟩)) = true := by
    decide +kernel
  obtain ⟨session, made, held⟩ := (Option.any_eq_true _ _).mp checked
  have admitted := of_decide_eq_true held
  have reachable := reachable_insertThree made
  obtain ⟨⟨reached, called⟩, safe, -⟩ := never_violated reachable (.insert ⟨4⟩ ⟨40⟩) admitted
  obtain ⟨⟨rest, -, during⟩, -⟩ :=
    during_of_call (reachable_invariant reachable).coherent called
  exact ⟨session, reached, rest, made, reachable, admitted, called, during, safe _ during⟩

end Session

end PagedIndex
