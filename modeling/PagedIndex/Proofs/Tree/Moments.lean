import Mathlib.Logic.Relation
import PagedIndex.Proofs.Pool.Representation
import PagedIndex.Proofs.Tree.Asking
import PagedIndex.Proofs.Tree.Calls
import PagedIndex.Proofs.Tree.Grasp

/-!
# The moments of a call

A call goes from one request to the next, and lets go of its guards one by one once it has ended.
What each of these steps preserves holds at every moment of the call. Those that lead to its end are
the requests it made.
-/

namespace PagedIndex

open Access

def Ground.common (segment : SegmentId) (limit : Nat) : Ground := ⟨segment, fun _ => False, limit⟩

/-- What is left of a program, and the footing it goes on from. -/
structure Moment (α : Type) where
  rest : Access α
  footing : Footing

def Access.Over {α : Type} : Access α → Prop
  | .ask _ _ => False
  | .done _ | .fail _ => True

/-- The guards that the request under way is to take. -/
def Access.claims {α : Type} : Access α → Nat
  | .ask (.fetch _ _) _ | .ask (.create _) _ => 1
  | .ask (.write _ _) _ | .ask (.release _) _ | .ask .mint _ | .ask (.setRoot _) _ => 0
  | .done _ | .fail _ => 0

/-- A request is answered or fails, or a guard is let go once the program has ended. -/
inductive Moment.Step {α : Type} (segment : SegmentId) (mark : Nat) : Moment α → Moment α → Prop
  | answered {request : Request} {next : request.Reply → Access α} {footing footing' : Footing}
      {reply : request.Reply} (ran : (answer segment request).run footing = .ok reply footing') :
      Step segment mark ⟨.ask request next, footing⟩ ⟨next reply, footing'⟩
  | failed {request : Request} {next : request.Reply → Access α} {footing footing' : Footing}
      {error : Error}
      (ran : (answer segment request).run footing = .error (.error error) footing') :
      Step segment mark ⟨.ask request next, footing⟩ ⟨.fail (.error error), footing'⟩
  | released {rest : Access α} {footing : Footing} {id : GuardId} {storage : Storage}
      (finished : rest.Over) (taken : id ∈ takenSince mark footing.storage.pool)
      (ran : (Pool.release id).run footing.storage = .ok () storage) :
      Step segment mark ⟨rest, footing⟩ ⟨rest, { footing with storage }⟩

abbrev Moment.Leads {α : Type} (segment : SegmentId) (mark : Nat) : Moment α → Moment α → Prop :=
  Relation.ReflTransGen (Moment.Step segment mark)

def Tree.During {K V : Type} [IndexKey K] [FixedWidth V] (tree : Tree K V) (call : Call K V)
    (storage : Storage) (moment : Moment (Answer V)) : Prop :=
  Moment.Leads tree.segment storage.pool.nextGuard
    ⟨tree.program call, ⟨tree.anchor, storage⟩⟩ moment

/-- However its requests are answered or refused, the program is not violated. -/
def Access.Unviolated {α : Type} (ground : Ground) (program : Access α) (scene : Scene) : Prop :=
  Ensures ground (fun _ _ => True) program (fun _ _ => True) scene

def Scene.Apart (scene : Scene) : Prop := (scene.holds.map Hold.page).Nodup

theorem Request.Meets.apart {ground : Ground} {failed : Error → Scene → Prop} {request : Request}
    {next : request.Reply → Scene → Prop} {scene : Scene}
    (h : request.Meets ground failed next scene) (apart : scene.Apart) :
    request.Meets ground (fun error s => failed error s ∧ s.Apart)
      (fun reply s => next reply s ∧ s.Apart) scene := by
  have another {page : PageId} (other : ∀ hold ∈ scene.holds, hold.page ≠ page) :
      page ∉ scene.holds.map Hold.page := by
    intro mem
    obtain ⟨hold, among, same⟩ := List.mem_map.mp mem
    exact other hold among same
  cases request with
  | fetch latch page =>
    obtain ⟨mine, few, other, refused, taken⟩ := h
    exact ⟨mine, few, other, fun fault of => ⟨refused fault of, apart⟩,
      fun guard fresh => ⟨taken guard fresh, List.nodup_cons.mpr ⟨another other, apart⟩⟩⟩
  | create page =>
    obtain ⟨few, other, refused, taken⟩ := h
    exact ⟨few, other, fun fault of => ⟨refused fault of, apart⟩,
      fun guard fresh => ⟨taken guard fresh, List.nodup_cons.mpr ⟨another other, apart⟩⟩⟩
  | write guard bytes =>
    obtain ⟨page, held, written⟩ := h
    exact ⟨page, held, written, apart⟩
  | release guard => exact ⟨h.1, h.2, apart.sublist (List.filter_sublist.map _)⟩
  | mint =>
    simp only [Request.Meets] at h ⊢
    split at h
    · rename_i full; rw [if_pos full]; exact ⟨h, apart⟩
    · rename_i room; rw [if_neg room]; exact ⟨h, apart⟩
  | setRoot root => exact ⟨h, apart⟩

namespace Moment

variable {α : Type} {segment : SegmentId} {mark limit : Nat} {others : List Guard}

/-- The program has few guards, goes on with few, and the guards of others are untouched. -/
def Keeps (segment : SegmentId) (mark limit : Nat) (others : List Guard) (moment : Moment α) :
    Prop :=
  ∃ scene, moment.footing.Shows (.common segment limit) mark others scene ∧
    Within limit moment.rest (fun _ _ => True) scene.holds ∧ scene.holds.length ≤ limit

section Answers

variable {footing : Footing} {scene : Scene}

theorem answer_release (segment : SegmentId) {id : GuardId} {storage : Storage}
    (ran : (Pool.release id).run footing.storage = .ok () storage) :
    (answer segment (.release id)).run footing = .ok () { footing with storage } := by
  change onStorage (Pool.release id) footing = _
  unfold onStorage
  rw [ran]
  rfl

theorem fetch_ends {latch : Latch} {page : PageId} {next : Pinned → List Hold → Prop}
    (shows : footing.Shows (.common segment limit) mark others scene)
    (taken : ∀ guard bytes, scene.Fresh guard →
      next ⟨guard, page, bytes⟩ (⟨guard, page, latch⟩ :: scene.holds)) :
    Ends (pinned page (Pool.fetch latch page)) footing
      (fun reply f => ∃ s, f.Shows (.common segment limit) mark others s ∧
        next reply s.holds)
      (fun failure f => (∃ violation, failure = .violation violation) ∨
        ∃ s, f.Shows (.common segment limit) mark others s ∧ s.holds = scene.holds) := by
  have fetched := Pool.fetch_ends shows.coherent latch page
  by_cases held : ∃ violation s', (Pool.fetch latch page).run footing.storage =
      .error (.violation violation) s'
  · obtain ⟨violation, s', held⟩ := held
    have violated : Ends (Pool.fetch latch page) footing.storage (fun _ _ => False)
        (fun failure _ => failure = .violation violation) := by
      unfold Ends
      rw [held]
    rw [pinned, Ends.bind_iff]
    exact onStorage_ends (violated.imp (fun _ _ h => h.elim) fun _ _ h => .inl ⟨_, h⟩)
  · have settled : Ends (Pool.fetch latch page) footing.storage
        (fun id s' => s'.Coherent .nothing ∧ s'.content = scene.content ∧
          footing.storage.Took latch page id s')
        (fun failure s' => footing.storage.Refused failure s') := by
      refine (fetched.and (Ends.run_eq _ _)).imp ?_ ?_
      · intro id s' ended
        rcases ended with ⟨⟨coherent, content, took⟩, -⟩
        exact ⟨coherent, content.trans shows.content, took⟩
      · intro failure s' ended
        rcases ended with ⟨bars | refused, ran⟩
        · cases bars <;> exact absurd ⟨_, s', ran⟩ held
        · exact refused
    have replied : Ends (pinned page (Pool.fetch latch page)) footing
        (fun reply f => ∃ s, f.Shows (.common segment limit) mark others s ∧ next reply s.holds)
        (fun failure f => ∃ error s, failure = .error error ∧
          f.Shows (.common segment limit) mark others s ∧ s.holds = scene.holds) :=
      pinned_ends (fun id => { scene with holds := ⟨id, page, latch⟩ :: scene.holds }) shows settled
        (fun _ _ => rfl) (fun _ => rfl) (fun _ => rfl) fun id fresh => taken id _ fresh
    refine replied.imp (fun _ _ h => h) ?_
    intro failure f ended
    rcases ended with ⟨error, s, rfl, shows', same⟩
    exact .inr ⟨s, shows', same⟩

theorem answer_ends {request : Request} {next : request.Reply → List Hold → Prop}
    (shows : footing.Shows (.common segment limit) mark others scene)
    (within_limit : request.Within limit next scene.holds) :
    Ends (answer segment request) footing
      (fun reply f => ∃ s, f.Shows (.common segment limit) mark others s ∧
        next reply s.holds)
      (fun failure f => (∃ violation, failure = .violation violation) ∨
        ∃ s, f.Shows (.common segment limit) mark others s ∧ s.holds = scene.holds) := by
  have of_error {failure : Failure} {f : Footing} (ended : ∃ (error : Error) (s : Scene),
      failure = .error error ∧ f.Shows (.common segment limit) mark others s ∧
        s.holds = scene.holds) :
      (∃ violation, failure = .violation violation) ∨
        ∃ s, f.Shows (.common segment limit) mark others s ∧ s.holds = scene.holds := by
    obtain ⟨error, s, rfl, shows', same⟩ := ended
    exact .inr ⟨s, shows', same⟩
  have of_meets (meets : request.Meets (.common segment limit)
      (fun _ s => s.holds = scene.holds) (fun reply s => next reply s.holds) scene) :
      Ends (answer segment request) footing
        (fun reply f => ∃ s, f.Shows (.common segment limit) mark others s ∧
          next reply s.holds)
        (fun failure f => (∃ violation, failure = .violation violation) ∨
          ∃ s, f.Shows (.common segment limit) mark others s ∧
            s.holds = scene.holds) :=
    (Access.answer_ends shows meets).imp (fun _ _ h => h) fun _ _ ended => of_error ended
  cases request with
  | fetch latch page =>
    exact fetch_ends shows fun guard bytes fresh => within_limit.2 guard bytes fresh
  | create page =>
    have created : Ends (pinned page (Pool.create page)) footing
        (fun reply f => ∃ s, f.Shows (.common segment limit) mark others s ∧ next reply s.holds)
        (fun failure f => ∃ error s, failure = .error error ∧
          f.Shows (.common segment limit) mark others s ∧ s.holds = scene.holds) :=
      createPinned_ends shows (fun _ _ => rfl) fun guard fresh => within_limit.2 guard _ fresh
    exact created.imp (fun _ _ h => h) fun _ _ ended => of_error ended
  | write guard bytes =>
    obtain ⟨⟨page, held⟩, goes_on⟩ := within_limit
    exact of_meets ⟨page, held, goes_on⟩
  | release guard => exact of_meets within_limit
  | mint =>
    refine of_meets ?_
    simp only [Request.Meets]
    split
    · trivial
    · exact within_limit _
  | setRoot root => exact of_meets within_limit

end Answers

theorem claims_le {rest : Access α} {post : α → List Hold → Prop} {holds : List Hold}
    (within_limit : Within limit rest post holds) (few : holds.length ≤ limit) :
    holds.length + rest.claims ≤ limit := by
  cases rest with
  | done a => exact few
  | fail failure => exact few
  | ask request next =>
    have within_limit := Within.ask_iff.mp within_limit
    cases request with
    | fetch latch page => exact within_limit.1
    | create page => exact within_limit.1
    | write guard bytes => exact few
    | release guard => exact few
    | mint => exact few
    | setRoot root => exact few

theorem Step.keeps {moment moment' : Moment α} (step : Step segment mark moment moment')
    (keeps : moment.Keeps segment mark limit others) :
    moment'.Keeps segment mark limit others := by
  obtain ⟨scene, shows, within_limit, few⟩ := keeps
  cases step with
  | answered ran =>
    exact (answer_ends shows ((Within.ask_iff.mp within_limit).bounded few)).of_ok ran
  | failed ran =>
    have ends := answer_ends shows ((Within.ask_iff.mp within_limit).bounded few)
    rcases ends.of_error ran with ⟨_, other⟩ | ⟨scene', shows', same⟩
    · cases other
    · exact ⟨scene', shows', Within.error, by rw [same]; exact few⟩
  | @released rest footing id storage finished taken ran =>
    have release : Request.Within limit (.release id)
        (fun _ holds => holds.length ≤ limit) scene.holds :=
      ⟨hold_of_taken shows taken, Nat.le_trans (List.length_filter_le _ _) few⟩
    obtain ⟨scene', shows', few'⟩ :=
      (answer_ends shows release).of_ok (answer_release segment ran)
    refine ⟨scene', shows', ?_, few'⟩
    cases rest with
    | ask => exact finished.elim
    | done a => exact Within.done_iff.mpr trivial
    | fail failure =>
      cases failure with
      | error fault => exact Within.error
      | violation violation => exact Within.violate

/-- What a call preserves from one of its moments to any later one. -/
theorem keeps_later {moment moment' : Moment α}
    (leads : Leads segment mark moment moment')
    (keeps : moment.Keeps segment mark limit others) :
    moment'.Keeps segment mark limit others := by
  induction leads with
  | refl => exact keeps
  | tail _ step ih => exact step.keeps ih

section Fares

variable {ground : Ground}

/-- The call is not violated from here on, and holds no page twice. -/
def Fares (ground : Ground) (mark : Nat) (others : List Guard) (moment : Moment α) : Prop :=
  ∃ scene, moment.footing.Shows ground mark others scene ∧ scene.Apart ∧
    moment.rest.Unviolated ground scene

theorem release_meets {footing : Footing} {scene : Scene}
    (shows : footing.Shows ground mark others scene) {id : GuardId}
    (taken : id ∈ takenSince mark footing.storage.pool) :
    (Request.release id).Meets ground (fun _ _ => True) (fun _ _ => True) scene :=
  ⟨hold_of_taken shows taken, trivial⟩

theorem Step.fares {moment moment' : Moment α} (step : Step ground.segment mark moment moment')
    (fares : moment.Fares ground mark others) : moment'.Fares ground mark others := by
  obtain ⟨scene, shows, apart, ensures⟩ := fares
  cases step with
  | answered ran =>
    have ends := Access.answer_ends shows ((Ensures.ask_iff.mp ensures).apart apart)
    obtain ⟨scene', shows', ensures', apart'⟩ := ends.of_ok ran
    exact ⟨scene', shows', apart', ensures'⟩
  | failed ran =>
    have ends := Access.answer_ends shows ((Ensures.ask_iff.mp ensures).apart apart)
    obtain ⟨error, scene', -, shows', -, apart'⟩ := ends.of_error ran
    exact ⟨scene', shows', apart', Ensures.fail_iff.mpr ⟨_, rfl, trivial⟩⟩
  | @released rest footing id storage finished taken ran =>
    have ends := Access.answer_ends shows ((release_meets shows taken).apart apart)
    obtain ⟨scene', shows', -, apart'⟩ := ends.of_ok (answer_release ground.segment ran)
    refine ⟨scene', shows', apart', ?_⟩
    cases rest with
    | ask => exact finished.elim
    | done a => exact Ensures.done_iff.mpr trivial
    | fail failure =>
      obtain ⟨error, rfl, -⟩ := Ensures.fail_iff.mp ensures
      exact Ensures.fail_iff.mpr ⟨error, rfl, trivial⟩

theorem Fares.later {moment moment' : Moment α} (fares : moment.Fares ground mark others)
    (leads : Leads ground.segment mark moment moment') : moment'.Fares ground mark others := by
  induction leads with
  | refl => exact fares
  | tail _ step ih => exact step.fares ih

end Fares

theorem run_leads (segment : SegmentId) (mark : Nat) (program : Access α) (footing : Footing) :
    Ends (program.run segment) footing
      (fun a f => Leads segment mark ⟨program, footing⟩ ⟨.done a, f⟩)
      (fun failure f => ∀ error, failure = .error error →
        Leads segment mark ⟨program, footing⟩ ⟨.fail failure, f⟩) := by
  induction program generalizing footing with
  | done a => exact .refl
  | fail failure => exact fun _ _ => .refl
  | ask request next ih =>
    rw [run, Ends.bind_iff]
    refine (Ends.run_eq (answer segment request) footing).imp ?_ ?_
    · intro reply f ran
      refine (ih reply f).imp ?_ ?_
      · exact fun a f' leads => .head (.answered ran) leads
      · exact fun failure f' leads error same => .head (.answered ran) (leads error same)
    · rintro _ f ran error rfl
      exact .single (.failed ran)

theorem releases_lead (segment : SegmentId) {rest : Access α} {footing : Footing} {own : List Guard}
    (finished : rest.Over) (coherent : footing.storage.Coherent .nothing)
    (guards : footing.storage.pool.guards = own ++ others)
    (since : ∀ guard ∈ own, mark ≤ guard.id.index)
    (before : ∀ guard ∈ others, guard.id.index < mark) :
    Ends ((own.map (·.id)).forM fun id => onStorage (Pool.release id)) footing
      (fun _ f => Leads segment mark ⟨rest, footing⟩ ⟨rest, f⟩ ∧
        f.storage.pool.guards = others)
      (fun _ _ => False) := by
  induction own generalizing footing with
  | nil => exact ⟨.refl, guards⟩
  | cons guard own ih =>
    change Ends (onStorage (Pool.release guard.id) >>= fun _ =>
      (own.map (·.id)).forM fun id => onStorage (Pool.release id)) footing _ _
    rw [Ends.bind_iff]
    refine onStorage_ends (((release_ends coherent guards).and (Ends.run_eq _ _)).imp ?_
      fun _ _ h => h.1)
    intro _ s' ended
    rcases ended with ⟨⟨coherent', -, guards'⟩, ran⟩
    have taken : guard.id ∈ takenSince mark footing.storage.pool := by
      rw [takenSince_eq guards since before]
      exact List.mem_cons_self
    refine (ih coherent' guards' fun guard mem => since guard (List.mem_cons_of_mem _ mem)).imp ?_
      fun _ _ h => h
    exact fun _ f ended => ⟨.head (.released finished taken ran) ended.1, ended.2⟩

theorem releaseSince_ends (footing : Footing) :
    Ends (releaseSince mark) footing (fun _ _ => True)
      (fun failure _ => ∃ violation, failure = .violation violation) := by
  have release (id : GuardId) (s : Storage) : Ends (Pool.release id) s (fun _ _ => True)
      (fun failure _ => ∃ violation, failure = .violation violation) := by
    simp only [Pool.release, Ends.bind_iff, StorageM.mapPool_iff]
    refine (Pool.heldGuard_ends id s).imp ?_ fun _ _ ended => ⟨_, ended.2.1⟩
    intro guard t _
    have given_back (t : Storage) : Ends (Pool.unpin guard.frame false) t (fun _ _ => True)
        (fun failure _ => ∃ violation, failure = .violation violation) := by
      change Ends (StorageM.pool >>= _) t _ _
      simp only [Ends.bind_iff, StorageM.pool_iff]
      split
      · exact ⟨_, rfl⟩
      · simp only [StorageM.mapPool_iff, Ends.bind_iff]
        split <;> trivial
    cases guard.dirty with
    | false => exact given_back _
    | true => exact given_back _
  rw [releaseSince, Ends.bind_iff, Ends.get_iff]
  exact Ends.forM_keeps (fun _ => True) trivial fun id _ f _ =>
    onStorage_ends (release id f.storage)

/-- A call that answers, well or with an error, ends at one of its moments, without guards. -/
theorem perform_leads {program : Access α} {footing : Footing}
    (keeps : Keeps segment footing.storage.pool.nextGuard limit footing.storage.pool.guards
      ⟨program, footing⟩) :
    Ends (program.perform segment) footing
      (fun a f => Leads segment footing.storage.pool.nextGuard ⟨program, footing⟩ ⟨.done a, f⟩ ∧
        f.storage.pool.guards = footing.storage.pool.guards)
      (fun failure f => ∀ error, failure = .error error →
        Leads segment footing.storage.pool.nextGuard ⟨program, footing⟩ ⟨.fail failure, f⟩ ∧
        f.storage.pool.guards = footing.storage.pool.guards) := by
  have cleaned (rest : Access α) {f : Footing} (finished : rest.Over)
      (leads : Leads segment footing.storage.pool.nextGuard ⟨program, footing⟩ ⟨rest, f⟩) :
      Ends (releaseSince footing.storage.pool.nextGuard) f
        (fun _ f' => Leads segment footing.storage.pool.nextGuard ⟨program, footing⟩ ⟨rest, f'⟩ ∧
          f'.storage.pool.guards = footing.storage.pool.guards)
        (fun _ _ => False) := by
    obtain ⟨scene, shows, -, -⟩ := keeps_later leads keeps
    obtain ⟨own, guards, -, since⟩ := shows.guards
    rw [releaseSince, Ends.bind_iff, Ends.get_iff, takenSince_eq guards since shows.before]
    exact (releases_lead segment finished shows.coherent guards since shows.before).imp
      (fun _ f' ended => ⟨leads.trans ended.1, ended.2⟩) fun _ _ h => h
  rw [perform, Ends.bind_iff]
  refine Ends.tryFinally_of ((run_leads segment footing.storage.pool.nextGuard program
    footing).imp ?_ ?_)
  · exact fun a f leads => (cleaned (.done a) trivial leads).imp (fun _ _ ended => ended)
      fun _ _ h => h.elim
  · intro failure f leads
    cases failure with
    | error error =>
      refine (cleaned (.fail (.error error)) trivial (leads error rfl)).imp ?_ fun _ _ h => h.elim
      exact fun _ f' ended _ _ => ended
    | violation violation =>
      refine (releaseSince_ends f).imp (fun _ _ _ error same => by cases same) ?_
      rintro _ f' ⟨_, rfl⟩ error same
      cases same

end Moment

namespace Tree

variable {K V : Type} [IndexKey K] [FixedWidth V]

theorem start_keeps (tree : Tree K V) {storage : Storage} (coherent : storage.Coherent .nothing)
    (call : Call K V) :
    Moment.Keeps tree.segment storage.pool.nextGuard call.guardLimit storage.pool.guards
      ⟨tree.program call, ⟨tree.anchor, storage⟩⟩ :=
  ⟨⟨tree.anchor, storage.content, []⟩,
    ⟨rfl, coherent, rfl, ⟨[], rfl, rfl, nofun⟩, coherent.pool.guard_numbers, Nat.le_refl _,
      fun _ _ => not_false⟩,
    tree.program_within call, Nat.zero_le _⟩

theorem during_of_call {tree : Tree K V} {storage : Storage} (coherent : storage.Coherent .nothing)
    {call : Call K V} {reached : Reached K V} (called : tree.call call storage = .ok reached) :
    (∃ rest : Access (Answer V), rest.Over ∧
      tree.During call storage ⟨rest, ⟨reached.tree.anchor, reached.storage⟩⟩) ∧
      reached.storage.pool.guards = storage.pool.guards := by
  have ends := ends_of_call called (Moment.perform_leads (start_keeps tree coherent call))
  cases outcome : reached.outcome with
  | ok answer =>
    rw [outcome] at ends
    exact ⟨⟨.done answer, trivial, ends.1⟩, ends.2⟩
  | error error =>
    rw [outcome] at ends
    exact ⟨⟨.fail (.error error), trivial, (ends error rfl).1⟩, (ends error rfl).2⟩

theorem fares_during {tree : Tree K V} {storage : Storage} {mine : PageId → Prop} {limit : Nat}
    (coherent : storage.Coherent .nothing)
    (free : ∀ guard ∈ storage.pool.guards, ¬ mine guard.page) {call : Call K V}
    (unviolated : (tree.program call).Unviolated ⟨tree.segment, mine, limit⟩
      ⟨tree.anchor, storage.content, []⟩) {moment : Moment (Answer V)}
    (during : tree.During call storage moment) :
    moment.Fares ⟨tree.segment, mine, limit⟩ storage.pool.nextGuard storage.pool.guards :=
  Moment.Fares.later ⟨⟨tree.anchor, storage.content, []⟩,
    ⟨rfl, coherent, rfl, ⟨[], rfl, rfl, nofun⟩, coherent.pool.guard_numbers, Nat.le_refl _, free⟩,
    List.nodup_nil, unviolated⟩ during

theorem coherent_during {tree : Tree K V} {storage : Storage} (coherent : storage.Coherent .nothing)
    {call : Call K V} {moment : Moment (Answer V)} (during : tree.During call storage moment) :
    moment.footing.storage.Coherent .nothing := by
  obtain ⟨scene, shows, -⟩ := Moment.keeps_later during (start_keeps tree coherent call)
  exact shows.coherent

end Tree

end PagedIndex
