import PagedIndex.Proofs.Pool.Availability
import PagedIndex.Proofs.Tree.Moments

/-!
# Calls whose pages can be read

A storage fault that a call ends with is that of a request which was refused. A call that only looks
asks for pages and lets go of them, so it has an answer as soon as every page it asks for is had.
That is so where these pages are in frames or on disk, the disk is steady, and frames without pins
are as many as the call holds at a time.
-/

namespace PagedIndex

open Access

/-- Nothing that was in a frame or on disk is gone, and the frames are as many. -/
structure Storage.Endures (s s' : Storage) : Prop where
  lasts : s.Lasts (fun _ => True) (fun _ => False) s'
  size : s'.pool.size = s.pool.size

namespace Storage.Endures

variable {s s' s'' : Storage} {came : PageId → Prop}

theorem of_lasts (lasts : s.Lasts came (fun _ => False) s')
    (size : s'.pool.size = s.pool.size) : s.Endures s' :=
  ⟨lasts.imp (fun _ _ => trivial) fun _ => id, size⟩

theorem refl (backed : s.Backed) : s.Endures s := of_lasts (.refl backed) rfl

theorem trans (h : s.Endures s') (h' : s'.Endures s'') : s.Endures s'' :=
  ⟨h.lasts.trans h'.lasts, h'.size.trans h.size⟩

end Storage.Endures

namespace Access

variable {footing : Footing}

theorem pinned_took {acquire : StorageM GuardId} {latch : Latch} {page : PageId}
    {done : Storage → Prop} {failed : Failure → Storage → Prop}
    (taken : Ends acquire footing.storage
      (fun id s' => s'.Coherent .nothing ∧ footing.storage.Took latch page id s' ∧ done s')
      failed) :
    Ends (pinned page acquire) footing
      (fun reply f => ∃ s', f = { footing with storage := s' } ∧ s'.Coherent .nothing ∧
        footing.storage.Took latch page ⟨footing.storage.pool.nextGuard⟩ s' ∧ done s' ∧
        reply = ⟨⟨footing.storage.pool.nextGuard⟩, page, s'.content page⟩)
      (fun failure f => ∃ s', f = { footing with storage := s' } ∧ failed failure s') := by
  rw [pinned, Ends.bind_iff]
  refine onStorage_ends (taken.imp ?_ fun _ s' refused => ⟨s', rfl, refused⟩)
  rintro id s' ⟨coherent, took, did⟩
  obtain rfl := took.fresh
  rw [Ends.bind_iff]
  refine onStorage_ends ((Pool.bytes_of_took coherent took).imp ?_ fun _ _ => False.elim)
  rintro bytes t ⟨rfl, rfl⟩
  exact ⟨t, rfl, coherent, took, did, rfl⟩

theorem mintFrom_storage (segment : SegmentId) (footing : Footing) :
    Ends (mintFrom segment) footing (fun _ f => f.storage = footing.storage)
      (fun _ f => f.storage = footing.storage) := by
  rw [mintFrom, Ends.bind_iff, Ends.get_iff]
  by_cases full : maxPageNo < footing.anchor.nextPageNo
  · simp only [if_pos full]
    rfl
  · simp only [if_neg full]
    rfl

theorem answer_endures (coherent : footing.storage.Coherent .nothing)
    (backed : footing.storage.Backed) (segment : SegmentId) (request : Request) :
    Ends (answer segment request) footing (fun _ f => footing.storage.Endures f.storage)
      (fun failure f => ∀ error, failure = .error error → footing.storage.Endures f.storage) := by
  have still : footing.storage.Endures footing.storage := .refl backed
  cases request with
  | fetch latch page =>
    have fetched := (Pool.fetch_ends coherent latch page).and
      (Pool.fetch_lasts coherent backed latch page)
    refine (pinned_took (fetched.imp (fun _ _ ended => ⟨ended.1.1, ended.1.2.2, ended.2⟩)
      fun _ _ ended => ended)).imp ?_ ?_
    · rintro _ _ ⟨s', rfl, -, took, lasts, -⟩
      exact .of_lasts lasts took.size
    · rintro failure _ ⟨s', rfl, bars | refused, lasts, -⟩ error rfl
      · cases bars
      · exact .of_lasts lasts refused.kept.size
  | create page =>
    have created := (Pool.create_ends coherent page).and
      (Pool.create_lasts coherent backed page)
    refine (pinned_took (created.imp (fun _ _ ended => ⟨ended.1.1, ended.1.2.2.1, ended.2⟩)
      fun _ _ ended => ended)).imp ?_ ?_
    · rintro _ _ ⟨s', rfl, -, took, lasts, -⟩
      exact .of_lasts lasts took.size
    · rintro failure _ ⟨s', rfl, refused, lasts, -⟩ _ _
      exact .of_lasts lasts refused.kept.size
  | write id bytes =>
    refine onStorage_ends (((Pool.write_ends coherent id bytes).and
      (Pool.write_lasts backed id bytes)).imp ?_ ?_)
    · rintro _ s' ⟨⟨-, -, -, -, size⟩, stays⟩
      exact .of_lasts stays size
    · rintro _ _ ⟨-, rfl⟩ _ _
      exact still
  | release id =>
    refine onStorage_ends (((Pool.release_ends coherent id).and
      (Pool.release_lasts coherent backed id)).imp ?_ ?_)
    · rintro _ s' ⟨⟨-, -, -, -, -, size, -⟩, stays, -⟩
      exact .of_lasts stays size
    · rintro _ _ ⟨-, rfl⟩ _ _
      exact still
  | mint =>
    refine (mintFrom_storage segment footing).imp ?_ ?_
    · rintro _ f same
      exact same ▸ still
    · rintro _ f same _ _
      exact same ▸ still
  | setRoot root => exact still

/-- Where a page can be had and some frame has no pins, a fetch on a steady disk is not refused. -/
theorem fetch_not_refused (coherent : footing.storage.Coherent .nothing)
    (backed : footing.storage.Backed) (latch : Latch) {page : PageId}
    (available : footing.storage.Available page) (steady : footing.storage.disk.Steady)
    (idle : ¬ footing.storage.pool.Exhausted) :
    Ends (pinned page (Pool.fetch latch page)) footing (fun _ _ => True)
      (fun failure _ => ∀ fault, failure ≠ .error (.storage fault)) := by
  refine (pinned_took (Pool.fetch_of_available coherent backed latch available)).imp
    (fun _ _ _ => trivial) ?_
  rintro failure _ ⟨s', rfl, bars | ⟨⟨unsteady, -⟩ | ⟨-, exhausted⟩, -⟩⟩ fault rfl
  · cases bars
  · exact unsteady steady
  · exact idle exhausted

theorem release_not_refused (coherent : footing.storage.Coherent .nothing) (segment : SegmentId)
    (id : GuardId) : Ends (answer segment (.release id)) footing (fun _ _ => True)
      (fun failure _ => ∀ fault, failure ≠ .error (.storage fault)) := by
  refine onStorage_ends ((Pool.release_ends coherent id).imp (fun _ _ _ => trivial) ?_)
  rintro _ _ ⟨-, rfl, -⟩ fault same
  cases same

end Access

namespace Moment

variable {α : Type} {segment : SegmentId} {mark limit : Nat} {others : List Guard}
  {moment moment' : Moment α}

theorem Step.endures (step : Step segment mark moment moment')
    (coherent : moment.footing.storage.Coherent .nothing)
    (backed : moment.footing.storage.Backed) :
    moment.footing.storage.Endures moment'.footing.storage := by
  cases step with
  | answered ran => exact (answer_endures coherent backed segment _).of_ok ran
  | failed ran => exact (answer_endures coherent backed segment _).of_error ran _ rfl
  | @released rest footing id storage finished taken ran =>
    exact (answer_endures coherent backed segment (.release id)).of_ok (answer_release segment ran)

/-- From one moment of a call to any later one nothing is lost. -/
theorem endures_later (leads : Leads segment mark moment moment')
    (keeps : moment.Keeps segment mark limit others)
    (backed : moment.footing.storage.Backed) :
    moment.footing.storage.Endures moment'.footing.storage := by
  induction leads with
  | refl => exact .refl backed
  | tail leads step ih =>
    obtain ⟨scene, shows, -⟩ := keeps_later leads keeps
    exact ih.trans (step.endures shows.coherent ih.lasts.backed)

/-- What is left of a program keeps to its requests, until one of them is refused. -/
theorem asks_later {allowed : Request → Prop} (leads : Leads segment mark moment moment')
    (asks : moment.rest.Asks allowed) : moment'.rest.Asks allowed ∨
      ∃ error, moment'.rest = .fail (.error error) ∧ ∃ request next footing footing',
        allowed request ∧ Leads segment mark moment ⟨.ask request next, footing⟩ ∧
        (answer segment request).run footing = .error (.error error) footing' := by
  induction leads with
  | refl => exact .inl asks
  | tail leads step ih =>
    cases step with
    | answered ran =>
      rcases ih with asks | ⟨error, same, -⟩
      · exact .inl ((Asks.ask_iff.mp asks).2 _)
      · cases same
    | failed ran =>
      rcases ih with asks | ⟨error, same, -⟩
      · exact .inr ⟨_, rfl, _, _, _, _, (Asks.ask_iff.mp asks).1, leads, ran⟩
      · cases same
    | released finished taken ran => exact ih

end Moment

namespace Tree

variable {K V : Type} [IndexKey K] [FixedWidth V] {tree : Tree K V} {call : Call K V}
  {storage : Storage} {reached : Reached K V}

/-- At some moment of the call the request is refused with the fault. -/
def Refuses (tree : Tree K V) (call : Call K V) (storage : Storage) (request : Request)
    (fault : StorageFault) : Prop :=
  ∃ next footing footing', tree.During call storage ⟨.ask request next, footing⟩ ∧
    (answer tree.segment request).run footing = .error (.error (.storage fault)) footing'

/-- Every page that the call asks for is had. -/
def Readable (tree : Tree K V) (call : Call K V) (storage : Storage) : Prop :=
  ∀ latch page fault, ¬ tree.Refuses call storage (.fetch latch page) fault

theorem endures_of_call (coherent : storage.Coherent .nothing) (backed : storage.Backed)
    (called : tree.call call storage = .ok reached) : storage.Endures reached.storage := by
  obtain ⟨⟨rest, -, during⟩, -⟩ := during_of_call coherent called
  exact Moment.endures_later during (start_keeps tree coherent call) backed

/-- A call makes no storage fault up. -/
theorem refused_of_fault (coherent : storage.Coherent .nothing)
    (called : tree.call call storage = .ok reached) {fault : StorageFault}
    (failed : reached.outcome = .error (.storage fault)) :
    ∃ request, call.Requires request ∧ tree.Refuses call storage request fault := by
  have ends := ends_of_call called (Moment.perform_leads (start_keeps tree coherent call))
  rw [failed] at ends
  obtain ⟨leads, -⟩ := ends _ rfl
  rcases Moment.asks_later leads (tree.program_asks call) with asks | refused
  · exact absurd rfl (Asks.fail_iff.mp asks fault)
  · obtain ⟨error, same, request, next, footing, footing', allowed, during, ran⟩ := refused
    cases same
    exact ⟨request, allowed, next, footing, footing', during, ran⟩

/-- A call that only looks ends with a fault because it could not have a page. -/
theorem unread_of_fault (coherent : storage.Coherent .nothing)
    (looks : call.Requires = Request.Looks) (called : tree.call call storage = .ok reached)
    {fault : StorageFault} (failed : reached.outcome = .error (.storage fault)) :
    ∃ latch page, tree.Refuses call storage (.fetch latch page) fault := by
  obtain ⟨request, required, refused⟩ := refused_of_fault coherent called failed
  rw [looks] at required
  cases request with
  | fetch latch page => exact ⟨latch, page, refused⟩
  | release id =>
    obtain ⟨next, footing, footing', during, ran⟩ := refused
    exact absurd rfl
      ((release_not_refused (coherent_during coherent during) tree.segment id).of_error ran fault)
  | create page => exact required.elim
  | write id bytes => exact required.elim
  | mint => exact required.elim
  | setRoot root => exact required.elim

/-- A page of the call's own can be read wherever it is, with frames enough on a steady disk. -/
theorem readable_of_available {mine : PageId → Prop} {limit : Nat}
    (coherent : storage.Coherent .nothing) (backed : storage.Backed)
    (free : ∀ guard ∈ storage.pool.guards, ¬ mine guard.page)
    (unviolated : (tree.program call).Unviolated ⟨tree.segment, mine, limit⟩
      ⟨tree.anchor, storage.content, []⟩)
    (available : ∀ page, mine page → storage.Available page) (steady : storage.disk.Steady)
    (frames : storage.pool.pinnedFrameCount + call.guardLimit ≤ storage.pool.size) :
    tree.Readable call storage := by
  rintro latch page fault ⟨next, footing, footing', during, ran⟩
  have keeps := start_keeps tree coherent call
  have endures := Moment.endures_later during keeps backed
  obtain ⟨scene, shows, within_limit, -⟩ := Moment.keeps_later during keeps
  obtain ⟨scene', -, -, ensures⟩ := fares_during coherent free unviolated during
  obtain ⟨own, guards, held, -⟩ := shows.guards
  have few : own.length < call.guardLimit := by
    rw [← List.length_map (f := Guard.hold), held]
    exact (Within.ask_iff.mp within_limit).1
  have idle : ¬ footing.storage.pool.Exhausted := fun all => by
    have full := Pool.size_le_of_exhausted coherent.pool shows.coherent.pool guards endures.size all
    omega
  have there : footing.storage.Available page :=
    (endures.lasts.available page (available page (Ensures.ask_iff.mp ensures).1)).resolve_left id
  exact absurd rfl ((fetch_not_refused shows.coherent endures.lasts.backed latch there
    (endures.lasts.disk.steady steady) idle).of_error ran fault)

/-- The call is not violated, and it ends with a right answer or with the fault of a request that
was refused. -/
def Yields (tree : Tree K V) (call : Call K V) (storage : Storage) (right : Answer V → Prop) :
    Prop :=
  ∃ reached, tree.call call storage = .ok reached ∧
    match reached.outcome with
    | .ok answer => right answer
    | .error error => ∃ fault, error = .storage fault ∧
        ∃ request, tree.Refuses call storage request fault

namespace Yields

variable {right right' : Answer V → Prop}

theorem of_ends (coherent : storage.Coherent .nothing)
    (called : tree.call call storage = .ok reached)
    (ended : match reached.outcome with
      | .ok answer => right answer
      | .error error => ∃ fault, error = .storage fault) : tree.Yields call storage right := by
  refine ⟨reached, called, ?_⟩
  cases outcome : reached.outcome with
  | ok answer => rw [outcome] at ended; exact ended
  | error error =>
    rw [outcome] at ended
    obtain ⟨fault, rfl⟩ := ended
    obtain ⟨request, -, refused⟩ := refused_of_fault coherent called outcome
    exact ⟨fault, rfl, request, refused⟩

theorem imp (h : tree.Yields call storage right) (hr : ∀ answer, right answer → right' answer) :
    tree.Yields call storage right' := by
  obtain ⟨reached, ran, ended⟩ := h
  refine ⟨reached, ran, ?_⟩
  cases outcome : reached.outcome with
  | ok answer => rw [outcome] at ended; exact hr answer ended
  | error error => rw [outcome] at ended; exact ended

end Yields

end Tree

end PagedIndex
