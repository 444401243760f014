import PagedIndex.Proofs.Tree.Scene
import PagedIndex.Tree.Call

/-!
# Programs run as they ensure

What a program ensures over the scene holds when it runs on a pool. A call of a tree lets go of
every guard it took, so beside its result only the anchor and the contents have changed.
-/

namespace PagedIndex

def Guard.hold (guard : Guard) : Hold := ⟨guard.id, guard.page, guard.latch⟩

/-- The scene of a program that took its guards since the numbering stood at `mark`, when others
had theirs. -/
structure Footing.Shows (footing : Footing) (ground : Ground) (mark : Nat) (others : List Guard)
    (scene : Scene) : Prop where
  anchor : footing.anchor = scene.anchor
  coherent : footing.storage.Coherent .nothing
  content : footing.storage.content = scene.content
  guards : ∃ own, footing.storage.pool.guards = own ++ others ∧ own.map Guard.hold = scene.holds ∧
    ∀ guard ∈ own, mark ≤ guard.id.index
  before : ∀ guard ∈ others, guard.id.index < mark
  marked : mark ≤ footing.storage.pool.nextGuard
  apart : ∀ guard ∈ others, ¬ ground.mine guard.page

namespace Access

variable {α : Type} {ground : Ground} {mark : Nat} {others : List Guard} {scene : Scene}
  {footing : Footing}

theorem onStorage_ends {action : StorageM α} {done : α → Footing → Prop}
    {failed : Failure → Footing → Prop}
    (h : Ends action footing.storage (fun a storage => done a { footing with storage })
      (fun failure storage => failed failure { footing with storage })) :
    Ends (onStorage action) footing done failed := by
  simp only [Ends, onStorage, EStateM.run] at *
  cases run : action footing.storage <;> simp only [run] at h ⊢ <;> exact h

theorem fresh_of_next {pool : Pool} (h : pool.Invariant .nothing) {own : List Guard}
    (guards : pool.guards = own ++ others) (holds : own.map Guard.hold = scene.holds) :
    scene.Fresh ⟨pool.nextGuard⟩ := by
  intro hold mem same
  rw [← holds] at mem
  obtain ⟨guard, listed, rfl⟩ := List.mem_map.mp mem
  have := h.guard_numbers guard (by rw [guards]; exact List.mem_append_left _ listed)
  have : guard.id.index = pool.nextGuard := congrArg GuardId.index same
  omega

theorem shows_taken {footing' : Footing} {latch : Latch} {page : PageId} {id : GuardId}
    {scene' : Scene} (shows : footing.Shows ground mark others scene)
    (coherent : footing'.storage.Coherent .nothing)
    (took : footing.storage.Took latch page id footing'.storage)
    (anchor : footing'.anchor = footing.anchor) (anchor' : scene'.anchor = scene.anchor)
    (content : footing'.storage.content = scene'.content)
    (holds : scene'.holds = ⟨id, page, latch⟩ :: scene.holds) :
    footing'.Shows ground mark others scene' := by
  obtain ⟨frame, guards⟩ := took.guards
  obtain ⟨own, guards', held, since⟩ := shows.guards
  have marked := shows.marked
  refine ⟨by rw [anchor, anchor', shows.anchor], coherent, content,
    ⟨⟨id, frame, page, latch, false⟩ :: own, ?_, ?_, ?_⟩, shows.before, ?_, shows.apart⟩
  · rw [guards, guards']; rfl
  · rw [holds, ← held]; rfl
  · intro guard mem
    rcases List.mem_cons.mp mem with rfl | mem
    · rw [took.fresh]; exact marked
    · exact since guard mem
  · rw [took.nextGuard]; omega

theorem shows_refused {failure : Failure} {storage : Storage}
    (shows : footing.Shows ground mark others scene)
    (refused : footing.storage.Refused failure storage) :
    ({ footing with storage } : Footing).Shows ground mark others scene :=
  ⟨shows.anchor, refused.coherent, refused.kept.content.trans shows.content,
    refused.kept.guards ▸ shows.guards, shows.before, refused.kept.nextGuard ▸ shows.marked,
    shows.apart⟩

theorem pinned_ends {acquire : StorageM GuardId} {page : PageId} {latch : Latch}
    (scene' : GuardId → Scene) (shows : footing.Shows ground mark others scene)
    {failed : Error → Scene → Prop} {next : Pinned → Scene → Prop}
    (taken : Ends acquire footing.storage
      (fun id s' => s'.Coherent .nothing ∧ s'.content = (scene' id).content ∧
        footing.storage.Took latch page id s')
      (fun failure s' => footing.storage.Refused failure s'))
    (refused : ∀ fault : StorageFault, fault.OfPages → failed (.storage fault) scene)
    (anchor : ∀ id, (scene' id).anchor = scene.anchor)
    (holds : ∀ id, (scene' id).holds = ⟨id, page, latch⟩ :: scene.holds)
    (goes_on : ∀ id, scene.Fresh id → next ⟨id, page, (scene' id).content page⟩ (scene' id)) :
    Ends (pinned page acquire) footing
      (fun reply f => ∃ s, f.Shows ground mark others s ∧ next reply s)
      (fun failure f => ∃ error s, failure = .error error ∧ f.Shows ground mark others s ∧
        failed error s) := by
  rw [pinned, Ends.bind_iff]
  refine onStorage_ends (taken.imp ?_ ?_)
  · intro id storage ended
    rcases ended with ⟨coherent, content, took⟩
    obtain ⟨frame, guards⟩ := took.guards
    obtain ⟨own, guards', held, -⟩ := shows.guards
    have fresh : scene.Fresh id := by
      rw [took.fresh]
      exact fresh_of_next shows.coherent.pool guards' held
    have here : (⟨id, frame, page, latch, false⟩ : Guard) ∈ storage.pool.guards := by
      rw [guards]; simp
    simp only [Ends.bind_iff]
    refine onStorage_ends ((Pool.bytes_ends coherent id).imp ?_ ?_)
    · intro bytes _ ended
      rcases ended with ⟨rfl, guard, mem, same, rfl⟩
      have : guard = ⟨id, frame, page, latch, false⟩ :=
        List.inj_on_of_nodup_map coherent.pool.guard_ids mem here same
      rw [this, content]
      exact ⟨scene' id, shows_taken shows coherent took rfl (anchor id) content (holds id),
        goes_on id fresh⟩
    · intro failure _ ended
      rcases ended with ⟨rfl, -, gone⟩
      exact absurd rfl (gone _ here)
  · rintro failure storage declined
    obtain ⟨fault, rfl, of⟩ := declined.fault
    exact ⟨_, scene, rfl, shows_refused shows declined, refused fault of⟩

theorem guard_of_hold (shows : footing.Shows ground mark others scene) {hold : Hold}
    (mem : hold ∈ scene.holds) :
    ∃ guard ∈ footing.storage.pool.guards, guard.hold = hold ∧ mark ≤ hold.guard.index := by
  obtain ⟨own, guards, held, since⟩ := shows.guards
  rw [← held] at mem
  obtain ⟨guard, own_guard, rfl⟩ := List.mem_map.mp mem
  exact ⟨guard, guards ▸ List.mem_append_left _ own_guard, rfl, since guard own_guard⟩

theorem other_ids (shows : footing.Shows ground mark others scene) {id : GuardId}
    (since : mark ≤ id.index) {other : Guard} (mem : other ∈ others) : other.id ≠ id := by
  rintro rfl
  exact absurd since (Nat.not_le_of_lt (shows.before other mem))

theorem writeHeld_ends {hold : Hold} (shows : footing.Shows ground mark others scene)
    (mem : hold ∈ scene.holds) (bytes : Page) :
    Ends (onStorage (Pool.write hold.guard bytes)) footing
      (fun _ f => f.Shows ground mark others
        { scene with content := Function.update scene.content hold.page bytes })
      (fun _ _ => False) := by
  obtain ⟨guard, among, rfl, since⟩ := guard_of_hold shows mem
  obtain ⟨own, guards, held, taken⟩ := shows.guards
  refine onStorage_ends ((Pool.write_ends shows.coherent guard.id bytes).imp ?_ ?_)
  · intro _ s' ended
    rcases ended with ⟨coherent, ⟨other, mem', same, content⟩, guards', next', size⟩
    have at_page : other = guard :=
      List.inj_on_of_nodup_map shows.coherent.pool.guard_ids mem' among same
    refine ⟨shows.anchor, coherent, ?_, ⟨own.map (Pool.marked guard.id), ?_, ?_, ?_⟩, shows.before,
      next' ▸ shows.marked, shows.apart⟩
    · rw [content, at_page, shows.content]
      rfl
    · rw [guards', guards, List.map_append]
      congr 1
      refine (List.map_congr_left fun other mem => ?_).trans (List.map_id _)
      exact if_neg (other_ids shows since mem)
    · rw [← held, List.map_map]
      refine List.map_congr_left fun guard _ => ?_
      simp [Guard.hold]
    · intro guard listed
      obtain ⟨old, own_guard, rfl⟩ := List.mem_map.mp listed
      rw [Pool.marked_id]
      exact taken old own_guard
  · intro failure s' ended
    rcases ended with ⟨-, -, gone⟩
    exact gone guard among rfl

theorem releaseHeld_ends {hold : Hold} (shows : footing.Shows ground mark others scene)
    (mem : hold ∈ scene.holds) :
    Ends (onStorage (Pool.release hold.guard)) footing
      (fun _ f => f.Shows ground mark others
        { scene with holds := scene.holds.filter (·.guard ≠ hold.guard) })
      (fun _ _ => False) := by
  obtain ⟨guard, among, rfl, since⟩ := guard_of_hold shows mem
  obtain ⟨own, guards, held, taken⟩ := shows.guards
  refine onStorage_ends ((Pool.release_ends shows.coherent guard.id).imp ?_ ?_)
  · intro _ s' ended
    rcases ended with ⟨coherent, content, -, guards', next', -⟩
    refine ⟨shows.anchor, coherent, content.trans shows.content,
      ⟨own.filter (·.id ≠ guard.id), ?_, ?_, ?_⟩, shows.before, next' ▸ shows.marked, shows.apart⟩
    · rw [guards', guards, List.filter_append]
      congr 1
      refine List.filter_eq_self.mpr fun other mem => ?_
      exact decide_eq_true (other_ids shows since mem)
    · rw [← held, List.filter_map]
      rfl
    · intro other mem
      exact taken other (List.mem_filter.mp mem).1
  · intro failure s' ended
    rcases ended with ⟨-, -, gone⟩
    exact gone guard among rfl

theorem mintFrom_ends {failed : Error → Scene → Prop} {next : PageId → Scene → Prop}
    (shows : footing.Shows ground mark others scene)
    (meets : Request.mint.Meets ground failed next scene) :
    Ends (mintFrom ground.segment) footing
      (fun reply f => ∃ s, f.Shows ground mark others s ∧ next reply s)
      (fun failure f => ∃ error s, failure = .error error ∧ f.Shows ground mark others s ∧
        failed error s) := by
  rw [mintFrom, Ends.bind_iff, Ends.get_iff, shows.anchor]
  simp only [Request.Meets] at meets
  split at meets
  · rename_i full
    simp only [if_pos full]
    exact ⟨_, scene, rfl, shows, meets⟩
  · rename_i room
    simp only [if_neg room]
    exact ⟨{ scene with anchor.nextPageNo := scene.anchor.nextPageNo + 1 },
      ⟨by rw [← shows.anchor], shows.coherent, shows.content, shows.guards, shows.before,
        shows.marked, shows.apart⟩, meets⟩

/-- A page is created whether or not the program has a guard on it; then it is refused. -/
theorem createPinned_ends {page : PageId} {failed : Error → Scene → Prop}
    {next : Pinned → Scene → Prop} (shows : footing.Shows ground mark others scene)
    (refused : ∀ fault : StorageFault, fault.OfPages → failed (.storage fault) scene)
    (taken : ∀ guard, scene.Fresh guard → next ⟨guard, page, Page.zeroed⟩
      { scene with
        content := Function.update scene.content page Page.zeroed
        holds := ⟨guard, page, .exclusive⟩ :: scene.holds }) :
    Ends (pinned page (Pool.create page)) footing
      (fun reply f => ∃ s, f.Shows ground mark others s ∧ next reply s)
      (fun failure f => ∃ error s, failure = .error error ∧ f.Shows ground mark others s ∧
        failed error s) := by
  refine pinned_ends
    (fun id =>
      { scene with
        content := Function.update scene.content page Page.zeroed
        holds := ⟨id, page, .exclusive⟩ :: scene.holds })
    shows ((Pool.create_ends shows.coherent page).imp ?_ fun _ _ declined => declined) refused
    (fun _ => rfl) (fun _ => rfl) ?_
  · intro id s' ended
    rcases ended with ⟨coherent', content, took, -⟩
    exact ⟨coherent', by rw [content, shows.content], took⟩
  · intro id fresh
    simp only [Function.update_self]
    exact taken id fresh

theorem answer_ends {failed : Error → Scene → Prop} {request : Request}
    {next : request.Reply → Scene → Prop} (shows : footing.Shows ground mark others scene)
    (meets : request.Meets ground failed next scene) :
    Ends (answer ground.segment request) footing
      (fun reply f => ∃ s, f.Shows ground mark others s ∧ next reply s)
      (fun failure f => ∃ error s, failure = .error error ∧ f.Shows ground mark others s ∧
        failed error s) := by
  have coherent := shows.coherent
  cases request with
  | fetch latch page =>
    obtain ⟨mine, -, apart, refused, taken⟩ := meets
    refine pinned_ends (fun id => { scene with holds := ⟨id, page, latch⟩ :: scene.holds }) shows
      ((Pool.fetch_ends coherent latch page).imp ?_ ?_) refused
      (fun _ => rfl) (fun _ => rfl) taken
    · intro id s' ended
      rcases ended with ⟨coherent', content, took⟩
      exact ⟨coherent', content.trans shows.content, took⟩
    · intro failure s' ended
      rcases ended with bars | declined
      · obtain ⟨guard, mem, here⟩ := bars.exists_guard
        obtain ⟨own, guards, held, -⟩ := shows.guards
        rw [guards] at mem
        rcases List.mem_append.mp mem with mem | mem
        · exact absurd here (apart guard.hold (by rw [← held]; exact List.mem_map_of_mem mem))
        · exact absurd (here ▸ mine) (shows.apart guard mem)
      · exact declined
  | create page =>
    obtain ⟨-, -, refused, taken⟩ := meets
    exact createPinned_ends shows refused taken
  | write id bytes =>
    obtain ⟨page, hold, written⟩ := meets
    exact (writeHeld_ends shows hold bytes).imp (fun _ _ shows => ⟨_, shows, written⟩)
      fun _ _ => False.elim
  | release id =>
    obtain ⟨⟨hold, mem, rfl⟩, released⟩ := meets
    exact (releaseHeld_ends shows mem).imp (fun _ _ shows => ⟨_, shows, released⟩)
      fun _ _ => False.elim
  | mint => exact mintFrom_ends shows meets
  | setRoot root =>
    exact ⟨{ scene with anchor.root := some root },
      ⟨by rw [← shows.anchor], coherent, shows.content, shows.guards, shows.before, shows.marked,
        shows.apart⟩, meets⟩

/-- A program ends as it ensures, whatever the pool and the disk refuse. -/
theorem run_ends {program : Access α} {failed : Error → Scene → Prop} {post : α → Scene → Prop}
    (shows : footing.Shows ground mark others scene)
    (ensures : Ensures ground failed program post scene) :
    Ends (program.run ground.segment) footing
      (fun a f => ∃ s, f.Shows ground mark others s ∧ post a s)
      (fun failure f => ∃ error s, failure = .error error ∧ f.Shows ground mark others s ∧
        failed error s) := by
  induction program generalizing footing scene with
  | done a => exact ⟨scene, shows, Ensures.done_iff.mp ensures⟩
  | fail failure =>
    obtain ⟨error, rfl, ended⟩ := Ensures.fail_iff.mp ensures
    exact ⟨error, scene, rfl, shows, ended⟩
  | ask request next ih =>
    rw [run, Ends.bind_iff]
    refine (answer_ends shows (Ensures.ask_iff.mp ensures)).imp ?_ fun _ _ h => h
    intro reply f ended
    rcases ended with ⟨s, shows, ensures⟩
    exact ih reply shows ensures

theorem takenSince_eq {pool : Pool} {own : List Guard} (guards : pool.guards = own ++ others)
    (since : ∀ guard ∈ own, mark ≤ guard.id.index)
    (before : ∀ guard ∈ others, guard.id.index < mark) :
    takenSince mark pool = own.map (·.id) := by
  have kept : (own.map (·.id)).filter (fun id => mark ≤ id.index) = own.map (·.id) := by
    refine List.filter_eq_self.mpr fun id mem => ?_
    obtain ⟨guard, mem, rfl⟩ := List.mem_map.mp mem
    simpa using since guard ‹_›
  have dropped : (others.map (·.id)).filter (fun id => mark ≤ id.index) = [] := by
    refine List.filter_eq_nil_iff.mpr fun id mem => ?_
    obtain ⟨guard, mem, rfl⟩ := List.mem_map.mp mem
    simpa using before guard ‹_›
  rw [takenSince, guards, List.map_append, List.filter_append, kept, dropped, List.append_nil]

theorem hold_of_taken (shows : footing.Shows ground mark others scene) {id : GuardId}
    (taken : id ∈ takenSince mark footing.storage.pool) :
    ∃ hold ∈ scene.holds, hold.guard = id := by
  obtain ⟨own, guards, held, since⟩ := shows.guards
  rw [takenSince_eq guards since shows.before] at taken
  obtain ⟨guard, mem, rfl⟩ := List.mem_map.mp taken
  exact ⟨guard.hold, held ▸ List.mem_map_of_mem mem, rfl⟩

theorem release_ends {guard : Guard} {rest : List Guard}
    (coherent : footing.storage.Coherent .nothing)
    (guards : footing.storage.pool.guards = guard :: rest ++ others) :
    Ends (Pool.release guard.id) footing.storage
      (fun _ s' => s'.Coherent .nothing ∧ s'.content = footing.storage.content ∧
        s'.pool.guards = rest ++ others)
      (fun _ _ => False) := by
  have ids := coherent.pool.guard_ids
  rw [guards, List.cons_append, List.map_cons, List.nodup_cons] at ids
  have others_kept : (guard :: rest ++ others).filter (·.id ≠ guard.id) = rest ++ others := by
    rw [List.cons_append, List.filter_cons_of_neg (by simp)]
    refine List.filter_eq_self.mpr fun other mem => ?_
    have apart : other.id ≠ guard.id := fun same => ids.1 (same ▸ List.mem_map_of_mem mem)
    simpa using apart
  refine (Pool.release_ends coherent guard.id).imp ?_ ?_
  · intro _ s' ended
    rcases ended with ⟨coherent', content, -, guards', -⟩
    exact ⟨coherent', content, by rw [guards', guards, others_kept]⟩
  · intro failure s' ended
    rcases ended with ⟨-, -, gone⟩
    exact gone guard (by rw [guards]; simp) rfl

theorem releases_end {own : List Guard} (coherent : footing.storage.Coherent .nothing)
    (guards : footing.storage.pool.guards = own ++ others) :
    Ends ((own.map (·.id)).forM fun id => onStorage (Pool.release id)) footing
      (fun _ f => f.anchor = footing.anchor ∧ f.storage.Coherent .nothing ∧
        f.storage.content = footing.storage.content ∧ f.storage.pool.guards = others)
      (fun _ _ => False) := by
  induction own generalizing footing with
  | nil => exact ⟨rfl, coherent, rfl, guards⟩
  | cons guard rest ih =>
    change Ends (onStorage (Pool.release guard.id) >>= fun _ =>
      (rest.map (·.id)).forM fun id => onStorage (Pool.release id)) footing _ _
    rw [Ends.bind_iff]
    refine onStorage_ends ((release_ends coherent guards).imp ?_ fun _ _ h => h)
    intro _ s' ended
    rcases ended with ⟨coherent', content, guards'⟩
    refine (ih coherent' guards').imp ?_ fun _ _ h => h
    intro _ f ended
    rcases ended with ⟨anchor, coherent'', content', guards''⟩
    exact ⟨anchor, coherent'', content'.trans content, guards''⟩

/-- After a call: the anchor and the contents of its scene, and no guard of its own. -/
structure Settled (scene : Scene) (before after : Footing) : Prop where
  anchor : after.anchor = scene.anchor
  coherent : after.storage.Coherent .nothing
  content : after.storage.content = scene.content
  guards : after.storage.pool.guards = before.storage.pool.guards

theorem perform_ends (footing : Footing) {program : Access α} {failed : Error → Scene → Prop}
    {post : α → Scene → Prop} (coherent : footing.storage.Coherent .nothing)
    (apart : ∀ guard ∈ footing.storage.pool.guards, ¬ ground.mine guard.page)
    (ensures : Ensures ground failed program post ⟨footing.anchor, footing.storage.content, []⟩) :
    Ends (program.perform ground.segment) footing
      (fun a f => ∃ s, Settled s footing f ∧ post a s)
      (fun failure f => ∃ error s, failure = .error error ∧ Settled s footing f ∧
        failed error s) := by
  have start : footing.Shows ground footing.storage.pool.nextGuard footing.storage.pool.guards
      ⟨footing.anchor, footing.storage.content, []⟩ :=
    ⟨rfl, coherent, rfl, ⟨[], rfl, rfl, by simp⟩, coherent.pool.guard_numbers, Nat.le_refl _, apart⟩
  have cleaned {f : Footing} {s : Scene} (shows : f.Shows ground footing.storage.pool.nextGuard
      footing.storage.pool.guards s) :
      Ends (releaseSince footing.storage.pool.nextGuard) f (fun _ f' => Settled s footing f')
        (fun _ _ => False) := by
    obtain ⟨own, guards, -, since⟩ := shows.guards
    rw [releaseSince, Ends.bind_iff, Ends.get_iff, takenSince_eq guards since shows.before]
    refine (releases_end shows.coherent guards).imp ?_ fun _ _ h => h
    intro _ f' ended
    rcases ended with ⟨anchor, coherent', content, guards'⟩
    exact ⟨anchor.trans shows.anchor, coherent', content.trans shows.content, guards'⟩
  rw [perform, Ends.bind_iff, Ends.get_iff]
  refine Ends.tryFinally_of ((run_ends start ensures).imp ?_ ?_)
  · intro a f ended
    rcases ended with ⟨s, shows, ended⟩
    exact (cleaned shows).imp (fun _ f' settled => ⟨s, settled, ended⟩) fun _ _ h => h.elim
  · intro failure f ended
    rcases ended with ⟨error, s, rfl, shows, ended⟩
    exact (cleaned shows).imp (fun _ f' settled => ⟨error, s, rfl, settled, ended⟩)
      fun _ _ h => h.elim

end Access

namespace Tree

variable {K V : Type} [IndexKey K] [FixedWidth V] {tree : Tree K V} {call : Call K V} {s : Storage}
  {reached : Reached K V}

theorem perform_of_call (called : tree.call call s = .ok reached) :
    reached.tree = { tree with anchor := reached.tree.anchor } ∧
    ((tree.program call).perform tree.segment).run ⟨tree.anchor, s⟩ =
      match reached.outcome with
      | .ok answer => .ok answer ⟨reached.tree.anchor, reached.storage⟩
      | .error error => .error (.error error) ⟨reached.tree.anchor, reached.storage⟩ := by
  unfold Tree.call Tree.perform at called
  cases ran : ((tree.program call).perform tree.segment).run ⟨tree.anchor, s⟩ with
  | ok answer f =>
    rw [ran] at called
    cases called
    exact ⟨rfl, rfl⟩
  | error failure f =>
    rw [ran] at called
    cases failure with
    | error error =>
      cases called
      exact ⟨rfl, rfl⟩
    | violation violation => cases called

theorem ends_of_call {done : Answer V → Footing → Prop} {failed : Failure → Footing → Prop}
    (called : tree.call call s = .ok reached)
    (ends : Ends ((tree.program call).perform tree.segment) ⟨tree.anchor, s⟩ done failed) :
    match reached.outcome with
    | .ok answer => done answer ⟨reached.tree.anchor, reached.storage⟩
    | .error error => failed (.error error) ⟨reached.tree.anchor, reached.storage⟩ := by
  have ran := (perform_of_call called).2
  cases outcome : reached.outcome with
  | ok answer =>
    rw [outcome] at ran
    exact ends.of_ok ran
  | error error =>
    rw [outcome] at ran
    exact ends.of_error ran

end Tree

/-- A call is never violated. It leaves the guards as they were and ends as its program ensures. -/
theorem Tree.call_reaches {K V : Type} [IndexKey K] [FixedWidth V] {tree : Tree K V}
    {call : Call K V} {storage : Storage} {mine : PageId → Prop} {limit : Nat}
    {failed : Error → Scene → Prop} {post : Answer V → Scene → Prop}
    (coherent : storage.Coherent .nothing)
    (apart : ∀ guard ∈ storage.pool.guards, ¬ mine guard.page)
    (ensures : Access.Ensures ⟨tree.segment, mine, limit⟩ failed (tree.program call) post
      ⟨tree.anchor, storage.content, []⟩) :
    ∃ reached scene, tree.call call storage = .ok reached ∧
      reached.tree = { tree with anchor := scene.anchor } ∧
      reached.storage.Coherent .nothing ∧ reached.storage.content = scene.content ∧
      reached.storage.pool.guards = storage.pool.guards ∧
      match reached.outcome with
      | .ok answer => post answer scene
      | .error error => failed error scene := by
  have ends := Access.perform_ends ⟨tree.anchor, storage⟩ coherent apart ensures
  unfold Tree.call Tree.perform
  cases ran : ((tree.program call).perform tree.segment).run ⟨tree.anchor, storage⟩ with
  | ok answer f =>
    obtain ⟨scene, settled, ended⟩ := ends.of_ok ran
    exact ⟨_, scene, rfl, by rw [settled.anchor], settled.coherent, settled.content,
      settled.guards, ended⟩
  | error failure f =>
    obtain ⟨error, scene, rfl, settled, ended⟩ := ends.of_error ran
    exact ⟨_, scene, rfl, by rw [settled.anchor], settled.coherent, settled.content,
      settled.guards, ended⟩

end PagedIndex
