import PagedIndex.Proofs.Pool.Dirtying
import PagedIndex.Proofs.Tree.Numbering

/-!
# The pages that programs touch

A program touches the pages that it creates or writes, and no others become dirty. What it touched
since it last asked for a page is still dirty at its end, since only a page that comes in drives
another out. `Access.Goes` says on which trail a program ends, well or with an error, whichever of
its requests are refused; a program that is violated need not go anywhere.
-/

namespace PagedIndex

/-- What a program that has run so far sees and has done. -/
structure Trail extends Scene where
  touched : List PageId
  /-- Those that were touched since a page was asked for. -/
  lately : List PageId

namespace Trail

def settled (trail : Trail) : Trail := { trail with lately := [] }

def take (hold : Hold) (trail : Trail) : Trail :=
  { trail with holds := hold :: trail.holds, lately := [] }

def put (page : PageId) (bytes : Page) (trail : Trail) : Trail :=
  { trail with
    content := Function.update trail.content page bytes
    touched := page :: trail.touched
    lately := page :: trail.lately }

@[simp] theorem content_put_self (trail : Trail) (page : PageId) (bytes : Page) :
    (trail.put page bytes).content page = bytes :=
  Function.update_self ..

theorem content_put_of_ne {trail : Trail} {page other : PageId} {bytes : Page}
    (apart : other ≠ page) : (trail.put page bytes).content other = trail.content other :=
  Function.update_of_ne apart ..

end Trail

/-- However the request is answered, the program can go on from there. -/
def Request.Goes (segment : SegmentId) (failed : Trail → Prop) :
    (request : Request) → (request.Reply → Trail → Prop) → Trail → Prop
  | .fetch latch page, next, trail =>
    failed trail.settled ∧
      ∀ guard, trail.Fresh guard → (latch = .exclusive → ∀ hold ∈ trail.holds, hold.page ≠ page) →
        next ⟨guard, page, trail.content page⟩ (trail.take ⟨guard, page, latch⟩)
  | .create page, next, trail =>
    failed trail.settled ∧
      ∀ guard, trail.Fresh guard → (∀ hold ∈ trail.holds, hold.page ≠ page) →
        next ⟨guard, page, Page.zeroed⟩ ((trail.take ⟨guard, page, .exclusive⟩).put page Page.zeroed)
  | .write guard bytes, next, trail =>
    ∃ page, ⟨guard, page, .exclusive⟩ ∈ trail.holds ∧ next () (trail.put page bytes)
  | .release guard, next, trail =>
    (∃ hold ∈ trail.holds, hold.guard = guard) ∧
      next () { trail with holds := trail.holds.filter (·.guard ≠ guard) }
  | .mint, next, trail =>
    if maxPageNo < trail.anchor.nextPageNo then failed trail
    else next (.ofParts segment trail.anchor.nextPageNo)
      { trail with anchor.nextPageNo := trail.anchor.nextPageNo + 1 }
  | .setRoot root, next, trail => next () { trail with anchor.root := some root }

theorem Request.Goes.imp {segment : SegmentId} {failed failed' : Trail → Prop} {request : Request}
    {next next' : request.Reply → Trail → Prop} {trail : Trail}
    (h : request.Goes segment failed next trail) (hf : ∀ t, failed t → failed' t)
    (hn : ∀ reply t, next reply t → next' reply t) : request.Goes segment failed' next' trail := by
  cases request with
  | fetch latch page =>
    exact ⟨hf _ h.1, fun guard fresh apart => hn _ _ (h.2 guard fresh apart)⟩
  | create page =>
    exact ⟨hf _ h.1, fun guard fresh apart => hn _ _ (h.2 guard fresh apart)⟩
  | write guard bytes =>
    obtain ⟨page, held, written⟩ := h
    exact ⟨page, held, hn _ _ written⟩
  | release guard => exact ⟨h.1, hn _ _ h.2⟩
  | mint =>
    simp only [Request.Goes] at h ⊢
    split at h
    · rename_i full; rw [if_pos full]; exact hf _ h
    · rename_i room; rw [if_neg room]; exact hn _ _ h
  | setRoot root => exact hn _ _ h

namespace Access

variable {α β : Type}

/-- From the trail the program ends, unless it is violated, with a result on one as in `post`, or
with an error on one as in `failed`. -/
def Goes (segment : SegmentId) (failed : Trail → Prop) :
    Access α → (α → Trail → Prop) → Trail → Prop
  | .done a, post, trail => post a trail
  | .fail (.error _), _, trail => failed trail
  | .fail (.violation _), _, _ => True
  | .ask request next, post, trail =>
    request.Goes segment failed (fun reply => Goes segment failed (next reply) post) trail

namespace Goes

variable {segment : SegmentId} {failed failed' : Trail → Prop} {trail : Trail}

theorem bind_eq (program : Access α) (next : α → Access β) (post : β → Trail → Prop) :
    Goes segment failed (program >>= next) post =
      Goes segment failed program fun a => Goes segment failed (next a) post := by
  change Goes segment failed (program.bind next) post = _
  induction program with
  | done a => rfl
  | fail failure => cases failure <;> rfl
  | ask request rest ih =>
    funext trail
    simp only [Access.bind, Goes, ih]

@[simp] theorem bind_iff {program : Access α} {next : α → Access β} {post : β → Trail → Prop} :
    Goes segment failed (program >>= next) post trail ↔
      Goes segment failed program (fun a => Goes segment failed (next a) post) trail := by
  rw [bind_eq]

@[simp] theorem map_iff {program : Access α} {f : α → β} {post : β → Trail → Prop} :
    Goes segment failed (f <$> program) post trail ↔
      Goes segment failed program (fun a => post (f a)) trail := by
  rw [← bind_pure_comp, bind_iff]
  rfl

theorem imp {program : Access α} {post post' : α → Trail → Prop}
    (h : Goes segment failed program post trail) (hd : ∀ a t, post a t → post' a t)
    (hf : ∀ t, failed t → failed' t) : Goes segment failed' program post' trail := by
  induction program generalizing trail with
  | done a => exact hd a trail h
  | fail failure =>
    cases failure with
    | error error => exact hf trail h
    | violation violation => exact h
  | ask request rest ih => exact Request.Goes.imp h hf fun reply t => ih reply

theorem andThen {program : Access α} {next : α → Access β} {between : α → Trail → Prop}
    {post : β → Trail → Prop} (h : Goes segment failed program between trail)
    (goes_on : ∀ a t, between a t → Goes segment failed (next a) post t) :
    Goes segment failed (program >>= next) post trail :=
  bind_iff.mpr (h.imp goes_on fun _ refused => refused)

variable {post : α → Trail → Prop}

theorem done_iff {a : α} : Goes segment failed (.done a) post trail ↔ post a trail := Iff.rfl

@[simp] theorem pure_iff {a : α} : Goes segment failed (pure a) post trail ↔ post a trail :=
  Iff.rfl

theorem violate (violation : Violation) : Goes segment failed (Access.violate violation) post trail :=
  trivial

theorem fail_error_iff {error : Error} :
    Goes segment failed (.fail (.error error)) post trail ↔ failed trail := Iff.rfl

theorem ask_iff {request : Request} {next : request.Reply → Access α} :
    Goes segment failed (.ask request next) post trail ↔
      request.Goes segment failed (fun reply => Goes segment failed (next reply) post) trail :=
  Iff.rfl

theorem node {result : Except Violation α} {next : α → Access β} {post : β → Trail → Prop}
    (goes_on : ∀ a, result = .ok a → Goes segment failed (next a) post trail) :
    Goes segment failed (ofNode result >>= next) post trail := by
  cases result with
  | ok a => exact goes_on a rfl
  | error violation => trivial

section Held

variable {latch : Latch} {pins rest : List Pinned} {pinned : Pinned} {page : PageId}

theorem fetch_held {post : Pinned → Trail → Prop} (held : Held .exclusive pins trail.holds)
    (refused : failed trail.settled)
    (taken : ∀ guard holds, (∀ other ∈ pins, other.page ≠ page) →
      Held .exclusive (⟨guard, page, trail.content page⟩ :: pins) holds →
      post ⟨guard, page, trail.content page⟩ { trail.settled with holds }) :
    Goes segment failed (Access.fetch .exclusive page) post trail :=
  ⟨refused, fun guard fresh apart => taken guard _
    (fun _ mem => apart rfl _ (held.hold_mem mem)) (held.take fresh)⟩

theorem create_held {post : Pinned → Trail → Prop} (held : Held .exclusive pins trail.holds)
    (refused : failed trail.settled)
    (taken : ∀ guard holds, (∀ other ∈ pins, other.page ≠ page) →
      Held .exclusive (⟨guard, page, Page.zeroed⟩ :: pins) holds →
      post ⟨guard, page, Page.zeroed⟩ { trail.settled.put page Page.zeroed with holds }) :
    Goes segment failed (Access.create page) post trail :=
  ⟨refused, fun guard fresh apart => taken guard _
    (fun _ mem => apart _ (held.hold_mem mem)) (held.take fresh)⟩

theorem write_held {bytes : Page} {post : Unit → Trail → Prop}
    (held : Held .exclusive pins trail.holds) (mem : pinned ∈ pins)
    (written : post () (trail.put pinned.page bytes)) :
    Goes segment failed (Access.write pinned bytes) post trail :=
  ⟨pinned.page, held.hold_mem mem, written⟩

theorem release_held {post : Unit → Trail → Prop} (held : Held latch pins trail.holds)
    (among : pins.Perm (pinned :: rest))
    (released : ∀ holds, Held latch rest holds → post () { trail with holds }) :
    Goes segment failed (Access.release pinned) post trail :=
  ⟨⟨_, held.hold_mem (among.mem_iff.mpr (List.mem_cons_self ..)), rfl⟩,
    released _ (held.reorder among).drop⟩

end Held

theorem mint_iff {post : PageId → Trail → Prop} :
    Goes segment failed Access.mint post trail ↔
      if maxPageNo < trail.anchor.nextPageNo then failed trail
      else post (.ofParts segment trail.anchor.nextPageNo)
        { trail with anchor.nextPageNo := trail.anchor.nextPageNo + 1 } := Iff.rfl

theorem setRoot_iff {root : PageId} {post : Unit → Trail → Prop} :
    Goes segment failed (Access.setRoot root) post trail ↔
      post () { trail with anchor.root := some root } := Iff.rfl

end Goes

theorem goes_of_looks {limit : Nat} {program : Access α} {segment : SegmentId} {trail : Trail}
    {post : α → List Hold → Prop} (within_limit : Within limit program post trail.holds)
    (asks : program.Asks Request.Looks) {still : Trail → Prop}
    (stays : ∀ trail' : Trail, trail'.anchor = trail.anchor → trail'.content = trail.content →
      trail'.touched = trail.touched → still trail') :
    Goes segment still program (fun _ => still) trail := by
  induction program generalizing trail with
  | done a => exact stays trail rfl rfl rfl
  | fail failure =>
    cases failure with
    | error error => exact stays trail rfl rfl rfl
    | violation violation => trivial
  | ask request next ih =>
    obtain ⟨looks, rest⟩ := Asks.ask_iff.mp asks
    have within_limit := Within.ask_iff.mp within_limit
    cases request with
    | fetch latch page =>
      exact ⟨stays _ rfl rfl rfl, fun guard fresh _ =>
        ih _ (within_limit.2 guard _ fresh) (rest _) stays⟩
    | release guard => exact ⟨within_limit.1, ih _ within_limit.2 (rest ()) stays⟩
    | create page | write guard bytes | mint | setRoot root => exact looks.elim

end Access

-- What a program goes through is read off its parts; unfolding it would run the program.
attribute [irreducible] Access.Goes

/-- The footing of a program that went so far, where others had `others` and the pool was `start`
when it began. -/
structure Footing.Trails (footing : Footing) (segment : SegmentId) (mark : Nat)
    (others : List Guard) (start : Pool) (trail : Trail) : Prop where
  shows : footing.Shows (.common segment 0) mark others trail.toScene
  touched : ∀ page, footing.storage.pool.Stained mark page →
    start.Dirty page ∨ page ∈ trail.touched
  lately : ∀ page ∈ trail.lately, footing.storage.pool.Stained mark page

namespace Access

variable {α : Type} {segment : SegmentId} {mark : Nat} {others : List Guard} {start : Pool}
  {trail : Trail} {footing : Footing}

theorem trails_refused {failure : Failure} {storage : Storage}
    (trails : footing.Trails segment mark others start trail)
    (refused : footing.storage.Refused failure storage) (clean : footing.storage.Clean storage) :
    ({ footing with storage } : Footing).Trails segment mark others start trail.settled :=
  ⟨shows_refused trails.shows refused,
    fun page stained => trails.touched page (Pool.stained_of_kept refused.kept clean stained),
    fun _ mem => absurd mem List.not_mem_nil⟩

theorem apart_of_took {latch : Latch} {page : PageId} {id : GuardId} {storage : Storage}
    (shows : footing.Shows (.common segment 0) mark others trail.toScene)
    (coherent : storage.Coherent .nothing) (took : footing.storage.Took latch page id storage)
    (exclusive : latch = .exclusive) : ∀ hold ∈ trail.holds, hold.page ≠ page := by
  rintro hold mem rfl
  obtain ⟨guard, listed, rfl, -⟩ := guard_of_hold shows mem
  exact Pool.unblocked_of_took shows.coherent coherent took ⟨guard, listed, rfl, .inl exclusive⟩

theorem fresh_of_shows (shows : footing.Shows (.common segment 0) mark others trail.toScene) :
    trail.Fresh ⟨footing.storage.pool.nextGuard⟩ := by
  obtain ⟨own, guards, held, -⟩ := shows.guards
  exact fresh_of_next shows.coherent.pool guards held

theorem fetch_trails (trails : footing.Trails segment mark others start trail) (latch : Latch)
    (page : PageId) :
    Ends (pinned page (Pool.fetch latch page)) footing
      (fun reply f => ∃ guard, trail.Fresh guard ∧
        (latch = .exclusive → ∀ hold ∈ trail.holds, hold.page ≠ page) ∧
        reply = ⟨guard, page, trail.content page⟩ ∧
        f.Trails segment mark others start (trail.take ⟨guard, page, latch⟩))
      (fun failure f => (∃ violation, failure = .violation violation) ∨
        f.Trails segment mark others start trail.settled) := by
  have shows := trails.shows
  have coherent := shows.coherent
  have fetched : Ends (Pool.fetch latch page) footing.storage
      (fun id s' => s'.Coherent .nothing ∧ footing.storage.Took latch page id s' ∧
        s'.content = footing.storage.content ∧ footing.storage.Clean s')
      (fun failure s' => (∃ violation, failure = .violation violation) ∨
        footing.storage.Refused failure s' ∧ footing.storage.Clean s') :=
    ((Pool.fetch_ends coherent latch page).and (Pool.fetch_clean coherent latch page)).imp
      (fun _ _ ⟨⟨coherent', content, took⟩, clean⟩ => ⟨coherent', took, content, clean⟩)
      fun _ _ ⟨ended, clean⟩ => ended.imp Pool.Bars.violated fun refused => ⟨refused, clean⟩
  refine (pinned_took fetched).imp ?_ ?_
  · rintro _ _ ⟨s', rfl, coherent', took, ⟨content, clean⟩, rfl⟩
    have read : s'.content = trail.content := content.trans shows.content
    refine ⟨_, fresh_of_shows shows, apart_of_took shows coherent' took, by rw [read], ?_, ?_, ?_⟩
    · exact shows_taken shows coherent' took rfl rfl read rfl
    · intro other stained
      refine trails.touched other ((Pool.stained_of_took took stained).elim id fun dirty => .inl ?_)
      exact (clean other dirty).resolve_right id
    · exact fun _ mem => absurd mem List.not_mem_nil
  · rintro failure _ ⟨s', rfl, violated | ⟨declined, clean⟩⟩
    · exact .inl violated
    · exact .inr (trails_refused trails declined clean)

theorem create_trails (trails : footing.Trails segment mark others start trail) (page : PageId) :
    Ends (pinned page (Pool.create page)) footing
      (fun reply f => ∃ guard, trail.Fresh guard ∧ (∀ hold ∈ trail.holds, hold.page ≠ page) ∧
        reply = ⟨guard, page, Page.zeroed⟩ ∧
        f.Trails segment mark others start
          ((trail.take ⟨guard, page, .exclusive⟩).put page Page.zeroed))
      (fun _ f => f.Trails segment mark others start trail.settled) := by
  have shows := trails.shows
  have coherent := shows.coherent
  have created : Ends (Pool.create page) footing.storage
      (fun id s' => s'.Coherent .nothing ∧ footing.storage.Took .exclusive page id s' ∧
        s'.content = Function.update footing.storage.content page Page.zeroed ∧
        footing.storage.Soils (· = page) s' ∧ s'.pool.Dirty page)
      (fun failure s' => footing.storage.Refused failure s' ∧ footing.storage.Clean s') :=
    ((Pool.create_ends coherent page).and (Pool.create_soils coherent page)).imp
      (fun _ _ ⟨⟨coherent', content, took, _⟩, soils⟩ => ⟨coherent', took, content, soils⟩)
      fun _ _ ended => ended
  refine (pinned_took created).imp ?_ ?_
  · rintro _ _ ⟨s', rfl, coherent', took, ⟨content, soils, dirty⟩, rfl⟩
    rw [shows.content] at content
    refine ⟨_, fresh_of_shows shows, apart_of_took shows coherent' took rfl, ?_, ?_, ?_, ?_⟩
    · rw [content, Function.update_self]
    · exact shows_taken shows coherent' took rfl rfl content rfl
    · intro other stained
      rcases Pool.stained_of_took took stained with stained | dirty
      · exact (trails.touched other stained).imp_right (List.mem_cons_of_mem _)
      · rcases soils other dirty with dirty | rfl
        · exact (trails.touched other (.inl dirty)).imp_right (List.mem_cons_of_mem _)
        · exact .inr List.mem_cons_self
    · intro other mem
      rw [List.mem_singleton.mp mem]
      exact .inl dirty
  · rintro failure _ ⟨s', rfl, declined, clean⟩
    exact trails_refused trails declined clean

theorem write_trails {id : GuardId} {page : PageId}
    (trails : footing.Trails segment mark others start trail)
    (mem : ⟨id, page, .exclusive⟩ ∈ trail.holds) (bytes : Page) :
    Ends (onStorage (Pool.write id bytes)) footing
      (fun _ f => f.Trails segment mark others start (trail.put page bytes))
      (fun _ _ => False) := by
  obtain ⟨guard, listed, same, since⟩ := guard_of_hold trails.shows mem
  obtain rfl : guard.id = id := congrArg Hold.guard same
  obtain rfl : guard.page = page := congrArg Hold.page same
  have stains : Ends (onStorage (Pool.write guard.id bytes)) footing
      (fun _ f => ∀ other, f.storage.pool.Stained mark other ↔
        footing.storage.pool.Stained mark other ∨ other = guard.page) (fun _ _ => True) :=
    onStorage_ends (Pool.write_stains trails.shows.coherent listed since bytes)
  refine ((writeHeld_ends trails.shows mem bytes).and stains).imp ?_ fun _ _ ended => ended.1
  rintro _ f ⟨shows, stained⟩
  refine ⟨shows, fun other there => ?_, fun other mem => ?_⟩
  · rcases (stained other).mp there with there | rfl
    · exact (trails.touched other there).imp_right (List.mem_cons_of_mem _)
    · exact .inr List.mem_cons_self
  · refine (stained other).mpr ?_
    exact (List.mem_cons.mp mem).symm.imp_left (trails.lately other)

theorem release_trails {hold : Hold} (trails : footing.Trails segment mark others start trail)
    (mem : hold ∈ trail.holds) :
    Ends (onStorage (Pool.release hold.guard)) footing
      (fun _ f => f.Trails segment mark others start
        { trail with holds := trail.holds.filter (·.guard ≠ hold.guard) })
      (fun _ _ => False) := by
  obtain ⟨guard, listed, rfl, since⟩ := guard_of_hold trails.shows mem
  have stains : Ends (onStorage (Pool.release guard.id)) footing
      (fun _ f => ∀ other, f.storage.pool.Stained mark other ↔
        footing.storage.pool.Stained mark other) (fun _ _ => True) :=
    onStorage_ends (Pool.release_stains trails.shows.coherent listed since)
  refine ((releaseHeld_ends trails.shows mem).and stains).imp ?_ fun _ _ ended => ended.1
  rintro _ f ⟨shows, stained⟩
  exact ⟨shows, fun other there => trails.touched other ((stained other).mp there),
    fun other mem => (stained other).mpr (trails.lately other mem)⟩

theorem trails_anchored (trails : footing.Trails segment mark others start trail)
    (anchor : Anchor) : ({ footing with anchor } : Footing).Trails segment mark others start
      { trail with anchor } := by
  obtain ⟨⟨-, coherent, content, guards, before, marked, apart⟩, touched, lately⟩ := trails
  exact ⟨⟨rfl, coherent, content, guards, before, marked, apart⟩, touched, lately⟩

theorem answer_goes {failed : Trail → Prop} {request : Request}
    {next : request.Reply → Trail → Prop}
    (trails : footing.Trails segment mark others start trail)
    (goes : request.Goes segment failed next trail) :
    Ends (answer segment request) footing
      (fun reply f => ∃ t, f.Trails segment mark others start t ∧ next reply t)
      (fun failure f => (∃ violation, failure = .violation violation) ∨
        ∃ t, f.Trails segment mark others start t ∧ failed t) := by
  cases request with
  | fetch latch page =>
    obtain ⟨refused, taken⟩ := goes
    refine (fetch_trails trails latch page).imp ?_ ?_
    · rintro _ f ⟨guard, fresh, apart, rfl, trails'⟩
      exact ⟨_, trails', taken guard fresh apart⟩
    · exact fun _ _ ended => ended.imp_right fun trails' => ⟨_, trails', refused⟩
  | create page =>
    obtain ⟨refused, taken⟩ := goes
    refine (create_trails trails page).imp ?_ fun _ _ trails' => .inr ⟨_, trails', refused⟩
    rintro _ f ⟨guard, fresh, apart, rfl, trails'⟩
    exact ⟨_, trails', taken guard fresh apart⟩
  | write id bytes =>
    obtain ⟨page, mem, written⟩ := goes
    exact (write_trails trails mem bytes).imp (fun _ _ trails' => ⟨_, trails', written⟩)
      fun _ _ => False.elim
  | release id =>
    obtain ⟨⟨hold, mem, rfl⟩, released⟩ := goes
    exact (release_trails trails mem).imp (fun _ _ trails' => ⟨_, trails', released⟩)
      fun _ _ => False.elim
  | mint =>
    have same : footing.anchor = trail.anchor := trails.shows.anchor
    change Ends (mintFrom segment) footing _ _
    unfold Ends
    rw [Request.Goes, ← same] at goes
    split at goes
    · rename_i full
      rw [mintFrom_of_full full]
      exact .inr ⟨trail, trails, goes⟩
    · rename_i room
      rw [mintFrom_of_room room]
      exact ⟨_, trails_anchored trails _, goes⟩
  | setRoot root =>
    have same : footing.anchor = trail.anchor := trails.shows.anchor
    rw [Request.Goes, ← same] at goes
    exact ⟨_, trails_anchored trails _, goes⟩

/-- A program that is not violated ends as it goes. -/
theorem run_goes {program : Access α} {failed : Trail → Prop} {post : α → Trail → Prop}
    (trails : footing.Trails segment mark others start trail)
    (goes : Goes segment failed program post trail) :
    Ends (program.run segment) footing
      (fun a f => ∃ t, f.Trails segment mark others start t ∧ post a t)
      (fun failure f => (∃ violation, failure = .violation violation) ∨
        ∃ t, f.Trails segment mark others start t ∧ failed t) := by
  induction program generalizing footing trail with
  | done a => exact ⟨trail, trails, Goes.done_iff.mp goes⟩
  | fail failure =>
    cases failure with
    | error error => exact .inr ⟨trail, trails, Goes.fail_error_iff.mp goes⟩
    | violation violation => exact .inl ⟨violation, rfl⟩
  | ask request next ih =>
    rw [run, Ends.bind_iff]
    refine (answer_goes trails (Goes.ask_iff.mp goes)).imp ?_ fun _ _ h => h
    rintro reply f ⟨t, trails, goes⟩
    exact ih reply trails goes

/-- The program has let go of its guards: the anchor, the contents and the guards are those of its
trail, and what it touched is dirty as far as it told. -/
structure Rested (before : Storage) (trail : Trail) (after : Footing) : Prop where
  anchor : after.anchor = trail.anchor
  coherent : after.storage.Coherent .nothing
  content : after.storage.content = trail.content
  guards : after.storage.pool.guards = before.pool.guards
  touched : ∀ page, after.storage.pool.Dirty page →
    before.pool.Dirty page ∨ page ∈ trail.touched
  lately : ∀ page ∈ trail.lately, after.storage.pool.Dirty page

theorem releases_stain {own : List Guard} (coherent : footing.storage.Coherent .nothing)
    (guards : footing.storage.pool.guards = own ++ others)
    (since : ∀ guard ∈ own, mark ≤ guard.id.index) :
    Ends ((own.map (·.id)).forM fun id => onStorage (Pool.release id)) footing
      (fun _ f => ∀ page, f.storage.pool.Stained mark page ↔
        footing.storage.pool.Stained mark page)
      (fun _ _ => True) := by
  induction own generalizing footing with
  | nil => exact fun _ => Iff.rfl
  | cons guard rest ih =>
    change Ends (onStorage (Pool.release guard.id) >>= fun _ =>
      (rest.map (·.id)).forM fun id => onStorage (Pool.release id)) footing _ _
    rw [Ends.bind_iff]
    have listed : guard ∈ footing.storage.pool.guards := guards ▸ List.mem_cons_self
    have stains := Pool.release_stains coherent listed (since guard List.mem_cons_self)
    refine onStorage_ends (((release_ends coherent guards).and stains).imp ?_ fun _ _ h => trivial)
    rintro _ s' ⟨⟨coherent', -, guards'⟩, stained⟩
    refine (ih coherent' guards' fun guard mem => since guard (List.mem_cons_of_mem _ mem)).imp ?_
      fun _ _ h => h
    exact fun _ f stained' page => (stained' page).trans (stained page)

theorem releaseSince_goes {before : Storage} {f : Footing}
    (trails : f.Trails segment before.pool.nextGuard before.pool.guards before.pool trail) :
    Ends (releaseSince before.pool.nextGuard) f (fun _ f' => Rested before trail f')
      (fun _ _ => False) := by
  have shows := trails.shows
  obtain ⟨own, guards, -, since⟩ := shows.guards
  rw [releaseSince, Ends.bind_iff, Ends.get_iff, takenSince_eq guards since shows.before]
  refine ((releases_end shows.coherent guards).and
    (releases_stain shows.coherent guards since)).imp ?_ fun _ _ ended => ended.1
  rintro _ f' ⟨⟨anchor, coherent, content, guards'⟩, stained⟩
  have before' : ∀ guard ∈ f'.storage.pool.guards, guard.id.index < before.pool.nextGuard := by
    rw [guards']
    exact shows.before
  exact ⟨anchor.trans shows.anchor, coherent, content.trans shows.content, guards',
    fun page dirty => trails.touched page ((stained page).mp (.inl dirty)),
    fun page mem => ((stained page).mpr (trails.lately page mem)).of_unguarded before'⟩

theorem perform_goes (footing : Footing) {program : Access α} {failed : Trail → Prop}
    {post : α → Trail → Prop} (coherent : footing.storage.Coherent .nothing)
    (goes : Goes segment failed program post
      ⟨⟨footing.anchor, footing.storage.content, []⟩, [], []⟩) :
    Ends (program.perform segment) footing
      (fun a f => ∃ t, Rested footing.storage t f ∧ post a t)
      (fun failure f => (∃ violation, failure = .violation violation) ∨
        ∃ t, Rested footing.storage t f ∧ failed t) := by
  have numbers := coherent.pool.guard_numbers
  have begun : footing.Trails segment footing.storage.pool.nextGuard footing.storage.pool.guards
      footing.storage.pool ⟨⟨footing.anchor, footing.storage.content, []⟩, [], []⟩ :=
    ⟨⟨rfl, coherent, rfl, ⟨[], rfl, rfl, nofun⟩, numbers, Nat.le_refl _, fun _ _ => id⟩,
      fun page stained => .inl (stained.of_unguarded numbers), nofun⟩
  rw [perform, Ends.bind_iff, Ends.get_iff]
  refine Ends.tryFinally_of ((run_goes begun goes).imp ?_ ?_)
  · rintro a f ⟨t, trails, ended⟩
    exact (releaseSince_goes trails).imp (fun _ _ rested => ⟨t, rested, ended⟩)
      fun _ _ => False.elim
  · rintro failure f (⟨violation, rfl⟩ | ⟨t, trails, ended⟩)
    · exact (Moment.releaseSince_ends f).imp (fun _ _ _ => .inl ⟨violation, rfl⟩)
        fun _ _ violated => .inl violated
    · exact (releaseSince_goes trails).imp (fun _ _ rested => .inr ⟨t, rested, ended⟩)
        fun _ _ => False.elim

end Access

/-- A call that returns has gone where its program goes. -/
theorem Tree.call_goes {K V : Type} [IndexKey K] [FixedWidth V] {tree : Tree K V} {call : Call K V}
    {s : Storage} {reached : Reached K V} {failed : Trail → Prop}
    {post : Answer V → Trail → Prop} (coherent : s.Coherent .nothing)
    (called : tree.call call s = .ok reached)
    (goes : Access.Goes tree.segment failed (tree.program call) post
      ⟨⟨tree.anchor, s.content, []⟩, [], []⟩) :
    ∃ trail, Access.Rested s trail ⟨reached.tree.anchor, reached.storage⟩ ∧
      match reached.outcome with
      | .ok answer => post answer trail
      | .error _ => failed trail := by
  have ends := ends_of_call called (Access.perform_goes ⟨tree.anchor, s⟩ coherent goes)
  cases outcome : reached.outcome with
  | ok answer =>
    rw [outcome] at ends
    exact ends
  | error error =>
    rw [outcome] at ends
    rcases ends with ⟨violation, other⟩ | ended
    · cases other
    · exact ended

end PagedIndex
