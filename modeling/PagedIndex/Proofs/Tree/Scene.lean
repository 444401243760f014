import Mathlib.Logic.Function.Basic
import PagedIndex.Proofs.Pool.Operations
import PagedIndex.Tree.Access

/-!
# What programs of page requests ensure

A program is specified over a scene: the anchor of its tree, what pages read as, and the guards it
holds. `Access.Ensures` says what holds when the program has ended, whichever of its requests are
refused. It also asks that the program holds few guards at a time, takes none on a page that it
holds already, writes only under an exclusive latch and is never violated.
-/

namespace PagedIndex

structure Hold where
  guard : GuardId
  page : PageId
  latch : Latch
  deriving DecidableEq

structure Scene where
  anchor : Anchor
  content : PageId → Page
  holds : List Hold

/-- Where a program runs: the segment of its tree, the pages that nobody else has a guard on, and
how many guards it may hold at a time. -/
structure Ground where
  segment : SegmentId
  mine : PageId → Prop
  limit : Nat

def Scene.Fresh (scene : Scene) (guard : GuardId) : Prop := ∀ hold ∈ scene.holds, hold.guard ≠ guard

/-- The request is allowed, and however it is answered the program can go on from there. -/
def Request.Meets (ground : Ground) (failed : Error → Scene → Prop) :
    (request : Request) → (request.Reply → Scene → Prop) → Scene → Prop
  | .fetch latch page, next, scene =>
    ground.mine page ∧ scene.holds.length < ground.limit ∧
      (∀ hold ∈ scene.holds, hold.page ≠ page) ∧
      (∀ fault : StorageFault, fault.OfPages → failed (.storage fault) scene) ∧
      ∀ guard, scene.Fresh guard → next ⟨guard, page, scene.content page⟩
        { scene with holds := ⟨guard, page, latch⟩ :: scene.holds }
  | .create page, next, scene =>
    scene.holds.length < ground.limit ∧
      (∀ hold ∈ scene.holds, hold.page ≠ page) ∧
      (∀ fault : StorageFault, fault.OfPages → failed (.storage fault) scene) ∧
      ∀ guard, scene.Fresh guard → next ⟨guard, page, Page.zeroed⟩
        { scene with
          content := Function.update scene.content page Page.zeroed
          holds := ⟨guard, page, .exclusive⟩ :: scene.holds }
  | .write guard bytes, next, scene =>
    ∃ page, ⟨guard, page, .exclusive⟩ ∈ scene.holds ∧
      next () { scene with content := Function.update scene.content page bytes }
  | .release guard, next, scene =>
    (∃ hold ∈ scene.holds, hold.guard = guard) ∧
      next () { scene with holds := scene.holds.filter (·.guard ≠ guard) }
  | .mint, next, scene =>
    if maxPageNo < scene.anchor.nextPageNo then
      failed (.storage (.segmentExhausted ground.segment)) scene
    else next (.ofParts ground.segment scene.anchor.nextPageNo)
      { scene with anchor.nextPageNo := scene.anchor.nextPageNo + 1 }
  | .setRoot root, next, scene => next () { scene with anchor.root := some root }

theorem Request.Meets.imp {ground : Ground} {failed failed' : Error → Scene → Prop}
    {request : Request} {next next' : request.Reply → Scene → Prop} {scene : Scene}
    (h : request.Meets ground failed next scene)
    (hf : ∀ error s, failed error s → failed' error s)
    (hn : ∀ reply s, next reply s → next' reply s) :
    request.Meets ground failed' next' scene := by
  cases request with
  | fetch latch page =>
    obtain ⟨mine, few, apart, refused, taken⟩ := h
    exact ⟨mine, few, apart, fun fault of => hf _ _ (refused fault of),
      fun guard fresh => hn _ _ (taken guard fresh)⟩
  | create page =>
    obtain ⟨few, apart, refused, taken⟩ := h
    exact ⟨few, apart, fun fault of => hf _ _ (refused fault of),
      fun guard fresh => hn _ _ (taken guard fresh)⟩
  | write guard bytes =>
    obtain ⟨page, held, written⟩ := h
    exact ⟨page, held, hn _ _ written⟩
  | release guard => exact ⟨h.1, hn _ _ h.2⟩
  | mint =>
    simp only [Request.Meets] at h ⊢
    split at h
    · rename_i full; rw [if_pos full]; exact hf _ _ h
    · rename_i room; rw [if_neg room]; exact hn _ _ h
  | setRoot root => exact hn _ _ h

namespace Access

variable {α β : Type}

/-- From the scene the program ends with a result as in `post` or with an error as in `failed`. -/
def Ensures (ground : Ground) (failed : Error → Scene → Prop) :
    Access α → (α → Scene → Prop) → Scene → Prop
  | .done a, post, scene => post a scene
  | .fail (.error error), _, scene => failed error scene
  | .fail (.violation _), _, _ => False
  | .ask request next, post, scene =>
    request.Meets ground failed (fun reply => Ensures ground failed (next reply) post) scene

namespace Ensures

variable {ground : Ground} {failed failed' : Error → Scene → Prop} {scene : Scene}

theorem bind_eq (program : Access α) (next : α → Access β) (post : β → Scene → Prop) :
    Ensures ground failed (program >>= next) post =
      Ensures ground failed program fun a => Ensures ground failed (next a) post := by
  change Ensures ground failed (program.bind next) post = _
  induction program with
  | done a => rfl
  | fail failure => cases failure <;> rfl
  | ask request rest ih =>
    funext scene
    simp only [Access.bind, Ensures, ih]

@[simp] theorem bind_iff {program : Access α} {next : α → Access β} {post : β → Scene → Prop} :
    Ensures ground failed (program >>= next) post scene ↔
      Ensures ground failed program (fun a => Ensures ground failed (next a) post) scene := by
  rw [bind_eq]

@[simp] theorem map_iff {program : Access α} {f : α → β} {post : β → Scene → Prop} :
    Ensures ground failed (f <$> program) post scene ↔
      Ensures ground failed program (fun a => post (f a)) scene := by
  rw [← bind_pure_comp, bind_iff]
  rfl

theorem imp {program : Access α} {post post' : α → Scene → Prop}
    (h : Ensures ground failed program post scene) (hd : ∀ a s, post a s → post' a s)
    (hf : ∀ error s, failed error s → failed' error s) :
    Ensures ground failed' program post' scene := by
  induction program generalizing scene with
  | done a => exact hd a scene h
  | fail failure =>
    cases failure with
    | error error => exact hf error scene h
    | violation violation => exact h
  | ask request rest ih => exact Request.Meets.imp h hf fun reply s => ih reply

theorem weaken {program : Access α} {post post' : α → Scene → Prop}
    (h : Ensures ground failed program post scene) (hd : ∀ a s, post a s → post' a s) :
    Ensures ground failed program post' scene :=
  h.imp hd fun _ _ refused => refused

theorem andThen {program : Access α} {next : α → Access β} {between : α → Scene → Prop}
    {post : β → Scene → Prop} (h : Ensures ground failed program between scene)
    (goes_on : ∀ a s, between a s → Ensures ground failed (next a) post s) :
    Ensures ground failed (program >>= next) post scene :=
  bind_iff.mpr (h.weaken goes_on)

variable {post : α → Scene → Prop}

theorem done_iff {a : α} : Ensures ground failed (.done a) post scene ↔ post a scene := Iff.rfl

theorem fail_iff {failure : Failure} : Ensures ground failed (.fail failure) post scene ↔
    ∃ error, failure = .error error ∧ failed error scene := by
  cases failure with
  | error error => exact ⟨fun h => ⟨error, rfl, h⟩, by rintro ⟨_, ⟨⟩, h⟩; exact h⟩
  | violation violation => exact ⟨False.elim, by rintro ⟨_, ⟨⟩, -⟩⟩

theorem ask_iff {request : Request} {next : request.Reply → Access α} :
    Ensures ground failed (.ask request next) post scene ↔
      request.Meets ground failed (fun reply => Ensures ground failed (next reply) post) scene :=
  Iff.rfl

@[simp] theorem pure_iff {a : α} : Ensures ground failed (pure a) post scene ↔ post a scene :=
    Iff.rfl

@[simp] theorem error_iff {error : Error} :
    Ensures ground failed (Access.error error) post scene ↔ failed error scene := Iff.rfl

theorem ofNode_iff {result : Except Violation α} {a : α} (ok : result = .ok a) :
    Ensures ground failed (ofNode result) post scene ↔ post a scene := by
  subst ok; rfl

theorem fetch_iff {latch : Latch} {page : PageId} {post : Pinned → Scene → Prop} :
    Ensures ground failed (Access.fetch latch page) post scene ↔
      ground.mine page ∧ scene.holds.length < ground.limit ∧
      (∀ hold ∈ scene.holds, hold.page ≠ page) ∧
      (∀ fault : StorageFault, fault.OfPages → failed (.storage fault) scene) ∧
      ∀ guard, scene.Fresh guard → post ⟨guard, page, scene.content page⟩
        { scene with holds := ⟨guard, page, latch⟩ :: scene.holds } := Iff.rfl

theorem create_iff {page : PageId} {post : Pinned → Scene → Prop} :
    Ensures ground failed (Access.create page) post scene ↔
      scene.holds.length < ground.limit ∧
      (∀ hold ∈ scene.holds, hold.page ≠ page) ∧
      (∀ fault : StorageFault, fault.OfPages → failed (.storage fault) scene) ∧
      ∀ guard, scene.Fresh guard → post ⟨guard, page, Page.zeroed⟩
        { scene with
          content := Function.update scene.content page Page.zeroed
          holds := ⟨guard, page, .exclusive⟩ :: scene.holds } := Iff.rfl

theorem write_iff {pinned : Pinned} {bytes : Page} {post : Unit → Scene → Prop} :
    Ensures ground failed (Access.write pinned bytes) post scene ↔
      ∃ page, ⟨pinned.guard, page, .exclusive⟩ ∈ scene.holds ∧
        post () { scene with content := Function.update scene.content page bytes } := Iff.rfl

theorem release_iff {pinned : Pinned} {post : Unit → Scene → Prop} :
    Ensures ground failed (Access.release pinned) post scene ↔
      (∃ hold ∈ scene.holds, hold.guard = pinned.guard) ∧
        post () { scene with holds := scene.holds.filter (·.guard ≠ pinned.guard) } := Iff.rfl

theorem mint_iff {post : PageId → Scene → Prop} :
    Ensures ground failed Access.mint post scene ↔
      if maxPageNo < scene.anchor.nextPageNo then
        failed (.storage (.segmentExhausted ground.segment)) scene
      else post (.ofParts ground.segment scene.anchor.nextPageNo)
        { scene with anchor.nextPageNo := scene.anchor.nextPageNo + 1 } := Iff.rfl

theorem setRoot_iff {root : PageId} {post : Unit → Scene → Prop} :
    Ensures ground failed (Access.setRoot root) post scene ↔
      post () { scene with anchor.root := some root } := Iff.rfl

end Ensures

end Access

def Pinned.hold (latch : Latch) (pinned : Pinned) : Hold := ⟨pinned.guard, pinned.page, latch⟩

/-- The guards that are held are those of the given pages. -/
structure Held (latch : Latch) (pins : List Pinned) (holds : List Hold) : Prop where
  perm : holds.Perm (pins.map (Pinned.hold latch))
  distinct : (pins.map Pinned.guard).Nodup

namespace Held

variable {latch : Latch} {pins rest : List Pinned} {holds : List Hold} {pinned : Pinned}

theorem nothing (latch : Latch) : Held latch [] [] := ⟨.refl _, List.nodup_nil⟩

theorem length_eq (h : Held latch pins holds) : holds.length = pins.length := by
  rw [h.perm.length_eq, List.length_map]

theorem relabel {pins' : List Pinned} (h : Held latch pins holds)
    (same : (pins.map (Pinned.hold latch)).Perm (pins'.map (Pinned.hold latch))) :
    Held latch pins' holds := by
  have guards := same.map Hold.guard
  rw [List.map_map, List.map_map] at guards
  exact ⟨h.perm.trans same, guards.nodup_iff.mp h.distinct⟩

theorem reorder {pins' : List Pinned} (h : Held latch pins holds) (same : pins.Perm pins') :
    Held latch pins' holds :=
  h.relabel (same.map _)

theorem exists_pin (h : Held latch pins holds) {hold : Hold} (mem : hold ∈ holds) :
    ∃ pinned ∈ pins, pinned.hold latch = hold :=
  List.mem_map.mp (h.perm.mem_iff.mp mem)

theorem page_ne (h : Held latch pins holds) {page : PageId}
    (apart : ∀ pinned ∈ pins, pinned.page ≠ page) : ∀ hold ∈ holds, hold.page ≠ page := by
  intro hold mem
  obtain ⟨pinned, among, rfl⟩ := h.exists_pin mem
  exact apart pinned among

theorem hold_mem (h : Held latch pins holds) (mem : pinned ∈ pins) : pinned.hold latch ∈ holds :=
  h.perm.mem_iff.mpr (List.mem_map_of_mem mem)

theorem take (h : Held latch pins holds) (fresh : ∀ hold ∈ holds, hold.guard ≠ pinned.guard) :
    Held latch (pinned :: pins) (pinned.hold latch :: holds) := by
  refine ⟨h.perm.cons _, List.nodup_cons.mpr ⟨?_, h.distinct⟩⟩
  intro mem
  obtain ⟨other, mem, same⟩ := List.mem_map.mp mem
  exact fresh _ (h.hold_mem mem) same

theorem drop (h : Held latch (pinned :: rest) holds) :
    Held latch rest (holds.filter (·.guard ≠ pinned.guard)) := by
  obtain ⟨absent, distinct⟩ := List.nodup_cons.mp h.distinct
  refine ⟨(h.perm.filter _).trans (.of_eq ?_), distinct⟩
  rw [List.map_cons, List.filter_cons_of_neg (by simp [Pinned.hold])]
  refine List.filter_eq_self.mpr fun hold mem => ?_
  obtain ⟨other, listed, rfl⟩ := List.mem_map.mp mem
  have apart : (other.hold latch).guard ≠ pinned.guard :=
    fun same => absent (same ▸ List.mem_map_of_mem listed)
  simpa using apart

end Held

namespace Access.Ensures

variable {ground : Ground} {failed : Error → Scene → Prop} {scene : Scene} {latch : Latch}
  {pins rest : List Pinned} {pinned : Pinned} {page : PageId}

theorem fetch_held {post : Pinned → Scene → Prop} (held : Held latch pins scene.holds)
    (mine : ground.mine page) (few : pins.length < ground.limit)
    (apart : ∀ pinned ∈ pins, pinned.page ≠ page)
    (refused : ∀ fault : StorageFault, failed (.storage fault) scene)
    (taken : ∀ guard holds, Held latch (⟨guard, page, scene.content page⟩ :: pins) holds →
      post ⟨guard, page, scene.content page⟩ { scene with holds }) :
    Ensures ground failed (Access.fetch latch page) post scene :=
  fetch_iff.mpr ⟨mine, by rw [held.length_eq]; exact few, held.page_ne apart,
    fun fault _ => refused fault, fun guard fresh => taken guard _ (held.take fresh)⟩

theorem create_held {post : Pinned → Scene → Prop} (held : Held .exclusive pins scene.holds)
    (few : pins.length < ground.limit) (apart : ∀ pinned ∈ pins, pinned.page ≠ page)
    (refused : ∀ fault : StorageFault, failed (.storage fault) scene)
    (taken : ∀ guard holds, Held .exclusive (⟨guard, page, Page.zeroed⟩ :: pins) holds →
      post ⟨guard, page, Page.zeroed⟩
        ⟨scene.anchor, Function.update scene.content page Page.zeroed, holds⟩) :
    Ensures ground failed (Access.create page) post scene :=
  create_iff.mpr ⟨by rw [held.length_eq]; exact few, held.page_ne apart,
    fun fault _ => refused fault, fun guard fresh => taken guard _ (held.take fresh)⟩

theorem write_held {bytes : Page} {post : Unit → Scene → Prop}
    (held : Held .exclusive pins scene.holds) (mem : pinned ∈ pins)
    (written : post ()
      { scene with content := Function.update scene.content pinned.page bytes }) :
    Ensures ground failed (Access.write pinned bytes) post scene :=
  write_iff.mpr ⟨pinned.page, held.hold_mem mem, written⟩

theorem release_held {post : Unit → Scene → Prop} (held : Held latch pins scene.holds)
    (among : pins.Perm (pinned :: rest))
    (released : ∀ holds, Held latch rest holds → post () { scene with holds }) :
    Ensures ground failed (Access.release pinned) post scene :=
  release_iff.mpr ⟨⟨_, held.hold_mem (among.mem_iff.mpr (List.mem_cons_self ..)), rfl⟩,
    released _ (held.reorder among).drop⟩

end Access.Ensures

-- What a program ensures is read off its parts; unfolding it would run the program.
attribute [irreducible] Access.Ensures

end PagedIndex
