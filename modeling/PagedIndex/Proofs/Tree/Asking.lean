import PagedIndex.Tree.Call

/-!
# What calls ask for

`Access.Asks` says which requests a program may make, whatever it is told. A call that only looks
asks for guards and lets go of them, and an erasure writes under them besides, so neither takes a
page or moves the root. No program speaks for the storage: it reports a storage fault only where a
request was refused with it.
-/

namespace PagedIndex

/-- Leaves the pages and the anchor as they are. -/
def Request.Looks : Request → Prop
  | .fetch _ _ | .release _ => True
  | .create _ | .write _ _ | .mint | .setRoot _ => False

/-- Leaves the anchor as it is, and takes no page. -/
def Request.Edits : Request → Prop
  | .fetch _ _ | .release _ | .write _ _ => True
  | .create _ | .mint | .setRoot _ => False

theorem Request.Looks.edits {request : Request} (looks : request.Looks) : request.Edits := by
  cases request <;> first | exact looks | exact looks.elim

namespace Access

variable {α β : Type}

/-- The program asks for nothing but what is allowed, and has no storage fault of its own. -/
def Asks (allowed : Request → Prop) : Access α → Prop
  | .done _ => True
  | .fail failure => ∀ fault, failure ≠ .error (.storage fault)
  | .ask request next => allowed request ∧ ∀ reply, (next reply).Asks allowed

namespace Asks

variable {allowed allowed' : Request → Prop}

theorem mono {program : Access α} (h : program.Asks allowed)
    (more : ∀ request, allowed request → allowed' request) : program.Asks allowed' := by
  induction program with
  | done a => trivial
  | fail failure => exact h
  | ask request next ih => exact ⟨more request h.1, fun reply => ih reply (h.2 reply)⟩

theorem bind {program : Access α} {next : α → Access β} (h : program.Asks allowed)
    (goes_on : ∀ a, (next a).Asks allowed) : (program >>= next).Asks allowed := by
  change (program.bind next).Asks allowed
  induction program with
  | done a => exact goes_on a
  | fail failure => exact h
  | ask request rest ih => exact ⟨h.1, fun reply => ih reply (h.2 reply)⟩

theorem done (a : α) : (pure a : Access α).Asks allowed := trivial

theorem map {program : Access α} (h : program.Asks allowed) (f : α → β) :
    (f <$> program).Asks allowed := by
  rw [← bind_pure_comp]
  exact h.bind fun a => done (f a)

theorem corrupted (fault : TreeFault) :
    (Access.error (.corrupted fault) : Access α).Asks allowed := nofun

theorem corrupted_bind (fault : TreeFault) (next : α → Access β) :
    (Access.error (.corrupted fault) >>= next).Asks allowed := nofun

theorem violate (violation : Violation) : (Access.violate violation : Access α).Asks allowed :=
  nofun

theorem ofNode (result : Except Violation α) : (Access.ofNode result).Asks allowed := by
  cases result with
  | ok a => exact done a
  | error violation => exact violate violation

theorem node {result : Except Violation α} {next : α → Access β}
    (goes_on : ∀ a, (next a).Asks allowed) : (Access.ofNode result >>= next).Asks allowed :=
  bind (ofNode result) goes_on

theorem request {request : Request} (mem : allowed request) :
    (Access.request request).Asks allowed := ⟨mem, fun _ => trivial⟩

theorem foldrM {items : List α} {each : α → β → Access β} (h : ∀ a b, (each a b).Asks allowed)
    (start : β) : (items.foldrM each start).Asks allowed := by
  induction items with
  | nil => exact done start
  | cons a rest ih =>
    rw [List.foldrM_cons]
    exact ih.bind (h a)

theorem fail_iff {failure : Failure} : (.fail failure : Access α).Asks allowed ↔
    ∀ fault, failure ≠ .error (.storage fault) := Iff.rfl

theorem ask_iff {request : Request} {next : request.Reply → Access α} :
    (ask request next).Asks allowed ↔ allowed request ∧ ∀ reply, (next reply).Asks allowed :=
  Iff.rfl

end Asks

-- What a program asks for is read off its parts; unfolding it would run the program.
attribute [irreducible] Access.Asks

end Access

namespace Tree

open Access

variable {K V : Type} {tree : Tree K V}

theorem visit_asks (page : PageId) : (visit page).Asks Request.Looks :=
  .bind (.request trivial) fun _ => .bind (.request trivial) fun _ => .done _

theorem height_asks : tree.height.Asks Request.Looks := by
  unfold height
  split
  · exact .bind (visit_asks _) fun bytes => .node fun header => .done _
  · exact .done _

theorem ofCheck_asks {α : Type} (result : Except TreeFault α) :
    (ofCheck result).Asks Request.Looks := by
  cases result with
  | ok a => exact .done a
  | error fault => exact .corrupted fault

variable [IndexKey K]

theorem countFrom_asks (depth : Nat) (page : PageId) :
    (tree.countFrom depth page).Asks Request.Looks := by
  induction depth generalizing page with
  | zero => exact .violate _
  | succ depth ih =>
    rw [countFrom]
    refine .bind (visit_asks page) fun bytes => .node fun header => ?_
    split
    · exact .done _
    · exact .node fun children =>
        .foldrM (fun child total => .bind (ih child) fun n => .done _) 0

theorem length_asks : tree.length.Asks Request.Looks := by
  unfold length
  split
  · exact countFrom_asks _ _
  · exact .done _

theorem checkLeaf_asks (page : PageId) (bytes : Page) (count : Nat) (range : Range K)
    (census : Census) : (tree.checkLeaf page bytes count range census).Asks Request.Looks := by
  unfold checkLeaf
  split
  · exact .bind (.corrupted _) fun _ => .node fun keys => .bind (ofCheck_asks _) fun _ => .done _
  · exact .node fun keys => .bind (ofCheck_asks _) fun _ => .done _

theorem checkInner_asks (page : PageId) (bytes : Page) (count : Nat) (range : Range K) :
    (tree.checkInner page bytes count range).Asks Request.Looks := by
  unfold checkInner
  split
  · exact .bind (.corrupted _) fun _ => .node fun keys => .bind (ofCheck_asks _) fun _ =>
      .node fun children => .done _
  · exact .node fun keys => .bind (ofCheck_asks _) fun _ => .node fun children => .done _

theorem validateFrom_asks (depth : Nat) (page : PageId) (expected : Option UInt16)
    (range : Range K) (census : Census) :
    (tree.validateFrom depth page expected range census).Asks Request.Looks := by
  induction depth generalizing page expected range census with
  | zero => exact .violate _
  | succ depth ih =>
    have below (header : Header) (bytes : Page) (census : Census) :
        (if header.isLeaf then tree.checkLeaf page bytes header.count.toNat range census
        else do
          let children ← tree.checkInner page bytes header.count.toNat range
          let census := { census with shape.inners := census.shape.inners + 1 }
          children.foldrM (fun child census =>
            tree.validateFrom depth child.1 (some (header.level - 1)) child.2 census)
            census).Asks Request.Looks := by
      split
      · exact checkLeaf_asks page bytes _ range census
      · refine .bind (checkInner_asks page bytes _ range) fun children => .foldrM ?_ _
        exact fun child census => ih child.1 _ child.2 census
    rw [validateFrom]
    by_cases met : page ∈ census.seen
    · rw [if_pos met]
      exact .corrupted_bind _ _
    · rw [if_neg met]
      refine .bind (visit_asks page) fun bytes => .node fun header => ?_
      cases expected with
      | none => exact .bind (.done _) (below header bytes)
      | some level =>
        by_cases same : level = header.level
        · simp only [if_pos same]
          exact .bind (.done _) (below header bytes)
        · simp only [if_neg same]
          exact .bind (.corrupted _) (below header bytes)

theorem validate_asks : tree.validate.Asks Request.Looks := by
  unfold validate
  split
  · exact .bind (validateFrom_asks _ _ _ _ _) fun census => .done _
  · exact .done _

variable {key : K} {value : V} {steps : Nat}

theorem descend_asks {current : Pinned} :
    (tree.descend key steps current).Asks Request.Looks := by
  induction steps generalizing current with
  | zero => exact .violate _
  | succ steps ih =>
    rw [descend]
    refine .node fun header => ?_
    split
    · exact .done _
    · exact .node fun child => .bind (.request trivial) fun next =>
        .bind (.request trivial) fun _ => ih

theorem enterChild_asks {descent : Descent} :
    (tree.enterChild key descent).Asks Request.Edits := by
  refine .node fun child => .bind (.request trivial) fun next => ?_
  split
  · exact .bind (.request trivial) fun _ => .done _
  · exact .done _

theorem descendExclusive_asks {descent : Descent} :
    (tree.descendExclusive key steps descent).Asks Request.Edits := by
  induction steps generalizing descent with
  | zero => exact .violate _
  | succ steps ih =>
    rw [descendExclusive]
    refine .node fun header => ?_
    split
    · exact .done _
    · exact .bind enterChild_asks fun _ => ih

theorem unlink_asks {parent : Pinned} : (tree.unlink key parent).Asks Request.Edits := by
  refine .node fun count => ?_
  split
  · exact .node fun edited => .request trivial
  · exact .done _

omit [IndexKey K] in
theorem pinForSplit_asks {parent : Option Pinned} :
    (pinForSplit parent).Asks fun _ => True := by
  refine .bind (.request trivial) fun sibling => .bind (.request trivial) fun pinned => ?_
  cases parent with
  | some parent => exact .done _
  | none =>
    exact .bind (.request trivial) fun above => .bind (.request trivial) fun _ => .done _

variable [FixedWidth V]

theorem lookup_asks : (tree.lookup key).Asks Request.Looks := by
  unfold lookup
  split
  · exact .bind (.request trivial) fun top => .bind descend_asks fun bottom => .ofNode _
  · exact .done _

theorem erase_asks : (tree.erase key).Asks Request.Edits := by
  unfold erase
  split
  · refine .bind (.request trivial) fun top => .bind descendExclusive_asks fun descent =>
      .node fun position => ?_
    split
    · refine .node fun edited => .bind (.request trivial) fun _ => .node fun count => ?_
      split
      · split
        · exact unlink_asks
        · exact .done _
      · exact .done _
    · exact .done _
  · exact .done _

theorem split_asks {descent : Descent} : (tree.split descent).Asks fun _ => True := by
  refine .node fun header => .bind pinForSplit_asks fun pinned => .node fun halves => ?_
  refine .bind (.request trivial) fun _ => .bind (.request trivial) fun _ => .node fun edited => ?_
  refine .bind (.request trivial) fun _ => ?_
  split
  · exact .bind (.request trivial) fun _ => .done _
  · exact .done _

theorem enterHalf_asks {descent : Descent} :
    (tree.enterHalf key descent).Asks fun _ => True := by
  refine .bind split_asks fun parted => ?_
  split
  · exact .bind (.request trivial) fun _ => .done _
  · exact .bind (.request trivial) fun _ => .done _

theorem insertFrom_asks {descent : Descent} :
    (tree.insertFrom key value steps descent).Asks fun _ => True := by
  induction steps generalizing descent with
  | zero => exact .violate _
  | succ steps ih =>
    rw [insertFrom]
    refine .node fun header => ?_
    split
    · refine .node fun position => ?_
      split
      · exact .node fun edited => .request trivial
      · exact .bind enterHalf_asks fun _ => ih
    · split
      · exact .bind (enterChild_asks.mono fun _ _ => trivial) fun _ => ih
      · exact .bind enterHalf_asks fun _ => ih

theorem plant_asks : (tree.plant key value).Asks fun _ => True := by
  unfold plant
  exact .bind (.request trivial) fun page => .bind (.request trivial) fun root =>
    .node fun edited => .bind (.request trivial) fun _ => .request trivial

theorem insert_asks : (tree.insert key value).Asks fun _ => True := by
  unfold insert
  split
  · exact plant_asks
  · exact .bind (.request trivial) fun top => insertFrom_asks

end Tree

def Call.Requires {K V : Type} : Call K V → Request → Prop
  | .insert _ _ => fun _ => True
  | .erase _ => Request.Edits
  | .lookup _ | .height | .length | .isEmpty | .validate => Request.Looks

theorem Tree.program_asks {K V : Type} [IndexKey K] [FixedWidth V] (tree : Tree K V)
    (call : Call K V) : (tree.program call).Asks call.Requires := by
  cases call with
  | insert key value => exact .bind insert_asks fun _ => .done _
  | erase key => exact .bind erase_asks fun _ => .done _
  | lookup key => exact lookup_asks.map _
  | height => exact height_asks.map _
  | length => exact length_asks.map _
  | isEmpty => exact .map (.bind length_asks fun n => .done _) _
  | validate => exact validate_asks.map _

end PagedIndex
