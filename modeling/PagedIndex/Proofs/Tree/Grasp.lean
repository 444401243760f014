import PagedIndex.Proofs.Tree.Scene
import PagedIndex.Tree.Call

/-!
# How many guards a call holds

`Access.Within` bounds the guards that a program holds at a time, whatever the pages read as and
wherever it fails. Each call keeps to a bound of its own: a program that looks holds one page at a
time, a lookup two, and a change three.
-/

namespace PagedIndex

/-- The request leaves the program with at most `limit` guards, whatever the reply. -/
def Request.Within (limit : Nat) :
    (request : Request) → (request.Reply → List Hold → Prop) → List Hold → Prop
  | .fetch latch page, next, holds =>
    holds.length < limit ∧ ∀ guard bytes, (∀ hold ∈ holds, hold.guard ≠ guard) →
      next ⟨guard, page, bytes⟩ (⟨guard, page, latch⟩ :: holds)
  | .create page, next, holds =>
    holds.length < limit ∧ ∀ guard bytes, (∀ hold ∈ holds, hold.guard ≠ guard) →
      next ⟨guard, page, bytes⟩ (⟨guard, page, .exclusive⟩ :: holds)
  | .write guard _, next, holds => (∃ page, ⟨guard, page, .exclusive⟩ ∈ holds) ∧ next () holds
  | .release guard, next, holds =>
    (∃ hold ∈ holds, hold.guard = guard) ∧ next () (holds.filter (·.guard ≠ guard))
  | .mint, next, holds => ∀ page, next page holds
  | .setRoot _, next, holds => next () holds

theorem Request.Within.imp {limit : Nat} {request : Request}
    {next next' : request.Reply → List Hold → Prop} {holds : List Hold}
    (h : request.Within limit next holds) (hn : ∀ reply s, next reply s → next' reply s) :
    request.Within limit next' holds := by
  cases request with
  | fetch latch page => exact ⟨h.1, fun guard bytes fresh => hn _ _ (h.2 guard bytes fresh)⟩
  | create page => exact ⟨h.1, fun guard bytes fresh => hn _ _ (h.2 guard bytes fresh)⟩
  | write guard bytes => exact ⟨h.1, hn _ _ h.2⟩
  | release guard => exact ⟨h.1, hn _ _ h.2⟩
  | mint => exact fun page => hn _ _ (h page)
  | setRoot root => exact hn _ _ h

theorem Request.Within.mono {limit limit' : Nat} {request : Request}
    {next : request.Reply → List Hold → Prop} {holds : List Hold}
    (h : request.Within limit next holds) (more : limit ≤ limit') :
    request.Within limit' next holds := by
  cases request with
  | fetch latch page => exact ⟨Nat.lt_of_lt_of_le h.1 more, h.2⟩
  | create page => exact ⟨Nat.lt_of_lt_of_le h.1 more, h.2⟩
  | write guard bytes => exact h
  | release guard => exact h
  | mint => exact h
  | setRoot root => exact h

theorem Request.Within.bounded {limit : Nat} {request : Request}
    {next : request.Reply → List Hold → Prop} {holds : List Hold}
    (h : request.Within limit next holds) (few : holds.length ≤ limit) :
    request.Within limit (fun reply holds => next reply holds ∧ holds.length ≤ limit) holds := by
  cases request with
  | fetch latch page => exact ⟨h.1, fun guard bytes fresh => ⟨h.2 guard bytes fresh, h.1⟩⟩
  | create page => exact ⟨h.1, fun guard bytes fresh => ⟨h.2 guard bytes fresh, h.1⟩⟩
  | write guard bytes => exact ⟨h.1, h.2, few⟩
  | release guard => exact ⟨h.1, h.2, Nat.le_trans (List.length_filter_le _ _) few⟩
  | mint => exact fun page => ⟨h page, few⟩
  | setRoot root => exact ⟨h, few⟩

namespace Access

variable {α β : Type}

/-- From these guards on the program holds at most `limit` at a time. -/
def Within (limit : Nat) : Access α → (α → List Hold → Prop) → List Hold → Prop
  | .done a, post, holds => post a holds
  | .fail _, _, _ => True
  | .ask request next, post, holds =>
    request.Within limit (fun reply => Within limit (next reply) post) holds

namespace Within

variable {limit : Nat} {holds : List Hold}

theorem bind_eq (program : Access α) (next : α → Access β) (post : β → List Hold → Prop) :
    Within limit (program >>= next) post =
      Within limit program fun a => Within limit (next a) post := by
  change Within limit (program.bind next) post = _
  induction program with
  | done a => rfl
  | fail failure => rfl
  | ask request rest ih =>
    funext holds
    simp only [Access.bind, Within, ih]

@[simp] theorem bind_iff {program : Access α} {next : α → Access β}
    {post : β → List Hold → Prop} : Within limit (program >>= next) post holds ↔
      Within limit program (fun a => Within limit (next a) post) holds := by
  rw [bind_eq]

@[simp] theorem map_iff {program : Access α} {f : α → β} {post : β → List Hold → Prop} :
    Within limit (f <$> program) post holds ↔
      Within limit program (fun a => post (f a)) holds := by
  rw [← bind_pure_comp, bind_iff]
  rfl

theorem weaken {program : Access α} {post post' : α → List Hold → Prop}
    (h : Within limit program post holds) (hd : ∀ a s, post a s → post' a s) :
    Within limit program post' holds := by
  induction program generalizing holds with
  | done a => exact hd a holds h
  | fail failure => trivial
  | ask request rest ih => exact Request.Within.imp h fun reply s => ih reply

theorem mono {limit' : Nat} {program : Access α} {post : α → List Hold → Prop}
    (h : Within limit program post holds) (more : limit ≤ limit') :
    Within limit' program post holds := by
  induction program generalizing holds with
  | done a => exact h
  | fail failure => trivial
  | ask request rest ih => exact (Request.Within.imp h fun reply s => ih reply).mono more

theorem andThen {program : Access α} {next : α → Access β} {between : α → List Hold → Prop}
    {post : β → List Hold → Prop} (h : Within limit program between holds)
    (goes_on : ∀ a s, between a s → Within limit (next a) post s) :
    Within limit (program >>= next) post holds :=
  bind_iff.mpr (h.weaken goes_on)

variable {post : α → List Hold → Prop}

@[simp] theorem pure_iff {a : α} : Within limit (pure a) post holds ↔ post a holds := Iff.rfl

theorem error {fault : Error} : Within limit (Access.error fault) post holds := trivial

theorem violate {violation : Violation} : Within limit (Access.violate violation) post holds :=
  trivial

theorem ofNode {result : Except Violation α} (goes_on : ∀ a, result = .ok a → post a holds) :
    Within limit (Access.ofNode result) post holds := by
  cases result with
  | ok a => exact goes_on a rfl
  | error violation => trivial

theorem node {result : Except Violation α} {next : α → Access β} {post : β → List Hold → Prop}
    (goes_on : ∀ a, Within limit (next a) post holds) :
    Within limit (Access.ofNode result >>= next) post holds :=
  bind_iff.mpr (ofNode fun a _ => goes_on a)

variable {latch : Latch} {pins rest : List Pinned} {pinned : Pinned} {page : PageId}

theorem fetch {post : Pinned → List Hold → Prop} (held : Held latch pins holds)
    (few : pins.length < limit)
    (taken : ∀ guard bytes holds, Held latch (⟨guard, page, bytes⟩ :: pins) holds →
      post ⟨guard, page, bytes⟩ holds) :
    Within limit (Access.fetch latch page) post holds :=
  ⟨by rw [held.length_eq]; exact few,
    fun guard bytes fresh => taken guard bytes _ (held.take fresh)⟩

theorem create {post : Pinned → List Hold → Prop} (held : Held .exclusive pins holds)
    (few : pins.length < limit)
    (taken : ∀ guard bytes holds, Held .exclusive (⟨guard, page, bytes⟩ :: pins) holds →
      post ⟨guard, page, bytes⟩ holds) :
    Within limit (Access.create page) post holds :=
  ⟨by rw [held.length_eq]; exact few,
    fun guard bytes fresh => taken guard bytes _ (held.take fresh)⟩

theorem write {bytes : Page} {post : Unit → List Hold → Prop}
    (held : Held .exclusive pins holds) (mem : pinned ∈ pins) (written : post () holds) :
    Within limit (Access.write pinned bytes) post holds :=
  ⟨⟨pinned.page, held.hold_mem mem⟩, written⟩

theorem release {post : Unit → List Hold → Prop} (held : Held latch pins holds)
    (among : pins.Perm (pinned :: rest))
    (released : ∀ holds, Held latch rest holds → post () holds) :
    Within limit (Access.release pinned) post holds :=
  ⟨⟨_, held.hold_mem (among.mem_iff.mpr (List.mem_cons_self ..)), rfl⟩,
    released _ (held.reorder among).drop⟩

theorem mint {post : PageId → List Hold → Prop} (minted : ∀ page, post page holds) :
    Within limit Access.mint post holds := minted

theorem setRoot {root : PageId} {post : Unit → List Hold → Prop} (anchored : post () holds) :
    Within limit (Access.setRoot root) post holds := anchored

theorem done_iff {a : α} : Within limit (.done a) post holds ↔ post a holds := Iff.rfl

theorem ask_iff {request : Request} {next : request.Reply → Access α} :
    Within limit (.ask request next) post holds ↔
      request.Within limit (fun reply => Within limit (next reply) post) holds := Iff.rfl

end Within

-- What a program holds is read off its parts; unfolding it would run the program.
attribute [irreducible] Access.Within

/-- The program starts and ends without guards and holds at most one in between. -/
def Glances (program : Access α) : Prop := Within 1 program (fun _ holds => holds = []) []

namespace Glances

theorem bind {program : Access α} {next : α → Access β} (h : program.Glances)
    (goes_on : ∀ a, (next a).Glances) : (program >>= next).Glances := by
  refine Within.andThen h ?_
  rintro a _ rfl
  exact goes_on a

theorem done (a : α) : (pure a : Access α).Glances := Within.pure_iff.mpr rfl

theorem node (result : Except Violation α) : (Access.ofNode result).Glances :=
  Within.ofNode fun _ _ => rfl

theorem error (fault : Error) : (Access.error fault : Access α).Glances := Within.error

theorem foldrM {items : List α} {each : α → β → Access β} (h : ∀ a b, (each a b).Glances)
    (start : β) : (items.foldrM each start).Glances := by
  induction items with
  | nil => exact done start
  | cons a rest ih =>
    rw [List.foldrM_cons]
    exact ih.bind (h a)

end Glances

end Access

namespace Tree

open Access

variable {K V : Type} {tree : Tree K V}

theorem visit_glances (page : PageId) : (visit page).Glances := by
  refine Within.bind_iff.mpr (Within.fetch (.nothing .shared) Nat.one_pos ?_)
  intro guard bytes holds held
  refine Within.bind_iff.mpr (Within.release held (.refl _) ?_)
  intro holds held
  exact Within.pure_iff.mpr (List.length_eq_zero_iff.mp held.length_eq)

theorem height_glances : tree.height.Glances := by
  unfold height
  split
  · exact .bind (visit_glances _) fun bytes => .bind (.node _) fun header => .done _
  · exact .done _

theorem ofCheck_glances {α : Type} (result : Except TreeFault α) : (ofCheck result).Glances := by
  cases result with
  | ok a => exact .done a
  | error fault => exact .error _

variable [IndexKey K]

theorem countFrom_glances (depth : Nat) (page : PageId) : (tree.countFrom depth page).Glances := by
  induction depth generalizing page with
  | zero => exact Within.violate
  | succ depth ih =>
    rw [countFrom]
    refine .bind (visit_glances page) fun bytes => .bind (.node _) fun header => ?_
    split
    · exact .done _
    · exact .bind (.node _) fun children =>
        .foldrM (fun child total => .bind (ih child) fun n => .done _) 0

theorem length_glances : tree.length.Glances := by
  unfold length
  split
  · exact countFrom_glances _ _
  · exact .done _

theorem checkLeaf_glances (page : PageId) (bytes : Page) (count : Nat) (range : Range K)
    (census : Census) : (tree.checkLeaf page bytes count range census).Glances := by
  unfold checkLeaf
  split
  · exact .bind (.error _) fun _ => .bind (.node _) fun keys => .bind (ofCheck_glances _) fun _ =>
      .done _
  · exact .bind (.node _) fun keys => .bind (ofCheck_glances _) fun _ => .done _

theorem checkInner_glances (page : PageId) (bytes : Page) (count : Nat) (range : Range K) :
    (tree.checkInner page bytes count range).Glances := by
  unfold checkInner
  split
  · exact .bind (.error _) fun _ => .bind (.node _) fun keys => .bind (ofCheck_glances _) fun _ =>
      .bind (.node _) fun children => .done _
  · exact .bind (.node _) fun keys => .bind (ofCheck_glances _) fun _ =>
      .bind (.node _) fun children => .done _

theorem validateFrom_glances (depth : Nat) (page : PageId) (expected : Option UInt16)
    (range : Range K) (census : Census) :
    (tree.validateFrom depth page expected range census).Glances := by
  induction depth generalizing page expected range census with
  | zero => exact Within.violate
  | succ depth ih =>
    have below (header : Header) (bytes : Page) (census : Census) :
        (if header.isLeaf then tree.checkLeaf page bytes header.count.toNat range census
        else do
          let children ← tree.checkInner page bytes header.count.toNat range
          let census := { census with shape.inners := census.shape.inners + 1 }
          children.foldrM (fun child census =>
            tree.validateFrom depth child.1 (some (header.level - 1)) child.2 census)
            census).Glances := by
      split
      · exact checkLeaf_glances page bytes _ range census
      · refine .bind (checkInner_glances page bytes _ range) fun children => .foldrM ?_ _
        exact fun child census => ih child.1 _ child.2 census
    rw [validateFrom]
    by_cases met : page ∈ census.seen
    · rw [if_pos met]
      exact Within.bind_iff.mpr Within.error
    · rw [if_neg met]
      refine .bind (visit_glances page) fun bytes => .bind (.node _) fun header => ?_
      cases expected with
      | none => exact .bind (.done _) (below header bytes)
      | some level =>
        by_cases same : level = header.level
        · simp only [if_pos same]
          exact .bind (.done _) (below header bytes)
        · simp only [if_neg same]
          exact .bind (.error _) (below header bytes)

theorem validate_glances : tree.validate.Glances := by
  unfold validate
  split
  · exact .bind (validateFrom_glances _ _ _ _ _) fun census => .done _
  · exact .done _

variable {key : K} {value : V} {holds : List Hold} {steps : Nat}

theorem descend_within {current : Pinned} (held : Held .shared [current] holds) :
    Within 2 (tree.descend key steps current) (fun bottom => Held .shared [bottom]) holds := by
  induction steps generalizing current holds with
  | zero => exact Within.violate
  | succ steps ih =>
    rw [descend]
    refine Within.node fun header => ?_
    split
    · exact Within.pure_iff.mpr held
    · refine Within.node fun child => Within.bind_iff.mpr (Within.fetch held (by simp) ?_)
      intro guard bytes holds held
      refine Within.bind_iff.mpr (Within.release held (List.Perm.swap ..) ?_)
      exact fun holds held => ih held

def Descent.pages (descent : Descent) : List Pinned := descent.current :: descent.parent.toList

theorem Descent.length_pages (descent : Descent) : descent.pages.length < 3 := by
  obtain ⟨parent, current⟩ := descent
  cases parent <;> simp [pages]

theorem enterChild_within {descent : Descent} (held : Held .exclusive descent.pages holds) :
    Within 3 (tree.enterChild key descent) (fun descent => Held .exclusive descent.pages)
      holds := by
  refine Within.node fun child => Within.bind_iff.mpr (Within.fetch held descent.length_pages ?_)
  intro guard bytes holds held
  obtain ⟨parent, current⟩ := descent
  cases parent with
  | none => exact Within.pure_iff.mpr held
  | some parent =>
    refine Within.bind_iff.mpr (Within.release held ?_ fun holds held => Within.pure_iff.mpr held)
    exact List.perm_append_singleton parent [⟨guard, child, bytes⟩, current]

theorem descendExclusive_within {descent : Descent}
    (held : Held .exclusive descent.pages holds) :
    Within 3 (tree.descendExclusive key steps descent)
      (fun descent => Held .exclusive descent.pages) holds := by
  induction steps generalizing descent holds with
  | zero => exact Within.violate
  | succ steps ih =>
    rw [descendExclusive]
    refine Within.node fun header => ?_
    split
    · exact Within.pure_iff.mpr held
    · exact Within.andThen (enterChild_within held) fun descent holds held => ih held

omit [IndexKey K] in
theorem pinForSplit_within {current : Pinned} {parent : Option Pinned}
    (held : Held .exclusive (Descent.pages ⟨parent, current⟩) holds) :
    Within 3 (pinForSplit parent)
      (fun pinned => Held .exclusive [pinned.1, current, pinned.2]) holds := by
  refine Within.bind_iff.mpr (Within.mint fun page => Within.bind_iff.mpr
    (Within.create held (Descent.length_pages ⟨parent, current⟩) ?_))
  intro guard bytes holds held
  cases parent with
  | some parent => exact Within.pure_iff.mpr held
  | none =>
    refine Within.bind_iff.mpr (Within.mint fun above => Within.bind_iff.mpr
      (Within.create held (by simp [Descent.pages]) ?_))
    intro guard' bytes' holds held
    refine Within.pure_iff.mpr (held.reorder ?_)
    exact (List.perm_append_singleton ⟨guard', above, bytes'⟩ [⟨guard, page, bytes⟩, current]).symm

variable [FixedWidth V]

theorem lookup_within : Within 2 (tree.lookup key) (fun _ _ => True) [] := by
  unfold lookup
  split
  · refine Within.bind_iff.mpr (Within.fetch (.nothing .shared) Nat.two_pos ?_)
    intro guard bytes holds held
    exact Within.andThen (descend_within held)
      fun bottom holds _ => Within.ofNode fun _ _ => trivial
  · exact Within.pure_iff.mpr trivial

theorem split_within {descent : Descent} (held : Held .exclusive descent.pages holds) :
    Within 3 (tree.split descent)
      (fun parted => Held .exclusive [parted.right, parted.left, parted.parent]) holds := by
  refine Within.node fun header => Within.andThen (pinForSplit_within held) ?_
  rintro ⟨sibling, parent⟩ holds held
  refine Within.node fun halves => Within.bind_iff.mpr (Within.write held (by simp) ?_)
  refine Within.bind_iff.mpr (Within.write held (by simp) (Within.node fun edited => ?_))
  refine Within.bind_iff.mpr (Within.write held (by simp) ?_)
  have relabelled : Held .exclusive
      [{ sibling with bytes := halves.right }, { descent.current with bytes := halves.left },
        { parent with bytes := edited.2 }] holds :=
    held.relabel (.refl _)
  split
  · exact Within.bind_iff.mpr (Within.setRoot (Within.pure_iff.mpr relabelled))
  · exact Within.pure_iff.mpr relabelled

theorem enterHalf_within {descent : Descent} (held : Held .exclusive descent.pages holds) :
    Within 3 (tree.enterHalf key descent) (fun descent => Held .exclusive descent.pages)
      holds := by
  refine Within.andThen (split_within held) fun parted holds held => ?_
  split
  · exact Within.bind_iff.mpr (Within.release held (List.Perm.swap ..) fun holds held =>
      Within.pure_iff.mpr held)
  · exact Within.bind_iff.mpr (Within.release held (List.Perm.refl _) fun holds held =>
      Within.pure_iff.mpr held)

theorem insertFrom_within {descent : Descent} (held : Held .exclusive descent.pages holds) :
    Within 3 (tree.insertFrom key value steps descent) (fun _ _ => True) holds := by
  induction steps generalizing descent holds with
  | zero => exact Within.violate
  | succ steps ih =>
    rw [insertFrom]
    refine Within.node fun header => ?_
    split
    · refine Within.node fun position => ?_
      split
      · refine Within.node fun edited => Within.write held ?_ trivial
        simp [Descent.pages]
      · exact Within.andThen (enterHalf_within held) fun descent holds held => ih held
    · split
      · exact Within.andThen (enterChild_within held) fun descent holds held => ih held
      · exact Within.andThen (enterHalf_within held) fun descent holds held => ih held

theorem plant_within : Within 3 (tree.plant key value) (fun _ _ => True) [] := by
  unfold plant
  refine Within.bind_iff.mpr (Within.mint fun page => Within.bind_iff.mpr
    (Within.create (.nothing .exclusive) (by simp) ?_))
  intro guard bytes holds held
  refine Within.node fun edited => Within.bind_iff.mpr (Within.write held (by simp) ?_)
  exact Within.setRoot trivial

theorem insert_within : Within 3 (tree.insert key value) (fun _ _ => True) [] := by
  unfold insert
  split
  · exact plant_within
  · refine Within.bind_iff.mpr (Within.fetch (.nothing .exclusive) (by simp) ?_)
    intro guard bytes holds held
    have started : Held .exclusive (Descent.pages ⟨none, ⟨guard, _, bytes⟩⟩) holds := held
    exact insertFrom_within started

theorem erase_within : Within 3 (tree.erase key) (fun _ _ => True) [] := by
  unfold erase
  split
  · refine Within.bind_iff.mpr (Within.fetch (.nothing .exclusive) (by simp) ?_)
    intro guard bytes holds held
    have started : Held .exclusive (Descent.pages ⟨none, ⟨guard, _, bytes⟩⟩) holds := held
    refine Within.andThen (descendExclusive_within started)
      fun descent holds held => Within.node fun position => ?_
    split
    · refine Within.node fun edited => Within.bind_iff.mpr
        (Within.write held (by simp [Descent.pages]) (Within.node fun count => ?_))
      split
      · split
        · rename_i parent at_parent
          refine Within.node fun count => ?_
          split
          · refine Within.node fun edited => Within.write held ?_ trivial
            simp [Descent.pages, at_parent]
          · exact Within.pure_iff.mpr trivial
        · exact Within.pure_iff.mpr trivial
      · exact Within.pure_iff.mpr trivial
    · exact Within.pure_iff.mpr trivial
  · exact Within.pure_iff.mpr trivial

end Tree

/-- The guards that a call may hold at a time. -/
def Call.guardLimit {K V : Type} : Call K V → Nat
  | .insert _ _ | .erase _ => 3
  | .lookup _ => 2
  | .height | .length | .isEmpty | .validate => 1

theorem Call.guardLimit_le {K V : Type} (call : Call K V) : call.guardLimit ≤ 3 := by
  cases call <;> simp [guardLimit]

theorem Tree.program_within {K V : Type} [IndexKey K] [FixedWidth V] (tree : Tree K V)
    (call : Call K V) :
    Access.Within call.guardLimit (tree.program call) (fun _ _ => True) [] := by
  have of_glances {α : Type} {program : Access α} (h : program.Glances) (f : α → Answer V) :
      Access.Within 1 (f <$> program) (fun _ _ => True) [] :=
    Access.Within.map_iff.mpr (Access.Within.weaken h fun _ _ _ => trivial)
  cases call with
  | insert key value =>
    exact Access.Within.andThen insert_within fun _ _ _ => Access.Within.pure_iff.mpr trivial
  | erase key =>
    exact Access.Within.andThen erase_within fun _ _ _ => Access.Within.pure_iff.mpr trivial
  | lookup key => exact Access.Within.map_iff.mpr lookup_within
  | height => exact of_glances height_glances _
  | length => exact of_glances length_glances _
  | isEmpty => exact of_glances (.bind length_glances fun n => .done _) _
  | validate => exact of_glances validate_glances _

end PagedIndex
