import Mathlib.Data.Option.Basic
import PagedIndex.Proofs.Node.Links
import PagedIndex.Tree.Call

/-!
# Programs that do the same with other guards

Two programs are alike if they ask for the same, on guards that correspond, and go on alike when
they get corresponding guards and the same bytes in reply. Beside that a program keeps to its own
pages: it asks for no other, and what it writes to them leads to no other. It never makes up a
storage fault. Each call of a tree is alike to itself, whatever guards it gets.
-/

namespace PagedIndex

/-- The programs do the same on pages of their own, and come to results as in `post`. -/
inductive Access.Alike {α : Type} (like : GuardId → GuardId → Prop)
    (fits : (PageId → Prop) → Page → Prop) (post : (PageId → Prop) → α → α → Prop) :
    (PageId → Prop) → Access α → Access α → Prop
  | done {own : PageId → Prop} {a a' : α} (ended : post own a a') :
      Alike like fits post own (.done a) (.done a')
  | fail {own : PageId → Prop} {failure : Failure}
      (inherent : ∀ fault, failure ≠ .error (.storage fault)) :
      Alike like fits post own (.fail failure) (.fail failure)
  | fetch {own : PageId → Prop} {latch : Latch} {page : PageId} {next next' : Pinned → Access α}
      (mem : own page)
      (goes_on : ∀ guard guard' bytes, like guard guard' → fits own bytes →
        Alike like fits post own (next ⟨guard, page, bytes⟩) (next' ⟨guard', page, bytes⟩)) :
      Alike like fits post own (.ask (.fetch latch page) next) (.ask (.fetch latch page) next')
  | create {own : PageId → Prop} {next next' : PageId → Pinned → Access α}
      (goes_on : ∀ page guard guard', like guard guard' →
        Alike like fits post (fun other => own other ∨ other = page)
          (next page ⟨guard, page, Page.zeroed⟩) (next' page ⟨guard', page, Page.zeroed⟩)) :
      Alike like fits post own (.ask .mint fun page => .ask (.create page) (next page))
        (.ask .mint fun page => .ask (.create page) (next' page))
  | write {own : PageId → Prop} {guard guard' : GuardId} {bytes : Page}
      {next next' : Unit → Access α} (same : like guard guard') (fit : fits own bytes)
      (goes_on : Alike like fits post own (next ()) (next' ())) :
      Alike like fits post own (.ask (.write guard bytes) next) (.ask (.write guard' bytes) next')
  | release {own : PageId → Prop} {guard guard' : GuardId} {next next' : Unit → Access α}
      (same : like guard guard') (goes_on : Alike like fits post own (next ()) (next' ())) :
      Alike like fits post own (.ask (.release guard) next) (.ask (.release guard') next')
  | setRoot {own : PageId → Prop} {root : PageId} {next next' : Unit → Access α} (mem : own root)
      (goes_on : Alike like fits post own (next ()) (next' ())) :
      Alike like fits post own (.ask (.setRoot root) next) (.ask (.setRoot root) next')

namespace Access.Alike

variable {α β : Type} {like : GuardId → GuardId → Prop} {fits : (PageId → Prop) → Page → Prop}
  {post : (PageId → Prop) → α → α → Prop} {post' : (PageId → Prop) → β → β → Prop}
  {own : PageId → Prop}

/-- What a program has come to own it owns to the end. -/
theorem andThen {program program' : Access α} {next next' : α → Access β}
    (h : Alike like fits post own program program')
    (goes_on : ∀ own' a a', (∀ page, own page → own' page) → post own' a a' →
      Alike like fits post' own' (next a) (next' a')) :
    Alike like fits post' own (program >>= next) (program' >>= next') := by
  induction h with
  | done ended => exact goes_on _ _ _ (fun _ mem => mem) ended
  | fail inherent => exact .fail inherent
  | fetch mem _ ih =>
    exact .fetch mem fun guard guard' bytes same fit => ih guard guard' bytes same fit goes_on
  | create _ ih =>
    refine .create fun page guard guard' same => ih page guard guard' same ?_
    exact fun own' a a' more => goes_on own' a a' fun other mem => more other (.inl mem)
  | write same fit _ ih => exact .write same fit (ih goes_on)
  | release same _ ih => exact .release same (ih goes_on)
  | setRoot mem _ ih => exact .setRoot mem (ih goes_on)

theorem map {program program' : Access α} {f : α → β}
    (h : Alike like fits (fun _ a a' => a' = a) own program program') :
    Alike like fits (fun _ b b' => b' = b) own (f <$> program) (f <$> program') := by
  rw [← bind_pure_comp, ← bind_pure_comp]
  exact h.andThen fun own' a a' _ same => .done (congrArg f same)

theorem pure {a a' : α} (ended : post own a a') :
    Alike like fits post own (Pure.pure a) (Pure.pure a') := .done ended

theorem corrupted (fault : TreeFault) :
    Alike like fits post own (Access.error (.corrupted fault)) (Access.error (.corrupted fault)) :=
  .fail nofun

theorem violate (violation : Violation) :
    Alike like fits post own (Access.violate violation) (Access.violate violation) := .fail nofun

theorem node {result : Except Violation α} {next next' : α → Access β}
    (goes_on : ∀ a, result = .ok a → Alike like fits post' own (next a) (next' a)) :
    Alike like fits post' own (Access.ofNode result >>= next) (Access.ofNode result >>= next') := by
  cases result with
  | ok a => exact goes_on a rfl
  | error violation => exact .fail nofun

theorem ofNode (result : Except Violation α) :
    Alike like fits (fun _ a a' => a' = a) own (Access.ofNode result) (Access.ofNode result) := by
  cases result with
  | ok a => exact .done rfl
  | error violation => exact .fail nofun

theorem fetch_bind {latch : Latch} {page : PageId} {next next' : Pinned → Access α} (mem : own page)
    (goes_on : ∀ guard guard' bytes, like guard guard' → fits own bytes →
      Alike like fits post own (next ⟨guard, page, bytes⟩) (next' ⟨guard', page, bytes⟩)) :
    Alike like fits post own (Access.fetch latch page >>= next)
      (Access.fetch latch page >>= next') := .fetch mem goes_on

theorem create_bind {next next' : Pinned → Access α}
    (goes_on : ∀ page guard guard', like guard guard' →
      Alike like fits post (fun other => own other ∨ other = page)
        (next ⟨guard, page, Page.zeroed⟩) (next' ⟨guard', page, Page.zeroed⟩)) :
    Alike like fits post own (Access.mint >>= fun page => Access.create page >>= next)
      (Access.mint >>= fun page => Access.create page >>= next') := .create goes_on

theorem write_bind {pinned pinned' : Pinned} {bytes : Page} {next next' : Unit → Access α}
    (same : like pinned.guard pinned'.guard) (fit : fits own bytes)
    (goes_on : Alike like fits post own (next ()) (next' ())) :
    Alike like fits post own (Access.write pinned bytes >>= next)
      (Access.write pinned' bytes >>= next') := .write same fit goes_on

theorem release_bind {pinned pinned' : Pinned} {next next' : Unit → Access α}
    (same : like pinned.guard pinned'.guard)
    (goes_on : Alike like fits post own (next ()) (next' ())) :
    Alike like fits post own (Access.release pinned >>= next)
      (Access.release pinned' >>= next') := .release same goes_on

theorem foldrM {items : List α} {each : α → β → Access β} (start : β)
    (h : ∀ own', (∀ page, own page → own' page) → ∀ a ∈ items, ∀ b,
      Alike like fits (fun _ b b' => b' = b) own' (each a b) (each a b)) :
    Alike like fits (fun _ b b' => b' = b) own (items.foldrM each start)
      (items.foldrM each start) := by
  induction items with
  | nil => exact .pure rfl
  | cons a rest ih =>
    rw [List.foldrM_cons]
    refine (ih fun own' more b mem => h own' more b (List.mem_cons_of_mem a mem)).andThen ?_
    rintro own' b _ more rfl
    exact h own' more a List.mem_cons_self _

end Access.Alike

/-- Guards that correspond, on one page, with bytes that lead to no page but one's own. -/
structure Pinned.Twins (like : GuardId → GuardId → Prop) (fits : (PageId → Prop) → Page → Prop)
    (own : PageId → Prop) (pinned pinned' : Pinned) : Prop where
  guard : like pinned.guard pinned'.guard
  page : pinned'.page = pinned.page
  bytes : pinned'.bytes = pinned.bytes
  mem : own pinned.page
  fits : fits own pinned.bytes

namespace Tree

open Access

variable {K V : Type} [IndexKey K] {tree : Tree K V} {like : GuardId → GuardId → Prop}
  {own own' : PageId → Prop}

abbrev Alike {α : Type} (tree : Tree K V) (like : GuardId → GuardId → Prop)
    (post : (PageId → Prop) → α → α → Prop) : (PageId → Prop) → Access α → Access α → Prop :=
  Access.Alike like (tree.capacities.Linked K) post

abbrev Agree {α : Type} (tree : Tree K V) (like : GuardId → GuardId → Prop) (own : PageId → Prop)
    (program program' : Access α) : Prop :=
  tree.Alike like (fun _ a a' => a' = a) own program program'

abbrev Twins (tree : Tree K V) (like : GuardId → GuardId → Prop) (own : PageId → Prop)
    (pinned pinned' : Pinned) : Prop :=
  Pinned.Twins like (tree.capacities.Linked K) own pinned pinned'

theorem Twins.mono {pinned pinned' : Pinned} (h : tree.Twins like own pinned pinned')
    (more : ∀ page, own page → own' page) : tree.Twins like own' pinned pinned' :=
  { h with mem := more _ h.mem, fits := h.fits.mono more }

theorem visit_alike {page : PageId} (mem : own page) :
    tree.Alike like (fun own bytes bytes' => bytes' = bytes ∧ tree.capacities.Linked K own bytes)
      own (visit page) (visit page) :=
  .fetch mem fun _ _ _ same fit => .release same (.done ⟨rfl, fit⟩)

theorem height_alike (root : ∀ root, tree.anchor.root = some root → own root) :
    tree.Agree like own tree.height tree.height := by
  unfold height
  split
  · rename_i top anchored
    refine (visit_alike (root top anchored)).andThen ?_
    rintro own' bytes _ - ⟨rfl, -⟩
    exact .node fun header _ => .done rfl
  · exact .done rfl

theorem ofCheck_alike {α : Type} (result : Except TreeFault α) :
    tree.Agree like own (ofCheck result) (ofCheck result) := by
  cases result with
  | ok a => exact .done rfl
  | error fault => exact .corrupted _

variable [FixedWidth V] (suitable : tree.capacities.Suitable K V)

include suitable

theorem level_of_leaf {bytes : Page} {header : Header} (read : Header.read bytes = .ok header)
    (leaf : header.isLeaf = true) : (Header.of bytes).level = 0 := by
  rw [Header.read_eq bytes suitable.leaf.header] at read
  cases read
  simpa [Header.isLeaf] using leaf

theorem level_of_inner {bytes : Page} {header : Header} (read : Header.read bytes = .ok header)
    (inner : ¬ header.isLeaf = true) : (Header.of bytes).level ≠ 0 := by
  rw [Header.read_eq bytes suitable.leaf.header] at read
  cases read
  simpa [Header.isLeaf] using inner

theorem Twins.children_own {bytes : Page} {header : Header} {children : List PageId}
    (fit : tree.capacities.Linked K own bytes) (read : Header.read bytes = .ok header)
    (inner : ¬ header.isLeaf = true) (listed : tree.inner.children bytes = .ok children) :
    ∀ child ∈ children, own child :=
  fit.children_own suitable (level_of_inner suitable read inner) listed

theorem countFrom_alike (depth : Nat) {page : PageId} (mem : own page) :
    tree.Agree like own (tree.countFrom depth page) (tree.countFrom depth page) := by
  induction depth generalizing own page with
  | zero => exact .violate _
  | succ depth ih =>
    rw [countFrom]
    refine (visit_alike mem).andThen ?_
    rintro own' bytes _ - ⟨rfl, fit⟩
    refine .node fun header read => ?_
    split
    · exact .done rfl
    · rename_i inner
      refine .node fun children listed => .foldrM 0 fun own' more child among total => ?_
      have mine := more child (Twins.children_own suitable fit read inner listed child among)
      refine (ih mine).andThen ?_
      rintro own' n _ - rfl
      exact .done rfl

theorem length_alike (root : ∀ root, tree.anchor.root = some root → own root) :
    tree.Agree like own tree.length tree.length := by
  unfold length
  split
  · rename_i top anchored
    exact countFrom_alike suitable _ (root top anchored)
  · exact .done rfl

omit [FixedWidth V] suitable in
theorem checkLeaf_alike (page : PageId) (bytes : Page) (count : Nat) (range : Range K)
    (census : Census) : tree.Agree like own (tree.checkLeaf page bytes count range census)
      (tree.checkLeaf page bytes count range census) := by
  have checked (keys : List K) : tree.Agree like own
      (do ofCheck (checkKeys page keys range)
          return { census with
            shape := { census.shape with
              leaves := census.shape.leaves + 1, entries := census.shape.entries + count } })
      (do ofCheck (checkKeys page keys range)
          return { census with
            shape := { census.shape with
              leaves := census.shape.leaves + 1, entries := census.shape.entries + count } }) :=
    (ofCheck_alike _).andThen fun _ _ _ _ _ => .done rfl
  unfold checkLeaf
  split
  · exact .corrupted _
  · exact .node fun keys _ => checked keys

theorem checkInner_alike {page : PageId} {bytes : Page} {header : Header} {count : Nat}
    {range : Range K} (fit : tree.capacities.Linked K own bytes)
    (read : Header.read bytes = .ok header) (inner : ¬ header.isLeaf = true) :
    tree.Alike like (fun own children children' => children' = children ∧
        ∀ child ∈ children, own child.1)
      own (tree.checkInner page bytes count range) (tree.checkInner page bytes count range) := by
  unfold checkInner
  split
  · exact .corrupted _
  · refine .node fun keys _ => (ofCheck_alike _).andThen ?_
    rintro own' _ _ more rfl
    refine .node fun children listed => .done ⟨rfl, fun child mem => ?_⟩
    exact Twins.children_own suitable (fit.mono more) read inner listed _ (List.of_mem_zip mem).1

theorem validateFrom_alike (depth : Nat) {page : PageId} (mem : own page)
    (expected : Option UInt16) (range : Range K) (census : Census) :
    tree.Agree like own (tree.validateFrom depth page expected range census)
      (tree.validateFrom depth page expected range census) := by
  induction depth generalizing own page expected range census with
  | zero => exact .violate _
  | succ depth ih =>
    have below {own' : PageId → Prop} {bytes : Page} {header : Header} (census : Census)
        (fit : tree.capacities.Linked K own' bytes) (read : Header.read bytes = .ok header) :
        tree.Agree like own'
          (if header.isLeaf then tree.checkLeaf page bytes header.count.toNat range census
          else do
            let children ← tree.checkInner page bytes header.count.toNat range
            let census := { census with shape.inners := census.shape.inners + 1 }
            children.foldrM (fun child census =>
              tree.validateFrom depth child.1 (some (header.level - 1)) child.2 census) census)
          (if header.isLeaf then tree.checkLeaf page bytes header.count.toNat range census
          else do
            let children ← tree.checkInner page bytes header.count.toNat range
            let census := { census with shape.inners := census.shape.inners + 1 }
            children.foldrM (fun child census =>
              tree.validateFrom depth child.1 (some (header.level - 1)) child.2 census)
              census) := by
      split
      · exact checkLeaf_alike page bytes _ range census
      · rename_i inner
        refine (checkInner_alike suitable fit read inner).andThen ?_
        rintro own'' children _ - ⟨rfl, mine⟩
        exact .foldrM _ fun own' more child among census =>
          ih (more _ (mine child among)) _ child.2 census
    rw [validateFrom]
    by_cases met : page ∈ census.seen
    · rw [if_pos met]
      exact .corrupted _
    · rw [if_neg met]
      refine (visit_alike mem).andThen ?_
      rintro own' bytes _ - ⟨rfl, fit⟩
      refine .node fun header read => ?_
      cases expected with
      | none => exact below _ fit read
      | some level =>
        by_cases same : level = header.level
        · simp only [if_pos same]
          exact below _ fit read
        · simp only [if_neg same]
          exact .corrupted _

theorem validate_alike (root : ∀ root, tree.anchor.root = some root → own root) :
    tree.Agree like own tree.validate tree.validate := by
  unfold validate
  split
  · rename_i top anchored
    refine (validateFrom_alike suitable _ (root top anchored) _ _ _).andThen ?_
    rintro own' census _ - rfl
    exact .done rfl
  · exact .done rfl

variable {key : K} {value : V} {steps : Nat}

theorem Twins.childFor_own {bytes : Page} {header : Header} {child : PageId}
    (fit : tree.capacities.Linked K own bytes) (read : Header.read bytes = .ok header)
    (inner : ¬ header.isLeaf = true) (routed : tree.inner.childFor bytes key = .ok child) :
    own child :=
  fit.childFor_own suitable (level_of_inner suitable read inner) routed

theorem descend_alike {current current' : Pinned} (twins : tree.Twins like own current current') :
    tree.Alike like (fun own bottom bottom' => tree.Twins like own bottom bottom') own
      (tree.descend key steps current) (tree.descend key steps current') := by
  induction steps generalizing own current current' with
  | zero => exact .violate _
  | succ steps ih =>
    rw [descend, descend, twins.bytes]
    refine .node fun header read => ?_
    split
    · exact .done twins
    · rename_i inner
      refine .node fun child routed => ?_
      have mine := Twins.childFor_own suitable twins.fits read inner routed
      exact .fetch mine fun guard guard' bytes same fit => .release twins.guard
        (ih ⟨same, rfl, rfl, mine, fit⟩)

theorem lookup_alike (root : ∀ root, tree.anchor.root = some root → own root) :
    tree.Agree like own (tree.lookup key) (tree.lookup key) := by
  unfold lookup
  split
  · rename_i top anchored
    refine .fetch_bind (root top anchored) fun guard guard' bytes same fit => ?_
    have started : tree.Twins like own ⟨guard, top, bytes⟩ ⟨guard', top, bytes⟩ :=
      ⟨same, rfl, rfl, root top anchored, fit⟩
    refine (descend_alike suitable started).andThen ?_
    intro own' bottom bottom' _ twins
    rw [twins.bytes]
    exact .ofNode _
  · exact .done rfl

structure Descent.Twins (tree : Tree K V) (like : GuardId → GuardId → Prop) (own : PageId → Prop)
    (descent descent' : Descent) : Prop where
  current : tree.Twins like own descent.current descent'.current
  parent : Option.Rel (tree.Twins like own) descent.parent descent'.parent

theorem enterChild_alike {descent descent' : Descent} {header : Header}
    (twins : Descent.Twins tree like own descent descent')
    (read : Header.read descent.current.bytes = .ok header) (inner : ¬ header.isLeaf = true) :
    tree.Alike like (Descent.Twins tree like) own (tree.enterChild key descent)
      (tree.enterChild key descent') := by
  obtain ⟨parent, current⟩ := descent
  obtain ⟨parent', current'⟩ := descent'
  obtain ⟨at_current, at_parent⟩ := twins
  rw [enterChild, enterChild, show current'.bytes = current.bytes from at_current.bytes]
  refine .node fun child routed => ?_
  have mine := Twins.childFor_own suitable at_current.fits read inner routed
  refine .fetch_bind mine fun guard guard' bytes same fit => ?_
  have entered : Descent.Twins tree like own ⟨some current, ⟨guard, child, bytes⟩⟩
      ⟨some current', ⟨guard', child, bytes⟩⟩ := ⟨⟨same, rfl, rfl, mine, fit⟩, .some at_current⟩
  cases at_parent with
  | none => exact .done entered
  | some at_parent => exact .release_bind at_parent.guard (.done entered)

theorem descendExclusive_alike {descent descent' : Descent}
    (twins : Descent.Twins tree like own descent descent') :
    tree.Alike like (fun own descent descent' => Descent.Twins tree like own descent descent' ∧
        (Header.of descent.current.bytes).level = 0)
      own (tree.descendExclusive key steps descent) (tree.descendExclusive key steps descent') := by
  induction steps generalizing own descent descent' with
  | zero => exact .violate _
  | succ steps ih =>
    rw [descendExclusive, descendExclusive, twins.current.bytes]
    refine .node fun header read => ?_
    split
    · rename_i leaf
      exact .done ⟨twins, level_of_leaf suitable read leaf⟩
    · rename_i inner
      exact (enterChild_alike suitable twins read inner).andThen fun _ _ _ _ twins => ih twins

structure Parted.Twins (tree : Tree K V) (like : GuardId → GuardId → Prop) (own : PageId → Prop)
    (parted parted' : Parted K) : Prop where
  left : tree.Twins like own parted.left parted'.left
  right : tree.Twins like own parted.right parted'.right
  separator : parted'.separator = parted.separator
  parent : tree.Twins like own parted.parent parted'.parent

omit [FixedWidth V] suitable in
theorem pinForSplit_alike {parent parent' : Option Pinned}
    (at_parent : Option.Rel (tree.Twins like own) parent parent') :
    tree.Alike like (fun own pinned pinned' =>
        tree.Twins like own pinned.1 pinned'.1 ∧ tree.Twins like own pinned.2 pinned'.2)
      own (pinForSplit parent) (pinForSplit parent') := by
  refine .create_bind fun page guard guard' same => ?_
  have sibling {own' : PageId → Prop} (mem : own' page) :
      tree.Twins like own' ⟨guard, page, Page.zeroed⟩ ⟨guard', page, Page.zeroed⟩ :=
    ⟨same, rfl, rfl, mem, Capacities.Linked.zeroed⟩
  cases at_parent with
  | none =>
    refine .create_bind fun above guard₁ guard₁' same' => .done ⟨sibling (.inl (.inr rfl)), ?_⟩
    exact ⟨same', rfl, rfl, .inr rfl, Capacities.Linked.zeroed⟩
  | some at_parent => exact .done ⟨sibling (.inr rfl), at_parent.mono fun _ mem => .inl mem⟩

theorem halve_linked {bytes target : Page} {halves : Halves K pageSize}
    (fit : tree.capacities.Linked K own bytes)
    (halved : tree.halve (Header.of bytes).level bytes target = .ok halves) :
    tree.capacities.Linked K own halves.left ∧ tree.capacities.Linked K own halves.right := by
  unfold halve at halved
  split at halved
  · rename_i leaf
    exact Capacities.Linked.split_leaf suitable leaf halved
  · rename_i above
    exact fit.split_inner suitable above halved

theorem split_alike {descent descent' : Descent}
    (twins : Descent.Twins tree like own descent descent') :
    tree.Alike like (Parted.Twins tree like) own (tree.split descent) (tree.split descent') := by
  obtain ⟨parent, guard, page, bytes⟩ := descent
  obtain ⟨parent', guard', page', bytes'⟩ := descent'
  obtain ⟨⟨same, at_page, at_bytes, mem, fit⟩, at_parent⟩ := twins
  obtain rfl : page' = page := at_page
  obtain rfl : bytes' = bytes := at_bytes
  refine .node fun header read => (pinForSplit_alike at_parent).andThen ?_
  rw [Header.read_eq _ suitable.leaf.header] at read
  obtain rfl := Except.ok.inj read
  rintro own' ⟨⟨sibling, new, zeroes⟩, above, top, above_bytes⟩
    ⟨⟨sibling', new', zeroes'⟩, above', top', above_bytes'⟩ more
    ⟨⟨same_sibling, at_new, at_zeroes, mem_new, -⟩,
      ⟨same_above, at_top, at_above, mem_top, fit_top⟩⟩
  obtain rfl : new' = new := at_new
  obtain rfl : zeroes' = zeroes := at_zeroes
  obtain rfl : top' = top := at_top
  obtain rfl : above_bytes' = above_bytes := at_above
  dsimp only
  refine .node fun halves halved => ?_
  obtain ⟨left, right⟩ := halve_linked suitable (fit.mono more) halved
  refine .write_bind same_sibling right (.write_bind same left ?_)
  have parted {bytes : Page} (fit : tree.capacities.Linked K own' bytes) :
      Parted.Twins tree like own'
        ⟨⟨guard, page', halves.left⟩, ⟨sibling, new', halves.right⟩, halves.separator,
          ⟨above, top', bytes⟩⟩
        ⟨⟨guard', page', halves.left⟩, ⟨sibling', new', halves.right⟩, halves.separator,
          ⟨above', top', bytes⟩⟩ :=
    ⟨⟨same, rfl, rfl, more _ mem, left⟩, ⟨same_sibling, rfl, rfl, mem_new, right⟩, rfl,
      ⟨same_above, rfl, rfl, mem_top, fit⟩⟩
  cases at_parent with
  | none =>
    refine .node fun ⟨_, bytes⟩ edited => ?_
    have fit := Capacities.Linked.format suitable (more _ mem) mem_new edited
    exact .write_bind same_above fit (.setRoot mem_top (.done (parted fit)))
  | some _ =>
    refine .node fun ⟨_, bytes⟩ edited => ?_
    obtain ⟨added, edited⟩ := Edit.run_of_discard edited
    have fit := fit_top.insert suitable mem_new edited
    exact .write_bind same_above fit (.done (parted fit))

theorem enterHalf_alike {descent descent' : Descent}
    (twins : Descent.Twins tree like own descent descent') :
    tree.Alike like (Descent.Twins tree like) own (tree.enterHalf key descent)
      (tree.enterHalf key descent') := by
  refine (split_alike suitable twins).andThen fun own' parted parted' _ twins => ?_
  rw [twins.separator]
  split
  · exact .release_bind twins.left.guard (.done ⟨twins.right, .some twins.parent⟩)
  · exact .release_bind twins.right.guard (.done ⟨twins.left, .some twins.parent⟩)

theorem insertFrom_alike {descent descent' : Descent}
    (twins : Descent.Twins tree like own descent descent') :
    tree.Agree like own (tree.insertFrom key value steps descent)
      (tree.insertFrom key value steps descent') := by
  induction steps generalizing own descent descent' with
  | zero => exact .violate _
  | succ steps ih =>
    rw [insertFrom, insertFrom, twins.current.bytes]
    refine .node fun header read => ?_
    split
    · rename_i leaf
      refine .node fun position _ => ?_
      split
      · refine .node fun ⟨_, bytes⟩ edited => ?_
        have kept := (LeafLayout.insert_keeps_level _ _ _).of_run edited
        exact .write twins.current.guard
          (.of_leaf (kept.trans (level_of_leaf suitable read leaf))) (.done rfl)
      · exact (enterHalf_alike suitable twins).andThen fun _ _ _ _ twins => ih twins
    · rename_i inner
      split
      · exact (enterChild_alike suitable twins read inner).andThen fun _ _ _ _ twins => ih twins
      · exact (enterHalf_alike suitable twins).andThen fun _ _ _ _ twins => ih twins

theorem plant_alike : tree.Agree like own (tree.plant key value) (tree.plant key value) := by
  refine .create_bind fun page guard guard' same => ?_
  refine .node fun ⟨_, bytes⟩ edited => ?_
  have level := LeafLayout.plant_level suitable.leaf.header edited
  exact .write_bind same (.of_leaf level) (.setRoot (.inr rfl) (.done rfl))

theorem insert_alike (root : ∀ root, tree.anchor.root = some root → own root) :
    tree.Agree like own (tree.insert key value) (tree.insert key value) := by
  unfold insert
  split
  · exact plant_alike suitable
  · rename_i top anchored
    refine .fetch_bind (root top anchored) fun guard guard' bytes same fit => ?_
    have started : Descent.Twins tree like own ⟨none, ⟨guard, top, bytes⟩⟩
        ⟨none, ⟨guard', top, bytes⟩⟩ := ⟨⟨same, rfl, rfl, root top anchored, fit⟩, .none⟩
    exact insertFrom_alike suitable started

theorem unlink_alike {parent parent' : Pinned} (twins : tree.Twins like own parent parent') :
    tree.Agree like own (tree.unlink key parent) (tree.unlink key parent') := by
  unfold unlink
  rw [twins.bytes]
  refine .node fun count counted => ?_
  split
  · rename_i more
    refine .node fun ⟨_, bytes⟩ edited => ?_
    have several : 1 < (tree.inner.pointers parent.bytes).length := by
      rw [inner, InnerLayout.count_eq suitable.inner] at counted
      cases counted
      exact more
    exact .write twins.guard (twins.fits.remove suitable several edited) (.done rfl)
  · exact .done rfl

theorem erase_alike (root : ∀ root, tree.anchor.root = some root → own root) :
    tree.Agree like own (tree.erase key) (tree.erase key) := by
  unfold erase
  split
  · rename_i top anchored
    refine .fetch_bind (root top anchored) fun guard guard' bytes same fit => ?_
    have started : Descent.Twins tree like own ⟨none, ⟨guard, top, bytes⟩⟩
        ⟨none, ⟨guard', top, bytes⟩⟩ := ⟨⟨same, rfl, rfl, root top anchored, fit⟩, .none⟩
    refine (descendExclusive_alike suitable started).andThen ?_
    rintro own' ⟨parent, current⟩ ⟨parent', current'⟩ _ ⟨⟨at_current, at_parent⟩, level⟩
    dsimp only at at_current at_parent level ⊢
    rw [at_current.bytes]
    refine .node fun position _ => ?_
    split
    · refine .node fun ⟨_, bytes⟩ edited => ?_
      have kept := (LeafLayout.erase_keeps_level _ _).of_run edited
      refine .write_bind at_current.guard (.of_leaf (kept.trans level)) (.node fun count _ => ?_)
      split
      · cases at_parent with
        | none => exact .done rfl
        | some at_parent => exact unlink_alike suitable at_parent
      · exact .done rfl
    · exact .done rfl
  · exact .done rfl

/-- A call does the same whatever guards it gets, and keeps to the pages of its tree. -/
theorem program_alike (root : ∀ root, tree.anchor.root = some root → own root)
    (call : Call K V) : tree.Agree like own (tree.program call) (tree.program call) := by
  cases call with
  | insert key value => exact (insert_alike suitable root).andThen fun _ _ _ _ _ => .done rfl
  | erase key => exact (erase_alike suitable root).andThen fun _ _ _ _ _ => .done rfl
  | lookup key => exact (lookup_alike suitable root).map
  | height => exact (height_alike root).map
  | length => exact (length_alike suitable root).map
  | isEmpty =>
    refine .map ((length_alike suitable root).andThen ?_)
    rintro _ n _ - rfl
    exact .done rfl
  | validate => exact (validate_alike suitable root).map

end Tree

end PagedIndex
