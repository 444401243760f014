import PagedIndex.Proofs.Tree.Fidelity
import PagedIndex.Proofs.Tree.Sessions

/-!
# Trees that share a pool

Trees of different segments make their calls in any order on one pool, which is flushed in between.
While the disk serves and three frames can be had, each tree comes to what its own calls alone come
to on an ideal store, so it cannot tell how many frames there are, when the pool is flushed, or what
the others do.
-/

namespace PagedIndex

namespace Tree

variable {K V : Type} [IndexKey K] [FixedWidth V]

/-- What calls come to on an ideal store one after another, unless one of them is violated: what
each ended with and the anchor then, and the tree and its contents after the last. -/
def idealRun (tree : Tree K V) (content : PageId → Page) :
    List (Call K V) → Option (List (Outcome V × Anchor) × Tree K V × (PageId → Page))
  | [] => some ([], tree, content)
  | call :: rest => do
    let came ← tree.ideally content call
    let (shown, last) ← came.tree.idealRun came.content rest
    return ((came.outcome, came.tree.anchor) :: shown, last)

theorem idealRun_cons {tree : Tree K V} {content : PageId → Page} {call : Call K V}
    {came : Came K V}
    (comes : tree.ideally content call = some came) (rest : List (Call K V)) :
    tree.idealRun content (call :: rest) = (came.tree.idealRun came.content rest).map
      fun ran => ((came.outcome, came.tree.anchor) :: ran.1, ran.2) := by
  rw [idealRun, comes]
  cases ran : came.tree.idealRun came.content rest with
  | none => exact congrArg (Option.bind · _) ran
  | some last => exact congrArg (Option.bind · _) ran

theorem idealRun_of_violated {tree : Tree K V} {content : PageId → Page} {call : Call K V}
    (violated : tree.ideally content call = none) (rest : List (Call K V)) :
    tree.idealRun content (call :: rest) = none := by
  rw [idealRun, violated]
  rfl

/-- What calls came to on an ideal store, and the pages that the tree came to own. -/
structure Tells (tree tree' : Tree K V) (content content' : PageId → Page)
    (own own' : PageId → Prop) (calls : List (Call K V)) (shown : List (Outcome V × Anchor)) :
    Prop where
  ran : tree.idealRun content calls = some (shown, tree', content')
  segment : tree'.segment = tree.segment
  grown : Grown tree.segment own own' tree.anchor.nextPageNo tree'.anchor.nextPageNo
  inherent : ∀ sight ∈ shown, ∀ fault, sight.1 = .error (.storage fault) →
    fault = .segmentExhausted tree.segment

theorem Tells.nil (tree : Tree K V) (content : PageId → Page) (own : PageId → Prop) :
    tree.Tells tree content content own own [] [] := ⟨rfl, rfl, .refl _ _ _, nofun⟩

theorem Tells.cons {tree tree' : Tree K V} {content content' : PageId → Page}
    {own own₁ own' : PageId → Prop} {call : Call K V} {came : Came K V} {rest : List (Call K V)}
    {shown : List (Outcome V × Anchor)} (comes : tree.ideally content call = some came)
    (segment : came.tree.segment = tree.segment)
    (grown : Grown tree.segment own own₁ tree.anchor.nextPageNo came.tree.anchor.nextPageNo)
    (inherent : ∀ fault, came.outcome = .error (.storage fault) →
      fault = .segmentExhausted tree.segment)
    (tells : came.tree.Tells tree' came.content content' own₁ own' rest shown) :
    tree.Tells tree' content content' own own' (call :: rest)
      ((came.outcome, came.tree.anchor) :: shown) := by
  obtain ⟨ran, segment', grown', inherent'⟩ := tells
  rw [segment] at segment' grown' inherent'
  refine ⟨by rw [idealRun_cons comes, ran]; rfl, segment', grown.trans grown', ?_⟩
  intro sight mem
  rcases List.mem_cons.mp mem with rfl | mem
  · exact inherent
  · exact inherent' sight mem

end Tree

/-- Trees on one pool, what the calls of each came to so far, and how flushes ended. -/
structure Commons {ι : Type} (K V : ι → Type) where
  trees : ∀ i, Tree (K i) (V i)
  storage : Storage
  shown : ∀ i, List (Outcome (V i) × Anchor)
  flushed : List (Except Error Unit)

namespace Commons

variable {ι : Type} {K V : ι → Type}

def start (trees : ∀ i, Tree (K i) (V i)) (storage : Storage) : Commons K V :=
  ⟨trees, storage, fun _ => [], []⟩

/-- A call of one of the trees, or a flush of the pages that were found resident, in the order in
which they were found. -/
inductive Move (K V : ι → Type) where
  | call (i : ι) (made : Call (K i) (V i))
  | flush (residents : List (PageId × FrameId))

variable [DecidableEq ι]

def Move.call? (i : ι) : Move K V → Option (Call (K i) (V i))
  | call j made => if same : j = i then some (same ▸ made) else none
  | flush _ => none

def callsOf (i : ι) (moves : List (Move K V)) : List (Call (K i) (V i)) :=
  moves.filterMap (Move.call? i)

def Move.isFlush : Move K V → Bool
  | call _ _ => false
  | flush _ => true

@[simp] theorem callsOf_call_self (i : ι) (made : Call (K i) (V i)) (moves : List (Move K V)) :
    callsOf i (.call i made :: moves) = made :: callsOf i moves :=
  List.filterMap_cons_some (dif_pos rfl)

theorem callsOf_call_of_ne {i j : ι} (apart : j ≠ i) (made : Call (K i) (V i))
    (moves : List (Move K V)) : callsOf j (.call i made :: moves) = callsOf j moves :=
  List.filterMap_cons_none (dif_neg apart.symm)

@[simp] theorem callsOf_flush (i : ι) (residents : List (PageId × FrameId))
    (moves : List (Move K V)) : callsOf i (.flush residents :: moves) = callsOf i moves :=
  List.filterMap_cons_none rfl

theorem callsOf_calls (i : ι) (calls : List (Call (K i) (V i))) :
    callsOf i (calls.map (.call i) : List (Move K V)) = calls := by
  induction calls with
  | nil => rfl
  | cons made rest ih => rw [List.map_cons, callsOf_call_self, ih]

def after (commons : Commons K V) (i : ι) (reached : Tree.Reached (K i) (V i)) : Commons K V :=
  { commons with
    trees := Function.update commons.trees i reached.tree
    storage := reached.storage
    shown := Function.update commons.shown i
      (commons.shown i ++ [(reached.outcome, reached.tree.anchor)]) }

def afterFlush (commons : Commons K V) (storage : Storage) (ended : Except Error Unit) :
    Commons K V :=
  { commons with storage, flushed := commons.flushed ++ [ended] }

section After

variable {commons : Commons K V} {i j : ι} {reached : Tree.Reached (K i) (V i)}

@[simp] theorem trees_after_self : (commons.after i reached).trees i = reached.tree :=
  Function.update_self ..

theorem trees_after_of_ne (apart : j ≠ i) :
    (commons.after i reached).trees j = commons.trees j :=
  Function.update_of_ne apart ..

@[simp] theorem shown_after_self : (commons.after i reached).shown i =
    commons.shown i ++ [(reached.outcome, reached.tree.anchor)] :=
  Function.update_self ..

theorem shown_after_of_ne (apart : j ≠ i) :
    (commons.after i reached).shown j = commons.shown j :=
  Function.update_of_ne apart ..

end After

variable [∀ i, IndexKey (K i)] [∀ i, FixedWidth (V i)]

/-- A move that fails may be followed by others, a violated one ends the run. -/
def step (commons : Commons K V) : Move K V → Except Violation (Commons K V)
  | .call i made => do return commons.after i (← (commons.trees i).call made commons.storage)
  | .flush residents =>
    match (Pool.flushInOrder residents).run commons.storage with
    | .ok () storage => .ok (commons.afterFlush storage (.ok ()))
    | .error (.error error) storage => .ok (commons.afterFlush storage (.error error))
    | .error (.violation violation) _ => .error violation

theorem step_call {commons : Commons K V} {i : ι} {made : Call (K i) (V i)}
    {reached : Tree.Reached (K i) (V i)}
    (called : (commons.trees i).call made commons.storage = .ok reached) :
    commons.step (.call i made) = .ok (commons.after i reached) := by
  rw [step, called]
  rfl

theorem step_flush {commons : Commons K V} {residents : List (PageId × FrameId)}
    {storage : Storage}
    (flushed : (Pool.flushInOrder residents).run commons.storage = .ok () storage) :
    commons.step (.flush residents) = .ok (commons.afterFlush storage (.ok ())) := by
  rw [step, flushed]

def run (commons : Commons K V) (moves : List (Move K V)) : Except Violation (Commons K V) :=
  moves.foldlM step commons

/-- The pages of each tree can be had and read as told, the disk serves, and there are three frames
that nobody else has pins on. -/
structure Mirrors (own : ι → PageId → Prop) (contents : ι → PageId → Page)
    (commons : Commons K V) : Prop where
  distinct : ∀ i j, (commons.trees i).segment = (commons.trees j).segment → i = j
  suitable : ∀ i, (commons.trees i).capacities.Suitable (K i) (V i)
  lodged : ∀ i, (commons.trees i).Lodged (own i) ⟨(commons.trees i).anchor, commons.storage⟩
  free : ∀ i, ∀ guard ∈ commons.storage.pool.guards,
    guard.page.segment ≠ (commons.trees i).segment
  agree : ∀ i page, own i page → commons.storage.content page = contents i page
  steady : commons.storage.disk.Steady
  roomy : commons.storage.pool.pinnedFrameCount + 3 ≤ commons.storage.pool.size

namespace Mirrors

variable {own : ι → PageId → Prop} {contents : ι → PageId → Page} {commons : Commons K V}

omit [DecidableEq ι] in
theorem unstrained (h : commons.Mirrors own contents) {failure : Failure} :
    ¬ commons.storage.Strained failure := by
  rintro (⟨unsteady, -⟩ | ⟨-, few⟩)
  · exact unsteady h.steady
  · exact absurd h.roomy (Nat.not_le_of_lt few)

theorem after (h : commons.Mirrors own contents) {i : ι} {reached : Tree.Reached (K i) (V i)}
    {own' : PageId → Prop} {content' : PageId → Page}
    (settled : (commons.trees i).Settled (own i) own' commons.storage reached)
    (agree : ∀ page, own' page → reached.storage.content page = content' page) :
    (commons.after i reached).Mirrors (Function.update own i own')
      (Function.update contents i content') := by
  have capacities : reached.tree.capacities = (commons.trees i).capacities := by
    rw [settled.same]
  have segments (j : ι) : ((commons.after i reached).trees j).segment =
      (commons.trees j).segment := by
    obtain rfl | apart := eq_or_ne j i
    · rw [trees_after_self, settled.same]
    · rw [trees_after_of_ne apart]
  refine ⟨fun j k => ?_, fun j => ?_, fun j => ?_, fun j guard mem => ?_, fun j page mem => ?_,
    settled.lasts.disk.steady h.steady, ?_⟩
  · rw [segments, segments]
    exact h.distinct j k
  · obtain rfl | apart := eq_or_ne j i
    · rw [trees_after_self, capacities]
      exact h.suitable j
    · rw [trees_after_of_ne apart]
      exact h.suitable j
  · obtain rfl | apart := eq_or_ne j i
    · rw [trees_after_self, Function.update_self]
      exact settled.lodged
    · have foreign : (commons.trees j).segment ≠ (commons.trees i).segment :=
        fun same => apart (h.distinct j i same)
      rw [trees_after_of_ne apart, Function.update_of_ne apart]
      refine (h.lodged j).of_lasts settled.lodged.coherent settled.lasts (fun _ _ => id)
        (fun page came here => absurd (here.symm.trans came) foreign) fun page mem => ?_
      exact settled.elsewhere page (((h.lodged j).minted page mem).1 ▸ foreign)
  · rw [segments]
    exact h.free j guard (settled.guards ▸ mem)
  · obtain rfl | apart := eq_or_ne j i
    · rw [Function.update_self] at mem ⊢
      exact agree page mem
    · rw [Function.update_of_ne apart] at mem ⊢
      refine (settled.elsewhere page ?_).trans (h.agree j page mem)
      rw [((h.lodged j).minted page mem).1]
      exact fun same => apart (h.distinct j i same)
  · change reached.storage.pool.pinnedFrameCount + 3 ≤ reached.storage.pool.size
    rw [settled.size, Pool.pinnedFrameCount_congr (h.lodged i).coherent.pool
      settled.lodged.coherent.pool settled.guards settled.size]
    exact h.roomy

/-- A call of one tree comes to what it comes to on an ideal store, and the others' pages stay. -/
theorem call_comes (h : commons.Mirrors own contents) (i : ι) (made : Call (K i) (V i)) :
    match (commons.trees i).call made commons.storage with
    | .ok reached => ∃ own' content', (commons.trees i).ideally (contents i) made =
          some ⟨reached.outcome, reached.tree, content'⟩ ∧
        Tree.Grown (commons.trees i).segment (own i) own' (commons.trees i).anchor.nextPageNo
          reached.tree.anchor.nextPageNo ∧
        (∀ fault, reached.outcome = .error (.storage fault) →
          fault = .segmentExhausted (commons.trees i).segment) ∧
        reached.tree.segment = (commons.trees i).segment ∧
        reached.storage.pool.guards = commons.storage.pool.guards ∧
        (commons.after i reached).Mirrors (Function.update own i own')
          (Function.update contents i content')
    | .error _ => (commons.trees i).ideally (contents i) made = none := by
  have comes := Tree.call_comes (h.suitable i) (h.lodged i) (h.free i) (h.agree i) made
  cases called : (commons.trees i).call made commons.storage with
  | error violation =>
    rw [called] at comes
    exact comes
  | ok reached =>
    rw [called] at comes
    obtain ⟨own', settled, faithful | ⟨error, -, strained⟩⟩ := comes
    · obtain ⟨⟨content', came, agree⟩, grown, inherent⟩ := faithful
      exact ⟨own', content', came, grown, inherent, by rw [settled.same], settled.guards,
        h.after settled agree⟩
    · exact absurd strained h.unstrained

omit [DecidableEq ι] in
theorem flush_comes [Nonempty ι] (h : commons.Mirrors own contents)
    (residents : List (PageId × FrameId)) :
    Ends (Pool.flushInOrder residents) commons.storage
      (fun _ storage => (commons.afterFlush storage (.ok ())).Mirrors own contents ∧
        storage.pool.guards = commons.storage.pool.guards)
      (fun failure _ => failure = .violation .latchHeld ∧
        ∃ guard ∈ commons.storage.pool.guards, guard.latch = .exclusive) := by
  have lodged := h.lodged (Classical.arbitrary ι)
  refine ((Pool.flushInOrder_ends lodged.coherent residents).and
    (Pool.flushInOrder_lasts lodged.backed lodged.coherent.pool.bound residents)).imp ?_ ?_
  · rintro _ storage ⟨⟨coherent, kept⟩, stays, -⟩
    refine ⟨⟨h.distinct, h.suitable, fun i => ?_, fun i guard mem => ?_, fun i page mem => ?_,
      stays.disk.steady h.steady, ?_⟩, kept.guards⟩
    · exact (h.lodged i).of_lasts coherent stays (fun _ _ => id) (fun _ never => never.elim)
        fun page _ => congrFun kept.content page
    · exact h.free i guard (kept.guards ▸ mem)
    · exact (congrFun kept.content page).trans (h.agree i page mem)
    · change storage.pool.pinnedFrameCount + 3 ≤ storage.pool.size
      rw [kept.size, Pool.pinnedFrameCount_congr lodged.coherent.pool coherent.pool kept.guards
        kept.size]
      exact h.roomy
  · rintro failure storage ⟨⟨rfl, resident, -, latched⟩ | ⟨⟨fault, rfl, -⟩, -⟩, -, reason⟩
    · obtain ⟨guard, mem, exclusive⟩ := List.any_eq_true.mp latched
      exact ⟨rfl, guard, mem, (of_decide_eq_true exclusive).2⟩
    · rcases reason with violated | blamed
      · cases violated
      · exact absurd h.steady blamed.1

end Mirrors

/-- What a run of moves came to: each tree is where its own calls alone bring it on an ideal store,
its pages read as there, and every flush has succeeded. -/
structure Came (own own' : ι → PageId → Prop) (contents contents' : ι → PageId → Page)
    (moves : List (Move K V)) (commons commons' : Commons K V) : Prop where
  mirrors : commons'.Mirrors own' contents'
  guards : commons'.storage.pool.guards = commons.storage.pool.guards
  shown : ∀ i, ∃ shown, (commons.trees i).Tells (commons'.trees i) (contents i) (contents' i)
    (own i) (own' i) (callsOf i moves) shown ∧ commons'.shown i = commons.shown i ++ shown
  flushed : commons'.flushed =
    commons.flushed ++ List.replicate (moves.countP Move.isFlush) (.ok ())

namespace Came

variable {own own' own'' : ι → PageId → Prop} {contents contents' contents'' : ι → PageId → Page}
  {rest : List (Move K V)} {commons commons' : Commons K V}

theorem of_call {i : ι} {made : Call (K i) (V i)} {reached : Tree.Reached (K i) (V i)}
    {mine : PageId → Prop} {content : PageId → Page}
    (last : Came (Function.update own i mine) own'' (Function.update contents i content) contents''
      rest (commons.after i reached) commons')
    (came : (commons.trees i).ideally (contents i) made =
      some ⟨reached.outcome, reached.tree, content⟩)
    (segment : reached.tree.segment = (commons.trees i).segment)
    (grown : Tree.Grown (commons.trees i).segment (own i) mine
      (commons.trees i).anchor.nextPageNo reached.tree.anchor.nextPageNo)
    (inherent : ∀ fault, reached.outcome = .error (.storage fault) →
      fault = .segmentExhausted (commons.trees i).segment)
    (guards : reached.storage.pool.guards = commons.storage.pool.guards) :
    Came own own'' contents contents'' (.call i made :: rest) commons commons' := by
  refine ⟨last.mirrors, last.guards.trans guards, fun j => ?_, ?_⟩
  · obtain ⟨shown, tells, ended⟩ := last.shown j
    obtain rfl | apart := eq_or_ne j i
    · rw [trees_after_self, Function.update_self, Function.update_self] at tells
      rw [shown_after_self, List.append_assoc] at ended
      rw [callsOf_call_self]
      exact ⟨_, .cons came segment grown inherent tells, ended⟩
    · rw [trees_after_of_ne apart, Function.update_of_ne apart,
        Function.update_of_ne apart] at tells
      rw [shown_after_of_ne apart] at ended
      rw [callsOf_call_of_ne apart]
      exact ⟨shown, tells, ended⟩
  · rw [List.countP_cons_of_neg (by rintro ⟨⟩)]
    exact last.flushed

theorem of_flush {residents : List (PageId × FrameId)} {storage : Storage}
    (last : Came own own' contents contents' rest (commons.afterFlush storage (.ok ())) commons')
    (guards : storage.pool.guards = commons.storage.pool.guards) :
    Came own own' contents contents' (.flush residents :: rest) commons commons' := by
  refine ⟨last.mirrors, last.guards.trans guards, fun j => ?_, ?_⟩
  · rw [callsOf_flush]
    exact last.shown j
  · rw [List.countP_cons_of_pos rfl, List.replicate_succ]
    exact last.flushed.trans (List.append_assoc ..)

end Came

/-- What keeps a run from its end: the calls of some tree are violated on an ideal store as well,
or a flush waits for a latch. -/
def Stopped (contents : ι → PageId → Page) (moves : List (Move K V)) (commons : Commons K V) :
    Prop :=
  (∃ i, (commons.trees i).idealRun (contents i) (callsOf i moves) = none) ∨
    (∃ residents, .flush residents ∈ moves) ∧
      ∃ guard ∈ commons.storage.pool.guards, guard.latch = .exclusive

namespace Stopped

variable {contents : ι → PageId → Page} {rest : List (Move K V)} {commons : Commons K V}

theorem of_call {i : ι} {made : Call (K i) (V i)} {reached : Tree.Reached (K i) (V i)}
    {content : PageId → Page}
    (stopped : Stopped (Function.update contents i content) rest (commons.after i reached))
    (came : (commons.trees i).ideally (contents i) made =
      some ⟨reached.outcome, reached.tree, content⟩)
    (guards : reached.storage.pool.guards = commons.storage.pool.guards) :
    Stopped contents (.call i made :: rest) commons := by
  rcases stopped with ⟨j, violated⟩ | ⟨⟨residents, mem⟩, latched⟩
  · refine .inl ⟨j, ?_⟩
    obtain rfl | apart := eq_or_ne j i
    · rw [trees_after_self, Function.update_self] at violated
      rw [callsOf_call_self, Tree.idealRun_cons came, violated]
      rfl
    · rw [trees_after_of_ne apart, Function.update_of_ne apart] at violated
      rw [callsOf_call_of_ne apart, violated]
  · exact .inr ⟨⟨residents, List.mem_cons_of_mem _ mem⟩, guards ▸ latched⟩

theorem of_flush {residents : List (PageId × FrameId)} {storage : Storage}
    (stopped : Stopped contents rest (commons.afterFlush storage (.ok ())))
    (guards : storage.pool.guards = commons.storage.pool.guards) :
    Stopped contents (.flush residents :: rest) commons := by
  rcases stopped with ⟨j, violated⟩ | ⟨⟨later, mem⟩, latched⟩
  · exact .inl ⟨j, (callsOf_flush j residents rest).symm ▸ violated⟩
  · exact .inr ⟨⟨later, List.mem_cons_of_mem _ mem⟩, guards ▸ latched⟩

end Stopped

def Comes (own : ι → PageId → Prop) (contents : ι → PageId → Page) (moves : List (Move K V))
    (commons : Commons K V) : Except Violation (Commons K V) → Prop
  | .ok commons' => ∃ own' contents', Came own own' contents contents' moves commons commons'
  | .error _ => Stopped contents moves commons

namespace Comes

variable {own : ι → PageId → Prop} {contents : ι → PageId → Page} {rest : List (Move K V)}
  {commons : Commons K V} {result : Except Violation (Commons K V)}

theorem of_call {i : ι} {made : Call (K i) (V i)} {reached : Tree.Reached (K i) (V i)}
    {mine : PageId → Prop} {content : PageId → Page}
    (comes : Comes (Function.update own i mine) (Function.update contents i content) rest
      (commons.after i reached) result)
    (came : (commons.trees i).ideally (contents i) made =
      some ⟨reached.outcome, reached.tree, content⟩)
    (segment : reached.tree.segment = (commons.trees i).segment)
    (grown : Tree.Grown (commons.trees i).segment (own i) mine
      (commons.trees i).anchor.nextPageNo reached.tree.anchor.nextPageNo)
    (inherent : ∀ fault, reached.outcome = .error (.storage fault) →
      fault = .segmentExhausted (commons.trees i).segment)
    (guards : reached.storage.pool.guards = commons.storage.pool.guards) :
    Comes own contents (.call i made :: rest) commons result := by
  cases result with
  | ok commons' =>
    obtain ⟨own', contents', last⟩ := comes
    exact ⟨own', contents', last.of_call came segment grown inherent guards⟩
  | error violation => exact Stopped.of_call comes came guards

theorem of_flush {residents : List (PageId × FrameId)} {storage : Storage}
    (comes : Comes own contents rest (commons.afterFlush storage (.ok ())) result)
    (guards : storage.pool.guards = commons.storage.pool.guards) :
    Comes own contents (.flush residents :: rest) commons result := by
  cases result with
  | ok commons' =>
    obtain ⟨own', contents', last⟩ := comes
    exact ⟨own', contents', last.of_flush guards⟩
  | error violation => exact Stopped.of_flush comes guards

end Comes

/-- A run that ends comes to what its calls come to on ideal stores, and one that does not is
stopped there as well or by a latch. -/
theorem run_comes [Nonempty ι] {own : ι → PageId → Prop} {contents : ι → PageId → Page}
    {commons : Commons K V} (h : commons.Mirrors own contents) (moves : List (Move K V)) :
    Comes own contents moves commons (commons.run moves) := by
  induction moves generalizing commons own contents with
  | nil => exact ⟨own, contents, h, rfl, fun i => ⟨[], .nil _ _ _, (List.append_nil _).symm⟩,
      (List.append_nil _).symm⟩
  | cons move rest ih =>
    rw [run, List.foldlM_cons]
    cases move with
    | call i made =>
      have comes := h.call_comes i made
      cases called : (commons.trees i).call made commons.storage with
      | error violation =>
        rw [called] at comes
        have violated : commons.step (.call i made) = .error violation := by
          rw [step, called]
          rfl
        rw [violated]
        refine .inl ⟨i, ?_⟩
        rw [callsOf_call_self]
        exact Tree.idealRun_of_violated comes _
      | ok reached =>
        rw [called] at comes
        obtain ⟨own', content', came, grown, inherent, segment, guards, mirrors⟩ := comes
        rw [step_call called]
        exact (ih mirrors).of_call came segment grown inherent guards
    | flush residents =>
      have comes := h.flush_comes residents
      cases flushed : (Pool.flushInOrder residents).run commons.storage with
      | ok _ storage =>
        obtain ⟨mirrors, guards⟩ := comes.of_ok flushed
        rw [step_flush flushed]
        exact (ih mirrors).of_flush guards
      | error failure storage =>
        obtain ⟨rfl, latched⟩ := comes.of_error flushed
        have violated : commons.step (.flush residents) = .error .latchHeld := by
          rw [step, flushed]
        rw [violated]
        exact .inr ⟨⟨residents, List.mem_cons_self⟩, latched⟩

theorem run_tells [Nonempty ι] {own : ι → PageId → Prop} {contents : ι → PageId → Page}
    {commons : Commons K V} (h : commons.Mirrors own contents) (moves : List (Move K V))
    (idle : commons.storage.pool.guards = [] ∨ ∀ residents, .flush residents ∉ moves) :
    match commons.run moves with
    | .ok commons' => ∃ own' contents', Came own own' contents contents' moves commons commons'
    | .error _ => ∃ i, (commons.trees i).idealRun (contents i) (callsOf i moves) = none := by
  have comes := run_comes h moves
  cases ran : commons.run moves with
  | ok commons' =>
    rw [ran] at comes
    exact comes
  | error violation =>
    rw [ran] at comes
    rcases comes with violated | ⟨⟨residents, mem⟩, guard, listed, -⟩
    · exact violated
    · rcases idle with none | never
      · rw [none] at listed
        cases listed
      · exact absurd mem (never residents)

/-- What the calls of a tree came to and the tree then, unless some call had no result. -/
def sightsOf (i : ι) :
    Except Violation (Commons K V) → Option (List (Outcome (V i) × Anchor) × Tree (K i) (V i))
  | .ok commons => some (commons.shown i, commons.trees i)
  | .error _ => none

end Commons

/-- A new pool of three frames or more on a disk that serves. -/
structure Storage.Fresh (s : Storage) : Prop where
  steady : s.disk.Steady
  new : ∃ size, 3 ≤ size ∧ Pool.new size = .ok s.pool

structure Disk.Has (disk : Disk) (own : PageId → Prop) (content : PageId → Page) : Prop where
  holds : ∀ page, own page → disk.Holds page
  reads : ∀ page, own page → disk.content page = content page

/-- A tree that can be opened, over pages of its own that lead to no others. -/
structure Tree.Grounded {K V : Type} [IndexKey K] [FixedWidth V] (tree : Tree K V)
    (own : PageId → Prop) (content : PageId → Page) : Prop where
  opened : Tree.reopen tree.segment tree.capacities tree.anchor = .ok tree
  root : ∀ root, tree.anchor.root = some root → own root
  minted : ∀ page, own page → Minted tree.segment tree.anchor.nextPageNo page
  linked : ∀ page, own page → tree.capacities.Linked K own (content page)

section Begins

variable {K V : Type} [IndexKey K] [FixedWidth V] {tree : Tree K V}

theorem Tree.Grounded.of_new {segment : SegmentId} {capacities : Capacities}
    (opened : Tree.new segment capacities = .ok tree) (content : PageId → Page) :
    tree.Grounded (fun _ => False) content := by
  obtain ⟨rfl, -⟩ := of_reopen opened
  exact ⟨opened, nofun, nofun, nofun⟩

theorem Disk.Has.none (disk : Disk) (content : PageId → Page) :
    disk.Has (fun _ => False) content :=
  ⟨nofun, nofun⟩

theorem Tree.Grounded.lodged {own : PageId → Prop} {content : PageId → Page} {s : Storage}
    {size : Nat} (grounded : tree.Grounded own content) (new : Pool.new size = .ok s.pool)
    (has : s.disk.Has own content) : tree.Lodged own ⟨tree.anchor, s⟩ := by
  obtain ⟨coherent, reads⟩ := Pool.new_coherent new s.disk
  have empty := Pool.table_of_new new
  refine ⟨coherent, fun page id resident => ?_, (of_reopen grounded.opened).2.2, grounded.root,
    grounded.minted, fun page mem => .inr (has.holds page mem), fun page mem => ?_,
    fun page resident => ?_⟩
  · rw [empty] at resident
    simp at resident
  · have same : s.content page = content page := (congrFun reads page).trans (has.reads page mem)
    rw [same]
    exact grounded.linked page mem
  · rw [empty] at resident
    simp at resident

end Begins

namespace Commons

section Begins

variable {ι : Type} {K V : ι → Type} [∀ i, IndexKey (K i)] [∀ i, FixedWidth (V i)]

theorem Mirrors.of_fresh {own : ι → PageId → Prop} {contents : ι → PageId → Page}
    {trees : ∀ i, Tree (K i) (V i)} {s : Storage}
    (distinct : ∀ i j, (trees i).segment = (trees j).segment → i = j)
    (grounded : ∀ i, (trees i).Grounded (own i) (contents i)) (fresh : s.Fresh)
    (has : ∀ i, s.disk.Has (own i) (contents i)) :
    (start trees s).Mirrors own contents := by
  obtain ⟨size, enough, new⟩ := fresh.new
  have reads := (Pool.new_coherent new s.disk).2
  refine ⟨distinct, fun i => (Tree.of_reopen (grounded i).opened).2.1,
    fun i => (grounded i).lodged new (has i), fun i guard mem => ?_,
    fun i page mem => (congrFun reads page).trans ((has i).reads page mem), fresh.steady, ?_⟩
  · change guard ∈ s.pool.guards at mem
    rw [Pool.guards_of_new new] at mem
    cases mem
  · change s.pool.pinnedFrameCount + 3 ≤ s.pool.size
    rw [Pool.pinnedFrameCount_of_new new, Pool.size_of_new new]
    exact enough

end Begins

section Alone

variable {K V : Type} [IndexKey K] [FixedWidth V] {tree : Tree K V} {s : Storage}
  {own : PageId → Prop} {content : PageId → Page}

def alone (tree : Tree K V) (s : Storage) : Commons (fun _ : Unit => K) (fun _ => V) :=
  start (fun _ => tree) s

theorem Mirrors.of_fresh_alone (grounded : tree.Grounded own content) (fresh : s.Fresh)
    (has : s.disk.Has own content) :
    (alone tree s).Mirrors (fun _ => own) (fun _ => content) :=
  .of_fresh (fun _ _ _ => rfl) (fun _ => grounded) fresh fun _ => has

/-- What a tree is told by itself is a function of what its pages read as. -/
theorem sightsOf_alone (h : (alone tree s).Mirrors (fun _ => own) (fun _ => content))
    {moves : List (Move (fun _ : Unit => K) (fun _ => V))}
    (idle : s.pool.guards = [] ∨ ∀ residents, .flush residents ∉ moves) :
    sightsOf () ((alone tree s).run moves) =
      (tree.idealRun content (callsOf () moves)).map fun ran => (ran.1, ran.2.1) := by
  have comes := run_tells h moves idle
  cases ran : (alone tree s).run moves with
  | ok commons =>
    rw [ran] at comes
    obtain ⟨own', contents', came⟩ := comes
    obtain ⟨shown, tells, same⟩ := came.shown ()
    have ideal : tree.idealRun content (callsOf () moves) = _ := tells.ran
    rw [ideal, sightsOf, same]
    rfl
  | error violation =>
    rw [ran] at comes
    obtain ⟨_, violated⟩ := comes
    have ideal : tree.idealRun content (callsOf () moves) = none := violated
    rw [ideal]
    rfl

theorem sightsOf_fresh (grounded : tree.Grounded own content) (fresh : s.Fresh)
    (has : s.disk.Has own content)
    (moves : List (Move (fun _ : Unit => K) (fun _ => V))) :
    sightsOf () ((alone tree s).run moves) =
      (tree.idealRun content (callsOf () moves)).map fun ran => (ran.1, ran.2.1) := by
  obtain ⟨size, -, new⟩ := fresh.new
  exact sightsOf_alone (.of_fresh_alone grounded fresh has) (.inl (Pool.guards_of_new new))

end Alone

end Commons

end PagedIndex
