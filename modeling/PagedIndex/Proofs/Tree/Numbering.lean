import PagedIndex.Proofs.Tree.Asking
import PagedIndex.Proofs.Tree.Reopening

/-!
# Page numbers are handed out once

A tree hands out page numbers in ascending order, one by one, and so it goes on when it was closed
and is opened again. Only an insertion takes any. The last number of the segment is handed out like
any other; a call that asks for one more fails, and the tree can be called and opened as before.
-/

namespace PagedIndex

open Access

def Request.handed : (request : Request) → request.Reply → List PageId
  | .mint, page => [page]
  | .fetch _ _, _ | .create _, _ | .write _ _, _ | .release _, _ | .setRoot _, _ => []

/-- The page ids that a program is handed out as it runs, in order. -/
def Access.minted {α : Type} (segment : SegmentId) : Access α → Footing → List PageId
  | .done _, _ | .fail _, _ => []
  | .ask request next, footing =>
    match (answer segment request).run footing with
    | .ok reply footing' => request.handed reply ++ (next reply).minted segment footing'
    | .error _ _ => []

theorem PageId.pageNo_of_le {segment : SegmentId} {pageNo : Nat} (room : pageNo ≤ maxPageNo) :
    (ofParts segment pageNo).pageNo = pageNo := by
  have within : maxPageNo < pageNoSpan := Nat.sub_lt (by decide) Nat.one_pos
  rw [pageNo_ofParts, Nat.mod_eq_of_lt (Nat.lt_of_le_of_lt room within)]

/-- The ids have the numbers from one count to the other. -/
structure Handed (segment : SegmentId) (n n' : Nat) (pages : List PageId) : Prop where
  more : n ≤ n'
  fits : n < n' → n' ≤ maxPageNo + 1
  pages : pages = (List.range' n (n' - n)).map (PageId.ofParts segment)

namespace Handed

variable {segment : SegmentId} {n n' n'' : Nat} {pages pages' : List PageId}

theorem nothing (segment : SegmentId) (n : Nat) : Handed segment n n [] :=
  ⟨Nat.le_refl n, fun more => absurd more (Nat.lt_irrefl n), by rw [Nat.sub_self]; rfl⟩

theorem one (segment : SegmentId) (room : n ≤ maxPageNo) :
    Handed segment n (n + 1) [.ofParts segment n] :=
  ⟨Nat.le_succ n, fun _ => Nat.succ_le_succ room, by rw [Nat.add_sub_cancel_left]; rfl⟩

theorem append (h : Handed segment n n' pages) (h' : Handed segment n' n'' pages') :
    Handed segment n n'' (pages ++ pages') := by
  have more := h.more
  have more' := h'.more
  refine ⟨Nat.le_trans more more', fun taken => ?_, ?_⟩
  · by_cases later : n' < n''
    · exact h'.fits later
    · exact Nat.le_trans (Nat.le_of_not_lt later) (h.fits (by omega))
  · rw [h.pages, h'.pages, ← List.map_append]
    have split : n'' - n = (n' - n) + (n'' - n') := by omega
    rw [split, ← List.range'_append_1, Nat.add_sub_cancel' more]

theorem length_eq (h : Handed segment n n' pages) : n + pages.length = n' := by
  rw [h.pages, List.length_map, List.length_range', Nat.add_sub_cancel' h.more]

theorem numbers_eq (h : Handed segment n n' pages) :
    pages.map PageId.pageNo = List.range' n pages.length := by
  have count : pages.length = n' - n := by rw [h.pages, List.length_map, List.length_range']
  rw [count, h.pages, List.map_map]
  refine (List.map_congr_left fun number mem => ?_).trans (List.map_id _)
  obtain ⟨low, high⟩ := List.mem_range'_1.mp mem
  have fits := h.fits (by omega)
  rw [Function.comp_apply, PageId.pageNo_of_le (by omega), id]

theorem segment_eq (h : Handed segment n n' pages) : ∀ page ∈ pages, page.segment = segment := by
  intro page mem
  rw [h.pages] at mem
  obtain ⟨number, -, rfl⟩ := List.mem_map.mp mem
  exact PageId.segment_ofParts segment number

theorem ascending (h : Handed segment n n' pages) :
    pages.Pairwise fun page later => page.pageNo < later.pageNo := by
  rw [← List.pairwise_map (f := PageId.pageNo) (R := (· < ·)), h.numbers_eq]
  exact List.pairwise_lt_range'

theorem nodup (h : Handed segment n n' pages) : pages.Nodup :=
  h.ascending.imp fun {page later} less (same : page = later) => Nat.lt_irrefl _ (same ▸ less)

end Handed

namespace Access

variable {α : Type} {segment : SegmentId} {mark limit : Nat} {others : List Guard}

theorem onStorage_anchor (action : StorageM α) (footing : Footing) :
    Ends (onStorage action) footing (fun _ f => f.anchor = footing.anchor)
      (fun _ f => f.anchor = footing.anchor) :=
  onStorage_ends ((Ends.run_eq action footing.storage).imp (fun _ _ _ => by rfl)
    fun _ _ _ => by rfl)

theorem pinned_anchor (page : PageId) (acquire : StorageM GuardId) (footing : Footing) :
    Ends (pinned page acquire) footing (fun _ f => f.anchor = footing.anchor)
      (fun _ f => f.anchor = footing.anchor) := by
  rw [pinned, Ends.bind_iff]
  refine (onStorage_anchor acquire footing).imp (fun guard f same => ?_) fun _ _ same => same
  rw [Ends.bind_iff]
  exact (onStorage_anchor (Pool.bytes guard) f).imp (fun _ _ same' => same'.trans same)
    fun _ _ same' => same'.trans same

theorem releaseSince_anchor (mark : Nat) (footing : Footing) :
    Ends (releaseSince mark) footing (fun _ f => f.anchor = footing.anchor)
      (fun _ f => f.anchor = footing.anchor) := by
  rw [releaseSince, Ends.bind_iff, Ends.get_iff]
  refine Ends.forM_keeps (fun f : Footing => f.anchor = footing.anchor) rfl fun id _ f same => ?_
  exact (onStorage_anchor (Pool.release id) f).imp (fun _ _ same' => same'.trans same)
    fun _ _ same' => same'.trans same

theorem mintFrom_of_full {segment : SegmentId} {footing : Footing}
    (full : maxPageNo < footing.anchor.nextPageNo) : (mintFrom segment).run footing =
      .error (.error (.storage (.segmentExhausted segment))) footing := by
  change (if _ then _ else _ : FootingM PageId) footing = _
  rw [if_pos full]
  rfl

theorem mintFrom_of_room {segment : SegmentId} {footing : Footing}
    (room : ¬ maxPageNo < footing.anchor.nextPageNo) : (mintFrom segment).run footing =
      .ok (.ofParts segment footing.anchor.nextPageNo)
        { footing with anchor.nextPageNo := footing.anchor.nextPageNo + 1 } := by
  change (if _ then _ else _ : FootingM PageId) footing = _
  rw [if_neg room]
  rfl

theorem mintFrom_comes (segment : SegmentId) (footing : Footing) :
    Ends (mintFrom segment) footing
      (fun page f => footing.anchor.nextPageNo ≤ maxPageNo ∧
        page = .ofParts segment footing.anchor.nextPageNo ∧
        f.anchor.nextPageNo = footing.anchor.nextPageNo + 1)
      (fun failure f => maxPageNo < footing.anchor.nextPageNo ∧
        failure = .error (.storage (.segmentExhausted segment)) ∧ f = footing) := by
  unfold Ends
  by_cases full : maxPageNo < footing.anchor.nextPageNo
  · rw [mintFrom_of_full full]
    exact ⟨full, rfl, rfl⟩
  · rw [mintFrom_of_room full]
    exact ⟨Nat.le_of_not_lt full, rfl, rfl⟩

theorem answer_counts (segment : SegmentId) (request : Request) (footing : Footing) :
    Ends (answer segment request) footing
      (fun reply f =>
        Handed segment footing.anchor.nextPageNo f.anchor.nextPageNo (request.handed reply) ∧
          (request.Edits → f.anchor = footing.anchor))
      (fun _ f => f.anchor = footing.anchor) := by
  have still {done : Request} {f : Footing} (same : f.anchor = footing.anchor) :
      Handed segment footing.anchor.nextPageNo f.anchor.nextPageNo [] ∧
        (done.Edits → f.anchor = footing.anchor) := by
    rw [same]
    exact ⟨.nothing segment _, fun _ => rfl⟩
  cases request with
  | fetch latch page =>
    exact (pinned_anchor page (Pool.fetch latch page) footing).imp (fun _ _ => still) fun _ _ => id
  | create page =>
    exact (pinned_anchor page (Pool.create page) footing).imp (fun _ _ => still) fun _ _ => id
  | write guard bytes =>
    exact (onStorage_anchor (Pool.write guard bytes) footing).imp (fun _ _ => still) fun _ _ => id
  | release guard =>
    exact (onStorage_anchor (Pool.release guard) footing).imp (fun _ _ => still) fun _ _ => id
  | mint =>
    refine (mintFrom_comes segment footing).imp ?_ ?_
    · rintro _ f ⟨room, rfl, next⟩
      rw [next]
      exact ⟨.one segment room, False.elim⟩
    · rintro _ f ⟨-, -, rfl⟩
      rfl
  | setRoot root => exact ⟨.nothing segment _, False.elim⟩

/-- What a program is handed out, whichever way it ends. -/
theorem run_counts (program : Access α) (footing : Footing) :
    Ends (program.run segment) footing
      (fun _ f => Handed segment footing.anchor.nextPageNo f.anchor.nextPageNo
        (program.minted segment footing))
      (fun _ f => Handed segment footing.anchor.nextPageNo f.anchor.nextPageNo
        (program.minted segment footing)) := by
  induction program generalizing footing with
  | done a => exact .nothing segment _
  | fail failure => exact .nothing segment _
  | ask request next ih =>
    rw [run, Ends.bind_iff]
    refine ((answer_counts segment request footing).and (Ends.run_eq _ _)).imp ?_ ?_
    · rintro reply f ⟨⟨handed, -⟩, ran⟩
      rw [minted, ran]
      exact (ih reply f).imp (fun _ _ rest => handed.append rest) fun _ _ rest => handed.append rest
    · rintro failure f ⟨same, ran⟩
      rw [minted, ran, same]
      exact .nothing segment _

theorem run_edits {program : Access α} (asks : program.Asks Request.Edits) (footing : Footing) :
    Ends (program.run segment) footing (fun _ f => f.anchor = footing.anchor)
      (fun _ f => f.anchor = footing.anchor) := by
  induction program generalizing footing with
  | done a => rfl
  | fail failure => rfl
  | ask request next ih =>
    obtain ⟨edits, rest⟩ := Asks.ask_iff.mp asks
    rw [run, Ends.bind_iff]
    refine (answer_counts segment request footing).imp ?_ fun _ _ same => same
    rintro reply f ⟨-, same⟩
    have same := same edits
    exact (ih reply (rest reply) f).imp (fun _ _ same' => same'.trans same)
      fun _ _ same' => same'.trans same

theorem perform_anchor (segment : SegmentId) (program : Access α) (footing : Footing) :
    Ends (program.perform segment) footing
      (fun a f => ∃ f', (program.run segment).run footing = .ok a f' ∧ f.anchor = f'.anchor)
      (fun failure f => (∃ violation, failure = .violation violation) ∨
        ∃ f', (program.run segment).run footing = .error failure f' ∧ f.anchor = f'.anchor) := by
  rw [perform, Ends.bind_iff, Ends.get_iff]
  refine Ends.tryFinally_of ((Ends.run_eq _ _).imp ?_ ?_)
  · intro a f' ran
    exact ((releaseSince_anchor _ f').and (Moment.releaseSince_ends f')).imp
      (fun _ _ ended => ⟨f', ran, ended.1⟩) fun _ _ ended => .inl ended.2
  · intro failure f' ran
    exact ((releaseSince_anchor _ f').and (Moment.releaseSince_ends f')).imp
      (fun _ _ ended => .inr ⟨f', ran, ended.1⟩) fun _ _ ended => .inl ended.2

theorem answer_exhausts {request : Request} {footing : Footing}
    (coherent : footing.storage.Coherent .nothing) :
    Ends (answer segment request) footing (fun _ _ => True)
      (fun failure f => ∀ other, failure = .error (.storage (.segmentExhausted other)) →
        other = segment ∧ request = .mint ∧ f = footing ∧ maxPageNo < footing.anchor.nextPageNo) := by
  have read (page : PageId) {acquire : StorageM GuardId}
      (refused : Ends acquire footing.storage (fun _ _ => True) (fun failure _ =>
        ∀ other, failure ≠ .error (.storage (.segmentExhausted other)))) :
      Ends (pinned page acquire) footing (fun _ _ => True) (fun failure f =>
        ∀ other, failure ≠ .error (.storage (.segmentExhausted other))) := by
    rw [pinned, Ends.bind_iff]
    refine onStorage_ends (refused.imp (fun guard s' _ => ?_) fun _ _ no => no)
    rw [Ends.bind_iff]
    refine onStorage_ends ?_
    simp only [Pool.bytes, Ends.bind_iff]
    exact (Pool.heldGuard_ends guard s').imp (fun _ _ _ => trivial)
      fun _ _ ended other same => by rw [ended.2.1] at same; cases same
  have of_pages {failure : Failure} {s : Storage} (refused : footing.storage.Refused failure s)
      (other : SegmentId) : failure ≠ .error (.storage (.segmentExhausted other)) := by
    obtain ⟨fault, rfl, of⟩ := refused.fault
    rintro ⟨⟩
    exact of
  cases request with
  | fetch latch page =>
    refine (read page ((Pool.fetch_ends coherent latch page).imp (fun _ _ _ => trivial) ?_)).imp
      (fun _ _ h => h) fun _ _ no other same => absurd same (no other)
    rintro failure s' (bars | refused) other
    · obtain ⟨_, rfl⟩ := bars.violated
      rintro ⟨⟩
    · exact of_pages refused other
  | create page =>
    exact (read page ((Pool.create_ends coherent page).imp (fun _ _ _ => trivial)
      fun _ _ => of_pages)).imp (fun _ _ h => h) fun _ _ no other same => absurd same (no other)
  | write guard bytes =>
    refine onStorage_ends ((Pool.write_ends coherent guard bytes).imp (fun _ _ _ => trivial) ?_)
    rintro failure s' ⟨-, rfl, -⟩ other ⟨⟩
  | release guard =>
    refine onStorage_ends ((Pool.release_ends coherent guard).imp (fun _ _ _ => trivial) ?_)
    rintro failure s' ⟨-, rfl, -⟩ other ⟨⟩
  | mint =>
    refine (mintFrom_comes segment footing).imp (fun _ _ _ => trivial) ?_
    rintro _ f ⟨full, rfl, rfl⟩ other ⟨⟩
    exact ⟨rfl, rfl, rfl, full⟩
  | setRoot root => trivial

end Access

namespace Moment

variable {α : Type} {segment : SegmentId} {mark limit : Nat} {others : List Guard}

/-- A program that runs out of page numbers does so where it asks for one. -/
theorem run_exhausts {allowed : Request → Prop} {program : Access α} {footing : Footing}
    (asks : program.Asks allowed) (keeps : Keeps segment mark limit others ⟨program, footing⟩) :
    Ends (program.run segment) footing (fun _ _ => True)
      (fun failure f => ∀ other, failure = .error (.storage (.segmentExhausted other)) →
        other = segment ∧ maxPageNo < f.anchor.nextPageNo ∧
          ∃ next, Leads segment mark ⟨program, footing⟩ ⟨.ask .mint next, f⟩) := by
  induction program generalizing footing with
  | done a => trivial
  | fail failure => exact fun other same => absurd same (Asks.fail_iff.mp asks _)
  | ask request next ih =>
    have ⟨scene, shows, _⟩ := keeps
    rw [run, Ends.bind_iff]
    refine ((answer_exhausts shows.coherent).and (Ends.run_eq _ _)).imp ?_ ?_
    · rintro reply f ⟨-, ran⟩
      have step : Step segment mark ⟨.ask request next, footing⟩ ⟨next reply, f⟩ := .answered ran
      refine (ih reply ((Asks.ask_iff.mp asks).2 reply) (step.keeps keeps)).imp
        (fun _ _ h => h) fun failure f' ended other same => ?_
      obtain ⟨here, full, next', leads⟩ := ended other same
      exact ⟨here, full, next', .head step leads⟩
    · rintro failure f ⟨ended, -⟩ other same
      obtain ⟨here, rfl, rfl, full⟩ := ended other same
      exact ⟨here, full, next, .refl⟩

theorem run_of_leads {moment moment' : Moment α} (leads : Leads segment mark moment moment')
    (unended : ¬ moment'.rest.Over) :
    (moment.rest.run segment).run moment.footing =
      (moment'.rest.run segment).run moment'.footing := by
  induction leads with
  | refl => rfl
  | tail leads step ih =>
    cases step with
    | @answered request next footing footing' reply ran =>
      rw [ih id, run]
      change EStateM.bind _ _ _ = _
      rw [EStateM.bind, show answer segment request footing = .ok reply footing' from ran]
      rfl
    | failed ran => exact absurd trivial unended
    | released finished taken ran => exact absurd finished unended

end Moment

namespace Tree

variable {K V : Type} [IndexKey K] [FixedWidth V] {tree : Tree K V} {s : Storage} {call : Call K V}
  {reached : Reached K V}

def minted (tree : Tree K V) (call : Call K V) (s : Storage) : List PageId :=
  (tree.program call).minted tree.segment ⟨tree.anchor, s⟩

/-- The call comes to ask for a page number where none is left. -/
def RunsOut (tree : Tree K V) (call : Call K V) (s : Storage) : Prop :=
  ∃ next footing, tree.During call s ⟨.ask .mint next, footing⟩ ∧
    footing.anchor.nextPageNo = maxPageNo + 1

theorem run_of_call (called : tree.call call s = .ok reached) :
    ∃ f, f.anchor = reached.tree.anchor ∧
      ((tree.program call).run tree.segment).run ⟨tree.anchor, s⟩ =
        match reached.outcome with
        | .ok answer => .ok answer f
        | .error error => .error (.error error) f := by
  have ends := ends_of_call called
    (perform_anchor tree.segment (tree.program call) ⟨tree.anchor, s⟩)
  cases outcome : reached.outcome with
  | ok answer =>
    rw [outcome] at ends
    obtain ⟨f', ran', same⟩ := ends
    exact ⟨f', same.symm, ran'⟩
  | error error =>
    rw [outcome] at ends
    obtain ⟨violation, other⟩ | ⟨f', ran', same⟩ := ends
    · cases other
    · exact ⟨f', same.symm, ran'⟩

theorem anchor_of_ends (right : Anchor → Prop) (called : tree.call call s = .ok reached)
    (ends : Ends ((tree.program call).run tree.segment) ⟨tree.anchor, s⟩
      (fun _ f => right f.anchor) (fun _ f => right f.anchor)) : right reached.tree.anchor := by
  obtain ⟨f, anchor, ran⟩ := run_of_call called
  rw [← anchor]
  cases outcome : reached.outcome with
  | ok answer => rw [outcome] at ran; exact ends.of_ok ran
  | error error => rw [outcome] at ran; exact ends.of_error ran

theorem call_counts (called : tree.call call s = .ok reached) :
    Handed tree.segment tree.anchor.nextPageNo reached.tree.anchor.nextPageNo
      (tree.minted call s) :=
  anchor_of_ends (fun anchor => Handed tree.segment tree.anchor.nextPageNo anchor.nextPageNo
    (tree.minted call s)) called (run_counts _ _)

theorem call_edits (called : tree.call call s = .ok reached)
    (edits : ∀ request, call.Requires request → request.Edits) :
    reached.tree.anchor = tree.anchor :=
  anchor_of_ends (· = tree.anchor) called
    (run_edits ((tree.program_asks call).mono edits) _)

/-- A call fails for want of a page number where it asks for one, and takes none. -/
theorem call_exhausts (coherent : s.Coherent .nothing) (called : tree.call call s = .ok reached)
    (counter : reached.tree.anchor.nextPageNo ≤ maxPageNo + 1) :
    (tree.RunsOut call s ↔
      reached.outcome = .error (.storage (.segmentExhausted tree.segment))) ∧
    (∀ other, reached.outcome = .error (.storage (.segmentExhausted other)) →
      other = tree.segment) ∧
    (tree.RunsOut call s → reached.tree.anchor.nextPageNo = maxPageNo + 1) := by
  obtain ⟨f, anchor, ran⟩ := run_of_call called
  have asked (other : SegmentId)
      (exhausted : reached.outcome = .error (.storage (.segmentExhausted other))) :
      other = tree.segment ∧ tree.RunsOut call s := by
    have ends := Moment.run_exhausts (tree.program_asks call) (start_keeps tree coherent call)
    rw [exhausted] at ran
    obtain ⟨here, full, next, leads⟩ := ends.of_error ran other rfl
    rw [anchor] at full
    exact ⟨here, next, f, leads, by rw [anchor]; omega⟩
  have refused (out : tree.RunsOut call s) :
      reached.outcome = .error (.storage (.segmentExhausted tree.segment)) ∧
        reached.tree.anchor.nextPageNo = maxPageNo + 1 := by
    obtain ⟨next, footing, during, full⟩ := out
    have rest : ((ask .mint next).run tree.segment).run footing =
        .error (.error (.storage (.segmentExhausted tree.segment))) footing := by
      rw [run]
      change EStateM.bind _ _ _ = _
      rw [EStateM.bind, show answer tree.segment .mint footing = _ from
        mintFrom_of_full (Nat.lt_of_lt_of_eq (Nat.lt_succ_self _) full.symm)]
    have came := (Moment.run_of_leads during id).trans rest
    change ((tree.program call).run tree.segment).run ⟨tree.anchor, s⟩ = _ at came
    rw [ran] at came
    cases outcome : reached.outcome with
    | ok answer => rw [outcome] at came; cases came
    | error error =>
      rw [outcome] at came
      cases came
      exact ⟨rfl, anchor ▸ full⟩
  exact ⟨⟨fun out => (refused out).1, fun exhausted => (asked _ exhausted).2⟩,
    fun other exhausted => (asked other exhausted).1, fun out => (refused out).2⟩

theorem own_of_owns {own : PageId → Prop} {content : PageId → Page} {page : PageId}
    (root : ∀ root, tree.anchor.root = some root → own root)
    (linked : ∀ page, own page → tree.capacities.Linked K own (content page))
    (owned : tree.Owns content page) : own page := by
  obtain ⟨top, anchored, reaches⟩ := owned
  induction reaches with
  | here => exact root top anchored
  | @down above child _ mem ih =>
    rw [nodes, Node.of] at mem
    split at mem
    · cases mem
    · rename_i inner
      exact (linked above ih inner).2.2 child mem

theorem Lodged.owns {own : PageId → Prop} (h : tree.Lodged own ⟨tree.anchor, s⟩) {page : PageId}
    (owned : tree.Owns s.content page) : own page :=
  own_of_owns h.root h.linked owned

/-- The trees that were opened without a page and called, and closed and opened again with the
anchor they had once a flush had succeeded, and the page ids they were handed out since. -/
inductive Lineage : List PageId → Tree K V → Storage → Prop
  | opened {segment : SegmentId} {capacities : Capacities} {counter : Nat} {tree : Tree K V}
      {disk : Disk} {size : Nat} {pool : Pool}
      (opened : Tree.reopen segment capacities ⟨none, counter⟩ = .ok tree)
      (attached : disk.Attached) (new : Pool.new size = .ok pool) : Lineage [] tree ⟨disk, pool⟩
  | called {pages : List PageId} {tree : Tree K V} {s : Storage} {call : Call K V}
      {reached : Reached K V} (before : Lineage pages tree s)
      (called : tree.call call s = .ok reached) :
      Lineage (pages ++ tree.minted call s) reached.tree reached.storage
  | elsewhere {pages : List PageId} {tree : Tree K V} {s s' : Storage} {operation : Pool.Operation}
      (before : Lineage pages tree s) (spares : operation.Spares tree.segment)
      (leaves : operation.Leaves s s') : Lineage pages tree s'
  | reopened {pages : List PageId} {tree tree' : Tree K V} {s s' : Storage}
      {residents : List (PageId × FrameId)} {store : SegmentStore} {volume : Volume} {size : Nat}
      {pool : Pool} (before : Lineage pages tree s)
      (whole : ∀ (page : PageId) (id : FrameId), s.pool.table[page]? = some id →
        (page, id) ∈ residents)
      (flushed : (Pool.flushInOrder residents).run s = .ok () s')
      (attached : (SegmentStore.attach s'.disk.store.directory).run s'.disk.volume =
        .ok store volume)
      (new : Pool.new size = .ok pool)
      (reopened : Tree.reopen tree.segment tree.capacities tree.anchor = .ok tree') :
      Lineage pages tree' ⟨⟨store, volume⟩, pool⟩

theorem Recoverable.reopens (h : tree.Recoverable s) :
    Tree.reopen tree.segment tree.capacities tree.anchor = .ok tree := by
  obtain ⟨own, lodged⟩ := h.lodged
  exact lodged.reopens h.accepted

theorem recoverable_of_opened {disk : Disk} {size : Nat} {pool : Pool} {counter : Nat}
    {segment : SegmentId} {capacities : Capacities}
    (opened : Tree.reopen segment capacities ⟨none, counter⟩ = .ok tree) (attached : disk.Attached)
    (new : Pool.new size = .ok pool) : tree.Recoverable ⟨disk, pool⟩ := by
  have accepted := accepted_of_reopen opened
  obtain ⟨rfl, -⟩ := of_reopen opened
  have grounded : Tree.Grounded (⟨segment, capacities, ⟨none, counter⟩⟩ : Tree K V)
      (fun _ => False) disk.content := ⟨opened, nofun, nofun, nofun⟩
  refine ⟨accepted, attached, ?_, _, grounded.lodged new (.none _ _)⟩
  rw [Pool.guards_of_new new]
  exact fun guard mem => absurd mem List.not_mem_nil

theorem Recoverable.reopened {residents : List (PageId × FrameId)} {store : SegmentStore}
    {volume : Volume} {size : Nat} {pool : Pool} {s' : Storage} (h : tree.Recoverable s)
    (whole : ∀ (page : PageId) (id : FrameId), s.pool.table[page]? = some id →
      (page, id) ∈ residents)
    (flushed : (Pool.flushInOrder residents).run s = .ok () s')
    (attached : (SegmentStore.attach s'.disk.store.directory).run s'.disk.volume = .ok store volume)
    (new : Pool.new size = .ok pool) : tree.Recoverable ⟨⟨store, volume⟩, pool⟩ := by
  have reopens := h.reopens
  obtain ⟨own, ⟨accepted, found, -, -⟩, lodged, has⟩ := h.flushed whole flushed
  cases found.attach_eq.symm.trans attached
  have grounded : tree.Grounded own s'.content :=
    ⟨reopens, lodged.root, lodged.minted, lodged.linked⟩
  have has' : s'.disk.reattached.Has own s'.content := by
    refine ⟨fun page mem => (Disk.holds_congr found.file_reattached).mpr (has.holds page mem),
      fun page mem => ?_⟩
    rw [Disk.content, found.file_reattached]
    exact has.reads page mem
  refine ⟨accepted, .of_closed rfl found.directory, ?_, own, grounded.lodged new has'⟩
  rw [Pool.guards_of_new new]
  exact fun guard mem => absurd mem List.not_mem_nil

theorem Lineage.recoverable {pages : List PageId} (lineage : Lineage pages tree s) :
    tree.Recoverable s := by
  induction lineage with
  | opened opened attached new => exact recoverable_of_opened opened attached new
  | called before called ih => exact ih.call called
  | elsewhere before spares leaves ih => exact ih.elsewhere spares leaves
  | reopened before whole flushed attached new reopened ih =>
    obtain rfl := Except.ok.inj (ih.reopens.symm.trans reopened)
    exact ih.reopened whole flushed attached new

/-- The numbers that were handed out follow on one another, across calls and reopenings. -/
theorem Lineage.handed {pages : List PageId} (lineage : Lineage pages tree s) :
    ∃ first, Handed tree.segment first tree.anchor.nextPageNo pages := by
  induction lineage with
  | opened => exact ⟨_, .nothing _ _⟩
  | called before called ih =>
    obtain ⟨first, handed⟩ := ih
    rw [tree_of_call called]
    exact ⟨first, handed.append (call_counts called)⟩
  | elsewhere before spares leaves ih => exact ih
  | reopened before whole flushed attached new reopened ih =>
    obtain rfl := Except.ok.inj (before.recoverable.reopens.symm.trans reopened)
    exact ih

/-- The page ids that a tree was ever handed out have the numbers from the first one on, in order
and none of them twice. The next number is at most one past the last, every page of the tree is
below it, and the tree can be opened with the anchor it has. A call never takes it back; only an
insertion moves it. A call fails for want of a page number just when it asks for one past the last,
and then the counter stays there. -/
theorem numbers_never_reused {pages : List PageId} (lineage : Lineage pages tree s) :
    pages.Nodup ∧
    (pages.Pairwise fun page later => page.pageNo < later.pageNo) ∧
    (∃ first, pages = (List.range' first pages.length).map (PageId.ofParts tree.segment) ∧
      pages.map PageId.pageNo = List.range' first pages.length ∧
      (∀ page ∈ pages, page.segment = tree.segment) ∧
      first + pages.length = tree.anchor.nextPageNo) ∧
    tree.anchor.nextPageNo ≤ maxPageNo + 1 ∧
    (∀ page, tree.Owns s.content page →
      page.segment = tree.segment ∧ page.pageNo < tree.anchor.nextPageNo) ∧
    Tree.reopen tree.segment tree.capacities tree.anchor = .ok tree ∧
    ∀ (call : Call K V) (reached : Reached K V), tree.call call s = .ok reached →
      tree.anchor.nextPageNo ≤ reached.tree.anchor.nextPageNo ∧
      ((∀ key value, call ≠ .insert key value) → reached.tree.anchor = tree.anchor) ∧
      (tree.RunsOut call s ↔
        reached.outcome = .error (.storage (.segmentExhausted tree.segment))) ∧
      (∀ other, reached.outcome = .error (.storage (.segmentExhausted other)) →
        other = tree.segment) ∧
      (tree.RunsOut call s → reached.tree.anchor.nextPageNo = maxPageNo + 1) := by
  have recoverable := lineage.recoverable
  obtain ⟨own, lodged⟩ := recoverable.lodged
  obtain ⟨first, handed⟩ := lineage.handed
  have ids : pages = (List.range' first pages.length).map (PageId.ofParts tree.segment) := by
    conv_lhs => rw [handed.pages]
    rw [← handed.length_eq, Nat.add_sub_cancel_left]
  refine ⟨handed.nodup, handed.ascending,
    ⟨first, ids, handed.numbers_eq, handed.segment_eq, handed.length_eq⟩, lodged.counter,
    fun page owned => lodged.minted page (lodged.owns owned), recoverable.reopens,
    fun call reached called => ?_⟩
  obtain ⟨own', lodged'⟩ := (recoverable.call called).lodged
  refine ⟨(call_counts called).more, fun other => ?_,
    call_exhausts lodged.coherent called lodged'.counter⟩
  refine call_edits called ?_
  cases call with
  | insert key value => exact absurd rfl (other key value)
  | erase key => exact fun _ edits => edits
  | lookup | height | length | isEmpty | validate => exact fun _ => Request.Looks.edits

/-- Makes calls one after another and lists the page ids that they are handed out. -/
def callAll (tree : Tree K V) (s : Storage) :
    List (Call K V) → Option (List PageId × Tree K V × Storage)
  | [] => some ([], tree, s)
  | call :: rest => do
    let reached ← (tree.call call s).toOption
    let (pages, last) ← reached.tree.callAll reached.storage rest
    return (tree.minted call s ++ pages, last)

theorem callAll_keeps {tree' : Tree K V} {s' : Storage} {calls : List (Call K V)}
    {pages : List PageId} (Keeps : List PageId → Tree K V → Storage → Prop)
    (each : ∀ pages tree s call reached, Keeps pages tree s → tree.call call s = .ok reached →
      Keeps (pages ++ tree.minted call s) reached.tree reached.storage)
    (before : List PageId) (start : Keeps before tree s)
    (made : tree.callAll s calls = some (pages, tree', s')) : Keeps (before ++ pages) tree' s' := by
  induction calls generalizing before pages tree s with
  | nil =>
    cases made
    rwa [List.append_nil]
  | cons call rest ih =>
    obtain ⟨reached, called, made⟩ := Option.bind_eq_some_iff.mp made
    obtain ⟨⟨later, last⟩, made, same⟩ := Option.bind_eq_some_iff.mp made
    cases same
    rw [← List.append_assoc]
    exact ih _ (each _ _ _ _ _ start (Session.ok_of_toOption called)) made

theorem Lineage.callAll {pages pages' : List PageId} {tree' : Tree K V} {s' : Storage}
    (lineage : Lineage pages tree s) {calls : List (Call K V)}
    (made : tree.callAll s calls = some (pages', tree', s')) :
    Lineage (pages ++ pages') tree' s' :=
  callAll_keeps Lineage (fun _ _ _ _ _ before called => .called before called) pages lineage made

/-- With two numbers left in the segment, the third entry splits the root in vain, and so it does
again. Then the tree is flushed, closed and opened. -/
theorem out_of_numbers_reopens : ∃ (pages : List PageId) (tree : Tree (Word false 1) (Word false 1))
    (s s' : Storage) (reached : Reached (Word false 1) (Word false 1)), Lineage pages tree s ∧
    pages.map PageId.pageNo = [maxPageNo - 1, maxPageNo] ∧ pages.Nodup ∧
    tree.call (.insert ⟨3⟩ ⟨30⟩) s = .ok reached ∧ tree.RunsOut (.insert ⟨3⟩ ⟨30⟩) s ∧
    reached.tree.anchor.nextPageNo = maxPageNo + 1 ∧
    Tree.reopen tree.segment tree.capacities tree.anchor = .ok tree ∧ Lineage pages tree s' := by
  have opened : Tree.reopen ⟨1⟩ ⟨2, 3⟩ ⟨none, maxPageNo - 1⟩ =
      .ok (⟨⟨1⟩, ⟨2, 3⟩, ⟨none, maxPageNo - 1⟩⟩ : Tree (Word false 1) (Word false 1)) := rfl
  let fill : List (Call (Word false 1) (Word false 1)) :=
    [.insert ⟨1⟩ ⟨10⟩, .insert ⟨2⟩ ⟨20⟩, .insert ⟨3⟩ ⟨30⟩]
  let check : List PageId × Tree (Word false 1) (Word false 1) × Storage → Bool
    | (pages, tree, s) => (Pool.flushAll.run s matches .ok _ _) &&
        (pages.map PageId.pageNo = [maxPageNo - 1, maxPageNo] &&
          (tree.call (.insert ⟨3⟩ ⟨30⟩) s).toOption.any
            (·.outcome = .error (.storage (.segmentExhausted tree.segment))))
  obtain ⟨pool, new, checked⟩ : ∃ pool, Pool.new 4 = .ok pool ∧
      (callAll ⟨⟨1⟩, ⟨2, 3⟩, ⟨none, maxPageNo - 1⟩⟩ ⟨Disk.twoFiles, pool⟩ fill).any check = true :=
    ⟨_, rfl, by decide +kernel⟩
  obtain ⟨⟨pages, tree, s⟩, made, found⟩ := (Option.any_eq_true _ _).mp checked
  obtain ⟨flushes, found⟩ := Bool.and_eq_true_iff.mp found
  obtain ⟨numbers, found⟩ := Bool.and_eq_true_iff.mp found
  obtain ⟨reached, called, exhausted⟩ := (Option.any_eq_true _ _).mp found
  have called := Session.ok_of_toOption called
  have lineage := (Lineage.opened opened Disk.attached_twoFiles new).callAll made
  obtain ⟨nodup, -, -, -, -, reopens, calls⟩ := numbers_never_reused lineage
  obtain ⟨-, -, out, -, stays⟩ := calls _ reached called
  have out := out.mpr (of_decide_eq_true exhausted)
  cases flushed : Pool.flushAll.run s with
  | error failure s' =>
    rw [flushed] at flushes
    cases flushes
  | ok _ s' =>
    obtain ⟨own, ⟨-, attached, -, -⟩, -⟩ := lineage.recoverable.flushed
      (fun page id => Std.TreeMap.mem_toList_iff_getElem?_eq_some.mpr) flushed
    exact ⟨pages, tree, s, _, reached, lineage, of_decide_eq_true numbers, nodup, called, out,
      stays out, reopens, .reopened lineage
        (fun page id => Std.TreeMap.mem_toList_iff_getElem?_eq_some.mpr) flushed attached.attach_eq
        new reopens⟩

end Tree

end PagedIndex
