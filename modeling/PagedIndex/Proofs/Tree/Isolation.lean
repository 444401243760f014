import PagedIndex.FixedWidth.Word
import PagedIndex.Proofs.Tree.Commons
import PagedIndex.Proofs.Tree.Sessions

/-!
# Trees of different segments do not interfere

Trees that share a pool evict each other's pages all the time. Yet each is told what it would be
told if its own calls were made alone, on a pool and a disk of its own that has its pages.
-/

namespace PagedIndex.Commons

variable {ι : Type} [DecidableEq ι] [Nonempty ι] {K V : ι → Type} [∀ i, IndexKey (K i)]
  [∀ i, FixedWidth (V i)]

/-- However the calls of trees of different segments and the flushes of their pool follow each
other: each tree gives the results and comes to the anchors that it gives and comes to when its own
calls are made alone on a new pool, whose disk has its pages and which is flushed at other times. If
a call has no result, the calls of some tree have none when they are made alone. -/
theorem told_as_alone {trees : ∀ i, Tree (K i) (V i)} {own : ι → PageId → Prop}
    {contents : ι → PageId → Page} {s : Storage}
    (distinct : ∀ i j, (trees i).segment = (trees j).segment → i = j)
    (grounded : ∀ i, (trees i).Grounded (own i) (contents i)) (fresh : s.Fresh)
    (has : ∀ i, s.disk.Has (own i) (contents i)) (moves : List (Move K V)) :
    match (start trees s).run moves with
    | .ok commons => ∀ i (s' : Storage) (moves' : List (Move (fun _ : Unit => K i) fun _ => V i)),
        s'.Fresh → s'.disk.Has (own i) (contents i) → callsOf () moves' = callsOf i moves →
        sightsOf () ((alone (trees i) s').run moves') = some (commons.shown i, commons.trees i)
    | .error _ => ∃ i, ∀ (s' : Storage) (moves' : List (Move (fun _ : Unit => K i) fun _ => V i)),
        s'.Fresh → s'.disk.Has (own i) (contents i) → callsOf () moves' = callsOf i moves →
        sightsOf () ((alone (trees i) s').run moves') = none := by
  obtain ⟨size, -, new⟩ := fresh.new
  have comes := run_tells (.of_fresh distinct grounded fresh has) moves
    (.inl (Pool.guards_of_new new))
  cases ran : (start trees s).run moves with
  | ok commons =>
    rw [ran] at comes
    obtain ⟨own', contents', came⟩ := comes
    intro i s' moves' fresh' has' same
    obtain ⟨shown, tells, shows⟩ := came.shown i
    obtain rfl : commons.shown i = shown := shows
    rw [sightsOf_fresh (grounded i) fresh' has', same]
    have ideal : (trees i).idealRun (contents i) (callsOf i moves) = _ := tells.ran
    rw [ideal]
    rfl
  | error violation =>
    rw [ran] at comes
    obtain ⟨i, violated⟩ := comes
    refine ⟨i, fun s' moves' fresh' has' same => ?_⟩
    rw [sightsOf_fresh (grounded i) fresh' has', same]
    have ideal : (trees i).idealRun (contents i) (callsOf i moves) = none := violated
    rw [ideal]
    rfl

/-- A tree with one page, whose segment has no page numbers left, and one that is empty. -/
def oldAndNew : ∀ new : Bool, Tree (Word false (cond new 2 1)) (Word false 1)
  | false => ⟨⟨0⟩, ⟨2, 3⟩, ⟨some ⟨0⟩, maxPageNo + 1⟩⟩
  | true => ⟨⟨1⟩, ⟨2, 3⟩, .empty⟩

def oldPage : Bool → PageId → Prop
  | false => (· = ⟨0⟩)
  | true => fun _ => False

theorem grounded_oldAndNew (new : Bool) :
    (oldAndNew new).Grounded (oldPage new) fun _ => Page.zeroed := by
  cases new with
  | true =>
    have opened : Tree.new ⟨1⟩ ⟨2, 3⟩ = .ok (oldAndNew true) := rfl
    exact .of_new opened _
  | false =>
    refine ⟨rfl, fun root same => (Option.some.inj same).symm, ?_, fun _ _ => .zeroed⟩
    rintro page rfl
    exact ⟨rfl, by decide⟩

theorem has_oldPage (new : Bool) : Disk.twoFiles.Has (oldPage new) fun _ => Page.zeroed := by
  cases new with
  | true => exact .none _ _
  | false =>
    have file : Disk.twoFiles.file ⟨0⟩ = File.empty.write 0 Page.zeroed := rfl
    refine ⟨?_, ?_⟩
    · rintro page rfl
      rw [Disk.Holds, show (⟨0⟩ : PageId).segment = ⟨0⟩ from rfl, file]
      decide
    · rintro page rfl
      rw [Disk.content, show (⟨0⟩ : PageId).segment = ⟨0⟩ from rfl, file]
      rfl

/-- Both take turns. The third insertion into the old one has no page number for the split. -/
def turns : List (Move (fun new => Word false (cond new 2 1)) (fun _ => Word false 1)) :=
  [.call true (.insert ⟨1⟩ ⟨10⟩), .call false (.insert ⟨1⟩ ⟨11⟩), .call false (.insert ⟨2⟩ ⟨12⟩),
    .call true (.insert ⟨2⟩ ⟨20⟩), .flush [(⟨0⟩, ⟨1⟩)], .call true (.insert ⟨3⟩ ⟨30⟩),
    .call false (.insert ⟨3⟩ ⟨13⟩), .call true .validate, .call false .length]

theorem turns_told_as_alone : ∃ pool commons, Pool.new 3 = .ok pool ∧
    (start oldAndNew ⟨Disk.twoFiles, pool⟩).run turns = .ok commons ∧
    (commons.shown false).map (·.1) = [.ok .done, .ok .done,
      .error (.storage (.segmentExhausted ⟨0⟩)), .ok (.count 2)] ∧
    ∀ new, sightsOf () ((alone (oldAndNew new) ⟨Disk.twoFiles, pool⟩).run
      ((callsOf new turns).map (.call ()))) = some (commons.shown new, commons.trees new) := by
  obtain ⟨pool, new, checked⟩ : ∃ pool, Pool.new 3 = .ok pool ∧
      ((start oldAndNew ⟨Disk.twoFiles, pool⟩).run turns).toOption.any (fun commons =>
        (commons.shown false).map (·.1) = [.ok .done, .ok .done,
          .error (.storage (.segmentExhausted ⟨0⟩)), .ok (.count 2)]) = true :=
    ⟨_, rfl, by decide +kernel⟩
  obtain ⟨commons, ran, found⟩ := (Option.any_eq_true _ _).mp checked
  have ran := Session.ok_of_toOption ran
  have distinct : ∀ i j, (oldAndNew i).segment = (oldAndNew j).segment → i = j := by decide
  have fresh : Storage.Fresh ⟨Disk.twoFiles, pool⟩ := ⟨Disk.steady_twoFiles, 3, Nat.le_refl 3, new⟩
  have told := told_as_alone distinct grounded_oldAndNew fresh has_oldPage turns
  rw [ran] at told
  exact ⟨pool, commons, new, ran, of_decide_eq_true found,
    fun i => told i _ _ fresh (has_oldPage i) (callsOf_calls () _)⟩

end PagedIndex.Commons
