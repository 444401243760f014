import PagedIndex.Proofs.Tree.Moments
import PagedIndex.Proofs.Tree.Sessions

/-!
# Calls hand back what they pin

At each of the moments of a call its own guards are within its limit and every other pin is where it
was, whatever the pages hold and whichever request failed; after the call the pins are those before.
-/

namespace PagedIndex.Tree

variable {K V : Type} [IndexKey K] [FixedWidth V]

/-- The trees and storages that calls and any other operations on the pool come to, from any tree
that could be opened on any disk. -/
inductive InUse : Tree K V → Storage → Prop
  | opened {segment : SegmentId} {capacities : Capacities} {anchor : Anchor} {tree : Tree K V}
      {disk : Disk} {size : Nat} {pool : Pool} (new : Pool.new size = .ok pool)
      (opened : Tree.reopen segment capacities anchor = .ok tree) : InUse tree ⟨disk, pool⟩
  | reopened {segment : SegmentId} {capacities : Capacities} {anchor : Anchor}
      {tree tree' : Tree K V} {storage : Storage} (before : InUse tree storage)
      (opened : Tree.reopen segment capacities anchor = .ok tree') : InUse tree' storage
  | called {tree : Tree K V} {storage : Storage} {call : Call K V} {reached : Reached K V}
      (before : InUse tree storage) (called : tree.call call storage = .ok reached) :
      InUse reached.tree reached.storage
  | operated {tree : Tree K V} {storage storage' : Storage} {operation : Pool.Operation}
      (before : InUse tree storage) (leaves : operation.Leaves storage storage') :
      InUse tree storage'

theorem InUse.coherent {tree : Tree K V} {storage : Storage} (used : tree.InUse storage) :
    storage.Coherent .nothing := by
  induction used with
  | opened new _ => exact (Pool.new_coherent new _).1
  | reopened _ _ ih => exact ih
  | called _ called ih =>
    obtain ⟨⟨rest, -, during⟩, -⟩ := during_of_call ih called
    exact coherent_during ih during
  | @operated tree storage storage' operation _ leaves ih =>
    exact Pool.coherent_of_leaves ih leaves

/-- At every moment of a call its own guards, with the one it is to take next, are within its
limit, and beside them each frame has the pins it had before the call. When the call returns, with
whichever answer or error, it has handed all of them back. -/
theorem pins_handed_back {tree : Tree K V} {storage : Storage} (used : tree.InUse storage)
    (call : Call K V) :
    (∀ moment, tree.During call storage moment → ∃ own,
      moment.footing.storage.pool.guards = own ++ storage.pool.guards ∧
      own.length + moment.rest.claims ≤ call.guardLimit ∧
      ∀ id, ((moment.footing.storage.pool.frame id).pins : Nat) =
        (storage.pool.frame id).pins + own.countP (·.frame = id)) ∧
    ∀ reached, tree.call call storage = .ok reached →
      (∃ rest : Access (Answer V), rest.Over ∧
        tree.During call storage ⟨rest, ⟨reached.tree.anchor, reached.storage⟩⟩) ∧
      reached.storage.pool.guards = storage.pool.guards ∧
      ∀ id, (reached.storage.pool.frame id).pins = (storage.pool.frame id).pins := by
  have coherent := used.coherent
  have pins := coherent.pool.consistent.pins
  refine ⟨fun moment during => ?_, fun reached called => ?_⟩
  · obtain ⟨scene, shows, within_limit, few⟩ :=
      Moment.keeps_later during (start_keeps tree coherent call)
    obtain ⟨own, guards, held, -⟩ := shows.guards
    refine ⟨own, guards, ?_, fun id => ?_⟩
    · have count : own.length = scene.holds.length := by rw [← held, List.length_map]
      rw [count]
      exact Moment.claims_le within_limit few
    · rw [shows.coherent.pool.consistent.pins, guards, List.countP_append, pins, Nat.add_comm]
  · obtain ⟨during, guards⟩ := during_of_call coherent called
    refine ⟨during, guards, fun id => ?_⟩
    obtain ⟨rest, -, during⟩ := during
    rw [← UInt32.toNat_inj, (coherent_during coherent during).pool.consistent.pins, guards, pins]

theorem inUse_of_reachable {session : Session K V} (reachable : Session.Reachable session) :
    session.tree.InUse session.storage := by
  induction reachable with
  | opened opened new => exact .opened new opened
  | called _ _ called ih => exact .called ih called
  | elsewhere _ _ leaves ih => exact .operated ih leaves

theorem pins_back_after_refused_split : ∃ session reached,
    Session.insertThree 2 = some session ∧ session.tree.InUse session.storage ∧
    session.tree.call (.insert ⟨3⟩ ⟨30⟩) session.storage = .ok reached ∧
    reached.outcome = .error (.storage .noFreeFrames) ∧
    ∀ id, (reached.storage.pool.frame id).pins = (session.storage.pool.frame id).pins := by
  have checked : (Session.insertThree 2).any (fun session =>
      (session.tree.call (.insert ⟨3⟩ ⟨30⟩) session.storage).toOption.any fun reached =>
        reached.outcome = .error (.storage .noFreeFrames)) = true := by decide +kernel
  obtain ⟨session, made, refused⟩ := (Option.any_eq_true _ _).mp checked
  have used := inUse_of_reachable (Session.reachable_insertThree made)
  cases called : session.tree.call (.insert ⟨3⟩ ⟨30⟩) session.storage with
  | error violation => rw [called] at refused; cases refused
  | ok reached =>
    rw [called] at refused
    obtain ⟨-, -, pins⟩ := (pins_handed_back used (.insert ⟨3⟩ ⟨30⟩)).2 reached called
    exact ⟨session, reached, made, used, called, of_decide_eq_true refused, pins⟩

end PagedIndex.Tree
