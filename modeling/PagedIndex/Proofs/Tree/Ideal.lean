import Mathlib.Logic.Function.Basic
import PagedIndex.Proofs.Tree.Scene
import PagedIndex.Tree.Call

/-!
# Calls on pages that are all at hand

An ideal store has every page at hand as it was last written. It has no frames and no disk, so the
only thing it ever runs out of is page numbers, and a guard is refused only for a latch that the
call holds itself. What calls come to on such a store is a function of the tree's anchor and of what
its pages read as.
-/

namespace PagedIndex

/-- Pages at hand, and the number of the next guard on them. -/
structure Ideal extends Scene where
  nextGuard : Nat

namespace Ideal

def start (anchor : Anchor) (content : PageId → Page) : Ideal := ⟨⟨anchor, content, []⟩, 0⟩

def Blocked (ideal : Ideal) (latch : Latch) (page : PageId) : Prop :=
  ∃ hold ∈ ideal.holds, hold.page = page ∧ (latch = .exclusive ∨ hold.latch = .exclusive)

instance (ideal : Ideal) (latch : Latch) (page : PageId) : Decidable (ideal.Blocked latch page) :=
  inferInstanceAs (Decidable (∃ hold ∈ ideal.holds, _))

def put (ideal : Ideal) (page : PageId) (bytes : Page) : Ideal :=
  { ideal with content := Function.update ideal.content page bytes }

theorem content_put (ideal : Ideal) (page : PageId) (bytes : Page) :
    (ideal.put page bytes).content = Function.update ideal.content page bytes := rfl

def take (ideal : Ideal) (latch : Latch) (page : PageId) : Pinned × Ideal :=
  (⟨⟨ideal.nextGuard⟩, page, ideal.content page⟩,
    { ideal with
      holds := ⟨⟨ideal.nextGuard⟩, page, latch⟩ :: ideal.holds
      nextGuard := ideal.nextGuard + 1 })

def handOut (ideal : Ideal) : Ideal :=
  { ideal with anchor.nextPageNo := ideal.anchor.nextPageNo + 1 }

def hold? (ideal : Ideal) (guard : GuardId) : Option Hold := ideal.holds.find? (·.guard = guard)

theorem hold?_of_held {ideal : Ideal} {guard : GuardId}
    (held : ∃ hold ∈ ideal.holds, hold.guard = guard) :
    ∃ hold ∈ ideal.holds, hold.guard = guard ∧ ideal.hold? guard = some hold := by
  cases found : ideal.hold? guard with
  | none =>
    obtain ⟨hold, mem, here⟩ := held
    exact absurd (decide_eq_true here) (List.find?_eq_none.mp found hold mem)
  | some hold =>
    rw [hold?] at found
    have here := List.find?_some found
    exact ⟨hold, List.mem_of_find?_eq_some found, of_decide_eq_true here, rfl⟩

def answer (segment : SegmentId) (ideal : Ideal) :
    (request : Request) → Except Failure (request.Reply × Ideal)
  | .fetch latch page =>
    if ideal.Blocked latch page then .error (.violation .latchHeld)
    else .ok (ideal.take latch page)
  | .create page => .ok ((ideal.put page Page.zeroed).take .exclusive page)
  | .write guard bytes =>
    match ideal.hold? guard with
    | none => .error (.violation .staleGuard)
    | some hold => .ok ((), ideal.put hold.page bytes)
  | .release guard =>
    match ideal.hold? guard with
    | none => .error (.violation .staleGuard)
    | some _ => .ok ((), { ideal with holds := ideal.holds.filter (·.guard ≠ guard) })
  | .mint =>
    if maxPageNo < ideal.anchor.nextPageNo then
      .error (.error (.storage (.segmentExhausted segment)))
    else .ok (.ofParts segment ideal.anchor.nextPageNo, ideal.handOut)
  | .setRoot root => .ok ((), { ideal with anchor.root := some root })

theorem answer_fetch {segment : SegmentId} {ideal : Ideal} {latch : Latch} {page : PageId}
    (unblocked : ¬ ideal.Blocked latch page) : ideal.answer segment (.fetch latch page) =
      .ok (⟨⟨ideal.nextGuard⟩, page, ideal.content page⟩, (ideal.take latch page).2) :=
  if_neg unblocked

theorem answer_create (segment : SegmentId) (ideal : Ideal) (page : PageId) :
    ideal.answer segment (.create page) = .ok (⟨⟨ideal.nextGuard⟩, page, Page.zeroed⟩,
      ((ideal.put page Page.zeroed).take .exclusive page).2) := by
  rw [answer, take, content_put, Function.update_self]
  rfl

theorem answer_mint {segment : SegmentId} {ideal : Ideal}
    (room : ideal.anchor.nextPageNo ≤ maxPageNo) : ideal.answer segment .mint =
      .ok (.ofParts segment ideal.anchor.nextPageNo, ideal.handOut) :=
  if_neg (Nat.not_lt_of_le room)

end Ideal

/-- What a program comes to on an ideal store. -/
def Access.ideally {α : Type} (segment : SegmentId) :
    Access α → Ideal → Except Failure α × Ideal
  | .done a, ideal => (.ok a, ideal)
  | .fail failure, ideal => (.error failure, ideal)
  | .ask request next, ideal =>
    match ideal.answer segment request with
    | .ok (reply, ideal) => ideally segment (next reply) ideal
    | .error failure => (.error failure, ideal)

namespace Access

variable {α : Type} {segment : SegmentId} {request : Request} {next : request.Reply → Access α}
  {ideal ideal' : Ideal}

theorem ideally_of_answer {reply : request.Reply}
    (answered : ideal.answer segment request = .ok (reply, ideal')) :
    (ask request next).ideally segment ideal = (next reply).ideally segment ideal' := by
  rw [ideally, answered]

theorem ideally_of_refusal {failure : Failure}
    (refused : ideal.answer segment request = .error failure) :
    (ask request next).ideally segment ideal = (.error failure, ideal) := by
  rw [ideally, refused]

end Access

namespace Tree

variable {K V : Type} [IndexKey K] [FixedWidth V]

/-- What a call came to, the tree, and what its pages read as then. -/
structure Came (K V : Type) where
  outcome : Outcome V
  tree : Tree K V
  content : PageId → Page

def ideally (tree : Tree K V) (content : PageId → Page) (call : Call K V) : Option (Came K V) :=
  match (tree.program call).ideally tree.segment (.start tree.anchor content) with
  | (.ok answer, ideal) => some ⟨.ok answer, { tree with anchor := ideal.anchor }, ideal.content⟩
  | (.error (.error error), ideal) =>
    some ⟨.error error, { tree with anchor := ideal.anchor }, ideal.content⟩
  | (.error (.violation _), _) => none

end Tree

end PagedIndex
