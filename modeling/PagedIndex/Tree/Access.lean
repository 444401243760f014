import PagedIndex.Pool.Guards

/-!
Tree operations as programs of page requests.

A program asks for one thing at a time and goes on with the reply, so what it holds between two
requests can be spoken of. `Access.run` answers the requests from a pool and the tree's own
anchor. A request that fails ends the program; the state it reached stays.
-/

namespace PagedIndex

/-- A page under a guard, as read or last written through it. -/
structure Pinned where
  guard : GuardId
  page : PageId
  bytes : Page

inductive Request where
  | fetch (latch : Latch) (page : PageId)
  | create (page : PageId)
  | write (guard : GuardId) (bytes : Page)
  | release (guard : GuardId)
  /-- Asks for a page id that was never handed out. -/
  | mint
  | setRoot (root : PageId)

def Request.Reply : Request → Type
  | fetch _ _ | create _ => Pinned
  | write _ _ | release _ | setRoot _ => Unit
  | mint => PageId

inductive Access (α : Type) where
  | done (result : α)
  | fail (failure : Failure)
  | ask (request : Request) (next : request.Reply → Access α)

/-- What a tree keeps outside its pages. -/
structure Anchor where
  root : Option PageId
  /-- The first page number not handed out yet; one past the last when the segment is used up. -/
  nextPageNo : Nat
  deriving DecidableEq, Repr

def Anchor.empty : Anchor := ⟨none, 0⟩

structure Footing where
  anchor : Anchor
  storage : Storage

abbrev FootingM := EStateM Failure Footing

namespace Access

variable {α β : Type}

def bind : Access α → (α → Access β) → Access β
  | done a, f => f a
  | fail failure, _ => fail failure
  | ask request next, f => ask request fun reply => bind (next reply) f

instance : Monad Access where
  pure := done
  bind := bind

instance : LawfulMonad Access := LawfulMonad.mk' Access
  (by
    intro α x
    induction x with
    | done | fail => rfl
    | ask request next ih => exact congrArg (ask request) (funext ih))
  (fun _ _ => rfl)
  (by
    intro α β γ x f g
    induction x with
    | done | fail => rfl
    | ask request next ih => exact congrArg (ask request) (funext ih))

def request (request : Request) : Access request.Reply := ask request done

def fetch (latch : Latch) (page : PageId) : Access Pinned := request (.fetch latch page)

def create (page : PageId) : Access Pinned := request (.create page)

def write (pinned : Pinned) (bytes : Page) : Access Unit := request (.write pinned.guard bytes)

def release (pinned : Pinned) : Access Unit := request (.release pinned.guard)

def mint : Access PageId := request .mint

def setRoot (root : PageId) : Access Unit := request (.setRoot root)

def error (error : Error) : Access α := fail (.error error)

def violate (violation : Violation) : Access α := fail (.violation violation)

def ofNode : Except Violation α → Access α
  | .ok a => done a
  | .error violation => violate violation

def onStorage (action : StorageM α) : FootingM α := fun footing =>
  match action.run footing.storage with
  | .ok a storage => .ok a { footing with storage }
  | .error failure storage => .error failure { footing with storage }

def pinned (page : PageId) (acquire : StorageM GuardId) : FootingM Pinned := do
  let guard ← onStorage acquire
  return { guard, page, bytes := ← onStorage (Pool.bytes guard) }

def mintFrom (segment : SegmentId) : FootingM PageId := do
  let nextPageNo := (← get).anchor.nextPageNo
  if maxPageNo < nextPageNo then throw (.error (.storage (.segmentExhausted segment)))
  modify fun footing => { footing with anchor.nextPageNo := nextPageNo + 1 }
  return .ofParts segment nextPageNo

def answer (segment : SegmentId) : (request : Request) → FootingM request.Reply
  | .fetch latch page => pinned page (Pool.fetch latch page)
  | .create page => pinned page (Pool.create page)
  | .write guard bytes => onStorage (Pool.write guard bytes)
  | .release guard => onStorage (Pool.release guard)
  | .mint => mintFrom segment
  | .setRoot root => modify fun footing => { footing with anchor.root := some root }

def run (segment : SegmentId) : Access α → FootingM α
  | done a => pure a
  | fail failure => throw failure
  | ask request next => do
    let reply ← answer segment request
    (next reply).run segment

/-- The guards that were taken since their numbering stood at `mark`, newest first. -/
def takenSince (mark : Nat) (pool : Pool) : List GuardId :=
  (pool.guards.map (·.id)).filter fun id => mark ≤ id.index

def releaseSince (mark : Nat) : FootingM Unit := do
  (takenSince mark (← get).storage.pool).forM fun id => onStorage (Pool.release id)

/-- Runs a program and then lets go of every guard it still holds, however it ended. -/
def perform (segment : SegmentId) (program : Access α) : FootingM α := do
  let mark := (← get).storage.pool.nextGuard
  try program.run segment
  finally releaseSince mark

end Access

end PagedIndex
