import PagedIndex.Disk
import PagedIndex.Fault
import PagedIndex.Pool.Basic

/-!
Actions on a pool and the disk under it. An action that fails keeps the state it reached.
-/

namespace PagedIndex

structure Storage (D : Type := Disk) where
  disk : D
  pool : Pool

abbrev StorageOn (D : Type) := EStateM Failure (Storage D)

abbrev StorageM := StorageOn Disk

namespace StorageM

variable {D α : Type}

def pool : StorageOn D Pool := return (← get).pool

def mapPool (f : Pool → Pool) : StorageOn D Unit :=
  modify fun storage => { storage with pool := f storage.pool }

def fail (fault : StorageFault) : StorageOn D α := throw (.error (.storage fault))

def violate (violation : Violation) : StorageOn D α := throw (.violation violation)

def onDisk (action : EStateM StorageFault D α) : StorageOn D α := fun storage =>
  match action.run storage.disk with
  | .ok a disk => .ok a { storage with disk }
  | .error fault disk => .error (.error (.storage fault)) { storage with disk }

end StorageM

end PagedIndex
