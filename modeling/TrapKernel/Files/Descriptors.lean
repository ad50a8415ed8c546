import TrapKernel.Files.System

/-!
# Descriptors

A process refers to open files by descriptors, small numbers that count the slots of a table. A bound slot stands
for one reference to its file, which is given back when the slot is closed.
-/

namespace TrapKernel

/-- The descriptors of a process: the file that each slot is bound to, if any. -/
structure Descriptors where
  slots : Vector (Option Inode) descriptorCount
  deriving DecidableEq, Repr

namespace Descriptors

/-- The table without bound slots. -/
def empty : Descriptors := ⟨Vector.replicate _ none⟩

/-- The file that a descriptor is bound to, if any; none past the end of the table. -/
def file? (d : Descriptors) (fd : Nat) : Option Inode := d.slots[fd]?.join

/-- The file that a descriptor is bound to. -/
def file (d : Descriptors) (fd : Nat) : Except Errno Inode :=
  match d.file? fd with
  | some inode => .ok inode
  | none => .error .invalid

/-- Whether a descriptor is bound. -/
def isBound (d : Descriptors) (fd : Nat) : Bool := (d.file? fd).isSome

/-- The first slot that is not bound. -/
def firstFree? (d : Descriptors) : Option (Fin descriptorCount) :=
  (List.finRange descriptorCount).find? fun fd => d.slots[fd].isNone

/-- Whether there is a slot that is not bound. -/
def hasFree (d : Descriptors) : Bool := d.firstFree?.isSome

variable {σ : Type} [FileSystem σ]

/-- Binds the first free slot to the file with a path. A full table and an unknown path are the same failure. -/
def openPath (d : Descriptors) (path : String) : Attempt (Volume σ) (Fin descriptorCount × Descriptors) := do
  match d.firstFree? with
  | none => throw .tryAgain
  | some fd =>
    match ← Attempt.ofRun (Volume.lookup path) with
    | none => throw .tryAgain
    | some inode =>
      Attempt.ofRun (Volume.ref inode)
      return (fd, ⟨d.slots.set fd (some inode)⟩)

/-- Closes a descriptor. It need not be bound, but it must lie within the table. -/
def close (d : Descriptors) (fd : Nat) : Attempt (Volume σ) Descriptors := do
  if h : fd < descriptorCount then
    match d.slots[fd] with
    | none => return d
    | some inode =>
      Attempt.ofRun (Volume.free inode)
      return ⟨d.slots.set fd none⟩
  else throw .invalid

/-- Gives the references of bound slots back, in order. -/
def freeSlots : List (Option Inode) → Run (Volume σ) Unit
  | [] => return ()
  | none :: rest => freeSlots rest
  | some inode :: rest => do
    Volume.free inode
    freeSlots rest

/-- Closes all descriptors in order. -/
def closeAll (d : Descriptors) : Run (Volume σ) Descriptors := do
  freeSlots d.slots.toList
  return empty

end Descriptors

end TrapKernel
