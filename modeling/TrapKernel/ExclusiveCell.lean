/-!
# Exclusive cells

On a machine with a single hart a value needs no lock, but an access to it must not be nested in another. A cell
refuses a second access until the first one is over.
-/

namespace TrapKernel

/-- A value, and whether it is being accessed. -/
structure ExclusiveCell (α : Type) where
  value : α
  held : Bool

namespace ExclusiveCell

variable {α : Type}

/-- A cell that is not being accessed. -/
def ofValue (value : α) : ExclusiveCell α := ⟨value, false⟩

/-- Begins an access, unless there is one already. -/
def acquire (c : ExclusiveCell α) : Option (ExclusiveCell α) :=
  if c.held then none else some { c with held := true }

/-- Ends an access, which leaves a value behind. -/
def release (c : ExclusiveCell α) (value : α) : ExclusiveCell α := { c with value, held := false }

theorem acquire_acquire (c : ExclusiveCell α) : c.acquire.bind acquire = none := by
  unfold acquire
  split <;> rfl

end ExclusiveCell

end TrapKernel
