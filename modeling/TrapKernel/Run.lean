import TrapKernel.Errno
import TrapKernel.Layout

/-!
# Computations that may stop

`Run σ α` works on a state of type `σ` and either ends with a value or stops with a `Panic`. `Attempt σ α` may
besides fail with an `Errno`, which is an ordinary answer. In all three cases the state that was reached is kept:
a failure undoes nothing.

Arithmetic on words that overflows stops the computation: `addWords`, `subWords`, `mulWords`.
-/

namespace TrapKernel

/-- A computation on a state of type `σ` that may stop the kernel. The state is kept when it stops. -/
abbrev Run (σ α : Type) : Type := EStateM Panic σ α

/-- A computation on a state of type `σ` that may stop the kernel or fail with an error number. -/
abbrev Attempt (σ α : Type) : Type := ExceptT Errno (Run σ) α

variable {σ τ α : Type}

/-- Stops the kernel. -/
def crash (p : Panic) : Run σ α := fun s => .error p s

/-- Runs a computation on a part of the state, which `view` reads and `store` writes back. -/
def Run.within (view : σ → τ) (store : σ → τ → σ) (op : Run τ α) : Run σ α := fun s =>
  match op (view s) with
  | .ok a t => .ok a (store s t)
  | .error p t => .error p (store s t)

/-- Like `Run.within`, for a computation that may fail. -/
def Attempt.within (view : σ → τ) (store : σ → τ → σ) (op : Attempt τ α) : Attempt σ α :=
  ExceptT.mk (Run.within view store op.run)

/-- A computation that cannot fail, as one that may. -/
def Attempt.ofRun (op : Run σ α) : Attempt σ α := ExceptT.lift op

/-- A pure outcome as a computation that may fail. -/
def Attempt.ofExcept : Except Errno α → Attempt σ α
  | .ok a => pure a
  | .error e => throw e

/-- A pure outcome as a computation. -/
def Run.ofExcept : Except Panic α → Run σ α
  | .ok a => pure a
  | .error p => crash p

/-- The sum of two words. -/
def addWords (a b : Nat) : Run σ Nat := if a + b < wordLimit then pure (a + b) else crash .addOverflow

/-- The difference of two words. -/
def subWords (a b : Nat) : Run σ Nat := if b ≤ a then pure (a - b) else crash .subOverflow

/-- The product of two words. -/
def mulWords (a b : Nat) : Run σ Nat := if a * b < wordLimit then pure (a * b) else crash .mulOverflow

end TrapKernel
