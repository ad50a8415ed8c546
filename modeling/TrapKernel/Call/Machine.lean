import TrapKernel.Kernel.State

/-!
# System calls about the machine
-/

namespace TrapKernel.Kernel

variable {μ β σ φ : Type} [Firmware φ]

/-- Writes the character in the argument to the console; zero reads one instead, which fails if none is waiting. -/
def callCharacter (f : TrapFrame) : Attempt (KernelState μ β σ φ) UInt64 := do
  if f.a0 = 0 then
    let (character, machine) := (← get).machine.getChar
    modify fun k => { k with machine }
    match character with
    | none => throw .tryAgain
    | some c => return c.toUInt64
  else
    modify fun k => { k with machine := k.machine.putChar f.a0 }
    return 0

/-- Starts the machine again, or turns it off, in the way that the argument says. An answer of the firmware means
that it did not. -/
def callReset (f : TrapFrame) : Attempt (KernelState μ β σ φ) UInt64 := do
  match ResetKind.ofNat? f.a0.toNat with
  | none => throw .invalid
  | some kind =>
    let (reply, machine) := (← get).machine.reset kind .noReason
    modify fun k => { k with machine }
    Attempt.ofRun (note (.resetReturned kind reply.error))
    throw .inputOutput

end TrapKernel.Kernel
