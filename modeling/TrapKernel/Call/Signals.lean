import TrapKernel.Kernel.Signals

/-!
# System calls about signals
-/

namespace TrapKernel.Kernel

variable {μ β σ φ : Type} [MemorySystem μ β]

/-- Sends the signal in the second argument to the process in the first. -/
def callKill (f : TrapFrame) : Attempt (KernelState μ β σ φ) UInt64 := do
  kill f.a0 f.a1.toNat
  return 0

/-- The action at a user address; none at address zero. -/
def readAction (address : UInt64) : Attempt (KernelState μ β σ φ) (Option SignalAction) := do
  if address = 0 then return none
  else
    let bytes ← onCurrentMemory (Access.readUser address.toNat RawAction.byteCount)
    return some (.ofRaw (.ofBytes bytes))

/-- Exchanges the action of a signal. The new action is read first, then the old one is written, and only then is
the new one installed; a zero address leaves its part out. -/
def callSignalAction (f : TrapFrame) : Attempt (KernelState μ β σ φ) UInt64 := do
  let n := f.a0.toNat
  if isSignal n && isCatchable n then
    let p ← Attempt.ofRun currentProcess
    let new ← readAction f.a1
    if f.a2 ≠ 0 then
      onCurrentMemory (Access.writeUser f.a2.toNat (p.actions.action n).toRaw.toBytes)
    match new with
    | none => return 0
    | some action =>
      Attempt.ofRun (modifyCurrent fun p => { p with actions := p.actions.install n action })
      return 0
  else throw .invalid

/-- Goes back to what the caller did before it was interrupted by a handler. -/
def callSignalReturn : Attempt (KernelState μ β σ φ) UInt64 := returnFromHandler

end TrapKernel.Kernel
