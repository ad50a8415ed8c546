import TrapKernel.Kernel.Signals

/-!
# System calls about processes

Each call takes its arguments from the trap frame of its caller, as it was when the call was made, and answers the
word that the caller finds in its result register.
-/

namespace TrapKernel.Kernel

variable {μ β σ φ : Type} [MemorySystem μ β]

/-- Creates a copy of the caller, which goes on with zero as the result. -/
def callFork : Attempt (KernelState μ β σ φ) UInt64 := fork

/-- Notes a value that the caller passes. -/
def callTestFork (f : TrapFrame) : Attempt (KernelState μ β σ φ) UInt64 := do
  if (← get).log.keeps .info then
    let p ← Attempt.ofRun currentProcess
    Attempt.ofRun (note (.localValue p.pid f.a0.toInt64))
  return 0

/-- The number of the caller. -/
def callGetPid : Attempt (KernelState μ β σ φ) UInt64 := do
  return (← Attempt.ofRun currentProcess).pid

/-- The number of the caller's parent. -/
def callGetParentPid : Attempt (KernelState μ β σ φ) UInt64 := do
  let t := (← get).table
  return t.parentPid t.current

/-- Moves the end of the caller's heap and answers where it is then. -/
def callBrk (f : TrapFrame) : Attempt (KernelState μ β σ φ) UInt64 := do
  let p ← Attempt.ofRun currentProcess
  let memory ← Attempt.ofRun (onMemory (p.memory.setBrk f.a0))
  Attempt.ofRun (modifyCurrent fun p => { p with memory })
  return memory.brk

/-- The caller exits with the lower half of the argument as its exit code. -/
def callExit [FileSystem σ] [Firmware φ] (f : TrapFrame) : Attempt (KernelState μ β σ φ) UInt64 := do
  Attempt.ofRun (exitCurrent f.a0.toUInt32.toInt32)
  return 0

/-- The caller gives way to the others. -/
def callYield : Attempt (KernelState μ β σ φ) UInt64 := do
  Attempt.ofRun suspendCurrent
  return 0

/-- Waits for a child to exit. If one has, it is removed, its exit code is written to the second argument unless
that is zero, and the answer is its number. If none has yet, the caller is blocked and goes back by one
instruction, so that it makes the same call again; its result register keeps the first argument. -/
def callWait (f : TrapFrame) : Attempt (KernelState μ β σ φ) UInt64 := do
  match ← collect (.ofWord f.a0) with
  | some (pid, code) =>
    if f.a1 = 0 then return pid
    else
      onCurrentMemory (Access.writeUser f.a1.toNat (littleEndian 4 code.toUInt32.toNat))
      return pid
  | none =>
    let p ← Attempt.ofRun currentProcess
    let sepc ← Attempt.ofRun (subWords p.frame.sepc.toNat 4)
    Attempt.ofRun (modifyCurrent fun p => { p with frame := { p.frame with sepc := UInt64.ofNat sepc } })
    Attempt.ofRun blockCurrent
    return f.a0

end TrapKernel.Kernel
