import TrapKernel.Call.Invoke
import TrapKernel.Kernel.Trap

/-!
# Entry from user mode

What happens between two instructions of the running process: its registers are saved in its trap frame, and the
kernel handles the trap. While it ran, the process was free to put anything into its registers.
-/

namespace TrapKernel.Kernel

variable {μ β σ φ : Type} [MemorySystem μ β] [FileSystem σ] [Firmware φ]

/-- The running process traps with a frame. -/
def trapWith (f : TrapFrame) : Run (KernelState μ β σ φ) Unit := do
  modifyCurrent fun p => { p with frame := f }
  handleTrap

/-- The running process traps with a cause and a trap value; its other registers stay. -/
def raise (scause stval : UInt64) : Run (KernelState μ β σ φ) Unit := do
  let p ← currentProcess
  trapWith { p.frame with scause, stval }

/-- The timer interrupts the running process. -/
def tick : Run (KernelState μ β σ φ) Unit := do
  let p ← currentProcess
  trapWith { p.frame with scause := TrapCause.timerWord }

/-- The running process makes a system call. The answer is what its result register holds afterwards, unless it has
been removed meanwhile. -/
def makeCall (number : UInt64) (arguments : List UInt64) : Run (KernelState μ β σ φ) (Option UInt64) := do
  let caller := (← get).table.current
  let p ← currentProcess
  let f ← p.frame.setArguments 0 arguments
  trapWith { f.setCallNumber number with scause := TrapCause.systemCallWord }
  return ((← get).table.get caller).map fun p => p.frame.a0

/-- The running process makes a system call through the function that tells failures from successes. -/
def invokeCall (number : Int64) (arguments : List UInt64) (errorCode : Option Int64) :
    Run (KernelState μ β σ φ) Outcome := do
  let words ← argumentWords arguments
  invoke number words errorCode fun n words => do
    let result ← makeCall (UInt64.ofNat n) words.toList
    return (result.getD 0).toInt64

end TrapKernel.Kernel
