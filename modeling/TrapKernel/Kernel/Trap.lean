import TrapKernel.Call.Dispatch
import TrapKernel.Machine.Clock

/-!
# Traps

A process enters the kernel by a trap, with its registers saved in its trap frame. `Kernel.handleTrap` does what
the cause of the trap asks for and then delivers the signals of the process that runs on, which may be another one.
-/

namespace TrapKernel.Kernel

variable {μ β σ φ : Type} [MemorySystem μ β] [FileSystem σ] [Firmware φ]

/-- Enters the result of a system call into the frame of its caller, unless that has exited. -/
def leaveResult (caller : Slot) (result : UInt64) : Run (KernelState μ β σ φ) Unit :=
  modifyTable fun t => t.modifyAt caller fun p =>
    if p.isZombie then p else { p with frame := p.frame.setA0 result }

/-- Performs the system call that the running process asks for. The process goes on behind the instruction that
made the call. -/
def handleCall : Run (KernelState μ β σ φ) Unit := do
  let caller := (← get).table.current
  let p ← currentProcess
  let sepc ← addWords p.frame.sepc.toNat 4
  let frame := { p.frame with sepc := UInt64.ofNat sepc }
  modifyCurrent fun p => { p with frame }
  let result ← (systemCall frame.callNumber.toNat frame).run
  leaveResult caller (resultWord result)

/-- A page fault of the running process. One that cannot be answered ends it. -/
def handlePageFault (cause : TrapCause) (write : Bool) (f : TrapFrame) : Run (KernelState μ β σ φ) Unit := do
  match ← (onCurrentMemory (MemorySystem.handleFault f.stval.toNat write)).run with
  | .ok () => return ()
  | .error e =>
    note (.pageFault cause f.stval f.sepc e)
    exitCurrent (-2)

/-- The end of a time slice: the next one starts and the next process runs on. -/
def handleTimer : Run (KernelState μ β σ φ) Unit := do
  note (.timerInterrupt (← get).machine.microseconds)
  onMachine Machine.startSlice
  suspendCurrent

/-- Does what the cause of a trap asks for. -/
def handleCause (f : TrapFrame) : Run (KernelState μ β σ φ) Unit := do
  match TrapCause.ofWord f.scause with
  | .systemCall => handleCall
  | .timer => handleTimer
  | .loadPageFault => handlePageFault .loadPageFault false f
  | .storePageFault => handlePageFault .storePageFault true f
  | .illegalInstruction =>
    note (.illegalInstruction f.stval)
    exitCurrent (-3)
  | .exception number =>
    note (.exception number f.stval f.sepc)
    exitCurrent (-2)
  | .unknown bits => crash (.unhandledTrap bits f.stval.toNat)

/-- Handles a trap of the running process. Afterwards the current slot is that of the process that runs on. -/
def handleTrap : Run (KernelState μ β σ φ) Unit := do
  let p ← currentProcess
  handleCause p.frame
  handleSignals

end TrapKernel.Kernel
