import TrapKernel.Call.Files
import TrapKernel.Call.Machine
import TrapKernel.Call.Number
import TrapKernel.Call.Processes
import TrapKernel.Call.Signals

/-!
# Dispatch of system calls
-/

namespace TrapKernel.Kernel

variable {μ β σ φ : Type} [MemorySystem μ β] [FileSystem σ] [Firmware φ]

/-- Performs a system call. -/
def perform (call : SystemCall) (f : TrapFrame) : Attempt (KernelState μ β σ φ) UInt64 :=
  match call with
  | .fork => callFork
  | .testFork => callTestFork f
  | .getPid => callGetPid
  | .getParentPid => callGetParentPid
  | .character => callCharacter f
  | .openPath => callOpen f
  | .close => callClose f
  | .stat => callStat f
  | .read => callRead f
  | .reset => callReset f
  | .brk => callBrk f
  | .signalAction => callSignalAction f
  | .kill => callKill f
  | .exit => callExit f
  | .signalReturn => callSignalReturn
  | .wait => callWait f
  | .yield => callYield

/-- Notes that the running process makes a system call. -/
def noteCall (call : SystemCall) : Run (KernelState μ β σ φ) Unit := do
  if (← get).log.keeps .trace then
    let p ← currentProcess
    note (.systemCall call.name p.pid)

/-- The system call with a number. A number outside the table of calls stops the kernel; one within it that is not
assigned fails. -/
def systemCall (number : Nat) (f : TrapFrame) : Attempt (KernelState μ β σ φ) UInt64 := do
  if 0 < number ∧ number < slotCount then
    match SystemCall.ofNumber? number with
    | some call =>
      Attempt.ofRun (noteCall call)
      perform call f
    | none =>
      Attempt.ofRun (note (.unassignedCall number))
      throw .noSystemCall
  else Attempt.ofRun (crash (.unknownSystemCall number))

end TrapKernel.Kernel
