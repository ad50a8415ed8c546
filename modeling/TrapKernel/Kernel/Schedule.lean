import TrapKernel.Kernel.State

/-!
# Scheduling

To switch to another process is to move the current slot. The process that was running must have been given another
status before.
-/

namespace TrapKernel.Kernel

variable {μ β σ φ : Type}

/-- Goes on with the next ready process. If there is none, the kernel stops. -/
def runNext : Run (KernelState μ β σ φ) Unit := do
  let k ← get
  match k.table.nextReady? with
  | none => crash .noReadyProcess
  | some next =>
    modifyTable fun t => t.modifyAt next fun p => { p with status := .running }
    if next ≠ k.table.current then note (.switched k.table.current next)
    modifyTable fun t => { t with current := next }

/-- The running process gives way to the others and stays ready. -/
def suspendCurrent : Run (KernelState μ β σ φ) Unit := do
  modifyCurrent fun p => { p with status := .ready }
  runNext

/-- The running process gives way to the others until it is woken up. -/
def blockCurrent : Run (KernelState μ β σ φ) Unit := do
  modifyCurrent fun p => { p with status := .blocked }
  runNext

end TrapKernel.Kernel
