import TrapKernel.Kernel.Schedule

/-!
# The life of a process

A process is created as a copy of the running one, becomes a zombie when it exits, and is removed when its parent
collects its exit code.

* `Kernel.fork` creates a process, `Kernel.exitProcess` makes it a zombie, `Kernel.reap` removes it.
* `Kernel.collect` removes an exited child of the running process.
-/

namespace TrapKernel

/-- Which children a process waits for. -/
inductive WaitTarget where
  | any
  | pid (pid : UInt64)
  deriving DecidableEq, Repr

namespace WaitTarget

/-- The target that a word stands for; minus one means any child. -/
def ofWord (w : UInt64) : WaitTarget := if w = UInt64.ofNat (wordLimit - 1) then any else pid w

/-- Whether the target is a process or one of several. -/
def accepts {β : Type} : WaitTarget → Process β → Bool
  | any, _ => true
  | pid n, p => p.pid = n

end WaitTarget

/-- The children of the process in a slot that a target accepts. -/
def ProcessTable.waitedFor {β : Type} (t : ProcessTable β) (s : Slot) (target : WaitTarget) : List Slot :=
  (t.children s).filter fun c =>
    match t.get c with
    | some p => target.accepts p
    | none => false

namespace Kernel

variable {μ β σ φ : Type} [MemorySystem μ β]

/-- Creates a copy of the running process in the first free slot and tells its number. -/
def fork : Attempt (KernelState μ β σ φ) UInt64 := do
  let k ← get
  match k.table.firstFree? with
  | none => throw .tryAgain
  | some slot =>
    let (pid, table) := k.table.allocPid
    Attempt.ofRun (modifyTable fun _ => table)
    let parent ← Attempt.ofRun currentProcess
    match ← Attempt.ofRun (onMemory (MemorySystem.fork parent.memory.space)) with
    | none => throw .noMemory
    | some space =>
      Attempt.ofRun (modifyTable fun t => t.put slot (some (parent.child pid table.current space)))
      Attempt.ofRun (note (.forked parent.pid pid slot))
      return pid

/-- Makes the process in a slot a zombie: its descriptors are closed and its pages dropped, its children go to the
first process, and its parent gets a signal and is woken up. The first process cannot exit in this way. -/
def exitProcess [FileSystem σ] (s : Slot) (code : Int32) : Attempt (KernelState μ β σ φ) Unit := do
  if s = .init then throw .notPermitted
  else
    match (← get).table.get s with
    | none => throw .noProcess
    | some p =>
      if p.isZombie then throw .noProcess
      else
        let descriptors ← Attempt.ofRun (onVolume p.descriptors.closeAll)
        let space ← Attempt.ofRun (onMemory (MemorySystem.unmapAll p.memory.space))
        let zombie : Process β :=
          { p with
            status := .zombie, exitCode := code, descriptors, memory := { p.memory with space }
            pending := .empty, interrupted := none }
        Attempt.ofRun (modifyTable fun t => t.put s (some zombie))
        Attempt.ofRun (note (.exited p.pid code))
        Attempt.ofRun (modifyTable fun t => t.reparent s)
        match p.parent with
        | none => return ()
        | some parent =>
          Attempt.ofRun (modifyTable fun t => (t.modifyAt parent fun q => q.post sigChild).wake parent)

/-- Removes the process in a slot, if it is a zombie, and tells its number and exit code. -/
def reap (s : Slot) : Run (KernelState μ β σ φ) (Option (UInt64 × Int32)) := do
  match (← get).table.get s with
  | none => return none
  | some p =>
    if p.isZombie then
      modifyTable fun t => t.put s none
      note (.reaped p.pid)
      onMemory (MemorySystem.release p.memory.space)
      return some (p.pid, p.exitCode)
    else return none

/-- Removes a child of the running process that the target accepts and that has exited, and tells its number and
exit code. The answer is `none` if all such children are still alive; to have none is a failure. -/
def collect (target : WaitTarget) : Attempt (KernelState μ β σ φ) (Option (UInt64 × Int32)) := do
  let t := (← get).table
  match t.waitedFor t.current target with
  | [] => throw .noChild
  | children =>
    match children.find? fun c => t.hasStatus c .zombie with
    | none => return none
    | some c => Attempt.ofRun (reap c)

/-- The running process exits and the next one goes on. -/
def exitAndRunNext [FileSystem σ] (code : Int32) : Attempt (KernelState μ β σ φ) Unit := do
  exitProcess (← get).table.current code
  Attempt.ofRun runNext

/-- The running process exits and the next one goes on; the exit of the first process turns the machine off. -/
def exitCurrent [FileSystem σ] [Firmware φ] (code : Int32) : Run (KernelState μ β σ φ) Unit := do
  if (← get).table.current = .init then
    note (.initExited code)
    modify fun k => { k with machine := (k.machine.reset .shutdown .noReason).2 }
    crash .shutdownReturned
  else
    match ← (exitAndRunNext code).run with
    | .ok () => return ()
    | .error e => note (.exitFailed e)

end Kernel

end TrapKernel
