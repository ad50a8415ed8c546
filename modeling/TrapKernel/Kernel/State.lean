import TrapKernel.Log.Notice
import TrapKernel.Memory.Paged
import TrapKernel.Process.Table

/-!
# The state of the kernel

A `KernelState` joins memory, process table, file system, machine and log. It is generic in the memory system, the
file system and the firmware, which it knows by their services only. `Kernel` is the kernel with paged memory.
-/

namespace TrapKernel

/-- All that the kernel knows. -/
structure KernelState (μ β σ φ : Type) where
  memory : μ
  table : ProcessTable β
  volume : Volume σ
  machine : Machine φ
  log : Log

/-- All that the kernel knows, where every process has an address space in physical memory. -/
abbrev Kernel (σ φ : Type) : Type := KernelState PhysicalMemory AddressSpace σ φ

namespace Kernel

variable {μ β σ φ α : Type}

/-- The kernel with the first process only, or a failure if there is no room for its pages. -/
def boot [MemorySystem μ β] (entry stackPointer heapStart : UInt64) (memory : μ) (files : σ) (firmware : φ)
    (logLimit : Option LogLevel) : Except Errno (KernelState μ β σ φ) :=
  match MemorySystem.create memory with
  | .ok (some space) memory =>
    .ok
      { memory
        table := .initial (.initial entry stackPointer heapStart space)
        volume := ⟨files, #[]⟩
        machine := ⟨firmware, #[]⟩
        log := Log.note ⟨logLimit, #[]⟩ (.initCreated entry) }
  | _ => .error .noMemory

/-- Runs a computation on the memory. -/
def onMemory (op : Run μ α) : Run (KernelState μ β σ φ) α :=
  Run.within KernelState.memory (fun k memory => { k with memory }) op

/-- Runs a computation on the file system. -/
def onVolume (op : Run (Volume σ) α) : Run (KernelState μ β σ φ) α :=
  Run.within KernelState.volume (fun k volume => { k with volume }) op

/-- Runs a computation on the machine. -/
def onMachine (op : Run (Machine φ) α) : Run (KernelState μ β σ φ) α :=
  Run.within KernelState.machine (fun k machine => { k with machine }) op

/-- Notes something in the log. -/
def note (n : Notice) : Run (KernelState μ β σ φ) Unit := modify fun k => { k with log := k.log.note n }

/-- Changes the process table. -/
def modifyTable (f : ProcessTable β → ProcessTable β) : Run (KernelState μ β σ φ) Unit :=
  modify fun k => { k with table := f k.table }

/-- The process in a slot. An empty slot stops the kernel. -/
def processAt (s : Slot) : Run (KernelState μ β σ φ) (Process β) := do
  match (← get).table.get s with
  | some p => return p
  | none => crash .currentSlotEmpty

/-- The process that is running. -/
def currentProcess : Run (KernelState μ β σ φ) (Process β) := do
  processAt (← get).table.current

/-- Changes the process that is running. -/
def modifyCurrent (f : Process β → Process β) : Run (KernelState μ β σ φ) Unit := do
  let p ← currentProcess
  modifyTable fun t => t.put t.current (some (f p))

/-- The kernel after the process `p` in a slot has worked on its memory. -/
def storeAccess (k : KernelState μ β σ φ) (s : Slot) (p : Process β) (a : MemoryAccess μ β) : KernelState μ β σ φ :=
  { k with memory := a.memory, table := k.table.put s (some { p with memory := a.user }) }

/-- Runs a computation on the user memory of the process in a slot. -/
def onUserMemory (s : Slot) (op : Attempt (MemoryAccess μ β) α) : Attempt (KernelState μ β σ φ) α := do
  let p ← Attempt.ofRun (processAt s)
  Attempt.within (fun k => ⟨p.memory, k.memory⟩) (fun k a => storeAccess k s p a) op

/-- Runs a computation on the user memory of the process that is running. -/
def onCurrentMemory (op : Attempt (MemoryAccess μ β) α) : Attempt (KernelState μ β σ φ) α := do
  onUserMemory (← get).table.current op

end Kernel

end TrapKernel
