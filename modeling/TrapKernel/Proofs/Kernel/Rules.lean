import TrapKernel.Kernel.State
import TrapKernel.Proofs.Run
import TrapKernel.Proofs.Process.Table

/-!
# Rules for the parts of the kernel

What the computations do that the services of the kernel are made of: they look at a process, change one, or work on
one of the parts of the kernel.
-/

namespace TrapKernel.Kernel

variable {μ β σ φ α : Type} {k : KernelState μ β σ φ}

section Run

variable {Q : α → KernelState μ β σ φ → Prop} {E : Panic → KernelState μ β σ φ → Prop}

theorem ensures_onMemory {op : Run μ α} :
    (onMemory op).Ensures k Q E ↔
      op.Ensures k.memory (fun a memory => Q a { k with memory }) fun p memory => E p { k with memory } :=
  Run.ensures_within

theorem ensures_onVolume {op : Run (Volume σ) α} :
    (onVolume op).Ensures k Q E ↔
      op.Ensures k.volume (fun a volume => Q a { k with volume }) fun p volume => E p { k with volume } :=
  Run.ensures_within

theorem ensures_onMachine {op : Run (Machine φ) α} :
    (onMachine op).Ensures k Q E ↔
      op.Ensures k.machine (fun a machine => Q a { k with machine }) fun p machine => E p { k with machine } :=
  Run.ensures_within

end Run

section Unit

variable {Q : Unit → KernelState μ β σ φ → Prop} {E : Panic → KernelState μ β σ φ → Prop}

theorem ensures_note {n : Notice} : (note n).Ensures k Q E ↔ Q () { k with log := k.log.note n } := Iff.rfl

theorem ensures_modifyTable {f : ProcessTable β → ProcessTable β} :
    (modifyTable f).Ensures k Q E ↔ Q () { k with table := f k.table } := Iff.rfl

theorem ensures_modifyCurrent {f : Process β → Process β} {p : Process β}
    (hp : k.table.get k.table.current = some p) :
    (modifyCurrent f).Ensures k Q E ↔ Q () { k with table := k.table.put k.table.current (some (f p)) } := by
  unfold modifyCurrent currentProcess processAt
  simp only [Run.ensures_bind, Run.ensures_get, hp, Run.ensures_pure, ensures_modifyTable]

end Unit

private theorem ensures_processAt {Q : Process β → KernelState μ β σ φ → Prop} {E : Panic → KernelState μ β σ φ → Prop}
    {s : Slot} {p : Process β} (hp : k.table.get s = some p) : (processAt s).Ensures k Q E ↔ Q p k := by
  unfold processAt
  simp only [Run.ensures_bind, Run.ensures_get, hp, Run.ensures_pure]

theorem ensures_currentProcess {Q : Process β → KernelState μ β σ φ → Prop} {E : Panic → KernelState μ β σ φ → Prop}
    {p : Process β} (hp : k.table.get k.table.current = some p) : currentProcess.Ensures k Q E ↔ Q p k := by
  unfold currentProcess
  simp only [Run.ensures_bind, Run.ensures_get, ensures_processAt hp]

section Attempt

variable {Q : Except Errno α → KernelState μ β σ φ → Prop} {E : Panic → KernelState μ β σ φ → Prop}

theorem ensures_onVolume_attempt {op : Attempt (Volume σ) α} :
    Attempt.Ensures (ExceptT.mk (onVolume op.run)) k Q E ↔
      op.Ensures k.volume (fun r volume => Q r { k with volume }) fun p volume => E p { k with volume } :=
  Run.ensures_within

theorem ensures_onUserMemory {s : Slot} {op : Attempt (MemoryAccess μ β) α} {p : Process β}
    (hp : k.table.get s = some p) :
    (onUserMemory s op).Ensures k Q E ↔
      op.Ensures ⟨p.memory, k.memory⟩ (fun r a => Q r (storeAccess k s p a)) fun q a => E q (storeAccess k s p a) := by
  unfold onUserMemory
  simp only [Attempt.ensures_bind, Attempt.ensures_ofRun, ensures_processAt hp, Attempt.ensures_within]

theorem ensures_onCurrentMemory {op : Attempt (MemoryAccess μ β) α} {p : Process β}
    (hp : k.table.get k.table.current = some p) :
    (onCurrentMemory op).Ensures k Q E ↔
      op.Ensures ⟨p.memory, k.memory⟩ (fun r a => Q r (storeAccess k k.table.current p a))
        fun q a => E q (storeAccess k k.table.current p a) := by
  unfold onCurrentMemory
  simp only [Attempt.ensures_bind, Attempt.ensures_get, ensures_onUserMemory hp]

end Attempt

end TrapKernel.Kernel
