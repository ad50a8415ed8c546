import TrapKernel.Proofs.Kernel.Reachable
import TrapKernel.Proofs.Kernel.Routine
import TrapKernel.Proofs.Records

/-!
# Services and whole traps

What the kernel does besides routine work and switches comes down to a few changes of the process table: a process gets
other descriptors or another status, exits, is removed or is created. `Kernel.AllowsServices` says of a relation between
states that it allows these too. Then every trap can be recorded: nothing happens between the calls of the scheduler that
the relation does not allow, and if it allows those as well, every trap respects it.

* `Kernel.AllowsServices.fork`, `exitProcess`, `collect`: processes are created, exit and are removed.
* `Kernel.AllowsServices.recorded_trapWith`: the calls of the scheduler during a trap.
* `Kernel.AllowsServices.of_reachable`: what holds from the start up to every state that traps lead to.
-/

namespace TrapKernel.Access

variable {μ β : Type}

/-- Whether a relation between the memory of a process before and after allows everything that is done to it, up to the end
of the process. -/
class AllowsLife [MemorySystem μ β] (M : MemoryAccess μ β → MemoryAccess μ β → Prop) : Prop extends AllowsWork M where
  unmapAll : ∀ (u : UserMemory β) (m : μ), (MemorySystem.unmapAll u.space : Run μ β).Ensures m
    (fun space m' => M ⟨u, m⟩ ⟨{ u with space }, m'⟩) fun _ _ => True

instance [MemorySystem μ β] : AllowsLife (Anything : MemoryAccess μ β → MemoryAccess μ β → Prop) where
  unmapAll _ _ := Run.ensures_iff.mpr ⟨fun _ _ _ => trivial, fun _ _ _ => trivial⟩

end TrapKernel.Access

namespace TrapKernel.Kernel

open ProcessTable Access

variable {μ β σ φ α : Type} [MemorySystem μ β] {M : MemoryAccess μ β → MemoryAccess μ β → Prop}
  {R : KernelState μ β σ φ → KernelState μ β σ φ → Prop}

/-- Whether a computation has a recording of its calls of the scheduler from every state. -/
abbrev SwitchesRecorded (R : KernelState μ β σ φ → KernelState μ β σ φ → Prop) (op : Run (KernelState μ β σ φ) α) :
    Prop :=
  Run.Recordable R runNext op

/-- `SwitchesRecorded` for a computation that may fail. -/
abbrev AttemptRecorded (R : KernelState μ β σ φ → KernelState μ β σ φ → Prop)
    (op : Attempt (KernelState μ β σ φ) α) : Prop :=
  Attempt.Recordable R runNext op

/-- Whether a relation allows all that the kernel does but to switch, where the memory of a process may be changed as the
relation `M` allows it. -/
structure AllowsServices (M : MemoryAccess μ β → MemoryAccess μ β → Prop)
    (R : KernelState μ β σ φ → KernelState μ β σ φ → Prop) : Prop extends AllowsRoutine M R where
  anyVolume : ∀ k volume, R k { k with volume }
  edit : ∀ (k : KernelState μ β σ φ) s p q, k.table.get s = some p → (q.status = .running → p.status = .running) →
    q.memory = p.memory → R k { k with table := k.table.put s (some q) }
  remove : ∀ (k : KernelState μ β σ φ) s, R k { k with table := k.table.put s none }
  reparent : ∀ (k : KernelState μ β σ φ) s, R k { k with table := k.table.reparent s }
  allocPid : ∀ k, R k { k with table := k.table.allocPid.2 }
  born : ∀ (k : KernelState μ β σ φ) s p q space, k.table.get s = none → k.table.get k.table.current = some p →
    (∃ m m', (MemorySystem.fork p.memory.space : Run μ (Option β)) m = .ok (some space) m') → q.status = .ready →
    q.memory = { p.memory with space } → R k { k with table := k.table.put s (some q) }

namespace AllowsServices

private theorem editCurrent [IsPreorder (KernelState μ β σ φ) R] (h : AllowsServices M R) {f : Process β → Process β}
    (hf : ∀ p, ((f p).status = .running → p.status = .running) ∧ (f p).memory = p.memory) :
    (Kernel.modifyCurrent f : Run (KernelState μ β σ φ) Unit).Respects R :=
  respects_modifyCurrent fun k p hp => h.edit k _ p _ hp (hf p).1 (hf p).2

private theorem onAnyVolume (h : AllowsServices M R) (op : Run (Volume σ) α) :
    (Kernel.onVolume op : Run (KernelState μ β σ φ) α).Respects R :=
  ⟨fun k => ensures_onVolume.mpr (Run.ensures_iff.mpr ⟨fun _ _ _ => h.anyVolume k _, fun _ _ _ => h.anyVolume k _⟩)⟩

variable [IsPreorder (KernelState μ β σ φ) R]

/-! ### Processes -/

theorem fork (h : AllowsServices M R) : (fork : Attempt (KernelState μ β σ φ) UInt64).Respects R :=
  h.toAllowsRoutine.fork h.allocPid fun k s p q space hs hp hfork _ hready hmemory =>
    h.born k s p q space hs hp hfork hready hmemory

theorem exitProcess [AllowsLife M] [FileSystem σ] (h : AllowsServices M R) (s : Slot) (code : Int32) :
    (exitProcess s code : Attempt (KernelState μ β σ φ) Unit).Respects R := by
  refine ⟨fun k => ?_⟩
  unfold Kernel.exitProcess
  split
  · exact refl_of R k
  simp only [Attempt.ensures_bind, Attempt.ensures_get]
  cases hp : k.table.get s with
  | none => exact refl_of R k
  | some p =>
    dsimp only
    split
    · exact refl_of R k
    simp only [Attempt.ensures_bind, Attempt.ensures_ofRun, ensures_onVolume]
    refine Run.ensures_iff.mpr ⟨fun descriptors volume _ => ?_, fun _ volume _ => h.anyVolume k volume⟩
    rw [ensures_onMemory]
    refine (AllowsLife.unmapAll (M := M) p.memory k.memory).imp (fun space memory hM => ?_) fun _ memory _ =>
      trans_of R (h.anyVolume k volume) (h.memory { k with volume } memory)
    simp only [ensures_modifyTable, ensures_note]
    -- the pages go first, then the process becomes a zombie, and then its relatives are told
    let emptied : Process β := { p with memory := { p.memory with space } }
    let zombie : Process β :=
      { p with
        status := .zombie, exitCode := code, descriptors, memory := { p.memory with space }
        pending := .empty, interrupted := none }
    let k₁ : KernelState μ β σ φ := { k with memory, volume, table := k.table.put s (some emptied) }
    let k₂ : KernelState μ β σ φ :=
      { k with memory, volume, table := k.table.put s (some zombie), log := k.log.note (.exited p.pid code) }
    have hemptied : R k k₁ :=
      trans_of R (h.anyVolume k volume) (h.store { k with volume } s p ⟨{ p.memory with space }, memory⟩ hp hM)
    have hzombie : R k₁ { k₁ with table := k₁.table.put s (some zombie) } :=
      h.edit k₁ s emptied zombie (get_put_self _ _ _) (fun hrunning => absurd hrunning (by simp [zombie])) rfl
    have hnote : R k k₂ := by
      rw [show k₁.table.put s (some zombie) = k.table.put s (some zombie) from put_put ..] at hzombie
      exact trans_of R (trans_of R hemptied hzombie) (h.log _ _)
    have hreparent : R k { k₂ with table := k₂.table.reparent s } := trans_of R hnote (h.reparent k₂ s)
    split
    · exact hreparent
    next parent _ =>
      rw [Attempt.ensures_ofRun, ensures_modifyTable]
      have hpost := (h.modifyAt parent (f := fun q => q.post sigChild) fun _ => ⟨rfl, rfl, rfl⟩).ensures
        { k₂ with table := k₂.table.reparent s }
      rw [ensures_modifyTable] at hpost
      exact trans_of R hreparent (trans_of R hpost (h.wake _ parent))

private theorem reap (h : AllowsServices M R) (s : Slot) :
    (reap s : Run (KernelState μ β σ φ) (Option (UInt64 × Int32))).Respects R := by
  refine Run.respects_get.bind fun k => ?_
  split
  · exact Run.respects_pure _
  split
  · exact (Run.Respects.modify fun k => h.remove k s).bind fun _ => (h.note _).bind fun _ => (h.onMemory _).bind fun _ =>
      Run.respects_pure _
  · exact Run.respects_pure _

theorem collect (h : AllowsServices M R) (target : WaitTarget) :
    (collect target : Attempt (KernelState μ β σ φ) (Option (UInt64 × Int32))).Respects R := by
  refine Attempt.respects_get.bind fun k => ?_
  dsimp only
  split
  · exact Attempt.respects_throw _
  split
  · exact Attempt.respects_pure _
  · exact .ofRun (h.reap _)

/-! ### Files -/

private theorem callOpen [AllowsWork M] [FileSystem σ] (h : AllowsServices M R) (f : TrapFrame) :
    (callOpen f : Attempt (KernelState μ β σ φ) UInt64).Respects R := by
  refine (Attempt.Respects.ofRun respects_currentProcess).bind fun p => ?_
  split
  · exact (h.onCurrentMemory (AllowsWork.readString _)).bind fun _ =>
      Attempt.Respects.bind ⟨(h.onAnyVolume _).ensures⟩ fun _ =>
      (Attempt.Respects.ofRun (h.editCurrent (by exact fun _ => ⟨fun h => h, rfl⟩))).bind fun _ =>
      Attempt.respects_pure _
  · exact Attempt.respects_throw _

private theorem callClose [FileSystem σ] (h : AllowsServices M R) (f : TrapFrame) :
    (callClose f : Attempt (KernelState μ β σ φ) UInt64).Respects R :=
  (Attempt.Respects.ofRun respects_currentProcess).bind fun _ =>
    Attempt.Respects.bind ⟨(h.onAnyVolume _).ensures⟩ fun _ =>
    (Attempt.Respects.ofRun (h.editCurrent (by exact fun _ => ⟨fun h => h, rfl⟩))).bind fun _ =>
    Attempt.respects_pure _

/-! ### Recordings of switches -/

private theorem recorded_suspendCurrent (h : AllowsServices M R) :
    SwitchesRecorded R (suspendCurrent : Run (KernelState μ β σ φ) Unit) :=
  (h.editCurrent (f := fun p => { p with status := .ready }) fun _ => ⟨fun h => absurd h (by simp), rfl⟩).recordable.bind
    fun _ => Run.recordable_call

private theorem recorded_blockCurrent (h : AllowsServices M R) :
    SwitchesRecorded R (blockCurrent : Run (KernelState μ β σ φ) Unit) :=
  (h.editCurrent (f := fun p => { p with status := .blocked }) fun _ => ⟨fun h => absurd h (by simp), rfl⟩).recordable.bind
    fun _ => Run.recordable_call

private theorem recorded_callYield (h : AllowsServices M R) :
    AttemptRecorded R (callYield : Attempt (KernelState μ β σ φ) UInt64) :=
  (Attempt.Recordable.ofRun h.recorded_suspendCurrent).bind fun _ => (Attempt.respects_pure _).recordable

private theorem recorded_callWait [AllowsWork M] (h : AllowsServices M R) (f : TrapFrame) :
    AttemptRecorded R (callWait f : Attempt (KernelState μ β σ φ) UInt64) := by
  refine (h.collect _).recordable.bind fun r => ?_
  split
  · split
    · exact (Attempt.respects_pure _).recordable
    · exact ((h.onCurrentMemory (AllowsWork.writeUser _ _)).bind fun _ => Attempt.respects_pure _).recordable
  · exact (Attempt.Respects.ofRun respects_currentProcess).recordable.bind fun _ =>
      (Attempt.Respects.ofRun (Run.respects_subWords _ _)).recordable.bind fun _ =>
      (Attempt.Respects.ofRun (h.editCurrent (by exact fun _ => ⟨fun h => h, rfl⟩))).recordable.bind fun _ =>
      (Attempt.Recordable.ofRun h.recorded_blockCurrent).bind fun _ => (Attempt.respects_pure _).recordable

variable [AllowsLife M] [FileSystem σ]

private theorem recorded_exitAndRunNext (h : AllowsServices M R) (code : Int32) :
    AttemptRecorded R (exitAndRunNext code : Attempt (KernelState μ β σ φ) Unit) :=
  Attempt.respects_get.recordable.bind fun _ => (h.exitProcess _ _).recordable.bind fun _ => .ofRun Run.recordable_call

private theorem recorded_deliverSignal (h : AllowsServices M R) :
    SwitchesRecorded R (deliverSignal : Run (KernelState μ β σ φ) Bool) := by
  have htake : ∀ n, (modifyCurrent fun p => p.take n : Run (KernelState μ β σ φ) Unit).Respects R := fun n =>
    h.editCurrent fun _ => ⟨fun h => h, rfl⟩
  refine (respects_currentProcess (β := β)).recordable.bind fun p => ?_
  split
  · exact (Run.respects_pure _).recordable
  split
  · exact ((h.editCurrent (by exact fun _ => ⟨fun h => h, rfl⟩)).bind fun _ => (h.note _).bind fun _ =>
      Run.respects_pure _).recordable
  · exact ((htake _).bind fun _ => Run.respects_pure _).recordable
  · refine (htake _).recordable.bind fun _ => ?_
    split
    · exact (Run.respects_pure _).recordable
    refine Run.respects_get.recordable.bind fun k => ?_
    split
    · exact ((h.note _).bind fun _ => Run.respects_pure _).recordable
    refine (h.recorded_exitAndRunNext _).run.bind fun r => ?_
    split
    · exact (Run.respects_pure _).recordable
    · exact ((h.note _).bind fun _ => Run.respects_pure _).recordable

private theorem recorded_deliverSignals (h : AllowsServices M R) (n : Nat) :
    SwitchesRecorded R (deliverSignals n : Run (KernelState μ β σ φ) Unit) := by
  induction n with
  | zero => exact (Run.respects_pure _).recordable
  | succ n ih =>
    refine h.recorded_deliverSignal.bind fun more => ?_
    split
    · exact ih
    · exact (Run.respects_pure _).recordable

private theorem recorded_handleSignals (h : AllowsServices M R) :
    SwitchesRecorded R (handleSignals : Run (KernelState μ β σ φ) Unit) :=
  Run.respects_get.recordable.bind fun _ => h.recorded_deliverSignals _

variable [Firmware φ]

private theorem recorded_exitCurrent (h : AllowsServices M R) (code : Int32) :
    SwitchesRecorded R (exitCurrent code : Run (KernelState μ β σ φ) Unit) := by
  refine Run.respects_get.recordable.bind fun k => ?_
  split
  · exact ((h.note _).bind fun _ => (Run.Respects.modify (by exact fun k => h.machine k _)).bind fun _ =>
      Run.respects_crash _).recordable
  · refine (h.recorded_exitAndRunNext _).run.bind fun r => ?_
    split
    · exact (Run.respects_pure _).recordable
    · exact (h.note _).recordable

private theorem recorded_perform (h : AllowsServices M R) (call : SystemCall) (f : TrapFrame) :
    AttemptRecorded R (perform call f : Attempt (KernelState μ β σ φ) UInt64) := by
  cases call with
  | fork => exact h.fork.recordable
  | testFork => exact (h.callTestFork f).recordable
  | getPid => exact respects_callGetPid.recordable
  | getParentPid => exact respects_callGetParentPid.recordable
  | character => exact (h.callCharacter f).recordable
  | openPath => exact (h.callOpen f).recordable
  | close => exact (h.callClose f).recordable
  | stat => exact (h.callStat f).recordable
  | read => exact (h.callRead f).recordable
  | reset => exact (h.callReset f).recordable
  | brk => exact (h.callBrk f).recordable
  | signalAction => exact (h.callSignalAction f).recordable
  | kill => exact (h.callKill f).recordable
  | exit => exact (Attempt.Recordable.ofRun (h.recorded_exitCurrent _)).bind fun _ => (Attempt.respects_pure _).recordable
  | signalReturn => exact h.returnFromHandler.recordable
  | wait => exact h.recorded_callWait f
  | yield => exact h.recorded_callYield

private theorem recorded_systemCall (h : AllowsServices M R) (number : Nat) (f : TrapFrame) :
    AttemptRecorded R (systemCall number f : Attempt (KernelState μ β σ φ) UInt64) := by
  unfold systemCall
  split
  · split
    · exact (Attempt.Respects.ofRun (h.noteCall _)).recordable.bind fun _ => h.recorded_perform _ f
    · exact ((Attempt.Respects.ofRun (h.note _)).bind fun _ => Attempt.respects_throw _).recordable
  · exact (Attempt.Respects.ofRun (Run.respects_crash _)).recordable

private theorem recorded_handleCall (h : AllowsServices M R) :
    SwitchesRecorded R (handleCall : Run (KernelState μ β σ φ) Unit) :=
  Run.respects_get.recordable.bind fun _ => respects_currentProcess.recordable.bind fun _ =>
    (Run.respects_addWords _ _).recordable.bind fun _ =>
    (h.editCurrent (by exact fun _ => ⟨fun h => h, rfl⟩)).recordable.bind fun _ =>
    (h.recorded_systemCall _ _).run.bind fun _ => (h.leaveResult _ _).recordable

private theorem recorded_handlePageFault (h : AllowsServices M R) (cause : TrapCause) (write : Bool) (f : TrapFrame) :
    SwitchesRecorded R (handlePageFault cause write f : Run (KernelState μ β σ φ) Unit) := by
  refine (h.onCurrentMemory (AllowsWork.handleFault _ _)).recordable.run.bind fun r => ?_
  split
  · exact (Run.respects_pure _).recordable
  · exact (h.note _).recordable.bind fun _ => h.recorded_exitCurrent _

omit [AllowsLife M] [FileSystem σ] in
private theorem recorded_handleTimer (h : AllowsServices M R) :
    SwitchesRecorded R (handleTimer : Run (KernelState μ β σ φ) Unit) :=
  Run.respects_get.recordable.bind fun _ => (h.note _).recordable.bind fun _ => (h.onMachine _).recordable.bind fun _ =>
    h.recorded_suspendCurrent

private theorem recorded_handleCause (h : AllowsServices M R) (f : TrapFrame) :
    SwitchesRecorded R (handleCause f : Run (KernelState μ β σ φ) Unit) := by
  unfold handleCause
  split
  · exact h.recorded_handleCall
  · exact h.recorded_handleTimer
  · exact h.recorded_handlePageFault _ _ f
  · exact h.recorded_handlePageFault _ _ f
  · exact (h.note _).recordable.bind fun _ => h.recorded_exitCurrent _
  · exact (h.note _).recordable.bind fun _ => h.recorded_exitCurrent _
  · exact (Run.respects_crash _).recordable

theorem recorded_trapWith (h : AllowsServices M R) (f : TrapFrame) :
    SwitchesRecorded R (trapWith f : Run (KernelState μ β σ φ) Unit) :=
  (h.editCurrent (by exact fun _ => ⟨fun h => h, rfl⟩)).recordable.bind fun _ =>
    respects_currentProcess.recordable.bind fun _ => (h.recorded_handleCause _).bind fun _ => h.recorded_handleSignals

theorem recorded_trapsWith (h : AllowsServices M R) (fs : List TrapFrame) :
    SwitchesRecorded R (trapsWith fs : Run (KernelState μ β σ φ) Unit) := by
  induction fs with
  | nil => exact (Run.respects_pure _).recordable
  | cons f rest ih => exact (h.recorded_trapWith f).bind fun _ => ih

/-- A relation that allows switches too relates the start to every state that traps lead to. -/
theorem of_reachable (h : AllowsServices M R) (hnext : (runNext : Run (KernelState μ β σ φ) Unit).Respects R)
    {k₀ k : KernelState μ β σ φ} (hk : Reachable k₀ k) : R k₀ k := by
  induction hk with
  | start => exact refl_of R k₀
  | trap _ f hf ih => exact trans_of R ih ((((h.recorded_trapWith f).respects hnext).ensures _).of_ok hf)

end AllowsServices

end TrapKernel.Kernel
