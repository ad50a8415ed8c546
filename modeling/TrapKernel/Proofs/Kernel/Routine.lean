import TrapKernel.Proofs.Files.References
import TrapKernel.Proofs.Kernel.Calls

/-!
# Routine work

Most of what the kernel does changes neither the status of a process, other than to wake it up, nor its descriptors:
it takes notes, works on the memory and the machine, asks the file system about files that are in use, and changes the
rest of a process. `Kernel.AllowsRoutine` says of a relation between states that it allows all of this, where the memory of
a process may be changed as a second relation allows it. Whatever is made of routine work respects every such relation.
-/

namespace TrapKernel.Access

variable {μ β : Type}

/-- Whether a relation between the memory of a process before and after allows everything that routine work does to it. -/
class AllowsWork [MemorySystem μ β] (M : MemoryAccess μ β → MemoryAccess μ β → Prop) : Prop where
  writeUser : ∀ address bytes, (writeUser address bytes : Attempt (MemoryAccess μ β) Unit).Respects M
  readUser : ∀ address length, (readUser address length : Attempt (MemoryAccess μ β) (List UInt8)).Respects M
  readString : ∀ address, (readString address : Attempt (MemoryAccess μ β) String).Respects M
  handleFault : ∀ address write, (MemorySystem.handleFault address write : Attempt (MemoryAccess μ β) Unit).Respects M
  setBrk : ∀ (u : UserMemory β) brk (m : μ), (u.setBrk brk).Ensures m (fun u' m' => M ⟨u, m⟩ ⟨u', m'⟩) fun _ _ => True

/-- Whatever a relation allows for faults and for the frames behind addresses it allows for copies. -/
theorem allowsWork_of_fault [MemorySystem μ β] {M : MemoryAccess μ β → MemoryAccess μ β → Prop}
    [IsPreorder (MemoryAccess μ β) M]
    (hfault : ∀ address write, (MemorySystem.handleFault address write : Attempt (MemoryAccess μ β) Unit).Respects M)
    (hframe : ∀ address write, (MemorySystem.frameOf address write : Attempt (MemoryAccess μ β) Nat).Respects M)
    (hset : ∀ a p f, M a (MemorySystem.setFrame a p f))
    (hbrk : ∀ (u : UserMemory β) brk (m : μ), (u.setBrk brk).Ensures m (fun u' m' => M ⟨u, m⟩ ⟨u', m'⟩) fun _ _ => True) :
    AllowsWork M := by
  have hend : ∀ address, (Attempt.ofRun (checkPageEnd address) : Attempt (MemoryAccess μ β) Unit).Respects M :=
    fun _ => .ofRun ((Run.respects_mulWords _ _).bind fun _ => Run.respects_pure _)
  have hwrite : ∀ l, (writeSpans l : Attempt (MemoryAccess μ β) Unit).Respects M := by
    intro l
    induction l with
    | nil => exact Attempt.respects_pure _
    | cons s rest ih =>
      exact (hframe _ _).bind fun p => (hend _).bind fun _ => Attempt.Respects.bind ⟨fun a => hset a p _⟩ fun _ => ih
  have hread : ∀ l, (readSpans l : Attempt (MemoryAccess μ β) (List UInt8)).Respects M := by
    intro l
    induction l with
    | nil => exact Attempt.respects_pure _
    | cons s rest ih =>
      exact (hframe _ _).bind fun p => (hend _).bind fun _ => Attempt.respects_get.bind fun _ =>
        ih.bind fun _ => Attempt.respects_pure _
  have hreadUser : ∀ address length, (readUser address length : Attempt (MemoryAccess μ β) (List UInt8)).Respects M := by
    intro address length
    unfold readUser
    split
    · exact hread _
    · exact Attempt.respects_throw _
  have huntil : ∀ address n i, (readUntilZero address n i : Attempt (MemoryAccess μ β) (List UInt8)).Respects M := by
    intro address n
    induction n with
    | zero => exact fun _ => Attempt.respects_throw _
    | succ n ih =>
      intro i
      unfold readUntilZero
      split
      · refine (hreadUser _ _).bind fun bytes => ?_
        dsimp only
        split
        · exact Attempt.respects_pure _
        · exact (ih _).bind fun _ => Attempt.respects_pure _
      · exact Attempt.respects_throw _
  refine ⟨fun address bytes => ?_, hreadUser, fun address => (huntil _ _ _).bind fun bytes => ?_, hfault, hbrk⟩
  · unfold writeUser
    split
    · exact hwrite _
    · exact Attempt.respects_throw _
  · split
    · exact Attempt.respects_pure _
    · exact Attempt.respects_throw _

/-- The relation that allows everything. -/
def Anything (_ _ : MemoryAccess μ β) : Prop := True

theorem respects_anything {α : Type} (op : Attempt (MemoryAccess μ β) α) : op.Respects Anything :=
  ⟨fun _ => Run.ensures_iff.mpr ⟨fun _ _ _ => trivial, fun _ _ _ => trivial⟩⟩

instance [MemorySystem μ β] : AllowsWork (Anything : MemoryAccess μ β → MemoryAccess μ β → Prop) where
  writeUser _ _ := respects_anything _
  readUser _ _ := respects_anything _
  readString _ := respects_anything _
  handleFault _ _ := respects_anything _
  setBrk _ _ _ := Run.ensures_iff.mpr ⟨fun _ _ _ => trivial, fun _ _ _ => trivial⟩

end TrapKernel.Access

namespace TrapKernel.Kernel

open ProcessTable Access

variable {μ β σ φ α : Type} {M : MemoryAccess μ β → MemoryAccess μ β → Prop}
  {R : KernelState μ β σ φ → KernelState μ β σ φ → Prop}

/-- Whether a relation allows all routine work that changes the memory of a process as the relation `M` allows it. -/
structure AllowsRoutine (M : MemoryAccess μ β → MemoryAccess μ β → Prop)
    (R : KernelState μ β σ φ → KernelState μ β σ φ → Prop) : Prop where
  memory : ∀ k memory, R k { k with memory }
  machine : ∀ k machine, R k { k with machine }
  log : ∀ k log, R k { k with log }
  volume : ∀ k volume, k.volume.Quiet volume → R k { k with volume }
  put : ∀ (k : KernelState μ β σ φ) s p q, k.table.get s = some p → q.descriptors = p.descriptors →
    q.status = p.status → q.memory = p.memory → R k { k with table := k.table.put s (some q) }
  store : ∀ (k : KernelState μ β σ φ) s p a, k.table.get s = some p → M ⟨p.memory, k.memory⟩ a →
    R k (storeAccess k s p a)
  wake : ∀ (k : KernelState μ β σ φ) s, R k { k with table := k.table.wake s }

section Reads

variable [IsPreorder (KernelState μ β σ φ) R]

private theorem respects_processAt (s : Slot) : (processAt s : Run (KernelState μ β σ φ) (Process β)).Respects R := by
  refine Run.respects_get.bind fun k => ?_
  split
  · exact Run.respects_pure _
  · exact Run.respects_crash _

theorem respects_currentProcess : (currentProcess : Run (KernelState μ β σ φ) (Process β)).Respects R :=
  Run.respects_get.bind fun _ => respects_processAt _

theorem respects_modifyCurrent {f : Process β → Process β}
    (hf : ∀ (k : KernelState μ β σ φ) p, k.table.get k.table.current = some p →
      R k { k with table := k.table.put k.table.current (some (f p)) }) :
    (modifyCurrent f : Run (KernelState μ β σ φ) Unit).Respects R := by
  refine ⟨fun k => ?_⟩
  cases hp : k.table.get k.table.current with
  | none =>
    unfold modifyCurrent currentProcess processAt
    simp only [Run.ensures_bind, Run.ensures_get, hp, Run.ensures_crash]
    exact refl_of R k
  | some p =>
    rw [ensures_modifyCurrent hp]
    exact hf k p hp

theorem respects_callGetPid : (callGetPid : Attempt (KernelState μ β σ φ) UInt64).Respects R :=
  (Attempt.Respects.ofRun respects_currentProcess).bind fun _ => Attempt.respects_pure _

theorem respects_callGetParentPid : (callGetParentPid : Attempt (KernelState μ β σ φ) UInt64).Respects R :=
  Attempt.respects_get.bind fun _ => Attempt.respects_pure _

end Reads

namespace AllowsRoutine

/-! ### The parts of the kernel -/

theorem note (h : AllowsRoutine M R) (n : Notice) : (note n : Run (KernelState μ β σ φ) Unit).Respects R :=
  .modify fun k => h.log k _

theorem onMemory (h : AllowsRoutine M R) (op : Run μ α) :
    (onMemory op : Run (KernelState μ β σ φ) α).Respects R :=
  ⟨fun k => ensures_onMemory.mpr (Run.ensures_iff.mpr ⟨fun _ _ _ => h.memory k _, fun _ _ _ => h.memory k _⟩)⟩

theorem onMachine (h : AllowsRoutine M R) (op : Run (Machine φ) α) :
    (onMachine op : Run (KernelState μ β σ φ) α).Respects R :=
  ⟨fun k => ensures_onMachine.mpr (Run.ensures_iff.mpr ⟨fun _ _ _ => h.machine k _, fun _ _ _ => h.machine k _⟩)⟩

private theorem onVolume (h : AllowsRoutine M R) {op : Run (Volume σ) α} (hop : op.Respects Volume.Quiet) :
    (onVolume op : Run (KernelState μ β σ φ) α).Respects R :=
  .within hop fun k _ hv => h.volume k _ hv

private theorem modifyMachine (h : AllowsRoutine M R) {f : KernelState μ β σ φ → Machine φ} :
    (modify fun k => { k with machine := f k } : Attempt (KernelState μ β σ φ) PUnit).Respects R :=
  ⟨fun k => Attempt.ensures_modify.mpr (h.machine k _)⟩

variable [IsPreorder (KernelState μ β σ φ) R]

theorem modifyAt (h : AllowsRoutine M R) (s : Slot) {f : Process β → Process β}
    (hf : ∀ p, (f p).descriptors = p.descriptors ∧ (f p).status = p.status ∧ (f p).memory = p.memory) :
    (modifyTable fun t => t.modifyAt s f : Run (KernelState μ β σ φ) Unit).Respects R := by
  refine .modify fun k => ?_
  dsimp only
  cases hp : k.table.get s with
  | none =>
    rw [modifyAt_of_eq fun p hp' => absurd (hp.symm.trans hp') (by simp)]
    exact refl_of R k
  | some p =>
    rw [modifyAt_eq_put hp]
    exact h.put k s p _ hp (hf p).1 (hf p).2.1 (hf p).2.2

private theorem modifyCurrent (h : AllowsRoutine M R) {f : Process β → Process β}
    (hf : ∀ p, (f p).descriptors = p.descriptors ∧ (f p).status = p.status ∧ (f p).memory = p.memory) :
    (modifyCurrent f : Run (KernelState μ β σ φ) Unit).Respects R :=
  respects_modifyCurrent fun k p hp => h.put k _ p _ hp (hf p).1 (hf p).2.1 (hf p).2.2

theorem onCurrentMemory (h : AllowsRoutine M R) {op : Attempt (MemoryAccess μ β) α} (hop : op.Respects M) :
    (onCurrentMemory op : Attempt (KernelState μ β σ φ) α).Respects R := by
  refine ⟨fun k => ?_⟩
  cases hp : k.table.get k.table.current with
  | none =>
    unfold Kernel.onCurrentMemory onUserMemory processAt
    simp only [Attempt.ensures_bind, Attempt.ensures_get, Attempt.ensures_ofRun, Run.ensures_bind, Run.ensures_get, hp,
      Run.ensures_crash]
    exact refl_of R k
  | some p =>
    rw [ensures_onCurrentMemory hp]
    exact Run.Ensures.imp (hop.ensures _) (fun _ a => h.store k _ p a hp) fun _ a => h.store k _ p a hp

/-! ### System calls -/

theorem callTestFork (h : AllowsRoutine M R) (f : TrapFrame) :
    (callTestFork f : Attempt (KernelState μ β σ φ) UInt64).Respects R := by
  refine Attempt.respects_get.bind fun k => ?_
  split
  · exact (Attempt.Respects.ofRun respects_currentProcess).bind fun p =>
      (Attempt.Respects.ofRun (h.note _)).bind fun _ => Attempt.respects_pure _
  · exact Attempt.respects_pure _

theorem callCharacter [Firmware φ] (h : AllowsRoutine M R) (f : TrapFrame) :
    (callCharacter f : Attempt (KernelState μ β σ φ) UInt64).Respects R := by
  unfold Kernel.callCharacter
  split
  · refine Attempt.respects_get.bind fun k => h.modifyMachine.bind fun _ => ?_
    split
    · exact Attempt.respects_throw _
    · exact Attempt.respects_pure _
  · exact h.modifyMachine.bind fun _ => Attempt.respects_pure _

theorem callReset [Firmware φ] (h : AllowsRoutine M R) (f : TrapFrame) :
    (callReset f : Attempt (KernelState μ β σ φ) UInt64).Respects R := by
  unfold Kernel.callReset
  split
  · exact Attempt.respects_throw _
  · exact Attempt.respects_get.bind fun k => h.modifyMachine.bind fun _ =>
      (Attempt.Respects.ofRun (h.note _)).bind fun _ => Attempt.respects_throw _

private theorem readChunks [MemorySystem μ β] [AllowsWork M] [FileSystem σ] (h : AllowsRoutine M R) (inode : Inode)
    (address length n done : Nat) (buffer : List UInt8) :
    (readChunks inode address length n done buffer : Attempt (KernelState μ β σ φ) Unit).Respects R := by
  induction n generalizing done buffer with
  | zero => exact Attempt.respects_pure _
  | succ n ih =>
    refine (Attempt.Respects.ofRun (h.onVolume (Volume.request_quiet _ _ _ _).run)).bind fun r => ?_
    split
    · exact (Attempt.Respects.ofRun (h.note _)).bind fun _ => Attempt.respects_throw _
    · exact (Attempt.Respects.ofRun (Run.respects_addWords _ _)).bind fun _ =>
        (h.onCurrentMemory (AllowsWork.writeUser _ _)).bind fun _ => ih _ _

theorem callRead [MemorySystem μ β] [AllowsWork M] [FileSystem σ] (h : AllowsRoutine M R) (f : TrapFrame) :
    (callRead f : Attempt (KernelState μ β σ φ) UInt64).Respects R :=
  (Attempt.Respects.ofRun respects_currentProcess).bind fun _ => (Attempt.respects_ofExcept _).bind fun _ =>
    Attempt.respects_get.bind fun _ => (Attempt.respects_ofExcept _).bind fun _ =>
    (h.readChunks _ _ _ _ _ _).bind fun _ => Attempt.respects_pure _

theorem callStat [MemorySystem μ β] [AllowsWork M] [FileSystem σ] (h : AllowsRoutine M R) (f : TrapFrame) :
    (callStat f : Attempt (KernelState μ β σ φ) UInt64).Respects R :=
  (Attempt.Respects.ofRun respects_currentProcess).bind fun _ => (Attempt.respects_ofExcept _).bind fun _ =>
    (Attempt.Respects.ofRun (h.onVolume (Volume.stat_quiet _))).bind fun _ =>
    (h.onCurrentMemory (AllowsWork.writeUser _ _)).bind fun _ => Attempt.respects_pure _

theorem callBrk [MemorySystem μ β] [AllowsWork M] (h : AllowsRoutine M R) (f : TrapFrame) :
    (callBrk f : Attempt (KernelState μ β σ φ) UInt64).Respects R := by
  refine ⟨fun k => ?_⟩
  unfold Kernel.callBrk
  rw [Attempt.ensures_bind, Attempt.ensures_ofRun]
  cases hp : k.table.get k.table.current with
  | none =>
    unfold currentProcess processAt
    simp only [Run.ensures_bind, Run.ensures_get, hp, Run.ensures_crash]
    exact refl_of R k
  | some p =>
    rw [ensures_currentProcess hp]
    dsimp only
    rw [Attempt.ensures_bind, Attempt.ensures_ofRun, ensures_onMemory]
    refine (AllowsWork.setBrk (M := M) p.memory f.a0 k.memory).imp (fun user memory hM => ?_) fun _ _ _ => h.memory k _
    dsimp only
    rw [Attempt.ensures_bind, Attempt.ensures_ofRun, ensures_modifyCurrent (k := { k with memory }) hp]
    exact h.store k _ p ⟨user, memory⟩ hp hM

private theorem readAction [MemorySystem μ β] [AllowsWork M] (h : AllowsRoutine M R) (address : UInt64) :
    (readAction address : Attempt (KernelState μ β σ φ) (Option SignalAction)).Respects R := by
  unfold Kernel.readAction
  split
  · exact Attempt.respects_pure _
  · exact (h.onCurrentMemory (AllowsWork.readUser _ _)).bind fun _ => Attempt.respects_pure _

private theorem install (h : AllowsRoutine M R) (n : Nat) (action : SignalAction) :
    (Attempt.ofRun (Kernel.modifyCurrent fun p => { p with actions := p.actions.install n action }) >>= fun _ => pure 0 :
      Attempt (KernelState μ β σ φ) UInt64).Respects R :=
  (Attempt.Respects.ofRun (h.modifyCurrent (f := fun p => { p with actions := p.actions.install n action }) fun _ =>
    ⟨rfl, rfl, rfl⟩)).bind fun _ => Attempt.respects_pure _

theorem callSignalAction [MemorySystem μ β] [AllowsWork M] (h : AllowsRoutine M R) (f : TrapFrame) :
    (callSignalAction f : Attempt (KernelState μ β σ φ) UInt64).Respects R := by
  unfold Kernel.callSignalAction
  dsimp only
  split
  · refine (Attempt.Respects.ofRun respects_currentProcess).bind fun p => (h.readAction _).bind fun new => ?_
    split
    · refine (h.onCurrentMemory (AllowsWork.writeUser _ _)).bind fun _ => ?_
      cases new with
      | none => exact Attempt.respects_pure _
      | some action => exact h.install _ action
    · cases new with
      | none => exact Attempt.respects_pure _
      | some action => exact h.install _ action
  · exact Attempt.respects_throw _

private theorem kill (h : AllowsRoutine M R) (pid : UInt64) (n : Nat) :
    (kill pid n : Attempt (KernelState μ β σ φ) Unit).Respects R := by
  refine Attempt.respects_get.bind fun k => ?_
  dsimp only
  split
  · exact Attempt.respects_throw _
  · split
    · exact Attempt.respects_throw _
    · split
      · exact (Attempt.Respects.ofRun (h.modifyAt _ (f := fun p => p.post n) fun _ => ⟨rfl, rfl, rfl⟩)).bind fun _ =>
          (Attempt.Respects.ofRun (h.note _)).bind fun _ => .ofRun (.modify fun k => h.wake k _)
      · exact Attempt.respects_throw _

theorem callKill (h : AllowsRoutine M R) (f : TrapFrame) :
    (callKill f : Attempt (KernelState μ β σ φ) UInt64).Respects R :=
  (h.kill _ _).bind fun _ => Attempt.respects_pure _

theorem returnFromHandler (h : AllowsRoutine M R) :
    (returnFromHandler : Attempt (KernelState μ β σ φ) UInt64).Respects R := by
  refine (Attempt.Respects.ofRun respects_currentProcess).bind fun p => ?_
  split
  · exact Attempt.respects_throw _
  next saved _ =>
    exact (Attempt.Respects.ofRun (h.modifyCurrent
      (f := fun p => { p with frame := saved.frame, mask := saved.mask, interrupted := none }) fun _ => ⟨rfl, rfl, rfl⟩)).bind
      fun _ => Attempt.respects_pure _

/-- To create a process is routine work, apart from the process number that is used up and the slot that is filled with
a process that is ready, has no descriptors and has a copy of the memory of its parent. -/
theorem fork [MemorySystem μ β] (h : AllowsRoutine M R)
    (halloc : ∀ k : KernelState μ β σ φ, R k { k with table := k.table.allocPid.2 })
    (hborn : ∀ (k : KernelState μ β σ φ) s p q space, k.table.get s = none → k.table.get k.table.current = some p →
      (∃ m m', (MemorySystem.fork p.memory.space : Run μ (Option β)) m = .ok (some space) m') → q.descriptors = .empty →
      q.status = .ready → q.memory = { p.memory with space } → R k { k with table := k.table.put s (some q) }) :
    (fork : Attempt (KernelState μ β σ φ) UInt64).Respects R := by
  refine ⟨fun k => ?_⟩
  unfold Kernel.fork
  simp only [Attempt.ensures_bind, Attempt.ensures_get]
  cases hslot : k.table.firstFree? with
  | none => exact refl_of R k
  | some slot =>
    simp only [Attempt.ensures_bind, Attempt.ensures_ofRun, ensures_modifyTable]
    cases hp : k.table.allocPid.2.get k.table.allocPid.2.current with
    | none =>
      unfold currentProcess processAt
      simp only [Run.ensures_bind, Run.ensures_get, hp, Run.ensures_crash]
      exact halloc k
    | some p =>
      rw [ensures_currentProcess (k := { k with table := k.table.allocPid.2 }) hp, ensures_onMemory, Run.ensures_iff]
      have hmemory : ∀ memory, R k { k with memory, table := k.table.allocPid.2 } := fun memory =>
        trans_of R (halloc k) (h.memory { k with table := k.table.allocPid.2 } memory)
      refine ⟨fun space memory hfork => ?_, fun _ memory _ => hmemory memory⟩
      cases space with
      | none => exact hmemory memory
      | some space =>
        simp only [Attempt.ensures_bind, Attempt.ensures_ofRun, ensures_modifyTable, ensures_note, Attempt.ensures_pure]
        have hfree : k.table.allocPid.2.get slot = none := (get_allocPid _ _).trans (firstFree?_eq_some hslot)
        let child := p.child k.table.allocPid.1 k.table.allocPid.2.current space
        have hput := hborn { k with memory, table := k.table.allocPid.2 } slot p child space hfree hp ⟨_, _, hfork⟩ rfl
          rfl rfl
        have hnote := h.log { k with memory, table := k.table.allocPid.2.put slot (some child) }
        exact trans_of R (hmemory memory) (trans_of R hput (hnote _))

/-! ### The way into a system call and out of it -/

theorem noteCall (h : AllowsRoutine M R) (call : SystemCall) :
    (noteCall call : Run (KernelState μ β σ φ) Unit).Respects R := by
  refine Run.respects_get.bind fun k => ?_
  split
  · exact respects_currentProcess.bind fun _ => h.note _
  · exact Run.respects_pure _

private theorem advanceCurrent (h : AllowsRoutine M R) (f : TrapFrame) :
    (advanceCurrent f : Run (KernelState μ β σ φ) Unit).Respects R :=
  (h.modifyCurrent (f := fun p => { p with frame := f }) fun _ => ⟨rfl, rfl, rfl⟩).bind fun _ =>
    (Run.respects_addWords _ _).bind fun sepc =>
    h.modifyCurrent (f := fun p => { p with frame := { f with sepc := UInt64.ofNat sepc } }) fun _ => ⟨rfl, rfl, rfl⟩

theorem enterCall (h : AllowsRoutine M R) (call : SystemCall) (f : TrapFrame) :
    (enterCall call f : Run (KernelState μ β σ φ) Unit).Respects R :=
  (h.advanceCurrent f).bind fun _ => h.noteCall call

theorem leaveResult (h : AllowsRoutine M R) (caller : Slot) (result : UInt64) :
    (leaveResult caller result : Run (KernelState μ β σ φ) Unit).Respects R :=
  h.modifyAt _ fun p => by split <;> exact ⟨rfl, rfl, rfl⟩

end AllowsRoutine

end TrapKernel.Kernel
