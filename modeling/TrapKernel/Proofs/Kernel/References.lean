import TrapKernel.Bench.KeyedFiles
import TrapKernel.Proofs.Kernel.Reachable
import TrapKernel.Proofs.Kernel.SameFiles

/-!
# The references of a running kernel

Every bound descriptor of a process stands for one reference to its file. The books are balanced at the start, and
whatever the kernel does keeps them so, in whichever way processes end.

* `Kernel.trapWith_keepsBalance`: a whole trap.
* `Kernel.Reachable.conservesReferences`: in reachable states no reference is lost and none is given back twice.
-/

namespace TrapKernel

namespace Kernel

open ProcessTable

variable {μ β σ φ α : Type} [MemorySystem μ β] {k k' : KernelState μ β σ φ}

/-! ### What keeps the books balanced -/

/-- Whether every bound descriptor stands for one reference that was taken and not given back. -/
def Balanced (k : KernelState μ β σ φ) : Prop := k.volume.Balanced k.table.bindings

/-- Whether a computation keeps the books balanced from a state on. Even if it stops, no more references have been given
back than taken. -/
def KeepsBalance (op : Run (KernelState μ β σ φ) α) (k : KernelState μ β σ φ) : Prop :=
  Balanced k → op.Ensures k (fun _ k' => Balanced k') fun _ k' => k'.volume.Covered

section Balance

omit [MemorySystem μ β]

variable {γ : Type}

private theorem SameFiles.balanced (h : SameFiles k k') (hk : Balanced k) : Balanced k' :=
  (h.volume.balanced hk).congr h.descriptors.bindings_eq

private theorem keepsBalance_of_sameFiles {op : Run (KernelState μ β σ φ) α}
    (h : op.Ensures k (fun _ k' => SameFiles k k') fun _ k' => SameFiles k k') : KeepsBalance op k := fun hk =>
  h.imp (fun _ _ hsame => hsame.balanced hk) fun _ _ hsame => hsame.volume.covered hk.covered

private theorem keepsBalance_of_respects {op : Run (KernelState μ β σ φ) α} (h : op.Respects SameFiles) :
    KeepsBalance op k :=
  keepsBalance_of_sameFiles (h.ensures k)

private theorem KeepsBalance.bind {x : Run (KernelState μ β σ φ) γ} {f : γ → Run (KernelState μ β σ φ) α}
    (hx : KeepsBalance x k) (hf : ∀ c k', KeepsBalance (f c) k') : KeepsBalance (x >>= f) k := fun hk =>
  Run.ensures_bind.mpr ((hx hk).mono fun c k' hk' => hf c k' hk')

private theorem KeepsBalance.ofRun {op : Run (KernelState μ β σ φ) α} (h : KeepsBalance op k) :
    KeepsBalance (Attempt.ofRun op).run k := fun hk => Attempt.ensures_ofRun.mpr (h hk)

private theorem KeepsBalance.bind_run {x : Attempt (KernelState μ β σ φ) γ} {f : γ → Attempt (KernelState μ β σ φ) α}
    (hx : KeepsBalance x.run k) (hf : ∀ c k', KeepsBalance (f c).run k') : KeepsBalance (x >>= f).run k := by
  intro hk
  rw [Attempt.ensures_run, Attempt.ensures_bind]
  refine (hx hk).mono fun r k' hk' => ?_
  cases r with
  | ok c => exact hf c k' hk'
  | error e => exact hk'

/-- The books of the volume, with the descriptors of one process set apart. -/
private theorem Balanced.split (hk : Balanced k) {s : Slot} {p : Process β} (hp : k.table.get s = some p) :
    k.volume.Balanced fun i => p.descriptors.bindings i + k.table.bindingsElsewhere s i :=
  hk.congr fun i => by rw [bindings_eq _ s, descriptorsAt_of_get hp]

/-- The books of the kernel, if the content of one slot has been replaced. -/
private theorem balanced_put {s : Slot} {p : Process β} (htable : k'.table = k.table.put s (some p))
    (hv : k'.volume.Balanced fun i => p.descriptors.bindings i + k.table.bindingsElsewhere s i) : Balanced k' :=
  hv.congr fun i => by rw [htable, bindings_eq _ s, descriptorsAt_put_self, bindingsElsewhere_put]

end Balance

section Exit

variable [FileSystem σ]

/-- A process that exits gives back a reference for each of its bound descriptors. -/
private theorem exitProcess_keepsBalance (s : Slot) (code : Int32) (k : KernelState μ β σ φ) :
    KeepsBalance (exitProcess s code).run k := by
  intro hk
  rw [Attempt.ensures_run]
  unfold exitProcess
  split
  · exact hk
  rw [Attempt.ensures_bind, Attempt.ensures_get]
  dsimp only
  split
  · exact hk
  next p hp =>
  split
  · exact hk
  rw [Attempt.ensures_bind, Attempt.ensures_ofRun, ensures_onVolume]
  refine (Descriptors.closeAll_balanced (hk.split hp)).mono ?_
  rintro descriptors volume ⟨rfl, hvolume⟩
  dsimp only
  rw [Attempt.ensures_bind, Attempt.ensures_ofRun, ensures_onMemory, Run.ensures_iff]
  refine ⟨fun space memory _ => ?_, fun _ _ _ => hvolume.covered⟩
  dsimp only
  rw [Attempt.ensures_bind, Attempt.ensures_ofRun, ensures_modifyTable]
  dsimp only
  have hzombie : ∀ z : Process β, z.descriptors = .empty →
      Balanced { k with memory, volume, table := k.table.put s (some z) } := fun z hz =>
    balanced_put (k := k) (p := z) rfl (hvolume.congr fun i => by rw [hz, Descriptors.bindings_empty, Nat.zero_add])
  -- the process has no descriptors any more, and what follows is about its family
  refine keepsBalance_of_respects (Attempt.Respects.run ?_) (hzombie _ rfl)
  refine (Attempt.Respects.ofRun (sameFiles_allowsRoutine.note _)).bind fun _ =>
    (Attempt.Respects.ofRun (sameFiles_modifyTable fun t => sameDescriptors_reparent t s)).bind fun _ => ?_
  split
  · exact Attempt.respects_pure _
  · refine .ofRun (sameFiles_modifyTable fun t => SameDescriptors.trans ?_
      (sameDescriptors_modifyAt _ _ Process.wake_descriptors))
    exact sameDescriptors_modifyAt t _ fun _ => rfl

private theorem exitAndRunNext_keepsBalance (code : Int32) (k : KernelState μ β σ φ) :
    KeepsBalance (exitAndRunNext code).run k :=
  KeepsBalance.bind_run (keepsBalance_of_respects Attempt.respects_get.run) fun _ _ =>
    (exitProcess_keepsBalance _ _ _).bind_run fun _ _ =>
    keepsBalance_of_respects (Attempt.Respects.ofRun sameFiles_runNext).run

private theorem exitCurrent_keepsBalance [Firmware φ] (code : Int32) (k : KernelState μ β σ φ) :
    KeepsBalance (exitCurrent code) k := by
  refine KeepsBalance.bind (keepsBalance_of_respects Run.respects_get) fun k₁ k₂ => ?_
  split
  · refine keepsBalance_of_respects ((sameFiles_allowsRoutine.note _).bind fun _ =>
      Run.Respects.bind (.modify fun _ => ?_) fun _ => Run.respects_crash _)
    exact sameFiles_of_eq rfl rfl
  · refine (exitAndRunNext_keepsBalance _ _).bind fun r _ => keepsBalance_of_respects ?_
    split
    · exact Run.respects_pure _
    · exact sameFiles_allowsRoutine.note _

/-! ### The delivery of signals -/

private theorem deliverSignal_keepsBalance (k : KernelState μ β σ φ) : KeepsBalance deliverSignal k := by
  have htake : ∀ n, (modifyCurrent fun p => p.take n : Run (KernelState μ β σ φ) Unit).Respects SameFiles :=
    fun n => sameFiles_modifyCurrent fun _ => rfl
  refine KeepsBalance.bind (keepsBalance_of_respects respects_currentProcess) fun p k₁ => ?_
  split
  · exact keepsBalance_of_respects (Run.respects_pure _)
  next n hn =>
  split
  · refine keepsBalance_of_respects (Run.Respects.bind (sameFiles_modifyCurrent ?_) fun _ =>
      (sameFiles_allowsRoutine.note _).bind fun _ => Run.respects_pure _)
    exact fun _ => rfl
  · exact keepsBalance_of_respects ((htake n).bind fun _ => Run.respects_pure _)
  · refine KeepsBalance.bind (keepsBalance_of_respects (htake n)) fun _ k₂ => ?_
    split
    · exact keepsBalance_of_respects (Run.respects_pure _)
    refine KeepsBalance.bind (keepsBalance_of_respects Run.respects_get) fun k₃ _ => ?_
    split
    · exact keepsBalance_of_respects ((sameFiles_allowsRoutine.note _).bind fun _ => Run.respects_pure _)
    refine (exitAndRunNext_keepsBalance _ _).bind fun r _ => keepsBalance_of_respects ?_
    split
    · exact Run.respects_pure _
    · exact (sameFiles_allowsRoutine.note _).bind fun _ => Run.respects_pure _

private theorem deliverSignals_keepsBalance (n : Nat) (k : KernelState μ β σ φ) :
    KeepsBalance (deliverSignals n) k := by
  induction n generalizing k with
  | zero => exact keepsBalance_of_respects (Run.respects_pure _)
  | succ n ih =>
    refine KeepsBalance.bind (deliverSignal_keepsBalance k) fun more k' => ?_
    split
    · exact ih k'
    · exact keepsBalance_of_respects (Run.respects_pure _)

private theorem handleSignals_keepsBalance (k : KernelState μ β σ φ) : KeepsBalance handleSignals k :=
  KeepsBalance.bind (keepsBalance_of_respects Run.respects_get) fun _ _ => deliverSignals_keepsBalance _ _

end Exit

/-! ### Calls about descriptors -/

section Calls

variable (f : TrapFrame)

variable [FileSystem σ]

/-- To open a file keeps the books balanced. An open that fails changes neither descriptors nor references. -/
private theorem callOpen_balanced (hk : Balanced k) :
    (callOpen f).Ensures k (fun r k' => match r with | .ok _ => Balanced k' | .error _ => SameFiles k k')
      fun _ k' => k'.volume.Covered := by
  unfold callOpen
  rw [Attempt.ensures_bind, Attempt.ensures_ofRun]
  cases hp : k.table.get k.table.current with
  | none =>
    unfold currentProcess processAt
    simp only [Run.ensures_bind, Run.ensures_get, hp, Run.ensures_crash]
    exact hk.covered
  | some p =>
    rw [ensures_currentProcess hp]
    dsimp only
    split
    case isFalse => exact refl_of SameFiles k
    rw [Attempt.ensures_bind, ensures_onCurrentMemory hp]
    refine Run.ensures_iff.mpr ⟨fun r a _ => ?_, fun _ _ _ => hk.covered⟩
    have hstore := sameDescriptors_put (s := k.table.current) (p := some { p with memory := a.user })
      (descriptorsAt_of_get hp).symm
    cases r with
    | error e => exact ⟨hstore, refl_of Volume.Quiet _⟩
    | ok path =>
      dsimp only
      rw [Attempt.ensures_bind, ensures_onVolume_attempt]
      refine Run.Ensures.mono (Descriptors.openPath_balanced path (hk.split hp)) fun r volume hvolume => ?_
      cases r with
      | error e => exact ⟨hstore, hvolume⟩
      | ok opened =>
        obtain ⟨fd, descriptors⟩ := opened
        dsimp only
        rw [Attempt.ensures_bind, Attempt.ensures_ofRun,
          ensures_modifyCurrent (k := { storeAccess k k.table.current p a with volume }) (get_put_self _ _ _)]
        refine balanced_put (k := k) (p := { p with descriptors, memory := a.user }) ?_ hvolume
        exact put_put _ _ _ _

omit [MemorySystem μ β] in
/-- To close a descriptor keeps the books balanced. It fails only outside the table, and changes nothing then. -/
private theorem callClose_balanced (hk : Balanced k) :
    (callClose f).Ensures k (fun r k' => match r with
      | .ok _ => Balanced k' ∧ f.a0.toNat < descriptorCount
      | .error e => e = .invalid ∧ descriptorCount ≤ f.a0.toNat ∧ SameFiles k k') fun _ k' => k'.volume.Covered := by
  unfold callClose
  rw [Attempt.ensures_bind, Attempt.ensures_ofRun]
  cases hp : k.table.get k.table.current with
  | none =>
    unfold currentProcess processAt
    simp only [Run.ensures_bind, Run.ensures_get, hp, Run.ensures_crash]
    exact hk.covered
  | some p =>
    rw [ensures_currentProcess hp]
    dsimp only
    rw [Attempt.ensures_bind, ensures_onVolume_attempt]
    refine Run.Ensures.mono (Descriptors.close_balanced _ (hk.split hp)) fun r volume hvolume => ?_
    cases r with
    | error e =>
      obtain ⟨rfl, hrange, rfl⟩ := hvolume
      exact ⟨rfl, hrange, refl_of SameFiles k⟩
    | ok descriptors =>
      dsimp only
      rw [Attempt.ensures_bind, Attempt.ensures_ofRun, ensures_modifyCurrent (k := { k with volume }) hp]
      exact ⟨balanced_put (k := k) (p := { p with descriptors }) rfl hvolume.1, hvolume.2⟩

end Calls

/-! ### System calls -/

section Perform

variable [FileSystem σ] [Firmware φ] {f : TrapFrame}

private theorem callExit_keepsBalance (f : TrapFrame) (k : KernelState μ β σ φ) : KeepsBalance (callExit f).run k :=
  (exitCurrent_keepsBalance _ k).ofRun.bind_run fun _ _ => keepsBalance_of_respects (Attempt.respects_pure _).run

private theorem perform_keepsBalance (call : SystemCall) (f : TrapFrame) (hk : NoneAfterExit k) :
    KeepsBalance (perform call f).run k := by
  cases call with
  | fork => exact keepsBalance_of_respects sameFiles_fork.run
  | testFork => exact keepsBalance_of_respects (sameFiles_allowsRoutine.callTestFork f).run
  | getPid => exact keepsBalance_of_respects respects_callGetPid.run
  | getParentPid => exact keepsBalance_of_respects respects_callGetParentPid.run
  | character => exact keepsBalance_of_respects (sameFiles_allowsRoutine.callCharacter f).run
  | openPath =>
    refine fun hbalanced => Run.Ensures.mono (callOpen_balanced f hbalanced) fun r k' hk' => ?_
    cases r with
    | ok _ => exact hk'
    | error _ => exact hk'.balanced hbalanced
  | close =>
    refine fun hbalanced => Run.Ensures.mono (callClose_balanced f hbalanced) fun r k' hk' => ?_
    cases r with
    | ok _ => exact hk'.1
    | error _ => exact hk'.2.2.balanced hbalanced
  | stat => exact keepsBalance_of_respects (sameFiles_allowsRoutine.callStat f).run
  | read => exact keepsBalance_of_respects (sameFiles_allowsRoutine.callRead f).run
  | reset => exact keepsBalance_of_respects (sameFiles_allowsRoutine.callReset f).run
  | brk => exact keepsBalance_of_respects (sameFiles_allowsRoutine.callBrk f).run
  | signalAction => exact keepsBalance_of_respects (sameFiles_allowsRoutine.callSignalAction f).run
  | kill => exact keepsBalance_of_respects (sameFiles_allowsRoutine.callKill f).run
  | exit => exact callExit_keepsBalance f k
  | signalReturn => exact keepsBalance_of_respects sameFiles_allowsRoutine.returnFromHandler.run
  | wait => exact keepsBalance_of_sameFiles (callWait_sameFiles hk f)
  | yield => exact keepsBalance_of_respects sameFiles_callYield.run

private theorem systemCall_keepsBalance {p : Process β} (hp : k.table.get k.table.current = some p)
    (hk : NoneAfterExit k) (number : Nat) (f : TrapFrame) : KeepsBalance (systemCall number f).run k := by
  unfold systemCall noteCall
  split
  case isFalse => exact keepsBalance_of_respects (Attempt.Respects.ofRun (Run.respects_crash _)).run
  split
  case h_2 => exact keepsBalance_of_respects ((Attempt.Respects.ofRun (sameFiles_allowsRoutine.note _)).bind fun _ =>
    Attempt.respects_throw _).run
  next call _ =>
    intro hbalanced
    simp only [Attempt.ensures_run, Attempt.ensures_bind, Attempt.ensures_ofRun, Run.ensures_bind, Run.ensures_get]
    split
    · simp only [Run.ensures_bind, ensures_currentProcess hp, ensures_note]
      exact perform_keepsBalance (k := { k with log := _ }) call f hk hbalanced
    · exact perform_keepsBalance call f hk hbalanced

end Perform

/-! ### Traps -/

section Traps

variable [FileSystem σ] [Firmware φ] {f : TrapFrame} {p : Process β}

omit [FileSystem σ] [Firmware φ] in
private theorem noneAfterExit_of_forest (hforest : k.table.Forest μ) : NoneAfterExit k :=
  fun s p hp hzombie => (hforest.clean s p hp hzombie).descriptors

omit [MemorySystem μ β] [FileSystem σ] [Firmware φ] in
private theorem NoneAfterExit.put_frame (hk : NoneAfterExit k) (hlive : p.isZombie = false) (frame : TrapFrame) :
    NoneAfterExit { k with table := k.table.put k.table.current (some { p with frame }) } := by
  intro s q hq hzombie
  rw [get_put] at hq
  split at hq
  · obtain rfl := Option.some.inj hq
    exact absurd (hzombie.symm.trans hlive) (by simp)
  · exact hk s q hq hzombie

omit [MemorySystem μ β] [FileSystem σ] [Firmware φ] in
private theorem sameFiles_put_frame (hp : k.table.get k.table.current = some p) (frame : TrapFrame) :
    SameFiles k { k with table := k.table.put k.table.current (some { p with frame }) } :=
  sameFiles_of_table (sameDescriptors_put (descriptorsAt_of_get hp).symm)

private theorem answerCall_keepsBalance (hp : k.table.get k.table.current = some p) (hlive : p.isZombie = false)
    (hk : NoneAfterExit k) (f : TrapFrame) : KeepsBalance (answerCall f) k := by
  intro hbalanced
  unfold answerCall
  rw [Run.ensures_bind, ensures_advanceCurrent hp]
  split
  · exact systemCall_keepsBalance (get_put_self _ _ _) (hk.put_frame hlive f.advanced) _ _
      ((sameFiles_put_frame hp f.advanced).balanced hbalanced)
  · exact hbalanced.covered

omit [MemorySystem μ β] [FileSystem σ] in
private theorem sameFiles_handleTimer : (handleTimer : Run (KernelState μ β σ φ) Unit).Respects SameFiles :=
  Run.respects_get.bind fun _ => (sameFiles_allowsRoutine.note _).bind fun _ => (sameFiles_allowsRoutine.onMachine _).bind fun _ =>
    sameFiles_suspendCurrent

private theorem handlePageFault_keepsBalance (cause : TrapCause) (write : Bool) (f : TrapFrame)
    (k : KernelState μ β σ φ) : KeepsBalance (handlePageFault cause write f) k := by
  refine KeepsBalance.bind (keepsBalance_of_respects (sameFiles_allowsRoutine.onCurrentMemory (Access.respects_anything _)).run) fun r k' => ?_
  split
  · exact keepsBalance_of_respects (Run.respects_pure _)
  · exact (keepsBalance_of_respects (sameFiles_allowsRoutine.note _)).bind fun _ _ => exitCurrent_keepsBalance _ _

private theorem serve_keepsBalance (hp : k.table.get k.table.current = some p) (hlive : p.isZombie = false)
    (hk : NoneAfterExit k) (f : TrapFrame) : KeepsBalance (serve f) k := by
  by_cases hcause : TrapCause.ofWord f.scause = .systemCall
  · have hanswer : KeepsBalance (answerCall f >>= fun r => leaveResult k.table.current (resultWord r)) k :=
      (answerCall_keepsBalance hp hlive hk f).bind fun _ _ => keepsBalance_of_respects (sameFiles_allowsRoutine.leaveResult _ _)
    unfold KeepsBalance Run.Ensures at hanswer ⊢
    rwa [serve_eq_answerCall hcause hp]
  · unfold serve handleCause
    refine KeepsBalance.bind (keepsBalance_of_respects (sameFiles_modifyCurrent ?_)) fun _ k' => ?_
    · exact fun _ => rfl
    split
    next hcall => exact absurd hcall hcause
    · refine keepsBalance_of_respects ?_
      exact sameFiles_handleTimer
    · exact handlePageFault_keepsBalance _ _ _ _
    · exact handlePageFault_keepsBalance _ _ _ _
    · exact (keepsBalance_of_respects (sameFiles_allowsRoutine.note _)).bind fun _ _ => exitCurrent_keepsBalance _ _
    · exact (keepsBalance_of_respects (sameFiles_allowsRoutine.note _)).bind fun _ _ => exitCurrent_keepsBalance _ _
    · exact keepsBalance_of_respects (Run.respects_crash _)

/-- A whole trap keeps the books balanced. -/
theorem trapWith_keepsBalance (f : TrapFrame) (hforest : k.table.Forest μ) (hr : k.table.Running) :
    KeepsBalance (trapWith f) k := by
  obtain ⟨p, hp, hlive⟩ := hr.live
  intro hbalanced
  rw [ensures_trapWith hr]
  exact (serve_keepsBalance hp hlive (noneAfterExit_of_forest hforest) f).bind
    (fun _ k' => handleSignals_keepsBalance k') hbalanced

end Traps

/-! ### Reachable states -/

section Statement

variable {μ β σ φ : Type} [MemorySystem μ β] [FileSystem σ] [Firmware φ]

/-- Whether the references to files are conserved in a state and by whatever can happen next. -/
structure ConservesReferences (k : KernelState μ β σ φ) : Prop where
  /-- The references that were taken and not given back are those of the bound descriptors. -/
  refCount_eq : ∀ i, k.volume.refCount i = k.volume.freeCount i + k.table.bindings i
  /-- At no time more references to a file had been given back than taken. -/
  covered : k.volume.Covered
  /-- This is so even if the next trap stops the kernel, wherever it does. -/
  stopped : ∀ f e k', trapWith f k = .error e k' → k'.volume.Covered
  /-- The references of a process do not outlive it. -/
  exited : ∀ s, (∀ p, k.table.get s = some p → p.status = .zombie) → ∀ i, (k.table.descriptorsAt s).bindings i = 0
  /-- To create a process takes no references and gives none back, and the new process has no descriptors. -/
  fork : ∀ f r k', f.Asks .fork → answerCall f k = .ok r k' → SameFiles k k'
  /-- An open that fails, for whatever reason, changes neither descriptors nor references. -/
  openPath : ∀ f e k', f.Asks .openPath → answerCall f k = .ok (.error e) k' → SameFiles k k'
  /-- To close a descriptor outside the table fails and changes neither descriptors nor references. -/
  close : ∀ f r k', f.Asks .close → descriptorCount ≤ f.a0.toNat → answerCall f k = .ok r k' →
    r = .error .invalid ∧ SameFiles k k'

end Statement

section Answers

variable {μ β σ φ : Type} [MemorySystem μ β] [FileSystem σ] [Firmware φ] {k k' : KernelState μ β σ φ} {f : TrapFrame}
  {r : Except Errno UInt64}

/-- What a call does that has been answered, from the state in which it was entered on. -/
private theorem exists_perform_sameFiles {call : SystemCall} (hasks : f.Asks call) (h : answerCall f k = .ok r k') :
    ∃ k₁, SameFiles k k₁ ∧ (perform call f.advanced).run k₁ = .ok r k' := by
  obtain ⟨k₁, henter, hperform⟩ := exists_perform hasks h
  exact ⟨k₁, ((sameFiles_allowsRoutine.enterCall call f).ensures k).of_ok henter, hperform⟩

private theorem answerCall_fork (hasks : f.Asks .fork) (h : answerCall f k = .ok r k') : SameFiles k k' := by
  obtain ⟨k₁, hsame, hperform⟩ := exists_perform_sameFiles hasks h
  have hfork : SameFiles k₁ k' := sameFiles_fork.run.ensures k₁ |>.of_ok hperform
  exact trans_of SameFiles hsame hfork

private theorem answerCall_openPath (hk : Balanced k) {e : Errno} (hasks : f.Asks .openPath)
    (h : answerCall f k = .ok (.error e) k') : SameFiles k k' := by
  obtain ⟨k₁, hsame, hperform⟩ := exists_perform_sameFiles hasks h
  have hopen := Run.Ensures.of_ok (callOpen_balanced f.advanced (hsame.balanced hk)) hperform
  exact trans_of SameFiles hsame hopen

private theorem answerCall_close (hk : Balanced k) (hasks : f.Asks .close) (hfd : descriptorCount ≤ f.a0.toNat)
    (h : answerCall f k = .ok r k') : r = .error .invalid ∧ SameFiles k k' := by
  obtain ⟨k₁, hsame, hperform⟩ := exists_perform_sameFiles hasks h
  have hclose := Run.Ensures.of_ok (callClose_balanced f.advanced (hsame.balanced hk)) hperform
  cases r with
  | ok _ => exact absurd hfd (Nat.not_le_of_lt hclose.2)
  | error e =>
    obtain ⟨rfl, -, hk'⟩ := hclose
    exact ⟨rfl, trans_of SameFiles hsame hk'⟩

end Answers

variable {σ φ : Type} [FileSystem σ] [Firmware φ] {entry stackPointer heapStart : UInt64} {memory : PhysicalMemory}
  {files : σ} {firmware : φ} {logLimit : Option LogLevel} {k₀ k : Kernel σ φ}

omit [FileSystem σ] [Firmware φ] in
/-- At the start no reference has been taken and no descriptor is bound. -/
private theorem balanced_of_boot (hboot : boot entry stackPointer heapStart memory files firmware logLimit = .ok k₀) :
    Balanced k₀ := by
  unfold boot at hboot
  split at hboot
  next space _ _ =>
    rw [← Except.ok.inj hboot]
    refine (Volume.balanced_start files).congr fun i => Finset.sum_eq_zero fun s _ => ?_
    unfold descriptorsAt
    dsimp only
    split
    next p hp =>
      rw [(get_initial_eq_some hp).2]
      exact Descriptors.bindings_empty i
    · exact Descriptors.bindings_empty i
  · exact absurd hboot (by simp)

/-- The books are balanced between two traps. -/
private theorem Reachable.balanced (hboot : boot entry stackPointer heapStart memory files firmware logLimit = .ok k₀)
    (h : Reachable k₀ k) : Balanced k := by
  induction h with
  | start => exact balanced_of_boot hboot
  | trap h f hk ih =>
    obtain ⟨hforest, hr⟩ := h.table_forest hboot
    exact (trapWith_keepsBalance f hforest hr ih).of_ok hk

/-- References to files are conserved in all reachable states, whatever the file system is. -/
theorem Reachable.conservesReferences
    (hboot : boot entry stackPointer heapStart memory files firmware logLimit = .ok k₀) (h : Reachable k₀ k) :
    ConservesReferences k := by
  obtain ⟨hforest, hr⟩ := h.table_forest hboot
  have hk := h.balanced hboot
  constructor
  case refCount_eq => exact hk.refCount_eq
  case covered => exact hk.covered
  case stopped => exact fun f e k' hstop => (trapWith_keepsBalance f hforest hr hk).of_error hstop
  case exited =>
    intro s hs i
    unfold descriptorsAt
    split
    next p hp =>
      rw [(hforest.clean s p hp (Process.isZombie_iff.mpr (hs p hp))).descriptors, Descriptors.bindings_empty]
    · exact Descriptors.bindings_empty i
  case fork => exact fun f r k' hasks hanswer => answerCall_fork hasks hanswer
  case openPath => exact fun f e k' hasks hanswer => answerCall_openPath hk hasks hanswer
  case close => exact fun f r k' hasks hfd hanswer => answerCall_close hk hasks hfd hanswer

/-- The bench kernel at its start, with one file, whose path is the empty one. -/
def oneFileStart : Except Errno (Kernel Bench.KeyedFiles Bench.BenchFirmware) :=
  boot 0x1000 0x40000000 0x10000000 (.ofPages 0x80600 0x80700) (.ofList [("", #[])]) {} none

/-- A process opens the file and has a child, which opens it too and exits. -/
def openFrames : List TrapFrame :=
  [callFrame .openPath 0x3FFFE000 0 0, callFrame .fork 0 0 0, callFrame .yield 0 0 0,
    callFrame .openPath 0x3FFFE000 0 0, callFrame .exit 0 0 0]

/-- Two references have been taken then, and one of them is still held. -/
theorem conservesReferences_openPath : ∃ k₀ k : Kernel Bench.KeyedFiles Bench.BenchFirmware,
    oneFileStart = .ok k₀ ∧ Reachable k₀ k ∧ k.volume.refCount 1 = 2 ∧ k.table.bindings 1 = 1 ∧
      ConservesReferences k := by
  have hrun : (match oneFileStart with
      | .error _ => false
      | .ok k =>
        match trapsWith openFrames k with
        | .ok _ k => decide (k.volume.refCount 1 = 2 ∧ k.table.bindings 1 = 1)
        | .error _ _ => false) = true := by decide +kernel
  split at hrun
  · exact absurd hrun (by simp)
  next k₀ hk₀ =>
  split at hrun
  next k hk =>
    have hreach : Reachable k₀ k := (Reachable.start.trapsWith openFrames).of_ok hk
    obtain ⟨htaken, hbound⟩ := of_decide_eq_true hrun
    exact ⟨k₀, k, hk₀, hreach, htaken, hbound, Reachable.conservesReferences hk₀ hreach⟩
  · exact absurd hrun (by simp)

end Kernel

end TrapKernel
