import TrapKernel.Kernel.Entry
import TrapKernel.Proofs.Kernel.Rules
import TrapKernel.Proofs.NeverIdle
import TrapKernel.Proofs.Process.Delivery
import TrapKernel.Proofs.Process.Parented

/-!
# The services of the kernel have their effect

Every service of the kernel changes the process table as the relations of `TrapKernel.Proofs.Process.Effects` say, and
the kernel does not stop for want of a ready process. There is one lemma for every service; whatever else is proved of
the process table after a trap follows from the last of them.

* `Kernel.trapWith_traps`: a whole trap, with any registers.
-/

namespace TrapKernel.Kernel

open ProcessTable

variable {μ β σ φ α : Type} [MemorySystem μ β]

/-- The kernel does not stop because no process is ready. -/
def NotIdle (p : Panic) (_ : KernelState μ β σ φ) : Prop := p ≠ .noReadyProcess

variable {t : ProcessTable β} {k k' : KernelState μ β σ φ}

/-! ### Parts of the kernel -/

section Parts

variable {Q : α → KernelState μ β σ φ → Prop}

omit [MemorySystem μ β] in
private theorem onMemory_notIdle {op : Run μ α} (hop : op.NeverIdle)
    (hQ : ∀ a memory, op k.memory = .ok a memory → Q a { k with memory }) : (onMemory op).Ensures k Q NotIdle := by
  rw [ensures_onMemory, Run.ensures_iff]
  exact ⟨hQ, fun p m hm => (hop.ensures k.memory).of_error hm⟩

omit [MemorySystem μ β] in
private theorem onVolume_notIdle {op : Run (Volume σ) α} (hop : op.NeverIdle)
    (hQ : ∀ a volume, op k.volume = .ok a volume → Q a { k with volume }) : (onVolume op).Ensures k Q NotIdle := by
  rw [ensures_onVolume, Run.ensures_iff]
  exact ⟨hQ, fun p v hv => (hop.ensures k.volume).of_error hv⟩

end Parts

section Parts

variable {Q : Except Errno α → KernelState μ β σ φ → Prop}

omit [MemorySystem μ β] in
private theorem onVolume_attempt_notIdle {op : Attempt (Volume σ) α} (hop : op.NeverIdle)
    (hQ : ∀ r volume, Q r { k with volume }) : Attempt.Ensures (ExceptT.mk (onVolume op.run)) k Q NotIdle := by
  rw [ensures_onVolume_attempt]
  exact Run.Ensures.mono (hop.ensures k.volume) fun r v _ => hQ r v

omit [MemorySystem μ β] in
theorem onCurrentMemory_works {op : Attempt (MemoryAccess μ β) α} (hop : op.NeverIdle) (h : t.Works k.table) :
    (onCurrentMemory op).Ensures k (fun _ k' => t.Works k'.table) NotIdle := by
  obtain ⟨p, hp⟩ := h.current
  rw [ensures_onCurrentMemory hp]
  exact Run.Ensures.mono (hop.ensures _) fun r a _ => h.edit hp (.of_memory _ _)

end Parts

/-! ### Scheduling -/

omit [MemorySystem μ β] in
private theorem runNext_passes (hnext : k.table.nextReady? ≠ none) :
    runNext.Ensures k (fun _ k' => k.table.Passes k'.table) NotIdle := by
  obtain ⟨next, hnext⟩ := Option.ne_none_iff_exists'.mp hnext
  unfold runNext
  simp only [Run.ensures_bind, Run.ensures_get, hnext]
  split
  · simp only [Run.ensures_bind, ensures_modifyTable, ensures_note]
    exact ⟨next, hnext, rfl⟩
  · simp only [ensures_modifyTable]
    exact ⟨next, hnext, rfl⟩

/-- When the running process has left the hart, another one is ready. -/
private theorem nextReady?_ne_none {u : ProcessTable β} (hu : t.Yields μ u) (hforest : t.Forest μ) (hr : t.Running) :
    u.nextReady? ≠ none :=
  fun hnone => hforest.not_stuck hr ⟨u, hu, hnone⟩

private theorem suspendCurrent_suspends (hforest : k.table.Forest μ) (hr : k.table.Running) :
    suspendCurrent.Ensures k (fun _ k' => k.table.Suspends k'.table) NotIdle := by
  obtain ⟨p, hp, -⟩ := id hr
  unfold suspendCurrent
  rw [Run.ensures_bind, ensures_modifyCurrent hp]
  exact (runNext_passes (nextReady?_ne_none (.suspend hp) hforest hr)).mono fun _ _ hpass => ⟨p, hp, hpass⟩

/-! ### The life of a process -/

/-- A fork fails if there is no slot for the child or no memory, and otherwise puts a copy of the caller into the first
slot. -/
theorem ensures_fork {p : Process β} {Q : Except Errno UInt64 → KernelState μ β σ φ → Prop} {E : Panic → KernelState μ β σ φ → Prop}
    (hp : k.table.get k.table.current = some p) :
    fork.Ensures k Q E ↔
      match k.table.firstFree? with
      | none => Q (.error .tryAgain) k
      | some slot =>
        Run.Ensures (MemorySystem.fork p.memory.space) k.memory
          (fun r memory =>
            match r with
            | none => Q (.error .noMemory) { k with memory, table := k.table.allocPid.2 }
            | some space =>
              Q (.ok k.table.allocPid.1)
                { k with
                  memory
                  table := k.table.allocPid.2.put slot (some (p.child k.table.allocPid.1 k.table.current space))
                  log := k.log.note (.forked p.pid k.table.allocPid.1 slot) })
          fun q memory => E q { k with memory, table := k.table.allocPid.2 } := by
  unfold fork
  simp only [Attempt.ensures_bind, Attempt.ensures_get]
  cases k.table.firstFree? with
  | none => rfl
  | some slot =>
    have hp' : k.table.allocPid.2.get k.table.allocPid.2.current = some p := hp
    simp only [Attempt.ensures_bind, Attempt.ensures_ofRun, ensures_modifyTable]
    rw [ensures_currentProcess (k := { k with table := k.table.allocPid.2 }) hp', ensures_onMemory]
    refine Eq.to_iff (congrArg (fun Q => Run.Ensures _ _ Q _) ?_)
    funext r memory
    cases r with
    | none => rfl
    | some space => rfl

section Lifecycle

variable (hμ : MemorySystem.NeverIdle μ)

include hμ

private theorem fork_effect (f : TrapFrame) (hr : k.table.Running) :
    fork.Ensures k (fun r k' => k.table.CallEffect μ f (some .fork) r k'.table) NotIdle := by
  obtain ⟨p, hp, -⟩ := hr
  rw [ensures_fork hp]
  cases hslot : k.table.firstFree? with
  | none => exact .forkFull hslot
  | some slot =>
    refine ((hμ.fork p.memory.space).ensures k.memory).mono fun space memory _ => ?_
    cases space with
    | none => exact .forkFails (by rw [hslot]; rfl)
    | some space => exact .fork hslot hp

variable [FileSystem σ]

omit [MemorySystem μ β] hμ in
private theorem closeAll_eq_empty {d d' : Descriptors} {v v' : Volume σ} (hd : d.closeAll v = .ok d' v') :
    d' = .empty := by
  have hensures : d.closeAll.Ensures v (fun d' _ => d' = .empty) fun _ _ => True := by
    unfold Descriptors.closeAll
    rw [Run.ensures_bind, Run.ensures_iff]
    exact ⟨fun _ _ _ => rfl, fun _ _ _ => trivial⟩
  exact hensures.of_ok hd

/-- The running process can always exit, unless it is the first one. -/
private theorem exitProcess_exited (hs : k.table.current ≠ .init) {p : Process β}
    (hp : k.table.get k.table.current = some p) (hlive : p.isZombie = false) (code : Int32) :
    (exitProcess k.table.current code).Ensures k
      (fun r k' => r = .ok () ∧ ∃ space, MemorySystem.Dropped μ space ∧
        k'.table = k.table.exited k.table.current (p.remains code space)) NotIdle := by
  unfold exitProcess
  rw [if_neg hs]
  simp only [Attempt.ensures_bind, Attempt.ensures_get, hp, hlive, Bool.false_eq_true, if_false, Attempt.ensures_ofRun]
  refine onVolume_notIdle (Descriptors.closeAll_avoids (by simp) _) fun descriptors volume hclose => ?_
  obtain rfl := closeAll_eq_empty hclose
  refine onMemory_notIdle (hμ.unmapAll _) fun space memory hspace => ?_
  simp only [ensures_modifyTable, ensures_note]
  cases hparent : p.parent with
  | none => exact ⟨rfl, space, ⟨_, _, _, hspace⟩, by simp [exited, Process.remains, hparent]⟩
  | some parent => exact ⟨rfl, space, ⟨_, _, _, hspace⟩, by simp [exited, Process.remains, hparent]⟩

private theorem exitAndRunNext_exits (h : k.table.Parented) (hs : k.table.current ≠ .init) (code : Int32) :
    (exitAndRunNext code).Ensures k (fun r k' => r = .ok () ∧ k.table.Exits μ code k'.table) NotIdle := by
  obtain ⟨p, hp, hlive⟩ := h.current.live
  unfold exitAndRunNext
  simp only [Attempt.ensures_bind, Attempt.ensures_get]
  refine Run.Ensures.mono (exitProcess_exited hμ hs hp hlive code) ?_
  rintro r k' ⟨rfl, space, hspace, hk'⟩
  have hnext := hk' ▸ h.nextReady?_exited hp hs code space
  refine Attempt.ensures_ofRun.mpr ((runNext_passes hnext).mono fun _ _ hpass => ⟨rfl, ?_⟩)
  exact ⟨p, space, hp, hs, hspace, hk' ▸ hpass⟩

private theorem exitCurrent_exits [Firmware φ] (hforest : k.table.Forest μ) (hr : k.table.Running) (code : Int32) :
    (exitCurrent code).Ensures k (fun _ k' => k.table.Exits μ code k'.table) NotIdle := by
  unfold exitCurrent
  simp only [Run.ensures_bind, Run.ensures_get]
  split
  · simp only [Run.ensures_bind, ensures_note, Run.ensures_modify, Run.ensures_crash]
    simp [NotIdle]
  next hs =>
    simp only [Run.ensures_bind, Attempt.ensures_run]
    refine Run.Ensures.mono (exitAndRunNext_exits hμ (hforest.parented hr) hs code) ?_
    rintro r k' ⟨rfl, hexits⟩
    exact hexits

omit [FileSystem σ] in
private theorem reap_effect {c : Slot} {z : Process β} (hz : k.table.get c = some z) (hzombie : z.isZombie = true) :
    (reap c).Ensures k (fun r k' => r = some (z.pid, z.exitCode) ∧ k'.table = k.table.put c none) NotIdle := by
  unfold reap
  simp only [Run.ensures_bind, Run.ensures_get, hz, hzombie, if_true, ensures_modifyTable, ensures_note]
  exact onMemory_notIdle (hμ.release _) fun _ memory _ => ⟨rfl, rfl⟩

omit [FileSystem σ] in
/-- An exited child that is waited for is removed; if there is none, nothing happens. -/
theorem collect_effect (target : WaitTarget) :
    (collect target).Ensures k
      (fun r k' => match r with
        | .ok (some (pid, code)) => ∃ c z,
            (k.table.waitedFor k.table.current target).find? (fun c => k.table.hasStatus c .zombie) = some c ∧
              k.table.get c = some z ∧ z.isZombie = true ∧ pid = z.pid ∧ code = z.exitCode ∧
                k'.table = k.table.put c none
        | .ok none => k' = k ∧ k.table.waitedFor k.table.current target ≠ [] ∧
            ∀ c ∈ k.table.waitedFor k.table.current target, k.table.hasStatus c .zombie = false
        | .error e => k' = k ∧ e = .noChild ∧ k.table.waitedFor k.table.current target = []) NotIdle := by
  unfold collect
  simp only [Attempt.ensures_bind, Attempt.ensures_get]
  cases hchildren : k.table.waitedFor k.table.current target with
  | nil => exact ⟨rfl, rfl, rfl⟩
  | cons d rest =>
    dsimp only
    cases hfind : (d :: rest).find? fun c => k.table.hasStatus c .zombie with
    | none =>
      refine ⟨rfl, by simp, fun c hc => ?_⟩
      simpa using List.find?_eq_none.mp hfind c hc
    | some c =>
      have hfound : k.table.hasStatus c .zombie = true := by simpa using List.find?_some hfind
      obtain ⟨z, hz, hstatus⟩ := hasStatus_iff.mp hfound
      rw [Attempt.ensures_ofRun]
      refine (reap_effect hμ hz (Process.isZombie_iff.mpr hstatus)).mono ?_
      rintro r k' ⟨rfl, hk'⟩
      exact ⟨c, z, rfl, hz, Process.isZombie_iff.mpr hstatus, rfl, rfl, hk'⟩

end Lifecycle

/-! ### Signals -/

omit [MemorySystem μ β] in
theorem isZombie_eq_false_of_hasStatus {t : ProcessTable β} {s : Slot} {p : Process β} (hp : t.get s = some p)
    (h : ¬t.hasStatus s .zombie = true) : p.isZombie = false :=
  Process.isZombie_eq_false_iff.mpr fun hz => h (hasStatus_iff.mpr ⟨p, hp, hz⟩)

private theorem callKill_effect (f : TrapFrame) :
    (callKill f).Ensures k (fun r k' => k.table.CallEffect μ f (some .kill) r k'.table) NotIdle := by
  unfold callKill kill
  simp only [Attempt.ensures_bind, Attempt.ensures_get]
  cases hfind : k.table.findPid? f.a0 with
  | none => exact .killFails
  | some s =>
    obtain ⟨q, hq, -⟩ := findPid?_eq_some hfind
    dsimp only
    split
    · exact .killFails
    next hzombie =>
    split
    next hn =>
      have hlive := isZombie_eq_false_of_hasStatus hq hzombie
      simp only [Attempt.ensures_bind, Attempt.ensures_ofRun, ensures_modifyTable, ensures_note, Attempt.ensures_pure]
      have hwake : (k.table.modifyAt s fun p => p.post f.a1.toNat).wake s =
          k.table.put s (some (q.post f.a1.toNat).wake) := by
        rw [wake, modifyAt_eq_put hq, modifyAt_eq_put (get_put_self _ _ _), put_put]
      rw [hwake]
      exact .kill hfind hq hlive hn
    · exact .killFails

section Deliver

variable (hμ : MemorySystem.NeverIdle μ) [FileSystem σ]

include hμ

theorem deliverSignal_delivers (h : k.table.Parented) :
    deliverSignal.Ensures k (fun more k' => k.table.Delivers μ more k'.table) NotIdle := by
  obtain ⟨p, hp, -⟩ := h.current
  unfold deliverSignal
  rw [Run.ensures_bind, ensures_currentProcess hp]
  cases hsignal : p.nextSignal? with
  | none => exact .done hp hsignal
  | some n =>
    dsimp only
    split
    next entry hentry =>
      rw [Run.ensures_bind, ensures_modifyCurrent hp]
      exact .enter hp hsignal hentry
    next hignore =>
      rw [Run.ensures_bind, ensures_modifyCurrent hp]
      exact .drop hp hsignal (.inl hignore)
    next hdefault =>
      rw [Run.ensures_bind, ensures_modifyCurrent hp]
      split
      next hignore => exact .drop hp hsignal (.inr ⟨hdefault, .inl hignore⟩)
      next hfatal =>
        simp only [Run.ensures_bind, Run.ensures_get]
        split
        next hs =>
          simp only [Run.ensures_bind, ensures_note, Run.ensures_pure]
          exact .drop hp hsignal (.inr ⟨hdefault, .inr hs⟩)
        next hs =>
          have htake : (k.table.put k.table.current (some (p.take n))).Parented := h.put hp rfl rfl
          simp only [Run.ensures_bind, Attempt.ensures_run]
          refine Run.Ensures.mono (exitAndRunNext_exits (k := { k with table := _ }) hμ htake hs _) ?_
          rintro r k' ⟨rfl, hexits⟩
          exact .terminate hp hsignal hdefault (by cases h : defaultAction n <;> simp_all) (hexits.of_take hp)

private theorem deliverSignals_settles (n : Nat) (hload : k.table.load < n) (h : k.table.Parented) :
    (deliverSignals n).Ensures k (fun _ k' => k.table.Settles μ k'.table) NotIdle := by
  induction n generalizing k with
  | zero => exact absurd hload (Nat.not_lt_zero _)
  | succ n ih =>
    unfold deliverSignals
    rw [Run.ensures_bind]
    refine (deliverSignal_delivers hμ h).mono fun more k' hk' => ?_
    cases more with
    | true =>
      have hlt := hk'.load_lt h.current
      exact Run.Ensures.mono (ih (by omega) (hk'.parented h)) fun _ k'' hk'' => .more hk' hk''
    | false => exact .stop hk'

/-- As many signals are tried as there can be, so in the end there is nothing more to deliver. -/
theorem handleSignals_settles (h : k.table.Parented) :
    handleSignals.Ensures k (fun _ k' => k.table.Settles μ k'.table) NotIdle := by
  unfold handleSignals
  rw [Run.ensures_bind, Run.ensures_get]
  exact deliverSignals_settles hμ _ k.table.load_lt_signalBound h

end Deliver

private theorem returnFromHandler_effect (f : TrapFrame) (hr : k.table.Running) :
    returnFromHandler.Ensures k (fun r k' => k.table.CallEffect μ f (some .signalReturn) r k'.table) NotIdle := by
  obtain ⟨p, hp, hlive⟩ := hr.live
  unfold returnFromHandler
  rw [Attempt.ensures_bind, Attempt.ensures_ofRun, ensures_currentProcess hp]
  cases hsaved : p.interrupted with
  | none =>
    simp only [hsaved]
    exact .signalReturnFails hp hsaved
  | some saved =>
    simp only [hsaved, Attempt.ensures_bind, Attempt.ensures_ofRun, ensures_modifyCurrent hp, Attempt.ensures_pure]
    exact .signalReturn hp hsaved

/-! ### System calls -/

section Calls

variable (hμ : MemorySystem.NeverIdle μ) [FileSystem σ] [Firmware φ] (f : TrapFrame)

include hμ

omit [MemorySystem μ β] [FileSystem σ] [Firmware φ] hμ in
private theorem callTestFork_works (h : t.Works k.table) :
    (callTestFork f).Ensures k (fun _ k' => t.Works k'.table) NotIdle := by
  obtain ⟨p, hp⟩ := h.current
  unfold callTestFork
  simp only [Attempt.ensures_bind, Attempt.ensures_get]
  split
  · simp only [Attempt.ensures_bind, Attempt.ensures_ofRun, ensures_currentProcess hp, ensures_note,
      Attempt.ensures_pure]
    exact h
  · exact h

omit [MemorySystem μ β] [FileSystem σ] [Firmware φ] hμ in
private theorem callGetPid_works (h : t.Works k.table) :
    callGetPid.Ensures k (fun _ k' => t.Works k'.table) NotIdle := by
  obtain ⟨p, hp⟩ := h.current
  unfold callGetPid
  rw [Attempt.ensures_bind, Attempt.ensures_ofRun, ensures_currentProcess hp]
  exact h

omit [MemorySystem μ β] [FileSystem σ] hμ in
private theorem callCharacter_works (h : t.Works k.table) :
    (callCharacter f).Ensures k (fun _ k' => t.Works k'.table) NotIdle := by
  unfold callCharacter
  split
  · simp only [Attempt.ensures_bind, Attempt.ensures_get, Attempt.ensures_modify]
    split
    · exact h
    · exact h
  · simp only [Attempt.ensures_bind, Attempt.ensures_modify, Attempt.ensures_pure]
    exact h

omit [MemorySystem μ β] [FileSystem σ] hμ in
private theorem callReset_works (h : t.Works k.table) :
    (callReset f).Ensures k (fun _ k' => t.Works k'.table) NotIdle := by
  unfold callReset
  split
  · exact h
  · simp only [Attempt.ensures_bind, Attempt.ensures_get, Attempt.ensures_modify, Attempt.ensures_ofRun, ensures_note,
      Attempt.ensures_throw]
    exact h

omit [FileSystem σ] [Firmware φ] in
private theorem callBrk_works (h : t.Works k.table) : (callBrk f).Ensures k (fun _ k' => t.Works k'.table) NotIdle := by
  obtain ⟨p, hp⟩ := h.current
  unfold callBrk
  simp only [Attempt.ensures_bind, Attempt.ensures_ofRun, ensures_currentProcess hp]
  refine onMemory_notIdle (p.memory.setBrk_neverIdle hμ f.a0) fun user memory _ => ?_
  rw [ensures_modifyCurrent (k := { k with memory }) hp]
  exact h.edit hp (.of_memory p user)

omit [FileSystem σ] [Firmware φ] in
private theorem readAction_works (address : UInt64) (h : t.Works k.table) :
    (readAction address).Ensures k (fun _ k' => t.Works k'.table) NotIdle := by
  unfold readAction
  split
  · exact h
  · rw [Attempt.ensures_bind]
    refine Run.Ensures.mono (onCurrentMemory_works (Access.readUser_neverIdle hμ _ _) h) fun r k' hk' => ?_
    cases r <;> exact hk'

omit [MemorySystem μ β] [FileSystem σ] [Firmware φ] hμ in
private theorem installAction_works {n : Nat} (hn : isCatchable n = true) (new : Option SignalAction)
    (h : t.Works k.table) :
    Attempt.Ensures (match new with
      | none => return 0
      | some action => do
        Attempt.ofRun (modifyCurrent fun p => { p with actions := p.actions.install n action })
        return 0 : Attempt (KernelState μ β σ φ) UInt64) k (fun _ k' => t.Works k'.table) NotIdle := by
  obtain ⟨p, hp⟩ := h.current
  cases new with
  | none => exact h
  | some action =>
    simp only [Attempt.ensures_bind, Attempt.ensures_ofRun, ensures_modifyCurrent hp, Attempt.ensures_pure]
    exact h.edit hp (.of_install p hn action)

omit [FileSystem σ] [Firmware φ] in
private theorem callSignalAction_works (h : t.Works k.table) :
    (callSignalAction f).Ensures k (fun _ k' => t.Works k'.table) NotIdle := by
  obtain ⟨p, hp⟩ := h.current
  unfold callSignalAction
  dsimp only
  split
  next hn =>
    have hcatchable : isCatchable f.a0.toNat = true := (Bool.and_eq_true _ _ ▸ hn).2
    rw [Attempt.ensures_bind, Attempt.ensures_ofRun, ensures_currentProcess hp]
    dsimp only
    rw [Attempt.ensures_bind]
    refine Run.Ensures.mono (readAction_works hμ _ h) fun r k' hk' => ?_
    cases r with
    | error e => exact hk'
    | ok new =>
      dsimp only
      split
      · rw [Attempt.ensures_bind]
        refine Run.Ensures.mono (onCurrentMemory_works (Access.writeUser_neverIdle hμ _ _) hk') fun r k'' hk'' => ?_
        cases r with
        | error e => exact hk''
        | ok => exact installAction_works hcatchable new hk''
      · exact installAction_works hcatchable new hk'
  · exact h

omit [Firmware φ] in
private theorem callOpen_works (h : t.Works k.table) :
    (callOpen f).Ensures k (fun _ k' => t.Works k'.table) NotIdle := by
  obtain ⟨p, hp⟩ := h.current
  unfold callOpen
  rw [Attempt.ensures_bind, Attempt.ensures_ofRun, ensures_currentProcess hp]
  dsimp only
  split
  · rw [Attempt.ensures_bind]
    refine Run.Ensures.mono (onCurrentMemory_works (Access.readString_neverIdle hμ _) h) fun r k' hk' => ?_
    cases r with
    | error e => exact hk'
    | ok path =>
      dsimp only
      rw [Attempt.ensures_bind]
      refine onVolume_attempt_notIdle (Descriptors.openPath_avoids _ _) fun r volume => ?_
      match r with
      | .error e => exact hk'
      | .ok (fd, descriptors) =>
        obtain ⟨q, hq⟩ := hk'.current
        simp only [Attempt.ensures_bind, Attempt.ensures_ofRun]
        rw [ensures_modifyCurrent (k := { k' with volume }) hq]
        exact hk'.edit hq (.of_descriptors q descriptors)
  · exact h

omit [MemorySystem μ β] [Firmware φ] hμ in
private theorem callClose_works (h : t.Works k.table) :
    (callClose f).Ensures k (fun _ k' => t.Works k'.table) NotIdle := by
  obtain ⟨p, hp⟩ := h.current
  unfold callClose
  rw [Attempt.ensures_bind, Attempt.ensures_ofRun, ensures_currentProcess hp]
  dsimp only
  rw [Attempt.ensures_bind]
  refine onVolume_attempt_notIdle (Descriptors.close_avoids (by simp) _ _) fun r volume => ?_
  cases r with
  | error e => exact h
  | ok descriptors =>
    simp only [Attempt.ensures_bind, Attempt.ensures_ofRun]
    rw [ensures_modifyCurrent (k := { k with volume }) hp]
    exact h.edit hp (.of_descriptors p descriptors)

omit [Firmware φ] in
private theorem callStat_works (h : t.Works k.table) :
    (callStat f).Ensures k (fun _ k' => t.Works k'.table) NotIdle := by
  obtain ⟨p, hp⟩ := h.current
  unfold callStat
  simp only [Attempt.ensures_bind, Attempt.ensures_ofRun, ensures_currentProcess hp, Attempt.ensures_ofExcept]
  split
  · refine onVolume_notIdle (Volume.stat_avoids _) fun stat volume _ => ?_
    refine Run.Ensures.mono (onCurrentMemory_works (k := { k with volume }) (Access.writeUser_neverIdle hμ _ _) h)
      fun r k' hk' => ?_
    cases r <;> exact hk'
  · exact h

omit [Firmware φ] in
private theorem readChunks_works (inode : Inode) (address length n done : Nat) (buffer : List UInt8)
    (h : t.Works k.table) :
    (readChunks inode address length n done buffer).Ensures k (fun _ k' => t.Works k'.table) NotIdle := by
  induction n generalizing done buffer k with
  | zero => exact h
  | succ n ih =>
    unfold readChunks
    simp only [Attempt.ensures_bind, Attempt.ensures_ofRun]
    refine onVolume_attempt_notIdle (Volume.request_avoids _ _ _ _) fun r volume => ?_
    cases r with
    | error e =>
      simp only [Attempt.ensures_bind, Attempt.ensures_ofRun, ensures_note, Attempt.ensures_throw]
      exact h
    | ok chunk =>
      simp only [Attempt.ensures_bind, Attempt.ensures_ofRun, Run.ensures_addWords]
      split
      · refine Run.Ensures.mono (onCurrentMemory_works (k := { k with volume }) (Access.writeUser_neverIdle hμ _ _) h)
          fun r k' hk' => ?_
        cases r with
        | error e => exact hk'
        | ok => exact ih _ _ hk'
      · simp [NotIdle]

omit [Firmware φ] in
private theorem callRead_works (h : t.Works k.table) :
    (callRead f).Ensures k (fun _ k' => t.Works k'.table) NotIdle := by
  obtain ⟨p, hp⟩ := h.current
  unfold callRead
  simp only [Attempt.ensures_bind, Attempt.ensures_ofRun, ensures_currentProcess hp, Attempt.ensures_ofExcept,
    Attempt.ensures_get]
  split
  · split
    · refine Run.Ensures.mono (readChunks_works hμ _ _ _ _ _ _ h) fun r k' hk' => ?_
      cases r <;> exact hk'
    · exact h
  · exact h

private theorem callExit_effect (hforest : k.table.Forest μ) (hr : k.table.Running) :
    (callExit f).Ensures k (fun r k' => k.table.CallEffect μ f (some .exit) r k'.table) NotIdle := by
  unfold callExit
  simp only [Attempt.ensures_bind, Attempt.ensures_ofRun]
  exact (exitCurrent_exits hμ hforest hr _).mono fun _ k' hk' => .exit hk'

omit [FileSystem σ] [Firmware φ] hμ in
private theorem callYield_effect (hforest : k.table.Forest μ) (hr : k.table.Running) :
    callYield.Ensures k (fun r k' => k.table.CallEffect μ f (some .yield) r k'.table) NotIdle := by
  unfold callYield
  simp only [Attempt.ensures_bind, Attempt.ensures_ofRun]
  exact (suspendCurrent_suspends hforest hr).mono fun _ k' hk' => .yield hk'

omit [FileSystem σ] [Firmware φ] in
private theorem callWait_effect (hforest : k.table.Forest μ) (hr : k.table.Running) :
    (callWait f).Ensures k (fun r k' => k.table.CallEffect μ f (some .wait) r k'.table) NotIdle := by
  obtain ⟨p, hp, hlive⟩ := hr.live
  unfold callWait
  rw [Attempt.ensures_bind]
  refine Run.Ensures.mono (collect_effect hμ _) fun r k' hk' => ?_
  match r with
  | .error e =>
    obtain ⟨rfl, rfl, hnone⟩ := hk'
    exact .noChild hnone
  | .ok (some (pid, code)) =>
    obtain ⟨c, z, hfind, hz, hzombie, rfl, -, htable⟩ := hk'
    have hne : k.table.current ≠ c := by
      rintro rfl
      rw [Option.some.inj (hp.symm.trans hz), hzombie] at hlive
      exact absurd hlive (by simp)
    have hworks : (k.table.put c none).Works k'.table := by
      rw [htable]
      exact .refl (p := p) (by rw [current_put, get_put_of_ne _ hne, hp])
    dsimp only
    split
    · exact .collect hfind hz hzombie (fun w hw => (Except.ok.inj hw).symm) hworks
    · rw [Attempt.ensures_bind]
      refine Run.Ensures.mono (onCurrentMemory_works (Access.writeUser_neverIdle hμ _ _) hworks) fun r k'' hk'' => ?_
      cases r with
      | error e => exact .collect hfind hz hzombie (fun w hw => absurd hw (by simp)) hk''
      | ok => exact .collect hfind hz hzombie (fun w hw => (Except.ok.inj hw).symm) hk''
  | .ok none =>
    obtain ⟨rfl, hsome, hnone⟩ := hk'
    simp only [Attempt.ensures_bind, Attempt.ensures_ofRun, ensures_currentProcess hp]
    rw [Run.ensures_subWords]
    split
    next hsepc =>
      -- the child that is waited for has not exited, so the kernel finds a process to run
      obtain ⟨c, q, hq, hparent, hqlive⟩ := exists_live_of_waitedFor hsome hnone
      have hback : Move μ k'.table (k'.table.put k'.table.current (some { p with frame := p.frame.rewound })) :=
        move_of_frame hp hlive _
      obtain ⟨hforest', hr'⟩ := hback.forest hforest hr
      have hq' : (k'.table.put k'.table.current (some { p with frame := p.frame.rewound })).get c = some q := by
        rw [get_put_of_ne _ (hforest.parent_ne hq hparent).symm, hq]
      have hblock := Yields.block (μ := μ) (get_put_self _ _ _) hq' hparent hqlive
      rw [ensures_modifyCurrent hp]
      unfold blockCurrent
      rw [Run.ensures_bind, ensures_modifyCurrent (p := { p with frame := p.frame.rewound }) (get_put_self _ _ _)]
      refine (runNext_passes (nextReady?_ne_none hblock hforest' hr')).mono fun _ k'' hpass => ?_
      rw [current_put, put_put] at hpass
      exact .wait hsome hnone hp hsepc hpass
    · simp [NotIdle]

private theorem perform_effect (call : SystemCall) (hforest : k.table.Forest μ) (hr : k.table.Running) :
    (perform call f).Ensures k (fun r k' => k.table.CallEffect μ f (some call) r k'.table) NotIdle := by
  obtain ⟨p, hp, -⟩ := id hr
  have hworks := Works.refl hp
  have hlocal : ∀ {op : Attempt (KernelState μ β σ φ) UInt64}, call.isLocal = true →
      op.Ensures k (fun _ k' => k.table.Works k'.table) NotIdle →
      op.Ensures k (fun r k' => k.table.CallEffect μ f (some call) r k'.table) NotIdle :=
    fun hcall hop => hop.mono fun _ _ h => .works hcall h
  cases call with
  | fork => exact fork_effect hμ f hr
  | testFork => exact hlocal rfl (callTestFork_works f hworks)
  | getPid => exact hlocal rfl (callGetPid_works hworks)
  | getParentPid => exact .works rfl hworks
  | character => exact hlocal rfl (callCharacter_works f hworks)
  | openPath => exact hlocal rfl (callOpen_works hμ f hworks)
  | close => exact hlocal rfl (callClose_works f hworks)
  | stat => exact hlocal rfl (callStat_works hμ f hworks)
  | read => exact hlocal rfl (callRead_works hμ f hworks)
  | reset => exact hlocal rfl (callReset_works f hworks)
  | brk => exact hlocal rfl (callBrk_works hμ f hworks)
  | signalAction => exact hlocal rfl (callSignalAction_works hμ f hworks)
  | kill => exact callKill_effect f
  | exit => exact callExit_effect hμ f hforest hr
  | signalReturn => exact returnFromHandler_effect f hr
  | wait => exact callWait_effect hμ f hforest hr
  | yield => exact callYield_effect f hforest hr

theorem systemCall_effect (number : Nat) (hforest : k.table.Forest μ) (hr : k.table.Running) :
    (systemCall number f).Ensures k
      (fun r k' => k.table.CallEffect μ f (SystemCall.ofNumber? number) r k'.table) NotIdle := by
  obtain ⟨p, hp, -⟩ := id hr
  unfold systemCall noteCall
  split
  · split
    next call hcall =>
      rw [hcall]
      simp only [Attempt.ensures_bind, Attempt.ensures_ofRun, Run.ensures_bind, Run.ensures_get]
      split
      · simp only [Run.ensures_bind, ensures_currentProcess hp, ensures_note]
        exact perform_effect (k := { k with log := _ }) hμ f call hforest hr
      · exact perform_effect hμ f call hforest hr
    next hcall =>
      rw [hcall]
      simp only [Attempt.ensures_bind, Attempt.ensures_ofRun, ensures_note, Attempt.ensures_throw]
      exact .unassigned
  · rw [Attempt.ensures_ofRun, Run.ensures_crash]
    simp [NotIdle]

end Calls

/-! ### Traps -/

/-- A trap up to the delivery of signals. -/
def serve [FileSystem σ] [Firmware φ] (f : TrapFrame) : Run (KernelState μ β σ φ) Unit := do
  modifyCurrent fun p => { p with frame := f }
  handleCause f

attribute [local irreducible] addWords

section Traps

variable (hμ : MemorySystem.NeverIdle μ) [FileSystem σ] [Firmware φ]

include hμ

private theorem handleCall_effect {p : Process β} (hp : k.table.get k.table.current = some p)
    (hcause : TrapCause.ofWord p.frame.scause = .systemCall) (hforest : k.table.Forest μ) (hr : k.table.Running) :
    handleCall.Ensures k (fun _ k' => k.table.CauseEffect μ k'.table) NotIdle := by
  have hlive := hr.isZombie_eq_false hp
  unfold handleCall
  simp only [Run.ensures_bind, Run.ensures_get, ensures_currentProcess hp, Run.ensures_addWords,
    ensures_modifyCurrent hp, Attempt.ensures_run]
  split
  next hsepc =>
    obtain ⟨hforest', hr'⟩ := (move_of_frame (μ := μ) hp hlive p.frame.advanced).forest hforest hr
    refine Run.Ensures.mono (systemCall_effect (k := { k with table := _ }) hμ p.frame.advanced _ hforest' hr')
      fun r k' hk' => ?_
    exact .call hp hcause hsepc hk'
  · simp [NotIdle]

private theorem handlePageFault_effect {p : Process β} (hp : k.table.get k.table.current = some p)
    (hcause : TrapCause.ofWord p.frame.scause = .loadPageFault ∨ TrapCause.ofWord p.frame.scause = .storePageFault)
    (cause : TrapCause) (write : Bool) (f : TrapFrame) (hforest : k.table.Forest μ) (hr : k.table.Running) :
    (handlePageFault cause write f).Ensures k (fun _ k' => k.table.CauseEffect μ k'.table) NotIdle := by
  unfold handlePageFault
  simp only [Run.ensures_bind, Attempt.ensures_run]
  refine Run.Ensures.mono (onCurrentMemory_works (hμ.handleFault _ _) (.refl hp)) fun r k' hk' => ?_
  cases r with
  | ok => exact .fault hp hcause hk'
  | error e =>
    obtain ⟨hforest', hr'⟩ := (hk'.move hr).forest hforest hr
    simp only [Run.ensures_bind, ensures_note]
    refine Run.Ensures.mono (exitCurrent_exits hμ (by exact hforest') (by exact hr') _) fun _ k'' hk'' => ?_
    exact .fatal hp (by rcases hcause with h | h <;> simp [h]) (by rcases hcause with h | h <;> simp [h])
      (by rcases hcause with h | h <;> simp [h]) hk' hk''

omit hμ [FileSystem σ] in
private theorem handleTimer_effect {p : Process β} (hp : k.table.get k.table.current = some p)
    (hcause : TrapCause.ofWord p.frame.scause = .timer) (hforest : k.table.Forest μ) (hr : k.table.Running) :
    handleTimer.Ensures k (fun _ k' => k.table.CauseEffect μ k'.table) NotIdle := by
  unfold handleTimer
  rw [Run.ensures_bind, Run.ensures_get, Run.ensures_bind, ensures_note, Run.ensures_bind, ensures_onMachine]
  refine Run.Ensures.mono ((Machine.startSlice_avoids (by simp)).ensures k.machine) fun _ machine _ => ?_
  exact (suspendCurrent_suspends (k := { k with machine, log := _ }) hforest hr).mono fun _ k' hk' =>
    .timer hp hcause hk'

private theorem handleCause_effect {p : Process β} (hp : k.table.get k.table.current = some p)
    (hforest : k.table.Forest μ) (hr : k.table.Running) :
    (handleCause p.frame).Ensures k (fun _ k' => k.table.CauseEffect μ k'.table) NotIdle := by
  unfold handleCause
  split
  next hcause => exact handleCall_effect hμ hp hcause hforest hr
  next hcause => exact handleTimer_effect hp hcause hforest hr
  next hcause => exact handlePageFault_effect hμ hp (.inl hcause) _ _ _ hforest hr
  next hcause => exact handlePageFault_effect hμ hp (.inr hcause) _ _ _ hforest hr
  next hcause =>
    simp only [Run.ensures_bind, ensures_note]
    refine Run.Ensures.mono (exitCurrent_exits hμ (by exact hforest) (by exact hr) _) fun _ k' hk' => ?_
    exact .fatal hp (by simp [hcause]) (by simp [hcause]) (by simp [hcause]) (.refl hp) hk'
  next hcause =>
    simp only [Run.ensures_bind, ensures_note]
    refine Run.Ensures.mono (exitCurrent_exits hμ (by exact hforest) (by exact hr) _) fun _ k' hk' => ?_
    exact .fatal hp (by simp [hcause]) (by simp [hcause]) (by simp [hcause]) (.refl hp) hk'
  · rw [Run.ensures_crash]
    simp [NotIdle]

omit hμ in
/-- After a trap has been served signals are delivered. -/
theorem ensures_trapWith {f : TrapFrame} {Q : Unit → KernelState μ β σ φ → Prop}
    {E : Panic → KernelState μ β σ φ → Prop} (hr : k.table.Running) :
    (trapWith f).Ensures k Q E ↔ (serve f >>= fun _ => handleSignals).Ensures k Q E := by
  obtain ⟨p, hp, -⟩ := hr
  have hp₁ : (k.table.put k.table.current (some { p with frame := f })).get k.table.current =
      some { p with frame := f } := get_put_self _ _ _
  unfold trapWith handleTrap serve
  rw [Run.ensures_bind, ensures_modifyCurrent hp, Run.ensures_bind, ensures_currentProcess hp₁, Run.ensures_bind,
    Run.ensures_bind, Run.ensures_bind, ensures_modifyCurrent hp]

omit hμ in
theorem trapWith_eq (f : TrapFrame) (hr : k.table.Running) : trapWith f k = (serve f >>= fun _ => handleSignals) k :=
  Run.eq_of_ensures ((ensures_trapWith hr).mpr (Run.ensures_iff.mpr ⟨fun _ _ h => h, fun _ _ h => h⟩))

theorem serve_effect {p : Process β} (f : TrapFrame) (hp : k.table.get k.table.current = some p)
    (hforest : k.table.Forest μ) (hr : k.table.Running) :
    (serve f).Ensures k
      (fun _ k' => (k.table.put k.table.current (some { p with frame := f })).CauseEffect μ k'.table) NotIdle := by
  have hlive := hr.isZombie_eq_false hp
  obtain ⟨hforest₁, hr₁⟩ := (move_of_frame (μ := μ) hp hlive f).forest hforest hr
  unfold serve
  rw [Run.ensures_bind, ensures_modifyCurrent hp]
  exact handleCause_effect (k := { k with table := _ }) hμ (get_put_self _ _ _) hforest₁ hr₁

/-- The running process traps: what its cause asks for is done, and signals are delivered. -/
theorem trapWith_traps (f : TrapFrame) (hforest : k.table.Forest μ) (hr : k.table.Running) :
    (trapWith f).Ensures k (fun _ k' => k.table.Traps μ f k'.table) NotIdle := by
  obtain ⟨p, hp, hlive⟩ := hr.live
  obtain ⟨hforest₁, hr₁⟩ := (move_of_frame (μ := μ) hp hlive f).forest hforest hr
  rw [ensures_trapWith hr, Run.ensures_bind]
  refine (serve_effect hμ f hp hforest hr).mono fun _ k₂ hk₂ => ?_
  obtain ⟨hforest₂, hr₂⟩ := forest_of_moves (hk₂.moves hforest₁ hr₁) hforest₁ hr₁
  exact (handleSignals_settles hμ (hforest₂.parented hr₂)).mono fun _ k₃ hk₃ => ⟨p, k₂.table, hp, hk₂, hk₃⟩

end Traps

end TrapKernel.Kernel
