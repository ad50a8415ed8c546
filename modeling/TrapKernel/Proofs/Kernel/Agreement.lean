import TrapKernel.Kernel.Entry
import TrapKernel.Proofs.Kernel.Private

/-!
# The kernel does the same on private memory

Whatever a trap does on paged memory it does on private memory, if the page table does not take the pages that the
kernel is asked to touch for others. In any case it keeps the kernel sound. There is one lemma for every service.

* `Kernel.trapWith_agrees`: a whole trap.
-/

namespace TrapKernel

/-- The user addresses that a system call is given. -/
def SystemCall.pointers (call : SystemCall) (f : TrapFrame) : List UInt64 :=
  match call with
  | .openPath => [f.a0]
  | .stat | .read | .wait => [f.a1]
  | .signalAction => [f.a1, f.a2]
  | _ => []

/-- The user addresses that a trap brings to the kernel: those that a system call is given, or that of a page fault. -/
def TrapFrame.addresses (f : TrapFrame) : List UInt64 :=
  match TrapCause.ofWord f.scause with
  | .systemCall =>
    match SystemCall.ofNumber? f.callNumber.toNat with
    | some call => call.pointers f
    | none => []
  | .loadPageFault | .storePageFault => [f.stval]
  | _ => []

namespace Kernel

open ProcessTable

variable {σ φ : Type} {foreign : Surroundings} {ok : Prop} {k : Kernel σ φ}

/-! ### Scheduling -/

private theorem runNext_agrees (h : k.Sound foreign) : Agrees foreign ok k runNext runNext := by
  unfold runNext
  refine .of_get (fun _ => rfl) ?_
  simp only [table_privately, nextReady?_mapSpace, current_mapSpace]
  cases k.table.nextReady? with
  | none => exact .of_crash (by simp)
  | some next =>
    refine .bind (.modifyTable h (fun _ => memory_modifyAt fun _ => rfl) (modifyAt_mapSpace next fun _ => rfl))
      fun _ k₁ hk₁ => ?_
    have hswitch : ∀ k₂ : Kernel σ φ, k₂.Sound foreign → Agrees foreign ok k₂
        (modifyTable fun t => { t with current := next }) (modifyTable fun t => { t with current := next }) :=
      fun k₂ hk₂ => .modifyTable hk₂ (fun _ => rfl) rfl
    exact .ite (fun _ => .bind (.note hk₁ _) fun _ k₂ hk₂ => hswitch k₂ hk₂) fun _ => hswitch k₁ hk₁

private theorem suspendCurrent_agrees (h : k.Sound foreign) : Agrees foreign ok k suspendCurrent suspendCurrent :=
  .bind (.modifyCurrent h (fun _ => rfl) fun _ _ => rfl) fun _ _ hk' => runNext_agrees hk'

private theorem blockCurrent_agrees (h : k.Sound foreign) : Agrees foreign ok k blockCurrent blockCurrent :=
  .bind (.modifyCurrent h (fun _ => rfl) fun _ _ => rfl) fun _ _ hk' => runNext_agrees hk'

/-! ### The life of a process -/

private theorem fork_agrees (h : k.Sound foreign) : AttemptAgrees foreign ok k fork fork := by
  unfold fork
  refine .of_get (fun _ => rfl) ?_
  simp only [table_privately, firstFree?_mapSpace, allocPid_mapSpace]
  cases hslot : k.table.firstFree? with
  | none => exact .of_throw h _
  | some slot =>
    let k₁ : Kernel σ φ := { k with table := k.table.allocPid.2 }
    have hk₁ : k₁.Sound foreign := h.congr rfl fun _ => rfl
    have hstep : Run.Follows (τ := Kernel σ φ) privately
        (modifyTable fun _ => k.table.allocPid.2.mapSpace fun s => s.content k.memory) k k₁ () :=
      .of_modify fun _ => rfl
    refine .of_ofRun_bind (.of_bind k₁ rfl hstep ?_)
    refine AttemptAgrees.of_currentProcess fun p hp => ?_
    refine .of_ofRun_bind ?_
    unfold Agrees
    rw [Run.ensures_bind, ensures_onMemory]
    refine Run.Ensures.imp (AddressSpace.fork_spec (hk₁.access hp).region) ?_ fun _ _ => False.elim
    rintro r m' ⟨hcontent, hmarked, hspares, hr⟩
    have hcontent' : p.memory.space.content m' = p.memory.space.content k₁.memory := funext hcontent
    have hothers : ∀ s q, k₁.table.get s = some q → q.memory.space.content m' = q.memory.space.content k₁.memory := by
      intro s q hq
      by_cases hs : s = k₁.table.current
      · rw [hs, hp, Option.some.injEq] at hq
        rw [← hq, hcontent']
      · exact hk₁.content_of_spares hspares hs hq
    cases r with
    | none =>
      let k₂ : Kernel σ φ := { k₁ with memory := m' }
      have hself : k₂.table = k₁.table.put k₁.table.current (some p) := by rw [← hp, put_get]
      have hleads : Access.Leads foreign (k₁.otherNodes k₁.table.current) (k₁.otherFrames k₁.table.current)
          ⟨p.memory, k₁.memory⟩ ⟨p.memory, m'⟩ := ⟨⟨hr, Sound.fine_of_marked (hk₁.fine _ p hp) hmarked⟩, hspares⟩
      have hk₂ : k₂.Sound foreign := hk₁.store hp hleads hself
      refine ⟨hk₂, fun _ => ?_⟩
      refine .bind (t := k₂) (c := none) ⟨[false], fun rest => ?_⟩ .of_pure
      show EStateM.Result.ok none (k₁.privately rest) = _
      have hprocess : p.privately m' = p.privately k₁.memory := by
        rw [Process.privately, Process.privately, Process.mapSpace, Process.mapSpace, UserMemory.mapSpace,
          UserMemory.mapSpace, hcontent']
      rw [privately_put k₂ (fun s q _ hq => hothers s q hq) hself rfl rfl, Option.map_some, hprocess,
        ← get_privately hp rest, put_get]
      rfl
    | some child =>
      obtain ⟨hparent, hchild, hcopy, hmirror, -⟩ := hr
      let k₂ : Kernel σ φ :=
        { k₁ with
          memory := m'
          table := k₁.table.put slot (some (p.child k.table.allocPid.1 k₁.table.current child))
          log := k₁.log.note (.forked p.pid k.table.allocPid.1 slot) }
      have hk₂ : k₂.Sound foreign := by
        refine hk₁.fork hp (firstFree?_eq_some hslot) (q := p.child _ _ child) rfl rfl hmarked hspares hparent
          hchild (fun page q hq => ?_) hmirror
        have hsome := hcopy page
        rw [AddressSpace.content, hq, Option.map_some, eq_comm, AddressSpace.content, Option.map_eq_some_iff] at hsome
        exact hsome.imp fun _ hq' => hq'.1
      refine ⟨hk₂, fun _ => .bind (t := k₁) ⟨[true], fun _ => rfl⟩ (.of_forall fun rest => Run.Ensures.eq_ok ?_)⟩
      simp only [Attempt.ensures_run, Attempt.ensures_bind, Attempt.ensures_ofRun, ensures_modifyTable, ensures_note,
        Attempt.ensures_pure]
      have hcopy' : child.content m' = p.memory.space.content k₁.memory := funext hcopy
      have hprocess : (p.child k.table.allocPid.1 k₁.table.current child).privately m' =
          (p.privately k₁.memory).child k.table.allocPid.1 k₁.table.current (p.memory.space.content k₁.memory) := by
        rw [← hcopy']
        rfl
      refine ⟨trivial, ?_⟩
      rw [privately_put k₂ (fun s q _ hq => hothers s q hq) rfl rfl rfl, Option.map_some, hprocess]
      rfl

variable [FileSystem σ]

/-- The exit of a process that has not exited. -/
private theorem exitProcess_agrees (h : k.Sound foreign) (s : Slot) (code : Int32) :
    AttemptAgrees foreign ok k (exitProcess s code) (exitProcess s code) := by
  unfold exitProcess
  refine .ite (fun _ => .of_throw h _) fun _ => .of_get (fun _ => rfl) ?_
  simp only [table_privately, get_mapSpace]
  cases hp : k.table.get s with
  | none => exact .of_throw h _
  | some p =>
    refine .ite (fun _ => .of_throw h _) fun _ => ?_
    refine .of_onVolume (Descriptors.closeAll_avoids (by simp) _) fun descriptors volume => ?_
    have hk : Sound foreign { k with volume } := h.congr rfl fun _ => rfl
    refine .of_unmapAll hk hp (fun _ => rfl) (fun _ _ => rfl) fun k₁ hk₁ => ?_
    refine .bind (.ofRun (.note hk₁ _)) fun _ k₂ hk₂ => ?_
    refine .bind (.ofRun (.modifyTable hk₂ (memory_reparent s) (reparent_mapSpace s))) fun _ k₃ hk₃ => ?_
    simp only [Process.parent_mapSpace]
    cases p.parent with
    | none => exact .of_pure hk₃ _
    | some parent =>
      refine .ofRun (.modifyTable hk₃ (fun _ => (memory_wake _ _).trans (memory_modifyAt fun _ => rfl)) ?_)
      have hpost : (k₃.table.mapSpace fun s => s.content k₃.memory).modifyAt parent (fun q => q.post sigChild) =
          (k₃.table.modifyAt parent fun q => q.post sigChild).mapSpace fun s => s.content k₃.memory :=
        modifyAt_mapSpace parent fun _ => rfl
      rw [hpost, wake_mapSpace]

omit [FileSystem σ] in
private theorem reap_agrees (h : k.Sound foreign) (s : Slot) : Agrees foreign ok k (reap s) (reap s) := by
  unfold reap
  refine .of_get (fun _ => rfl) ?_
  simp only [table_privately, get_mapSpace]
  cases hp : k.table.get s with
  | none => exact .of_pure h _
  | some p =>
    refine .ite (fun _ => ?_) fun _ => .of_pure h _
    unfold Agrees
    simp only [Run.ensures_bind, ensures_modifyTable, ensures_note, ensures_onMemory, Run.ensures_pure]
    refine Run.Ensures.imp (AddressSpace.release_spec (h.access hp).region) ?_ fun _ _ => False.elim
    rintro _ m' ⟨haccounts, hspares, _⟩
    let k₁ : Kernel σ φ :=
      { k with memory := m', table := k.table.put s none, log := k.log.note (.reaped p.pid) }
    have hk₁ : k₁.Sound foreign := h.remove hp haccounts hspares rfl
    refine ⟨hk₁, fun _ => .of_forall fun rest => Run.Ensures.eq_ok ?_⟩
    simp only [Run.ensures_bind, ensures_modifyTable, ensures_note, ensures_onMemory, Run.ensures_pure]
    exact ⟨rfl, (privately_put k₁ (fun _ _ hne hq => h.content_of_spares hspares hne hq) rfl rfl rfl rest).symm⟩

omit [FileSystem σ] in
private theorem collect_agrees (h : k.Sound foreign) (target : WaitTarget) :
    AttemptAgrees foreign ok k (collect target) (collect target) := by
  unfold collect
  refine .of_get (fun _ => rfl) ?_
  simp only [table_privately, current_mapSpace, waitedFor_mapSpace, hasStatus_mapSpace]
  cases k.table.waitedFor k.table.current target with
  | nil => exact .of_throw h _
  | cons c rest =>
    dsimp only
    cases (c :: rest).find? fun c => k.table.hasStatus c .zombie with
    | none => exact .of_pure h _
    | some c => exact .ofRun (reap_agrees h c)

private theorem exitAndRunNext_agrees (h : k.Sound foreign) (code : Int32) :
    AttemptAgrees foreign ok k (exitAndRunNext code) (exitAndRunNext code) :=
  .of_get (fun _ => rfl) (.bind (exitProcess_agrees h _ code) fun _ _ hk' => .ofRun (runNext_agrees hk'))

private theorem exitCurrent_agrees [Firmware φ] (h : k.Sound foreign) (code : Int32) :
    Agrees foreign ok k (exitCurrent code) (exitCurrent code) := by
  unfold exitCurrent
  refine .of_get (fun _ => rfl) (.ite (fun _ => ?_) fun _ => ?_)
  · refine .bind (.note h _) fun _ k₁ hk₁ => ?_
    refine .bind (.of_modify hk₁ rfl (fun _ => rfl) fun _ => rfl) fun _ _ _ =>
      .of_crash (by simp)
  · refine .bind (exitAndRunNext_agrees h code) fun r k₁ hk₁ => ?_
    cases r with
    | ok => exact .of_pure hk₁ _
    | error e => exact .note hk₁ _

/-! ### Signals -/

omit [FileSystem σ] in
private theorem kill_agrees (h : k.Sound foreign) (pid : UInt64) (n : Nat) :
    AttemptAgrees foreign ok k (kill pid n) (kill pid n) := by
  unfold kill
  refine .of_get (fun _ => rfl) ?_
  simp only [table_privately, findPid?_mapSpace, hasStatus_mapSpace]
  cases k.table.findPid? pid with
  | none => exact .of_throw h _
  | some s =>
    refine .ite (fun _ => .of_throw h _) fun _ => .ite (fun _ => ?_) fun _ => .of_throw h _
    refine .bind (.ofRun (.modifyTable h (fun _ => memory_modifyAt fun _ => rfl) (modifyAt_mapSpace s fun _ => rfl)))
      fun _ k₁ hk₁ => ?_
    refine .bind (.ofRun (.note hk₁ _)) fun _ k₂ hk₂ => ?_
    exact .ofRun (.modifyTable hk₂ (memory_wake s) (wake_mapSpace s))

theorem deliverSignal_agrees (h : k.Sound foreign) : Agrees foreign ok k deliverSignal deliverSignal := by
  unfold deliverSignal
  refine .of_currentProcess fun p hp => ?_
  have hnext : (p.privately k.memory).nextSignal? = p.nextSignal? := Process.nextSignal?_mapSpace _ p
  have hactions : (p.privately k.memory).actions = p.actions := rfl
  rw [hnext, hactions]
  cases p.nextSignal? with
  | none => exact .of_pure h _
  | some n =>
    have htake : ∀ {α : Type} {f : Unit → Run (Kernel σ φ) α} {f' : Unit → Run (PrivateKernel σ φ) α},
        (∀ k', k'.Sound foreign → Agrees foreign ok k' (f ()) (f' ())) →
        Agrees foreign ok k (modifyCurrent (fun p => p.take n) >>= f) (modifyCurrent (fun p => p.take n) >>= f') :=
      fun hf => .bind (.modifyCurrent h (fun _ => rfl) fun _ _ => rfl) fun _ k' hk' => hf k' hk'
    dsimp only
    cases (p.actions.action n).handler with
    | user entry =>
      refine .bind (.modifyCurrent h (fun _ => rfl) fun _ _ => rfl) fun _ k₁ hk₁ => ?_
      exact .bind (.note hk₁ _) fun _ k₂ hk₂ => .of_pure hk₂ _
    | ignore => exact htake fun k₁ hk₁ => .of_pure hk₁ _
    | default =>
      refine htake fun k₁ hk₁ => .ite (fun _ => .of_pure hk₁ _) fun _ => ?_
      refine .of_get (fun _ => rfl) (.ite (fun _ => ?_) fun _ => ?_)
      · exact .bind (.note hk₁ _) fun _ k₂ hk₂ => .of_pure hk₂ _
      · refine .bind (exitAndRunNext_agrees hk₁ _) fun r k₂ hk₂ => ?_
        cases r with
        | ok => exact .of_pure hk₂ _
        | error e => exact .bind (.note hk₂ _) fun _ k₃ hk₃ => .of_pure hk₃ _

private theorem deliverSignals_agrees (n : Nat) (h : k.Sound foreign) :
    Agrees foreign ok k (deliverSignals n) (deliverSignals n) := by
  induction n generalizing k with
  | zero => exact .of_pure h _
  | succ n ih =>
    unfold deliverSignals
    exact .bind (deliverSignal_agrees h) fun _ k₁ hk₁ => .ite (fun _ => ih hk₁) fun _ => .of_pure hk₁ _

private theorem handleSignals_agrees (h : k.Sound foreign) : Agrees foreign ok k handleSignals handleSignals := by
  unfold handleSignals signalBound
  refine .of_get (fun _ => rfl) ?_
  simp only [table_privately, occupied_mapSpace]
  exact deliverSignals_agrees _ h

omit [FileSystem σ] in
private theorem returnFromHandler_agrees (h : k.Sound foreign) :
    AttemptAgrees foreign ok k returnFromHandler returnFromHandler := by
  unfold returnFromHandler
  refine .of_currentProcess fun p hp => ?_
  have hinterrupted : (p.privately k.memory).interrupted = p.interrupted := rfl
  rw [hinterrupted]
  cases p.interrupted with
  | none => exact .of_throw h _
  | some saved =>
    exact .bind (.ofRun (.modifyCurrent h (fun _ => rfl) fun _ _ => rfl)) fun _ k₁ hk₁ => .of_pure hk₁ _

/-! ### User memory -/

section UserMemory

omit [FileSystem σ]

theorem writeUser_agrees (h : k.Sound foreign) {address : Nat} (bytes : List UInt8)
    (hok : ok → pageOf address < pageLimit) :
    AttemptAgrees foreign ok k (onCurrentMemory (Access.writeUser address bytes))
      (onCurrentMemory (Access.writeUser address bytes)) :=
  .onCurrentMemory h fun _ _ _ _ ha =>
    (Access.writeUser_spec ha address bytes fun hk => Access.plain_of_lt (hok hk)).imp (fun _ _ h => h) fun _ _ h => h.books

theorem readUser_agrees (h : k.Sound foreign) {address : Nat} (length : Nat) (hok : ok → pageOf address < pageLimit) :
    AttemptAgrees foreign ok k (onCurrentMemory (Access.readUser address length))
      (onCurrentMemory (Access.readUser address length)) :=
  .onCurrentMemory h fun _ _ _ _ ha =>
    (Access.readUser_spec ha address length fun hk => Access.plain_of_lt (hok hk)).imp
      (fun _ _ h => ⟨h.1, fun hk => (h.2 hk).2⟩) fun _ _ h => h.books

private theorem readString_agrees (h : k.Sound foreign) {address : Nat} (hok : ok → pageOf address < pageLimit) :
    AttemptAgrees foreign ok k (onCurrentMemory (Access.readString address))
      (onCurrentMemory (Access.readString address)) :=
  .onCurrentMemory h fun _ _ _ _ ha =>
    (Access.readString_spec ha address fun hk => Access.plain_of_lt (hok hk)).imp (fun _ _ h => h) fun _ _ h => h.books

private theorem handleFault_agrees (h : k.Sound foreign) {address : Nat} (write : Bool)
    (hok : ok → pageOf address < pageLimit) :
    AttemptAgrees foreign ok k (onCurrentMemory (MemorySystem.handleFault address write))
      (onCurrentMemory (MemorySystem.handleFault address write)) :=
  .onCurrentMemory h fun _ _ _ _ ha =>
    (Access.handleFault_spec ha address write fun hk => Access.plain_of_lt (hok hk)).imp
      (fun _ _ h => ⟨h.1, fun hk => (h.2.2 hk).2⟩) fun _ _ h => h.books

end UserMemory

/-! ### System calls -/

section Calls

variable [Firmware φ] (f : TrapFrame)

omit [FileSystem σ] [Firmware φ] in
private theorem callTestFork_agrees (h : k.Sound foreign) :
    AttemptAgrees foreign ok k (callTestFork f) (callTestFork f) := by
  unfold callTestFork
  refine .of_get (fun _ => rfl) (.ite (fun _ => ?_) fun _ => .of_pure h _)
  refine .of_currentProcess fun p _ => ?_
  exact .bind (.ofRun (.note h _)) fun _ k₁ hk₁ => .of_pure hk₁ _

omit [FileSystem σ] [Firmware φ] in
private theorem callGetPid_agrees (h : k.Sound foreign) : AttemptAgrees foreign ok k callGetPid callGetPid :=
  .of_currentProcess fun _ _ => .of_pure h _

omit [FileSystem σ] [Firmware φ] in
private theorem callGetParentPid_agrees (h : k.Sound foreign) :
    AttemptAgrees foreign ok k callGetParentPid callGetParentPid := by
  unfold callGetParentPid
  refine .of_get (fun _ => rfl) ?_
  simp only [table_privately, current_mapSpace, parentPid_mapSpace]
  exact .of_pure h _

omit [FileSystem σ] in
private theorem callCharacter_agrees (h : k.Sound foreign) :
    AttemptAgrees foreign ok k (callCharacter f) (callCharacter f) := by
  unfold callCharacter
  refine .ite (fun _ => .of_get (fun _ => rfl) ?_) fun _ => ?_
  · have hmachine : (k.privately []).machine = k.machine := rfl
    rw [hmachine]
    obtain ⟨character, machine⟩ := k.machine.getChar
    refine .bind (.of_modify h rfl (fun _ => rfl) fun _ => rfl) fun _ k₁ hk₁ => ?_
    cases character with
    | none => exact .of_throw hk₁ _
    | some c => exact .of_pure hk₁ _
  · exact .bind (.of_modify h rfl (fun _ => rfl) fun _ => rfl) fun _ k₁ hk₁ => .of_pure hk₁ _

omit [FileSystem σ] in
private theorem callReset_agrees (h : k.Sound foreign) : AttemptAgrees foreign ok k (callReset f) (callReset f) := by
  unfold callReset
  cases ResetKind.ofNat? f.a0.toNat with
  | none => exact .of_throw h _
  | some kind =>
    refine .of_get (fun _ => rfl) ?_
    refine .bind (.of_modify h rfl (fun _ => rfl) fun _ => rfl) fun _ k₁ hk₁ => ?_
    exact .bind (.ofRun (.note hk₁ _)) fun _ k₂ hk₂ => .of_throw hk₂ _

omit [FileSystem σ] [Firmware φ] in
private theorem callBrk_agrees (h : k.Sound foreign) : AttemptAgrees foreign ok k (callBrk f) (callBrk f) := by
  unfold callBrk
  refine .of_currentProcess fun p hp => .of_ofRun_bind ?_
  unfold Agrees
  rw [Run.ensures_bind, ensures_onMemory]
  refine Run.Ensures.imp (UserMemory.setBrk_spec (h.access hp) f.a0) ?_ fun _ _ => False.elim
  rintro u m' ⟨hleads, hprivate⟩
  let k₁ : Kernel σ φ := { k with memory := m', table := k.table.put k.table.current (some { p with memory := u }) }
  have hk₁ : k₁.Sound foreign := h.store hp hleads rfl
  rw [Attempt.run_ofRun_bind, Run.ensures_bind, ensures_modifyCurrent (k := { k with memory := m' }) hp]
  refine ⟨hk₁, fun _ => .bind (t := k) (c := u.privately m') (.of_forall fun rest => ?_) ?_⟩
  · exact Run.Ensures.eq_ok (ensures_onMemory.mpr (Run.ensures_of_eq_ok (hprivate rest) ⟨rfl, rfl⟩))
  · rw [Attempt.run_ofRun_bind]
    refine .bind (t := k₁) (c := ()) (.of_forall fun rest => Run.Ensures.eq_ok ?_) .of_pure
    rw [ensures_modifyCurrent (get_privately hp rest)]
    exact ⟨rfl, (privately_storeAccess h hleads.spares rest rest)⟩

omit [Firmware φ] in
private theorem callExit_agrees [Firmware φ] (h : k.Sound foreign) :
    AttemptAgrees foreign ok k (callExit f) (callExit f) :=
  .bind (.ofRun (exitCurrent_agrees h _)) fun _ _ hk₁ => .of_pure hk₁ _

omit [FileSystem σ] [Firmware φ] in
private theorem callYield_agrees (h : k.Sound foreign) : AttemptAgrees foreign ok k callYield callYield :=
  .bind (.ofRun (suspendCurrent_agrees h)) fun _ _ hk₁ => .of_pure hk₁ _

omit [FileSystem σ] [Firmware φ] in
private theorem callWait_agrees (h : k.Sound foreign) (hok : ok → pageOf f.a1.toNat < pageLimit) :
    AttemptAgrees foreign ok k (callWait f) (callWait f) := by
  unfold callWait
  refine .bind (collect_agrees h _) fun r k₁ hk₁ => ?_
  match r with
  | some (pid, code) =>
    refine .ite (fun _ => .of_pure hk₁ _) fun _ => ?_
    exact .bind (writeUser_agrees hk₁ _ hok) fun _ k₂ hk₂ => .of_pure hk₂ _
  | none =>
    refine .of_currentProcess fun p hp => ?_
    refine .bind (.ofRun (.subWords hk₁ _ _)) fun sepc k₂ hk₂ => ?_
    refine .bind (.ofRun (.modifyCurrent hk₂ (fun _ => rfl) fun _ _ => rfl)) fun _ k₃ hk₃ => ?_
    exact .bind (.ofRun (blockCurrent_agrees hk₃)) fun _ k₄ hk₄ => .of_pure hk₄ _

omit [FileSystem σ] [Firmware φ] in
private theorem callKill_agrees (h : k.Sound foreign) : AttemptAgrees foreign ok k (callKill f) (callKill f) :=
  .bind (kill_agrees h _ _) fun _ _ hk₁ => .of_pure hk₁ _

omit [FileSystem σ] [Firmware φ] in
private theorem readAction_agrees (h : k.Sound foreign) (address : UInt64)
    (hok : ok → pageOf address.toNat < pageLimit) :
    AttemptAgrees foreign ok k (readAction address) (readAction address) := by
  unfold readAction
  refine .ite (fun _ => .of_pure h _) fun _ => ?_
  exact .bind (readUser_agrees h _ hok) fun _ k₁ hk₁ => .of_pure hk₁ _

omit [FileSystem σ] [Firmware φ] in
private theorem installAction_agrees (h : k.Sound foreign) (n : Nat) (new : Option SignalAction) :
    AttemptAgrees foreign ok k
      (match new with
        | none => return 0
        | some action => do
          Attempt.ofRun (modifyCurrent fun p => { p with actions := p.actions.install n action })
          return (0 : UInt64))
      (match new with
        | none => return 0
        | some action => do
          Attempt.ofRun (modifyCurrent fun p => { p with actions := p.actions.install n action })
          return 0) := by
  cases new with
  | none => exact .of_pure h _
  | some action =>
    exact .bind (.ofRun (.modifyCurrent h (fun _ => rfl) fun _ _ => rfl)) fun _ k₁ hk₁ => .of_pure hk₁ _

omit [FileSystem σ] [Firmware φ] in
private theorem callSignalAction_agrees (h : k.Sound foreign) (hok : ok → pageOf f.a1.toNat < pageLimit)
    (hok' : ok → pageOf f.a2.toNat < pageLimit) :
    AttemptAgrees foreign ok k (callSignalAction f) (callSignalAction f) := by
  unfold callSignalAction
  refine .ite (fun _ => ?_) fun _ => .of_throw h _
  refine .of_currentProcess fun p _ => ?_
  refine .bind (readAction_agrees h f.a1 hok) fun new k₁ hk₁ => ?_
  refine .ite (fun _ => ?_) fun _ => installAction_agrees hk₁ _ new
  exact .bind (writeUser_agrees hk₁ _ hok') fun _ k₂ hk₂ => installAction_agrees hk₂ _ new

omit [Firmware φ] in
private theorem callOpen_agrees (h : k.Sound foreign) (hok : ok → pageOf f.a0.toNat < pageLimit) :
    AttemptAgrees foreign ok k (callOpen f) (callOpen f) := by
  unfold callOpen
  refine .of_currentProcess fun p _ => .ite (fun _ => ?_) fun _ => .of_throw h _
  refine .bind (readString_agrees h hok) fun path k₁ hk₁ => ?_
  refine .bind (.of_run (.onVolume hk₁ (Descriptors.openPath_avoids _ _).run)) fun r k₂ hk₂ => ?_
  exact .bind (.ofRun (.modifyCurrent hk₂ (fun _ => rfl) fun _ _ => rfl)) fun _ k₃ hk₃ => .of_pure hk₃ _

omit [Firmware φ] in
private theorem callClose_agrees (h : k.Sound foreign) : AttemptAgrees foreign ok k (callClose f) (callClose f) := by
  unfold callClose
  refine .of_currentProcess fun p _ => ?_
  have havoids : ∀ d fd, (Descriptors.close d fd : Attempt (Volume σ) Descriptors).Avoids Panic.IsDoubleReturn :=
    Descriptors.close_avoids (by simp)
  refine .bind (.of_run (.onVolume h (havoids _ _).run)) fun descriptors k₁ hk₁ => ?_
  exact .bind (.ofRun (.modifyCurrent hk₁ (fun _ => rfl) fun _ _ => rfl)) fun _ k₂ hk₂ => .of_pure hk₂ _

omit [Firmware φ] in
private theorem callStat_agrees (h : k.Sound foreign) (hok : ok → pageOf f.a1.toNat < pageLimit) :
    AttemptAgrees foreign ok k (callStat f) (callStat f) := by
  unfold callStat
  refine .of_currentProcess fun p _ => .of_ofExcept h fun inode _ => ?_
  refine .bind (.ofRun (.onVolume h (Volume.stat_avoids _))) fun stat k₁ hk₁ => ?_
  exact .bind (writeUser_agrees hk₁ _ hok) fun _ k₂ hk₂ => .of_pure hk₂ _

omit [Firmware φ] in
private theorem readChunks_agrees (h : k.Sound foreign) (inode : Inode) (address length n done : Nat)
    (buffer : List UInt8) (hok : ok → address + done + n * pageSize < pageLimit * pageSize) :
    AttemptAgrees foreign ok k (readChunks inode address length n done buffer)
      (readChunks inode address length n done buffer) := by
  induction n generalizing k done buffer with
  | zero => exact .of_pure h _
  | succ n ih =>
    unfold readChunks
    refine .bind (.ofRun (.onVolume h (Volume.request_avoids _ _ _ _).run)) fun r k₁ hk₁ => ?_
    cases r with
    | error e => exact .bind (.ofRun (.note hk₁ _)) fun _ k₂ hk₂ => .of_throw hk₂ _
    | ok chunk =>
      refine .of_ofRun_bind (.of_addWords ?_)
      have hpage : ok → pageOf (address + done) < pageLimit := fun hk => by
        have := hok hk
        simp only [pageOf, pageSize, pageLimit] at this ⊢
        omega
      refine AttemptAgrees.bind (writeUser_agrees hk₁ chunk hpage) fun _ k₂ hk₂ => ih hk₂ _ _ fun hk => ?_
      have := hok hk
      simp only [pageSize, pageLimit] at this ⊢
      omega

omit [Firmware φ] in
private theorem callRead_agrees (h : k.Sound foreign) (hok : ok → pageOf f.a1.toNat < pageLimit) :
    AttemptAgrees foreign ok k (callRead f) (callRead f) := by
  unfold callRead
  refine .of_currentProcess fun p hp => .of_ofExcept h fun inode _ => ?_
  have hrange : ∀ answers : Answers, (p.privately k.memory).memory.checkRange answers f.a1.toNat f.a2.toNat =
      p.memory.checkRange k.memory f.a1.toNat f.a2.toNat :=
    UserMemory.checkRange_privately (h.access hp) f.a1.toNat f.a2.toNat
  refine .of_get (fun answers => ?_) ?_
  · show Attempt.ofExcept ((p.privately k.memory).memory.checkRange answers _ _) >>= _ =
      Attempt.ofExcept ((p.privately k.memory).memory.checkRange ([] : Answers) _ _) >>= _
    rw [hrange, hrange]
  · show AttemptAgrees foreign ok k _ (Attempt.ofExcept ((p.privately k.memory).memory.checkRange ([] : Answers) _ _) >>= _)
    rw [hrange]
    refine .of_ofExcept h fun _ hcheck => ?_
    refine .bind (readChunks_agrees h inode _ _ _ _ _ fun hk => ?_) fun _ k₁ hk₁ => .of_pure hk₁ _
    have hlt := hok hk
    simp only [pageOf, pageSize, pageLimit] at hlt ⊢
    rcases UserMemory.checkRange_eq_ok hcheck with hzero | hle
    · omega
    · simp only [stackTop] at hle
      omega

private theorem perform_agrees (call : SystemCall) (h : k.Sound foreign)
    (hok : ok → ∀ a ∈ call.pointers f, pageOf a.toNat < pageLimit) :
    AttemptAgrees foreign ok k (perform call f) (perform call f) := by
  cases call with
  | fork => exact fork_agrees h
  | testFork => exact callTestFork_agrees f h
  | getPid => exact callGetPid_agrees h
  | getParentPid => exact callGetParentPid_agrees h
  | character => exact callCharacter_agrees f h
  | openPath => exact callOpen_agrees f h fun hk => hok hk _ (by simp [SystemCall.pointers])
  | close => exact callClose_agrees f h
  | stat => exact callStat_agrees f h fun hk => hok hk _ (by simp [SystemCall.pointers])
  | read => exact callRead_agrees f h fun hk => hok hk _ (by simp [SystemCall.pointers])
  | reset => exact callReset_agrees f h
  | brk => exact callBrk_agrees f h
  | signalAction =>
    exact callSignalAction_agrees f h (fun hk => hok hk _ (by simp [SystemCall.pointers])) fun hk =>
      hok hk _ (by simp [SystemCall.pointers])
  | kill => exact callKill_agrees f h
  | exit => exact callExit_agrees f h
  | signalReturn => exact returnFromHandler_agrees h
  | wait => exact callWait_agrees f h fun hk => hok hk _ (by simp [SystemCall.pointers])
  | yield => exact callYield_agrees h

private theorem systemCall_agrees (number : Nat) (h : k.Sound foreign)
    (hok : ok → ∀ call, SystemCall.ofNumber? number = some call → ∀ a ∈ call.pointers f, pageOf a.toNat < pageLimit) :
    AttemptAgrees foreign ok k (systemCall number f) (systemCall number f) := by
  unfold systemCall
  refine .ite (fun _ => ?_) fun _ => .ofRun (.of_crash (by simp))
  cases hcall : SystemCall.ofNumber? number with
  | none => exact .bind (.ofRun (.note h _)) fun _ k₁ hk₁ => .of_throw hk₁ _
  | some call =>
    refine .bind (.ofRun ?_) fun _ k₁ hk₁ => perform_agrees f call hk₁ fun hk => hok hk call hcall
    unfold noteCall
    refine .of_get (fun _ => rfl) (.ite (fun _ => ?_) fun _ => .of_pure h _)
    exact .of_currentProcess fun p _ => .note h _

end Calls

/-! ### Traps -/

attribute [local irreducible] addWords

omit [FileSystem σ] in
private theorem leaveResult_agrees (h : k.Sound foreign) (caller : Slot) (result : UInt64) :
    Agrees foreign ok k (leaveResult caller result) (leaveResult caller result) := by
  refine .modifyTable h (fun _ => memory_modifyAt fun p => ?_) (modifyAt_mapSpace caller fun p => ?_)
  · split <;> rfl
  · rw [Process.isZombie_mapSpace]
    split <;> rfl

variable [Firmware φ]

private theorem handleCall_agrees (h : k.Sound foreign)
    (hok : ok → ∀ p, k.table.get k.table.current = some p → ∀ call,
      SystemCall.ofNumber? p.frame.callNumber.toNat = some call → ∀ a ∈ call.pointers p.frame, pageOf a.toNat < pageLimit) :
    Agrees foreign ok k handleCall handleCall := by
  unfold handleCall
  refine .of_get (fun _ => rfl) (.of_currentProcess fun p hp => .of_addWords ?_)
  refine .bind (.modifyCurrent h (fun _ => rfl) fun _ _ => rfl) fun _ k₁ hk₁ => ?_
  refine .bind (systemCall_agrees _ _ hk₁ fun hk call hcall => hok hk p hp call hcall) fun r k₂ hk₂ => ?_
  exact leaveResult_agrees hk₂ _ _

private theorem handlePageFault_agrees (h : k.Sound foreign) (cause : TrapCause) (write : Bool) (f : TrapFrame)
    (hok : ok → pageOf f.stval.toNat < pageLimit) :
    Agrees foreign ok k (handlePageFault cause write f) (handlePageFault cause write f) := by
  unfold handlePageFault
  refine .bind (handleFault_agrees h write hok) fun r k₁ hk₁ => ?_
  cases r with
  | ok => exact .of_pure hk₁ _
  | error e => exact .bind (.note hk₁ _) fun _ k₂ hk₂ => exitCurrent_agrees hk₂ _

omit [FileSystem σ] in
private theorem handleTimer_agrees (h : k.Sound foreign) : Agrees foreign ok k handleTimer handleTimer := by
  unfold handleTimer
  refine .of_get (fun _ => rfl) (.bind (.note h _) fun _ k₁ hk₁ => ?_)
  exact .bind (.onMachine hk₁ (Machine.startSlice_avoids (by simp))) fun _ k₂ hk₂ =>
    suspendCurrent_agrees hk₂

private theorem handleTrap_agrees (h : k.Sound foreign)
    (hok : ok → ∀ p, k.table.get k.table.current = some p → ∀ a ∈ p.frame.addresses, pageOf a.toNat < pageLimit) :
    Agrees foreign ok k handleTrap handleTrap := by
  unfold handleTrap
  refine .of_currentProcess fun p hp => .bind ?_ fun _ k₁ hk₁ => handleSignals_agrees hk₁
  have haddresses : ok → ∀ a ∈ p.frame.addresses, pageOf a.toNat < pageLimit := fun hk => hok hk p hp
  unfold TrapFrame.addresses at haddresses
  unfold handleCause
  have hframe : (p.privately k.memory).frame = p.frame := rfl
  rw [hframe]
  cases hcause : TrapCause.ofWord p.frame.scause with
  | systemCall =>
    refine handleCall_agrees h fun hk q hq call hcall a ha => haddresses hk a ?_
    obtain rfl : p = q := Option.some.inj (hp.symm.trans hq)
    simpa only [hcause, hcall] using ha
  | timer => exact handleTimer_agrees h
  | loadPageFault =>
    exact handlePageFault_agrees h _ _ _ fun hk => haddresses hk _ (by simp only [hcause]; exact List.mem_singleton_self _)
  | storePageFault =>
    exact handlePageFault_agrees h _ _ _ fun hk => haddresses hk _ (by simp only [hcause]; exact List.mem_singleton_self _)
  | illegalInstruction => exact .bind (.note h _) fun _ k₁ hk₁ => exitCurrent_agrees hk₁ _
  | exception number => exact .bind (.note h _) fun _ k₁ hk₁ => exitCurrent_agrees hk₁ _
  | unknown bits => exact .of_crash (by simp)

/-- A trap keeps the kernel sound, whatever the registers are, and does the same on private memory, if the pages of the
addresses that it brings are not too large for the page table. -/
theorem trapWith_agrees (h : k.Sound foreign) (f : TrapFrame)
    (hok : ok → ∀ a ∈ f.addresses, pageOf a.toNat < pageLimit) :
    Agrees foreign ok k (trapWith f) (trapWith f) := by
  unfold trapWith modifyCurrent
  rw [bind_assoc, bind_assoc]
  refine .of_currentProcess fun p hp => ?_
  let k₁ : Kernel σ φ := { k with table := k.table.put k.table.current (some { p with frame := f }) }
  have hmemory : ∀ s, (k₁.table.get s).map Process.memory = (k.table.get s).map Process.memory := fun s => by
    rw [get_put]
    split
    next hs => rw [← hs, hp]; rfl
    · rfl
  refine .of_bind k₁ rfl (.of_modify fun answers => ?_) (handleTrap_agrees (h.congr rfl hmemory) fun hk q hq => ?_)
  · rw [privately_put (k := k) k₁ (fun _ _ _ _ => rfl) rfl rfl rfl]
    rfl
  · have hself : k₁.table.get k₁.table.current = some { p with frame := f } := get_put_self _ _ _
    obtain rfl : { p with frame := f } = q := Option.some.inj (hself.symm.trans hq)
    exact hok hk

end Kernel

end TrapKernel
