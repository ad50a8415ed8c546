import TrapKernel.Proofs.Kernel.Effects
import TrapKernel.Proofs.Process.Slots

/-!
# The call that a trap makes

A trap that asks for a system call goes through three stages. The caller is set behind the instruction that made the
call, the call is performed, and its result is left in the result register of the caller, which need not be running
any longer. `Kernel.answerCall` is the trap up to the last of them, and `Kernel.enterCall` the part before the call.

* `Kernel.serve_eq_answerCall`: such a trap is served by the call and nothing else.
* `Kernel.answerCall_effect`: what the call does to the process table, and what its result is.
-/

namespace TrapKernel

private theorem SystemCall.number_lt (call : SystemCall) : 0 < call.number ∧ call.number < slotCount := by
  cases call <;> decide

namespace Kernel

open ProcessTable

variable {μ β σ φ : Type}

/-- The running process traps with the registers `f` and is set behind the instruction that made a system call. -/
def advanceCurrent (f : TrapFrame) : Run (KernelState μ β σ φ) Unit := do
  modifyCurrent fun p => { p with frame := f }
  let sepc ← addWords f.sepc.toNat 4
  modifyCurrent fun p => { p with frame := { f with sepc := UInt64.ofNat sepc } }

/-- A trap with the registers `f` up to the point where the system call that they ask for is performed. -/
def enterCall (call : SystemCall) (f : TrapFrame) : Run (KernelState μ β σ φ) Unit := do
  advanceCurrent f
  noteCall call

variable [MemorySystem μ β] [FileSystem σ] [Firmware φ]

/-- A trap with the registers `f` up to the point where the result of the system call that they ask for is left in
them. The answer is that result. -/
def answerCall (f : TrapFrame) : Run (KernelState μ β σ φ) (Except Errno UInt64) := do
  advanceCurrent f
  (systemCall f.callNumber.toNat f.advanced).run

theorem answerCall_eq {f : TrapFrame} {call : SystemCall} (hasks : f.Asks call) :
    (answerCall f : Run (KernelState μ β σ φ) _) = enterCall call f >>= fun _ => (perform call f.advanced).run := by
  have hcall : (systemCall f.callNumber.toNat f.advanced : Attempt (KernelState μ β σ φ) UInt64) =
      Attempt.ofRun (noteCall call) >>= fun _ => perform call f.advanced := by
    unfold systemCall
    rw [hasks.callNumber_eq, if_pos call.number_lt, SystemCall.ofNumber?_number]
  unfold answerCall enterCall
  rw [hcall, Attempt.run_ofRun_bind, bind_assoc]

/-- A call that has been answered was entered and then performed. -/
theorem exists_perform {f : TrapFrame} {call : SystemCall} (hasks : f.Asks call) {k k' : KernelState μ β σ φ}
    {r : Except Errno UInt64} (h : answerCall f k = .ok r k') :
    ∃ k₁, enterCall call f k = .ok () k₁ ∧ (perform call f.advanced).run k₁ = .ok r k' := by
  rw [answerCall_eq hasks] at h
  obtain ⟨_, k₁, henter, hperform⟩ := Run.bind_eq_ok.mp h
  exact ⟨k₁, henter, hperform⟩

attribute [local irreducible] addWords

variable {k : KernelState μ β σ φ} {f : TrapFrame} {p : Process β}

omit [MemorySystem μ β] [FileSystem σ] [Firmware φ] in
theorem ensures_advanceCurrent {Q : Unit → KernelState μ β σ φ → Prop} {E : Panic → KernelState μ β σ φ → Prop}
    (hp : k.table.get k.table.current = some p) :
    (advanceCurrent f).Ensures k Q E ↔
      if f.sepc.toNat + 4 < wordLimit then
        Q () { k with table := k.table.put k.table.current (some { p with frame := f.advanced }) }
      else E .addOverflow { k with table := k.table.put k.table.current (some { p with frame := f }) } := by
  unfold advanceCurrent
  simp only [Run.ensures_bind, ensures_modifyCurrent hp, Run.ensures_addWords]
  split
  · rw [ensures_modifyCurrent (get_put_self _ _ _), current_put, put_put]
    rfl
  · rfl

omit [MemorySystem μ β] [FileSystem σ] [Firmware φ] in
/-- The log apart, to enter a call sets the caller behind the instruction. -/
theorem enterCall_spec (call : SystemCall) (hp : k.table.get k.table.current = some p) :
    (enterCall call f).Ensures k
      (fun _ k' => f.sepc.toNat + 4 < wordLimit ∧
        k'.table = k.table.put k.table.current (some { p with frame := f.advanced }) ∧ k'.volume = k.volume ∧
        k'.memory = k.memory)
      fun _ _ => wordLimit ≤ f.sepc.toNat + 4 := by
  have hp' : (k.table.put k.table.current (some { p with frame := f.advanced })).get k.table.current =
      some { p with frame := f.advanced } := get_put_self _ _ _
  unfold enterCall noteCall
  rw [Run.ensures_bind, ensures_advanceCurrent hp]
  split
  next hsepc =>
    simp only [Run.ensures_bind, Run.ensures_get]
    split
    · rw [Run.ensures_bind, ensures_currentProcess hp', ensures_note]
      exact ⟨hsepc, rfl, rfl, rfl⟩
    · exact ⟨hsepc, rfl, rfl, rfl⟩
  next hsepc => exact Nat.le_of_not_lt hsepc

/-- A trap that asks for a system call is served by the call, whose result is left in the registers of the caller. -/
theorem serve_eq_answerCall (hcause : TrapCause.ofWord f.scause = .systemCall)
    (hp : k.table.get k.table.current = some p) :
    serve f k = (answerCall f >>= fun r => leaveResult k.table.current (resultWord r)) k := by
  refine Run.eq_of_ensures ?_
  have hrefl : (answerCall f >>= fun r => leaveResult k.table.current (resultWord r)).Ensures k
      (fun a t => (answerCall f >>= fun r => leaveResult k.table.current (resultWord r)) k = .ok a t)
      fun q t => (answerCall f >>= fun r => leaveResult k.table.current (resultWord r)) k = .error q t :=
    Run.ensures_iff.mpr ⟨fun _ _ h => h, fun _ _ h => h⟩
  generalize (answerCall f >>= fun r => leaveResult k.table.current (resultWord r)) k = outcome at hrefl ⊢
  unfold answerCall at hrefl
  simp only [Run.ensures_bind, ensures_advanceCurrent hp, Attempt.ensures_run] at hrefl
  unfold serve handleCause
  rw [Run.ensures_bind, ensures_modifyCurrent hp, hcause]
  unfold handleCall
  simp only [Run.ensures_bind, Run.ensures_get, Run.ensures_addWords, current_put, Attempt.ensures_run]
  rw [ensures_currentProcess (get_put_self _ _ _)]
  split at hrefl
  next hsepc =>
    rw [if_pos hsepc, ensures_modifyCurrent (get_put_self _ _ _), current_put, put_put]
    exact hrefl
  next hsepc =>
    rw [if_neg hsepc]
    exact hrefl

/-- What a system call does to the process table, and what its result is. -/
theorem answerCall_effect (hμ : MemorySystem.NeverIdle μ) (hp : k.table.get k.table.current = some p)
    (hforest : k.table.Forest μ) (hr : k.table.Running) :
    (answerCall f).Ensures k
      (fun r k' => f.sepc.toNat + 4 < wordLimit ∧
        (k.table.put k.table.current (some { p with frame := f.advanced })).CallEffect μ f.advanced
          (SystemCall.ofNumber? f.callNumber.toNat) r k'.table) NotIdle := by
  have hlive := hr.isZombie_eq_false hp
  obtain ⟨hforest', hr'⟩ := (move_of_frame (μ := μ) hp hlive f.advanced).forest hforest hr
  unfold answerCall
  rw [Run.ensures_bind, ensures_advanceCurrent hp]
  split
  next hsepc =>
    refine Run.Ensures.mono (systemCall_effect (k := { k with table := _ }) hμ f.advanced _ hforest' hr') ?_
    exact fun r k' hk' => ⟨hsepc, hk'⟩
  · simp [NotIdle]

/-- A trap that asks for a system call and is served: the call has been performed, with a result that was left in the
registers of the caller. -/
theorem exists_answerCall (hμ : MemorySystem.NeverIdle μ) (hp : k.table.get k.table.current = some p)
    (hforest : k.table.Forest μ) (hr : k.table.Running) (hcause : TrapCause.ofWord f.scause = .systemCall)
    {k₁ : KernelState μ β σ φ} (hk : serve f k = .ok () k₁) :
    ∃ r k₂, answerCall f k = .ok r k₂ ∧ f.sepc.toNat + 4 < wordLimit ∧
      (k.table.put k.table.current (some { p with frame := f.advanced })).CallEffect μ f.advanced
        (SystemCall.ofNumber? f.callNumber.toNat) r k₂.table ∧
      k₁.table = k₂.table.modifyAt k.table.current (Process.withResult (resultWord r)) := by
  rw [serve_eq_answerCall hcause hp] at hk
  have hensures : (answerCall f >>= fun r => leaveResult k.table.current (resultWord r)).Ensures k
      (fun _ k' => k' = k₁) fun _ _ => False := Run.ensures_of_eq_ok hk rfl
  rw [Run.ensures_bind] at hensures
  cases hanswer : answerCall f k with
  | error => exact (hensures.of_error hanswer).elim
  | ok r k₂ =>
    obtain ⟨hsepc, heffect⟩ := (answerCall_effect hμ hp hforest hr).of_ok hanswer
    have hleft := hensures.of_ok hanswer
    unfold leaveResult at hleft
    rw [ensures_modifyTable] at hleft
    exact ⟨r, k₂, rfl, hsepc, heffect, by rw [← hleft]; rfl⟩

end Kernel

end TrapKernel
