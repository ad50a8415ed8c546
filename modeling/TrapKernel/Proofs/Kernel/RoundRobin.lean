import TrapKernel.Proofs.Kernel.Switches
import TrapKernel.Proofs.Process.RoundRobin

/-!
# Nobody is overtaken

Whatever makes the kernel switch to another process, it goes round the slots. A process that is ready while others are
chosen comes nearer with every switch, and no other slot is chosen twice before its turn.

* `Kernel.RoundRobin`: what is asked of some calls of the scheduler that pass over a process.
* `Kernel.trapsWith_roundRobin`: it holds in every run of the kernel.
-/

namespace TrapKernel.Kernel

open ProcessTable

variable {μ β σ φ : Type} {k : KernelState μ β σ φ}

/-- Whether some calls of the scheduler in a row go round the slots towards the slot `s`. -/
structure RoundRobin (s : Slot) (calls : List (KernelState μ β σ φ)) : Prop where
  /-- Every call switches to a slot from which it is less far to `s`. -/
  switches : ∀ k ∈ calls, ∃ next k', k.table.nextReady? = some next ∧ runNext k = .ok () k' ∧
    k'.table.current = next ∧ next.distance s < k.table.current.distance s
  /-- The slot that was switched to is the current one at the next call. -/
  isChain : calls.IsChain fun k k' => k.table.nextReady? = some k'.table.current
  nodup : (calls.map fun k => k.table.nextReady?).Nodup
  length_le : calls.length ≤ slotCount - 1

/-- The slot that the scheduler switches to stays the current one until the scheduler is called again. -/
private theorem Switches.choicesInARow {α : Type} {op : Run (KernelState μ β σ φ) α}
    {calls : List (KernelState μ β σ φ)} (h : Switches op k calls) : ChoicesInARow (calls.map KernelState.table) := by
  refine (List.isChain_map _).mpr ((Run.Records.isChain h).imp fun a b hab next hnext => ?_)
  obtain ⟨a', ha, htable⟩ := exists_runNext_eq hnext
  have hsame : NoneStarts (runNext.final a) b := hab
  rw [Run.final_of_ok ha] at hsame
  rw [hsame.current, htable, current_switchTo]

section Runs

variable [MemorySystem μ β] [FileSystem σ] [Firmware φ]

/-- In every run of the kernel some calls of the scheduler in a row, at each of which the process in a slot is ready and
is not chosen, go round the slots towards it. Every run has a recording of these calls, and none of them is left out:
what a recording leaves out starts no process, and every call of the scheduler that returns does. -/
theorem trapsWith_roundRobin (fs : List TrapFrame) (k : KernelState μ β σ φ) (s : Slot) :
    (∃ calls, Switches (trapsWith fs) k calls) ∧
      (∀ c c' : KernelState μ β σ φ, runNext c = .ok () c' → ¬ NoneStarts c c') ∧
      ∀ calls, Switches (trapsWith fs) k calls → ∀ stretch, stretch <:+: calls →
        (∀ c ∈ stretch, c.table.hasStatus s .ready = true ∧ c.table.nextReady? ≠ some s) → RoundRobin s stretch := by
  refine ⟨exists_switches fs k, fun c c' => not_noneStarts_of_runNext, fun calls hcalls stretch hstretch hover => ?_⟩
  have hrow : ChoicesInARow (stretch.map KernelState.table) := hcalls.choicesInARow.infix (hstretch.map _)
  have hpasses : ∀ t ∈ stretch.map KernelState.table, t.PassesOver s := by
    intro t ht
    obtain ⟨c, hc, rfl⟩ := List.mem_map.mp ht
    exact hover c hc
  have hnext : ∀ c ∈ stretch, ∃ next, c.table.nextReady? = some next ∧ next.distance s < c.table.current.distance s :=
    fun c hc => (hpasses _ (List.mem_map_of_mem hc)).exists_nextReady?
  refine ⟨fun c hc => ?switches, ?isChain, ?nodup, ?length_le⟩
  case switches =>
    obtain ⟨next, hchosen, hlt⟩ := hnext c hc
    obtain ⟨c', hc', htable⟩ := exists_runNext_eq hchosen
    exact ⟨next, c', hchosen, hc', by rw [htable, current_switchTo], hlt⟩
  case isChain =>
    refine ((List.isChain_map _).mp hrow).imp_of_mem_imp fun c c' hc _ hcc' => ?_
    obtain ⟨next, hchosen, -⟩ := hnext c hc
    rw [hchosen, hcc' next hchosen]
  case nodup =>
    have hnodup := nodup_nextReady? hrow hpasses
    rw [List.map_map] at hnodup
    exact hnodup
  case length_le => exact Nat.le_sub_one_of_lt (by simpa using length_lt_of_passesOver hrow hpasses)

/-! ### Time slices -/

attribute [local irreducible] addWords

omit [MemorySystem μ β] [FileSystem σ] [Firmware φ] in
private theorem currentProcess_eq {p : Process β} (hp : k.table.get k.table.current = some p) :
    currentProcess k = .ok p k :=
  ((ensures_currentProcess hp).mpr ⟨rfl, rfl⟩).eq_ok

omit [MemorySystem μ β] [FileSystem σ] [Firmware φ] in
private theorem table_of_modifyCurrent {g : Process β → Process β} {p : Process β} {k' : KernelState μ β σ φ}
    (hp : k.table.get k.table.current = some p) (hk : modifyCurrent g k = .ok () k') :
    k'.table = k.table.put k.table.current (some (g p)) := by
  have hends : (modifyCurrent g).Ensures k (fun _ k' => k'.table = k.table.put k.table.current (some (g p)))
      fun _ _ => False := (ensures_modifyCurrent hp).mpr rfl
  exact hends.of_ok hk

omit [MemorySystem μ β] [FileSystem σ] in
/-- When a time slice ends, the running process becomes ready and the scheduler is called once. -/
private theorem switches_handleTimer {k' : KernelState μ β σ φ} {p : Process β}
    (hp : k.table.get k.table.current = some p) (hk : handleTimer k = .ok () k') :
    ∃ c, Switches handleTimer k [c] ∧ c.table = k.table.put k.table.current (some { p with status := .ready }) := by
  have hsteps : (note (.timerInterrupt k.machine.microseconds) >>= fun _ => onMachine Machine.startSlice >>= fun _ =>
      suspendCurrent : Run (KernelState μ β σ φ) Unit) k = .ok () k' := hk
  obtain ⟨_, k₁, hnote, hsteps⟩ := Run.bind_eq_ok.mp hsteps
  obtain ⟨_, k₂, hslice, hsteps⟩ := Run.bind_eq_ok.mp hsteps
  obtain ⟨_, c, hready, -⟩ := Run.bind_eq_ok.mp hsteps
  have hk₁ : k₁.table = k.table := by cases hnote; rfl
  have hk₂ : k₂.table = k₁.table :=
    (ensures_onMachine.mpr (Run.ensures_iff.mpr ⟨fun _ _ _ => rfl, fun _ _ _ => rfl⟩) :
      (onMachine Machine.startSlice).Ensures k₁ (fun _ k' => k'.table = k₁.table) fun _ k' =>
        k'.table = k₁.table).of_ok hslice
  have htable := hk₂.trans hk₁
  refine ⟨c, ?_, ?_⟩
  · exact Run.respects_get.records_bind rfl ((noneStarts_allowsRoutine.note _).records_bind hnote
      ((noneStarts_allowsRoutine.onMachine _).records_bind hslice
      ((noneStarts_modifyCurrent (by exact fun _ h => absurd h (by simp))).records_bind hready (.call c))))
  · rw [← htable] at hp ⊢
    exact table_of_modifyCurrent hp hready

omit [Firmware φ] in
/-- When nothing is to be delivered, the delivery of signals does nothing. -/
private theorem handleSignals_of_nextSignal?_eq_none {p : Process β} (hp : k.table.get k.table.current = some p)
    (hnone : p.nextSignal? = none) : Switches handleSignals k [] ∧ handleSignals k = .ok () k := by
  have hdeliver : Switches deliverSignal k [] ∧ deliverSignal k = .ok false k := by
    constructor
    · refine respects_currentProcess.records_bind (currentProcess_eq hp) ?_
      rw [hnone]
      exact .part (Run.respects_pure _) k
    · refine Run.bind_eq_ok.mpr ⟨p, k, currentProcess_eq hp, ?_⟩
      rw [hnone]
      rfl
  obtain ⟨n, hn⟩ : ∃ n, signalBound k.table = n + 1 :=
    Nat.exists_eq_add_one.mpr (Nat.mul_pos (Nat.succ_pos _) (Nat.succ_pos _))
  constructor
  · refine Run.respects_get.records_bind rfl ?_
    rw [hn]
    exact hdeliver.1.bind hdeliver.2 (.part (Run.respects_pure ()) k)
  · refine Run.bind_eq_ok.mpr ⟨k, k, rfl, ?_⟩
    rw [hn]
    exact Run.bind_eq_ok.mpr ⟨false, k, hdeliver.2, rfl⟩

/-- When a time slice ends, the running process becomes ready and the scheduler is called once, if no signal is to be
delivered to the process that runs on. -/
private theorem switches_timer {f : TrapFrame} {k' : KernelState μ β σ φ} {p q : Process β}
    (hcause : TrapCause.ofWord f.scause = .timer) (hp : k.table.get k.table.current = some p)
    (hserve : serve f k = .ok () k') (hq : k'.table.get k'.table.current = some q) (hnone : q.nextSignal? = none) :
    ∃ c, Switches (trapWith f) k [c] ∧ trapWith f k = .ok () k' ∧
      c.table = k.table.put k.table.current (some { p with frame := f, status := .ready }) := by
  have htimer : (handleCause f : Run (KernelState μ β σ φ) Unit) = handleTimer := by unfold handleCause; rw [hcause]
  obtain ⟨hsignals, hdone⟩ := handleSignals_of_nextSignal?_eq_none hq hnone
  unfold serve at hserve
  obtain ⟨_, k₁, hframe, hhandle⟩ := Run.bind_eq_ok.mp hserve
  have hk₁ := table_of_modifyCurrent hp hframe
  have hp₁ : k₁.table.get k₁.table.current = some { p with frame := f } := by rw [hk₁]; exact get_put_self _ _ _
  obtain ⟨c, hswitches, hc⟩ := switches_handleTimer hp₁ (htimer ▸ hhandle)
  refine ⟨c, ?_, ?_, ?_⟩
  · have hhandled : Switches (handleCause f) k₁ [c] := by rw [htimer]; exact hswitches
    have hrest : Switches (handleCause f >>= fun _ => handleSignals) k₁ ([c] ++ []) := hhandled.bind hhandle hsignals
    exact (noneStarts_modifyCurrent (by exact fun _ h => h)).records_bind hframe
      (respects_currentProcess.records_bind (currentProcess_eq hp₁) hrest)
  · refine Run.bind_eq_ok.mpr ⟨(), k₁, hframe, Run.bind_eq_ok.mpr ⟨_, k₁, currentProcess_eq hp₁, ?_⟩⟩
    exact Run.bind_eq_ok.mpr ⟨(), k', hhandle, hdone⟩
  · rw [hc, hk₁, current_put, put_put]

end Runs

/-- Three children of the first process. -/
def forkFrames : List TrapFrame := List.replicate 3 (callFrame .fork 0 0 0)

/-- The registers of a process that is interrupted by the timer; the others are zero. -/
def timerFrame : TrapFrame := { TrapFrame.zero with scause := TrapCause.timerWord }

/-- Whether the time slice of the running process ends without a signal to deliver, and the process in a slot is passed
over. The answer is the state that comes next. -/
private def sliceEnds (s : Slot) (k : Kernel EmptyFiles Bench.BenchFirmware) :
    Option (Kernel EmptyFiles Bench.BenchFirmware) :=
  match k.table.get k.table.current, serve timerFrame k with
  | some p, .ok () k' =>
    match k'.table.get k'.table.current with
    | some q =>
      if (k.table.put k.table.current (some { p with frame := timerFrame, status := .ready })).PassesOver s ∧
          q.nextSignal? = none then some k'
      else none
    | none => none
  | _, _ => none

private theorem switches_of_sliceEnds {s : Slot} {k k' : Kernel EmptyFiles Bench.BenchFirmware}
    (h : sliceEnds s k = some k') : ∃ c, Switches (trapWith timerFrame) k [c] ∧ trapWith timerFrame k = .ok () k' ∧
      c.table.PassesOver s := by
  unfold sliceEnds at h
  split at h
  next p k₁ hp hserve =>
    split at h
    next q hq =>
      split at h
      next hslice =>
        cases h
        obtain ⟨c, hswitches, htrap, hc⟩ := switches_timer (by decide) hp hserve hq hslice.2
        exact ⟨c, hswitches, htrap, hc ▸ hslice.1⟩
      · exact absurd h (by simp)
    · exact absurd h (by simp)
  · exact absurd h (by simp)

/-- Two time slices end, after which the process in slot 3 has come nearer by two slots. -/
theorem trapsWith_roundRobin_two : ∃ (k₀ k c c' : Kernel EmptyFiles Bench.BenchFirmware), benchStart = .ok k₀ ∧
    Reachable k₀ k ∧ Switches (trapsWith [timerFrame, timerFrame]) k [c, c'] ∧
      (∀ d ∈ [c, c'], d.table.hasStatus 3 .ready = true ∧ d.table.nextReady? ≠ some 3) ∧ RoundRobin 3 [c, c'] := by
  obtain ⟨k₀, k, hk₀, hk, htest⟩ := exists_of_benchRun (show benchRun forkFrames
    (fun k => ((sliceEnds 3 k).bind (sliceEnds 3)).isSome) = true by decide +kernel)
  obtain ⟨k₂, hk₂⟩ := Option.isSome_iff_exists.mp htest
  obtain ⟨k₁, hk₁, hk₂⟩ := Option.bind_eq_some_iff.mp hk₂
  obtain ⟨c, hc, htrap, hover⟩ := switches_of_sliceEnds hk₁
  obtain ⟨c', hc', htrap', hover'⟩ := switches_of_sliceEnds hk₂
  have hswitches : Switches (trapsWith [timerFrame, timerFrame]) k ([c] ++ ([c'] ++ [])) :=
    hc.bind htrap (hc'.bind htrap' (.part (Run.respects_pure ()) k₂))
  have hpasses : ∀ d ∈ [c, c'], d.table.hasStatus 3 .ready = true ∧ d.table.nextReady? ≠ some 3 := by
    simpa using ⟨hover, hover'⟩
  exact ⟨k₀, k, c, c', hk₀, hk, hswitches, hpasses,
    (trapsWith_roundRobin _ k 3).2.2 _ hswitches _ (List.infix_refl _) hpasses⟩

end TrapKernel.Kernel
