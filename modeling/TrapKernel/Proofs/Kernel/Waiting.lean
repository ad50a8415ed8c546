import TrapKernel.Proofs.Kernel.Effects
import TrapKernel.Proofs.Kernel.Reachable
import TrapKernel.Proofs.Process.Waiting

/-!
# Blocked processes

A blocked process has trapped to wait for a child, and from then on nothing has happened to it. So its registers ask
for the same call again, and no child that it waits for has exited; and it has a signal that could be delivered only if
it had that signal when it began to wait, while a signal handler ran.

* `Kernel.Reachable.exists_wait_of_blocked`: the trap from which on a process is blocked.
* `Kernel.Reachable.waits_of_blocked`: it waits for a child that has not exited.
* `Kernel.Reachable.nextSignal?_of_blocked`: the signals that it sleeps on.
-/

namespace TrapKernel

/-- Whether no signal can be delivered to the process, unless one of its handlers runs. -/
def Process.Quiet {β : Type} (p : Process β) : Prop := p.interrupted = none → p.nextSignal? = none

namespace ProcessTable

variable {β μ : Type} [MemorySystem μ β] {t u : ProcessTable β}

/-- After the delivery of signals the process that runs on has none left that could be delivered, unless it has just
entered a handler. -/
theorem Settles.current (h : t.Settles μ u) : ∃ p, u.get u.current = some p ∧ p.Quiet := by
  induction h with
  | stop h =>
    cases h with
    | done hp hnone => exact ⟨_, hp, fun _ => hnone⟩
    | enter hp _ _ => exact ⟨_, get_put_self _ _ _, fun hnone => absurd hnone (by simp [Process.enterHandler])⟩
  | more _ _ ih => exact ih

end ProcessTable

namespace Kernel

open ProcessTable

variable {σ φ : Type} [FileSystem σ] [Firmware φ] {entry stackPointer heapStart : UInt64} {memory : PhysicalMemory}
  {files : σ} {firmware : φ} {logLimit : Option LogLevel} {k₀ k : Kernel σ φ} {s : Slot} {p : Process AddressSpace}

private theorem Reachable.patient (hboot : boot entry stackPointer heapStart memory files firmware logLimit = .ok k₀)
    (h : Reachable k₀ k) : k.table.Patient :=
  h.invariant hboot (fun _ s p hp hb => by simp [(get_initial_eq_some hp).2, Process.initial] at hb)
    fun _ _ _ hforest hr htraps hpatient => htraps.patient hpatient hforest hr

private theorem Reachable.current_quiet
    (hboot : boot entry stackPointer heapStart memory files firmware logLimit = .ok k₀)
    (h : Reachable k₀ k) : ∃ p, k.table.get k.table.current = some p ∧ p.Quiet := by
  refine h.invariant hboot (P := fun t => ∃ p, t.get t.current = some p ∧ p.Quiet) (fun space => ?_)
    fun _ _ _ _ _ ⟨_, _, _, _, hsettles⟩ _ => hsettles.current
  refine ⟨.initial entry stackPointer heapStart space, by rw [get_initial]; rfl, fun _ => ?_⟩
  exact List.find?_eq_none.mpr fun n _ => by simp [Process.canDeliver, Process.initial]

/-- A blocked process has trapped to wait, and since then at most its parent has changed. -/
theorem Reachable.exists_wait_of_blocked
    (hboot : boot entry stackPointer heapStart memory files firmware logLimit = .ok k₀) (h : Reachable k₀ k)
    (hp : k.table.get s = some p) (hb : p.status = .blocked) :
    ∃ k₁ k₂ p₁, Reachable k₀ k₁ ∧ k₁.table.current = s ∧ k₁.table.get s = some p₁ ∧
      trapWith p.frame k₁ = .ok () k₂ ∧ Reachable k₂ k ∧ p.frame.Asks .wait ∧
      p = { p₁ with frame := p.frame, status := .blocked, parent := p.parent } := by
  induction h generalizing p with
  | start =>
    obtain ⟨space, htable⟩ := table_of_boot hboot
    rw [htable] at hp
    simp [(get_initial_eq_some hp).2, Process.initial] at hb
  | @trap k k' h f hk ih =>
    obtain ⟨hforest, hr⟩ := h.table_forest hboot
    have htraps := (trapWith_traps PhysicalMemory.neverIdle f hforest hr).of_ok hk
    obtain ⟨q, hq, hcases⟩ := htraps.blocked hforest hr hp hb
    -- either it was blocked before this trap already, or this is the trap that made it wait
    rcases hcases with ⟨hqb, heq⟩ | ⟨hs, hasks, heq⟩
    · obtain ⟨k₁, k₂, p₁, hk₁, hcurrent, hp₁, hk₂, hreach, hasks, heq₁⟩ := ih hq hqb
      have hframe : p.frame = q.frame := by rw [heq]
      refine ⟨k₁, k₂, p₁, hk₁, hcurrent, hp₁, hframe ▸ hk₂, hreach.trap f hk, hframe ▸ hasks, ?_⟩
      rw [hframe, heq, heq₁]
    · have hframe : p.frame = f := by rw [heq]
      exact ⟨k, k', q, h, hs.symm, hq, hframe ▸ hk, .start, hframe ▸ hasks, hframe ▸ heq⟩

/-! ### The call that is made again -/

/-- A blocked process has the registers with which it once trapped to wait, so it makes the same call again when it goes
on. It has a child that the call waits for, and no such child has exited. -/
theorem Reachable.waits_of_blocked (hboot : boot entry stackPointer heapStart memory files firmware logLimit = .ok k₀)
    (h : Reachable k₀ k) (hp : k.table.get s = some p) (hb : p.status = .blocked) :
    (∃ k₁ k₂ p₁, Reachable k₀ k₁ ∧ k₁.table.current = s ∧ k₁.table.get s = some p₁ ∧ p₁.pid = p.pid ∧
      trapWith p.frame k₁ = .ok () k₂ ∧ Reachable k₂ k) ∧
    TrapCause.ofWord p.frame.scause = .systemCall ∧ p.frame.callNumber = 17 ∧
    (∃ c q, k.table.get c = some q ∧ q.parent = some s ∧ (WaitTarget.ofWord p.frame.a0).accepts q = true) ∧
    ∀ c q, k.table.get c = some q → q.parent = some s → (WaitTarget.ofWord p.frame.a0).accepts q = true →
      q.status ≠ .zombie := by
  obtain ⟨k₁, k₂, p₁, hk₁, hcurrent, hp₁, hk₂, hreach, hasks, heq⟩ := h.exists_wait_of_blocked hboot hp hb
  have hawaits := h.patient hboot s p hp hb
  refine ⟨⟨k₁, k₂, p₁, hk₁, hcurrent, hp₁, by rw [heq], hk₂, hreach⟩, hasks.1, UInt64.toNat_inj.mp hasks.callNumber_eq,
    hawaits.some_child, fun c q hq hparent haccepts => ?_⟩
  exact Process.isZombie_eq_false_iff.mp (hawaits.none_exited c q hq hparent haccepts)

/-- The first process waits for its child. -/
theorem waits_of_blocked_fork : ∃ (k₀ k : Kernel EmptyFiles Bench.BenchFirmware) (p : Process AddressSpace),
    benchStart = .ok k₀ ∧ Reachable k₀ k ∧ k.table.get .init = some p ∧ p.status = .blocked ∧
      p.frame.callNumber = 17 := by
  obtain ⟨k₀, k, hk₀, hk, htest⟩ := exists_of_benchRun
    (show benchRun [callFrame .fork 0 0 0, callFrame .wait 0xFFFFFFFFFFFFFFFF 0 0]
      (fun k => k.table.hasStatus .init .blocked) = true by decide +kernel)
  obtain ⟨p, hp, hb⟩ := hasStatus_iff.mp htest
  exact ⟨k₀, k, p, hk₀, hk, hp, hb, (hk.waits_of_blocked hk₀ hp hb).2.2.1⟩

/-! ### Signals that a process sleeps on -/

/-- A blocked process has no signal that could be delivered, unless one of its handlers runs. It has one exactly if it
had that signal already at the trap from which on it waits, since a signal that is sent later wakes it up. -/
theorem Reachable.nextSignal?_of_blocked
    (hboot : boot entry stackPointer heapStart memory files firmware logLimit = .ok k₀) (h : Reachable k₀ k)
    (hp : k.table.get s = some p) (hb : p.status = .blocked) :
    (p.interrupted = none → p.nextSignal? = none) ∧
    ∃ k₁ k₂ p₁, Reachable k₀ k₁ ∧ k₁.table.current = s ∧ k₁.table.get s = some p₁ ∧
      trapWith p.frame k₁ = .ok () k₂ ∧ Reachable k₂ k ∧ p.frame.Asks .wait ∧ p₁.pending = p.pending ∧
      p₁.interrupted = p.interrupted ∧ p₁.nextSignal? = p.nextSignal? := by
  obtain ⟨k₁, k₂, p₁, hk₁, hcurrent, hp₁, hk₂, hreach, hasks, heq⟩ := h.exists_wait_of_blocked hboot hp hb
  obtain ⟨q, hq, hquiet⟩ := hk₁.current_quiet hboot
  rw [hcurrent, hp₁] at hq
  obtain rfl := Option.some.inj hq
  have hnext : p₁.nextSignal? = p.nextSignal? := by rw [heq]; rfl
  have hinterrupted : p₁.interrupted = p.interrupted := by rw [heq]
  refine ⟨fun hnone => ?_, k₁, k₂, p₁, hk₁, hcurrent, hp₁, hk₂, hreach, hasks, by rw [heq], hinterrupted, hnext⟩
  exact hnext ▸ hquiet (hinterrupted.trans hnone)

/-- The first process installs a handler for signal 2 and forks a process, which forks another one; that sends its
parent the signals 2 and 9. The parent enters the handler, in which it waits for the one that sent the signals. -/
def sleepFrames : List TrapFrame :=
  [callFrame .fork 0 0 0, callFrame .yield 0 0 0, callFrame .exit 0x2000 0 0, callFrame .wait 1 0x3FFFE000 0,
    callFrame .signalAction 2 0x3FFFE000 0, callFrame .fork 0 0 0, callFrame .yield 0 0 0, callFrame .fork 0 0 0,
    callFrame .yield 0 0 0, callFrame .kill 2 2 0, callFrame .kill 2 9 0, callFrame .yield 0 0 0,
    callFrame .yield 0 0 0, callFrame .wait 0xFFFFFFFFFFFFFFFF 0 0]

private theorem benchRun_sleep : benchRun sleepFrames (fun k =>
    match k.table.get 1 with
    | some p => p.status = .blocked ∧ p.nextSignal? = some sigKill
    | none => false) = true := by
  decide +kernel

private theorem exists_sleeper : ∃ (k₀ k : Kernel EmptyFiles Bench.BenchFirmware) (p : Process AddressSpace),
    benchStart = .ok k₀ ∧ Reachable k₀ k ∧ k.table.get 1 = some p ∧ p.status = .blocked ∧
      p.nextSignal? = some sigKill := by
  obtain ⟨k₀, k, hk₀, hk, htest⟩ := exists_of_benchRun benchRun_sleep
  split at htest
  next p hp => exact ⟨k₀, k, p, hk₀, hk, hp, by simpa using htest⟩
  · exact absurd htest (by simp)

/-- A process may sleep on the signal that nobody can hold off. -/
theorem exists_blocked_sigKill : ∃ (k₀ k : Kernel EmptyFiles Bench.BenchFirmware) (p : Process AddressSpace),
    benchStart = .ok k₀ ∧ Reachable k₀ k ∧ k.table.get 1 = some p ∧ p.status = .blocked ∧
      p.nextSignal? = some sigKill :=
  exists_sleeper

/-- It had the signal already when it began to wait. -/
theorem nextSignal?_of_blocked_sigKill : ∃ (k₀ k₁ : Kernel EmptyFiles Bench.BenchFirmware)
    (p₁ : Process AddressSpace), benchStart = .ok k₀ ∧ Reachable k₀ k₁ ∧ k₁.table.current = 1 ∧
      k₁.table.get 1 = some p₁ ∧ p₁.nextSignal? = some sigKill := by
  obtain ⟨k₀, k, p, hk₀, hk, hp, hb, hnext⟩ := exists_sleeper
  obtain ⟨-, k₁, -, p₁, hk₁, hcurrent, hp₁, -, -, -, -, -, heq⟩ := hk.nextSignal?_of_blocked hk₀ hp hb
  exact ⟨k₀, k₁, p₁, hk₀, hk₁, hcurrent, hp₁, heq.trans hnext⟩

end Kernel

end TrapKernel
