import TrapKernel.Proofs.Kernel.Services

/-!
# All switches are made by the scheduler

The kernel makes another process run in one way only, `Kernel.runNext`. Whatever else it does, the current slot stays
the same and no process starts to run. So a run of the kernel has a recording of the states in which the scheduler was
called, and nothing that the recording leaves out is a switch.

* `Kernel.NoneStarts`: the current slot is the same and nobody has started to run.
* `Kernel.Switches`: the states in which the scheduler was called.
* `Kernel.not_noneStarts_of_runNext`: a switch is never among what a recording leaves out.
* `Kernel.exists_switches`: all runs are recorded, whatever traps come.
-/

namespace TrapKernel

variable {β : Type}

namespace ProcessTable

variable {t u : ProcessTable β} {s : Slot}

/-- Whether the current slot is the same in two tables, and all who run in the second one run in the first. -/
structure NoneStarts (t u : ProcessTable β) : Prop where
  current : u.current = t.current
  running : ∀ s q, u.get s = some q → q.status = .running → ∃ p, t.get s = some p ∧ p.status = .running

private theorem NoneStarts.trans {v : ProcessTable β} (h : t.NoneStarts u) (h' : u.NoneStarts v) : t.NoneStarts v where
  current := h'.current.trans h.current
  running s q hq hrunning := by
    obtain ⟨p, hp, hp'⟩ := h'.running s q hq hrunning
    exact h.running s p hp hp'

private theorem NoneStarts.of_get (hcurrent : u.current = t.current) (hget : ∀ s, u.get s = t.get s) : t.NoneStarts u :=
  ⟨hcurrent, fun s q hq hrunning => ⟨q, hget s ▸ hq, hrunning⟩⟩

private theorem NoneStarts.rfl : t.NoneStarts t := .of_get (by rfl) fun _ => by rfl

private theorem NoneStarts.of_map {f : Slot → Process β → Process β} (hcurrent : u.current = t.current)
    (hget : ∀ s, u.get s = (t.get s).map (f s)) (hf : ∀ s p, (f s p).status = .running → p.status = .running) :
    t.NoneStarts u := by
  refine ⟨hcurrent, fun s q hq hrunning => ?_⟩
  rw [hget] at hq
  obtain ⟨p, hp, rfl⟩ := Option.map_eq_some_iff.mp hq
  exact ⟨p, hp, hf s p hrunning⟩

private theorem NoneStarts.put (t : ProcessTable β) (s : Slot) {p : Option (Process β)}
    (h : ∀ q, p = some q → q.status = .running → ∃ p, t.get s = some p ∧ p.status = .running) :
    t.NoneStarts (t.put s p) := by
  refine ⟨by rfl, fun s' q hq hrunning => ?_⟩
  rw [get_put] at hq
  split at hq
  next heq => exact heq ▸ h q hq hrunning
  · exact ⟨q, hq, hrunning⟩

private theorem NoneStarts.modifyAt (t : ProcessTable β) (s : Slot) {f : Process β → Process β}
    (hf : ∀ p, (f p).status = .running → p.status = .running) : t.NoneStarts (t.modifyAt s f) := by
  refine .put t s fun q hq hrunning => ?_
  obtain ⟨p, hp, rfl⟩ := Option.map_eq_some_iff.mp hq
  exact ⟨p, hp, hf p hrunning⟩

private theorem running_of_wake {p : Process β} (h : p.wake.status = .running) : p.status = .running := by
  rw [Process.wake_status] at h
  split at h
  · exact absurd h (by decide)
  · exact h

private theorem NoneStarts.reparent (t : ProcessTable β) (s : Slot) : t.NoneStarts (t.reparent s) := by
  refine .of_map (current_reparent s) (t.get_reparent s) fun c p hrunning => ?_
  unfold adopt at hrunning
  split at hrunning
  · exact Process.disown_status s p ▸ running_of_wake hrunning
  · exact Process.disown_status s p ▸ hrunning

end ProcessTable

namespace Kernel

open ProcessTable

variable {μ σ φ α : Type} {k k' : KernelState μ β σ φ}

/-- Whether the current slot is the same in two states, and all who run in the second one run in the first. -/
def NoneStarts (k k' : KernelState μ β σ φ) : Prop := k.table.NoneStarts k'.table

instance : IsPreorder (KernelState μ β σ φ) NoneStarts where
  refl _ := ProcessTable.NoneStarts.rfl
  trans _ _ _ h h' := ProcessTable.NoneStarts.trans h h'

/-- The states in which a computation that is run from `k` calls the scheduler, in their order. -/
abbrev Switches (op : Run (KernelState μ β σ φ) α) (k : KernelState μ β σ φ) (calls : List (KernelState μ β σ φ)) :
    Prop :=
  Run.Records NoneStarts runNext op k calls

/-- The scheduler switches to the slot that it chooses. -/
theorem exists_runNext_eq {next : Slot} (hnext : k.table.nextReady? = some next) :
    ∃ k', runNext k = .ok () k' ∧ k'.table = k.table.switchTo next := by
  have hends : runNext.Ensures k (fun _ k' => k'.table = k.table.switchTo next) fun _ _ => False := by
    unfold runNext
    simp only [Run.ensures_bind, Run.ensures_get, hnext, ensures_modifyTable]
    split
    · simp only [Run.ensures_bind, ensures_note, ensures_modifyTable]
      rfl
    · rfl
  cases hk : runNext k with
  | ok _ k' => exact ⟨k', rfl, hends.of_ok hk⟩
  | error p k' => exact (hends.of_error hk).elim

/-- Every switch makes a process run that did not run before, so no recording leaves one out. -/
theorem not_noneStarts_of_runNext (hk : runNext k = .ok () k') : ¬ NoneStarts k k' := by
  intro hnone
  cases hnext : k.table.nextReady? with
  | none =>
    have hstops : runNext.Ensures k (fun _ _ => False) fun _ _ => True := by
      unfold runNext
      simp only [Run.ensures_bind, Run.ensures_get, hnext, Run.ensures_crash]
    exact hstops.of_ok hk
  | some next =>
    obtain ⟨k₁, hk₁, htable⟩ := exists_runNext_eq hnext
    cases hk.symm.trans hk₁
    obtain ⟨p, hp, hready⟩ := nextReady?_eq_some hnext
    have hstarted : k'.table.get next = some { p with status := .running } := by
      rw [htable, get_switchTo, if_pos rfl, hp]
      rfl
    obtain ⟨q, hq, hrunning⟩ := hnone.running next _ hstarted rfl
    cases hp.symm.trans hq
    exact absurd (hready.symm.trans hrunning) (by decide)

/-! ### Nobody starts to run -/

private theorem noneStarts_of_eq (h : k'.table = k.table) : NoneStarts k k' := by
  unfold NoneStarts
  rw [h]
  exact .rfl

theorem noneStarts_allowsRoutine :
    AllowsRoutine Access.Anything (NoneStarts : KernelState μ β σ φ → KernelState μ β σ φ → Prop) where
  memory _ _ := noneStarts_of_eq rfl
  machine _ _ := noneStarts_of_eq rfl
  log _ _ := noneStarts_of_eq rfl
  volume _ _ _ := noneStarts_of_eq rfl
  put k s p _ hp _ hstatus _ := NoneStarts.put k.table s fun q hq hrunning => ⟨p, hp, by cases hq; exact hstatus ▸ hrunning⟩
  store k s p _ hp _ := NoneStarts.put k.table s fun q hq hrunning => ⟨p, hp, by cases hq; exact hrunning⟩
  wake k s := NoneStarts.modifyAt k.table s fun _ => running_of_wake

theorem noneStarts_modifyCurrent {f : Process β → Process β} (hf : ∀ p, (f p).status = .running → p.status = .running) :
    (modifyCurrent f : Run (KernelState μ β σ φ) Unit).Respects NoneStarts :=
  respects_modifyCurrent fun k p hp =>
    NoneStarts.put k.table _ fun q hq hrunning => ⟨p, hp, hf p (by cases hq; exact hrunning)⟩

variable [MemorySystem μ β]

/-- Nothing but a switch makes a process run: one that exits is a zombie, and one that is created is ready. -/
private theorem noneStarts_allowsServices :
    AllowsServices Access.Anything (NoneStarts : KernelState μ β σ φ → KernelState μ β σ φ → Prop) where
  toAllowsRoutine := noneStarts_allowsRoutine
  anyVolume _ _ := noneStarts_of_eq rfl
  edit k s p _ hp hstatus _ := NoneStarts.put k.table s fun q hq hrunning => ⟨p, hp, hstatus (by cases hq; exact hrunning)⟩
  remove k s := NoneStarts.put k.table s fun q hq _ => absurd hq (by simp)
  reparent k s := NoneStarts.reparent k.table s
  allocPid _ := NoneStarts.of_get rfl fun s => get_allocPid _ s
  born k s _ q _ _ _ _ hready _ := NoneStarts.put k.table s fun q' hq hrunning => by
    cases hq
    exact absurd (hready.symm.trans hrunning) (by decide)

/-- The calls of the scheduler are recorded in every run of the kernel, whatever traps come. -/
theorem exists_switches [FileSystem σ] [Firmware φ] (fs : List TrapFrame) (k : KernelState μ β σ φ) :
    ∃ calls, Switches (trapsWith fs) k calls :=
  (noneStarts_allowsServices.recorded_trapsWith fs).exists_records k

end Kernel

end TrapKernel
