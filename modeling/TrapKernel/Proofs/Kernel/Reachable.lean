import TrapKernel.Bench.BenchFirmware
import TrapKernel.Proofs.Kernel.Effects

/-!
# Reachable states

A state of the kernel is reachable if traps lead to it from the start. Before each trap the running process may put
anything into its registers.

* `Kernel.trapWith_ne_noReadyProcess`: a trap never stops because no process is ready.
* `Kernel.Reachable.table_wellFormed`: between two traps the process table is well-formed.
-/

namespace TrapKernel

/-- Whether the process table is in order. The processes form a tree below the first one, whose inner nodes have not
exited, and the process in the current slot alone is running. -/
structure ProcessTable.WellFormed (t : ProcessTable) : Prop where
  init : ∃ p, t.get .init = some p ∧ p.pid = 0 ∧ p.parent = none ∧ p.status ≠ .zombie
  current : ∃ p, t.get t.current = some p
  running : ∀ s p, t.get s = some p → (p.status = .running ↔ s = t.current)
  pid_injective : ∀ s s' p p', t.get s = some p → t.get s' = some p' → p.pid = p'.pid → s = s'
  pid_eq_zero : ∀ s p, t.get s = some p → (p.pid = 0 ↔ s = .init)
  parent : ∀ s p, t.get s = some p → s ≠ .init →
    ∃ s' p', p.parent = some s' ∧ t.get s' = some p' ∧ p'.status ≠ .zombie
  /-- Whoever goes from parent to parent comes to the first process. -/
  ancestor : ∀ s p, t.get s = some p →
    Relation.ReflTransGen (fun s s' => ∃ p, t.get s = some p ∧ p.parent = some s') s .init
  zombie : ∀ s p, t.get s = some p → p.status = .zombie → t.children s = [] ∧
    (∀ fd, p.descriptors.file? fd = none) ∧ p.memory.space.pages.isEmpty ∧ p.pending = .empty ∧ p.interrupted = none

namespace Kernel

section Runs

variable {μ β σ φ : Type} [MemorySystem μ β] [FileSystem σ] [Firmware φ]

/-- The states between two traps, from the state `k₀` on. -/
inductive Reachable (k₀ : KernelState μ β σ φ) : KernelState μ β σ φ → Prop
  | start : Reachable k₀ k₀
  | trap {k k' : KernelState μ β σ φ} (h : Reachable k₀ k) (f : TrapFrame) (hk : trapWith f k = .ok () k') :
      Reachable k₀ k'

/-- One trap after the other. -/
def trapsWith : List TrapFrame → Run (KernelState μ β σ φ) Unit
  | [] => return ()
  | f :: rest => do
    trapWith f
    trapsWith rest

theorem Reachable.trapsWith {k₀ k : KernelState μ β σ φ} (h : Reachable k₀ k) (fs : List TrapFrame) :
    (trapsWith fs).Ensures k (fun _ k' => Reachable k₀ k') fun _ _ => True := by
  induction fs generalizing k with
  | nil => exact h
  | cons f rest ih =>
    unfold Kernel.trapsWith
    rw [Run.ensures_bind, Run.ensures_iff]
    exact ⟨fun _ k₁ hf => ih (h.trap f hf), fun _ _ _ => trivial⟩

omit [FileSystem σ] [Firmware φ] in
/-- At the start there is the first process only. -/
theorem table_of_boot {entry stackPointer heapStart : UInt64} {memory : μ} {files : σ} {firmware : φ}
    {logLimit : Option LogLevel} {k₀ : KernelState μ β σ φ}
    (hboot : boot entry stackPointer heapStart memory files firmware logLimit = .ok k₀) :
    ∃ space, k₀.table = .initial (.initial entry stackPointer heapStart space) := by
  unfold boot at hboot
  split at hboot
  next space _ _ => exact ⟨space, by rw [← Except.ok.inj hboot]⟩
  · exact absurd hboot (by simp)

omit [FileSystem σ] [Firmware φ] in
/-- At the start the first process is running, and it is the only one. -/
theorem forest_of_boot {entry stackPointer heapStart : UInt64} {memory : μ} {files : σ} {firmware : φ}
    {logLimit : Option LogLevel} {k₀ : KernelState μ β σ φ}
    (hboot : boot entry stackPointer heapStart memory files firmware logLimit = .ok k₀) :
    k₀.table.Forest μ ∧ k₀.table.Running := by
  obtain ⟨space, htable⟩ := table_of_boot hboot
  exact htable ▸ ProcessTable.forest_initial entry stackPointer heapStart space

end Runs

variable {σ φ : Type} [FileSystem σ] [Firmware φ] {entry stackPointer heapStart : UInt64} {memory : PhysicalMemory}
  {files : σ} {firmware : φ} {logLimit : Option LogLevel} {k₀ k : Kernel σ φ}

/-- The processes form a tree below the first one, and one of them is running. -/
theorem Reachable.table_forest (hboot : boot entry stackPointer heapStart memory files firmware logLimit = .ok k₀)
    (h : Reachable k₀ k) : k.table.Forest PhysicalMemory ∧ k.table.Running := by
  induction h with
  | start => exact forest_of_boot hboot
  | trap _ f hk ih =>
    have htraps := (trapWith_traps PhysicalMemory.neverIdle f ih.1 ih.2).of_ok hk
    exact ProcessTable.forest_of_moves (htraps.moves ih.1 ih.2) ih.1 ih.2

theorem Reachable.traps (hboot : boot entry stackPointer heapStart memory files firmware logLimit = .ok k₀)
    (h : Reachable k₀ k) {f : TrapFrame} {k' : Kernel σ φ} (hk : trapWith f k = .ok () k') :
    k.table.Traps PhysicalMemory f k'.table := by
  obtain ⟨hforest, hr⟩ := h.table_forest hboot
  exact (trapWith_traps PhysicalMemory.neverIdle f hforest hr).of_ok hk

/-- What holds of the table with the first process only and what every trap keeps holds in all reachable states. -/
theorem Reachable.invariant {P : ProcessTable → Prop}
    (hboot : boot entry stackPointer heapStart memory files firmware logLimit = .ok k₀)
    (hstart : ∀ space, P (.initial (.initial entry stackPointer heapStart space)))
    (htrap : ∀ t u f, t.Forest PhysicalMemory → t.Running → t.Traps PhysicalMemory f u → P t → P u)
    (h : Reachable k₀ k) : P k.table := by
  induction h with
  | start =>
    obtain ⟨space, htable⟩ := table_of_boot hboot
    exact htable ▸ hstart space
  | trap h f hk ih =>
    obtain ⟨hforest, hr⟩ := h.table_forest hboot
    exact htrap _ _ f hforest hr (h.traps hboot hk) ih

/-! ### Runs on fixed inputs -/

/-- The registers of a process that makes a system call with three arguments; the others are zero. -/
def callFrame (call : SystemCall) (a0 a1 a2 : UInt64) : TrapFrame :=
  { TrapFrame.zero with
    registers := .ofFn fun i =>
      if i.val = 10 then a0 else if i.val = 11 then a1 else if i.val = 12 then a2
      else if i.val = 17 then UInt64.ofNat call.number else 0
    scause := TrapCause.systemCallWord }

/-- The bench kernel at its start: no files, and 256 free frames. -/
def benchStart : Except Errno (Kernel EmptyFiles Bench.BenchFirmware) :=
  boot 0x1000 0x40000000 0x10000000 (.ofPages 0x80600 0x80700) .empty {} none

/-- Whether some traps lead from a start to a state that passes a test. -/
def runFrom (start : Except Errno (Kernel EmptyFiles Bench.BenchFirmware)) (fs : List TrapFrame)
    (test : Kernel EmptyFiles Bench.BenchFirmware → Bool) : Bool :=
  match start with
  | .error _ => false
  | .ok k =>
    match trapsWith fs k with
    | .ok _ k => test k
    | .error _ _ => false

theorem exists_of_runFrom {start : Except Errno (Kernel EmptyFiles Bench.BenchFirmware)} {fs : List TrapFrame}
    {test : Kernel EmptyFiles Bench.BenchFirmware → Bool} (h : runFrom start fs test = true) :
    ∃ k₀ k, start = .ok k₀ ∧ Reachable k₀ k ∧ test k = true := by
  unfold runFrom at h
  split at h
  · exact absurd h (by simp)
  next k₀ =>
    split at h
    next k hk => exact ⟨k₀, k, rfl, (Reachable.start.trapsWith fs).of_ok hk, h⟩
    · exact absurd h (by simp)

/-- Whether some traps lead the bench kernel to a state that passes a test. -/
def benchRun (fs : List TrapFrame) (test : Kernel EmptyFiles Bench.BenchFirmware → Bool) : Bool :=
  runFrom benchStart fs test

theorem exists_of_benchRun {fs : List TrapFrame} {test : Kernel EmptyFiles Bench.BenchFirmware → Bool}
    (h : benchRun fs test = true) : ∃ k₀ k, benchStart = .ok k₀ ∧ Reachable k₀ k ∧ test k = true :=
  exists_of_runFrom h

/-! ### The scheduler -/

/-- A trap never stops because no process is ready, whatever the registers of the process that traps are. -/
theorem trapWith_ne_noReadyProcess
    (hboot : boot entry stackPointer heapStart memory files firmware logLimit = .ok k₀) (h : Reachable k₀ k)
    (f : TrapFrame) (k' : Kernel σ φ) : trapWith f k ≠ .error .noReadyProcess k' := by
  obtain ⟨hforest, hrunning⟩ := h.table_forest hboot
  intro hk
  exact (trapWith_traps PhysicalMemory.neverIdle f hforest hrunning).of_error hk rfl

/-- The first process waits for its only child, which is ready. -/
theorem wait_ne_noReadyProcess : ∃ k₀ k : Kernel EmptyFiles Bench.BenchFirmware,
    benchStart = .ok k₀ ∧ Reachable k₀ k ∧ k.table.children .init = [1] ∧
      ∀ k', trapWith (callFrame .wait 0xFFFFFFFFFFFFFFFF 0 0) k ≠ .error .noReadyProcess k' := by
  obtain ⟨k₀, k, hk₀, hk, hchildren⟩ := exists_of_benchRun
    (show benchRun [callFrame .fork 0 0 0] (fun k => k.table.children .init = [1]) = true by decide +kernel)
  exact ⟨k₀, k, hk₀, hk, by simpa using hchildren, trapWith_ne_noReadyProcess hk₀ hk _⟩

end Kernel

/-! ### The process table -/

namespace ProcessTable.Forest

variable {t : ProcessTable}

/-- In a finite tree whoever goes up comes to the root. -/
private theorem ancestor (h : t.Forest PhysicalMemory) {s : Slot} {p : Process AddressSpace} (hp : t.get s = some p) :
    Relation.ReflTransGen (fun s s' => ∃ p, t.get s = some p ∧ p.parent = some s') s .init := by
  obtain ⟨rank, hrank⟩ := h.rank
  induction hn : rank s using Nat.strong_induction_on generalizing s p with
  | _ n ih =>
    by_cases hs : s = .init
    · rw [hs]
    · obtain ⟨s', p', hparent, hp', -⟩ := h.parent s p hp hs
      have hlt := hrank s p s' hp hparent
      exact .head ⟨p, hp, hparent⟩ (ih (rank s') (hn ▸ hlt) hp' rfl)

private theorem children_eq_nil (h : t.Forest PhysicalMemory) {s : Slot} {p : Process AddressSpace}
    (hp : t.get s = some p) (hzombie : p.isZombie = true) : t.children s = [] := by
  rw [List.eq_nil_iff_forall_not_mem]
  intro c hc
  obtain ⟨q, hq, hparent⟩ := mem_children.mp hc
  obtain ⟨p', hp', hlive⟩ := h.parent_live hq hparent
  rw [hp, Option.some.injEq] at hp'
  rw [← hp', hzombie] at hlive
  exact absurd hlive (by simp)

private theorem pages_of_dropped {space : AddressSpace} (h : MemorySystem.Dropped PhysicalMemory space) :
    space.pages.isEmpty := by
  obtain ⟨full, m, m', hdrop⟩ := h
  have hensures : full.unmapAll.Ensures m (fun space _ => space.pages.isEmpty) fun _ _ => True := by
    unfold AddressSpace.unmapAll
    rw [Run.ensures_bind, Run.ensures_iff]
    exact ⟨fun _ _ _ => Std.TreeMap.isEmpty_emptyc, fun _ _ _ => trivial⟩
  exact hensures.of_ok hdrop

theorem wellFormed (h : t.Forest PhysicalMemory) (hr : t.Running) : t.WellFormed where
  init := by
    obtain ⟨p, hp, hpid, hparent, hlive⟩ := h.init
    exact ⟨p, hp, hpid, hparent, Process.isZombie_eq_false_iff.mp hlive⟩
  current := h.current
  running s p hp := by
    refine ⟨h.running s p hp, ?_⟩
    rintro rfl
    obtain ⟨p', hp', hstatus⟩ := hr
    rwa [← Option.some.inj (hp.symm.trans hp')] at hstatus
  pid_injective := h.pid_injective
  pid_eq_zero s p hp := by
    obtain ⟨first, hfirst, hzero, -⟩ := h.init
    refine ⟨fun hpid => h.pid_injective s .init p first hp hfirst (hpid.trans hzero.symm), ?_⟩
    rintro rfl
    rw [Option.some.inj (hp.symm.trans hfirst), hzero]
  parent s p hp hs := by
    obtain ⟨s', p', hparent, hp', hlive⟩ := h.parent s p hp hs
    exact ⟨s', p', hparent, hp', Process.isZombie_eq_false_iff.mp hlive⟩
  ancestor s p hp := h.ancestor hp
  zombie s p hp hstatus := by
    have hzombie := Process.isZombie_iff.mpr hstatus
    have hclean := h.clean s p hp hzombie
    refine ⟨h.children_eq_nil hp hzombie, fun fd => ?_, pages_of_dropped hclean.pages, hclean.pending,
      hclean.interrupted⟩
    rw [hclean.descriptors]
    simp only [Descriptors.file?, Descriptors.empty]
    by_cases hfd : fd < descriptorCount <;> simp [hfd]

end ProcessTable.Forest

namespace Kernel

/-- Between two traps the process table is well-formed. -/
theorem Reachable.table_wellFormed {σ φ : Type} [FileSystem σ] [Firmware φ] {entry stackPointer heapStart : UInt64}
    {memory : PhysicalMemory} {files : σ} {firmware : φ} {logLimit : Option LogLevel} {k₀ k : Kernel σ φ}
    (hboot : boot entry stackPointer heapStart memory files firmware logLimit = .ok k₀) (h : Reachable k₀ k) :
    k.table.WellFormed := by
  obtain ⟨hforest, hrunning⟩ := h.table_forest hboot
  exact hforest.wellFormed hrunning

/-- The child of the first process has exited and waits to be collected. -/
theorem wellFormed_exit : ∃ k₀ k : Kernel EmptyFiles Bench.BenchFirmware,
    benchStart = .ok k₀ ∧ Reachable k₀ k ∧ k.table.hasStatus 1 .zombie = true ∧ k.table.WellFormed := by
  obtain ⟨k₀, k, hk₀, hk, hzombie⟩ := exists_of_benchRun
    (show benchRun [callFrame .fork 0 0 0, callFrame .yield 0 0 0, callFrame .exit 7 0 0]
      (fun k => k.table.hasStatus 1 .zombie) = true by decide +kernel)
  exact ⟨k₀, k, hk₀, hk, hzombie, Reachable.table_wellFormed hk₀ hk⟩

end Kernel

end TrapKernel
