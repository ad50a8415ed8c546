import TrapKernel.Proofs.Kernel.Routine
import Mathlib.Algebra.BigOperators.Group.Finset.Basic

/-!
# What has nothing to do with files

Only to open and to close descriptors and to exit has to do with the descriptors of processes and with references to
files. All else that the kernel does leaves both alone: a new process has no descriptors, and one that is removed has
none left.

* `Kernel.SameFiles`: no slot has other descriptors, and no reference was taken or given back.
-/

namespace TrapKernel

variable {β : Type}

namespace Process

@[simp] theorem wake_descriptors (p : Process β) : p.wake.descriptors = p.descriptors := by unfold wake; split <;> rfl

@[simp] theorem disown_descriptors (s : Slot) (p : Process β) : (p.disown s).descriptors = p.descriptors := by
  unfold disown; split <;> rfl

end Process

namespace ProcessTable

variable {t u : ProcessTable β} {s s' : Slot} {p : Process β}

/-- The descriptors of the process in a slot. In an empty slot none is bound. -/
def descriptorsAt (t : ProcessTable β) (s : Slot) : Descriptors :=
  match t.get s with
  | some p => p.descriptors
  | none => .empty

/-- How many descriptors of all processes are bound to a file. -/
def bindings (t : ProcessTable β) (i : Inode) : Nat := ∑ s, (t.descriptorsAt s).bindings i

/-- How many descriptors of the processes in other slots are bound to a file. -/
def bindingsElsewhere (t : ProcessTable β) (s : Slot) (i : Inode) : Nat :=
  ∑ s' ∈ Finset.univ.erase s, (t.descriptorsAt s').bindings i

theorem bindings_eq (t : ProcessTable β) (s : Slot) (i : Inode) :
    t.bindings i = (t.descriptorsAt s).bindings i + t.bindingsElsewhere s i :=
  (Finset.add_sum_erase _ _ (Finset.mem_univ s)).symm

theorem descriptorsAt_of_get (hp : t.get s = some p) : t.descriptorsAt s = p.descriptors := by
  unfold descriptorsAt
  rw [hp]

private theorem descriptorsAt_congr (h : u.get s = t.get s) : u.descriptorsAt s = t.descriptorsAt s := by
  unfold descriptorsAt
  rw [h]

theorem descriptorsAt_put_self (t : ProcessTable β) (s : Slot) (p : Process β) :
    (t.put s (some p)).descriptorsAt s = p.descriptors :=
  descriptorsAt_of_get (get_put_self _ _ _)

theorem bindingsElsewhere_put (t : ProcessTable β) (s : Slot) (p : Option (Process β)) (i : Inode) :
    (t.put s p).bindingsElsewhere s i = t.bindingsElsewhere s i :=
  Finset.sum_congr rfl fun s' hs' => by
    rw [descriptorsAt_congr (get_put_of_ne t (Finset.ne_of_mem_erase hs') p)]

/-- Whether all slots have the same descriptors in two tables. -/
def SameDescriptors (t u : ProcessTable β) : Prop := ∀ s, u.descriptorsAt s = t.descriptorsAt s

theorem SameDescriptors.bindings_eq (h : t.SameDescriptors u) (i : Inode) : u.bindings i = t.bindings i :=
  Finset.sum_congr rfl fun s _ => by rw [h s]

theorem SameDescriptors.trans {v : ProcessTable β} (h : t.SameDescriptors u) (h' : u.SameDescriptors v) :
    t.SameDescriptors v := fun s => (h' s).trans (h s)

private theorem sameDescriptors_of_get (h : ∀ s, u.get s = t.get s) : t.SameDescriptors u :=
  fun s => descriptorsAt_congr (h s)

theorem sameDescriptors_put {p : Option (Process β)} (h : (p.elim .empty Process.descriptors) = t.descriptorsAt s) :
    t.SameDescriptors (t.put s p) := by
  intro s'
  by_cases hs : s' = s
  · subst hs
    rw [← h]
    unfold descriptorsAt
    rw [get_put_self]
    cases p <;> rfl
  · exact descriptorsAt_congr (get_put_of_ne t hs p)

private theorem sameDescriptors_of_map {f : Slot → Process β → Process β} (hget : ∀ s, u.get s = (t.get s).map (f s))
    (hf : ∀ s p, (f s p).descriptors = p.descriptors) : t.SameDescriptors u := by
  intro s
  unfold descriptorsAt
  rw [hget]
  cases t.get s with
  | none => rfl
  | some p => exact hf s p

theorem sameDescriptors_modifyAt (t : ProcessTable β) (s : Slot) {f : Process β → Process β}
    (hf : ∀ p, (f p).descriptors = p.descriptors) : t.SameDescriptors (t.modifyAt s f) := by
  refine sameDescriptors_put ?_
  unfold descriptorsAt
  cases t.get s with
  | none => rfl
  | some p => exact hf p

theorem sameDescriptors_reparent (t : ProcessTable β) (s : Slot) : t.SameDescriptors (t.reparent s) := by
  refine sameDescriptors_of_map (t.get_reparent s) fun c p => ?_
  unfold adopt
  split <;> simp

end ProcessTable

namespace Kernel

open ProcessTable

variable {μ σ φ α : Type} [MemorySystem μ β] {k k' : KernelState μ β σ φ}

/-- Whether all descriptors and all references are the same in two states. -/
structure SameFiles (k k' : KernelState μ β σ φ) : Prop where
  descriptors : k.table.SameDescriptors k'.table
  volume : k.volume.Quiet k'.volume

instance : IsPreorder (KernelState μ β σ φ) SameFiles where
  refl _ := ⟨fun _ => rfl, refl_of Volume.Quiet _⟩
  trans _ _ _ h h' := ⟨h.descriptors.trans h'.descriptors, trans_of Volume.Quiet h.volume h'.volume⟩

/-! ### What leaves descriptors and references alone -/

section Parts

omit [MemorySystem μ β]

theorem sameFiles_of_table {t : ProcessTable β} (h : k.table.SameDescriptors t) : SameFiles k { k with table := t } :=
  ⟨h, refl_of Volume.Quiet _⟩

theorem sameFiles_of_eq (htable : k'.table = k.table) (hvolume : k'.volume = k.volume) : SameFiles k k' :=
  ⟨htable ▸ fun _ => rfl, hvolume ▸ refl_of Volume.Quiet _⟩

theorem sameFiles_allowsRoutine :
    AllowsRoutine Access.Anything (SameFiles : KernelState μ β σ φ → KernelState μ β σ φ → Prop) where
  memory _ _ := sameFiles_of_eq rfl rfl
  machine _ _ := sameFiles_of_eq rfl rfl
  log _ _ := sameFiles_of_eq rfl rfl
  volume _ _ hv := ⟨fun _ => rfl, hv⟩
  put _ _ _ _ hp hdescriptors _ _ :=
    sameFiles_of_table (sameDescriptors_put (hdescriptors.trans (descriptorsAt_of_get hp).symm))
  store _ _ _ _ hp _ := ⟨sameDescriptors_put (descriptorsAt_of_get hp).symm, refl_of Volume.Quiet _⟩
  wake _ _ := sameFiles_of_table (sameDescriptors_modifyAt _ _ Process.wake_descriptors)

theorem sameFiles_modifyTable {f : ProcessTable β → ProcessTable β} (hf : ∀ t : ProcessTable β, t.SameDescriptors (f t)) :
    (modifyTable f : Run (KernelState μ β σ φ) Unit).Respects SameFiles :=
  .modify fun k => sameFiles_of_table (hf k.table)

theorem sameFiles_modifyCurrent {f : Process β → Process β} (hf : ∀ p, (f p).descriptors = p.descriptors) :
    (modifyCurrent f : Run (KernelState μ β σ φ) Unit).Respects SameFiles :=
  respects_modifyCurrent fun _ p hp =>
    sameFiles_of_table (sameDescriptors_put ((hf p).trans (descriptorsAt_of_get hp).symm))

theorem sameFiles_runNext : (runNext : Run (KernelState μ β σ φ) Unit).Respects SameFiles := by
  refine Run.respects_get.bind fun k => ?_
  split
  · exact Run.respects_crash _
  · have hswitch : ∀ next, (modifyTable fun t => { t with current := next } :
        Run (KernelState μ β σ φ) Unit).Respects SameFiles := fun next =>
      sameFiles_modifyTable fun t => sameDescriptors_of_get fun _ => rfl
    refine (sameFiles_modifyTable fun t => ?_).bind fun _ => ?_
    · exact sameDescriptors_modifyAt t _ fun _ => rfl
    split
    · exact (sameFiles_allowsRoutine.note _).bind fun _ => hswitch _
    · exact hswitch _

theorem sameFiles_suspendCurrent : (suspendCurrent : Run (KernelState μ β σ φ) Unit).Respects SameFiles :=
  (sameFiles_modifyCurrent (f := fun p => { p with status := .ready }) fun _ => rfl).bind fun _ => sameFiles_runNext

private theorem sameFiles_blockCurrent : (blockCurrent : Run (KernelState μ β σ φ) Unit).Respects SameFiles :=
  (sameFiles_modifyCurrent (f := fun p => { p with status := .blocked }) fun _ => rfl).bind fun _ => sameFiles_runNext

end Parts

/-! ### Calls that have nothing to do with descriptors -/

/-- A process is created without descriptors. -/
theorem sameFiles_fork : (fork : Attempt (KernelState μ β σ φ) UInt64).Respects SameFiles := by
  refine sameFiles_allowsRoutine.fork (fun k => ?_) fun k s p q space hs _ _ hdescriptors _ _ => ?_
  · exact sameFiles_of_table (sameDescriptors_of_get fun s => get_allocPid _ s)
  · refine sameFiles_of_table (sameDescriptors_put (hdescriptors.trans ?_))
    unfold descriptorsAt
    rw [hs]

omit [MemorySystem μ β] in
theorem sameFiles_callYield : (callYield : Attempt (KernelState μ β σ φ) UInt64).Respects SameFiles :=
  (Attempt.Respects.ofRun sameFiles_suspendCurrent).bind fun _ => Attempt.respects_pure _

/-! ### The life of a process -/

/-- Whether processes that have exited have closed all their descriptors. -/
def NoneAfterExit (k : KernelState μ β σ φ) : Prop :=
  ∀ s p, k.table.get s = some p → p.isZombie = true → p.descriptors = .empty

/-- An exited process that is removed has no descriptors left. -/
private theorem reap_sameFiles (hk : NoneAfterExit k) (c : Slot) :
    (reap c).Ensures k (fun _ k' => SameFiles k k') fun _ k' => SameFiles k k' := by
  unfold reap
  simp only [Run.ensures_bind, Run.ensures_get]
  split
  · exact refl_of SameFiles k
  next p hp =>
  split
  · next hzombie =>
    have hremove : ∀ memory log, SameFiles k { k with table := k.table.put c none, memory, log } := fun _ _ =>
      ⟨sameDescriptors_put (((descriptorsAt_of_get hp).trans (hk c p hp hzombie)).symm), refl_of Volume.Quiet _⟩
    simp only [Run.ensures_bind, ensures_modifyTable, ensures_note]
    rw [ensures_onMemory, Run.ensures_iff]
    exact ⟨fun _ memory _ => hremove memory _, fun _ memory _ => hremove memory _⟩
  · exact refl_of SameFiles k

private theorem collect_sameFiles (hk : NoneAfterExit k) (target : WaitTarget) :
    (collect target).Ensures k (fun _ k' => SameFiles k k') fun _ k' => SameFiles k k' := by
  unfold collect
  simp only [Attempt.ensures_bind, Attempt.ensures_get]
  split
  · exact refl_of SameFiles k
  · split
    · exact refl_of SameFiles k
    · rw [Attempt.ensures_ofRun]
      exact reap_sameFiles hk _

theorem callWait_sameFiles (hk : NoneAfterExit k) (f : TrapFrame) :
    (callWait f).Ensures k (fun _ k' => SameFiles k k') fun _ k' => SameFiles k k' := by
  unfold callWait
  rw [Attempt.ensures_bind]
  refine Run.Ensures.mono (collect_sameFiles hk _) fun r k₁ hk₁ => ?_
  have hrest : ∀ {op : Attempt (KernelState μ β σ φ) UInt64}, op.Respects SameFiles →
      op.Ensures k₁ (fun _ k' => SameFiles k k') fun _ k' => SameFiles k k' := fun h =>
    Run.Ensures.imp (h.ensures k₁) (fun _ _ => trans_of SameFiles hk₁) fun _ _ => trans_of SameFiles hk₁
  cases r with
  | error e => exact hk₁
  | ok found =>
    refine hrest ?_
    split
    · split
      · exact Attempt.respects_pure _
      · exact (sameFiles_allowsRoutine.onCurrentMemory (Access.respects_anything _)).bind fun _ => Attempt.respects_pure _
    · refine (Attempt.Respects.ofRun respects_currentProcess).bind fun p =>
        (Attempt.Respects.ofRun (Run.respects_subWords _ _)).bind fun sepc =>
        (Attempt.Respects.ofRun (sameFiles_modifyCurrent ?_)).bind fun _ =>
        (Attempt.Respects.ofRun sameFiles_blockCurrent).bind fun _ => Attempt.respects_pure _
      exact fun _ => rfl

end Kernel

end TrapKernel
