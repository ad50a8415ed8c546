import TrapKernel.Kernel.Signals
import TrapKernel.Proofs.Process.Table

/-!
# Processes with pages in another form

Nothing that is asked about the process table, and nothing that is done to the places of processes in it, depends on
the form in which their pages are kept. `ProcessTable.mapSpace` changes the form for all processes, and every question
has the same answer before and after.
-/

namespace TrapKernel

variable {β γ : Type}

/-- The user memory with its pages in another form. -/
def UserMemory.mapSpace (f : β → γ) (u : UserMemory β) : UserMemory γ := { u with space := f u.space }

/-- The process with its pages in another form. -/
def Process.mapSpace (f : β → γ) (p : Process β) : Process γ := { p with memory := p.memory.mapSpace f }

/-- The table with the pages of all processes in another form. -/
def ProcessTable.mapSpace (f : β → γ) (t : ProcessTable β) : ProcessTable γ :=
  { t with slots := t.slots.map fun p => p.map (Process.mapSpace f) }

namespace Process

variable (f : β → γ) (p : Process β)

@[simp] theorem pid_mapSpace : (p.mapSpace f).pid = p.pid := rfl

@[simp] theorem status_mapSpace : (p.mapSpace f).status = p.status := rfl

@[simp] theorem parent_mapSpace : (p.mapSpace f).parent = p.parent := rfl

@[simp] theorem isZombie_mapSpace : (p.mapSpace f).isZombie = p.isZombie := rfl

theorem nextSignal?_mapSpace : (p.mapSpace f).nextSignal? = p.nextSignal? := rfl

private theorem wake_mapSpace : (p.mapSpace f).wake = p.wake.mapSpace f := by
  unfold wake
  split <;> simp_all [mapSpace]

private theorem disown_mapSpace (s : Slot) : (p.mapSpace f).disown s = (p.disown s).mapSpace f := by
  unfold disown
  split <;> simp_all [mapSpace]

end Process

namespace ProcessTable

/-! ### Changes that leave the memory of processes alone -/

section Memory

variable {t : ProcessTable β}

theorem memory_modifyAt {s s' : Slot} {g : Process β → Process β} (hg : ∀ p, (g p).memory = p.memory) :
    ((t.modifyAt s g).get s').map Process.memory = (t.get s').map Process.memory := by
  rw [get_modifyAt]
  split
  · rw [Option.map_map]
    congr 1
    funext p
    exact hg p
  · rfl

theorem memory_wake (s s' : Slot) : ((t.wake s).get s').map Process.memory = (t.get s').map Process.memory :=
  memory_modifyAt fun p => p.wake_memory

theorem memory_reparent (s s' : Slot) : ((t.reparent s).get s').map Process.memory = (t.get s').map Process.memory := by
  rw [get_reparent, Option.map_map]
  congr 1
  funext p
  simp only [Function.comp, adopt]
  split <;> simp

end Memory

variable {t t' : ProcessTable β} {f : β → γ}

/-- Tables with the same processes in all slots are the same. -/
private theorem ext_get (hget : ∀ s, t.get s = t'.get s) (hcurrent : t.current = t'.current)
    (hpid : t.nextPid = t'.nextPid) : t = t' := by
  obtain ⟨slots, current, nextPid⟩ := t
  obtain ⟨slots', current', nextPid'⟩ := t'
  obtain rfl : current = current' := hcurrent
  obtain rfl : nextPid = nextPid' := hpid
  congr 1
  exact Vector.ext fun i hi => hget ⟨i, hi⟩

@[simp] theorem current_mapSpace : (t.mapSpace f).current = t.current := rfl

@[simp] theorem nextPid_mapSpace : (t.mapSpace f).nextPid = t.nextPid := rfl

@[simp] theorem get_mapSpace (s : Slot) : (t.mapSpace f).get s = (t.get s).map (Process.mapSpace f) := by
  simp [get, mapSpace]

/-! ### Questions -/

@[simp] theorem hasStatus_mapSpace (s : Slot) (status : Status) :
    (t.mapSpace f).hasStatus s status = t.hasStatus s status := by
  unfold hasStatus
  rw [get_mapSpace]
  cases t.get s <;> rfl

@[simp] theorem findPid?_mapSpace (pid : UInt64) : (t.mapSpace f).findPid? pid = t.findPid? pid := by
  unfold findPid?
  congr 1
  funext s
  rw [get_mapSpace]
  cases t.get s <;> rfl

@[simp] theorem firstFree?_mapSpace : (t.mapSpace f).firstFree? = t.firstFree? := by
  unfold firstFree?
  congr 1
  funext s
  rw [get_mapSpace, Option.isNone_map]

@[simp] theorem children_mapSpace (s : Slot) : (t.mapSpace f).children s = t.children s := by
  unfold children
  congr 1
  funext c
  rw [get_mapSpace]
  cases t.get c <;> rfl

@[simp] theorem parentPid_mapSpace (s : Slot) : (t.mapSpace f).parentPid s = t.parentPid s := by
  unfold parentPid
  rw [get_mapSpace]
  cases t.get s with
  | none => rfl
  | some p =>
    rw [Option.map_some, Option.bind_some, Option.bind_some, Process.parent_mapSpace]
    cases p.parent with
    | none => rfl
    | some parent =>
      rw [Option.bind_some, Option.bind_some, get_mapSpace]
      cases t.get parent <;> rfl

private theorem searchPid_mapSpace (n : Nat) (pid : UInt64) : (t.mapSpace f).searchPid n pid = t.searchPid n pid := by
  induction n generalizing pid with
  | zero => rfl
  | succ n ih => rw [searchPid, searchPid, findPid?_mapSpace, ih]

@[simp] theorem nextReady?_mapSpace : (t.mapSpace f).nextReady? = t.nextReady? := by
  unfold nextReady? scheduleOrder
  simp only [hasStatus_mapSpace, current_mapSpace]

@[simp] theorem occupied_mapSpace : (t.mapSpace f).occupied = t.occupied := by
  unfold occupied
  simp only [get_mapSpace, Option.isSome_map]

@[simp] theorem waitedFor_mapSpace (s : Slot) (target : WaitTarget) :
    (t.mapSpace f).waitedFor s target = t.waitedFor s target := by
  unfold waitedFor
  rw [children_mapSpace]
  congr 1
  funext c
  rw [get_mapSpace]
  cases t.get c with
  | none => rfl
  | some p => cases target <;> rfl

/-! ### Changes -/

theorem initial_mapSpace (p : Process β) : (initial p).mapSpace f = initial (p.mapSpace f) := by
  refine ext_get (fun s => ?_) rfl rfl
  rw [get_mapSpace, get_initial, get_initial]
  split <;> rfl

theorem put_mapSpace (s : Slot) (p : Option (Process β)) :
    (t.mapSpace f).put s (p.map (Process.mapSpace f)) = (t.put s p).mapSpace f := by
  refine ext_get (fun s' => ?_) rfl rfl
  rw [get_put, get_mapSpace, get_mapSpace, get_put]
  split <;> rfl

/-- A process is put into a table, and the form of the others stays. -/
theorem mapSpace_put {f' : β → γ} {s : Slot} (p : Option (Process β))
    (hf : ∀ s' q, s' ≠ s → t.get s' = some q → f' q.memory.space = f q.memory.space) :
    (t.put s p).mapSpace f' = (t.mapSpace f).put s (p.map (Process.mapSpace f')) := by
  refine ext_get (fun s' => ?_) rfl rfl
  rw [get_put, get_mapSpace, get_mapSpace, get_put]
  by_cases hs : s = s'
  · rw [if_pos hs, if_pos hs]
  · rw [if_neg hs, if_neg hs]
    cases hq : t.get s' with
    | none => rfl
    | some q =>
      simp only [Option.map_some, Process.mapSpace, UserMemory.mapSpace, hf s' q (Ne.symm hs) hq]

theorem modifyAt_mapSpace (s : Slot) {g : Process β → Process β} {g' : Process γ → Process γ}
    (hg : ∀ p, g' (p.mapSpace f) = (g p).mapSpace f) :
    (t.mapSpace f).modifyAt s g' = (t.modifyAt s g).mapSpace f := by
  rw [modifyAt, modifyAt, ← put_mapSpace, get_mapSpace, Option.map_map, Option.map_map]
  congr 2
  funext p
  exact hg p

theorem wake_mapSpace (s : Slot) : (t.mapSpace f).wake s = (t.wake s).mapSpace f :=
  modifyAt_mapSpace s fun p => p.wake_mapSpace f

theorem allocPid_mapSpace : (t.mapSpace f).allocPid = (t.allocPid.1, t.allocPid.2.mapSpace f) := by
  unfold allocPid
  rw [searchPid_mapSpace, nextPid_mapSpace]
  rfl

theorem reparent_mapSpace (s : Slot) : (t.mapSpace f).reparent s = (t.reparent s).mapSpace f := by
  refine ext_get (fun c => ?_) (by simp) (by simp)
  have hzombie : (t.mapSpace f).hasZombieChild s = t.hasZombieChild s := by
    unfold hasZombieChild
    simp only [children_mapSpace, hasStatus_mapSpace]
  rw [get_reparent, get_mapSpace, get_mapSpace, get_reparent, Option.map_map, Option.map_map]
  congr 1
  funext p
  simp only [Function.comp, adopt, hzombie, Process.disown_mapSpace, Process.wake_mapSpace]
  split <;> rfl

end ProcessTable

end TrapKernel
