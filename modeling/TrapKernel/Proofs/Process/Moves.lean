import TrapKernel.Proofs.Process.Pid
import Mathlib.Logic.Relation

/-!
# What the kernel does to the process table

Everything that a trap does to the process table is made of a few moves. `ProcessTable.Yields` are the ways in which
the running process leaves the hart, and `ProcessTable.Move` are the moves, of which one is to switch to another
process after that.
-/

namespace TrapKernel

variable {β : Type}

/-- Whether nothing is left in the pages of a process, since they have all been dropped. -/
def MemorySystem.Dropped (μ : Type) [MemorySystem μ β] (space : β) : Prop :=
  ∃ (full : β) (m m' : μ), MemorySystem.unmapAll full m = .ok space m'

namespace Process

/-- What is left of a process that has exited. -/
def remains (p : Process β) (code : Int32) (space : β) : Process β :=
  { p with
    status := .zombie, exitCode := code, descriptors := .empty, memory := { p.memory with space }
    pending := .empty, interrupted := none }

/-- A parent that learns of the exit of one of its children. -/
def notify (p : Process β) : Process β := (p.post sigChild).wake

@[simp] theorem notify_pid (p : Process β) : p.notify.pid = p.pid := by simp [notify, post]

@[simp] theorem notify_parent (p : Process β) : p.notify.parent = p.parent := by simp [notify, post]

theorem notify_status (p : Process β) : p.notify.status = if p.status = .blocked then .ready else p.status :=
  wake_status _

@[simp] theorem notify_pending (p : Process β) : p.notify.pending = p.pending.union (.single sigChild) := by
  simp [notify, post]

end Process

namespace ProcessTable

/-- The table after the process in a slot has exited and left `z` behind. -/
def exited (t : ProcessTable β) (s : Slot) (z : Process β) : ProcessTable β :=
  match z.parent with
  | none => (t.put s (some z)).reparent s
  | some parent => (((t.put s (some z)).reparent s).modifyAt parent fun q => q.post sigChild).wake parent

/-- The table after the hart has gone over to the process in a slot. -/
def switchTo (t : ProcessTable β) (next : Slot) : ProcessTable β :=
  { t.modifyAt next fun p => { p with status := .running } with current := next }

variable (μ : Type) [MemorySystem μ β]

/-- The running process leaves the hart: it gives way, waits for a child that has not exited, or exits. -/
inductive Yields (t : ProcessTable β) : ProcessTable β → Prop
  | suspend {p : Process β} (hp : t.get t.current = some p) :
      Yields t (t.put t.current (some { p with status := .ready }))
  | block {p q : Process β} {c : Slot} (hp : t.get t.current = some p) (hc : t.get c = some q)
      (hparent : q.parent = some t.current) (hlive : q.isZombie = false) :
      Yields t (t.put t.current (some { p with status := .blocked }))
  | exit {p : Process β} {code : Int32} {space : β} (hp : t.get t.current = some p) (hs : t.current ≠ .init)
      (hspace : MemorySystem.Dropped μ space) : Yields t (t.exited t.current (p.remains code space))

/-- A move changes a process that has not exited without a change of its place in the table, tries process numbers,
creates a child of the running process, removes one that has exited, wakes a process up, or switches. -/
inductive Move : ProcessTable β → ProcessTable β → Prop
  | edit {t : ProcessTable β} {s : Slot} {p q : Process β} (hp : t.get s = some p) (hlive : p.isZombie = false)
      (hpid : q.pid = p.pid) (hstatus : q.status = p.status) (hparent : q.parent = p.parent) :
      Move t (t.put s (some q))
  | countPid {t : ProcessTable β} : Move t t.allocPid.2
  | fork {t : ProcessTable β} {s : Slot} {p : Process β} {space : β} (hs : t.get s = none)
      (hp : t.get t.current = some p) :
      Move t (t.allocPid.2.put s (some (p.child t.allocPid.1 t.current space)))
  | reap {t : ProcessTable β} {c : Slot} {p : Process β} (hp : t.get c = some p) (hzombie : p.isZombie = true)
      (hparent : p.parent = some t.current) : Move t (t.put c none)
  | wake {t : ProcessTable β} {s : Slot} : Move t (t.wake s)
  | switch {t u : ProcessTable β} {next : Slot} (hu : t.Yields μ u) (hnext : u.nextReady? = some next) :
      Move t (u.switchTo next)

/-- The running process leaves the hart, and no process is ready to take it. -/
def Stuck (t : ProcessTable β) : Prop := ∃ u, t.Yields μ u ∧ u.nextReady? = none

variable {μ} {t : ProcessTable β}

/-! ### Slots after the moves -/

@[simp] theorem current_exited (s : Slot) (z : Process β) : (t.exited s z).current = t.current := by
  unfold exited; split <;> simp

@[simp] theorem nextPid_exited (s : Slot) (z : Process β) : (t.exited s z).nextPid = t.nextPid := by
  unfold exited; split <;> simp [modifyAt]

@[simp] theorem current_switchTo (next : Slot) : (t.switchTo next).current = next := rfl

theorem get_switchTo (next s : Slot) :
    (t.switchTo next).get s = if next = s then (t.get s).map fun p => { p with status := .running } else t.get s :=
  t.get_modifyAt next s _

/-- What the exit of the process in slot `s`, which leaves `z` behind, does to the process in slot `c`. -/
def exitEffect (t : ProcessTable β) (s : Slot) (z : Process β) (c : Slot) (p : Process β) : Process β :=
  if z.parent = some c then ((t.put s (some z)).adopt s c p).notify else (t.put s (some z)).adopt s c p

theorem get_exited (s : Slot) (z : Process β) (c : Slot) :
    (t.exited s z).get c = ((t.put s (some z)).get c).map (t.exitEffect s z c) := by
  have hget := get_reparent (t.put s (some z)) s c
  unfold exited exitEffect
  cases hz : z.parent with
  | none => simpa using hget
  | some parent =>
    rw [get_wake, get_modifyAt, hget]
    by_cases hc : parent = c
    · subst hc
      cases (t.put s (some z)).get parent <;> simp [Process.notify]
    · simp [hc]

private theorem adopt_pid (s c : Slot) (p : Process β) : (t.adopt s c p).pid = p.pid := by
  unfold adopt; split <;> simp

private theorem adopt_parent (s c : Slot) (p : Process β) :
    (t.adopt s c p).parent = if p.parent = some s then some .init else p.parent := by
  unfold adopt; split <;> simp [Process.disown_parent]

private theorem adopt_status (s c : Slot) (p : Process β) :
    (t.adopt s c p).status = p.status ∨ p.status = .blocked ∧ (t.adopt s c p).status = .ready := by
  unfold adopt
  split
  · rw [Process.wake_status, Process.disown_status]
    by_cases h : p.status = .blocked <;> simp [h]
  · simp

private theorem adopt_pending (s c : Slot) (p : Process β) : (t.adopt s c p).pending = p.pending := by
  unfold adopt; split <;> simp

theorem exitEffect_pid (s : Slot) (z : Process β) (c : Slot) (p : Process β) : (t.exitEffect s z c p).pid = p.pid := by
  unfold exitEffect; split <;> simp [adopt_pid]

theorem exitEffect_parent (s : Slot) (z : Process β) (c : Slot) (p : Process β) :
    (t.exitEffect s z c p).parent = if p.parent = some s then some .init else p.parent := by
  unfold exitEffect; split <;> simp [adopt_parent]

/-- The exit of a process sends no signal but the one about a child, to its parent. -/
theorem exitEffect_pending (s : Slot) (z : Process β) (c : Slot) (p : Process β) :
    (t.exitEffect s z c p).pending = if z.parent = some c then p.pending.union (.single sigChild) else p.pending := by
  unfold exitEffect; split <;> simp [adopt_pending]

/-- An exit changes the status of another process only from blocked to ready, and always if it is the parent's. -/
theorem exitEffect_status (s : Slot) (z : Process β) (c : Slot) (p : Process β) :
    (t.exitEffect s z c p).status = p.status ∧ (z.parent = some c → p.status ≠ .blocked) ∨
      p.status = .blocked ∧ (t.exitEffect s z c p).status = .ready := by
  have hadopt := adopt_status (t := t.put s (some z)) s c p
  unfold exitEffect
  by_cases hparent : z.parent = some c
  · rw [if_pos hparent, Process.notify_status]
    rcases hadopt with heq | ⟨hb, heq⟩
    · by_cases hb : p.status = .blocked <;> simp [heq, hb]
    · simp [heq, hb]
  · simpa [hparent] using hadopt

/-- To another process than its parent and the first one an exit matters only if it is the parent's. -/
theorem exitEffect_of_ne {s c : Slot} {z : Process β} (hc : c ≠ .init) (hparent : z.parent ≠ some c) (p : Process β) :
    t.exitEffect s z c p = p.disown s := by
  unfold exitEffect adopt
  rw [if_neg hparent, if_neg fun h => hc h.2]

theorem get_exited_self {s : Slot} {z : Process β} (hs : s ≠ .init) (hparent : z.parent ≠ some s) :
    (t.exited s z).get s = some z := by
  rw [get_exited, get_put_self, Option.map_some, exitEffect_of_ne hs hparent, Process.disown, if_neg hparent]

theorem get_exited_of_ne {s c : Slot} (z : Process β) (hc : c ≠ s) :
    (t.exited s z).get c = (t.get c).map (t.exitEffect s z c) := by
  rw [get_exited, get_put_of_ne _ hc]

/-- A process after an exit: it is what is left of the one that exited, or another one. -/
theorem get_exited_eq_some {s c : Slot} {z q : Process β} (hs : s ≠ .init) (hparent : z.parent ≠ some s)
    (hq : (t.exited s z).get c = some q) :
    c = s ∧ q = z ∨ c ≠ s ∧ ∃ q', t.get c = some q' ∧ q = t.exitEffect s z c q' := by
  by_cases hc : c = s
  · subst hc
    rw [get_exited_self hs hparent] at hq
    exact .inl ⟨rfl, (Option.some.inj hq).symm⟩
  · rw [get_exited_of_ne z hc, Option.map_eq_some_iff] at hq
    obtain ⟨q', hq', heq⟩ := hq
    exact .inr ⟨hc, q', hq', heq.symm⟩

end ProcessTable

end TrapKernel
