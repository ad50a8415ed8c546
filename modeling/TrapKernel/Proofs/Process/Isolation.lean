import TrapKernel.Proofs.Process.Slots

/-!
# The memory of the others

While a process runs, the memory of the other processes stays as it is until they exit. `ProcessTable.Keeps` says so for
a whole trap, in which the hart may go over to other processes that exit in turn.
-/

namespace TrapKernel

variable {β : Type}

/-- The delivery of signals does not change the memory of a process that does not exit. -/
private theorem Process.Settled.keeps {p q : Process β} (h : p.Settled q) :
    q.pid = p.pid ∧ (q.isZombie = true ∨ q.memory = p.memory) := by
  cases h with
  | stays h => exact ⟨h.pid, .inr h.memory⟩
  | enters h _ _ _ => exact ⟨h.pid, .inr h.memory⟩
  | exits h _ _ hr => exact ⟨hr.pid.trans h.pid, .inl (hr.isZombie.trans rfl)⟩

namespace ProcessTable

variable {t u : ProcessTable β}

/-- Whether all processes apart from the running one of `t` that have not exited are in `u` and either have the same
memory or have exited since. -/
def Keeps (t u : ProcessTable β) : Prop :=
  ∀ s p, s ≠ t.current → t.get s = some p → p.isZombie = false →
    ∃ q, u.get s = some q ∧ q.pid = p.pid ∧ (q.isZombie = true ∨ q.memory = p.memory)

theorem Works.keeps (h : t.Works u) : t.Keeps u := fun _ p hs hp _ =>
  ⟨p, by rw [h.slot hs, hp], rfl, .inr rfl⟩

theorem Traps.keeps {μ : Type} [MemorySystem μ β] {f : TrapFrame} (h : t.Traps μ f u) (hforest : t.Forest μ)
    (hr : t.Running) : t.Keeps u := fun _ _ hs hp hlive => by
  obtain ⟨q, hsettled, hq⟩ := h.other hforest hr hs hp hlive
  exact ⟨q, hq, hsettled.keeps⟩

end ProcessTable

end TrapKernel
