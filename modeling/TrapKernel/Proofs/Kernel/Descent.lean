import TrapKernel.Proofs.Kernel.Services
import TrapKernel.Proofs.Process.Spaces

/-!
# Where memory comes from

The memory of a process is what has become of the memory of a process before: of its own, or of that of its parent if it has
been created meanwhile. So if a relation between user memories allows all that is done to one of them, every memory after
some traps is related to one at the start.

* `UserMemory.AllowsCopies`: what such a relation has to allow.
* `Kernel.Descends`: all memory comes from memory before.
* `Kernel.Reachable.descends`: in reachable states it comes from that of the first process at the start.
-/

namespace TrapKernel

open Access

variable {μ β σ φ : Type} [MemorySystem μ β]

/-- Whether a relation between user memories allows all that is done to the memory of a process from when it is created, as
a copy of that of its parent, until the process has exited. -/
class UserMemory.AllowsCopies (μ : Type) {β : Type} [MemorySystem μ β] (E : UserMemory β → UserMemory β → Prop) : Prop
    extends AllowsLife (fun a a' : MemoryAccess μ β => E a.user a'.user) where
  fork : ∀ (u : UserMemory β) (m m' : μ) space,
    (MemorySystem.fork u.space : Run μ (Option β)) m = .ok (some space) m' → E u { u with space }

namespace Kernel

open ProcessTable UserMemory

variable {E : UserMemory β → UserMemory β → Prop} {k k' : KernelState μ β σ φ}

/-- Whether the memory of every process has come from that of a process before. -/
def Descends (E : UserMemory β → UserMemory β → Prop) (k k' : KernelState μ β σ φ) : Prop :=
  ∀ s q, k'.table.get s = some q → ∃ s' p, k.table.get s' = some p ∧ E p.memory q.memory

variable [IsPreorder (UserMemory β) E]

instance : IsPreorder (KernelState μ β σ φ) (Descends E) where
  refl _ s q hq := ⟨s, q, hq, refl_of E _⟩
  trans _ _ _ h h' s r hr := by
    obtain ⟨s', q, hq, hE⟩ := h' s r hr
    obtain ⟨s'', p, hp, hE'⟩ := h s' q hq
    exact ⟨s'', p, hp, trans_of E hE' hE⟩

omit [MemorySystem μ β] in
private theorem descends_of_memory (h : ∀ s, (k'.table.get s).map Process.memory = (k.table.get s).map Process.memory) :
    Descends E k k' := by
  intro s q hq
  have hs := h s
  rw [hq, Option.map_some, eq_comm, Option.map_eq_some_iff] at hs
  obtain ⟨p, hp, hmemory⟩ := hs
  exact ⟨s, p, hp, hmemory ▸ refl_of E _⟩

omit [MemorySystem μ β] in
private theorem descends_of_eq (h : k'.table = k.table) : Descends E k k' :=
  descends_of_memory fun s => by rw [h]

omit [MemorySystem μ β] in
/-- One slot has been filled with a process whose memory has come from that of a process before. -/
private theorem descends_put {s s' : Slot} {p q : Process β} (hp : k.table.get s' = some p) (hE : E p.memory q.memory)
    (htable : k'.table = k.table.put s (some q)) : Descends E k k' := by
  intro s'' r hr
  rw [htable, get_put] at hr
  split at hr
  · exact ⟨s', p, hp, Option.some.inj hr ▸ hE⟩
  · exact ⟨s'', r, hr, refl_of E _⟩

omit [MemorySystem μ β] in
private theorem descends_modifyTable {f : ProcessTable β → ProcessTable β}
    (hf : ∀ (t : ProcessTable β) s, ((f t).get s).map Process.memory = (t.get s).map Process.memory) :
    (modifyTable f : Run (KernelState μ β σ φ) Unit).Respects (Descends E) :=
  .modify fun k => descends_of_memory (hf k.table)

omit [MemorySystem μ β] in
private theorem descends_runNext : (runNext : Run (KernelState μ β σ φ) Unit).Respects (Descends E) := by
  have hswitch : ∀ next, (modifyTable fun t => { t with current := next } :
      Run (KernelState μ β σ φ) Unit).Respects (Descends E) := fun _ => descends_modifyTable fun _ _ => rfl
  refine Run.respects_get.bind fun k => ?_
  split
  · exact Run.respects_crash _
  refine (descends_modifyTable (by exact fun t s => memory_modifyAt fun _ => rfl)).bind fun _ => ?_
  split
  · exact (Run.Respects.modify (by exact fun _ => descends_of_eq rfl)).bind fun _ => hswitch _
  · exact hswitch _

/-- Whatever the kernel does, all memory comes from memory before. -/
private theorem descends_allowsServices [AllowsCopies μ E] :
    AllowsServices (fun a a' => E a.user a'.user) (Descends E : KernelState μ β σ φ → KernelState μ β σ φ → Prop) where
  memory _ _ := descends_of_eq rfl
  machine _ _ := descends_of_eq rfl
  log _ _ := descends_of_eq rfl
  volume _ _ _ := descends_of_eq rfl
  anyVolume _ _ := descends_of_eq rfl
  put _ _ _ _ hp _ _ hmemory := descends_put hp (hmemory ▸ refl_of E _) rfl
  store _ _ _ _ hp hE := descends_put hp hE rfl
  edit _ _ _ _ hp _ hmemory := descends_put hp (hmemory ▸ refl_of E _) rfl
  wake _ s := descends_of_memory (memory_wake s)
  reparent _ s := descends_of_memory (memory_reparent s)
  allocPid _ := descends_of_memory fun s => by rw [get_allocPid]
  remove _ _ s q hq := by
    rw [get_put] at hq
    split at hq
    · exact absurd hq (by simp)
    · exact ⟨s, q, hq, refl_of E _⟩
  born _ _ p _ space _ hp hfork _ hmemory := by
    obtain ⟨m, m', hfork⟩ := hfork
    exact descends_put hp (hmemory ▸ AllowsCopies.fork p.memory m m' space hfork) rfl

/-- Whatever traps have come, all memory has come from that at the start. -/
theorem Reachable.descends [FileSystem σ] [Firmware φ] [AllowsCopies μ E] {k₀ k : KernelState μ β σ φ}
    (h : Reachable k₀ k) : Descends E k₀ k :=
  descends_allowsServices.of_reachable descends_runNext h

end Kernel

end TrapKernel
