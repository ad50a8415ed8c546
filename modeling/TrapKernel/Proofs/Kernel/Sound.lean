import TrapKernel.Proofs.Kernel.Rules
import TrapKernel.Proofs.Memory.UserCopies

/-!
# Sound kernels

The kernel is sound if the address spaces of all processes are the regions of sound memory. What is done to the memory
of one process through its address space keeps the kernel sound and does not change what the others see.

* `Kernel.Sound.access`: the memory of one process among the others.
* `Kernel.Sound.store`: the memory of one process has changed.
-/

namespace TrapKernel

namespace ProcessTable

variable {t : ProcessTable}

/-- The regions of the processes in some slots. -/
def regionsAt (t : ProcessTable) (slots : List Slot) : List Region :=
  slots.filterMap fun s => (t.get s).map fun p => p.memory.space.region

/-- The regions of all processes. -/
def regions (t : ProcessTable) : List Region := t.regionsAt Slot.all

/-- The regions of the processes in other slots. -/
def otherRegions (t : ProcessTable) (s : Slot) : List Region := t.regionsAt (Slot.all.erase s)

theorem mem_regionsAt {slots : List Slot} {x : Region} :
    x ∈ t.regionsAt slots ↔ ∃ s ∈ slots, ∃ p, t.get s = some p ∧ p.memory.space.region = x := by
  simp [regionsAt]

theorem mem_otherRegions {s s' : Slot} (hs : s' ≠ s) {p : Process AddressSpace} (hp : t.get s' = some p) :
    p.memory.space.region ∈ t.otherRegions s :=
  mem_regionsAt.mpr ⟨s', (List.mem_erase_of_ne hs).mpr (Slot.mem_all s'), p, hp, rfl⟩

theorem regions_perm (t : ProcessTable) (s : Slot) :
    t.regions.Perm (((t.get s).map fun p => p.memory.space.region).toList ++ t.otherRegions s) := by
  unfold regions otherRegions regionsAt
  refine ((List.perm_cons_erase (Slot.mem_all s)).filterMap _).trans (.of_eq ?_)
  rw [List.filterMap_cons]
  cases t.get s <;> rfl

private theorem otherRegions_put (s : Slot) (p : Option (Process AddressSpace)) :
    (t.put s p).otherRegions s = t.otherRegions s := by
  refine List.filterMap_congr fun s' hs' => ?_
  rw [get_put_of_ne]
  rintro rfl
  exact (List.nodup_finRange _).not_mem_erase hs'

/-- The regions depend on the memory of the processes only. -/
private theorem regions_congr {t' : ProcessTable}
    (h : ∀ s, (t'.get s).map Process.memory = (t.get s).map Process.memory) : t'.regions = t.regions := by
  unfold regions regionsAt
  refine List.filterMap_congr fun s _ => ?_
  have hs := h s
  cases hp : t.get s with
  | none =>
    rw [hp, Option.map_none, Option.map_eq_none_iff] at hs
    rw [hs]
  | some p =>
    rw [hp, Option.map_some, Option.map_eq_some_iff] at hs
    obtain ⟨p', hp', hmemory⟩ := hs
    rw [hp', Option.map_some, Option.map_some, hmemory]

end ProcessTable

namespace Kernel

open ProcessTable

variable {σ φ : Type} {foreign : Surroundings} {k k' : Kernel σ φ}

/-- Whether the address spaces of all processes are the regions of sound memory. -/
structure Sound (foreign : Surroundings) (k : Kernel σ φ) : Prop where
  regions : TrapKernel.Sound k.memory foreign k.table.regions
  fine : ∀ s p, k.table.get s = some p → p.memory.Fine k.memory

/-- The nodes of the page tables of the other processes. -/
def otherNodes (k : Kernel σ φ) (s : Slot) : List Nat := (k.table.otherRegions s).flatMap fun x => x.table.nodes

/-- The data frames of the other processes. -/
def otherFrames (k : Kernel σ φ) (s : Slot) : List Nat := (k.table.otherRegions s).flatMap Region.frames

namespace Sound

theorem congr (h : k.Sound foreign) (hmemory : k'.memory = k.memory)
    (htable : ∀ s, (k'.table.get s).map Process.memory = (k.table.get s).map Process.memory) : k'.Sound foreign where
  regions := by
    rw [hmemory, regions_congr htable]
    exact h.regions
  fine s p hp := by
    have hs := htable s
    rw [hp, Option.map_some, eq_comm, Option.map_eq_some_iff] at hs
    obtain ⟨p', hp', heq⟩ := hs
    rw [hmemory, ← heq]
    exact h.fine s p' hp'

variable {s : Slot} {p : Process AddressSpace}

private theorem cons (h : k.Sound foreign) (hp : k.table.get s = some p) :
    TrapKernel.Sound k.memory foreign (p.memory.space.region :: k.table.otherRegions s) := by
  have hperm := k.table.regions_perm s
  rw [hp] at hperm
  exact h.regions.perm hperm

/-- The memory of one process is sound among the others. -/
theorem access (h : k.Sound foreign) (hp : k.table.get s = some p) :
    Access.Sound ⟨p.memory, k.memory⟩ foreign (k.otherNodes s) (k.otherFrames s) :=
  ⟨(h.cons hp).head, h.fine s p hp⟩

/-- What is done to the memory of one process does not change what the others see. -/
theorem unchanged (h : k.Sound foreign) {m : PhysicalMemory}
    (hs : Region.Spares k.memory m (k.otherNodes s) (k.otherFrames s)) :
    TrapKernel.Sound.Unchanged k.memory m (k.table.otherRegions s) := by
  refine TrapKernel.Sound.unchanged (fun y hy => ?_) hs
  obtain ⟨s', -, q, hq, rfl⟩ := mem_regionsAt.mp hy
  exact (h.cons hq).head.valid

private theorem fine_of_spares (h : k.Sound foreign) {m : PhysicalMemory}
    (hs : Region.Spares k.memory m (k.otherNodes s) (k.otherFrames s)) {s' : Slot} (hne : s' ≠ s)
    {q : Process AddressSpace} (hq : k.table.get s' = some q) : q.memory.Fine m :=
  (h.fine s' q hq).congr fun page =>
    (h.unchanged hs).translate q.memory.space.region (mem_otherRegions hne hq) page

theorem content_of_spares (h : k.Sound foreign) {m : PhysicalMemory}
    (hs : Region.Spares k.memory m (k.otherNodes s) (k.otherFrames s)) {s' : Slot} (hne : s' ≠ s)
    {q : Process AddressSpace} (hq : k.table.get s' = some q) :
    q.memory.space.content m = q.memory.space.content k.memory :=
  funext fun _ => AddressSpace.content_congr rfl fun p hp =>
    (h.unchanged hs).frame q.memory.space.region (mem_otherRegions hne hq) p hp

/-- The content of one slot has changed, and the processes in other slots are still fine. -/
private theorem of_put {pt : Option (Process AddressSpace)} (htable : k'.table = k.table.put s pt)
    (hregions : TrapKernel.Sound k'.memory foreign
      ((pt.map fun q => q.memory.space.region).toList ++ k.table.otherRegions s))
    (hfine : ∀ q, pt = some q → q.memory.Fine k'.memory)
    (hothers : ∀ s' q, s' ≠ s → k.table.get s' = some q → q.memory.Fine k'.memory) : k'.Sound foreign := by
  refine ⟨hregions.perm ?_, fun s' q hq => ?_⟩
  · have hperm := k'.table.regions_perm s
    rw [htable, get_put_self, otherRegions_put] at hperm
    rw [htable]
    exact hperm.symm
  · rw [htable, get_put] at hq
    split at hq
    · exact hfine q hq
    next hne => exact hothers s' q (Ne.symm hne) hq

/-- The memory of one process has changed. -/
theorem store (h : k.Sound foreign) (hp : k.table.get s = some p) {q : Process AddressSpace}
    (hleads : Access.Leads foreign (k.otherNodes s) (k.otherFrames s) ⟨p.memory, k.memory⟩ ⟨q.memory, k'.memory⟩)
    (htable : k'.table = k.table.put s (some q)) : k'.Sound foreign :=
  of_put htable ((h.cons hp).step hleads.sound.region hleads.spares)
    (fun _ hq => Option.some.inj hq ▸ hleads.sound.fine) fun _ _ hne hq => h.fine_of_spares hleads.spares hne hq

/-- A process has been removed and its frames have been given back. -/
theorem remove (h : k.Sound foreign) (hp : k.table.get s = some p)
    (haccounts : k'.memory.Accounts foreign (k.otherNodes s) (k.otherFrames s))
    (hspares : Region.Spares k.memory k'.memory (k.otherNodes s) (k.otherFrames s))
    (htable : k'.table = k.table.put s none) : k'.Sound foreign := by
  have hcons := h.cons hp
  obtain ⟨hvalid, hexclusive⟩ := TrapKernel.Sound.rest_of_spares
    (fun y hy => hcons.valid y (List.mem_cons_of_mem _ hy)) (fun y hy => hcons.exclusive y (List.mem_cons_of_mem _ hy)) hspares
  exact of_put htable ⟨haccounts, hvalid, hexclusive⟩ (fun _ hq => absurd hq (by simp))
    fun _ _ hne hq => h.fine_of_spares hspares hne hq

/-- The pages of a process that have been marked as shared are still usable. -/
theorem fine_of_marked {u : UserMemory AddressSpace} {m m' : PhysicalMemory} (h : u.Fine m)
    (hmarked : AddressSpace.Marked u.space.table m m') : u.Fine m' where
  brk := h.brk
  page_lt := h.page_lt
  usable page e he := by
    rcases hmarked page with heq | ⟨e₀, he₀, hshared⟩
    · exact h.usable page e (heq.symm.trans he)
    · obtain rfl : e₀.shared = e := Option.some.inj (hshared.symm.trans he)
      refine .inr ?_
      rw [Entry.isCow, Entry.flags_shared]
      exact EntryFlags.shared_cow _ (h.usable page e₀ he₀)

/-- A process has got a copy in an empty slot. -/
theorem fork (h : k.Sound foreign) (hp : k.table.get s = some p) {slot : Slot} (hslot : k.table.get slot = none)
    {child : AddressSpace} {q : Process AddressSpace} (hq : q.memory = { p.memory with space := child })
    (htable : k'.table = k.table.put slot (some q)) (hmarked : AddressSpace.Marked p.memory.space.table k.memory k'.memory)
    (hspares : Region.Spares k.memory k'.memory (k.otherNodes s) (k.otherFrames s))
    (hparent : p.memory.space.region.Sound k'.memory foreign (child.table.nodes ++ k.otherNodes s)
      (child.region.frames ++ k.otherFrames s))
    (hchild : child.region.Sound k'.memory foreign (p.memory.space.table.nodes ++ k.otherNodes s)
      (p.memory.space.region.frames ++ k.otherFrames s))
    (hpages : ∀ page q : Nat, child.pages[page]? = some q → ∃ q', p.memory.space.pages[page]? = some q')
    (hmirror : ∀ page e, child.translate k'.memory page = some e →
      ∃ e', p.memory.space.translate k'.memory page = some e' ∧ e.frame = e'.frame ∧ e.flags = e'.flags) :
    k'.Sound foreign := by
  have hfine : p.memory.Fine k'.memory := fine_of_marked (h.fine s p hp) hmarked
  have hperm : (p.memory.space.region :: k.table.otherRegions s).Perm (k.table.otherRegions slot) := by
    have hs := k.table.regions_perm s
    have hslot' := k.table.regions_perm slot
    rw [hp] at hs
    rw [hslot] at hslot'
    exact hs.symm.trans hslot'
  have hsplit : TrapKernel.Sound k'.memory foreign (child.region :: k.table.otherRegions slot) :=
    ((h.cons hp).split hparent hchild hspares).perm (hperm.cons _)
  refine of_put htable ?_ (fun _ heq => ?_) fun s' q' hne hq' => ?_
  · rw [Option.map_some, hq]
    exact hsplit
  · rw [← Option.some.inj heq, hq]
    refine ⟨hfine.brk, fun page q hpage => ?_, fun page e he => ?_⟩
    · obtain ⟨q', hq'⟩ := hpages page q hpage
      exact hfine.page_lt page q' hq'
    · obtain ⟨e', he', -, hflags⟩ := hmirror page e he
      rw [Entry.isWritable, Entry.isCow, hflags]
      exact hfine.usable page e' he'
  · by_cases hs : s' = s
    · rw [hs, hp, Option.some.injEq] at hq'
      rw [← hq']
      exact hfine
    · exact h.fine_of_spares hspares hs hq'

end Sound

end Kernel

end TrapKernel
