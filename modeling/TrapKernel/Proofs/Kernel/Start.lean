import TrapKernel.Proofs.Kernel.Agreement
import TrapKernel.Proofs.Kernel.Reachable

/-!
# The start of the kernel

The kernel starts sound if the books of physical memory are in order and no data frame is held yet. The frames may
hold anything, and some may be in use outside of the system.

* `Kernel.boot_spec`: the kernel is sound at the start, and starts on private memory as on paged memory.
* `Kernel.Reachable.sound`: it stays sound whatever traps come.
-/

namespace TrapKernel

/-- A region is sound as the only one of a system. -/
private theorem Sound.of_region {m : PhysicalMemory} {foreign : Surroundings} {x : Region}
    (h : x.Sound m foreign [] []) : Sound m foreign [x] where
  accounts := by simpa using h.accounts
  valid := List.forall_mem_singleton.mpr h.valid
  exclusive := List.forall_mem_singleton.mpr h.exclusive

private theorem ProcessTable.regions_initial (p : Process AddressSpace) :
    (ProcessTable.initial p).regions.Perm [p.memory.space.region] := by
  have hothers : (ProcessTable.initial p).otherRegions .init = [] := by
    refine List.filterMap_eq_nil_iff.mpr fun s hs => ?_
    have hne : s ≠ .init := fun heq => (List.nodup_finRange _).not_mem_erase (heq ▸ hs)
    rw [get_initial, if_neg hne, Option.map_none]
  have hperm := (ProcessTable.initial p).regions_perm .init
  rwa [hothers, get_initial, if_pos rfl, List.append_nil] at hperm

namespace Kernel

open ProcessTable

variable {σ φ : Type} {entry stackPointer heapStart : UInt64} {memory : PhysicalMemory} {files : σ} {firmware : φ}
  {logLimit : Option LogLevel} {foreign : Surroundings} {k₀ k : Kernel σ φ}

/-- The kernel with the first process only is sound, and looks the same as on private memory. -/
theorem boot_spec (hmemory : memory.Accounts foreign [] [])
    (hboot : boot entry stackPointer heapStart memory files firmware logLimit = .ok k₀) :
    k₀.Sound foreign ∧ ∀ answers : Answers,
      boot entry stackPointer heapStart (true :: answers) files firmware logLimit = .ok (k₀.privately answers) := by
  unfold boot at hboot
  split at hboot
  next space memory' hspace =>
    obtain ⟨hpages, hregion, -, -, htranslate, -⟩ := (AddressSpace.create_spec hmemory).of_ok (a := some space) hspace
    cases Except.ok.inj hboot
    have hnone : ∀ page, space.pages[page]? = none := AddressSpace.getElem?_of_pages_eq_empty hpages
    have hcontent : space.content memory' = fun _ => none := funext fun page => by
      rw [AddressSpace.content, hnone, Option.map_none]
    have hregions := regions_initial (.initial entry stackPointer heapStart space)
    refine ⟨⟨(Sound.of_region hregion).perm hregions.symm, fun s p hp => ?_⟩, fun answers => ?_⟩
    · rw [get_initial] at hp
      split at hp
      · cases Option.some.inj hp
        refine ⟨.inl rfl, fun page q hq => ?_, fun page e he => ?_⟩
        · exact absurd ((hnone page).symm.trans hq) (by simp)
        · exact absurd ((htranslate page).symm.trans he) (by simp)
      · exact absurd hp (by simp)
    · rw [privately, initial_mapSpace, Process.mapSpace, UserMemory.mapSpace]
      simp only [Process.initial, hcontent]
      rfl
  · exact absurd hboot (by simp)

/-- The kernel stays sound whatever traps come. -/
theorem Reachable.sound [FileSystem σ] [Firmware φ] (hsound : k₀.Sound foreign) (h : Reachable k₀ k) :
    k.Sound foreign := by
  induction h with
  | start => exact hsound
  | trap _ f hk ih => exact ((trapWith_agrees ih f False.elim).of_ok hk).1

theorem Reachable.exists_sound [FileSystem σ] [Firmware φ] (h : Reachable k₀ k) (hmemory : memory.Consistent)
    (hboot : boot entry stackPointer heapStart memory files firmware logLimit = .ok k₀) : ∃ foreign, k.Sound foreign := by
  obtain ⟨foreign, haccounts⟩ := hmemory
  exact ⟨foreign, h.sound (boot_spec haccounts hboot).1⟩

/-- The books of the memory that the bench kernel starts with are in order. -/
theorem consistent_benchMemory : (PhysicalMemory.ofPages 0x80600 0x80700).Consistent :=
  PhysicalMemory.consistent_ofPages (by decide) (by decide) ∅

end Kernel

end TrapKernel
