import TrapKernel.Proofs.Kernel.Descent
import TrapKernel.Proofs.Kernel.Start
import TrapKernel.Proofs.Memory.HeapBounds

/-!
# The heaps of all processes

No process has a page outside of its heap and of its stack, whatever traps have come, and the end of a heap moves without
a change for anybody else. That all memory is within its bounds is a fact about one process at a time: what is done to
its memory keeps it there, and a child gets a copy.

* `UserMemory.KeepsBounds`: what is done to memory keeps it within its bounds.
* `Kernel.Reachable.bounded`: the bounds.
* `Kernel.Reachable.keepsHeaps`: the bounds, and all that a move of the end of a heap does.
-/

namespace TrapKernel

namespace UserMemory

variable {start : UInt64}

/-- Whether memory is still within its bounds if it was before. -/
def KeepsBounds (start : UInt64) (u u' : UserMemory AddressSpace) : Prop := u.Bounded start → u'.Bounded start

instance : IsPreorder (UserMemory AddressSpace) (KeepsBounds start) where
  refl _ h := h
  trans _ _ _ h h' hu := h' (h hu)

instance : IsPreorder Access fun a a' => KeepsBounds start a.user a'.user where
  refl _ h := h
  trans _ _ _ h h' hu := h' (h hu)

end UserMemory

namespace Access

open UserMemory

variable {start : UInt64}

private theorem resolveCow_keepsBounds (page : Nat) :
    (resolveCow page).Respects fun a a' => KeepsBounds start a.user a'.user := by
  refine ⟨fun a => ?_⟩
  unfold resolveCow
  simp only [Attempt.ensures_bind, Attempt.ensures_get, Attempt.ensures_within]
  refine Run.ensures_iff.mpr ⟨fun r m' hr => ?_, fun _ _ _ h => h⟩
  match r with
  | .error e => exact fun h => h
  | .ok none => exact fun h => h
  | .ok (some space) =>
    exact fun h => { h with pages := (AddressSpace.resolveCow_holds h.pages page).of_ok hr space rfl }

/-- A page that comes into being is a page of the heap or of the stack. -/
private theorem mapZeroed_keepsBounds {a : Access} {address : Nat} (hzero : a.user.isDemandZero address = true)
    (flags : EntryFlags) :
    (mapZeroed (pageOf address) flags).Ensures a (fun _ a' => KeepsBounds start a.user a'.user)
      fun _ a' => KeepsBounds start a.user a'.user := by
  unfold mapZeroed
  simp only [Run.ensures_bind, Run.ensures_get, Run.ensures_within]
  refine Run.ensures_iff.mpr ⟨fun r m' hr h => ?_, fun _ _ _ h => h⟩
  exact { h with pages := (AddressSpace.mapZeroed_holds h.pages (h.of_isDemandZero hzero) flags).of_ok hr }

private theorem handleFault_keepsBounds (address : Nat) (write : Bool) :
    (handleFault address write).Respects fun a a' => KeepsBounds start a.user a'.user := by
  refine ⟨fun a => ?_⟩
  unfold handleFault
  simp only [Attempt.ensures_bind, Attempt.ensures_get]
  split
  · split
    · refine Attempt.Respects.ensures ((resolveCow_keepsBounds _).bind fun cow => ?_) a
      split
      · exact Attempt.respects_pure _
      · exact Attempt.respects_throw _
    · exact fun h => h
  · split
    next hzero =>
      simp only [Attempt.ensures_bind, Attempt.ensures_liftM]
      refine (mapZeroed_keepsBounds hzero _).mono fun mapped a' h => ?_
      split <;> exact h
    · exact fun h => h

private theorem frameOf_keepsBounds (address : Nat) (write : Bool) :
    (frameOf address write).Respects fun a a' => KeepsBounds start a.user a'.user := by
  have hafter : (frameAfterFault address write).Respects fun a a' => KeepsBounds start a.user a'.user := by
    refine (handleFault_keepsBounds address write).bind fun _ => Attempt.respects_get.bind fun a => ?_
    split
    · exact Attempt.respects_pure _
    · exact Attempt.respects_throw _
  refine Attempt.respects_get.bind fun a => ?_
  split
  · split
    · exact Attempt.respects_pure _
    · exact hafter
  · exact hafter

end Access

namespace UserMemory

variable {start : UInt64}

/-- All that is done to the memory of a process keeps it within its bounds. -/
instance : AllowsCopies PhysicalMemory (KeepsBounds start) where
  toAllowsWork := Access.allowsWork_of_fault Access.handleFault_keepsBounds Access.frameOf_keepsBounds
    (fun _ _ _ h => h) fun _ brk _ =>
      Run.ensures_iff.mpr ⟨fun _ _ hok (h : Bounded start _) => (h.setBrk brk).of_ok hok, fun _ _ _ => trivial⟩
  fork _ _ _ space hfork h := { h with pages := (AddressSpace.fork_holds h.pages).of_ok hfork space rfl }
  unmapAll _ _ := Run.ensures_iff.mpr ⟨fun _ _ hok (h : Bounded start _) =>
    { h with pages := AddressSpace.unmapAll_holds.of_ok hok }, fun _ _ _ => trivial⟩

end UserMemory

namespace Kernel

open ProcessTable UserMemory

variable {σ φ : Type} [FileSystem σ] [Firmware φ] {entry stackPointer heapStart : UInt64} {memory : PhysicalMemory}
  {files : σ} {firmware : φ} {logLimit : Option LogLevel} {k₀ k : Kernel σ φ}

omit [FileSystem σ] [Firmware φ] in
/-- At the start there are no pages. -/
private theorem bounded_of_boot (hboot : boot entry stackPointer heapStart memory files firmware logLimit = .ok k₀)
    {s : Slot} {p : Process AddressSpace} (hp : k₀.table.get s = some p) : p.memory.Bounded heapStart := by
  unfold boot at hboot
  split at hboot
  next space _ hspace =>
    cases Except.ok.inj hboot
    obtain ⟨rfl, rfl⟩ := get_initial_eq_some hp
    exact ⟨rfl, .inl rfl, AddressSpace.create_holds.of_ok hspace space rfl⟩
  · exact absurd hboot (by simp)

/-- Whatever traps have come, the memory of every process is within its bounds. -/
theorem Reachable.bounded (hboot : boot entry stackPointer heapStart memory files firmware logLimit = .ok k₀)
    (h : Reachable k₀ k) {s : Slot} {p : Process AddressSpace} (hp : k.table.get s = some p) :
    p.memory.Bounded heapStart := by
  obtain ⟨s', p₀, hp₀, hkeeps⟩ := h.descends (E := KeepsBounds heapStart) s p hp
  exact hkeeps (bounded_of_boot hboot hp₀)

/-- Whether what has been done to the memory of the process in one slot is nothing to the others: they have the same
entries in their page tables, the frames of their pages are still held, and their pages have the same bytes. -/
structure SparesOthers (k : Kernel σ φ) (s : Slot) (m' : PhysicalMemory) : Prop where
  translate : ∀ s' q, s' ≠ s → k.table.get s' = some q →
    q.memory.space.translate m' = q.memory.space.translate k.memory
  holders : ∀ s' q, s' ≠ s → k.table.get s' = some q → ∀ page p : Nat, q.memory.space.pages[page]? = some p →
    0 < m'.holderCount p
  content : ∀ s' q, s' ≠ s → k.table.get s' = some q → q.memory.space.content m' = q.memory.space.content k.memory

/-- Whether the heaps of all processes start at `start` and are as they should be, and move as they should. -/
structure KeepsHeaps (start : UInt64) (k : Kernel σ φ) : Prop where
  /-- A process has pages of its heap and of its stack only. -/
  bounded : ∀ s p, k.table.get s = some p → p.memory.Bounded start
  /-- The end of the heap of any process moves as it should. -/
  moves : ∀ s p brk, k.table.get s = some p →
    (p.memory.setBrk brk).Ensures k.memory (fun u' m' => p.memory.MovesHeap k.memory brk u' m' ∧ k.SparesOthers s m')
      fun _ _ => False
  /-- A process that asks for it has the end of its own heap moved, is told where it is then, and nothing else happens. -/
  call : ∀ f p, k.table.get k.table.current = some p → f.Asks .brk →
    (answerCall f).Ensures k
      (fun r k' => ∃ u', (p.memory.setBrk f.a0) k.memory = .ok u' k'.memory ∧ r = .ok u'.brk ∧
        k'.table = k.table.put k.table.current (some { p with frame := f.advanced, memory := u' }))
      fun _ _ => wordLimit ≤ f.sepc.toNat + 4

variable {foreign : Surroundings}

omit [FileSystem σ] [Firmware φ] in
private theorem Sound.sparesOthers (h : k.Sound foreign) {s : Slot} {p : Process AddressSpace} {a' : Access}
    (hleads : Access.Leads foreign (k.otherNodes s) (k.otherFrames s) ⟨p.memory, k.memory⟩ a') :
    k.SparesOthers s a'.memory where
  translate s' q hne hq := funext fun page =>
    (h.unchanged hleads.spares).translate _ (mem_otherRegions hne hq) page
  holders s' q hne hq page p hpage := by
    have hheld : p ∈ k.otherFrames s :=
      List.mem_flatMap.mpr ⟨_, mem_otherRegions hne hq, AddressSpace.mem_frames hpage⟩
    have hmem : p ∈ a'.user.space.region.frames ++ k.otherFrames s := List.mem_append_right _ hheld
    rw [hleads.sound.region.accounts.holderCount_eq hmem]
    exact List.count_pos_iff.mpr hmem
  content s' q hne hq := h.content_of_spares hleads.spares hne hq

/-- A trap that asks for a move of the end of the heap. -/
private theorem Sound.answerCall_brk (h : k.Sound foreign) {p : Process AddressSpace}
    (hp : k.table.get k.table.current = some p) {f : TrapFrame} (hasks : f.Asks .brk) :
    (answerCall f).Ensures k
      (fun r k' => ∃ u', (p.memory.setBrk f.a0) k.memory = .ok u' k'.memory ∧ r = .ok u'.brk ∧
        k'.table = k.table.put k.table.current (some { p with frame := f.advanced, memory := u' }))
      fun _ _ => wordLimit ≤ f.sepc.toNat + 4 := by
  rw [answerCall_eq hasks, Run.ensures_bind]
  refine (enterCall_spec .brk hp).mono ?_
  rintro ⟨⟩ k₁ ⟨-, htable, -, hmemory⟩
  have hp₁ : k₁.table.get k₁.table.current = some { p with frame := f.advanced } := by
    rw [htable, current_put, get_put_self]
  unfold perform callBrk
  rw [Attempt.ensures_run]
  simp only [Attempt.ensures_bind, Attempt.ensures_ofRun, ensures_currentProcess hp₁, ensures_onMemory]
  rw [hmemory]
  refine Run.ensures_iff.mpr ⟨fun u' m' hu' => ?_, fun _ _ herror => ?_⟩
  · rw [ensures_modifyCurrent (k := { k₁ with memory := m' }) hp₁]
    exact ⟨u', hu', rfl, by rw [htable, current_put, put_put]⟩
  · exact ((setBrk_moves (h.access hp) f.a0).of_error herror).elim

/-- Whatever traps have come, the heaps of all processes are as they should be. -/
theorem Reachable.keepsHeaps (hboot : boot entry stackPointer heapStart memory files firmware logLimit = .ok k₀)
    (hmemory : memory.Consistent) (h : Reachable k₀ k) : k.KeepsHeaps heapStart := by
  obtain ⟨foreign, hsound⟩ := h.exists_sound hmemory hboot
  exact {
    bounded := fun s p hp => h.bounded hboot hp
    moves := fun s p brk hp => (setBrk_moves (hsound.access hp) brk).mono fun u' m' hends =>
      ⟨hends.1, hsound.sparesOthers hends.2⟩
    call := fun f p hp hasks => hsound.answerCall_brk hp hasks }

/-- A heap that neither starts nor ends at the start of a page gets its last page, and then a child shares it. -/
def growHeap : List TrapFrame :=
  [callFrame .brk 0x10002345 0 0, { TrapFrame.zero with scause := 15, stval := 0x10002344 }, callFrame .fork 0 0 0]

/-- The page would be dropped if the heap were to end where the page starts, but not one byte further up. -/
theorem keepsHeaps_shared : ∃ (k₀ k : Kernel EmptyFiles Bench.BenchFirmware) (p : Process AddressSpace),
    boot 0x1000 0x40000000 0x10000123 (.ofPages 0x80600 0x80700) .empty {} none = .ok k₀ ∧ Reachable k₀ k ∧
      k.table.get .init = some p ∧ (p.memory.space.pages[0x10002]?).isSome = true ∧ p.memory.brk = 0x10002345 ∧
      p.memory.Drops 0x10002000 0x10002 ∧ ¬p.memory.Drops 0x10002001 0x10002 ∧ k.KeepsHeaps 0x10000123 := by
  obtain ⟨k₀, k, hk₀, hk, htest⟩ := exists_of_runFrom (show runFrom
    (boot 0x1000 0x40000000 0x10000123 (.ofPages 0x80600 0x80700) .empty {} none) growHeap (fun k =>
      (k.table.get .init).any fun p => (p.memory.space.pages[0x10002]?).isSome && p.memory.brk = 0x10002345) = true by
        decide +kernel)
  obtain ⟨p, hp, htest⟩ := (Option.any_eq_true _ _).mp htest
  rw [Bool.and_eq_true, decide_eq_true_eq] at htest
  obtain ⟨hpage, hbrk⟩ := htest
  refine ⟨k₀, k, p, hk₀, hk, hp, hpage, hbrk, ?_, ?_, Reachable.keepsHeaps hk₀ consistent_benchMemory hk⟩
  · unfold Drops
    rw [hbrk]
    decide
  · unfold Drops
    rw [hbrk]
    decide

end Kernel

end TrapKernel
