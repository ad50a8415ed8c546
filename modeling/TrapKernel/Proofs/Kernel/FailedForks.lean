import TrapKernel.Proofs.Kernel.Forks
import TrapKernel.Proofs.Memory.FailedForks

/-!
# Forks that fail

A fork fails if all slots are taken, and then nothing has happened, or if there are not frames enough for the page table
of the child. In the latter case a part of the table has been built and some pages of the caller have been marked as
shared. What is left of that is that the caller cannot write to those pages before it has had a fault, for which no
frame is needed.

* `Kernel.Unharmed`: what a fork that ran out of frames has not changed.
* `Kernel.Reachable.forkFailure`: in reachable states no fork that fails does any harm.
-/

namespace TrapKernel

open PhysicalMemory

/-- Whether a page can be written to after one write fault, and no frame is taken or given back for that. -/
def Access.Regains (a : Access) (page : Nat) : Prop :=
  ∀ address, pageOf address = page % pageLimit →
    (handleFault address true).Ensures a
      (fun r a' => r = .ok () ∧ a'.memory.allocator = a.memory.allocator ∧
        ∃ e, a'.translate page = some e ∧ e.isWritable = true)
      fun _ _ => False

namespace Kernel

open ProcessTable

variable {σ φ : Type} {k k₁ : Kernel σ φ} {foreign : Surroundings} {p : Process AddressSpace} {f : TrapFrame}

/-- Whether an attempt that leads from the state `k` to the state `k'` has done no harm to any process. -/
structure Unharmed (k k' : Kernel σ φ) : Prop where
  /-- Besides memory and the next process number nothing has changed. -/
  rest : k' = { k with memory := k'.memory, table := { k.table with nextPid := k'.table.nextPid } }
  available : ∃ free, k.memory.allocator.available = .ok free ∧ k'.memory.allocator.available = .ok free
  isFree : ∀ frame, k'.memory.allocator.IsFree frame ↔ k.memory.allocator.IsFree frame
  holders : ∀ frame, k'.memory.holderCount frame = k.memory.holderCount frame
  /-- All pages of all processes are on the frames where they were, and hold what they held. -/
  backing : ∀ s p, k.table.get s = some p → p.memory.space.backing k'.memory = p.memory.space.backing k.memory
  /-- The page tables of the processes that are not running lead where they led, with the same flags. -/
  others : ∀ s p, s ≠ k.table.current → k.table.get s = some p →
    p.memory.space.translate k'.memory = p.memory.space.translate k.memory
  /-- The running process can write to the same pages as before, at the latest after a fault. -/
  writable : ∀ p page e, k.table.get k.table.current = some p → p.memory.space.translate k.memory page = some e →
    e.isWritable = true → p.memory.space.translate k'.memory page = some e ∨ Access.Regains ⟨p.memory, k'.memory⟩ page

/-- How a fork can fail. -/
inductive ForkFailure (k : Kernel σ φ) : Errno → Kernel σ φ → Prop
  | full (hfull : ∀ s, (k.table.get s).isSome) : ForkFailure k .tryAgain k
  | noFrames {k' : Kernel σ φ} (h : k.Unharmed k') : ForkFailure k .noMemory k'

/-- A page that is writable stays so when the sharing of its address space fails, or becomes so again at the next
write. -/
private theorem regains_of_marked {u : UserMemory AddressSpace} {m m' : PhysicalMemory} {owned held : List Nat}
    (h : u.space.region.Sound m foreign owned held) (h' : u.space.region.Sound m' foreign owned held)
    (hmarked : AddressSpace.Marked u.space.table m m') (hholders : ∀ q, m'.holderCount q = m.holderCount q) {page : Nat}
    {e : Entry} (he : u.space.translate m page = some e) (hw : e.isWritable = true) :
    u.space.translate m' page = some e ∨ Access.Regains ⟨u, m'⟩ page := by
  rcases hmarked page with heq | ⟨e₀, he₀, hshared⟩
  · exact .inl (heq.trans he)
  · refine .inr fun address haddress => ?_
    obtain rfl : e₀ = e := Option.some.inj (he₀.symm.trans he)
    have hsame : ∀ m, u.space.translate m page = u.space.translate m (pageOf address) := fun m => by
      rw [haddress]
      exact PageTable.translate_mod (Nat.mod_mod page pageLimit).symm
    have hcow : e₀.shared.isCow = true := by
      rw [Entry.isCow, Entry.flags_shared]
      exact EntryFlags.shared_cow _ (.inl hw)
    have hone : m'.holderCount e₀.shared.frame = 1 := by
      rw [Entry.frame_shared, hholders]
      exact h.exclusive page e₀ he hw
    have hlt : pageOf address < pageLimit := haddress ▸ Nat.mod_lt _ (by decide)
    refine (Access.handleFault_alone (a := ⟨u, m'⟩) h' hlt ((hsame m').symm.trans hshared) hcow e₀.isWritable_shared
      hone).mono ?_
    rintro r a' ⟨hr, halloc, e', he', hw'⟩
    refine ⟨hr, halloc, e', ?_, hw'⟩
    rw [← he', haddress]
    exact PageTable.translate_mod (Nat.mod_mod page pageLimit).symm

/-- A fork that has failed has done no harm. -/
private theorem Sound.fork_failure (h : k.Sound foreign) (hp : k.table.get k.table.current = some p) :
    Kernel.fork.Ensures k (fun r k' => ∀ e, r = .error e → ForkFailure k e k') fun _ _ => False := by
  rw [ensures_fork hp]
  cases hfree : k.table.firstFree? with
  | none =>
    rintro _ ⟨⟩
    exact .full (firstFree?_eq_none.mp hfree)
  | some slot =>
    have hregion := (h.access hp).region
    refine Run.Ensures.imp ((AddressSpace.fork_spec hregion).and (AddressSpace.fork_holders hregion)) (fun r m' hr => ?_)
      fun _ _ hfalse => hfalse.1
    cases r with
    | some child => exact fun e he => absurd he (by simp)
    | none =>
      obtain ⟨⟨hcontent, hmarked, hspares, hregion'⟩, hholders⟩ := hr
      rintro _ ⟨⟩
      refine .noFrames ⟨rfl, ?_, fun frame => ?_, hholders rfl, fun s q hq => ?_, fun s q hs hq => ?_,
        fun q page e hq he hw => ?_⟩
      · obtain ⟨free, hfree, htotal⟩ := hregion.accounts.available
        obtain ⟨free', hfree', htotal'⟩ := hregion'.accounts.available
        obtain rfl : free' = free := by omega
        exact ⟨free', hfree, hfree'⟩
      · rw [hregion'.accounts.isFree_iff, hregion.accounts.isFree_iff]
      · by_cases hs : s = k.table.current
        · obtain rfl : p = q := Option.some.inj (hp.symm.trans (hs ▸ hq))
          exact AddressSpace.backing_of_marked hregion.valid hmarked hcontent
        · refine AddressSpace.backing_of_marked (h.access hq).region.valid (fun page => .inl ?_) fun page => ?_
          · exact (h.unchanged hspares).translate _ (mem_otherRegions hs hq) page
          · exact congrFun (h.content_of_spares hspares hs hq) page
      · exact funext fun page => (h.unchanged hspares).translate _ (mem_otherRegions hs hq) page
      · obtain rfl : p = q := Option.some.inj (hp.symm.trans hq)
        exact regains_of_marked hregion hregion' hmarked (hholders rfl) he hw

variable [FileSystem σ] [Firmware φ] {entry stackPointer heapStart : UInt64} {memory : PhysicalMemory} {files : σ}
  {firmware : φ} {logLimit : Option LogLevel} {k₀ : Kernel σ φ}

/-- Whatever traps have come, a fork that fails does no harm, also when a trap asks for it. -/
theorem Reachable.forkFailure (hmemory : memory.Consistent)
    (hboot : boot entry stackPointer heapStart memory files firmware logLimit = .ok k₀) (h : Reachable k₀ k) :
    fork.Ensures k (fun r k' => ∀ e, r = .error e → ForkFailure k e k') (fun _ _ => False) ∧
      ∀ f k₁, enterCall .fork f k = .ok () k₁ →
        fork.Ensures k₁ (fun r k' => ∀ e, r = .error e → ForkFailure k₁ e k') fun _ _ => False := by
  obtain ⟨foreign, hsound⟩ := h.exists_sound hmemory hboot
  obtain ⟨-, p, hp, -⟩ := h.table_forest hboot
  refine ⟨hsound.fork_failure hp, fun f k₁ henter => ?_⟩
  obtain ⟨-, htable, -, hmemory⟩ := (enterCall_spec .fork hp).of_ok henter
  refine (hsound.entered hp htable hmemory).fork_failure (p := { p with frame := f.advanced }) ?_
  rw [htable, current_put, get_put_self]

/-- A kernel with nine free frames. -/
def scarceStart : Except Errno (Kernel EmptyFiles Bench.BenchFirmware) :=
  boot 0x1000 0x40000000 0x10000000 (.ofPages 0x80600 0x80609) .empty {} none

/-- The first process gets a page in its heap and one on its stack, on different leaves of its page table. -/
def takeSix : List TrapFrame :=
  [callFrame .brk 0x10001000 0 0, { TrapFrame.zero with scause := 15, stval := 0x10000000 },
    { TrapFrame.zero with scause := 15, stval := 0x3FFFF000 }]

/-- Whether a fork of the first process fails for want of frames and takes the write permission from a page. -/
def failsHalfway (page : Nat) (k : Kernel EmptyFiles Bench.BenchFirmware) : Bool :=
  match k.table.get .init, fork.run k with
  | some p, .ok (.error .noMemory) k' =>
    (p.memory.space.translate k.memory page).any Entry.isWritable &&
      !(p.memory.space.translate k'.memory page).any Entry.isWritable
  | _, _ => false

/-- Whether a trap that asks for a fork leads to such a fork. -/
def trapsHalfway (page : Nat) (k : Kernel EmptyFiles Bench.BenchFirmware) : Bool :=
  match enterCall .fork (callFrame .fork 0 0 0) k with
  | .ok () k₁ => failsHalfway page k₁
  | .error _ _ => false

/-- Three frames are left for the page table of a child, which would need four. -/
theorem unharmed_takeSix : ∃ k₀ k k₁ k' : Kernel EmptyFiles Bench.BenchFirmware,
    scarceStart = .ok k₀ ∧ Reachable k₀ k ∧ enterCall .fork (callFrame .fork 0 0 0) k = .ok () k₁ ∧
      failsHalfway 0x10000 k₁ = true ∧ fork.run k₁ = .ok (.error .noMemory) k' ∧ k₁.Unharmed k' := by
  obtain ⟨k₀, k, hk₀, hk, htest⟩ := exists_of_runFrom
    (show runFrom scarceStart takeSix (trapsHalfway 0x10000) = true by decide +kernel)
  have hmemory : (PhysicalMemory.ofPages 0x80600 0x80609).Consistent :=
    PhysicalMemory.consistent_ofPages (by decide) (by decide) ∅
  unfold trapsHalfway at htest
  split at htest
  case h_2 => exact absurd htest (by simp)
  next k₁ henter =>
    have hfork : ∃ k', fork.run k₁ = .ok (.error .noMemory) k' := by
      unfold failsHalfway at htest
      split at htest
      next hfork => exact ⟨_, hfork⟩
      · exact absurd htest (by simp)
    obtain ⟨k', hfork⟩ := hfork
    cases ((Reachable.forkFailure hmemory hk₀ hk).2 _ k₁ henter).of_ok hfork .noMemory rfl with
    | noFrames hunharmed => exact ⟨k₀, k, k₁, k', hk₀, hk, henter, htest, hfork, hunharmed⟩

end Kernel

end TrapKernel
