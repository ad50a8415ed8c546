import TrapKernel.Proofs.Kernel.Start
import TrapKernel.Proofs.Process.Isolation

/-!
# Runs with reads and writes

Between two traps the running process reads and writes its own memory. An access to a page that is missing, and a
write to one that cannot be written, raises a page fault, which is answered before the access is made.

* `Event.perform_moves`: no event changes the memory of the processes that do not run.
* `Event.perform_agrees`: an event does the same on private memory.
-/

namespace TrapKernel

/-- What the running process does next: it traps with some registers, or it reads or writes memory. -/
inductive Event where
  | trap (f : TrapFrame)
  | load (address length : Nat)
  | store (address : Nat) (bytes : List UInt8)

namespace Event

open ProcessTable Kernel

/-- Whether the addresses that a trap brings to the kernel are below half of what the page table can tell apart, and
those of a read or write below the end of the stack. -/
def Low : Event → Prop
  | trap f => ∀ a ∈ f.addresses, a.toNat < 2 ^ 38
  | load address length => address + length ≤ stackTop
  | store address bytes => address + bytes.length ≤ stackTop

instance : DecidablePred Low
  | trap f => List.decidableBAll (fun a : UInt64 => a.toNat < 2 ^ 38) f.addresses
  | load address length => inferInstanceAs (Decidable (address + length ≤ stackTop))
  | store address bytes => inferInstanceAs (Decidable (address + bytes.length ≤ stackTop))

section Perform

variable {μ β σ φ : Type} [MemorySystem μ β] [FileSystem σ] [Firmware φ]

/-- What happens at an event. The answer are the bytes that were read, or why there are none. -/
def perform : Event → Run (KernelState μ β σ φ) (Except Errno (List UInt8))
  | trap f => do
    trapWith f
    return .ok []
  | load address length => (onCurrentMemory (Access.readUser address length)).run
  | store address bytes => do
    let r ← (onCurrentMemory (Access.writeUser address bytes)).run
    return r.map fun _ => []

/-- One event after the other. -/
def performAll : List Event → Run (KernelState μ β σ φ) (List (Except Errno (List UInt8)))
  | [] => return []
  | e :: rest => do
    let r ← e.perform
    let rs ← performAll rest
    return r :: rs

variable {k : KernelState μ β σ φ}

/-- An event moves the process table and keeps the memory of the processes that do not run. -/
theorem perform_moves (hμ : MemorySystem.NeverIdle μ) (hforest : k.table.Forest μ) (hr : k.table.Running)
    (e : Event) :
    e.perform.Ensures k (fun _ k' => Moves μ k.table k'.table ∧ k.table.Keeps k'.table) NotIdle := by
  obtain ⟨p, hp, -⟩ := id hr
  have hworks : ∀ {k' : KernelState μ β σ φ}, k.table.Works k'.table →
      Moves μ k.table k'.table ∧ k.table.Keeps k'.table := fun h => ⟨.single (h.move hr), h.keeps⟩
  cases e with
  | trap f =>
    unfold perform
    rw [Run.ensures_bind]
    exact (trapWith_traps hμ f hforest hr).mono fun _ _ h => ⟨h.moves hforest hr, h.keeps hforest hr⟩
  | load address length =>
    exact (onCurrentMemory_works (Access.readUser_neverIdle hμ _ _) (.refl hp)).mono fun _ _ h => hworks h
  | store address bytes =>
    unfold perform
    rw [Run.ensures_bind]
    exact (onCurrentMemory_works (Access.writeUser_neverIdle hμ _ _) (.refl hp)).mono fun _ _ h => hworks h

end Perform

variable {σ φ : Type} [FileSystem σ] [Firmware φ] {foreign : Surroundings} {ok : Prop} {k : Kernel σ φ}

private theorem page_lt_of_le {address length : Nat} (h : address + length ≤ stackTop) :
    pageOf address < pageLimit := by
  simp only [pageOf, pageSize, pageLimit, stackTop] at h ⊢
  omega

/-- An event keeps the kernel sound, and does the same on private memory if its addresses are low. -/
theorem perform_agrees (h : k.Sound foreign) (e : Event) (hlow : ok → e.Low) :
    Agrees foreign ok k e.perform e.perform := by
  cases e with
  | trap f =>
    refine .bind (trapWith_agrees h f fun hok a ha => ?_) fun _ _ hk' => .of_pure hk' _
    have hlt := hlow hok a ha
    simp only [pageOf, pageSize, pageLimit] at hlt ⊢
    omega
  | load address length => exact readUser_agrees h _ fun hok => page_lt_of_le (hlow hok)
  | store address bytes =>
    exact .bind (writeUser_agrees h _ fun hok => page_lt_of_le (hlow hok)) fun _ _ hk' => .of_pure hk' _

end Event

end TrapKernel
