import TrapKernel.Memory.AddressSpace
import TrapKernel.Memory.User

/-!
# Paged memory

The memory system of the kernel: every process has an `AddressSpace`, and the address spaces have the frames of
`PhysicalMemory` in common.

* `Access.handleFault` answers a page fault: a write to a copy-on-write page gets a private page, and the first touch
  of a heap or stack page a page of zeros.
-/

namespace TrapKernel

/-- The user memory of one process together with the physical memory behind it. -/
abbrev Access : Type := MemoryAccess PhysicalMemory AddressSpace

namespace Access

/-- Makes a copy-on-write page writable. The answer tells whether it was one. -/
def resolveCow (page : Nat) : Attempt Access Bool := do
  let a ← get
  match ← Attempt.within MemoryAccess.memory (fun a memory => { a with memory }) (a.user.space.resolveCow page) with
  | none => return false
  | some space =>
    modify fun a => { a with user.space := space }
    return true

/-- Maps a page number to a new frame of zeros. The answer tells whether there were frames enough. -/
def mapZeroed (page : Nat) (flags : EntryFlags) : Run Access Bool := do
  let a ← get
  let (space, mapped) ←
    Run.within MemoryAccess.memory (fun a memory => { a with memory }) (a.user.space.mapZeroed page flags)
  modify fun a => { a with user.space := space }
  return mapped

/-- The valid entry of a page number, if there is one. -/
def translate (a : Access) (page : Nat) : Option Entry := a.user.space.translate a.memory page

/-- Answers a page fault: a write to a copy-on-write page gets a private page, and the first touch of a heap or
stack page a page of zeros. -/
def handleFault (address : Nat) (write : Bool) : Attempt Access Unit := do
  let a ← get
  match a.translate (pageOf address) with
  | some e =>
    if write && !e.isWritable then
      if ← resolveCow (pageOf address) then return () else throw .badAddress
    else return ()
  | none =>
    if a.user.isDemandZero address then
      if ← mapZeroed (pageOf address) .userData then return () else throw .noMemory
    else throw .badAddress

/-- The frame behind an address whose page is not there for the access yet. -/
def frameAfterFault (address : Nat) (write : Bool) : Attempt Access Nat := do
  handleFault address write
  match (← get).translate (pageOf address) with
  | some e => return e.frame
  | none => throw .badAddress

/-- The frame behind an address. The fault that the access raises, if any, is answered first. -/
def frameOf (address : Nat) (write : Bool) : Attempt Access Nat := do
  match (← get).translate (pageOf address) with
  | some e => if !write || e.isWritable then return e.frame else frameAfterFault address write
  | none => frameAfterFault address write

end Access

instance : MemorySystem PhysicalMemory AddressSpace where
  create := AddressSpace.create
  fork := AddressSpace.fork
  unmapRange := AddressSpace.unmapRange
  unmapAll := AddressSpace.unmapAll
  release := AddressSpace.release
  isMapped s m page := (s.translate m page).isSome
  handleFault := Access.handleFault
  frameOf := Access.frameOf
  frame a p := a.memory.frame p
  setFrame a p f := { a with memory := a.memory.setFrame p f }

end TrapKernel
