import TrapKernel.Memory.Address
import TrapKernel.Memory.Frame
import TrapKernel.Memory.FrameAllocator
import Std.Data.TreeMap

/-!
# Physical memory

`PhysicalMemory` joins the content of every frame with the allocator and with the number of holders of every data
frame. A frame is zeroed when it is taken, whatever it held before. A data frame is given back to the allocator
when its last holder lets go of it.

* `PhysicalMemory.frame_setFrame`: a frame that is written reads back, and the others do not change.
-/

namespace TrapKernel

/-- The content of the frames, which of them are free, and by how many holders each data frame is shared. -/
structure PhysicalMemory where
  allocator : FrameAllocator
  contents : Std.TreeMap Nat Frame
  holders : Std.TreeMap Nat Nat

namespace PhysicalMemory

/-- Memory filled with zeros, of which the pages from `start` up to `limit` are free. -/
def ofPages (start limit : Nat) : PhysicalMemory := ⟨.ofPages start limit, ∅, ∅⟩

/-- The content of a frame; zeros where nothing was written. -/
def frame (m : PhysicalMemory) (p : Nat) : Frame := m.contents.getD p .zero

/-- The memory with the content of one frame replaced. -/
def setFrame (m : PhysicalMemory) (p : Nat) (f : Frame) : PhysicalMemory :=
  { m with contents := m.contents.insert p f }

/-- The number of holders of a data frame. -/
def holderCount (m : PhysicalMemory) (p : Nat) : Nat := m.holders.getD p 0

/-- The memory with the number of holders of one frame replaced. -/
def setHolderCount (m : PhysicalMemory) (p n : Nat) : PhysicalMemory :=
  { m with holders := if n = 0 then m.holders.erase p else m.holders.insert p n }

/-- Gives the whole pages of a range of addresses to the allocator, all of them free. What the frames hold is not
touched. -/
def initFrames (start stop : Nat) : Run PhysicalMemory Unit := do
  let first ← pageAbove start
  modify fun m => { m with allocator := .ofPages first (pageOf stop) }

/-- Fills a frame with zeros, whether the allocator has handed it out or not. -/
def clearFrame (p : Nat) : Run PhysicalMemory Unit := modify fun m => m.setFrame p .zero

/-- Takes a free frame and fills it with zeros. -/
def takeFrame : Run PhysicalMemory (Option Nat) := do
  let m ← get
  match m.allocator.alloc with
  | none => return none
  | some (p, allocator) =>
    set ({ m with allocator }.setFrame p .zero)
    return some p

/-- Gives a frame back to the allocator. -/
def giveFrame (p : Nat) : Run PhysicalMemory Unit := do
  let m ← get
  let allocator ← Run.ofExcept (m.allocator.dealloc p)
  set { m with allocator }

/-- Gives frames back, the first of the list first. -/
def giveFrames : List Nat → Run PhysicalMemory Unit
  | [] => return ()
  | p :: rest => do
    giveFrame p
    giveFrames rest

/-- One more holder shares a data frame. -/
def hold (p : Nat) : Run PhysicalMemory Unit :=
  modify fun m => m.setHolderCount p (m.holderCount p + 1)

/-- One holder lets go of a data frame, which is given back if it was the last. -/
def letGo (p : Nat) : Run PhysicalMemory Unit := do
  let m ← get
  set (m.setHolderCount p (m.holderCount p - 1))
  if m.holderCount p ≤ 1 then giveFrame p

/-- The number of frames that can still be taken. -/
def available : Run PhysicalMemory Nat := do
  Run.ofExcept (← get).allocator.available

@[simp] theorem frame_setFrame (m : PhysicalMemory) (p q : Nat) (f : Frame) :
    (m.setFrame p f).frame q = if p = q then f else m.frame q := by
  simp [frame, setFrame, Std.TreeMap.getD_insert]

@[simp] theorem holderCount_setHolderCount (m : PhysicalMemory) (p q n : Nat) :
    (m.setHolderCount p n).holderCount q = if p = q then n else m.holderCount q := by
  by_cases h : n = 0 <;> by_cases hq : p = q <;>
    simp [holderCount, setHolderCount, Std.TreeMap.getD_insert, Std.TreeMap.getD_erase, h, hq]

end PhysicalMemory

end TrapKernel
