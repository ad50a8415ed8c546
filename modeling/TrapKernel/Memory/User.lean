import TrapKernel.Memory.Address
import TrapKernel.Memory.Frame

/-!
# User memory

`UserMemory` is what a process sees: its pages, a heap that reaches from `heapStart` up to `brk`, and a stack of two
pages below `stackTop`. Pages of heap and stack come into being, filled with zeros, when they are first touched. How
the pages are kept is left to a `MemorySystem`. Everything here works on a `MemoryAccess`: the user memory of one
process and the memory that all processes have in common.

* `UserMemory.setBrk` moves the end of the heap and drops the pages above it.
* `UserMemory.checkRange` tells beforehand, without a change, whether a range of addresses is usable.
* `Access.writeUser`, `Access.readUser` and `Access.readString` copy bytes across the border, page by page. A failure
  leaves the pages before it written.
-/

namespace TrapKernel

/-- The memory of a process: the bounds of its heap and its pages. -/
structure UserMemory (β : Type) where
  heapStart : UInt64
  brk : UInt64
  space : β

/-- The user memory of one process together with the memory that all processes have in common. -/
structure MemoryAccess (μ β : Type) where
  user : UserMemory β
  memory : μ

/-- The addresses of heap and stack, whose pages come into being at the first touch. -/
def UserMemory.isDemandZero {β : Type} (u : UserMemory β) (address : Nat) : Bool :=
  (u.heapStart.toNat ≤ address && address < u.brk.toNat) || (stackBottom ≤ address && address < stackTop)

/-- The services that keep the pages of processes. The pages of one process have the type `β`, and what all
processes have in common the type `μ`. -/
class MemorySystem (μ : Type) (β : outParam Type) where
  /-- No pages, if there is room for that. -/
  create : Run μ (Option β)
  /-- The same pages for a second process, if there is room for them. -/
  fork : β → Run μ (Option β)
  /-- Drops the pages in a range. -/
  unmapRange : β → PageRange → Run μ β
  /-- Drops all pages. -/
  unmapAll : β → Run μ β
  /-- Gives up the pages of a process that is removed. -/
  release : β → Run μ Unit
  /-- Whether there is a page for a page number. -/
  isMapped : β → μ → Nat → Bool
  /-- Answers the fault that an access to an address raises, a write if the second argument says so. -/
  handleFault : Nat → Bool → Attempt (MemoryAccess μ β) Unit
  /-- The frame behind an address. The fault that the access raises, if any, is answered first. -/
  frameOf : Nat → Bool → Attempt (MemoryAccess μ β) Nat
  /-- The content of a frame of the process. -/
  frame : MemoryAccess μ β → Nat → Frame
  /-- Replaces the content of a frame of the process. -/
  setFrame : MemoryAccess μ β → Nat → Frame → MemoryAccess μ β

namespace UserMemory

variable {μ β : Type} [MemorySystem μ β]

/-- Whether an access to the page of an address can be served without a new page or with one: the page is mapped,
or the address lies in heap or stack. -/
def isUsable (u : UserMemory β) (m : μ) (address : Nat) : Bool :=
  MemorySystem.isMapped u.space m (pageOf address) || u.isDemandZero address

/-- Moves the end of the heap, if the new end lies between the start of the heap and the stack. The pages that lie
wholly above the new end are dropped. -/
def setBrk (u : UserMemory β) (brk : UInt64) : Run μ (UserMemory β) := do
  if u.heapStart ≤ brk ∧ brk.toNat < stackBottom then
    if brk < u.brk then
      let start ← pageAbove brk.toNat
      let stop ← pageAbove u.brk.toNat
      if start < stop then
        let space ← MemorySystem.unmapRange u.space (← pageRange start stop)
        return { u with brk, space }
      else return { u with brk }
    else return { u with brk }
  else return u

/-- Whether the page of every address from `address` on, below `limit`, is usable. The first page counts from
`address` and the others from their start; `n` is the number of pages. -/
def pagesUsable (u : UserMemory β) (m : μ) (address : Nat) : Nat → Bool
  | 0 => true
  | n + 1 => u.isUsable m address && pagesUsable u m ((pageOf address + 1) * pageSize) n

/-- Whether a range of addresses below `stackTop` is usable throughout. The empty range is, wherever it lies. -/
def checkRange (u : UserMemory β) (m : μ) (address length : Nat) : Except Errno Unit :=
  if length = 0 then .ok ()
  else if stackTop < address + length then .error .badAddress
  else if u.pagesUsable m address (pageOf (address + length - 1) - pageOf address + 1) then .ok ()
  else .error .badAddress

end UserMemory

/-- A part of a range of addresses that lies within one page. -/
structure Span where
  address : Nat
  length : Nat
  deriving DecidableEq, Repr

/-- The parts of a range of addresses that lie within one page each, in ascending order. -/
def pageSpans (address length : Nat) : List Span :=
  if length = 0 then []
  else
    (List.range' (pageOf address) (pageOf (address + length - 1) - pageOf address + 1)).map fun page =>
      let first := max address (page * pageSize)
      { address := first, length := min (address + length) ((page + 1) * pageSize) - first }

/-- The bytes of each span, where `bytes` starts with those of the first. -/
def spanBytes : List Span → List UInt8 → List (Span × List UInt8)
  | [], _ => []
  | s :: rest, bytes => (s, bytes.take s.length) :: spanBytes rest (bytes.drop s.length)

namespace Access

variable {μ β : Type} [MemorySystem μ β]

/-- Stops the kernel if the page of the address is the last one that a word can address, since its end is not a
word. -/
def checkPageEnd {σ : Type} (address : Nat) : Run σ Unit := do
  let _ ← mulWords (pageOf address + 1) pageSize

/-- Writes each span's bytes. -/
def writeSpans : List (Span × List UInt8) → Attempt (MemoryAccess μ β) Unit
  | [] => return ()
  | (s, bytes) :: rest => do
    let p ← MemorySystem.frameOf s.address true
    Attempt.ofRun (checkPageEnd s.address)
    modify fun a => MemorySystem.setFrame a p ((MemorySystem.frame a p).setBytes (pageOffset s.address) bytes)
    writeSpans rest

/-- Reads the bytes of each span. -/
def readSpans : List Span → Attempt (MemoryAccess μ β) (List UInt8)
  | [] => return []
  | s :: rest => do
    let p ← MemorySystem.frameOf s.address false
    Attempt.ofRun (checkPageEnd s.address)
    let bytes := (MemorySystem.frame (← get) p).bytes (pageOffset s.address) s.length
    return bytes ++ (← readSpans rest)

/-- Copies bytes to user addresses from `address` on. -/
def writeUser (address : Nat) (bytes : List UInt8) : Attempt (MemoryAccess μ β) Unit := do
  if address + bytes.length < wordLimit then
    writeSpans (spanBytes (pageSpans address bytes.length) bytes)
  else throw .badAddress

/-- Copies bytes from user addresses from `address` on. -/
def readUser (address length : Nat) : Attempt (MemoryAccess μ β) (List UInt8) := do
  if address + length < wordLimit then readSpans (pageSpans address length)
  else throw .badAddress

/-- The bytes from `address + i` on up to the first zero byte, of which there must be one among the next `n`. -/
def readUntilZero (address : Nat) : Nat → Nat → Attempt (MemoryAccess μ β) (List UInt8)
  | 0, _ => throw .invalid
  | n + 1, i => do
    if address + i < wordLimit then
      let b := (← readUser (address + i) 1).headD 0
      if b = 0 then return [] else return b :: (← readUntilZero address n (i + 1))
    else throw .badAddress

/-- The text at a user address: well-formed UTF-8 up to the first zero byte, shorter than `pathLimit` bytes. -/
def readString (address : Nat) : Attempt (MemoryAccess μ β) String := do
  let bytes ← readUntilZero address pathLimit 0
  match String.fromUTF8? (ByteArray.mk bytes.toArray) with
  | some s => return s
  | none => throw .invalid

end Access

end TrapKernel
