import TrapKernel.Text.Hexadecimal

/-!
# Causes that stop the kernel

An arithmetic overflow, a broken assertion or a request that makes no sense stops the kernel. Every cause is a
`Panic`, and `Panic.message` is what is said about it.
-/

namespace TrapKernel

/-- Why the kernel stopped. -/
inductive Panic where
  /-- A sum does not fit into a word. -/
  | addOverflow
  /-- A difference would be negative. -/
  | subOverflow
  /-- A product does not fit into a word. -/
  | mulOverflow
  /-- The least signed word has no opposite. -/
  | negOverflow
  /-- An index is not below the length of the table. -/
  | outOfBounds (length index : Nat)
  /-- A page range ends before it starts. -/
  | reversedRange (start stop : Nat)
  /-- A page that is not handed out is given back. -/
  | frameNotAllocated (frame : Nat)
  /-- A page number is mapped that is mapped already. -/
  | alreadyMapped (page : Nat)
  /-- A page number is unmapped for which the table has no leaf node. -/
  | unmapWithoutTable
  /-- A page number is unmapped that is not mapped. -/
  | unmapInvalid (page : Nat)
  /-- A page number is remapped for which the table has no leaf node. -/
  | remapWithoutTable
  /-- A page number is remapped that is not mapped. -/
  | remapInvalid (page : Nat)
  /-- A data frame is held for a page number that is not mapped. -/
  | dataFrameUnmapped
  /-- A page number is mapped copy-on-write, but no data frame is held for it. -/
  | cowFrameMissing
  /-- The scheduler finds no ready process. -/
  | noReadyProcess
  /-- The current slot of the process table is empty. -/
  | currentSlotEmpty
  /-- The machine goes on after the shutdown that the exit of the first process asks for. -/
  | shutdownReturned
  /-- A call number lies outside the table of system calls. -/
  | unknownSystemCall (number : Int)
  /-- A trap has a cause that the kernel does not handle. -/
  | unhandledTrap (scause stval : Nat)
  /-- A register that is not one of the eight argument registers is used as one. -/
  | notArgumentRegister (n : Nat)
  /-- A call is made with more arguments than there are registers for. -/
  | tooManyArguments (count : Nat)
  /-- A collaborator broke down with a message of its own. -/
  | collaborator (message : String)
  deriving DecidableEq, Repr

/-- What is said when the kernel stops. -/
def Panic.message : Panic → String
  | addOverflow => "attempt to add with overflow"
  | subOverflow => "attempt to subtract with overflow"
  | mulOverflow => "attempt to multiply with overflow"
  | negOverflow => "attempt to negate with overflow"
  | outOfBounds length index => s!"index out of bounds: the len is {length} but the index is {index}"
  | reversedRange start stop => s!"start > end! start: VPN:{hex start}, end: VPN:{hex stop}"
  | frameNotAllocated frame => s!"Frame ppn={hex frame} has not been allocated"
  | alreadyMapped page => s!"vpn VPN:{hex page} is mapped before mapping"
  | unmapWithoutTable => "unmap of a vpn without page table"
  | unmapInvalid page => s!"vpn VPN:{hex page} is invalid before unmapping"
  | remapWithoutTable => "remap of an unmapped vpn"
  | remapInvalid page => s!"vpn VPN:{hex page} is invalid before remapping"
  | dataFrameUnmapped => "data frame without mapping"
  | cowFrameMissing => "cow page without frame"
  | noReadyProcess => "no task to run"
  | currentSlotEmpty => "current slot is empty"
  | shutdownReturned => "It should shutdown!"
  | unknownSystemCall number => s!"Try to call unknown system call {number}"
  | unhandledTrap scause stval =>
    s!"[kernel] Unhandled trap: scause = {hex scause}, stval: {hex stval}, core dumped."
  | notArgumentRegister n => s!"a{n} is not an argument register"
  | tooManyArguments count => s!"too many syscall arguments: {count}"
  | collaborator message => message

end TrapKernel
