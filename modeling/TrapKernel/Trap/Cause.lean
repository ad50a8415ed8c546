import TrapKernel.Layout

/-!
# Causes of traps

The cause word of a trap frame has its highest bit set for an interrupt; the bits below it are the number of the
interrupt or of the exception.
-/

namespace TrapKernel

/-- Why a process entered the kernel. -/
inductive TrapCause where
  /-- A system call from user mode. -/
  | systemCall
  /-- The timer of the supervisor. -/
  | timer
  /-- A load from a page that is not there. -/
  | loadPageFault
  /-- A store to a page that is not there or not writable. -/
  | storePageFault
  | illegalInstruction
  /-- Another exception, by its number. -/
  | exception (number : Nat)
  /-- A cause word that is not defined or not handled. -/
  | unknown (bits : Nat)
  deriving DecidableEq, Repr

namespace TrapCause

/-- The cause word of a system call. -/
def systemCallWord : UInt64 := 8

/-- The cause word of a timer interrupt. -/
def timerWord : UInt64 := 0x8000000000000005

/-- The highest bit of a cause word. -/
abbrev interruptBit : Nat := 0x8000000000000000

/-- The cause that a word stands for. -/
def ofWord (w : UInt64) : TrapCause :=
  let bits := w.toNat
  if interruptBit ≤ bits then
    if bits = interruptBit + 5 then timer else unknown bits
  else if bits = 2 then illegalInstruction
  else if bits = 8 then systemCall
  else if bits = 13 then loadPageFault
  else if bits = 15 then storePageFault
  else if bits < 8 ∨ bits = 12 then exception bits
  else unknown bits

/-- How a cause is shown. -/
def text : TrapCause → String
  | systemCall => "UserEnvCall"
  | timer => "SupervisorTimer"
  | loadPageFault => "LoadPageFault"
  | storePageFault => "StorePageFault"
  | illegalInstruction => "IllegalInstruction"
  | exception number => s!"Exception({number})"
  | unknown bits => s!"Unknown({bits})"

end TrapCause

end TrapKernel
