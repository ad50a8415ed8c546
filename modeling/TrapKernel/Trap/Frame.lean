import TrapKernel.Run

/-!
# Trap frames

A trap frame holds the registers of a process while it is not running: the 32 general registers, the status word,
the address to go on from, the cause word and the trap value. A system call finds its number in register 17 and its
arguments from register 10 on, and leaves its result in register 10.

* `TrapFrame.atEntry`: the frame from which a process starts.
-/

namespace TrapKernel

/-- The bit of the status word that tells that the trap came from the kernel. -/
def statusFromKernel : UInt64 := 0x100

/-- The bit of the status word that turns interrupts on when the process goes on. -/
def statusInterrupts : UInt64 := 0x20

/-- The registers of a process that is not running. -/
structure TrapFrame where
  registers : Vector UInt64 32
  sstatus : UInt64
  sepc : UInt64
  scause : UInt64
  stval : UInt64
  deriving DecidableEq, Repr

namespace TrapFrame

/-- The frame of zeros. -/
def zero : TrapFrame := ⟨Vector.replicate 32 0, 0, 0, 0, 0⟩

/-- The frame with one general register replaced. -/
def setRegister (f : TrapFrame) (i : Fin 32) (w : UInt64) : TrapFrame :=
  { f with registers := f.registers.set i w }

theorem getElem_setRegister (f : TrapFrame) (i j : Fin 32) (w : UInt64) :
    (f.setRegister i w).registers[j] = if i = j then w else f.registers[j] := by
  simp [setRegister, Vector.getElem_set, Fin.ext_iff]

/-- The stack pointer, register 2. -/
def stackPointer (f : TrapFrame) : UInt64 := f.registers[2]

/-- The frame with the stack pointer replaced. -/
def setStackPointer (f : TrapFrame) (w : UInt64) : TrapFrame := f.setRegister 2 w

/-- The general register that holds an argument. -/
def argumentRegister (n : Fin 8) : Fin 32 := ⟨10 + n, by omega⟩

/-- An argument of the call. -/
def argument (f : TrapFrame) (n : Fin 8) : UInt64 := f.registers[argumentRegister n]

/-- The frame with one argument replaced. -/
def setArgument (f : TrapFrame) (n : Fin 8) (w : UInt64) : TrapFrame := f.setRegister (argumentRegister n) w

theorem argument_setArgument (f : TrapFrame) (n m : Fin 8) (w : UInt64) :
    (f.setArgument n w).argument m = if n = m then w else f.argument m := by
  have hindex : argumentRegister n = argumentRegister m ↔ n = m := by simp [argumentRegister, Fin.ext_iff]
  simp only [setArgument, argument, getElem_setRegister, hindex]

/-- The argument register with a number. There are eight; any other number stops the kernel. -/
def argumentNumber {σ : Type} (n : Nat) : Run σ (Fin 8) :=
  if h : n < 8 then pure ⟨n, h⟩ else crash (.notArgumentRegister n)

/-- The frame with the argument registers from `n` on replaced. -/
def setArguments {σ : Type} (f : TrapFrame) : Nat → List UInt64 → Run σ TrapFrame
  | _, [] => return f
  | n, w :: rest => do
    let i ← argumentNumber n
    (f.setArgument i w).setArguments (n + 1) rest

/-- The first argument, where the result of a call is left. -/
def a0 (f : TrapFrame) : UInt64 := f.argument 0

/-- The second argument. -/
def a1 (f : TrapFrame) : UInt64 := f.argument 1

/-- The third argument. -/
def a2 (f : TrapFrame) : UInt64 := f.argument 2

/-- The frame with the first argument, or the result of a call, replaced. -/
def setA0 (f : TrapFrame) (w : UInt64) : TrapFrame := f.setArgument 0 w

@[simp] theorem a0_setA0 (f : TrapFrame) (w : UInt64) : (f.setA0 w).a0 = w := by simp [setA0, a0, argument_setArgument]

/-- The number of the call. -/
def callNumber (f : TrapFrame) : UInt64 := f.registers[17]

/-- The frame with the number of the call replaced. -/
def setCallNumber (f : TrapFrame) (w : UInt64) : TrapFrame := f.setRegister 17 w

/-- The six arguments of a call. -/
def callArguments (f : TrapFrame) : List UInt64 :=
  (List.finRange 6).map fun n => f.argument (n.castLE (by decide))

/-- The frame of a process that starts at an entry point with a stack pointer, in user mode, with interrupts on. -/
def atEntry (entry stackPointer : UInt64) : TrapFrame :=
  { zero with sstatus := (zero.sstatus &&& ~~~statusFromKernel) ||| statusInterrupts, sepc := entry }.setStackPointer
    stackPointer

end TrapFrame

end TrapKernel
