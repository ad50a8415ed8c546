import TrapKernel.Run

/-!
# The user's side of a system call

User code makes a call through a function that checks the number, fills up the argument registers, traps into the
kernel and tells a failure from a success: a negative result is minus one with its magnitude kept as error code.
-/

namespace TrapKernel

variable {σ : Type}

/-- The number of arguments of a system call. -/
abbrev argumentCount : Nat := 6

/-- The argument registers for some arguments, filled up with zeros. There is no place for more than six. -/
def argumentWords (words : List UInt64) : Run σ (Vector UInt64 argumentCount) :=
  if words.length ≤ argumentCount then return Vector.ofFn fun i => words.getD i 0
  else crash (.tooManyArguments words.length)

/-- What user code learns from a call, and the error code of the last call that failed, if any did. -/
structure Outcome where
  result : Int64
  errorCode : Option Int64
  deriving DecidableEq, Repr

/-- What a signed result means to user code, where `errorCode` is that of the last call that failed before. The
least result has no magnitude and stops the program. -/
def Outcome.ofResult (errorCode : Option Int64) (r : Int64) : Run σ Outcome :=
  if 0 ≤ r.toInt then return ⟨r, errorCode⟩
  else if r = Int64.minValue then crash .negOverflow
  else return ⟨-1, some (-r)⟩

/-- Makes a system call by way of `trap`. A number that is not strictly between zero and `slotCount` stops the
program. -/
def invoke (number : Int64) (arguments : Vector UInt64 argumentCount) (errorCode : Option Int64)
    (trap : Nat → Vector UInt64 argumentCount → Run σ Int64) : Run σ Outcome := do
  if 0 < number.toInt ∧ number.toInt < slotCount then
    Outcome.ofResult errorCode (← trap number.toInt.toNat arguments)
  else crash (.unknownSystemCall number.toInt)

end TrapKernel
