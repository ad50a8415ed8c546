import TrapKernel.Panic

/-!
# Error numbers

A system call that fails hands a small negative number back to user space. `Errno.code` is its magnitude,
`resultWord` the word that a call leaves in the result register, and `Errno.ofResult` reads a signed result back.

* `Errno.ofCode?_eq_some_iff`: a code is that of an error exactly if it is read back as that error.
-/

namespace TrapKernel

/-- Why a system call failed. -/
inductive Errno where
  | notPermitted
  | noEntry
  | noProcess
  | inputOutput
  | noChild
  | tryAgain
  | noMemory
  | badAddress
  | invalid
  | noSystemCall
  deriving DecidableEq, Repr

namespace Errno

/-- Every error, by ascending code. -/
def all : List Errno :=
  [notPermitted, noEntry, noProcess, inputOutput, noChild, tryAgain, noMemory, badAddress, invalid, noSystemCall]

/-- The number that stands for the error. -/
def code : Errno → Nat
  | notPermitted => 1
  | noEntry => 2
  | noProcess => 3
  | inputOutput => 5
  | noChild => 10
  | tryAgain => 11
  | noMemory => 12
  | badAddress => 14
  | invalid => 22
  | noSystemCall => 38

/-- The short name of the error. -/
def name : Errno → String
  | notPermitted => "EPERM"
  | noEntry => "ENOENT"
  | noProcess => "ESRCH"
  | inputOutput => "EIO"
  | noChild => "ECHILD"
  | tryAgain => "EAGAIN"
  | noMemory => "ENOMEM"
  | badAddress => "EFAULT"
  | invalid => "EINVAL"
  | noSystemCall => "ENOSYS"

/-- The error in words, as it stands in log lines. -/
def text : Errno → String
  | notPermitted => "Operation not permitted"
  | noEntry => "No such file or directory"
  | noProcess => "No such process"
  | inputOutput => "Input/output error"
  | noChild => "No child processes"
  | tryAgain => "Resource temporarily unavailable"
  | noMemory => "Cannot allocate memory"
  | badAddress => "Bad address"
  | invalid => "Invalid argument"
  | noSystemCall => "Function not implemented"

/-- The error that a number stands for. -/
def ofCode? (n : Int) : Option Errno := all.find? fun e => (e.code : Int) = n

/-- The result that tells user space of the error: the opposite of its code. -/
def result (e : Errno) : Int64 := Int64.ofInt (-(e.code : Int))

/-- The error that a signed result tells of: none for a success and for an unknown code. The least result has no
magnitude, and to ask for it stops the kernel. -/
def ofResult (r : Int64) : Except Panic (Option Errno) :=
  if 0 ≤ r.toInt then .ok none
  else if r = Int64.minValue then .error .negOverflow
  else .ok (ofCode? (-r.toInt))

theorem code_injective {e f : Errno} (h : e.code = f.code) : e = f := by
  cases e <;> cases f <;> first | rfl | exact absurd h (by decide)

theorem ofCode?_code (e : Errno) : ofCode? e.code = some e := by cases e <;> decide

theorem ofCode?_eq_some_iff {n : Int} {e : Errno} : ofCode? n = some e ↔ n = e.code := by
  constructor
  · intro h
    have hn := List.find?_some h
    simpa using (of_decide_eq_true hn).symm
  · rintro rfl
    exact ofCode?_code e

end Errno

/-- The signed result of a call, with the errors folded in as negative numbers. -/
def foldResult : Except Errno Int64 → Int64
  | .ok r => r
  | .error e => e.result

/-- The word that a call leaves in the result register. -/
def resultWord : Except Errno UInt64 → UInt64
  | .ok w => w
  | .error e => e.result.toUInt64

end TrapKernel
