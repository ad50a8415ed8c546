import TrapKernel.Layout

/-!
# Numbers of system calls
-/

namespace TrapKernel

/-- The system calls. -/
inductive SystemCall where
  | fork
  | testFork
  | getPid
  | getParentPid
  | character
  | openPath
  | close
  | stat
  | read
  | reset
  | brk
  | signalAction
  | kill
  | exit
  | signalReturn
  | wait
  | yield
  deriving DecidableEq, Repr

namespace SystemCall

/-- Every system call. -/
def all : List SystemCall :=
  [fork, testFork, getPid, getParentPid, character, openPath, close, stat, read, reset, brk, signalAction, kill,
    exit, signalReturn, wait, yield]

/-- The number of a system call. -/
def number : SystemCall → Nat
  | fork => 1
  | testFork => 2
  | getPid => 3
  | getParentPid => 4
  | character => 5
  | openPath => 7
  | close => 8
  | stat => 9
  | read => 10
  | reset => 11
  | brk => 12
  | signalAction => 13
  | kill => 14
  | exit => 15
  | signalReturn => 16
  | wait => 17
  | yield => 18

/-- The name of a system call, as it stands in the log. -/
def name : SystemCall → String
  | fork => "Fork"
  | testFork => "TestFork"
  | getPid => "GetPid"
  | getParentPid => "GetPPid"
  | character => "Char"
  | openPath => "Open"
  | close => "Close"
  | stat => "Stat"
  | read => "Read"
  | reset => "Reset"
  | brk => "Brk"
  | signalAction => "SigAction"
  | kill => "Kill"
  | exit => "Exit"
  | signalReturn => "SigReturn"
  | wait => "Wait"
  | yield => "Yield"

/-- The system call with a number, if there is one. -/
def ofNumber? (n : Nat) : Option SystemCall := all.find? fun c => c.number = n

theorem ofNumber?_number (c : SystemCall) : ofNumber? c.number = some c := by cases c <;> decide

end SystemCall

end TrapKernel
