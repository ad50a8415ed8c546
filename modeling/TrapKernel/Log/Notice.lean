import TrapKernel.Errno
import TrapKernel.Layout
import TrapKernel.Log.Level
import TrapKernel.Machine.Firmware
import TrapKernel.Trap.Cause

/-!
# The kernel log

The kernel notes what it does. Every kind of note is a `Notice` with a level and a text; the log keeps those up to
the level that is asked for.
-/

namespace TrapKernel

/-- Something that the kernel notes. -/
inductive Notice where
  /-- The first process was created. -/
  | initCreated (entry : UInt64)
  | forked (parent child : UInt64) (slot : Slot)
  | exited (pid : UInt64) (code : Int32)
  | reaped (pid : UInt64)
  /-- Another process runs on. -/
  | switched (old new : Slot)
  | signalPosted (signal : Nat) (pid : UInt64)
  | handlerEntered (pid entry : UInt64) (signal : Nat)
  /-- The first process outlives a signal that would end another. -/
  | fatalSignalIgnored (signal : Nat)
  | terminationFailed (signal : Nat) (error : Errno)
  | timerInterrupt (microseconds : Nat)
  | pageFault (cause : TrapCause) (stval sepc : UInt64) (error : Errno)
  | illegalInstruction (stval : UInt64)
  | exception (number : Nat) (stval sepc : UInt64)
  | systemCall (name : String) (pid : UInt64)
  | unassignedCall (number : Nat)
  | initExited (code : Int32)
  | exitFailed (error : Errno)
  /-- What a process says about a local variable of its own. -/
  | localValue (pid : UInt64) (value : Int64)
  | resetReturned (kind : ResetKind) (error : Int64)
  | readFailed (error : Errno)
  deriving DecidableEq, Repr

namespace Notice

/-- How important a notice is. -/
def level : Notice → LogLevel
  | initCreated .. => .info
  | forked .. => .debug
  | exited .. => .info
  | reaped .. => .debug
  | switched .. => .trace
  | signalPosted .. => .debug
  | handlerEntered .. => .debug
  | fatalSignalIgnored .. => .warn
  | terminationFailed .. => .error
  | timerInterrupt .. => .trace
  | pageFault .. => .error
  | illegalInstruction .. => .error
  | exception .. => .error
  | systemCall .. => .trace
  | unassignedCall .. => .warn
  | initExited .. => .info
  | exitFailed .. => .error
  | localValue .. => .info
  | resetReturned .. => .warn
  | readFailed .. => .warn

/-- A signed 32-bit number in decimal digits. -/
private def decimal32 (n : Int32) : String := toString n.toInt

/-- A signed 64-bit number in decimal digits. -/
private def decimal64 (n : Int64) : String := toString n.toInt

/-- What a notice says. -/
def text : Notice → String
  | initCreated entry => s!"init process created, entry = {hex entry.toNat}"
  | forked parent child slot => s!"fork: pid {parent} -> child pid {child} in slot {slot.val}"
  | exited pid code => s!"process {pid} exited with code {decimal32 code}"
  | reaped pid => s!"reap process {pid}"
  | switched old new => s!"switch: slot {old.val} -> slot {new.val}"
  | signalPosted signal pid => s!"kill: signal {signal} pending for process {pid}"
  | handlerEntered pid entry signal =>
    s!"process {pid}: enter handler {hex entry.toNat} for signal {signal}"
  | fatalSignalIgnored signal => s!"init ignores fatal signal {signal}"
  | terminationFailed signal error => s!"failed to terminate on signal {signal}: {error.text}"
  | timerInterrupt microseconds => s!"[kernel] timer interrupt at {microseconds}us"
  | pageFault cause stval sepc error =>
    s!"[kernel] {cause.text} in application, bad addr = {hex stval.toNat}, " ++
      s!"bad instruction = {hex sepc.toNat}: {error.text}, core dumped."
  | illegalInstruction stval =>
    s!"[kernel] IllegalInstruction in application, bad addr = {hex stval.toNat}, core dumped."
  | exception number stval sepc =>
    s!"[kernel] Exception {number} in application, bad addr = {hex stval.toNat}, " ++
      s!"bad instruction = {hex sepc.toNat}, core dumped."
  | systemCall name pid => s!"[kernel] syscall {name} from pid {pid}"
  | unassignedCall number => s!"[kernel] unassigned syscall {number}"
  | initExited code => s!"[kernel] init exited with code {decimal32 code}, shutdown"
  | exitFailed error => s!"[kernel] exit failed: {error.text}"
  | localValue pid value => s!"process {pid}: local - {decimal64 value}"
  | resetReturned kind error => s!"[kernel] system reset {kind.name} returned error {decimal64 error}"
  | readFailed error => s!"[kernel] read request failed: {error.text}"

/-- What is written to the console for a notice, without the line end. -/
def line (n : Notice) : String := n.level.line n.text

end Notice

/-- The notices so far, the oldest first, and the least important level that is noted; `none` notes nothing. -/
structure Log where
  limit : Option LogLevel
  notices : Array Notice
  deriving DecidableEq, Repr

namespace Log

/-- Whether notices of a level are kept. -/
def keeps (l : Log) (level : LogLevel) : Bool :=
  match l.limit with
  | none => false
  | some limit => level.rank ≤ limit.rank

/-- The log with one more notice, if its level is kept. -/
def note (l : Log) (n : Notice) : Log :=
  if l.keeps n.level then { l with notices := l.notices.push n } else l

end Log

end TrapKernel
