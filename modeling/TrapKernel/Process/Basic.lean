import TrapKernel.Files.Descriptors
import TrapKernel.Memory.User
import TrapKernel.Signal.Action
import TrapKernel.Trap.Frame

/-!
# Processes

A process has a number, a state in its life cycle, a parent, saved registers, memory, descriptors and signals.

* `Process.nextSignal?`: the signal that is delivered next before the process runs on.
-/

namespace TrapKernel

/-- Where a process is in its life cycle. -/
inductive Status where
  | ready
  | running
  /-- The process waits for one of its children. -/
  | blocked
  /-- The process has exited and its parent has not collected its exit code. -/
  | zombie
  deriving DecidableEq, Repr

/-- What a process did before it was interrupted by a signal handler. -/
structure SavedContext where
  frame : TrapFrame
  mask : SignalSet
  deriving DecidableEq, Repr

/-- A process. -/
structure Process (β : Type) where
  pid : UInt64
  status : Status
  /-- The slot of the parent. Only the first process has none. -/
  parent : Option Slot
  /-- The registers while the process is not running. -/
  frame : TrapFrame
  memory : UserMemory β
  descriptors : Descriptors
  /-- The signals that were sent and not yet delivered. -/
  pending : SignalSet
  /-- The signals that are held off. -/
  mask : SignalSet
  actions : SignalActions
  /-- What to go back to while a signal handler runs. -/
  interrupted : Option SavedContext
  /-- What the process exited with, once it is a zombie. -/
  exitCode : Int32

namespace Process

variable {β : Type}

/-- Whether the process has exited. -/
def isZombie (p : Process β) : Bool := p.status = .zombie

/-- The first process: number zero, about to start at an entry point, without a parent. -/
def initial (entry stackPointer heapStart : UInt64) (space : β) : Process β where
  pid := 0
  status := .running
  parent := none
  frame := .atEntry entry stackPointer
  memory := ⟨heapStart, heapStart, space⟩
  descriptors := .empty
  pending := .empty
  mask := .empty
  actions := .initial
  interrupted := none
  exitCode := 0

/-- A child of the process. It goes on where the parent does, with zero as the result of the call, and without
descriptors and pending signals. -/
def child (p : Process β) (pid : UInt64) (parent : Slot) (space : β) : Process β :=
  { p with
    pid
    status := .ready
    parent := some parent
    frame := p.frame.setA0 0
    memory := { p.memory with space }
    descriptors := .empty
    pending := .empty
    exitCode := 0 }

/-- Whether a signal can be delivered now: it is pending, it is not held off, and if it needs a user handler, no
other handler is running. Two signals cannot be held off. -/
def canDeliver (p : Process β) (n : Nat) : Bool :=
  p.pending.contains n && (n == sigKill || n == sigStop || !p.mask.contains n) &&
    !(p.interrupted.isSome && (p.actions.action n).handler.isUser)

/-- The least signal that can be delivered now. -/
def nextSignal? (p : Process β) : Option Nat := (List.range' 1 lastSignal).find? p.canDeliver

/-- The process with one signal more pending. -/
def post (p : Process β) (n : Nat) : Process β := { p with pending := p.pending.union (.single n) }

/-- The process with one signal less pending. -/
def take (p : Process β) (n : Nat) : Process β := { p with pending := p.pending.diff (.single n) }

/-- The process about to run the handler of a signal. What it did before is saved. -/
def enterHandler (p : Process β) (n : Nat) (entry : UInt64) : Process β :=
  { p with
    interrupted := some ⟨p.frame, p.mask⟩
    mask := p.mask.union ((p.actions.action n).mask.union (.single n))
    frame := { p.frame with sepc := entry }.setA0 (UInt64.ofNat n) }

/-- The process given to the first one, if its parent is the process in a slot. -/
def disown (s : Slot) (p : Process β) : Process β := if p.parent = some s then { p with parent := some .init } else p

/-- The process woken up, if it is blocked. -/
def wake (p : Process β) : Process β := if p.status = .blocked then { p with status := .ready } else p

end Process

end TrapKernel
