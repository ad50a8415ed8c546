import TrapKernel.Kernel.Lifecycle

/-!
# Delivery of signals

To send a signal is to mark it. Signals are delivered to the process that is about to run on: an ignored one is
dropped, a fatal one ends the process and the next one is looked at, and a handled one interrupts the process until
it asks to go back.

* `Kernel.handleSignals` delivers until nothing is left to deliver or a handler has been entered.
-/

namespace TrapKernel.Kernel

variable {μ β σ φ : Type}

/-- Sends a signal to the process with a number and wakes it up. -/
def kill (pid : UInt64) (n : Nat) : Attempt (KernelState μ β σ φ) Unit := do
  let t := (← get).table
  match t.findPid? pid with
  | none => throw .noProcess
  | some s =>
    if t.hasStatus s .zombie then throw .noProcess
    else if isSignal n then
      Attempt.ofRun (modifyTable fun t => t.modifyAt s fun p => p.post n)
      Attempt.ofRun (note (.signalPosted n pid))
      Attempt.ofRun (modifyTable fun t => t.wake s)
    else throw .invalid

/-- Delivers the next signal of the running process. The answer tells whether there may be more to deliver: not if
there was none, and not if a handler has been entered. -/
def deliverSignal [MemorySystem μ β] [FileSystem σ] : Run (KernelState μ β σ φ) Bool := do
  let p ← currentProcess
  match p.nextSignal? with
  | none => return false
  | some n =>
    match (p.actions.action n).handler with
    | .user entry =>
      modifyCurrent fun p => (p.take n).enterHandler n entry
      note (.handlerEntered p.pid entry n)
      return false
    | .ignore =>
      modifyCurrent fun p => p.take n
      return true
    | .default =>
      modifyCurrent fun p => p.take n
      if defaultAction n = .ignore then return true
      else if (← get).table.current = .init then
        note (.fatalSignalIgnored n)
        return true
      else
        match ← (exitAndRunNext (Int32.ofInt (-(n : Int)))).run with
        | .ok () => return true
        | .error e =>
          note (.terminationFailed n e)
          return false

/-- Delivers at most `n` signals. -/
def deliverSignals [MemorySystem μ β] [FileSystem σ] : Nat → Run (KernelState μ β σ φ) Unit
  | 0 => return ()
  | n + 1 => do
    if ← deliverSignal then deliverSignals n

/-- More signals than can be delivered in a row. A delivery takes a signal from the running process, and one that
brings another process to run leaves a zombie behind, so every process has its signals delivered once at most. -/
def signalBound (t : ProcessTable β) : Nat := (t.occupied.length + 1) * (lastSignal + 1)

/-- Delivers the signals of the process that is about to run on. -/
def handleSignals [MemorySystem μ β] [FileSystem σ] : Run (KernelState μ β σ φ) Unit := do
  deliverSignals (signalBound (← get).table)

/-- The running process goes back to what it did before it was interrupted by a handler. The answer is the result
register that it had then. -/
def returnFromHandler : Attempt (KernelState μ β σ φ) UInt64 := do
  let p ← Attempt.ofRun currentProcess
  match p.interrupted with
  | none => throw .invalid
  | some saved =>
    Attempt.ofRun (modifyCurrent fun p =>
      { p with frame := saved.frame, mask := saved.mask, interrupted := none })
    return saved.frame.a0

end TrapKernel.Kernel
