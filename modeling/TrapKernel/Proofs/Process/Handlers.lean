import TrapKernel.Proofs.Process.Slots

/-!
# The entry of a signal handler

A signal that has a handler in user memory is delivered by a change of registers: what the process did is saved, and the
process goes on at the handler.

* `Process.Enters`: what becomes of the process, field by field.
* `Process.enters_enterHandler`: it becomes of every process whose signal is delivered so.
-/

namespace TrapKernel.Process

variable {β : Type} {p q : Process β} {n : Nat} {entry : UInt64}

/-- Whether the process `q` is the process `p` after its least signal that can be delivered, the signal `n`, has made it
enter the handler at `entry`. -/
structure Enters (p : Process β) (n : Nat) (entry : UInt64) (q : Process β) : Prop where
  next : p.nextSignal? = some n
  handler : (p.actions.action n).handler = .user entry
  idle : p.interrupted = none
  interrupted : q.interrupted = some ⟨p.frame, p.mask⟩
  /-- The process goes on at the handler, whose argument is the signal. No other register has changed. -/
  frame : p.frame.ResumesAt entry (UInt64.ofNat n) q.frame
  /-- While the handler runs, the signals of the action are held off besides, and so is this one. -/
  mask : ∀ m, q.mask.contains m = (p.mask.contains m || ((p.actions.action n).mask.contains m || m = n))
  /-- The signal is no longer pending, and all others that were pending are. -/
  pending : ∀ m, q.pending.contains m = (p.pending.contains m && !decide (m = n))
  others : q = { p with frame := q.frame, pending := q.pending, mask := q.mask, interrupted := q.interrupted }

/-- A signal that has a handler in user memory is not delivered while another handler runs. -/
theorem interrupted_of_nextSignal? (hn : p.nextSignal? = some n) (hentry : (p.actions.action n).handler = .user entry) :
    p.interrupted = none := by
  have hcan := List.find?_some hn
  simp only [canDeliver, hentry, SignalHandler.isUser, Bool.and_true, Bool.and_eq_true, Bool.not_eq_true',
    Option.isSome_eq_false_iff, Option.isNone_iff_eq_none] at hcan
  exact hcan.2

theorem enters_enterHandler (hn : p.nextSignal? = some n) (hentry : (p.actions.action n).handler = .user entry) :
    p.Enters n entry ((p.take n).enterHandler n entry) where
  next := hn
  handler := hentry
  idle := interrupted_of_nextSignal? hn hentry
  interrupted := rfl
  frame := p.frame.resumesAt_setA0 entry (UInt64.ofNat n)
  mask m := by simp [enterHandler, take, isSignal_of_nextSignal? hn]
  pending m := by simp [enterHandler, take, isSignal_of_nextSignal? hn]
  others := rfl

theorem Enters.pid (h : p.Enters n entry q) : q.pid = p.pid := by rw [h.others]

end TrapKernel.Process
