import TrapKernel.Machine.Firmware

/-!
# The clock

The clock register counts `clockFrequency` times a second. A timer interrupt ends every time slice.
-/

namespace TrapKernel.Machine

variable {φ : Type} [Firmware φ]

/-- Microseconds since the clock register was zero. -/
def microseconds (m : Machine φ) : Nat := m.readTime.toNat / (clockFrequency / 1000000)

/-- Asks for a timer interrupt at the end of a time slice that starts now. -/
def startSlice : Run (Machine φ) Unit := do
  let time ← addWords (← get).readTime.toNat (clockFrequency / slicesPerSecond)
  modify fun m => m.setTimer (UInt64.ofNat time)

end TrapKernel.Machine
