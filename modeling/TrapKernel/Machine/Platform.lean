import TrapKernel.Machine.Firmware

/-!
# The platform

What a firmware tells about itself.
-/

namespace TrapKernel

/-- The number of the extension that resets the machine. -/
def resetExtension : UInt64 := 0x52535354

/-- What a firmware tells about itself. -/
structure Platform where
  majorVersion : Nat
  minorVersion : Nat
  implementation : UInt64
  implementationVersion : UInt64
  vendor : UInt64
  hasReset : Bool
  deriving DecidableEq, Repr

/-- Asks the firmware about itself. The version of the specification is a major number of seven bits above a minor
number of 24 bits. -/
def Machine.platform {φ : Type} [Firmware φ] (m : Machine φ) : Platform × Machine φ :=
  let version := (Firmware.specification m.state).value.toNat
  let (reply, machine) := m.probe resetExtension
  ({ majorVersion := version / 0x1000000 % 128
     minorVersion := version % 0x1000000
     implementation := (Firmware.implementation m.state).value
     implementationVersion := (Firmware.implementationVersion m.state).value
     vendor := (Firmware.vendor m.state).value
     hasReset := reply.value != 0 }, machine)

end TrapKernel
