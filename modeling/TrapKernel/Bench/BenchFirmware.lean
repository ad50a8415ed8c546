import TrapKernel.Machine.Firmware

/-!
# Firmware for bench runs

The clock stands still until it is set, the console reads from a queue of characters, and a reset is answered
instead of carried out. What was written to timer and console and which resets were asked for is kept.
-/

namespace TrapKernel.Bench

/-- The state of a firmware for bench runs. The later fields are its constant answers. -/
structure BenchFirmware where
  time : UInt64 := 0
  input : List UInt8 := []
  timer : Option UInt64 := none
  /-- The bytes written to the console, the latest first. -/
  output : List UInt8 := []
  resets : List ResetKind := []
  resetError : Int64 := -1
  specification : UInt64 := 0x01000000
  implementation : UInt64 := 0
  implementationVersion : UInt64 := 0
  vendor : UInt64 := 0
  probe : UInt64 := 1
  deriving Repr

instance : Firmware BenchFirmware where
  setTimer s time := { s with timer := some time }
  putChar s character := { s with output := character.toUInt8 :: s.output }
  getChar s :=
    match s.input with
    | [] => (none, s)
    | c :: rest => (some c, { s with input := rest })
  readTime s := s.time
  specification s := .success s.specification
  implementation s := .success s.implementation
  implementationVersion s := .success s.implementationVersion
  vendor s := .success s.vendor
  probe s _ := (.success s.probe, s)
  reset s kind _ := (⟨s.resetError, 0⟩, { s with resets := s.resets ++ [kind] })

end TrapKernel.Bench
