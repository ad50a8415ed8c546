import TrapKernel.Run

/-!
# Firmware

The kernel reaches timer, console and reset through the firmware of the machine. `Firmware` is what it asks of it,
for firmware with a state of any type. A `Machine` is a firmware in use: its state and the calls made to it, as far
as they have an effect or look for an extension.
-/

namespace TrapKernel

/-- How the machine is asked to start again, if at all. -/
inductive ResetKind where
  | shutdown
  | coldReboot
  | warmReboot
  deriving DecidableEq, Repr

/-- The name of a kind of reset. -/
def ResetKind.name : ResetKind → String
  | shutdown => "Shutdown"
  | coldReboot => "ColdReboot"
  | warmReboot => "WarmReboot"

/-- The kind of reset with a number. -/
def ResetKind.ofNat? : Nat → Option ResetKind
  | 0 => some shutdown
  | 1 => some coldReboot
  | 2 => some warmReboot
  | _ => none

/-- Why the machine is asked to start again. -/
inductive ResetReason where
  | noReason
  | systemFailure
  deriving DecidableEq, Repr

/-- The name of a reason for a reset. -/
def ResetReason.name : ResetReason → String
  | noReason => "NoReason"
  | systemFailure => "SystemFailure"

/-- What the firmware answers: an error number, zero for none, and a value. -/
structure FirmwareReply where
  error : Int64
  value : UInt64
  deriving DecidableEq, Repr

/-- The answer without an error. -/
def FirmwareReply.success (value : UInt64) : FirmwareReply := ⟨0, value⟩

/-- How an answer is shown. -/
def FirmwareReply.text (r : FirmwareReply) : String :=
  "SbiRet \x7b error: " ++ toString r.error.toInt ++ ", value: " ++ toString r.value.toNat ++ " \x7d"

/-- The services of a firmware with a state of type `φ`. -/
class Firmware (φ : Type) where
  /-- Asks for a timer interrupt at a value of the clock register. -/
  setTimer : φ → UInt64 → φ
  /-- Writes a character to the console. -/
  putChar : φ → UInt64 → φ
  /-- Reads a character from the console, if one is waiting. -/
  getChar : φ → Option UInt8 × φ
  /-- The clock register. -/
  readTime : φ → UInt64
  specification : φ → FirmwareReply
  implementation : φ → FirmwareReply
  implementationVersion : φ → FirmwareReply
  vendor : φ → FirmwareReply
  /-- Whether there is an extension with a number; a value other than zero says yes. -/
  probe : φ → UInt64 → FirmwareReply × φ
  /-- Starts the machine again or turns it off. An answer means that this failed. -/
  reset : φ → ResetKind → ResetReason → FirmwareReply × φ

/-- A call to the firmware. -/
inductive FirmwareCall where
  | setTimer (time : UInt64)
  | putChar (character : UInt64)
  | reset (kind : ResetKind) (reason : ResetReason)
  | probe (extension : UInt64)
  deriving DecidableEq, Repr

/-- A firmware in use: its state and the calls made to it, the oldest first. -/
structure Machine (φ : Type) where
  state : φ
  calls : Array FirmwareCall

namespace Machine

variable {φ : Type} [Firmware φ]

/-- Asks for a timer interrupt at a value of the clock register. -/
def setTimer (m : Machine φ) (time : UInt64) : Machine φ :=
  ⟨Firmware.setTimer m.state time, m.calls.push (.setTimer time)⟩

/-- Writes a character to the console. -/
def putChar (m : Machine φ) (character : UInt64) : Machine φ :=
  ⟨Firmware.putChar m.state character, m.calls.push (.putChar character)⟩

/-- Reads a character from the console, if one is waiting. -/
def getChar (m : Machine φ) : Option UInt8 × Machine φ :=
  let (character, state) := Firmware.getChar m.state
  (character, { m with state })

/-- The clock register. -/
def readTime (m : Machine φ) : UInt64 := Firmware.readTime m.state

/-- Asks whether there is an extension. -/
def probe (m : Machine φ) (extension : UInt64) : FirmwareReply × Machine φ :=
  let (reply, state) := Firmware.probe m.state extension
  (reply, ⟨state, m.calls.push (.probe extension)⟩)

/-- Starts the machine again or turns it off. -/
def reset (m : Machine φ) (kind : ResetKind) (reason : ResetReason) : FirmwareReply × Machine φ :=
  let (reply, state) := Firmware.reset m.state kind reason
  (reply, ⟨state, m.calls.push (.reset kind reason)⟩)

end Machine

end TrapKernel
