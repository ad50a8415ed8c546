import TrapKernel.Run
import TrapKernel.LittleEndian
import TrapKernel.Signal.Set

/-!
# Signal actions

For every signal a process has an action: the default, to ignore the signal, or a handler in user memory, together
with the signals that are held off while the handler runs. User space passes actions as 16 bytes: the handler, the
mask and four bytes of padding, each little-endian.
-/

namespace TrapKernel

/-- How a process handles a signal. -/
inductive SignalHandler where
  | default
  | ignore
  /-- A handler that starts at an address in user memory. -/
  | user (entry : UInt64)
  deriving DecidableEq, Repr

namespace SignalHandler

/-- The handler that a word stands for: zero is the default, one is to ignore. -/
def ofWord (w : UInt64) : SignalHandler := if w = 0 then default else if w = 1 then ignore else user w

/-- The word for a handler. -/
def toWord : SignalHandler → UInt64
  | default => 0
  | ignore => 1
  | user entry => entry

/-- Whether the handler lies in user memory. -/
def isUser : SignalHandler → Bool
  | user _ => true
  | _ => false

/-- How a handler is shown. -/
def text : SignalHandler → String
  | default => "Default"
  | ignore => "Ignore"
  | user entry => s!"User({entry})"

theorem toWord_ofWord (w : UInt64) : (ofWord w).toWord = w := by
  unfold ofWord
  split
  · next h => simp [toWord, h]
  · split
    · next h => simp [toWord, h]
    · rfl

end SignalHandler

/-- What a process does about a signal, and which signals are held off meanwhile. -/
structure SignalAction where
  handler : SignalHandler
  mask : SignalSet
  deriving DecidableEq, Repr

/-- The action that user space passes: two words, not looked into. -/
structure RawAction where
  handler : UInt64
  mask : UInt32
  deriving DecidableEq, Repr

namespace RawAction

/-- The number of bytes of an action. -/
abbrev byteCount : Nat := 16

/-- The action as bytes; the padding is zero. -/
def toBytes (r : RawAction) : List UInt8 :=
  littleEndian 8 r.handler.toNat ++ (littleEndian 4 r.mask.toNat ++ [0, 0, 0, 0])

/-- The action that bytes spell; the padding is not looked at. -/
def ofBytes (bytes : List UInt8) : RawAction where
  handler := UInt64.ofNat (ofLittleEndian (bytes.take 8))
  mask := UInt32.ofNat (ofLittleEndian ((bytes.drop 8).take 4))

theorem toBytes_length (r : RawAction) : r.toBytes.length = byteCount := by
  simp [toBytes, littleEndian_length]

end RawAction

namespace SignalAction

/-- The action of a process that has not said anything. -/
def initial : SignalAction := ⟨.default, .empty⟩

/-- The action that user space passes, with its words looked into; the mask loses the bit of no signal. -/
def ofRaw (r : RawAction) : SignalAction := ⟨.ofWord r.handler, .ofWord r.mask⟩

/-- The action as user space reads it. -/
def toRaw (a : SignalAction) : RawAction := ⟨a.handler.toWord, a.mask.toWord⟩

end SignalAction

theorem SignalSet.ofWord_toWord (s : SignalSet) : SignalSet.ofWord s.toWord = s := by
  have h := s.members.isLt
  cases s with
  | mk members =>
    simp only [ofWord, toWord, SignalSet.mk.injEq] at h ⊢
    apply BitVec.eq_of_toNat_eq
    simp only [UInt32.toNat_ofNat', BitVec.toNat_ofNat]
    simp only [lastSignal] at h ⊢
    omega

/-- The actions of a process by signal number; number zero belongs to no signal. -/
structure SignalActions where
  table : Vector SignalAction (lastSignal + 1)
  deriving DecidableEq, Repr

namespace SignalActions

/-- The actions of a process that has not said anything. -/
def initial : SignalActions := ⟨Vector.replicate _ .initial⟩

/-- The action for a signal; the initial one for a number that is too large. -/
def action (a : SignalActions) (n : Nat) : SignalAction := a.table[n]?.getD .initial

/-- The action at a place of the table. A place past its end stops the kernel. -/
def lookup {σ : Type} (a : SignalActions) (n : Nat) : Run σ SignalAction :=
  if n < lastSignal + 1 then pure (a.action n) else crash (.outOfBounds (lastSignal + 1) n)

/-- The actions with one of them replaced. -/
def install (a : SignalActions) (n : Nat) (action : SignalAction) : SignalActions :=
  ⟨a.table.setIfInBounds n action⟩

/-- Replaces the action of a signal and tells the old one. Numbers that are not those of signals and signals that
cannot be caught are refused. -/
def swap (a : SignalActions) (n : Nat) (action : SignalAction) : Except Errno (SignalAction × SignalActions) :=
  if isSignal n && isCatchable n then .ok (a.action n, a.install n action) else .error .invalid

end SignalActions

end TrapKernel
