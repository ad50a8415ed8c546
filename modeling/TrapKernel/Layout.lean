/-!
# Sizes and limits

The fixed sizes of the process table, of a page, of the user part of an address space and of the clock.
-/

namespace TrapKernel

/-- Slots of the process table. Call numbers lie strictly between zero and this number too. -/
abbrev slotCount : Nat := 64

/-- Descriptors of one process. -/
abbrev descriptorCount : Nat := 4

/-- Bytes of a page. -/
abbrev pageSize : Nat := 4096

/-- Words of 64 bits are smaller than this number. -/
abbrev wordLimit : Nat := 0x10000000000000000

/-- The first address above the user stack. -/
abbrev stackTop : Nat := 0x40000000

/-- The first address of the user stack, which spans two pages. -/
abbrev stackBottom : Nat := stackTop - 2 * pageSize

/-- Where the heap of the first process starts unless it is said otherwise. -/
abbrev defaultHeapStart : Nat := 0x10000000

/-- A path, counted with its closing zero byte, fits into this many bytes. -/
abbrev pathLimit : Nat := 256

/-- The largest signal number. -/
abbrev lastSignal : Nat := 31

/-- Increments of the clock register in a second. -/
abbrev clockFrequency : Nat := 10000000

/-- Time slices in a second. -/
abbrev slicesPerSecond : Nat := 100

/-- A place in the process table. -/
abbrev Slot : Type := Fin slotCount

/-- The first process lives in slot zero for ever. -/
abbrev Slot.init : Slot := 0

/-- The place with a number; numbers past the end of the table start again from zero. -/
def Slot.ofNat (n : Nat) : Slot := Fin.ofNat slotCount n

/-- All places of the process table in ascending order. -/
def Slot.all : List Slot := List.finRange slotCount

theorem Slot.mem_all (s : Slot) : s ∈ Slot.all := List.mem_finRange s

end TrapKernel
