import TrapKernel.Memory.Address
import TrapKernel.Text.Names

/-!
# Entries of a page table

An entry is a word: the number of a frame in the bits from ten up, and flags below. `Entry.make` writes one;
a frame number that is too large loses its upper bits.

* `Entry.frame_make`, `Entry.flags_make`: what is written reads back, for frame numbers below `frameLimit`.
-/

namespace TrapKernel

/-- The flags of an entry, one bit each. -/
abbrev EntryFlags : Type := BitVec 9

namespace EntryFlags

/-- The entry is in use. -/
def valid : EntryFlags := 1
/-- The page may be read. -/
def readable : EntryFlags := 2
/-- The page may be written. -/
def writable : EntryFlags := 4
/-- The page may be executed. -/
def executable : EntryFlags := 8
/-- User code may access the page. -/
def user : EntryFlags := 16
/-- The entry holds in every address space. -/
def global : EntryFlags := 32
/-- The page has been accessed. -/
def accessed : EntryFlags := 64
/-- The page has been written. -/
def dirty : EntryFlags := 128
/-- The page is shared until it is written. -/
def cow : EntryFlags := 256

/-- What a page of user data may be used for unless it is said otherwise. -/
def userData : EntryFlags := readable ||| writable ||| user

/-- Every flag with its letter, from the lowest bit up. -/
def named : List (EntryFlags × String) :=
  [(valid, "V"), (readable, "R"), (writable, "W"), (executable, "X"), (user, "U"), (global, "G"), (accessed, "A"),
    (dirty, "D"), (cow, "COW")]

/-- Whether all flags of `g` are among `f`. -/
def has (f g : EntryFlags) : Bool := f &&& g = g

/-- The flags `f` without those of `g`. -/
def without (f g : EntryFlags) : EntryFlags := f &&& ~~~g

/-- The flags that a number spells; bits above the defined ones are dropped. -/
def ofNat (n : Nat) : EntryFlags := BitVec.ofNat 9 n

/-- The flags for a page that is shared until it is written: not writable, and marked if it was. -/
def shared (f : EntryFlags) : EntryFlags := if f.has writable then f.without writable ||| cow else f

/-- The flags for a page that ceases to be shared: writable and not marked. -/
def unshared (f : EntryFlags) : EntryFlags := f.without cow ||| writable

end EntryFlags

/-- The letters of the flags, from the lowest bit up. -/
def EntryFlags.text (f : EntryFlags) : String :=
  joinNames ((named.filter fun x => f.has x.1).map Prod.snd)

/-- An entry of a page table. -/
structure Entry where
  bits : UInt64
  deriving DecidableEq, Repr

namespace Entry

/-- The entry of zeros, which is not valid. -/
def empty : Entry := ⟨0⟩

/-- The entry for a frame with some flags. -/
def make (frame : Nat) (flags : EntryFlags) : Entry := ⟨UInt64.ofNat (frame * 1024 + flags.toNat)⟩

/-- Frame numbers in an entry have 44 bits. -/
abbrev frameLimit : Nat := 0x100000000000

/-- The number of the frame that the entry leads to. -/
def frame (e : Entry) : Nat := e.bits.toNat / 1024 % frameLimit

/-- The defined flags of the entry. -/
def flags (e : Entry) : EntryFlags := EntryFlags.ofNat e.bits.toNat

/-- Whether the entry is in use. -/
def isValid (e : Entry) : Bool := e.flags.has .valid

/-- Whether the page may be written. -/
def isWritable (e : Entry) : Bool := e.flags.has .writable

/-- Whether the page is shared until it is written. -/
def isCow (e : Entry) : Bool := e.flags.has .cow

theorem frame_make {p : Nat} (hp : p < frameLimit) (f : EntryFlags) : (make p f).frame = p := by
  have hf := f.isLt
  simp only [frame, make, frameLimit, UInt64.toNat_ofNat'] at hp ⊢
  omega

theorem flags_make (p : Nat) (f : EntryFlags) : (make p f).flags = f := by
  have hf := f.isLt
  apply BitVec.eq_of_toNat_eq
  simp only [flags, EntryFlags.ofNat, make, UInt64.toNat_ofNat', BitVec.toNat_ofNat]
  omega

end Entry

end TrapKernel
