import TrapKernel.Run

/-!
# Addresses and page numbers

Addresses and page numbers are natural numbers below `wordLimit`. A page number is an address divided by the page
size. The page-table walk reads three indexes of nine bits from a page number and ignores the bits above them.

* `pageRange`: a range of page numbers, which cannot end before it starts.
-/

namespace TrapKernel

variable {σ : Type}

/-- The page that an address lies in. -/
def pageOf (address : Nat) : Nat := address / pageSize

/-- The first page that starts at the address or above it. The address one page further must be a word. -/
def pageAbove (address : Nat) : Run σ Nat := do
  let next ← addWords address pageSize
  return (next - 1) / pageSize

/-- The distance of an address from the start of its page. -/
def pageOffset (address : Nat) : Nat := address % pageSize

/-- The address where a page starts. Bits that do not fit into a word are lost. -/
def pageStart (page : Nat) : Nat := page * pageSize % wordLimit

/-- The index into the root node of the page table. -/
def rootIndex (page : Nat) : Fin 512 := Fin.ofNat 512 (page / 262144)

/-- The index into the middle node of the page table. -/
def middleIndex (page : Nat) : Fin 512 := Fin.ofNat 512 (page / 512)

/-- The index into the leaf node of the page table. -/
def leafIndex (page : Nat) : Fin 512 := Fin.ofNat 512 page

/-- The way from the root node to the leaf node of a page number. -/
def upperPath (page : Nat) : List (Fin 512) := [rootIndex page, middleIndex page]

/-- The page numbers from `start` up to `stop`, which is not among them. -/
structure PageRange where
  start : Nat
  stop : Nat
  ordered : start ≤ stop

/-- A range of page numbers. One that ends before it starts stops the kernel. -/
def pageRange (start stop : Nat) : Run σ PageRange :=
  if h : start ≤ stop then pure ⟨start, stop, h⟩ else crash (.reversedRange start stop)

/-- The number of pages in a range. -/
def PageRange.size (r : PageRange) : Nat := r.stop - r.start

/-- The first `n` page numbers of a range. -/
def PageRange.take (r : PageRange) (n : Nat) : List Nat := List.range' r.start (min n r.size)

instance : Membership Nat PageRange := ⟨fun r page => r.start ≤ page ∧ page < r.stop⟩

instance (page : Nat) (r : PageRange) : Decidable (page ∈ r) :=
  inferInstanceAs (Decidable (r.start ≤ page ∧ page < r.stop))

/-- How a virtual address is shown. -/
def virtualAddressText (address : Nat) : String := "VA:" ++ hex address

/-- How a virtual page number is shown. -/
def virtualPageText (page : Nat) : String := "VPN:" ++ hex page

/-- How a physical address is shown. -/
def physicalAddressText (address : Nat) : String := "PA:" ++ hex address

/-- How a physical page number is shown. -/
def physicalPageText (page : Nat) : String := "PPN:" ++ hex page

/-- How a range of page numbers is shown. -/
def PageRange.text (r : PageRange) : String :=
  "VPNRange \x7b start: " ++ virtualPageText r.start ++ ", end: " ++ virtualPageText r.stop ++ " \x7d"

end TrapKernel
