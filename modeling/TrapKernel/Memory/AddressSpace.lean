import TrapKernel.Memory.PageTable

/-!
# Address spaces

An address space is a page table together with the data frames that it holds, by page number. Address spaces can
hold a data frame in common: `AddressSpace.fork` copies no page but takes the write permission away on both sides
and marks the page copy-on-write. `AddressSpace.resolveCow` ends the sharing of one page.

A page table reads the lower 27 bits of a page number only, while the data frames are held by the whole number.
-/

namespace TrapKernel

/-- A page table and the data frames that are held, by page number. -/
structure AddressSpace where
  table : PageTable
  pages : Std.TreeMap Nat Nat

namespace AddressSpace

open PhysicalMemory

/-- An address space without pages, if there is a frame for its root node. -/
def create : Run PhysicalMemory (Option AddressSpace) := do
  match ← PageTable.create with
  | none => return none
  | some table => return some ⟨table, ∅⟩

/-- The word that makes this address space the current one. -/
def token (s : AddressSpace) : UInt64 := s.table.token

/-- The valid entry of a page number, if there is one. -/
def translate (s : AddressSpace) (m : PhysicalMemory) (page : Nat) : Option Entry := s.table.translate m page

/-- The number of pages that are held. -/
def pageCount (s : AddressSpace) : Nat := s.pages.size

/-- Maps a page number to a new frame of zeros. The answer is the address space and whether there were frames enough;
nodes that were added to the page table stay in either case. -/
def mapZeroed (s : AddressSpace) (page : Nat) (flags : EntryFlags) : Run PhysicalMemory (AddressSpace × Bool) := do
  match ← takeFrame with
  | none => return (s, false)
  | some p =>
    let (table, mapped) ← s.table.map page p flags
    if mapped then
      hold p
      return ({ table, pages := s.pages.insert page p }, true)
    else
      giveFrame p
      return ({ s with table }, false)

/-- Lets go of the data frames of some pages and ends their mappings. -/
def dropPages (table : PageTable) : List (Nat × Nat) → Run PhysicalMemory Unit
  | [] => return ()
  | (page, p) :: rest => do
    letGo p
    table.unmap page
    dropPages table rest

/-- Ends the mappings of all pages in a range. -/
def unmapRange (s : AddressSpace) (range : PageRange) : Run PhysicalMemory AddressSpace := do
  dropPages s.table (s.pages.filter fun page _ => page ∈ range).toList
  return { s with pages := s.pages.filter fun page _ => page ∉ range }

/-- Ends the mappings of all pages. -/
def unmapAll (s : AddressSpace) : Run PhysicalMemory AddressSpace := do
  dropPages s.table s.pages.toList
  return { s with pages := ∅ }

/-- Lets go of data frames, the first of the list first. -/
def letGoAll : List (Nat × Nat) → Run PhysicalMemory Unit
  | [] => return ()
  | (_, p) :: rest => do
    letGo p
    letGoAll rest

/-- Gives up the address space: first the nodes of its page table, then its data frames by ascending page. -/
def release (s : AddressSpace) : Run PhysicalMemory Unit := do
  s.table.release
  letGoAll s.pages.toList

/-- Enters some pages of an address space with page table `parent` into the address space `child`, shared
copy-on-write. The answer is the child as far as it got and whether there were frames enough. -/
def sharePages (parent : PageTable) :
    List (Nat × Nat) → AddressSpace → Run PhysicalMemory (AddressSpace × Bool)
  | [], child => return (child, true)
  | (page, p) :: rest, child => do
    match parent.translate (← get) page with
    | none => crash .dataFrameUnmapped
    | some e =>
      let flags := e.flags.without .valid
      if flags.has .writable then parent.remap page p flags.shared
      let (table, mapped) ← child.table.map page p flags.shared
      if mapped then
        hold p
        sharePages parent rest { table, pages := child.pages.insert page p }
      else return ({ child with table }, false)

/-- A second address space with the same pages, all of them shared copy-on-write. If the frames do not suffice,
the second address space is given up; the pages that were marked stay marked. -/
def fork (s : AddressSpace) : Run PhysicalMemory (Option AddressSpace) := do
  match ← create with
  | none => return none
  | some child =>
    let (child, complete) ← sharePages s.table s.pages.toList child
    if complete then return some child
    else
      child.release
      return none

/-- Makes a copy-on-write page writable: in place if no one else holds its frame, and otherwise on a copy. The
answer is `none` if the page is not copy-on-write. -/
def resolveCow (s : AddressSpace) (page : Nat) : Attempt PhysicalMemory (Option AddressSpace) := do
  let m ← get
  match s.translate m page with
  | none => return none
  | some e =>
    if !e.isCow then return none
    else
      let flags := (e.flags.without .valid).unshared
      match s.pages[page]? with
      | none => crash .cowFrameMissing
      | some p =>
        if m.holderCount p = 1 then
          s.table.remap page p flags
          return some s
        else
          match ← takeFrame with
          | none => throw .noMemory
          | some copy =>
            modify fun m => m.setFrame copy (m.frame p)
            s.table.remap page copy flags
            hold copy
            letGo p
            return some { s with pages := s.pages.insert page copy }

end AddressSpace

end TrapKernel
