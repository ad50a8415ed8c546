import TrapKernel.Memory.Physical
import TrapKernel.Memory.Entry

/-!
# Page tables

A page table is a tree of three levels whose nodes are frames of 512 entries. The root identifies the table; the
entries of the upper two levels lead to nodes, those of the leaves to pages. A table owns the frames of all its
nodes and gives them back when it is released.

`PageTable.map` adds the nodes that are missing. When it runs out of frames it fails and keeps the nodes that it
has added so far.
-/

namespace TrapKernel

namespace PhysicalMemory

/-- The entry at an index of a node. -/
def entry (m : PhysicalMemory) (node : Nat) (i : Fin 512) : Entry := ⟨(m.frame node).word i⟩

/-- The memory with one entry of a node replaced. -/
def setEntry (m : PhysicalMemory) (node : Nat) (i : Fin 512) (e : Entry) : PhysicalMemory :=
  m.setFrame node ((m.frame node).setWord i e.bits)

/-- The node that is reached from a node along a path of indexes, if all entries on the way are valid. -/
def descend (m : PhysicalMemory) (node : Nat) : List (Fin 512) → Option Nat
  | [] => some node
  | i :: rest => if (m.entry node i).isValid then m.descend (m.entry node i).frame rest else none

theorem entry_setEntry (m : PhysicalMemory) (node node' : Nat) (i i' : Fin 512) (e : Entry) :
    (m.setEntry node i e).entry node' i' = if node = node' ∧ i = i' then e else m.entry node' i' := by
  unfold entry setEntry
  rw [frame_setFrame]
  by_cases hn : node = node'
  · subst hn
    rw [if_pos rfl, Frame.word_setWord _ i.isLt]
    by_cases hi : i = i'
    · simp [hi]
    · have : (i' : Nat) ≠ i := fun h => hi (Fin.ext h.symm)
      simp [hi, this]
  · simp [hn]

end PhysicalMemory

/-- A page table: its root node and all nodes that it owns, the root first, in the order of their creation. -/
structure PageTable where
  root : Nat
  nodes : List Nat
  deriving DecidableEq, Repr

namespace PageTable

open PhysicalMemory

/-- A table with a root node only, if there is a frame for it. -/
def create : Run PhysicalMemory (Option PageTable) := do
  match ← takeFrame with
  | none => return none
  | some p => return some ⟨p, [p]⟩

/-- Gives the frames of all nodes back. -/
def release (t : PageTable) : Run PhysicalMemory Unit := giveFrames t.nodes

/-- The leaf node of a page number, if the table has it. -/
def leaf (t : PageTable) (m : PhysicalMemory) (page : Nat) : Option Nat := m.descend t.root (upperPath page)

/-- Goes from a node along a path of indexes and adds the nodes that are missing. The second part of the answer is
the list of owned nodes, longer by the nodes that were added. -/
def descendCreating (node : Nat) : List (Fin 512) → List Nat → Run PhysicalMemory (Option Nat × List Nat)
  | [], nodes => return (some node, nodes)
  | i :: rest, nodes => do
    let e := (← get).entry node i
    if e.isValid then descendCreating e.frame rest nodes
    else
      match ← takeFrame with
      | none => return (none, nodes)
      | some p =>
        modify fun m => m.setEntry node i (.make p .valid)
        descendCreating (Entry.make p .valid).frame rest (nodes ++ [p])

/-- Maps a page number to a frame. The answer is the table with the nodes that were added and whether there were
frames enough for them. -/
def map (t : PageTable) (page frame : Nat) (flags : EntryFlags) : Run PhysicalMemory (PageTable × Bool) := do
  let (leaf, nodes) ← descendCreating t.root (upperPath page) t.nodes
  match leaf with
  | none => return ({ t with nodes }, false)
  | some node =>
    if ((← get).entry node (leafIndex page)).isValid then crash (.alreadyMapped page)
    modify fun m => m.setEntry node (leafIndex page) (.make frame (flags ||| .valid))
    return ({ t with nodes }, true)

/-- Ends the mapping of a page number. -/
def unmap (t : PageTable) (page : Nat) : Run PhysicalMemory Unit := do
  let m ← get
  match t.leaf m page with
  | none => crash .unmapWithoutTable
  | some node =>
    if (m.entry node (leafIndex page)).isValid then set (m.setEntry node (leafIndex page) .empty)
    else crash (.unmapInvalid page)

/-- Replaces frame and flags of a page number that is mapped. -/
def remap (t : PageTable) (page frame : Nat) (flags : EntryFlags) : Run PhysicalMemory Unit := do
  let m ← get
  match t.leaf m page with
  | none => crash .remapWithoutTable
  | some node =>
    if (m.entry node (leafIndex page)).isValid then
      set (m.setEntry node (leafIndex page) (.make frame (flags ||| .valid)))
    else crash (.remapInvalid page)

/-- The valid entry of a page number, if there is one. -/
def translate (t : PageTable) (m : PhysicalMemory) (page : Nat) : Option Entry :=
  match t.leaf m page with
  | none => none
  | some node =>
    if (m.entry node (leafIndex page)).isValid then some (m.entry node (leafIndex page)) else none

/-- The word that makes the table the current one: the mode of three-level tables above the root. -/
def token (t : PageTable) : UInt64 := UInt64.ofNat (8 <<< 60 ||| t.root)

end PageTable

end TrapKernel
