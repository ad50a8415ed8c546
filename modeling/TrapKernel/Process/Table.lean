import TrapKernel.Memory.AddressSpace
import TrapKernel.Process.Basic

/-!
# The process table

A process lives in a slot of the table and is referred to by it. The first process lives in slot zero and adopts
the children of those that exit. Slots are used again, and so a slot stands for the process that is in it now.

* `ProcessTable.allocPid` hands out process numbers in ascending order and skips those in use.
* `ProcessTable.nextReady?` is the choice of the scheduler: round robin from the current slot on.
-/

namespace TrapKernel

/-- The processes, the slot of the one that is running, and the process number to try next. Unless it is said
otherwise, the pages of a process are an address space. -/
structure ProcessTable (β : Type := AddressSpace) where
  slots : Vector (Option (Process β)) slotCount
  current : Slot
  nextPid : UInt64

namespace ProcessTable

variable {β : Type}

/-- The table with the first process only. -/
def initial (p : Process β) : ProcessTable β where
  slots := (Vector.replicate _ none).set 0 (some p)
  current := .init
  nextPid := 1

/-- The process in a slot, if there is one. -/
def get (t : ProcessTable β) (s : Slot) : Option (Process β) := t.slots[s]

/-- The table with the content of a slot replaced. -/
def put (t : ProcessTable β) (s : Slot) (p : Option (Process β)) : ProcessTable β :=
  { t with slots := t.slots.set s p }

/-- The table with the process in a slot changed, if there is one. -/
def modifyAt (t : ProcessTable β) (s : Slot) (f : Process β → Process β) : ProcessTable β :=
  t.put s ((t.get s).map f)

/-- Whether the process in a slot, if there is one, has a status. -/
def hasStatus (t : ProcessTable β) (s : Slot) (status : Status) : Bool :=
  match t.get s with
  | some p => p.status = status
  | none => false

/-- The slot of the process with a number, whether it has exited or not. -/
def findPid? (t : ProcessTable β) (pid : UInt64) : Option Slot :=
  Slot.all.find? fun s =>
    match t.get s with
    | some p => p.pid = pid
    | none => false

/-- The first slot without a process. -/
def firstFree? (t : ProcessTable β) : Option Slot := Slot.all.find? fun s => (t.get s).isNone

/-- The slots of the children of the process in a slot, whether they have exited or not. -/
def children (t : ProcessTable β) (s : Slot) : List Slot :=
  Slot.all.filter fun c =>
    match t.get c with
    | some p => p.parent = some s
    | none => false

/-- The number of the parent of the process in a slot; zero if there is none. -/
def parentPid (t : ProcessTable β) (s : Slot) : UInt64 :=
  match ((t.get s).bind Process.parent).bind t.get with
  | some p => p.pid
  | none => 0

/-- The process number after another. Zero belongs to the first process and is left out. -/
def pidAfter (pid : UInt64) : UInt64 := if pid + 1 = 0 then 1 else pid + 1

/-- The first number from `pid` on that no process has, and the number after it. Of `n` numbers the last is not
looked at. -/
def searchPid (t : ProcessTable β) : Nat → UInt64 → UInt64 × UInt64
  | 0, pid => (pid, pidAfter pid)
  | n + 1, pid => if (t.findPid? pid).isNone then (pid, pidAfter pid) else t.searchPid n (pidAfter pid)

/-- A process number that no process has. There are at most as many in use as there are slots, so among one more
number in a row one is not. -/
def allocPid (t : ProcessTable β) : UInt64 × ProcessTable β :=
  let (pid, nextPid) := t.searchPid slotCount t.nextPid
  (pid, { t with nextPid })

/-- The slots in the order in which the scheduler looks at them: those after the current one, then those before it,
and the current one last. -/
def scheduleOrder (t : ProcessTable β) : List Slot :=
  (List.range slotCount).map fun i => Slot.ofNat (t.current + 1 + i)

/-- The slot of the process that runs next: the first one that is ready. -/
def nextReady? (t : ProcessTable β) : Option Slot := t.scheduleOrder.find? fun s => t.hasStatus s .ready

/-- The table with the process in a slot woken up. -/
def wake (t : ProcessTable β) (s : Slot) : ProcessTable β := t.modifyAt s Process.wake

/-- The table with the children of the process in a slot given to the first process, which is woken up if one of
them has exited. -/
def reparent (t : ProcessTable β) (s : Slot) : ProcessTable β :=
  let adopted := { t with slots := t.slots.map fun p => p.map (Process.disown s) }
  if (t.children s).any fun c => t.hasStatus c .zombie then adopted.wake .init else adopted

/-- The slots of all processes in ascending order. -/
def occupied (t : ProcessTable β) : List Slot := Slot.all.filter fun s => (t.get s).isSome

theorem get_put (t : ProcessTable β) (s s' : Slot) (p : Option (Process β)) :
    (t.put s p).get s' = if s = s' then p else t.get s' := by
  unfold get put
  by_cases h : s = s'
  · subst h
    simp
  · have : s.val ≠ s'.val := fun e => h (Fin.ext e)
    simp [h, Vector.getElem_set_ne _ _ this]

end ProcessTable

end TrapKernel
