import TrapKernel.Run

/-!
# The frame allocator

The allocator hands out the pages of one physical range. Pages that were given back are handed out again first,
the one given back last before the others; then the pages follow that were never handed out, in ascending order.

The allocator remembers only the end of what it has handed out, so `dealloc` takes any smaller page for one of its
own unless it has just been given back.

* `FrameAllocator.alloc_eq_some`: the page that is taken, and what is left.
* `FrameAllocator.dealloc_eq_ok`: the pages that can be given back.
-/

namespace TrapKernel

/-- Which pages are free: those given back, the latest first, and those from `next` up to `limit`. -/
structure FrameAllocator where
  next : Nat
  limit : Nat
  recycled : List Nat
  deriving DecidableEq, Repr

namespace FrameAllocator

/-- The allocator of the pages from `start` up to `limit`, all of them free. -/
def ofPages (start limit : Nat) : FrameAllocator := ⟨start, limit, []⟩

/-- Takes a page, if there is one. -/
def alloc (a : FrameAllocator) : Option (Nat × FrameAllocator) :=
  match a.recycled with
  | frame :: rest => some (frame, { a with recycled := rest })
  | [] => if a.next = a.limit then none else some (a.next, { a with next := a.next + 1 })

/-- Gives a page back. A page at or above `next` and one that was given back before stop the kernel. -/
def dealloc (a : FrameAllocator) (frame : Nat) : Except Panic FrameAllocator :=
  if a.next ≤ frame ∨ frame ∈ a.recycled then .error (.frameNotAllocated frame)
  else .ok { a with recycled := frame :: a.recycled }

/-- The number of pages that can still be taken. -/
def available (a : FrameAllocator) : Except Panic Nat :=
  if a.next ≤ a.limit then .ok (a.limit - a.next + a.recycled.length) else .error .subOverflow

variable {a a' : FrameAllocator} {p : Nat}

/-- A page that is taken was given back last, or none is there that was given back and it is the next new one. -/
theorem alloc_eq_some (h : a.alloc = some (p, a')) :
    (∃ rest, a.recycled = p :: rest ∧ a' = { a with recycled := rest }) ∨
      a.recycled = [] ∧ p = a.next ∧ a.next ≠ a.limit ∧ a' = { a with next := a.next + 1 } := by
  unfold alloc at h
  split at h
  next frame rest hrecycled =>
    obtain ⟨rfl, rfl⟩ := Prod.mk.inj (Option.some.inj h)
    exact .inl ⟨rest, hrecycled, rfl⟩
  next hrecycled =>
    split at h
    · exact absurd h (by simp)
    next hend =>
      obtain ⟨rfl, rfl⟩ := Prod.mk.inj (Option.some.inj h)
      exact .inr ⟨hrecycled, rfl, hend, rfl⟩

theorem alloc_eq_none (h : a.alloc = none) : a.recycled = [] ∧ a.next = a.limit := by
  unfold alloc at h
  split at h
  · exact absurd h (by simp)
  next hrecycled =>
    split at h
    next hend => exact ⟨hrecycled, hend⟩
    · exact absurd h (by simp)

theorem dealloc_eq_ok : a.dealloc p = .ok a' ↔
    (p < a.next ∧ p ∉ a.recycled) ∧ a' = { a with recycled := p :: a.recycled } := by
  unfold dealloc
  split
  next hguard =>
    have hnot : ¬(p < a.next ∧ p ∉ a.recycled) := by
      rintro ⟨hlt, hnew⟩
      rcases hguard with hle | hmem
      · exact Nat.not_lt.mpr hle hlt
      · exact hnew hmem
    simp [hnot]
  next hguard =>
    obtain ⟨hlt, hnew⟩ := not_or.mp hguard
    simp [Nat.lt_of_not_le hlt, hnew, eq_comm]

theorem dealloc_eq_error (h : ¬(p < a.next ∧ p ∉ a.recycled)) : a.dealloc p = .error (.frameNotAllocated p) := by
  unfold dealloc
  split
  · rfl
  next hguard =>
    obtain ⟨hlt, hnew⟩ := not_or.mp hguard
    exact absurd ⟨Nat.lt_of_not_le hlt, hnew⟩ h

end FrameAllocator

end TrapKernel
