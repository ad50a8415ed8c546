import TrapKernel.Memory.Physical
import TrapKernel.Proofs.Run
import Mathlib.Data.Set.Card
import Mathlib.Order.Interval.Finset.Nat

/-!
# What the frame allocator hands out

The allocator is given the whole pages of a range of addresses. As long as a page starts or ends somewhere in the range,
the frames that are taken and dropped in any order are whole pages of the range, none is handed out twice, and the
allocator refuses a frame only when all of them are handed out. A range that lies within one page and touches neither of
its ends is another matter: its start is rounded up past its end, which is rounded down, and what is free is then neither
counted nor bounded.

* `FrameAllocator.Splits`: the invariant, that the pages up to `next` are those given back and those in use.
* `PhysicalMemory.Allocation`: what becomes of memory when frames are taken and dropped.
* `PhysicalMemory.initFrames_staysInside`: which ranges are handed out as they should be.
-/

namespace TrapKernel

namespace FrameAllocator

variable {a a' : FrameAllocator} {first limit p : Nat} {held : List Nat}

/-- Whether the pages from `first` up to `limit` are those given back, those that are held, and those that were never
handed out. -/
structure Splits (a : FrameAllocator) (first limit : Nat) (held : List Nat) : Prop where
  limit_eq : a.limit = limit
  first_le : first ≤ a.next
  next_le : a.next ≤ limit
  perm : (a.recycled ++ held).Perm (List.range' first (a.next - first))

namespace Splits

private theorem ofPages (h : first ≤ limit) : (ofPages first limit).Splits first limit [] := by
  refine ⟨rfl, Nat.le_refl first, h, ?_⟩
  rw [FrameAllocator.ofPages, Nat.sub_self]
  exact .refl _

private theorem nodup (h : a.Splits first limit held) : (a.recycled ++ held).Nodup :=
  h.perm.nodup_iff.mpr List.nodup_range'

private theorem mem_iff (h : a.Splits first limit held) : p ∈ a.recycled ∨ p ∈ held ↔ first ≤ p ∧ p < a.next := by
  have hle := h.first_le
  rw [← List.mem_append, h.perm.mem_iff, List.mem_range'_1]
  omega

private theorem bounds (h : a.Splits first limit held) (hp : p ∈ held) : first ≤ p ∧ p < limit := by
  obtain ⟨hge, hlt⟩ := h.mem_iff.mp (.inr hp)
  exact ⟨hge, Nat.lt_of_lt_of_le hlt h.next_le⟩

private theorem length_eq (h : a.Splits first limit held) : a.recycled.length + held.length = a.next - first := by
  rw [← List.length_append, h.perm.length_eq, List.length_range']

/-- A page is refused only when all of them are held. -/
private theorem alloc_none (h : a.Splits first limit held) (ha : a.alloc = none) (hge : first ≤ p) (hlt : p < limit) :
    p ∈ held := by
  obtain ⟨hrecycled, hend⟩ := alloc_eq_none ha
  have hmem := h.mem_iff.mpr ⟨hge, by rw [hend, h.limit_eq]; exact hlt⟩
  rw [hrecycled] at hmem
  exact hmem.resolve_left List.not_mem_nil

/-- A page that is handed out moves to those that are held. -/
private theorem alloc_some (h : a.Splits first limit held) (ha : a.alloc = some (p, a')) :
    a'.Splits first limit (p :: held) := by
  obtain ⟨rest, hrecycled, rfl⟩ | ⟨-, rfl, hend, rfl⟩ := alloc_eq_some ha
  · refine ⟨h.limit_eq, h.first_le, h.next_le, List.perm_middle.trans ?_⟩
    rw [← List.cons_append, ← hrecycled]
    exact h.perm
  · have hlimit := h.limit_eq
    have hle := h.first_le
    have hnext := h.next_le
    refine ⟨hlimit, by show first ≤ a.next + 1; omega, by show a.next + 1 ≤ limit; omega, ?_⟩
    -- the range grows by one page at its end
    show (a.recycled ++ a.next :: held).Perm (List.range' first (a.next + 1 - first))
    have hgrow : List.range' first (a.next + 1 - first) = List.range' first (a.next - first) ++ [a.next] := by
      rw [Nat.sub_add_comm hle, List.range'_1_concat, Nat.add_sub_cancel' hle]
    rw [hgrow]
    exact List.perm_middle.trans ((h.perm.cons _).trans (List.perm_append_singleton _ _).symm)

/-- A page that is held can be given back. -/
theorem dealloc (h : a.Splits first limit held) (hp : p ∈ held) :
    ∃ a', a.dealloc p = .ok a' ∧ a'.Splits first limit (held.erase p) := by
  have hlt := (h.mem_iff.mp (.inr hp)).2
  have hnew : p ∉ a.recycled := fun hmem => (List.nodup_append.mp h.nodup).2.2 p hmem p hp rfl
  refine ⟨_, dealloc_eq_ok.mpr ⟨⟨hlt, hnew⟩, rfl⟩, h.limit_eq, h.first_le, h.next_le, List.Perm.trans ?_ h.perm⟩
  exact List.perm_middle.symm.trans ((List.perm_cons_erase hp).symm.append_left _)

private theorem available (h : a.Splits first limit held) : a.available = .ok (limit - first - held.length) := by
  have hle := h.first_le
  have hnext := h.next_le
  have hlimit := h.limit_eq
  have hlength := h.length_eq
  unfold FrameAllocator.available
  rw [if_pos (by omega)]
  congr 1
  omega

end Splits

end FrameAllocator

namespace PhysicalMemory

variable {m m' m₀ m₁ : PhysicalMemory} {held : List Nat} {start stop first limit p : Nat}

/-- What becomes of memory when frames are taken and dropped in any order: the memory, and the frames that are held then.
In between, others may write to any frame. -/
inductive Allocation (m₁ : PhysicalMemory) : PhysicalMemory → List Nat → Prop
  | start : Allocation m₁ m₁ []
  | take {m m' : PhysicalMemory} {held : List Nat} {r : Option Nat} (h : Allocation m₁ m held)
      (htake : takeFrame m = .ok r m') : Allocation m₁ m' (r.toList ++ held)
  | drop {m m' : PhysicalMemory} {held : List Nat} {p : Nat} (h : Allocation m₁ m held) (hp : p ∈ held)
      (hgive : giveFrame p m = .ok () m') : Allocation m₁ m' (held.erase p)
  | write {m m' : PhysicalMemory} {held : List Nat} (h : Allocation m₁ m held) (hsame : m'.allocator = m.allocator) :
      Allocation m₁ m' held

/-- Whether a page lies wholly in a range of addresses. -/
def IsWhole (start stop p : Nat) : Prop := start ≤ p * pageSize ∧ (p + 1) * pageSize ≤ stop

instance (start stop p : Nat) : Decidable (IsWhole start stop p) := inferInstanceAs (Decidable (_ ∧ _))

/-- Whether a page starts or ends in a range of addresses, or at its end. -/
def HasBoundary (start stop : Nat) : Prop := ∃ p, start ≤ p * pageSize ∧ p * pageSize ≤ stop

/-- Whether the frames that are held, and those that can still be taken, are the whole pages of a range of addresses. -/
structure StaysInside (start stop : Nat) (m : PhysicalMemory) (held : List Nat) : Prop where
  /-- The frames that are held lie wholly in the range. -/
  inside : ∀ p ∈ held, IsWhole start stop p
  /-- No frame is handed out twice. -/
  nodup : held.Nodup
  /-- To take a frame gives one of the range that is not held, or none if there is no such frame. -/
  take : ∃ r m', takeFrame m = .ok r m' ∧ (∀ p, r = some p → IsWhole start stop p ∧ p ∉ held) ∧
    (r = none ↔ ∀ p, IsWhole start stop p → p ∈ held)
  /-- A frame that is held can be dropped. -/
  drop : ∀ p ∈ held, ∃ m', giveFrame p m = .ok () m'
  /-- The frames that can still be taken are counted. -/
  available : available m = .ok ({p | IsWhole start stop p}.ncard - held.length) m

/-! ### Ranges of addresses -/

/-- The first page that starts in a range of addresses. -/
def firstPage (start : Nat) : Nat := (start + (pageSize - 1)) / pageSize

private theorem isWhole_iff : IsWhole start stop p ↔ firstPage start ≤ p ∧ p < pageOf stop := by
  unfold IsWhole firstPage pageOf pageSize
  omega

private theorem hasBoundary_iff : HasBoundary start stop ↔ firstPage start ≤ pageOf stop := by
  unfold HasBoundary firstPage pageOf pageSize
  refine ⟨fun ⟨p, hp⟩ => by omega, fun h => ⟨(start + (4096 - 1)) / 4096, by omega⟩⟩

private theorem ncard_isWhole (start stop : Nat) :
    {p | IsWhole start stop p}.ncard = pageOf stop - firstPage start := by
  have hset : {p | IsWhole start stop p} = ↑(Finset.Ico (firstPage start) (pageOf stop)) := by
    ext p
    rw [Set.mem_ofPred_eq, isWhole_iff, Finset.coe_Ico, Set.mem_Ico]
  rw [hset, Set.ncard_coe_finset, Nat.card_Ico]

/-- Where the range does not start too close to the last address, its pages are given to the allocator. -/
private theorem initFrames_eq (hstart : start + pageSize < wordLimit) (m : PhysicalMemory) :
    initFrames start stop m = .ok () { m with allocator := .ofPages (firstPage start) (pageOf stop) } := by
  refine Run.Ensures.eq_ok ?_
  unfold initFrames pageAbove
  simp only [Run.ensures_bind, Run.ensures_addWords, if_pos hstart, Run.ensures_pure, Run.ensures_modify, true_and]
  rfl

/-! ### Taking and dropping -/

private theorem available_eq (m : PhysicalMemory) : available m = Run.ofExcept m.allocator.available m := rfl

private theorem takeFrame_eq {a : FrameAllocator} (h : m.allocator.alloc = some (p, a)) :
    takeFrame m = .ok (some p) ({ m with allocator := a }.setFrame p .zero) := by
  refine Run.Ensures.eq_ok ?_
  unfold takeFrame
  simp only [Run.ensures_bind, Run.ensures_get, h, Run.ensures_set, Run.ensures_pure, and_self]

private theorem takeFrame_splits (h : m.allocator.Splits first limit held) :
    takeFrame.Ensures m
      (fun r m' => m'.allocator.Splits first limit (r.toList ++ held) ∧
        (r = none → ∀ p, first ≤ p → p < limit → p ∈ held))
      fun _ _ => False := by
  unfold takeFrame
  simp only [Run.ensures_bind, Run.ensures_get]
  cases halloc : m.allocator.alloc with
  | none => exact ⟨h, fun _ _ => h.alloc_none halloc⟩
  | some x =>
    simp only [Run.ensures_bind, Run.ensures_set, Run.ensures_pure]
    exact ⟨h.alloc_some halloc, fun hnone => absurd hnone (by simp)⟩

private theorem giveFrame_splits (h : m.allocator.Splits first limit held) (hp : p ∈ held) :
    (giveFrame p).Ensures m (fun _ m' => m'.allocator.Splits first limit (held.erase p)) fun _ _ => False := by
  obtain ⟨a', ha', h'⟩ := h.dealloc hp
  unfold giveFrame
  simp only [Run.ensures_bind, Run.ensures_get, ha', Run.ofExcept, Run.ensures_pure, Run.ensures_set]
  exact h'

/-- However frames are taken and dropped, those given back and those held are the pages that were handed out. -/
private theorem Allocation.splits (h : Allocation m₁ m held) (hstart : m₁.allocator.Splits first limit []) :
    m.allocator.Splits first limit held := by
  induction h with
  | start => exact hstart
  | take _ htake ih => exact ((takeFrame_splits ih).of_ok htake).1
  | drop _ hp hgive ih => exact (giveFrame_splits ih hp).of_ok hgive
  | write _ hsame ih => rw [hsame]; exact ih

private theorem staysInside_of_splits (h : m.allocator.Splits (firstPage start) (pageOf stop) held) :
    StaysInside start stop m held where
  inside p hp := isWhole_iff.mpr (h.bounds hp)
  nodup := (List.nodup_append.mp h.nodup).2.1
  take := by
    cases htake : takeFrame m with
    | error e m' => exact ((takeFrame_splits h).of_error htake).elim
    | ok r m' =>
      obtain ⟨h', hnone⟩ := (takeFrame_splits h).of_ok htake
      refine ⟨r, m', rfl, ?taken, ?refused, ?full⟩
      case taken =>
        rintro p rfl
        have hnew := (List.nodup_append.mp h'.nodup).2.1
        exact ⟨isWhole_iff.mpr (h'.bounds List.mem_cons_self), (List.nodup_cons.mp hnew).1⟩
      case refused => exact fun hr p hp => hnone hr p (isWhole_iff.mp hp).1 (isWhole_iff.mp hp).2
      case full =>
        intro hall
        cases r with
        | none => rfl
        | some p =>
          have hnew := (List.nodup_append.mp h'.nodup).2.1
          have hp := hall p (isWhole_iff.mpr (h'.bounds List.mem_cons_self))
          exact absurd hp (List.nodup_cons.mp hnew).1
  drop p hp := by
    cases hgive : giveFrame p m with
    | error e m' => exact ((giveFrame_splits h hp).of_error hgive).elim
    | ok u m' => exact ⟨m', rfl⟩
  available := by
    rw [available_eq, h.available, ncard_isWhole]
    rfl

/-- The frames of a range are handed out as they should be exactly if a page starts or ends in the range. If none does, the
count of the free frames stops the kernel, and the first frame that is taken lies beyond the range. -/
theorem initFrames_staysInside (hle : start ≤ stop) (hstart : start + pageSize < wordLimit) (m₀ : PhysicalMemory) :
    ∃ m₁, initFrames start stop m₀ = .ok () m₁ ∧
      (HasBoundary start stop → ∀ m held, Allocation m₁ m held → StaysInside start stop m held) ∧
      (¬HasBoundary start stop → available m₁ = .error .subOverflow m₁ ∧
        ∃ m, takeFrame m₁ = .ok (some (pageOf stop + 1)) m) := by
  refine ⟨_, initFrames_eq hstart m₀, fun hboundary m held h => ?inside, fun hnone => ?beyond⟩
  case inside => exact staysInside_of_splits (h.splits (.ofPages (hasBoundary_iff.mp hboundary)))
  case beyond =>
    rw [hasBoundary_iff] at hnone
    have hfirst : firstPage start = pageOf stop + 1 := by
      unfold firstPage pageOf pageSize at hnone ⊢
      omega
    have hcount : (FrameAllocator.ofPages (firstPage start) (pageOf stop)).available = .error .subOverflow :=
      if_neg hnone
    have halloc : (FrameAllocator.ofPages (firstPage start) (pageOf stop)).alloc =
        some (pageOf stop + 1, ⟨pageOf stop + 2, pageOf stop, []⟩) := by
      rw [hfirst]
      exact if_neg (Nat.succ_ne_self _)
    exact ⟨(available_eq _).trans (by rw [hcount]; rfl), _, takeFrame_eq halloc⟩

/-- Of a range that starts and ends in the middle of a page the pages between are handed out, the one that is dropped once
more. -/
theorem staysInside_unaligned :
    0x80000001 ≤ 0x80003fff ∧ 0x80000001 + pageSize < wordLimit ∧ HasBoundary 0x80000001 0x80003fff ∧
      ∃ m₁ m, initFrames 0x80000001 0x80003fff (.ofPages 0 0) = .ok () m₁ ∧ Allocation m₁ m [0x80001, 0x80002] ∧
        StaysInside 0x80000001 0x80003fff m [0x80001, 0x80002] := by
  have hboundary : HasBoundary 0x80000001 0x80003fff := ⟨0x80001, by decide⟩
  obtain ⟨m₁, hinit, hinside, -⟩ := initFrames_staysInside (show 0x80000001 ≤ 0x80003fff by decide)
    (show 0x80000001 + pageSize < wordLimit by decide) (.ofPages 0 0)
  obtain rfl : m₁ = .ofPages 0x80001 0x80003 := by cases hinit; rfl
  have hfirst : Allocation (.ofPages 0x80001 0x80003) _ [0x80001] := .take (r := some 0x80001) .start rfl
  have hboth : Allocation (.ofPages 0x80001 0x80003) _ [0x80002, 0x80001] := hfirst.take (r := some 0x80002) rfl
  have hagain : Allocation (.ofPages 0x80001 0x80003) _ [0x80001, 0x80002] :=
    (hboth.drop (p := 0x80001) (by decide) rfl).take (r := some 0x80001) rfl
  exact ⟨by decide, by decide, hboundary, _, _, hinit, hagain, hinside hboundary _ _ hagain⟩

/-- A range within one page that touches neither of its ends: the page that follows is handed out, and the count of the free
frames stops the kernel. -/
theorem takeFrame_beyond : ∃ m₁ m, initFrames 0x80000001 0x80000fff (.ofPages 0 0) = .ok () m₁ ∧
    Allocation m₁ m [0x80001] ∧ ¬IsWhole 0x80000001 0x80000fff 0x80001 ∧ available m = .error .subOverflow m :=
  ⟨.ofPages 0x80001 0x80000, _, rfl, .take (r := some 0x80001) .start rfl, by decide, rfl⟩

end PhysicalMemory

end TrapKernel
