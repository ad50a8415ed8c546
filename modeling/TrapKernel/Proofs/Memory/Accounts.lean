import TrapKernel.Memory.Entry
import TrapKernel.Memory.Physical
import TrapKernel.Proofs.Run
import Mathlib.Tactic.Common

/-!
# The books of physical memory

Every frame that was ever handed out is free again, in use outside of the system, owned by one owner, or a data frame
with holders. `PhysicalMemory.Accounts` says so of three lists: those of the frames that are used outside, `owned` those
with an owner, and `held` has a frame once for each of its holders.

* `PhysicalMemory.takeFrame_accounts`, `PhysicalMemory.giveFrame_accounts`, `PhysicalMemory.letGo_accounts`: taking a
  frame, giving it back and letting go of it succeed and keep the books.
-/

namespace TrapKernel

/-- Whether the kernel stops because a frame is given back that is not handed out. -/
@[simp] def Panic.IsDoubleReturn (p : Panic) : Prop := ∃ frame, p = .frameNotAllocated frame

/-- What is outside of the system: the frames that are in use there, and where the memory that is handed out ends. -/
structure Surroundings where
  frames : List Nat
  limit : Nat

namespace PhysicalMemory

/-- Whether the frames in use are those of the three lists, each in one of them only, and the number of holders of a
frame is the number of times that it is held. -/
structure Accounts (m : PhysicalMemory) (foreign : Surroundings) (owned held : List Nat) : Prop where
  next_le : m.allocator.next ≤ m.allocator.limit
  limit_eq : m.allocator.limit = foreign.limit
  limit_le : m.allocator.limit ≤ Entry.frameLimit
  once : ∀ p, m.allocator.recycled.count p + foreign.frames.count p + owned.count p + min 1 (held.count p) =
    if p < m.allocator.next then 1 else 0
  holders : ∀ p, p ∉ foreign.frames → m.holderCount p = held.count p

variable {m m' : PhysicalMemory} {foreign : Surroundings} {owned held : List Nat} {p q : Nat}

theorem frame_congr (h : m'.contents = m.contents) (p : Nat) : m'.frame p = m.frame p := by
  rw [frame, frame, h]

@[simp] theorem allocator_setFrame (m : PhysicalMemory) (p : Nat) (f : Frame) :
    (m.setFrame p f).allocator = m.allocator := rfl

@[simp] theorem allocator_setHolderCount (m : PhysicalMemory) (p n : Nat) :
    (m.setHolderCount p n).allocator = m.allocator := rfl

theorem holderCount_congr (h : m'.holders = m.holders) (p : Nat) : m'.holderCount p = m.holderCount p := by
  rw [holderCount, holderCount, h]

namespace Accounts

theorem perm {owned' held' : List Nat} (h : m.Accounts foreign owned held) (ho : owned.Perm owned')
    (hh : held.Perm held') : m.Accounts foreign owned' held' where
  next_le := h.next_le
  limit_eq := h.limit_eq
  limit_le := h.limit_le
  once p := by rw [← ho.count_eq, ← hh.count_eq]; exact h.once p
  holders p hp := by rw [← hh.count_eq]; exact h.holders p hp

/-- What the frames hold does not matter to the books. -/
theorem congr (h : m.Accounts foreign owned held) (ha : m'.allocator = m.allocator) (hh : m'.holders = m.holders) :
    m'.Accounts foreign owned held where
  next_le := ha ▸ h.next_le
  limit_eq := ha ▸ h.limit_eq
  limit_le := ha ▸ h.limit_le
  once p := ha ▸ h.once p
  holders p hp := by rw [holderCount_congr hh]; exact h.holders p hp

theorem setFrame (h : m.Accounts foreign owned held) (p : Nat) (f : Frame) :
    (m.setFrame p f).Accounts foreign owned held :=
  h.congr rfl rfl

private theorem count_pos (h : m.Accounts foreign owned held)
    (hp : 0 < m.allocator.recycled.count p + foreign.frames.count p + owned.count p + min 1 (held.count p)) :
    p < m.allocator.next := by
  rw [h.once] at hp
  by_contra hge
  simp [hge] at hp

theorem lt_limit (h : m.Accounts foreign owned held) (hp : p ∈ owned ∨ p ∈ held) : p < foreign.limit := by
  have hpos : 0 < owned.count p ∨ 0 < held.count p := hp.imp List.count_pos_iff.mpr List.count_pos_iff.mpr
  have hlt : p < m.allocator.next := h.count_pos (by omega)
  have hnext := h.next_le
  have hlimit := h.limit_eq
  omega

theorem lt_frameLimit (h : m.Accounts foreign owned held) (hp : p ∈ owned ∨ p ∈ held) : p < Entry.frameLimit :=
  Nat.lt_of_lt_of_le (h.lt_limit hp) (h.limit_eq ▸ h.limit_le)

/-- A frame with an owner is in none of the other lists, and no second time in its own. -/
theorem of_owned (h : m.Accounts foreign (p :: owned) held) : p ∉ foreign.frames ∧ p ∉ owned ∧ p ∉ held := by
  have honce := h.once p
  have hself : (p :: owned).count p = owned.count p + 1 := List.count_cons_self
  rw [hself] at honce
  have hle : (if p < m.allocator.next then 1 else 0) ≤ 1 := by split <;> omega
  exact ⟨List.count_eq_zero.mp (by omega), List.count_eq_zero.mp (by omega), List.count_eq_zero.mp (by omega)⟩

/-- The nodes of a table are neither owned by others nor held. -/
theorem not_mem_left {nodes : List Nat} (h : m.Accounts foreign (nodes ++ owned) held) (hp : p ∈ owned ∨ p ∈ held) :
    p ∉ nodes := by
  have honce := h.once p
  have hle : (if p < m.allocator.next then 1 else 0) ≤ 1 := by split <;> omega
  have hpos : 0 < owned.count p ∨ 0 < held.count p := hp.imp List.count_pos_iff.mpr List.count_pos_iff.mpr
  rw [List.count_append] at honce
  exact List.count_eq_zero.mp (by omega)

theorem not_owned_of_held (h : m.Accounts foreign owned held) (hp : p ∈ held) : p ∉ foreign.frames ∧ p ∉ owned := by
  have honce := h.once p
  have hpos := List.count_pos_iff.mpr hp
  have hle : (if p < m.allocator.next then 1 else 0) ≤ 1 := by split <;> omega
  exact ⟨List.count_eq_zero.mp (by omega), List.count_eq_zero.mp (by omega)⟩

theorem holderCount_eq (h : m.Accounts foreign owned held) (hp : p ∈ held) : m.holderCount p = held.count p :=
  h.holders p (h.not_owned_of_held hp).1

/-- No frame has two owners. -/
theorem nodup_owned (h : m.Accounts foreign owned held) : owned.Nodup := by
  refine List.nodup_iff_count.mpr fun p => ?_
  have honce := h.once p
  have hle : (if p < m.allocator.next then 1 else 0) ≤ 1 := by split <;> omega
  omega

/-- A frame that has a single holder still has it when others have let go of theirs. -/
theorem holderCount_eq_one {owned' held' : List Nat} (h : m.Accounts foreign owned held)
    (h' : m'.Accounts foreign owned' held') (hcount : held'.count p ≤ held.count p) (hp : p ∈ held')
    (hone : m.holderCount p = 1) : m'.holderCount p = 1 := by
  have hpos := List.count_pos_iff.mpr hp
  have hmem : p ∈ held := List.count_pos_iff.mp (by omega)
  rw [h.holderCount_eq hmem] at hone
  rw [h'.holderCount_eq hp]
  omega

/-! ### Holders -/

private theorem count_cons_of_ne (h : q ≠ p) (l : List Nat) : (p :: l).count q = l.count q :=
  List.count_cons_of_ne (Ne.symm h)

/-- A frame is held once more. Before that it had either an owner, who gives it up, or a holder already. -/
private theorem hold_of_count {owned' : List Nat} (h : m.Accounts foreign owned held)
    (hothers : ∀ q, q ≠ p → owned.count q = owned'.count q)
    (hone : owned.count p + min 1 (held.count p) = owned'.count p + 1) :
    (m.setHolderCount p (m.holderCount p + 1)).Accounts foreign owned' (p :: held) where
  next_le := h.next_le
  limit_eq := h.limit_eq
  limit_le := h.limit_le
  once q := by
    have honce := h.once q
    rw [allocator_setHolderCount]
    by_cases hq : q = p
    · subst hq
      rw [List.count_cons_self]
      omega
    · rw [count_cons_of_ne hq, ← hothers q hq]
      exact honce
  holders q hq := by
    rw [holderCount_setHolderCount, h.holders q hq]
    by_cases hpq : p = q
    · subst hpq
      rw [if_pos rfl, h.holders p hq, List.count_cons_self]
    · rw [if_neg hpq, count_cons_of_ne (Ne.symm hpq)]

/-- The owner of a frame becomes its first holder. -/
theorem hold_owned (h : m.Accounts foreign (p :: owned) held) :
    (m.setHolderCount p (m.holderCount p + 1)).Accounts foreign owned (p :: held) := by
  have hzero := List.count_eq_zero.mpr h.of_owned.2.2
  refine h.hold_of_count (fun q hq => count_cons_of_ne hq owned) ?_
  rw [List.count_cons_self, hzero]
  rfl

/-- A frame with holders gets another one. -/
theorem hold_held (h : m.Accounts foreign owned held) (hp : p ∈ held) :
    (m.setHolderCount p (m.holderCount p + 1)).Accounts foreign owned (p :: held) := by
  have hpos := List.count_pos_iff.mpr hp
  exact h.hold_of_count (fun _ _ => rfl) (by omega)

end Accounts

/-! ### Taking and giving back -/

/-- If there is a free frame, it is taken and filled with zeros. -/
theorem takeFrame_accounts (h : m.Accounts foreign owned held) :
    takeFrame.Ensures m
      (fun r m' => match r with
        | none => m' = m ∧ m.allocator.alloc = none
        | some p => m'.Accounts foreign (p :: owned) held ∧ (∀ q, m'.frame q = if p = q then .zero else m.frame q) ∧
            m'.holders = m.holders)
      fun _ _ => False := by
  unfold takeFrame
  simp only [Run.ensures_bind, Run.ensures_get]
  cases halloc : m.allocator.alloc with
  | none => exact ⟨rfl, rfl⟩
  | some x =>
    obtain ⟨p, allocator⟩ := x
    simp only [Run.ensures_bind, Run.ensures_set, Run.ensures_pure]
    have htaken : ({ m with allocator } : PhysicalMemory).Accounts foreign (p :: owned) held := by
      obtain ⟨rest, hrecycled, rfl⟩ | ⟨-, rfl, hlimit, rfl⟩ := FrameAllocator.alloc_eq_some halloc
      · refine ⟨h.next_le, h.limit_eq, h.limit_le, fun q => ?_, h.holders⟩
        have honce := h.once q
        rw [hrecycled] at honce
        simp only [List.count_cons] at honce ⊢
        omega
      · have hnext := h.next_le
        refine ⟨?_, h.limit_eq, h.limit_le, fun q => ?_, h.holders⟩
        · show m.allocator.next + 1 ≤ m.allocator.limit
          omega
        · have honce := h.once q
          simp only [List.count_cons, beq_iff_eq] at honce ⊢
          split_ifs at honce ⊢ <;> omega
    exact ⟨htaken.setFrame p .zero, fun q => frame_setFrame _ _ _ _, rfl⟩

/-- A frame with an owner can be given back, and is then the first to be taken again. -/
private theorem giveFrame_eq (h : m.Accounts foreign (p :: owned) held) :
    giveFrame p m =
      .ok () { m with allocator := { m.allocator with recycled := p :: m.allocator.recycled } } := by
  have honce := h.once p
  rw [List.count_cons_self] at honce
  have hlt : p < m.allocator.next := by
    by_contra hge
    simp only [hge, if_false] at honce
    omega
  rw [if_pos hlt] at honce
  have hnew : p ∉ m.allocator.recycled := List.count_eq_zero.mp (by omega)
  have hdealloc := FrameAllocator.dealloc_eq_ok.mpr ⟨⟨hlt, hnew⟩, rfl⟩
  refine Run.Ensures.eq_ok ?_
  unfold giveFrame
  simp only [Run.ensures_bind, Run.ensures_get, hdealloc, Run.ofExcept, Run.ensures_pure, Run.ensures_set, and_self]

theorem giveFrame_accounts (h : m.Accounts foreign (p :: owned) held) :
    (giveFrame p).Ensures m
      (fun _ m' => m'.Accounts foreign owned held ∧ m'.contents = m.contents ∧ m'.holders = m.holders)
      fun _ _ => False := by
  refine Run.ensures_of_eq_ok (giveFrame_eq h) ⟨⟨h.next_le, h.limit_eq, h.limit_le, fun q => ?_, h.holders⟩, rfl, rfl⟩
  have honce := h.once q
  simp only [List.count_cons] at honce ⊢
  omega

theorem giveFrames_accounts {l : List Nat} (h : m.Accounts foreign (l ++ owned) held) :
    (giveFrames l).Ensures m
      (fun _ m' => m'.Accounts foreign owned held ∧ m'.contents = m.contents ∧ m'.holders = m.holders)
      fun _ _ => False := by
  induction l generalizing m with
  | nil => exact ⟨h, rfl, rfl⟩
  | cons p rest ih =>
    unfold giveFrames
    rw [Run.ensures_bind]
    refine (giveFrame_accounts h).mono ?_
    rintro _ m₁ ⟨h₁, hc₁, hh₁⟩
    refine (ih h₁).mono ?_
    rintro _ m₂ ⟨h₂, hc₂, hh₂⟩
    exact ⟨h₂, hc₂.trans hc₁, hh₂.trans hh₁⟩

/-- Frames with an owner that are given back one after the other are taken again the last one first. -/
theorem giveFrames_eq {l : List Nat} (h : m.Accounts foreign (l ++ owned) held) :
    giveFrames l m =
      .ok () { m with allocator := { m.allocator with recycled := l.reverse ++ m.allocator.recycled } } := by
  induction l generalizing m with
  | nil => rfl
  | cons p rest ih =>
    refine Run.Ensures.eq_ok ?_
    unfold giveFrames
    rw [Run.ensures_bind]
    have hrest := (giveFrame_accounts h).of_ok (giveFrame_eq h)
    refine Run.ensures_of_eq_ok (giveFrame_eq h) (Run.ensures_of_eq_ok (ih hrest.1) ⟨rfl, ?_⟩)
    simp only [List.reverse_cons, List.append_assoc, List.cons_append, List.nil_append]

/-- Any holder of a frame can let go of it. -/
theorem letGo_accounts (h : m.Accounts foreign owned (p :: held)) :
    (letGo p).Ensures m (fun _ m' => m'.Accounts foreign owned held ∧ m'.contents = m.contents) fun _ _ => False := by
  have hcount : m.holderCount p = held.count p + 1 := by
    rw [h.holderCount_eq List.mem_cons_self, List.count_cons_self]
  have hholders : ∀ q, q ∉ foreign.frames → (m.setHolderCount p (m.holderCount p - 1)).holderCount q = held.count q := by
    intro q hq
    rw [holderCount_setHolderCount]
    by_cases hpq : p = q
    · subst hpq
      rw [if_pos rfl, hcount, Nat.add_sub_cancel]
    · rw [if_neg hpq, h.holders q hq, List.count_cons_of_ne hpq]
  unfold letGo
  simp only [Run.ensures_bind, Run.ensures_get, Run.ensures_set]
  by_cases hlast : m.holderCount p ≤ 1
  · rw [if_pos hlast]
    -- nobody holds the frame any longer, so that for a moment it is as good as owned
    have hfree : held.count p = 0 := by omega
    have howned : (m.setHolderCount p (m.holderCount p - 1)).Accounts foreign (p :: owned) held := by
      refine ⟨h.next_le, h.limit_eq, h.limit_le, fun q => ?_, hholders⟩
      have honce := h.once q
      rw [allocator_setHolderCount]
      by_cases hq : q = p
      · subst hq
        rw [List.count_cons_self] at honce ⊢
        omega
      · rw [List.count_cons_of_ne (Ne.symm hq)] at honce ⊢
        exact honce
    refine (giveFrame_accounts howned).mono ?_
    rintro _ m' ⟨h', hc', _⟩
    exact ⟨h', hc'⟩
  · rw [if_neg hlast]
    refine ⟨⟨h.next_le, h.limit_eq, h.limit_le, fun q => ?_, hholders⟩, rfl⟩
    have honce := h.once q
    rw [allocator_setHolderCount]
    by_cases hq : q = p
    · subst hq
      rw [List.count_cons_self] at honce
      omega
    · rwa [List.count_cons_of_ne (Ne.symm hq)] at honce

/-! ### Memory at the start -/

/-- Whether all frames that were handed out are free again or in use outside of the system. -/
def Consistent (m : PhysicalMemory) : Prop := ∃ foreign, m.Accounts foreign [] []

/-- Of memory that has not handed out anything the frames below its start are those used outside, whatever it holds. -/
theorem accounts_ofPages {start limit : Nat} (hle : start ≤ limit) (hlimit : limit ≤ Entry.frameLimit)
    (contents : Std.TreeMap Nat Frame) :
    Accounts ⟨.ofPages start limit, contents, ∅⟩ ⟨List.range start, limit⟩ [] [] := by
  refine ⟨hle, rfl, hlimit, fun p => ?_, fun p _ => Std.TreeMap.getD_emptyc⟩
  simp only [FrameAllocator.ofPages, List.count_nil, List.nodup_range.count, List.mem_range]
  show _ = if p < start then 1 else 0
  split <;> rfl

theorem consistent_ofPages {start limit : Nat} (hle : start ≤ limit) (hlimit : limit ≤ Entry.frameLimit)
    (contents : Std.TreeMap Nat Frame) : Consistent ⟨.ofPages start limit, contents, ∅⟩ :=
  ⟨_, accounts_ofPages hle hlimit contents⟩

end PhysicalMemory

end TrapKernel
