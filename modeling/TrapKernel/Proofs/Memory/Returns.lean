import TrapKernel.Memory.FrameAllocator
import Mathlib.Data.Set.Card
import Mathlib.Order.Interval.Finset.Nat

/-!
# Which pages the allocator takes back

A page is out when it was handed out and has not been taken back since. In whatever order pages are asked for and given back,
and whatever pages they are, of those that are not below its range the allocator takes back the ones that are out. A page
below the range was not handed out at first, and is taken back all the same unless the allocator has it already: from then on
it is handed out, and counted as free, like one of the range. As long as no page below the range is taken back, the pages
that are handed out are those of the range, and no more than these are free.

* `FrameAllocator.Since`: which of two events was the last.
* `FrameAllocator.History`: the allocators that come about.
* `FrameAllocator.History.recognises`: the pages that they take back, those that they hand out, and how many are free.
-/

namespace TrapKernel.FrameAllocator

variable {a a' : FrameAllocator} {first limit p : Nat}

/-- What an allocator can be asked for. -/
inductive Request where
  | take
  | giveBack (p : Nat)

/-- What comes of a request. -/
inductive Event where
  | handedOut (p : Nat)
  | exhausted
  | takenBack (p : Nat)
  | refused (p : Nat)
  deriving DecidableEq

/-- Does what is asked for, and tells what came of it. To refuse a page changes nothing. -/
def serve (a : FrameAllocator) : Request → FrameAllocator × Event
  | .take =>
    match a.alloc with
    | some (p, a') => (a', .handedOut p)
    | none => (a, .exhausted)
  | .giveBack p =>
    match a.dealloc p with
    | .ok a' => (a', .takenBack p)
    | .error _ => (a, .refused p)

/-- The allocators that come about from a given one, with the events on the way there, the latest first. -/
inductive History (a₀ : FrameAllocator) : FrameAllocator → List Event → Prop
  | start : History a₀ a₀ []
  | serve {a : FrameAllocator} {events : List Event} (h : History a₀ a events) (r : Request) :
      History a₀ (a.serve r).1 ((a.serve r).2 :: events)

/-! ### Events -/

section Events

variable {x y e : Event} {events : List Event}

/-- Whether `x` has happened and `y` has not happened since. -/
def Since (x y : Event) (events : List Event) : Prop :=
  ∃ later earlier, events = later ++ x :: earlier ∧ y ∉ later

private theorem not_since_nil : ¬Since x y [] := by
  rintro ⟨later, earlier, heq, -⟩
  exact List.append_ne_nil_of_right_ne_nil later (List.cons_ne_nil x earlier) heq.symm

private theorem since_cons : Since x y (e :: events) ↔ e = x ∨ e ≠ y ∧ Since x y events := by
  constructor
  · rintro ⟨later, earlier, heq, hy⟩
    cases later with
    | nil =>
      rw [List.nil_append] at heq
      exact .inl (List.cons.inj heq).1
    | cons e' later =>
      rw [List.cons_append] at heq
      obtain ⟨rfl, hrest⟩ := List.cons.inj heq
      obtain ⟨hne, hlater⟩ := not_or.mp (List.mem_cons.not.mp hy)
      exact .inr ⟨Ne.symm hne, later, earlier, hrest, hlater⟩
  · rintro (rfl | ⟨hne, later, earlier, rfl, hy⟩)
    · exact ⟨[], events, rfl, List.not_mem_nil⟩
    · refine ⟨e :: later, earlier, rfl, ?_⟩
      rw [List.mem_cons, not_or]
      exact ⟨Ne.symm hne, hy⟩

private theorem Since.mem (h : Since x y events) : x ∈ events := by
  obtain ⟨later, earlier, rfl, -⟩ := h
  exact List.mem_append_right later List.mem_cons_self

/-- Only one of two events was the last. -/
private theorem Since.not_since (hne : x ≠ y) (h : Since x y events) : ¬Since y x events := by
  induction events with
  | nil => exact absurd h not_since_nil
  | cons e events ih =>
    rw [since_cons] at h ⊢
    rintro (rfl | ⟨hx, hy⟩)
    · rcases h with heq | ⟨hy, -⟩
      · exact hne heq.symm
      · exact hy rfl
    · rcases h with heq | ⟨-, h⟩
      · exact hx heq
      · exact ih h hy

/-- Whether a page was handed out and has not been taken back since. -/
def IsOut (events : List Event) (p : Nat) : Prop := Since (.handedOut p) (.takenBack p) events

/-- Whether a page was taken back and has not been handed out since. -/
def IsBack (events : List Event) (p : Nat) : Prop := Since (.takenBack p) (.handedOut p) events

@[simp] theorem isOut_handedOut {q : Nat} : IsOut (.handedOut q :: events) p ↔ q = p ∨ IsOut events p := by
  simp [IsOut, since_cons]

@[simp] theorem isOut_takenBack {q : Nat} : IsOut (.takenBack q :: events) p ↔ q ≠ p ∧ IsOut events p := by
  simp [IsOut, since_cons]

@[simp] theorem isBack_handedOut {q : Nat} : IsBack (.handedOut q :: events) p ↔ q ≠ p ∧ IsBack events p := by
  simp [IsBack, since_cons]

@[simp] theorem isBack_takenBack {q : Nat} : IsBack (.takenBack q :: events) p ↔ q = p ∨ IsBack events p := by
  simp [IsBack, since_cons]

private theorem IsBack.not_isOut (h : IsBack events p) : ¬IsOut events p := h.not_since (by simp)

end Events

/-! ### One request -/

private theorem exists_dealloc_eq_ok : (∃ a', a.dealloc p = .ok a') ↔ p < a.next ∧ p ∉ a.recycled := by
  simp only [dealloc_eq_ok, exists_and_left, exists_eq, and_true]

private theorem serve_take_of_some (h : a.alloc = some (p, a')) : a.serve .take = (a', .handedOut p) := by
  simp only [serve, h]

private theorem serve_take_of_none (h : a.alloc = none) : a.serve .take = (a, .exhausted) := by
  simp only [serve, h]

private theorem serve_giveBack_of_ok (h : a.dealloc p = .ok a') : a.serve (.giveBack p) = (a', .takenBack p) := by
  simp only [serve, h]

private theorem serve_giveBack_of_error {e : Panic} (h : a.dealloc p = .error e) :
    a.serve (.giveBack p) = (a, .refused p) := by
  simp only [serve, h]

/-! ### Any number of requests -/

/-- Whether the pages that an allocator of the pages from `first` up to `limit` has handed out and taken back are those of
some events. -/
structure Tracks (a : FrameAllocator) (first limit : Nat) (events : List Event) : Prop where
  limit_eq : a.limit = limit
  first_le : first ≤ a.next
  next_le : a.next ≤ limit
  nodup : a.recycled.Nodup
  mem_recycled : ∀ p, p ∈ a.recycled ↔ IsBack events p
  /-- The pages below `first` are left out: they were below `next` from the start, without being handed out. -/
  lt_next : ∀ p, first ≤ p → (p < a.next ↔ IsOut events p ∨ IsBack events p)

variable {events : List Event}

namespace Tracks

private theorem ofPages (h : first ≤ limit) : (ofPages first limit).Tracks first limit [] where
  limit_eq := rfl
  first_le := le_rfl
  next_le := h
  nodup := .nil
  mem_recycled p := by simp [FrameAllocator.ofPages, IsBack, not_since_nil]
  lt_next p hp := by simp [FrameAllocator.ofPages, IsBack, IsOut, not_since_nil, hp]

/-- An event that is about no page. -/
private theorem pass (h : a.Tracks first limit events) {e : Event} (hout : ∀ p, e ≠ .handedOut p)
    (hback : ∀ p, e ≠ .takenBack p) : a.Tracks first limit (e :: events) :=
  { h with
    mem_recycled := fun p => by simp [IsBack, since_cons, hout, hback, h.mem_recycled p]
    lt_next := fun p hp => by simp [IsBack, IsOut, since_cons, hout, hback, h.lt_next p hp] }

/-- The page that was taken back last is handed out. -/
private theorem handOutAgain (h : a.Tracks first limit events) {rest : List Nat} (hrecycled : a.recycled = p :: rest) :
    { a with recycled := rest }.Tracks first limit (.handedOut p :: events) := by
  have hnodup := h.nodup
  rw [hrecycled, List.nodup_cons] at hnodup
  have hback : ∀ q, IsBack events q ↔ q = p ∨ q ∈ rest := by
    intro q
    rw [← h.mem_recycled, hrecycled, List.mem_cons]
  refine ⟨h.limit_eq, h.first_le, h.next_le, hnodup.2, fun q => ?recycled, fun q hq => ?next⟩
  case recycled =>
    rw [isBack_handedOut, hback]
    by_cases hqp : q = p
    · subst hqp
      simp [hnodup.1]
    · simp [hqp, Ne.symm hqp]
  case next =>
    rw [isOut_handedOut, isBack_handedOut]
    by_cases hqp : p = q
    · subst hqp
      have hlt := (h.lt_next p hq).mpr (.inr ((hback p).mpr (.inl rfl)))
      simp [hlt]
    · simpa [hqp] using h.lt_next q hq

/-- A page is handed out for the first time. -/
private theorem handOutNew (h : a.Tracks first limit events) (hne : a.next ≠ a.limit) :
    { a with next := a.next + 1 }.Tracks first limit (.handedOut a.next :: events) := by
  have hlimit := h.limit_eq
  have hfirst := h.first_le
  have hnext := h.next_le
  have hnew : ∀ q, IsBack events q → a.next ≠ q := by
    rintro q hq rfl
    have hlt := (h.lt_next a.next hfirst).mpr (.inr hq)
    omega
  refine ⟨hlimit, Nat.le_succ_of_le hfirst, by show a.next + 1 ≤ limit; omega, h.nodup, fun q => ?recycled,
    fun q hq => ?next⟩
  case recycled =>
    rw [isBack_handedOut, h.mem_recycled]
    exact ⟨fun hq => ⟨hnew q hq, hq⟩, And.right⟩
  case next =>
    rw [isOut_handedOut, isBack_handedOut]
    show q < a.next + 1 ↔ _
    by_cases hqn : a.next = q
    · subst hqn
      simp
    · have hlt := h.lt_next q hq
      simp only [hqn, false_or, ne_eq, not_false_eq_true, true_and]
      rw [← hlt]
      omega

/-- A page is taken back. -/
private theorem takeBack (h : a.Tracks first limit events) (hlt : p < a.next) (hnew : p ∉ a.recycled) :
    { a with recycled := p :: a.recycled }.Tracks first limit (.takenBack p :: events) := by
  refine ⟨h.limit_eq, h.first_le, h.next_le, List.nodup_cons.mpr ⟨hnew, h.nodup⟩, fun q => ?recycled, fun q hq => ?next⟩
  case recycled => rw [isBack_takenBack, List.mem_cons, h.mem_recycled, eq_comm]
  case next =>
    rw [isOut_takenBack, isBack_takenBack]
    by_cases hqp : p = q
    · subst hqp
      simpa using hlt
    · simpa [hqp] using h.lt_next q hq

/-- What an allocator does for a request is what the event tells. -/
private theorem serve (h : a.Tracks first limit events) (r : Request) :
    (a.serve r).1.Tracks first limit ((a.serve r).2 :: events) := by
  cases r with
  | take =>
    cases halloc : a.alloc with
    | none =>
      rw [serve_take_of_none halloc]
      exact h.pass (by simp) (by simp)
    | some x =>
      obtain ⟨p, a'⟩ := x
      rw [serve_take_of_some halloc]
      obtain ⟨rest, hrecycled, rfl⟩ | ⟨-, rfl, hne, rfl⟩ := alloc_eq_some halloc
      · exact h.handOutAgain hrecycled
      · exact h.handOutNew hne
  | giveBack p =>
    cases hdealloc : a.dealloc p with
    | error e =>
      rw [serve_giveBack_of_error hdealloc]
      exact h.pass (by simp) (by simp)
    | ok a' =>
      rw [serve_giveBack_of_ok hdealloc]
      obtain ⟨⟨hlt, hnew⟩, rfl⟩ := dealloc_eq_ok.mp hdealloc
      exact h.takeBack hlt hnew

end Tracks

private theorem History.tracks (h : History (ofPages first limit) a events) (hle : first ≤ limit) :
    a.Tracks first limit events := by
  induction h with
  | start => exact .ofPages hle
  | serve _ r ih => exact ih.serve r

/-- How an allocator of the pages from `first` up to `limit` goes on after some events. -/
structure Recognises (a : FrameAllocator) (first limit : Nat) (events : List Event) : Prop where
  /-- Of the pages from the first one on, those are taken back that are out. -/
  inside : ∀ p, first ≤ p → ((∃ a', a.dealloc p = .ok a') ↔ IsOut events p)
  /-- Of the pages below the first one, those are taken back that were not or have been handed out since. -/
  below : ∀ p < first, (∃ a', a.dealloc p = .ok a') ↔ ¬IsBack events p
  /-- To give back any other page stops the kernel. -/
  refuses : ∀ p, (¬∃ a', a.dealloc p = .ok a') → a.dealloc p = .error (.frameNotAllocated p)
  /-- A page that is handed out is not out already, and it is one of the range or was taken back. -/
  handsOut : ∀ p a', a.alloc = some (p, a') → ¬IsOut events p ∧ p < limit ∧ (first ≤ p ∨ IsBack events p)
  /-- The pages that are free are those of the range that are not out, and those below it that were taken back. -/
  counts : a.available = .ok
    (limit - first - {p | first ≤ p ∧ IsOut events p}.ncard + {p | p < first ∧ IsBack events p}.ncard)

namespace Tracks

private theorem accepts (h : a.Tracks first limit events) (hp : first ≤ p) :
    (∃ a', a.dealloc p = .ok a') ↔ IsOut events p := by
  rw [exists_dealloc_eq_ok, h.lt_next p hp, h.mem_recycled]
  constructor
  · rintro ⟨hout | hback, hnot⟩
    · exact hout
    · exact absurd hback hnot
  · intro hout
    exact ⟨.inl hout, fun hback => hback.not_isOut hout⟩

private theorem accepts_below (h : a.Tracks first limit events) (hp : p < first) :
    (∃ a', a.dealloc p = .ok a') ↔ ¬IsBack events p := by
  have hlt : p < a.next := Nat.lt_of_lt_of_le hp h.first_le
  rw [exists_dealloc_eq_ok, h.mem_recycled, and_iff_right hlt]

private theorem handsOut (h : a.Tracks first limit events) (halloc : a.alloc = some (p, a')) :
    ¬IsOut events p ∧ p < limit ∧ (first ≤ p ∨ IsBack events p) := by
  have hnext := h.next_le
  have hfirst := h.first_le
  obtain ⟨rest, hrecycled, -⟩ | ⟨-, rfl, hne, -⟩ := alloc_eq_some halloc
  · have hback : IsBack events p := (h.mem_recycled p).mp (by rw [hrecycled]; exact List.mem_cons_self)
    refine ⟨hback.not_isOut, ?_, .inr hback⟩
    rcases Nat.lt_or_ge p first with hp | hp
    · omega
    · have hlt := (h.lt_next p hp).mpr (.inr hback)
      omega
  · have hlimit := h.limit_eq
    refine ⟨fun hout => ?_, by omega, .inl hfirst⟩
    exact absurd ((h.lt_next a.next hfirst).mpr (.inl hout)) (Nat.lt_irrefl a.next)

private theorem ncard_back (h : a.Tracks first limit events) :
    {p | p < first ∧ IsBack events p}.ncard = (a.recycled.toFinset.filter (· < first)).card := by
  have hset : {p | p < first ∧ IsBack events p} = ↑(a.recycled.toFinset.filter (· < first)) := by
    ext p
    simp [← h.mem_recycled, and_comm]
  rw [hset, Set.ncard_coe_finset]

/-- Of the pages that were handed out for the first time, each is out or was given back. -/
private theorem ncard_out (h : a.Tracks first limit events) :
    {p | first ≤ p ∧ IsOut events p}.ncard + (a.recycled.toFinset.filter (¬· < first)).card = a.next - first := by
  have hset : {p | first ≤ p ∧ IsOut events p} = ↑(Finset.Ico first a.next \ a.recycled.toFinset) := by
    ext p
    rw [Set.mem_ofPred_eq, Finset.coe_sdiff, Finset.coe_Ico, Set.mem_sdiff, Set.mem_Ico, and_assoc]
    refine and_congr_right fun hp => ?_
    rw [← h.accepts hp, exists_dealloc_eq_ok, List.coe_toFinset, Set.mem_ofPred_eq]
  have hback : a.recycled.toFinset.filter (¬· < first) = Finset.Ico first a.next ∩ a.recycled.toFinset := by
    ext p
    simp only [Finset.mem_filter, Finset.mem_inter, Finset.mem_Ico, List.mem_toFinset, not_lt]
    constructor
    · rintro ⟨hmem, hp⟩
      exact ⟨⟨hp, (h.lt_next p hp).mpr (.inr ((h.mem_recycled p).mp hmem))⟩, hmem⟩
    · rintro ⟨⟨hp, -⟩, hmem⟩
      exact ⟨hmem, hp⟩
  rw [hset, hback, Set.ncard_coe_finset, Finset.card_sdiff_add_card_inter, Nat.card_Ico]

private theorem counts (h : a.Tracks first limit events) : a.available = .ok
    (limit - first - {p | first ≤ p ∧ IsOut events p}.ncard + {p | p < first ∧ IsBack events p}.ncard) := by
  have hlimit := h.limit_eq
  have hfirst := h.first_le
  have hnext := h.next_le
  have hlength : a.recycled.toFinset.card = a.recycled.length := List.toFinset_card_of_nodup h.nodup
  have hsplit := a.recycled.toFinset.card_filter_add_card_filter_not (· < first)
  have hout := h.ncard_out
  unfold available
  rw [if_pos (by omega), h.ncard_back]
  congr 1
  omega

private theorem toRecognises (h : a.Tracks first limit events) : a.Recognises first limit events where
  inside _ := h.accepts
  below _ := h.accepts_below
  refuses _ hnot := dealloc_eq_error (exists_dealloc_eq_ok.not.mp hnot)
  handsOut _ _ := h.handsOut
  counts := h.counts

end Tracks

/-- However pages are asked for and given back, the pages from the first one on that are taken back are those that are out.
While no page below the first one is taken back, the allocator keeps to its range. -/
theorem History.recognises (h : History (ofPages first limit) a events) (hle : first ≤ limit) :
    a.Recognises first limit events ∧
      ((∀ p < first, .takenBack p ∉ events) →
        (∀ p a', a.alloc = some (p, a') → first ≤ p ∧ p < limit) ∧ ∃ n, a.available = .ok n ∧ n ≤ limit - first) := by
  have hrec := (h.tracks hle).toRecognises
  refine ⟨hrec, fun hnone => ?_⟩
  have hback : ∀ p < first, ¬IsBack events p := fun p hp hback => hnone p hp hback.mem
  refine ⟨fun p a' halloc => ?_, _, hrec.counts, ?_⟩
  · obtain ⟨-, hlt, hfirst | hp⟩ := hrec.handsOut p a' halloc
    · exact ⟨hfirst, hlt⟩
    · exact ⟨not_lt.mp fun hlow => hback p hlow hp, hlt⟩
  · have hempty : {p | p < first ∧ IsBack events p} = ∅ :=
      Set.eq_empty_of_forall_notMem fun p hp => hback p hp.1 hp.2
    rw [hempty, Set.ncard_empty]
    omega

/-- Of two pages, both of them handed out, one is taken back, and one above the range is refused. -/
theorem recognises_twoPages :
    10 ≤ 12 ∧ History (ofPages 10 12) ⟨12, 12, [10]⟩ [.takenBack 10, .refused 15, .handedOut 11, .handedOut 10] ∧
      (∀ p < 10, Event.takenBack p ∉ [.takenBack 10, .refused 15, .handedOut 11, .handedOut 10]) ∧
      Recognises ⟨12, 12, [10]⟩ 10 12 [.takenBack 10, .refused 15, .handedOut 11, .handedOut 10] ∧
      ∃ n, available ⟨12, 12, [10]⟩ = .ok n ∧ n ≤ 12 - 10 := by
  have h : History (ofPages 10 12) ⟨12, 12, [10]⟩ [.takenBack 10, .refused 15, .handedOut 11, .handedOut 10] :=
    (((History.start.serve .take).serve .take).serve (.giveBack 15)).serve (.giveBack 10)
  have hnone : ∀ p < 10, Event.takenBack p ∉ [.takenBack 10, .refused 15, .handedOut 11, .handedOut 10] := by
    intro p hp hmem
    have heq : p = 10 := by simpa using hmem
    omega
  obtain ⟨hrec, hkeeps⟩ := h.recognises (by decide)
  exact ⟨by decide, h, hnone, hrec, (hkeeps hnone).2⟩

/-- Of a range of one page, nothing of which was handed out, the page before it is given back: it is taken, more pages are
free than the range has, and it is the one that is handed out next. -/
theorem dealloc_pageBefore : ∃ a, (ofPages 0x80001 0x80002).dealloc 0x80000 = .ok a ∧
    History (ofPages 0x80001 0x80002) a [.takenBack 0x80000] ∧ ¬IsOut [] 0x80000 ∧
      a.available = .ok 2 ∧ a.alloc = some (0x80000, ofPages 0x80001 0x80002) :=
  ⟨⟨0x80001, 0x80002, [0x80000]⟩, rfl, History.start.serve (.giveBack 0x80000), not_since_nil, rfl, rfl⟩

end TrapKernel.FrameAllocator
