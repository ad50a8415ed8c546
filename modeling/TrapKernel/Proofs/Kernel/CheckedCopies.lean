import TrapKernel.Proofs.Kernel.ExactCopies
import TrapKernel.Proofs.Memory.FrameNeeds
import TrapKernel.Proofs.Memory.RangeChecks

/-!
# Copies of checked ranges

The check of a range asks about the same addresses at which a copy of the range asks for pages, and what a copy does to
one page does not matter for the others. So a copy ends as the check of its range has, unless there are not frames
enough. If a range is copied in parts, a later part may start in the middle of a page, but then the part before it has
ended on that page, which is there.

* `Access.Foretold`: whether a copy has ended as the check of its range has.
* `Access.writeUser_foretold`, `Access.readUser_foretold`: in sound memory all copies do so.
* `Access.covers_rest`: what is left of a range passes the check when a part of it has been written.
-/

namespace TrapKernel

open PrivatePages PhysicalMemory

namespace Access

/-- Whether an access to the page of an address can be served. -/
def usable (a : Access) (x : Nat) : Bool := a.user.isUsable a.memory x

/-- Whether a copy of a range has ended as the check of the range has, or else for want of frames, of which three are
enough for every page. -/
def Foretold {α : Type} (a : Access) (address length : Nat) (r : Except Errno α) : Prop :=
  r.map (fun _ => ()) = a.user.checkRange a.memory address length ∨
    r = .error .noMemory ∧ ∃ free, a.memory.allocator.available = .ok free ∧ free < 3 * (pageSpans address length).length

variable {a a' : Access} {foreign : Surroundings} {owned held : List Nat} {address : Nat} {bytes : List UInt8}

private theorem usable_iff {x : Nat} :
    a.usable x = true ↔ (∃ e, a.translate (pageOf x) = some e) ∨ a.user.isDemandZero x = true := by
  show ((a.translate (pageOf x)).isSome || a.user.isDemandZero x) = true ↔ _
  rw [Bool.or_eq_true, Option.isSome_iff_exists]

private theorem usable_eq (h : a.Sound foreign owned held) {x : Nat} (hx : pageOf x < pageLimit) :
    a.usable x = ((a.heldPages (pageOf x)).isSome || a.user.isDemandZero x) :=
  (UserMemory.isUsable_privately h hx []).symm

/-! ### Pages -/

/-- What is known when the page of an address has been asked for: whether it was usable, how many frames that has taken,
and that nothing has happened to the other pages. -/
structure Fetched {α : Type} (a : Access) (address : Nat) (r : Except Errno α) (a' : Access) : Prop where
  done : ∀ x, r = .ok x → a.usable address = true ∧ a.memory.freeCount ≤ a'.memory.freeCount + 3
  failed : ∀ e, r = .error e → e = .noMemory ∧ a.memory.freeCount < 3 ∨ e = .badAddress ∧ a.usable address = false
  heapStart : a'.user.heapStart = a.user.heapStart
  brk : a'.user.brk = a.user.brk
  others : ∀ page, page ≠ pageOf address → a'.heldPages page = a.heldPages page

/-- A fault that is not needed. -/
private theorem Fetched.refl {α : Type} {x : α} (h : a.usable address = true) : Fetched a address (.ok x) a where
  done _ _ := ⟨h, Nat.le_add_right _ _⟩
  failed _ he := absurd he (by simp)
  heapStart := rfl
  brk := rfl
  others _ _ := rfl

private theorem Fetched.map {α γ : Type} {r : Except Errno α} (h : Fetched a address r a') (f : α → γ) :
    Fetched a address (r.map f) a' := by
  refine ⟨fun x hx => ?_, fun e he => ?_, h.heapStart, h.brk, h.others⟩
  · cases r with
    | error e => exact absurd hx (by simp [Except.map])
    | ok x' => exact h.done x' rfl
  · cases r with
    | error e' => exact h.failed e (by rw [← Except.error.inj he])
    | ok x => exact absurd he (by simp [Except.map])

private theorem handleFault_fetched (h : a.Sound foreign owned held) (hlt : pageOf address < pageLimit) (write : Bool) :
    (handleFault address write).Ensures a (fun r a' => Fetched a address r a') fun _ _ => False := by
  have hspec := (handleFault_spec h address write fun _ : True => plain_of_lt hlt).mono
    fun r a' hr => (⟨hr.1, fun hk => (hr.2.2 hk).2⟩ : _ ∧ _)
  have hprivate := ensures_of_follows hspec fun b =>
    ((PrivateMemory.handleFault_spec b address write).and (PrivateMemory.handleFault_wrote b address write address)).imp
      (fun _ _ hr => hr) fun _ _ hfalse => hfalse.1.elim
  have hneeded := a.framesNeeded_le address write
  refine (hprivate.and (handleFault_freeCount h hlt write)).imp ?_ fun _ _ hstop => hstop.1
  rintro r a' ⟨⟨answers, ⟨hgrows, -, -⟩, hwrote⟩, hcount⟩
  refine ⟨?_, ?_, hwrote.heapStart, hwrote.brk, hgrows.same⟩
  · rintro ⟨⟩ rfl
    obtain ⟨hcount, hzero⟩ := hcount
    refine ⟨usable_iff.mpr ?_, by omega⟩
    cases he : a.translate (pageOf address) with
    | some e => exact .inl ⟨e, rfl⟩
    | none => exact .inr (hzero he)
  · rintro e rfl
    rcases hcount with ⟨rfl, hfew, -⟩ | ⟨rfl, -, hnone, hnot⟩
    · exact .inl ⟨rfl, Nat.lt_of_lt_of_le hfew hneeded⟩
    · refine .inr ⟨rfl, Bool.eq_false_iff.mpr fun husable => ?_⟩
      rcases usable_iff.mp husable with ⟨e, he⟩ | hzero
      · exact absurd (hnone.symm.trans he) (by simp)
      · exact absurd (hnot.symm.trans hzero) (by simp)

private theorem frameOf_fetched (h : a.Sound foreign owned held) (hlt : pageOf address < pageLimit) (write : Bool) :
    (frameOf address write).Ensures a (fun r a' => Fetched a address r a') fun _ _ => False := by
  have hafter : (frameAfterFault address write).Ensures a (fun r a' => Fetched a address r a') fun _ _ => False := by
    unfold frameAfterFault
    rw [Attempt.ensures_bind]
    refine ((handleFault_fetched h hlt write).and (handleFault_spec h address write (False.elim : False → _))).imp ?_
      fun _ _ hstop => hstop.1
    rintro r a' ⟨hfetched, -, hentry, -⟩
    cases r with
    | error e => exact hfetched.map fun _ => 0
    | ok =>
      obtain ⟨e, he, -⟩ := hentry rfl
      simp only [Attempt.ensures_bind, Attempt.ensures_get, he, Attempt.ensures_pure]
      exact hfetched.map fun _ => e.frame
  unfold frameOf
  simp only [Attempt.ensures_bind, Attempt.ensures_get]
  cases he : a.translate (pageOf address) with
  | none => exact hafter
  | some e =>
    dsimp only
    split
    · exact .refl (usable_iff.mpr (.inl ⟨e, he⟩))
    · exact hafter

/-- What was usable on another page still is, and nothing else. -/
private theorem usable_congr (h : a.Sound foreign owned held) (h' : a'.Sound foreign owned held)
    (hstart : a'.user.heapStart = a.user.heapStart) (hbrk : a'.user.brk = a.user.brk) {x : Nat}
    (hx : pageOf x < pageLimit) (hpage : a'.heldPages (pageOf x) = a.heldPages (pageOf x)) :
    a'.usable x = a.usable x := by
  rw [usable_eq h hx, usable_eq h' hx, hpage, UserMemory.isDemandZero, hstart, hbrk]
  rfl

/-- A write to the frame behind a page does not matter for other pages. -/
private theorem heldPages_setFrame (h : a.Sound foreign owned held) {page p : Nat} (hp : a.Behind page true p)
    (hlt : page < pageLimit) (f : Frame) {page' : Nat} (hne : page' ≠ page) :
    heldPages { a with memory := a.memory.setFrame p f } page' = a.heldPages page' := by
  have hspace := congrArg (fun b : PrivateAccess => b.user.space page') ((setFrame_spec h hp f).2 hlt [])
  exact hspace.trans (set_of_ne _ hne f)

/-! ### Spans -/

/-- Whether the copy of some spans has succeeded because all of them are usable, or failed for want of frames or because
one of them is not usable. -/
def SpansForetold {α : Type} (a : Access) (l : List Span) : Except Errno α → Prop
  | .ok _ => ∀ s ∈ l, a.usable s.address = true
  | .error e => e = .noMemory ∧ a.memory.freeCount < 3 * l.length ∨
      e = .badAddress ∧ ∃ s ∈ l, a.usable s.address = false

private theorem SpansForetold.of_fetched {α γ : Type} {s : Span} {rest : List Span} {e : Errno}
    (h : Fetched a s.address (.error e : Except Errno γ) a') :
    SpansForetold a (s :: rest) (.error e : Except Errno α) := by
  rcases h.failed e rfl with ⟨rfl, hfew⟩ | ⟨rfl, hnot⟩
  · refine .inl ⟨rfl, ?_⟩
    rw [List.length_cons]
    omega
  · exact .inr ⟨rfl, s, List.mem_cons_self, hnot⟩

/-- The first span has been copied, and then the others were. -/
private theorem SpansForetold.cons {α γ : Type} {s : Span} {rest : List Span} {x : γ} {a₂ : Access} {r : Except Errno α}
    (h : Fetched a s.address (.ok x) a') (hcount : a₂.memory.freeCount = a'.memory.freeCount)
    (hsame : ∀ s' ∈ rest, a₂.usable s'.address = a.usable s'.address) (hrest : SpansForetold a₂ rest r) :
    SpansForetold a (s :: rest) r := by
  obtain ⟨husable, hfree⟩ := h.done x rfl
  cases r with
  | ok => exact List.forall_mem_cons.mpr ⟨husable, fun s' hs' => (hsame s' hs').symm.trans (hrest s' hs')⟩
  | error e =>
    rcases hrest with ⟨rfl, hfew⟩ | ⟨rfl, s', hs', hnot⟩
    · refine .inl ⟨rfl, ?_⟩
      rw [List.length_cons]
      omega
    · exact .inr ⟨rfl, s', List.mem_cons_of_mem _ hs', (hsame s' hs').symm.trans hnot⟩

private theorem writeSpans_foretold (h : a.Sound foreign owned held) {l : List (Span × List UInt8)}
    (hpages : (l.map Prod.fst).Pairwise fun s s' => pageOf s'.address ≠ pageOf s.address)
    (hlt : ∀ s ∈ l.map Prod.fst, pageOf s.address < pageLimit) :
    (writeSpans l).Ensures a (fun r _ => SpansForetold a (l.map Prod.fst) r) fun _ _ => True := by
  induction l generalizing a with
  | nil => exact fun s hs => absurd hs (by simp)
  | cons y rest ih =>
    obtain ⟨s, bytes⟩ := y
    rw [List.map_cons] at hpages hlt ⊢
    obtain ⟨hne, hpages'⟩ := List.pairwise_cons.mp hpages
    obtain ⟨hlt, hlt'⟩ := List.forall_mem_cons.mp hlt
    unfold writeSpans
    rw [Attempt.ensures_bind]
    refine ((frameOf_fetched h hlt true).and (frameOf_spec h s.address true (False.elim : False → _))).imp ?_
      fun _ _ _ => trivial
    rintro r a₁ ⟨hfetched, hleads, hbehind, -⟩
    cases r with
    | error e => exact .of_fetched hfetched
    | ok p =>
      dsimp only
      rw [Attempt.ensures_bind, Attempt.ensures_ofRun]
      refine (checkPageEnd_spec (fun _ : True => hlt) ?_).imp (fun _ _ hr => hr) fun _ _ _ => trivial
      rw [Attempt.ensures_bind, Attempt.ensures_modify]
      set f := (a₁.memory.frame p).setBytes (pageOffset s.address) bytes
      have hsound := (setFrame_spec hleads.sound (hbehind p rfl) f).1.sound
      refine (ih hsound hpages' hlt').mono fun r a₃ hrest => .cons hfetched ?_ (fun s' hs' => ?_) hrest
      · rfl
      · refine usable_congr h hsound hfetched.heapStart hfetched.brk (hlt' s' hs') ?_
        exact (heldPages_setFrame hleads.sound (hbehind p rfl) hlt f (hne s' hs')).trans
          (hfetched.others _ (hne s' hs'))

private theorem readSpans_foretold (h : a.Sound foreign owned held) {l : List Span}
    (hpages : l.Pairwise fun s s' => pageOf s'.address ≠ pageOf s.address)
    (hlt : ∀ s ∈ l, pageOf s.address < pageLimit) :
    (readSpans l).Ensures a (fun r _ => SpansForetold a l r) fun _ _ => True := by
  induction l generalizing a with
  | nil => exact fun s hs => absurd hs (by simp)
  | cons s rest ih =>
    obtain ⟨hne, hpages'⟩ := List.pairwise_cons.mp hpages
    obtain ⟨hlt, hlt'⟩ := List.forall_mem_cons.mp hlt
    unfold readSpans
    rw [Attempt.ensures_bind]
    refine ((frameOf_fetched h hlt false).and (frameOf_spec h s.address false (False.elim : False → _))).imp ?_
      fun _ _ _ => trivial
    rintro r a₁ ⟨hfetched, hleads, -⟩
    cases r with
    | error e => exact .of_fetched hfetched
    | ok p =>
      dsimp only
      rw [Attempt.ensures_bind, Attempt.ensures_ofRun]
      refine (checkPageEnd_spec (fun _ : True => hlt) ?_).imp (fun _ _ hr => hr) fun _ _ _ => trivial
      rw [Attempt.ensures_bind, Attempt.ensures_get]
      dsimp only
      rw [Attempt.ensures_bind]
      have hsame : ∀ s' ∈ rest, a₁.usable s'.address = a.usable s'.address := fun s' hs' =>
        usable_congr h hleads.sound hfetched.heapStart hfetched.brk (hlt' s' hs') (hfetched.others _ (hne s' hs'))
      refine (ih hleads.sound hpages' hlt').mono fun r a₂ hrest => ?_
      cases r with
      | error e => exact .cons hfetched rfl hsame hrest
      | ok more =>
        have hall : SpansForetold a (s :: rest) (.ok more) := .cons hfetched rfl hsame hrest
        exact hall

/-! ### Ranges -/

private theorem pageOf_lt_of_mem_pageSpans {length : Nat} (hle : address + length ≤ stackTop) {s : Span}
    (hs : s ∈ pageSpans address length) : pageOf s.address < pageLimit := by
  obtain ⟨x, -, hlt, hpage⟩ := exists_span_iff.mp ⟨s, hs, rfl⟩
  exact hpage ▸ pageOf_lt_pageLimit (by omega)

/-- What is known of the copy of the spans of a range is what the check of the range has told. -/
private theorem foretold_of_spans (h : a.Sound foreign owned held) {length : Nat} (hle : address + length ≤ stackTop)
    {α : Type}
    {r : Except Errno α} (hspans : SpansForetold a (pageSpans address length) r) : Foretold a address length r := by
  have hcovers : (∀ s ∈ pageSpans address length, a.usable s.address = true) ↔
      a.user.Covers a.memory address length := forall_mem_pageSpans_iff (P := fun x => a.usable x = true)
  cases r with
  | ok x =>
    refine .inl (UserMemory.checkRange_eq_ok_iff.mpr (.inr ⟨hle, hcovers.mp hspans⟩)).symm
  | error e =>
    rcases hspans with ⟨rfl, hfew⟩ | ⟨rfl, s, hs, hnot⟩
    · exact .inr ⟨rfl, _, h.region.accounts.available_eq, hfew⟩
    · refine .inl (UserMemory.checkRange_eq_error fun hok => ?_).symm
      rcases UserMemory.checkRange_eq_ok_iff.mp hok with rfl | ⟨-, hall⟩
      · simp [pageSpans] at hs
      · exact absurd (hcovers.mpr hall s hs) (by simp [hnot])

/-- A copy to a range ends as the check of the range has, unless there are not frames enough. -/
theorem writeUser_foretold (h : a.Sound foreign owned held) (hle : address + bytes.length ≤ stackTop) :
    (writeUser address bytes).Ensures a (fun r _ => Foretold a address bytes.length r) fun _ _ => False := by
  have hspec := writeUser_spec h address bytes fun _ : True => plain_of_lt (pageOf_lt_pageLimit (by omega))
  have hspans := writeSpans_foretold h (l := spanBytes (pageSpans address bytes.length) bytes)
  rw [map_fst_spanBytes] at hspans
  have hforetold : (writeUser address bytes).Ensures a (fun r _ => Foretold a address bytes.length r) fun _ _ => True := by
    rw [writeUser, if_pos (by simp only [stackTop, wordLimit] at hle ⊢; omega)]
    exact (hspans (pairwise_pageSpans _ _) fun s => pageOf_lt_of_mem_pageSpans hle).mono
      fun r _ => foretold_of_spans h hle
  exact (Run.Ensures.and hforetold hspec).imp (fun _ _ hr => hr.1) fun _ _ hstop => hstop.2.not_ok trivial

/-- A copy from a range ends as the check of the range has, unless there are not frames enough. -/
theorem readUser_foretold (h : a.Sound foreign owned held) {length : Nat} (hle : address + length ≤ stackTop) :
    (readUser address length).Ensures a (fun r _ => Foretold a address length r) fun _ _ => False := by
  have hspec := readUser_spec h address length fun _ : True => plain_of_lt (pageOf_lt_pageLimit (by omega))
  have hforetold : (readUser address length).Ensures a (fun r _ => Foretold a address length r) fun _ _ => True := by
    rw [readUser, if_pos (by simp only [stackTop, wordLimit] at hle ⊢; omega)]
    exact (readSpans_foretold h (pairwise_pageSpans _ _) fun s => pageOf_lt_of_mem_pageSpans hle).mono
      fun r _ => foretold_of_spans h hle
  exact (Run.Ensures.and hforetold hspec).imp (fun _ _ hr => hr.1) fun _ _ hstop => hstop.2.not_ok trivial

/-- When a part of a range has been written, what is left of the range passes the check if the whole did. It may start
in the middle of a page, but that is one on which the part has ended. -/
theorem covers_rest (h : a.Sound foreign owned held) {length : Nat} (hle : address + length ≤ stackTop)
    (hcovers : a.user.Covers a.memory address length) (hbytes : bytes.length ≤ length)
    (hwrite : (writeUser address bytes).run a = .ok (.ok ()) a') :
    a'.user.Covers a'.memory (address + bytes.length) (length - bytes.length) := by
  intro x hx hlt hstart
  obtain ⟨hleads, hwritten⟩ := (writeUser_written h (show address + bytes.length ≤ stackTop by omega)).of_ok hwrite
  obtain ⟨hwrote, hhas⟩ := hwritten rfl
  have hpage : pageOf x < pageLimit := pageOf_lt_pageLimit (by omega)
  show a'.usable x = true
  rw [usable_eq hleads.sound hpage, Bool.or_eq_true]
  by_cases hold : x = address ∨ pageOffset x = 0
  · have husable : a.usable x = true := hcovers x (by omega) (by omega) hold
    rw [usable_eq h hpage, Bool.or_eq_true] at husable
    refine husable.imp (hwrote.has _) fun hzero => ?_
    have hstart : a'.user.heapStart = a.user.heapStart := hwrote.heapStart
    have hbrk : a'.user.brk = a.user.brk := hwrote.brk
    rwa [UserMemory.isDemandZero, hstart, hbrk]
  · left
    refine hhas _ ⟨x - 1, ?_, ?_, ?_⟩
    all_goals
      simp only [pageOf, pageOffset, pageSize] at hold hstart ⊢
      omega

end Access

end TrapKernel
