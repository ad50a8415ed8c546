import TrapKernel.Proofs.Kernel.Aliases
import TrapKernel.Proofs.Memory.WrittenBytes

/-!
# Copies of exactly the requested bytes

A copy to user addresses writes its bytes and no others, up to the first page that cannot be made writable, and a copy
from there reads them back and changes nothing. A page table takes addresses with the same lower 39 bits for one, so
whoever reads at an address above these bits reads what is written at the address below.

* `Access.ExactCopies`: what the copies at an address do to the bytes that can be read.
* `Kernel.Reachable.exactCopies`: in reachable states all copies below the end of the stack do so.
-/

namespace TrapKernel

open PrivatePages

/-- The addresses below this one are those that the page table tells apart. -/
abbrev addressLimit : Nat := pageLimit * pageSize

namespace Access

/-- The byte that is read at an address, if there is one: that of the frame behind it, or zero where heap and stack
have no page yet. -/
def byteAt? (a : Access) (x : Nat) : Option UInt8 :=
  match a.translate (pageOf x) with
  | some e => some ((a.memory.frame e.frame).byte (pageOffset x))
  | none => if a.user.isDemandZero x then some 0 else none

/-- Whether some bytes have been written from an address on, and no other byte that could be read has changed. -/
structure Written (address : Nat) (bytes : List UInt8) (a a' : Access) : Prop where
  inside : ∀ i (h : i < bytes.length), a'.byteAt? (address + i) = some bytes[i]
  others : ∀ x b, a.byteAt? x = some b → a'.byteAt? x = some (overwrite (fun _ => b) address bytes (x % addressLimit))

/-- Whether every entry of the page table is as it was. -/
def Keeps (a a' : Access) : Prop := ∀ page e, a.translate page = some e → translate a' page = some e

/-- Whether copies of some bytes at an address are exact. -/
structure ExactCopies (a : Access) (address : Nat) (bytes : List UInt8) : Prop where
  /-- Where there is a byte to read it is read, unless its page is not there yet and there is no frame for it. -/
  one : ∀ x < wordLimit, (readUser x 1).Ensures a
    (fun r _ => match a.byteAt? x with
      | some b => r = .ok [b] ∨ r = .error .noMemory ∧ a.translate (pageOf x) = none
      | none => r = .error .badAddress)
    fun _ _ => False
  /-- Bytes that have been written can be read back. If not all of them are written, those before the first page that
  cannot be made writable are. -/
  write : (writeUser address bytes).Ensures a
    (fun r a' => match r with
      | .ok () => Written address bytes a a' ∧
          (readUser address bytes.length).Ensures a' (fun r a'' => r = .ok bytes ∧ a'' = a') fun _ _ => False
      | .error e => ∃ n < bytes.length, (n = 0 ∨ pageOffset (address + n) = 0) ∧ Written address (bytes.take n) a a' ∧
          ∃ a₀, (writeUser address (bytes.take n)).run a = .ok (.ok ()) a₀ ∧
            (handleFault (address + n) true).run a₀ = .ok (.error e) a')
    fun _ _ => False
  /-- A read changes no byte and no entry of the page table. -/
  read : (readUser address bytes.length).Ensures a
    (fun _ a' => Written address [] a a' ∧ Keeps a a') fun _ _ => False

variable {a a' a'' : Access} {foreign : Surroundings} {owned held : List Nat} {address : Nat} {bytes : List UInt8}

theorem Written.refl (address : Nat) (a : Access) : Written address [] a a where
  inside i hi := absurd hi (Nat.not_lt_zero i)
  others x b hb := by rwa [overwrite_nil]

/-- Bytes that follow those that have been written before. -/
theorem Written.append {bytes' : List UInt8} (h : Written address bytes a a')
    (h' : Written (address + bytes.length) bytes' a' a'') (hle : address + bytes.length ≤ addressLimit) :
    Written address (bytes ++ bytes') a a'' where
  inside i hi := by
    by_cases hfirst : i < bytes.length
    · rw [h'.others _ _ (h.inside i hfirst), Nat.mod_eq_of_lt (by omega), overwrite_of_lt (by omega),
        List.getElem_append_left hfirst]
    · have hrest : i - bytes.length < bytes'.length := by
        rw [List.length_append] at hi
        omega
      have haddress : address + i = address + bytes.length + (i - bytes.length) := by omega
      rw [haddress, h'.inside _ hrest, List.getElem_append_right (Nat.le_of_not_lt hfirst)]
  others x b hb := by
    rw [h'.others _ _ (h.others x b hb), ← overwrite_append]
    exact congrArg some (overwrite_congr rfl)

/-! ### What can be read -/

private theorem pageOf_mod_addressLimit (x : Nat) : pageOf (x % addressLimit) = pageOf x % pageLimit := by
  simp only [pageOf, addressLimit, pageLimit, pageSize]
  omega

private theorem pageOffset_mod_addressLimit (x : Nat) : pageOffset (x % addressLimit) = pageOffset x := by
  simp only [pageOffset, addressLimit, pageLimit, pageSize]
  omega

section Sound

variable (h : a.Sound foreign owned held) {x : Nat}

include h

theorem byteAt?_of_has (hpage : a.heldPages.Has (pageOf (x % addressLimit))) :
    a.byteAt? x = some (a.heldPages.byteAt (x % addressLimit)) := by
  obtain ⟨p, hp⟩ := has_heldPages.mp hpage
  obtain ⟨e, he, rfl⟩ := h.translate_of_getElem? hp
  rw [pageOf_mod_addressLimit] at he hp
  have htranslate : a.translate (pageOf x) = some e := by
    rw [← he]
    exact PageTable.translate_mod (Nat.mod_mod _ _).symm
  rw [byteAt?, htranslate, PrivatePages.byteAt, heldPages, AddressSpace.content, pageOf_mod_addressLimit, hp,
    pageOffset_mod_addressLimit]
  rfl

theorem byteAt?_of_not_has (hpage : ¬a.heldPages.Has (pageOf (x % addressLimit))) :
    a.byteAt? x = if a.user.isDemandZero x then some 0 else none := by
  have hnone : a.translate (pageOf x) = none := by
    by_contra hsome
    obtain ⟨e, he⟩ := Option.ne_none_iff_exists'.mp hsome
    refine hpage (has_heldPages.mpr ⟨e.frame, ?_⟩)
    rw [pageOf_mod_addressLimit]
    exact AddressSpace.getElem?_mod_of_translate h.region.valid he
  rw [byteAt?, hnone]

end Sound

/-- What was written to the pages that a process holds was written to the bytes that it reads. -/
private theorem written_of_wrote (h : a.Sound foreign owned held) (h' : a'.Sound foreign owned held) {l l' : Answers}
    (hwrote : PrivateMemory.Wrote address bytes (a.privately l) (a'.privately l'))
    (hle : address + bytes.length ≤ stackTop)
    (hhas : ∀ page, InPages address bytes.length page → a'.heldPages.Has page) : Written address bytes a a' where
  inside i hi := by
    have hlt : address + i < addressLimit := by
      simp only [addressLimit, pageLimit, pageSize, stackTop] at hle ⊢
      omega
    have hpage := hhas _ ⟨address + i, Nat.le_add_right _ _, Nat.add_lt_add_left hi _, rfl⟩
    have hbyte : a'.heldPages.byteAt (address + i) = bytes[i] := by
      rw [← overwrite_add (f := a.heldPages.byteAt) hi]
      exact congrFun hwrote.byteAt _
    rw [byteAt?_of_has h' (by rwa [Nat.mod_eq_of_lt hlt]), Nat.mod_eq_of_lt hlt, hbyte]
  others x b hb := by
    have hbyte : a'.heldPages.byteAt (x % addressLimit) =
        overwrite a.heldPages.byteAt address bytes (x % addressLimit) := congrFun hwrote.byteAt _
    by_cases hpage : a.heldPages.Has (pageOf (x % addressLimit))
    · rw [byteAt?_of_has h hpage, Option.some.injEq] at hb
      rw [byteAt?_of_has h' (hwrote.has _ hpage), hbyte, ← hb]
      exact congrArg some (overwrite_congr rfl)
    -- where there is no page yet, there are zeros
    have hzero {a : Access} (hpage : ¬a.heldPages.Has (pageOf (x % addressLimit))) :
        a.heldPages.byteAt (x % addressLimit) = 0 := by
      rw [Has, Bool.not_eq_true, Option.isSome_eq_false_iff, Option.isNone_iff_eq_none] at hpage
      rw [PrivatePages.byteAt, hpage, Option.getD_none, Frame.byte_zero]
    rw [byteAt?_of_not_has h hpage] at hb
    split at hb
    swap
    · exact absurd hb (by simp)
    next hdemand =>
      have hdemand' : a'.user.isDemandZero x = true := by
        have hstart : a'.user.heapStart = a.user.heapStart := hwrote.heapStart
        have hbrk : a'.user.brk = a.user.brk := hwrote.brk
        rwa [UserMemory.isDemandZero, hstart, hbrk]
      rw [overwrite_congr (f := a.heldPages.byteAt) (by rw [hzero hpage, Option.some.inj hb]), ← hbyte]
      by_cases hpage' : a'.heldPages.Has (pageOf (x % addressLimit))
      · rw [byteAt?_of_has h' hpage']
      · rw [byteAt?_of_not_has h' hpage', if_pos hdemand', hzero hpage']

/-! ### Writes -/

theorem pageOf_lt_pageLimit {address : Nat} (h : address ≤ stackTop) : pageOf address < pageLimit := by
  simp only [pageOf, pageLimit, pageSize, stackTop] at h ⊢
  omega

/-- A copy that succeeds has written its bytes. -/
theorem writeUser_written (h : a.Sound foreign owned held) (hle : address + bytes.length ≤ stackTop) :
    (writeUser address bytes).Ensures a
      (fun r a' => Leads foreign owned held a a' ∧
        (r = .ok () → PrivateMemory.Wrote address bytes (privately a []) (privately a' []) ∧
          ∀ page, InPages address bytes.length page → (heldPages a').Has page))
      fun _ _ => False := by
  have hspec := writeUser_spec h address bytes fun _ : True => plain_of_lt (pageOf_lt_pageLimit (by omega))
  have hbytes := ensures_of_follows hspec fun b =>
    ((PrivateMemory.writeUser_spec b address bytes).and (PrivateMemory.writeUser_wrote b address bytes)).imp
      (fun _ _ hr => hr) fun _ _ _ => trivial
  refine (hspec.and hbytes).imp ?_ fun _ _ hstop => hstop.2
  rintro r a' ⟨⟨hleads, -⟩, answers, ⟨-, hhas, -⟩, hwrote⟩
  exact ⟨hleads, fun hr => ⟨⟨(hwrote hr).heapStart, (hwrote hr).brk, (hwrote hr).has, (hwrote hr).byteAt⟩, hhas hr⟩⟩

/-- If the frame behind an address is not to be had for writing, that is since its page cannot be made writable. -/
private theorem frameOf_failure (h : a.Sound foreign owned held) (hlt : pageOf address < pageLimit) {e : Errno}
    (hfail : (frameOf address true).run a = .ok (.error e) a') : (handleFault address true).run a = .ok (.error e) a' := by
  have hafter : (frameAfterFault address true).run a = .ok (.error e) a' →
      (handleFault address true).run a = .ok (.error e) a' := by
    intro hfail
    rw [frameAfterFault, Attempt.run_bind_eq_ok] at hfail
    rcases hfail with ⟨⟨⟩, a₁, hfault, hrest⟩ | ⟨e', hfault, he⟩
    · -- after the fault there is an entry, so that there is a frame
      obtain ⟨-, hentry, -⟩ := (handleFault_spec h address true fun _ : True => plain_of_lt hlt).of_ok hfault
      obtain ⟨e₁, he₁, -⟩ := hentry rfl
      rw [Attempt.run_get_bind, he₁] at hrest
      exact absurd hrest (by simp [pure, ExceptT.pure, ExceptT.run, ExceptT.mk, EStateM.pure])
    · rw [Except.error.inj he]
      exact hfault
  rw [frameOf, Attempt.run_get_bind] at hfail
  split at hfail
  · split at hfail
    · exact absurd hfail (by simp [pure, ExceptT.pure, ExceptT.run, ExceptT.mk, EStateM.pure])
    · exact hafter hfail
  · exact hafter hfail

/-- A copy that fails has written the bytes before a page that cannot be made writable. -/
private theorem writeUser_failed (h : a.Sound foreign owned held) (hle : address + bytes.length ≤ stackTop) {e : Errno}
    (hfail : (writeUser address bytes).run a = .ok (.error e) a') :
    ∃ n < bytes.length, (n = 0 ∨ pageOffset (address + n) = 0) ∧ Written address (bytes.take n) a a' ∧
      ∃ a₀, (writeUser address (bytes.take n)).run a = .ok (.ok ()) a₀ ∧
        (handleFault (address + n) true).run a₀ = .ok (.error e) a' := by
  have hword : address + bytes.length < wordLimit := by
    simp only [stackTop, wordLimit] at hle ⊢
    omega
  obtain ⟨n, a₀, hn, hstart, hdone, hframe⟩ := writeUser_failure hword hfail
  have hlength : (bytes.take n).length = n := by
    rw [List.length_take]
    omega
  obtain ⟨hleads, hwritten⟩ := (writeUser_written h (show address + (bytes.take n).length ≤ stackTop by omega)).of_ok hdone
  obtain ⟨hwrote, hhas⟩ := hwritten rfl
  have hlt : pageOf (address + n) < pageLimit := pageOf_lt_pageLimit (by omega)
  have hfault := frameOf_failure hleads.sound hlt hframe
  have hspec := (handleFault_spec hleads.sound (address + n) true fun _ : True => plain_of_lt hlt).mono
    fun r a' hr => (⟨hr.1, fun hk => (hr.2.2 hk).2⟩ : _ ∧ _)
  have hnothing := ensures_of_follows hspec fun b =>
    (PrivateMemory.handleFault_wrote b (address + n) true (address + n)).imp (fun _ _ hr => hr) fun _ _ => False.elim
  obtain ⟨_, hwrote'⟩ := hnothing.of_ok hfault
  refine ⟨n, hn, hstart, ?_, a₀, hdone, hfault⟩
  have hall : PrivateMemory.Wrote address (bytes.take n ++ []) (a.privately []) (privately a' []) :=
    hwrote.append ⟨hwrote'.heapStart, hwrote'.brk, hwrote'.has, by rw [hlength]; exact hwrote'.byteAt⟩
  rw [List.append_nil] at hall
  exact written_of_wrote h (hspec.of_ok hfault).1.sound hall (by omega) fun page hpage => hwrote'.has _ (hhas page hpage)

/-! ### Reads -/

private theorem Keeps.refl (a : Access) : Keeps a a := fun _ _ he => he

private theorem Keeps.trans (h : Keeps a a') (h' : Keeps a' a'') : Keeps a a'' :=
  fun page e he => h' page e (h page e he)

/-- A fault that a read raises changes no entry of the page table. -/
private theorem handleFault_keeps (h : a.Sound foreign owned held) (address : Nat) :
    (handleFault address false).Ensures a (fun _ a' => Keeps a a') fun _ _ => True := by
  unfold handleFault
  simp only [Attempt.ensures_bind, Attempt.ensures_get, Bool.false_and, Bool.false_eq_true, if_false]
  cases hnone : a.translate (pageOf address) with
  | some e => exact .refl a
  | none =>
    dsimp only
    split
    swap
    · exact .refl a
    next hzero =>
      have hlt := h.fine.pageOf_lt_pageLimit hzero
      unfold mapZeroed
      simp only [Attempt.ensures_bind, Attempt.ensures_liftM, Run.ensures_bind, Run.ensures_get, Run.ensures_within]
      refine (AddressSpace.mapZeroed_spec h.region hlt hnone .userData).imp ?_ fun _ _ => False.elim
      rintro ⟨s', mapped⟩ m' ⟨-, -, -, hr⟩
      have hkeeps : ∀ page e, a.translate page = some e → s'.translate m' page = some e := by
        intro page e he
        cases mapped with
        | false => exact (hr.2 page).trans he
        | true =>
          obtain ⟨p, -, -, -, htranslate⟩ := hr
          rw [htranslate, if_neg fun hpage => ?_]
          · exact he
          · have hsame : a.translate page = a.translate (pageOf address) :=
              PageTable.translate_mod (hpage.trans (Nat.mod_eq_of_lt hlt).symm)
            exact absurd ((hnone.symm.trans hsame.symm).trans he) (by simp)
      cases mapped with
      | false => exact hkeeps
      | true => exact hkeeps

private theorem frameOf_keeps (h : a.Sound foreign owned held) (address : Nat) :
    (frameOf address false).Ensures a (fun _ a' => Keeps a a') fun _ _ => True := by
  have hafter : (frameAfterFault address false).Ensures a (fun _ a' => Keeps a a') fun _ _ => True := by
    unfold frameAfterFault
    rw [Attempt.ensures_bind]
    refine (handleFault_keeps h address).mono fun r a' hkeeps => ?_
    cases r with
    | error e => exact hkeeps
    | ok =>
      simp only [Attempt.ensures_bind, Attempt.ensures_get]
      split <;> exact hkeeps
  unfold frameOf
  simp only [Attempt.ensures_bind, Attempt.ensures_get]
  split
  · split
    · exact .refl a
    · exact hafter
  · exact hafter

private theorem readSpans_keeps (h : a.Sound foreign owned held) (l : List Span) :
    (readSpans l).Ensures a (fun _ a' => Keeps a a') fun _ _ => True := by
  induction l generalizing a with
  | nil => exact .refl a
  | cons s rest ih =>
    unfold readSpans
    rw [Attempt.ensures_bind]
    have hframe := (frameOf_keeps h s.address).and (frameOf_spec h s.address false (False.elim : False → _))
    refine hframe.imp ?_ fun _ _ _ => trivial
    rintro r a₁ ⟨hkeeps, hleads, -⟩
    cases r with
    | error e => exact hkeeps
    | ok p =>
      dsimp only
      rw [Attempt.ensures_bind, Attempt.ensures_ofRun]
      refine (checkPageEnd_spec (False.elim : False → _) ?_).imp (fun _ _ hr => hr) fun _ _ _ => trivial
      rw [Attempt.ensures_bind, Attempt.ensures_get]
      dsimp only
      rw [Attempt.ensures_bind]
      refine (ih hleads.sound).mono fun r a₂ hkeeps' => ?_
      cases r with
      | error e => exact hkeeps.trans hkeeps'
      | ok => exact hkeeps.trans hkeeps'

/-- A read changes nothing that could be read. -/
theorem readUser_exact (h : a.Sound foreign owned held) {length : Nat} (hle : address + length ≤ stackTop) :
    (readUser address length).Ensures a (fun _ a' => Written address [] a a' ∧ Keeps a a') fun _ _ => False := by
  have hkeeps : (readUser address length).Ensures a (fun _ a' => Keeps a a') fun _ _ => True := by
    unfold readUser
    split
    · exact readSpans_keeps h _
    · exact .refl a
  have hspec := (readUser_spec h address length fun _ : True => plain_of_lt (pageOf_lt_pageLimit (by omega))).mono
    fun r a' hr => (⟨hr.1, fun hk => (hr.2 hk).2⟩ : _ ∧ _)
  have hbytes := ensures_of_follows hspec fun b => PrivateMemory.readUser_wrote b address length address
  refine ((hspec.and hbytes).and hkeeps).imp ?_ fun _ _ hstop => hstop.1.2
  rintro r a' ⟨⟨⟨hleads, -⟩, answers, hwrote⟩, hkeeps⟩
  refine ⟨written_of_wrote h hleads.sound hwrote (by rw [List.length_nil]; omega) fun page ⟨x, hx, hlt, _⟩ => ?_, hkeeps⟩
  rw [List.length_nil] at hlt
  omega

/-- Spans whose pages are all there are read at once. -/
private theorem readSpans_there (h : a.Sound foreign owned held) {l : List Span}
    (hfits : ∀ s ∈ l, pageOffset s.address + s.length ≤ pageSize) (hlt : ∀ s ∈ l, pageOf s.address < pageLimit)
    (hhas : ∀ s ∈ l, a.heldPages.Has (pageOf s.address)) :
    (readSpans l).Ensures a (fun r a' => r = .ok ((l.flatMap Span.addresses).map a.heldPages.byteAt) ∧ a' = a)
      fun _ _ => False := by
  induction l with
  | nil => exact ⟨rfl, rfl⟩
  | cons s rest ih =>
    obtain ⟨hfits, hfits'⟩ := List.forall_mem_cons.mp hfits
    obtain ⟨hlt, hlt'⟩ := List.forall_mem_cons.mp hlt
    obtain ⟨hhas, hhas'⟩ := List.forall_mem_cons.mp hhas
    obtain ⟨p, hp⟩ := has_heldPages.mp hhas
    obtain ⟨e, he, rfl⟩ := h.translate_of_getElem? hp
    have hframe : (frameOf s.address false).run a = .ok (.ok e.frame) a := by
      rw [frameOf, Attempt.run_get_bind, he]
      rfl
    have hbytes : (a.memory.frame e.frame).bytes (pageOffset s.address) s.length = s.addresses.map a.heldPages.byteAt := by
      rw [← bytes_eq _ hfits, heldPages, h.content_of_translate hlt he]
      rfl
    unfold readSpans
    rw [Attempt.ensures_bind]
    refine Run.ensures_of_eq_ok hframe ?_
    dsimp only
    rw [Attempt.ensures_bind, Attempt.ensures_ofRun]
    refine (checkPageEnd_spec (fun _ : True => hlt) ?_).imp (fun _ _ hr => hr) fun _ _ hstop => hstop.not_ok trivial
    rw [Attempt.ensures_bind, Attempt.ensures_get]
    dsimp only
    rw [Attempt.ensures_bind]
    refine (ih hfits' hlt' hhas').mono ?_
    rintro r a' ⟨rfl, rfl⟩
    refine ⟨?_, rfl⟩
    rw [List.flatMap_cons, List.map_append, ← hbytes]
    rfl

private theorem readUser_there (h : a.Sound foreign owned held) {length : Nat} (hle : address + length ≤ stackTop)
    (hhas : ∀ page, InPages address length page → a.heldPages.Has page) :
    (readUser address length).Ensures a (fun r a' => r = .ok ((List.range' address length).map a.heldPages.byteAt) ∧ a' = a)
      fun _ _ => False := by
  rw [readUser, if_pos (by simp only [stackTop, wordLimit] at hle ⊢; omega), ← flatMap_addresses_pageSpans]
  refine readSpans_there h (fun s => offset_add_le_of_mem_pageSpans) (fun s hs => ?_) fun s hs => ?_
  · obtain ⟨x, -, hlt, hpage⟩ := exists_span_iff.mp ⟨s, hs, rfl⟩
    exact hpage ▸ pageOf_lt_pageLimit (by omega)
  · exact hhas _ (exists_span_iff.mp ⟨s, hs, rfl⟩)

/-! ### Single bytes -/

private theorem pageSpans_one (x : Nat) : pageSpans x 1 = [⟨x, 1⟩] := by
  have hmin : min 1 (pageSize - pageOffset x) = 1 := by
    simp only [pageOffset, pageSize]
    omega
  rw [pageSpans_eq x Nat.one_ne_zero, hmin, Nat.sub_self, pageSpans, if_pos rfl]

/-- A byte whose page has an entry is read at once, under whatever number the page is asked for. -/
theorem readUser_entry (h : a.Sound foreign owned held) {x : Nat} {e : Entry}
    (he : a.translate (pageOf x) = some e) (hx : x < wordLimit) :
    (readUser x 1).Ensures a (fun r a' => r = .ok [(a.memory.frame e.frame).byte (pageOffset x)] ∧ a' = a)
      fun _ _ => False := by
  have hpage : pageOf x % pageLimit < stackTop / pageSize :=
    h.fine.page_lt _ _ (AddressSpace.getElem?_mod_of_translate h.region.valid he)
  have hend : (pageOf x + 1) * pageSize < wordLimit := by
    simp only [pageOf, pageLimit, pageSize, stackTop, wordLimit] at hpage hx ⊢
    omega
  have hframe : (frameOf x false).run a = .ok (.ok e.frame) a := by
    rw [frameOf, Attempt.run_get_bind, he]
    rfl
  rw [readUser, if_pos (by simp only [pageOf, pageSize, wordLimit] at hend ⊢; omega), pageSpans_one, readSpans,
    Attempt.ensures_bind]
  refine Run.ensures_of_eq_ok hframe ?_
  simp only [Attempt.ensures_bind, Attempt.ensures_ofRun, checkPageEnd, Run.ensures_bind, Run.ensures_mulWords, if_pos hend,
    Run.ensures_pure, Attempt.ensures_get, readSpans, Attempt.ensures_pure]
  exact ⟨rfl, trivial⟩

/-- Outside of heap and stack a page that is not there does not come into being. -/
theorem handleFault_outside {x : Nat} (hnone : a.translate (pageOf x) = none) (hzero : a.user.isDemandZero x = false) :
    (handleFault x false).run a = .ok (.error .badAddress) a := by
  have hfault : (handleFault x false).Ensures a (fun r a' => r = .error .badAddress ∧ a' = a) fun _ _ => False := by
    unfold handleFault
    simp only [Attempt.ensures_bind, Attempt.ensures_get, hnone, hzero, Bool.false_eq_true, if_false]
    exact ⟨rfl, rfl⟩
  exact Run.Ensures.eq_ok hfault

/-- A read of a byte whose page has no entry does what the fault does that it raises. -/
theorem readUser_fault (h : a.Sound foreign owned held) {x : Nat} (hnone : a.translate (pageOf x) = none) :
    (readUser x 1).Ensures a (fun r a' => (handleFault x false).run a = .ok (r.map fun _ => ()) a') fun _ _ => True := by
  have hframe : (frameOf x false).Ensures a (fun r a' => (handleFault x false).run a = .ok (r.map fun _ => ()) a')
      fun _ _ => True := by
    unfold frameOf frameAfterFault
    simp only [Attempt.ensures_bind, Attempt.ensures_get, hnone]
    refine Run.ensures_iff.mpr ⟨fun r a' hfault => ?_, fun _ _ _ => trivial⟩
    cases r with
    | error e => exact hfault
    | ok =>
      obtain ⟨-, hentry, -⟩ := (handleFault_spec h x false (False.elim : False → _)).of_ok hfault
      obtain ⟨e, he, -⟩ := hentry rfl
      simp only [he]
      exact hfault
  unfold readUser
  split
  swap
  next hword =>
    -- so close to the last address there is neither heap nor stack
    have hzero : a.user.isDemandZero x = false := by
      by_contra hzero
      have hlt := h.fine.page_lt_of_isDemandZero (Bool.of_not_eq_false hzero)
      simp only [pageOf, pageSize, stackTop, wordLimit] at hlt hword
      omega
    exact handleFault_outside hnone hzero
  rw [pageSpans_one, readSpans, Attempt.ensures_bind]
  refine hframe.mono fun r a' hfault => ?_
  cases r with
  | error e => exact hfault
  | ok p =>
    dsimp only
    rw [Attempt.ensures_bind, Attempt.ensures_ofRun]
    exact (checkPageEnd_spec (False.elim : False → _) hfault).imp (fun _ _ hr => hr) fun _ _ _ => trivial

/-- The first read of a page of heap or stack fails only if there is no frame for it, and a read elsewhere always. -/
private theorem readUser_noEntry (h : a.Sound foreign owned held) {x : Nat} (hnone : a.translate (pageOf x) = none) :
    (readUser x 1).Ensures a
      (fun r _ => ∀ e, r = .error e → e = if a.user.isDemandZero x then .noMemory else .badAddress) fun _ _ => True := by
  have hfault : (handleFault x false).Ensures a
      (fun r _ => ∀ e, r = .error e → e = if a.user.isDemandZero x then .noMemory else .badAddress) fun _ _ => True := by
    unfold handleFault
    simp only [Attempt.ensures_bind, Attempt.ensures_get, hnone]
    split
    next hzero =>
      unfold mapZeroed
      have hlt := h.fine.pageOf_lt_pageLimit hzero
      simp only [Attempt.ensures_bind, Attempt.ensures_liftM, Run.ensures_bind, Run.ensures_get, Run.ensures_within]
      refine (AddressSpace.mapZeroed_spec h.region hlt hnone .userData).imp ?_ fun _ _ => False.elim
      rintro ⟨s', mapped⟩ m' -
      cases mapped with
      | false => exact fun e he => (Except.error.inj he).symm
      | true => exact fun e he => absurd he (by simp)
    · exact fun e he => (Except.error.inj he).symm
  exact (readUser_fault h hnone).mono fun r a' hread e he => hfault.of_ok hread e (by rw [he, Except.map])

/-- What a read of one byte finds. -/
theorem readUser_one (h : a.Sound foreign owned held) {x : Nat} (hx : x < wordLimit) :
    (readUser x 1).Ensures a
      (fun r _ => match a.byteAt? x with
        | some b => r = .ok [b] ∨ r = .error .noMemory ∧ a.translate (pageOf x) = none
        | none => r = .error .badAddress)
      fun _ _ => False := by
  cases he : a.translate (pageOf x) with
  | some e =>
    rw [byteAt?, he]
    exact (readUser_entry h he hx).mono fun _ _ hr => .inl hr.1
  | none =>
    rw [byteAt?, he]
    have hplain : True → a.Plain (pageOf x) := fun _ hsome => absurd hsome (by simp [he])
    have hcontent := h.content_of_translate_eq_none he
    have hspec := (readUser_spec h x 1 hplain).mono fun r a' hr => (⟨hr.1, fun hk => (hr.2 hk).2⟩ : _ ∧ _)
    have hbytes := ensures_of_follows hspec fun b =>
      ((PrivateMemory.readUser_spec b x 1).and (PrivateMemory.readUser_wrote b x 1 x)).imp (fun _ _ hr => hr)
        fun _ _ _ => trivial
    refine (hbytes.and (readUser_noEntry h he)).imp ?_ fun _ _ hstop => hstop.1
    rintro r a' ⟨⟨answers, ⟨-, hread, houtside⟩, hwrote⟩, herror⟩
    cases hzero : a.user.isDemandZero x with
    | false => exact houtside Nat.one_ne_zero ⟨hcontent, hzero⟩
    | true =>
      cases r with
      | error e =>
        refine .inr ⟨?_, rfl⟩
        rw [herror e rfl, hzero, if_pos rfl]
      | ok bytes =>
        refine .inl ?_
        have hbyte : (heldPages a').byteAt x = 0 := by
          have hsame : (heldPages a').byteAt x = overwrite a.heldPages.byteAt x [] x := congrFun hwrote.byteAt x
          rw [hsame, overwrite_nil, PrivatePages.byteAt, heldPages, hcontent, Option.getD_none, Frame.byte_zero]
        rw [(hread bytes rfl).2, List.range'_one, List.map_singleton]
        exact congrArg (fun b => Except.ok [b]) hbyte

private theorem map_range'_overwrite (f : Nat → UInt8) (address : Nat) (bytes : List UInt8) :
    (List.range' address bytes.length).map (overwrite f address bytes) = bytes := by
  refine List.ext_getElem (by simp) fun i hi hi' => ?_
  rw [List.getElem_map, List.getElem_range', Nat.one_mul, overwrite_add hi']

/-- Below the end of the stack all copies are exact. -/
theorem exactCopies_of_sound (h : a.Sound foreign owned held) (hle : address + bytes.length ≤ stackTop) :
    a.ExactCopies address bytes where
  one _ hx := readUser_one h hx
  write := by
    refine Run.ensures_iff.mpr ⟨fun r a' hr => ?_, fun _ _ => (writeUser_written h hle).of_error⟩
    obtain ⟨hleads, hwritten⟩ := (writeUser_written h hle).of_ok hr
    cases r with
    | error e => exact writeUser_failed h hle hr
    | ok =>
      obtain ⟨hwrote, hhas⟩ := hwritten rfl
      refine ⟨written_of_wrote h hleads.sound hwrote hle hhas, ?_⟩
      have hbytes : (heldPages a').byteAt = overwrite a.heldPages.byteAt address bytes := hwrote.byteAt
      refine (readUser_there hleads.sound hle hhas).mono fun r a'' hread => ⟨?_, hread.2⟩
      rw [hread.1, hbytes, map_range'_overwrite]
  read := readUser_exact h hle

end Access

namespace Kernel

variable {σ φ : Type} [FileSystem σ] [Firmware φ] {entry stackPointer heapStart : UInt64} {memory : PhysicalMemory}
  {files : σ} {firmware : φ} {logLimit : Option LogLevel} {k₀ k : Kernel σ φ}

/-- Whatever traps have come, copies to and from the user addresses of any process below the end of the stack are
exact. -/
theorem Reachable.exactCopies (hboot : boot entry stackPointer heapStart memory files firmware logLimit = .ok k₀)
    (hmemory : memory.Consistent) (h : Reachable k₀ k) {s : Slot} {p : Process AddressSpace}
    (hp : k.table.get s = some p) {address : Nat} {bytes : List UInt8} (hle : address + bytes.length ≤ stackTop) :
    Access.ExactCopies ⟨p.memory, k.memory⟩ address bytes := by
  obtain ⟨foreign, hsound⟩ := h.exists_sound hmemory hboot
  exact Access.exactCopies_of_sound (hsound.access hp) hle

/-- Four bytes are written across the end of a page: the first page is not there yet, and the second is shared. -/
theorem exactCopies_stack : ∃ (k₀ k : Kernel EmptyFiles Bench.BenchFirmware) (p : Process AddressSpace),
    benchStart = .ok k₀ ∧ Reachable k₀ k ∧ k.table.get .init = some p ∧
      Access.ExactCopies ⟨p.memory, k.memory⟩ 0x3FFFEFFE [1, 2, 3, 4] := by
  obtain ⟨k₀, k, hk₀, hk, hsome⟩ := exists_of_benchRun
    (show benchRun shareStack (fun k => (k.table.get .init).isSome) = true by decide +kernel)
  obtain ⟨p, hp⟩ := Option.isSome_iff_exists.mp hsome
  exact ⟨k₀, k, p, hk₀, hk, hp, Reachable.exactCopies hk₀ consistent_benchMemory hk hp (by decide)⟩

/-- What the first process reads at an address before and after a byte is written at another one. -/
def readAround (x address : Nat) (b : UInt8) (k : Kernel EmptyFiles Bench.BenchFirmware) :
    Option (List UInt8 × List UInt8) := do
  let p ← k.table.get .init
  match (Access.readUser x 1).run ⟨p.memory, k.memory⟩, (Access.writeUser address [b]).run ⟨p.memory, k.memory⟩ with
  | .ok (.ok before) _, .ok (.ok ()) a' =>
    match (Access.readUser x 1).run a' with
    | .ok (.ok after) _ => some (before, after)
    | _ => none
  | _, _ => none

/-- A byte on the stack is read at another address too: that with the same lower 39 bits and the next one set. -/
theorem readAround_stackAlias : ∃ (k₀ k : Kernel EmptyFiles Bench.BenchFirmware),
    benchStart = .ok k₀ ∧ Reachable k₀ k ∧ readAround 0x803FFFF000 0x3FFFF000 0x42 k = some ([0], [0x42]) := by
  obtain ⟨k₀, k, hk₀, hk, hread⟩ := exists_of_benchRun (show benchRun
    [{ TrapFrame.zero with scause := 15, stval := 0x3FFFF000 }]
    (fun k => decide (readAround 0x803FFFF000 0x3FFFF000 0x42 k = some ([0], [0x42]))) = true by decide +kernel)
  exact ⟨k₀, k, hk₀, hk, of_decide_eq_true hread⟩

end Kernel

end TrapKernel
