import TrapKernel.Proofs.Memory.PrivateCopies
import Mathlib.Data.List.GetD

/-!
# The bytes that are written

A copy to user addresses replaces the bytes at these addresses, one after the other and whatever pages they lie in, and
leaves those at all others as they are. If it fails, it does so at the start of a page, or with the first byte.

* `Frame.byte_setBytes`: the bytes of a frame after some of them have been replaced.
* `PrivateMemory.writeUser_wrote`: the bytes that a process sees after a copy.
* `Access.writeUser_failure`: a copy that fails is a copy of the bytes before some page that succeeds, and a fault on
  that page that fails.
-/

namespace TrapKernel

/-- The bytes at all addresses, after those from an address on have been replaced. -/
def overwrite (f : Nat → UInt8) (address : Nat) (bytes : List UInt8) : Nat → UInt8 := fun x =>
  if address ≤ x then bytes.getD (x - address) (f x) else f x

section Overwrite

variable {f : Nat → UInt8} {address x : Nat} {bytes : List UInt8}

@[simp] theorem overwrite_nil : overwrite f address [] = f := by
  funext x
  simp [overwrite]

theorem overwrite_of_lt (h : x < address) : overwrite f address bytes x = f x := if_neg (Nat.not_le.mpr h)

private theorem overwrite_of_le (h : address + bytes.length ≤ x) : overwrite f address bytes x = f x := by
  rw [overwrite, if_pos (by omega), List.getD_eq_default _ _ (by omega)]

theorem overwrite_add {i : Nat} (h : i < bytes.length) : overwrite f address bytes (address + i) = bytes[i] := by
  rw [overwrite, if_pos (Nat.le_add_right _ _), Nat.add_sub_cancel_left, List.getD_eq_getElem _ _ h]

/-- What is written at other addresses does not depend on the bytes there before. -/
theorem overwrite_congr {g : Nat → UInt8} (h : g x = f x) : overwrite g address bytes x = overwrite f address bytes x := by
  rw [overwrite, overwrite, h]

private theorem overwrite_cons (b : UInt8) :
    overwrite f address (b :: bytes) = overwrite (fun x => if x = address then b else f x) (address + 1) bytes := by
  funext x
  by_cases hx : x = address
  · subst hx
    rw [overwrite_of_lt (Nat.lt_succ_self x), if_pos rfl, overwrite, if_pos (Nat.le_refl x), Nat.sub_self]
    rfl
  by_cases hle : address ≤ x
  · have hsub : x - address = x - (address + 1) + 1 := by omega
    rw [overwrite, overwrite, if_pos hle, if_pos (by omega), if_neg hx, hsub, List.getD_cons_succ]
  · rw [overwrite_of_lt (by omega), overwrite_of_lt (by omega), if_neg hx]

theorem overwrite_append (bytes' : List UInt8) :
    overwrite (overwrite f address bytes) (address + bytes.length) bytes' = overwrite f address (bytes ++ bytes') := by
  induction bytes generalizing f address with
  | nil => simp
  | cons b rest ih =>
    rw [overwrite_cons, List.cons_append, overwrite_cons, ← ih, List.length_cons]
    congr 1
    omega

end Overwrite

/-- The bytes of a frame after those from an offset on have been replaced. -/
theorem Frame.byte_setBytes (f : Frame) {offset : Nat} (bytes : List UInt8) (h : offset + bytes.length ≤ pageSize) :
    (f.setBytes offset bytes).byte = overwrite f.byte offset bytes := by
  induction bytes generalizing f offset with
  | nil => rw [overwrite_nil, setBytes]
  | cons b rest ih =>
    rw [List.length_cons] at h
    have hbyte : (f.setByte offset b).byte = fun x => if x = offset then b else f.byte x :=
      funext fun x => f.byte_setByte (by omega) x b
    rw [setBytes, ih _ (by omega), overwrite_cons, hbyte]

/-- The pages with the bytes from an address on, which lie in one page, replaced. -/
def PrivatePages.setBytes (s : PrivatePages) (address : Nat) (bytes : List UInt8) : PrivatePages :=
  s.set (pageOf address) (((s (pageOf address)).getD .zero).setBytes (pageOffset address) bytes)

private theorem PrivatePages.byteAt_setBytes (s : PrivatePages) {address : Nat} {bytes : List UInt8}
    (h : pageOffset address + bytes.length ≤ pageSize) :
    (s.setBytes address bytes).byteAt = overwrite s.byteAt address bytes := by
  funext x
  rw [byteAt, setBytes]
  by_cases hpage : pageOf x = pageOf address
  · rw [hpage, set, if_pos rfl, Option.getD_some, Frame.byte_setBytes _ _ h, overwrite, overwrite, byteAt, hpage]
    have hle : pageOffset address ≤ pageOffset x ↔ address ≤ x := by
      simp only [pageOf, pageOffset, pageSize] at hpage ⊢
      omega
    have hsub : address ≤ x → pageOffset x - pageOffset address = x - address := by
      simp only [pageOf, pageOffset, pageSize] at hpage ⊢
      omega
    by_cases hx : address ≤ x
    · rw [if_pos hx, if_pos (hle.mpr hx), hsub hx]
    · rw [if_neg hx, if_neg (mt hle.mp hx)]
  · rw [s.set_of_ne hpage]
    have hx : x < address ∨ address + bytes.length ≤ x := by
      simp only [pageOf, pageOffset, pageSize] at hpage h
      omega
    rcases hx with hlt | hle
    · rw [overwrite_of_lt hlt, byteAt]
    · rw [overwrite_of_le hle, byteAt]

namespace PrivateMemory

open PrivatePages

/-- Whether some bytes have been written from an address on, and besides that pages of zeros may have been added. -/
structure Wrote (address : Nat) (bytes : List UInt8) (a a' : PrivateAccess) : Prop where
  heapStart : a'.user.heapStart = a.user.heapStart
  brk : a'.user.brk = a.user.brk
  has : ∀ page, a.user.space.Has page → a'.user.space.Has page
  byteAt : a'.user.space.byteAt = overwrite a.user.space.byteAt address bytes

variable {a a' a'' : PrivateAccess} {address : Nat} {bytes : List UInt8}

private theorem Wrote.of_user (h : a'.user = a.user) (address : Nat) : Wrote address [] a a' := by
  obtain ⟨user, memory⟩ := a'
  cases h
  exact ⟨rfl, rfl, fun _ hp => hp, overwrite_nil.symm⟩

theorem Wrote.append {bytes' : List UInt8} (h : Wrote address bytes a a')
    (h' : Wrote (address + bytes.length) bytes' a' a'') : Wrote address (bytes ++ bytes') a a'' where
  heapStart := h'.heapStart.trans h.heapStart
  brk := h'.brk.trans h.brk
  has page hp := h'.has page (h.has page hp)
  byteAt := by rw [h'.byteAt, h.byteAt, overwrite_append]

/-- Bytes in one page have been replaced. -/
private theorem Wrote.set (a : PrivateAccess) (h : pageOffset address + bytes.length ≤ pageSize) :
    Wrote address bytes a
      { a with user.space := PrivatePages.setBytes a.user.space address bytes } where
  heapStart := rfl
  brk := rfl
  has := (Changes.set _ _ _).has
  byteAt := PrivatePages.byteAt_setBytes _ h

/-- A page fault writes no bytes. -/
theorem handleFault_wrote (a : PrivateAccess) (address : Nat) (write : Bool) (start : Nat) :
    (handleFault address write).Ensures a (fun _ a' => Wrote start [] a a') fun _ _ => False := by
  unfold handleFault
  simp only [Attempt.ensures_bind, Attempt.ensures_get]
  cases hspace : a.user.space (pageOf address) with
  | some f =>
    dsimp only
    split
    · exact needRoom_spec.mono fun r a' hr => .of_user hr.1 start
    · exact .of_user rfl start
  | none =>
    dsimp only
    split
    · rw [Attempt.ensures_bind]
      refine needRoom_spec.mono ?_
      rintro r a' ⟨huser, _⟩
      cases r with
      | error e => exact .of_user huser start
      | ok =>
        rw [Attempt.ensures_modify, huser]
        refine ⟨rfl, rfl, (Changes.set _ _ _).has, ?_⟩
        rw [overwrite_nil]
        funext x
        show PrivatePages.byteAt (PrivatePages.set _ _ _) x = _
        rw [PrivatePages.byteAt, PrivatePages.byteAt]
        by_cases hx : pageOf x = pageOf address
        · rw [hx, hspace, PrivatePages.set, if_pos rfl]
          rfl
        · rw [PrivatePages.set_of_ne _ hx]
    · exact .of_user rfl start

private theorem frameOf_wrote (a : PrivateAccess) (address : Nat) (write : Bool) (start : Nat) :
    (frameOf address write).Ensures a (fun _ a' => Wrote start [] a a') fun _ _ => False := by
  unfold frameOf
  rw [Attempt.ensures_bind]
  refine (handleFault_wrote a address write start).mono fun r a' h => ?_
  cases r with
  | error e => exact h
  | ok => exact h

/-- The bytes of a range are written span by span. -/
private theorem writeSpans_wrote (a : PrivateAccess) (address : Nat) (bytes : List UInt8) :
    (Access.writeSpans (spanBytes (pageSpans address bytes.length) bytes) : Attempt PrivateAccess Unit).Ensures a
      (fun r a' => r = .ok () → Wrote address bytes a a') fun _ _ => True := by
  induction hn : bytes.length using Nat.strong_induction_on generalizing a address bytes with
  | _ n ih =>
    by_cases hzero : n = 0
    · subst hzero
      obtain rfl := List.length_eq_zero_iff.mp hn
      exact fun _ => .of_user rfl address
    rw [pageSpans_eq address hzero, spanBytes]
    set first := min n (pageSize - pageOffset address) with hfirst
    have hpos : 0 < first := by
      simp only [hfirst, pageOffset, pageSize]
      omega
    have hlength : (bytes.take first).length = first := by
      rw [List.length_take]
      omega
    have hrest : (bytes.drop first).length = n - first := by rw [List.length_drop, hn]
    unfold Access.writeSpans
    rw [Attempt.ensures_bind]
    refine ((frameOf_spec a address true).and (frameOf_wrote a address true address)).imp ?_ fun _ _ _ => trivial
    rintro r a₁ ⟨⟨_, hframe, _⟩, hwrote⟩
    cases r with
    | error e => simp
    | ok p =>
      obtain ⟨rfl, -⟩ := hframe p rfl
      dsimp only
      rw [Attempt.ensures_bind, Attempt.ensures_ofRun]
      refine checkPageEnd_ensures ?_
      rw [Attempt.ensures_bind, Attempt.ensures_modify]
      have hfits : pageOffset address + (bytes.take first).length ≤ pageSize := by
        rw [hlength, hfirst]
        simp only [pageOffset, pageSize]
        omega
      have hset := hwrote.append (Wrote.set a₁ hfits)
      refine Attempt.Ensures.mono (ih (n - first) (by omega)
        { a₁ with user.space := PrivatePages.setBytes a₁.user.space address (bytes.take first) } (address + first)
        (bytes.drop first) hrest) fun r a₂ hwrote' hr => ?_
      rw [List.nil_append] at hset
      rw [← List.take_append_drop first bytes]
      refine hset.append ?_
      rw [hlength]
      exact hwrote' hr

/-- A copy that succeeds has written all its bytes, and no others. -/
theorem writeUser_wrote (a : PrivateAccess) (address : Nat) (bytes : List UInt8) :
    (Access.writeUser address bytes : Attempt PrivateAccess Unit).Ensures a
      (fun r a' => r = .ok () → Wrote address bytes a a') fun _ _ => True := by
  unfold Access.writeUser
  split
  · exact writeSpans_wrote a address bytes
  · exact fun hr => absurd hr (by simp)

/-- A read writes no bytes, whether it succeeds or not. -/
theorem readUser_wrote (a : PrivateAccess) (address length start : Nat) :
    (Access.readUser address length : Attempt PrivateAccess (List UInt8)).Ensures a (fun _ a' => Wrote start [] a a')
      fun _ _ => True := by
  have hspans : ∀ (l : List Span) (a : PrivateAccess),
      (Access.readSpans l : Attempt PrivateAccess (List UInt8)).Ensures a (fun _ a' => Wrote start [] a a')
        fun _ _ => True := by
    intro l
    induction l with
    | nil => exact fun a => .of_user rfl start
    | cons s rest ih =>
      intro a
      unfold Access.readSpans
      rw [Attempt.ensures_bind]
      refine Run.Ensures.imp (frameOf_wrote a s.address false start) ?_ fun _ _ _ => trivial
      rintro r a₁ hwrote
      cases r with
      | error e => exact hwrote
      | ok p =>
        dsimp only
        rw [Attempt.ensures_bind, Attempt.ensures_ofRun]
        refine checkPageEnd_ensures ?_
        rw [Attempt.ensures_bind, Attempt.ensures_get]
        dsimp only
        rw [Attempt.ensures_bind]
        refine (ih a₁).mono fun r a₂ hwrote' => ?_
        have hall : Wrote start ([] ++ []) a a₂ := hwrote.append hwrote'
        cases r with
        | error e => exact hall
        | ok => exact hall
  unfold Access.readUser
  split
  · exact hspans _ a
  · exact .of_user rfl start

end PrivateMemory

/-! ### Copies that fail -/

namespace Access

variable {μ β : Type} [MemorySystem μ β] {a a₁ : MemoryAccess μ β} {address : Nat} {bytes : List UInt8} {e : Errno}

/-- The spans of a range that ends on a later page than it starts begin with the rest of its first page. -/
private theorem spanBytes_pageSpans_add {first n : Nat} (hfirst : first = pageSize - pageOffset address)
    (bytes : List UInt8) :
    spanBytes (pageSpans address (first + n)) (bytes.take (first + n)) =
      (⟨address, first⟩, bytes.take first) :: spanBytes (pageSpans (address + first) n) ((bytes.drop first).take n) := by
  have hpos : 0 < first := by
    simp only [hfirst, pageOffset, pageSize]
    omega
  have hmin : min (first + n) (pageSize - pageOffset address) = first := by omega
  rw [pageSpans_eq address (by omega), hmin, Nat.add_sub_cancel_left, spanBytes, List.take_take, List.drop_take,
    Nat.min_eq_left (Nat.le_add_right _ _), Nat.add_sub_cancel_left]

private theorem run_writeSpans_cons {s : Span} {rest : List (Span × List UInt8)} {r : Except Errno Unit} :
    (writeSpans ((s, bytes) :: rest)).run a = .ok r a₁ ↔
      (∃ p a₂, (MemorySystem.frameOf s.address true).run a = .ok (.ok p) a₂ ∧ ∃ a₃, checkPageEnd s.address a₂ = .ok () a₃ ∧
        (writeSpans rest).run
          (MemorySystem.setFrame a₃ p ((MemorySystem.frame a₃ p).setBytes (pageOffset s.address) bytes)) = .ok r a₁) ∨
      ∃ e, (MemorySystem.frameOf s.address true).run a = .ok (.error e) a₁ ∧ r = .error e := by
  rw [writeSpans, Attempt.run_bind_eq_ok]
  refine or_congr_left (exists_congr fun p => exists_congr fun a₂ => and_congr_right fun _ => ?_)
  rw [Attempt.run_ofRun_bind, Run.bind_eq_ok]
  exact ⟨fun ⟨_, a₃, hcheck, hrest⟩ => ⟨a₃, hcheck, hrest⟩, fun ⟨a₃, hcheck, hrest⟩ => ⟨(), a₃, hcheck, hrest⟩⟩

private theorem writeSpans_failure
    (h : (writeSpans (spanBytes (pageSpans address bytes.length) bytes)).run a = .ok (.error e) a₁) :
    ∃ n a₀, n < bytes.length ∧ (n = 0 ∨ pageOffset (address + n) = 0) ∧
      (writeSpans (spanBytes (pageSpans address n) (bytes.take n))).run a = .ok (.ok ()) a₀ ∧
        (MemorySystem.frameOf (address + n) true).run a₀ = .ok (.error e) a₁ := by
  induction hn : bytes.length using Nat.strong_induction_on generalizing a address bytes with
  | _ n ih =>
    have hnil : ∀ a : MemoryAccess μ β, (writeSpans []).run a = .ok (.ok ()) a := fun _ => rfl
    by_cases hzero : n = 0
    · subst hzero
      rw [hn, pageSpans, if_pos rfl, spanBytes, hnil] at h
      exact absurd h (by simp)
    rw [hn, pageSpans_eq address hzero, spanBytes, run_writeSpans_cons] at h
    set first := min n (pageSize - pageOffset address) with hfirst
    have hpos : 0 < first := by
      simp only [hfirst, pageOffset, pageSize]
      omega
    rcases h with ⟨p, a₂, hframe, a₃, hcheck, hrest⟩ | ⟨e', hframe, he⟩
    · have hlength : (bytes.drop first).length = n - first := by rw [List.length_drop, hn]
      rw [← hlength] at hrest
      obtain ⟨n', a₀, hlt, hstart, hdone, hfail⟩ := ih (n - first) (by omega) hrest hlength
      have hpage : first = pageSize - pageOffset address := by omega
      rw [Nat.add_assoc] at hstart hfail
      refine ⟨first + n', a₀, by omega, .inr ?_, ?_, hfail⟩
      · rcases hstart with rfl | hstart
        · simp only [hpage, pageOffset, pageSize]
          omega
        · exact hstart
      · rw [spanBytes_pageSpans_add hpage, run_writeSpans_cons]
        exact .inl ⟨p, a₂, hframe, a₃, hcheck, hdone⟩
    · obtain rfl := Except.error.inj he
      exact ⟨0, a, Nat.pos_of_ne_zero hzero, .inl rfl, hnil a, hframe⟩

/-- A copy that fails has succeeded up to the start of some page, and the frame behind the next address is not to be
had. -/
theorem writeUser_failure (hlt : address + bytes.length < wordLimit)
    (h : (writeUser address bytes).run a = .ok (.error e) a₁) :
    ∃ n a₀, n < bytes.length ∧ (n = 0 ∨ pageOffset (address + n) = 0) ∧
      (writeUser address (bytes.take n)).run a = .ok (.ok ()) a₀ ∧
        (MemorySystem.frameOf (address + n) true).run a₀ = .ok (.error e) a₁ := by
  rw [writeUser, if_pos hlt] at h
  obtain ⟨n, a₀, hn, hstart, hdone, hfail⟩ := writeSpans_failure h
  have hlength : (bytes.take n).length = n := by
    rw [List.length_take]
    omega
  refine ⟨n, a₀, hn, hstart, ?_, hfail⟩
  rw [writeUser, hlength, if_pos (by omega)]
  exact hdone

end Access

end TrapKernel
