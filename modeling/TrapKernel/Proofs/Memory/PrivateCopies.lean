import TrapKernel.Proofs.Memory.UserCopies

/-!
# Copies in private memory

What an access to private memory may do: it keeps the pages that are there, makes new ones of zeros for its own
addresses only, and what it reads are the bytes at its addresses.

* `PrivateMemory.handleFault_spec`: page faults.
* `PrivateMemory.writeUser_spec`, `PrivateMemory.readUser_spec`, `PrivateMemory.readString_spec`: the copies.
-/

namespace TrapKernel

namespace PrivatePages

variable {s s' s'' : PrivatePages} {P P' : Nat → Prop}

/-- Whether a page has a place in the pages. -/
def Has (s : PrivatePages) (page : Nat) : Prop := (s page).isSome = true

/-- The byte at an address; zero where there is no page. -/
def byteAt (s : PrivatePages) (address : Nat) : UInt8 := ((s (pageOf address)).getD .zero).byte (pageOffset address)

/-- Whether all pages are still there, and nothing has happened but to those with property `P`. -/
structure Changes (P : Nat → Prop) (s s' : PrivatePages) : Prop where
  has : ∀ page, s.Has page → s'.Has page
  same : ∀ page, ¬P page → s' page = s page

/-- Whether besides that all pages have kept their bytes. -/
structure Grows (P : Nat → Prop) (s s' : PrivatePages) : Prop extends Changes P s s' where
  kept : ∀ page f, s page = some f → s' page = some f

private theorem has_set (s : PrivatePages) (page : Nat) (f : Frame) : (s.set page f).Has page := by
  rw [Has, set, if_pos rfl]
  rfl

theorem set_of_ne (s : PrivatePages) {page page' : Nat} (h : page' ≠ page) (f : Frame) :
    s.set page f page' = s page' := if_neg h

namespace Changes

private theorem refl (P : Nat → Prop) (s : PrivatePages) : Changes P s s := ⟨fun _ h => h, fun _ _ => rfl⟩

private theorem trans (h : Changes P s s') (h' : Changes P s' s'') : Changes P s s'' :=
  ⟨fun page hp => h'.has page (h.has page hp), fun page hp => (h'.same page hp).trans (h.same page hp)⟩

private theorem mono (h : Changes P s s') (hP : ∀ page, P page → P' page) : Changes P' s s' :=
  ⟨h.has, fun page hp => h.same page fun hpage => hp (hP page hpage)⟩

theorem set (s : PrivatePages) (page : Nat) (f : Frame) : Changes (· = page) s (s.set page f) := by
  refine ⟨fun page' hp => ?_, fun page' hne => s.set_of_ne hne f⟩
  by_cases h : page' = page
  · rw [h]
    exact s.has_set page f
  · rwa [Has, s.set_of_ne h]

end Changes

namespace Grows

private theorem refl (P : Nat → Prop) (s : PrivatePages) : Grows P s s := ⟨.refl P s, fun _ _ h => h⟩

private theorem trans (h : Grows P s s') (h' : Grows P s' s'') : Grows P s s'' :=
  ⟨h.toChanges.trans h'.toChanges, fun page f hf => h'.kept page f (h.kept page f hf)⟩

private theorem mono (h : Grows P s s') (hP : ∀ page, P page → P' page) : Grows P' s s' := ⟨h.toChanges.mono hP, h.kept⟩

private theorem set {page : Nat} (hpage : s page = none) (f : Frame) : Grows (· = page) s (s.set page f) where
  toChanges := .set s page f
  kept page' f' hf' := by
    rwa [s.set_of_ne]
    rintro rfl
    exact absurd (hpage.symm.trans hf') (by simp)

private theorem byteAt_eq (h : Grows P s s') {address : Nat} (hp : s.Has (pageOf address)) :
    s'.byteAt address = s.byteAt address := by
  obtain ⟨f, hf⟩ := Option.isSome_iff_exists.mp hp
  rw [byteAt, byteAt, hf, h.kept _ _ hf]

end Grows

/-- The bytes of a span that lies in one page. -/
theorem bytes_eq (s : PrivatePages) {x : Span} (hx : pageOffset x.address + x.length ≤ pageSize) :
    ((s (pageOf x.address)).getD .zero).bytes (pageOffset x.address) x.length = x.addresses.map s.byteAt := by
  rw [Frame.bytes, Span.addresses, List.range'_eq_map_range, List.range'_eq_map_range, List.map_map, List.map_map]
  refine List.map_congr_left fun i hi => ?_
  have hlt := List.mem_range.mp hi
  have hpage : pageOf (x.address + i) = pageOf x.address := by
    simp only [pageOffset, pageOf, pageSize] at hx ⊢
    omega
  have hoffset : pageOffset (x.address + i) = pageOffset x.address + i := by
    simp only [pageOffset, pageSize] at hx ⊢
    omega
  rw [Function.comp, Function.comp, byteAt, hpage, hoffset]

end PrivatePages

namespace PrivateMemory

open PrivatePages

variable {a : PrivateAccess}

/-! ### Faults -/

theorem needRoom_spec :
    needRoom.Ensures a (fun r a' => a'.user = a.user ∧ (r = .ok () ∨ r = .error .noMemory)) fun _ _ => False := by
  unfold needRoom
  rw [Attempt.ensures_bind, Attempt.ensures_ofRun, Run.ensures_within]
  refine Run.ensures_of_eq_ok (show hasRoom a.memory = _ from rfl) ?_
  dsimp only
  split
  · exact ⟨rfl, .inl rfl⟩
  · exact ⟨rfl, .inr rfl⟩

/-- A page fault keeps the bytes of all pages, and afterwards the page of the address is there, unless there is no room
for it or the address is none of the process's. -/
theorem handleFault_spec (a : PrivateAccess) (address : Nat) (write : Bool) :
    (handleFault address write).Ensures a
      (fun r a' => Grows (· = pageOf address) a.user.space a'.user.space ∧
        (r = .ok () → a'.user.space.Has (pageOf address)) ∧
        (a.user.space (pageOf address) = none → a.user.isDemandZero address = false → r = .error .badAddress))
      fun _ _ => False := by
  unfold handleFault
  simp only [Attempt.ensures_bind, Attempt.ensures_get]
  cases hspace : a.user.space (pageOf address) with
  | some f =>
    have hhas : a.user.space.Has (pageOf address) := by rw [Has, hspace]; rfl
    dsimp only
    split
    · refine needRoom_spec.mono ?_
      rintro r a' ⟨huser, _⟩
      rw [huser]
      exact ⟨.refl _ _, fun _ => hhas, by simp⟩
    · exact ⟨.refl _ _, fun _ => hhas, by simp⟩
  | none =>
    dsimp only
    split
    next hzero =>
      rw [Attempt.ensures_bind]
      refine needRoom_spec.mono ?_
      rintro r a' ⟨huser, _⟩
      cases r with
      | error e =>
        refine ⟨?_, by simp, fun _ hzero' => absurd (hzero.symm.trans hzero') (by simp)⟩
        rw [huser]
        exact .refl _ _
      | ok =>
        rw [Attempt.ensures_modify, huser]
        exact ⟨.set hspace .zero, fun _ => has_set _ _ _, fun _ hzero' => absurd (hzero.symm.trans hzero') (by simp)⟩
    next hzero => exact ⟨.refl _ _, by simp, fun _ _ => rfl⟩

theorem frameOf_spec (a : PrivateAccess) (address : Nat) (write : Bool) :
    (frameOf address write).Ensures a
      (fun r a' => Grows (· = pageOf address) a.user.space a'.user.space ∧
        (∀ p, r = .ok p → p = pageOf address ∧ a'.user.space.Has (pageOf address)) ∧
        (a.user.space (pageOf address) = none → a.user.isDemandZero address = false → r = .error .badAddress))
      fun _ _ => False := by
  unfold frameOf
  rw [Attempt.ensures_bind]
  refine (handleFault_spec a address write).mono ?_
  rintro r a' ⟨hgrows, hhas, hnone⟩
  cases r with
  | error e => exact ⟨hgrows, by simp, fun hpage hzero => by simpa using hnone hpage hzero⟩
  | ok =>
    refine ⟨hgrows, fun p hp => ⟨(Except.ok.inj hp).symm, hhas rfl⟩, fun hpage hzero => ?_⟩
    exact absurd (hnone hpage hzero) (by simp)

/-! ### Spans -/

theorem checkPageEnd_ensures {address : Nat} {Q : Unit → PrivateAccess → Prop} (hQ : Q () a) :
    (Access.checkPageEnd address).Ensures a Q fun _ _ => True :=
  (Access.checkPageEnd_spec False.elim hQ).imp (fun _ _ h => h) fun _ _ _ => trivial

/-- Writes change the pages of their spans only. -/
private theorem writeSpans_spec (a : PrivateAccess) (l : List (Span × List UInt8)) :
    (Access.writeSpans l : Attempt PrivateAccess Unit).Ensures a
      (fun r a' => Changes (fun page => ∃ s ∈ l.map Prod.fst, pageOf s.address = page) a.user.space a'.user.space ∧
        (r = .ok () → ∀ s ∈ l.map Prod.fst, a'.user.space.Has (pageOf s.address)) ∧
        (∀ s ∈ (l.map Prod.fst).head?, a.user.space (pageOf s.address) = none →
          a.user.isDemandZero s.address = false → r = .error .badAddress))
      fun _ _ => True := by
  induction l generalizing a with
  | nil => exact ⟨.refl _ _, by simp, by simp⟩
  | cons y rest ih =>
    obtain ⟨s, bytes⟩ := y
    unfold Access.writeSpans
    rw [Attempt.ensures_bind]
    refine Run.Ensures.imp (frameOf_spec a s.address true) ?_ fun _ _ => False.elim
    rintro r a₁ ⟨hgrows, hhas, hnone⟩
    have hhead : ∀ page, page = pageOf s.address →
        ∃ s' ∈ ((s, bytes) :: rest).map Prod.fst, pageOf s'.address = page :=
      fun page hpage => ⟨s, List.mem_cons_self, hpage.symm⟩
    have htail : ∀ page, (∃ s' ∈ rest.map Prod.fst, pageOf s'.address = page) →
        ∃ s' ∈ ((s, bytes) :: rest).map Prod.fst, pageOf s'.address = page := by
      rintro page ⟨s', hs', hpage⟩
      exact ⟨s', List.mem_cons_of_mem _ hs', hpage⟩
    cases r with
    | error e =>
      refine ⟨hgrows.toChanges.mono hhead, by simp, fun s' hs' hpage hzero => ?_⟩
      obtain rfl : s = s' := by simpa using hs'
      simpa using hnone hpage hzero
    | ok p =>
      obtain ⟨rfl, hp⟩ := hhas p rfl
      dsimp only
      rw [Attempt.ensures_bind, Attempt.ensures_ofRun]
      refine checkPageEnd_ensures ?_
      rw [Attempt.ensures_bind, Attempt.ensures_modify]
      refine (ih _).mono ?_
      rintro r a₂ ⟨hchanges, hhas', _⟩
      have hset := Changes.set a₁.user.space (pageOf s.address)
        (((a₁.user.space (pageOf s.address)).getD .zero).setBytes (pageOffset s.address) bytes)
      refine ⟨((hgrows.toChanges.trans hset).mono hhead).trans (hchanges.mono htail), fun hr => ?_,
        fun s' hs' hpage hzero => ?_⟩
      · exact List.forall_mem_cons.mpr ⟨hchanges.has _ (hset.has _ hp), hhas' hr⟩
      · obtain rfl : s = s' := by simpa using hs'
        exact absurd (hnone hpage hzero) (by simp)

/-- Reads keep all pages, and what they read are the bytes at the addresses of their spans. -/
private theorem readSpans_spec (a : PrivateAccess) {l : List Span}
    (hl : ∀ s ∈ l, pageOffset s.address + s.length ≤ pageSize) :
    (Access.readSpans l : Attempt PrivateAccess (List UInt8)).Ensures a
      (fun r a' => Grows (fun page => ∃ s ∈ l, pageOf s.address = page) a.user.space a'.user.space ∧
        (∀ bytes, r = .ok bytes → (∀ s ∈ l, a'.user.space.Has (pageOf s.address)) ∧
          bytes = (l.flatMap Span.addresses).map a'.user.space.byteAt) ∧
        (∀ s ∈ l.head?, a.user.space (pageOf s.address) = none →
          a.user.isDemandZero s.address = false → r = .error .badAddress))
      fun _ _ => True := by
  induction l generalizing a with
  | nil => exact ⟨.refl _ _, fun bytes hr => ⟨by simp, (Except.ok.inj hr).symm⟩, by simp⟩
  | cons s rest ih =>
    obtain ⟨hs, hrest⟩ := List.forall_mem_cons.mp hl
    unfold Access.readSpans
    rw [Attempt.ensures_bind]
    refine Run.Ensures.imp (frameOf_spec a s.address false) ?_ fun _ _ => False.elim
    rintro r a₁ ⟨hgrows, hhas, hnone⟩
    have hhead : ∀ page, page = pageOf s.address → ∃ s' ∈ s :: rest, pageOf s'.address = page :=
      fun page hpage => ⟨s, List.mem_cons_self, hpage.symm⟩
    have htail : ∀ page, (∃ s' ∈ rest, pageOf s'.address = page) → ∃ s' ∈ s :: rest, pageOf s'.address = page := by
      rintro page ⟨s', hs', hpage⟩
      exact ⟨s', List.mem_cons_of_mem _ hs', hpage⟩
    cases r with
    | error e =>
      refine ⟨hgrows.mono hhead, by simp, fun s' hs' hpage hzero => ?_⟩
      obtain rfl : s = s' := by simpa using hs'
      simpa using hnone hpage hzero
    | ok p =>
      obtain ⟨rfl, hp⟩ := hhas p rfl
      dsimp only
      rw [Attempt.ensures_bind, Attempt.ensures_ofRun]
      refine checkPageEnd_ensures ?_
      rw [Attempt.ensures_bind, Attempt.ensures_get]
      dsimp only
      rw [Attempt.ensures_bind]
      refine (ih a₁ hrest).mono ?_
      rintro r a₂ ⟨hgrows', hbytes, _⟩
      have hall := (hgrows.mono hhead).trans (hgrows'.mono htail)
      have hfirst : ∀ r : Except Errno (List UInt8), ∀ s' ∈ (s :: rest).head?, a.user.space (pageOf s'.address) = none →
          a.user.isDemandZero s'.address = false → r = .error .badAddress := fun r s' hs' hpage hzero => by
        obtain rfl : s = s' := by simpa using hs'
        exact absurd (hnone hpage hzero) (by simp)
      cases r with
      | error e => exact ⟨hall, by simp, hfirst _⟩
      | ok bytes =>
        obtain ⟨hhas', hbytes⟩ := hbytes bytes rfl
        refine ⟨hall, fun bytes' hr => ⟨List.forall_mem_cons.mpr ⟨hgrows'.has _ hp, hhas'⟩, ?_⟩, hfirst _⟩
        rw [← Except.ok.inj hr, List.flatMap_cons, List.map_append, ← hbytes]
        congr 1
        refine (bytes_eq a₁.user.space hs).trans (List.map_congr_left fun x hx => ?_)
        have hpage := pageOf_of_mem_addresses hs hx
        exact (hgrows'.byteAt_eq (hpage ▸ hp)).symm

/-! ### Copies -/

/-- Whether nothing can be at an address: it lies in no page and neither in heap nor in stack. -/
def Outside (a : PrivateAccess) (address : Nat) : Prop :=
  a.user.space (pageOf address) = none ∧ a.user.isDemandZero address = false

/-- A write changes the pages of its addresses only, and if it succeeds they are all there. -/
theorem writeUser_spec (a : PrivateAccess) (address : Nat) (bytes : List UInt8) :
    (Access.writeUser address bytes : Attempt PrivateAccess Unit).Ensures a
      (fun r a' => Changes (InPages address bytes.length) a.user.space a'.user.space ∧
        (r = .ok () → ∀ page, InPages address bytes.length page → a'.user.space.Has page) ∧
        (bytes ≠ [] → Outside a address → r = .error .badAddress))
      fun _ _ => True := by
  unfold Access.writeUser
  split
  swap
  · exact ⟨.refl _ _, by simp, fun _ _ => rfl⟩
  refine (writeSpans_spec a _).mono ?_
  rintro r a' ⟨hchanges, hhas, hnone⟩
  rw [map_fst_spanBytes] at hchanges hhas hnone
  refine ⟨hchanges.mono fun page => exists_span_iff.mp, fun hr page hpage => ?_, ?_⟩
  · obtain ⟨s, hs, rfl⟩ := exists_span_iff.mpr hpage
    exact hhas hr s hs
  · rintro hbytes ⟨hpage, hzero⟩
    obtain ⟨s, rest, hcons, haddress⟩ := pageSpans_eq_cons address (fun h => hbytes (List.length_eq_zero_iff.mp h))
    exact hnone s (by rw [hcons]; rfl) (haddress ▸ hpage) (haddress ▸ hzero)

/-- A read keeps all pages, and if it succeeds those of its addresses are there and the bytes are theirs. -/
theorem readUser_spec (a : PrivateAccess) (address length : Nat) :
    (Access.readUser address length : Attempt PrivateAccess (List UInt8)).Ensures a
      (fun r a' => Grows (InPages address length) a.user.space a'.user.space ∧
        (∀ bytes, r = .ok bytes → (∀ page, InPages address length page → a'.user.space.Has page) ∧
          bytes = (List.range' address length).map a'.user.space.byteAt) ∧
        (length ≠ 0 → Outside a address → r = .error .badAddress))
      fun _ _ => True := by
  unfold Access.readUser
  split
  swap
  · exact ⟨.refl _ _, by simp, fun _ _ => rfl⟩
  refine (readSpans_spec a fun s => offset_add_le_of_mem_pageSpans).mono ?_
  rintro r a' ⟨hgrows, hbytes, hnone⟩
  refine ⟨hgrows.mono fun page => exists_span_iff.mp, fun bytes hr => ⟨fun page hpage => ?_, ?_⟩, ?_⟩
  · obtain ⟨s, hs, rfl⟩ := exists_span_iff.mpr hpage
    exact (hbytes bytes hr).1 s hs
  · rw [(hbytes bytes hr).2, flatMap_addresses_pageSpans]
  · rintro hlength ⟨hpage, hzero⟩
    obtain ⟨s, rest, hcons, haddress⟩ := pageSpans_eq_cons address hlength
    exact hnone s (by rw [hcons]; rfl) (haddress ▸ hpage) (haddress ▸ hzero)

/-- What is read up to a zero byte are the bytes at successive addresses, and the zero byte is that at the next one. -/
private theorem readUntilZero_spec (a : PrivateAccess) (address n i : Nat) :
    (Access.readUntilZero address n i : Attempt PrivateAccess (List UInt8)).Ensures a
      (fun r a' => Grows (InPages (address + i) n) a.user.space a'.user.space ∧
        (∀ bytes, r = .ok bytes → (∀ page, InPages (address + i) (bytes.length + 1) page → a'.user.space.Has page) ∧
          bytes ++ [0] = (List.range' (address + i) (bytes.length + 1)).map a'.user.space.byteAt) ∧
        (n ≠ 0 → Outside a (address + i) → r = .error .badAddress))
      fun _ _ => True := by
  induction n generalizing a i with
  | zero => exact ⟨.refl _ _, by simp, by simp⟩
  | succ n ih =>
    unfold Access.readUntilZero
    split
    swap
    · exact ⟨.refl _ _, by simp, fun _ _ => rfl⟩
    rw [Attempt.ensures_bind]
    refine (readUser_spec a (address + i) 1).mono ?_
    rintro r a₁ ⟨hgrows, hbytes, hnone⟩
    have hgrows₁ := hgrows.mono fun page h => h.mono (Nat.le_refl (address + i)) (by omega : _ ≤ address + i + (n + 1))
    cases r with
    | error e => exact ⟨hgrows₁, by simp, fun _ houtside => by simpa using hnone Nat.one_ne_zero houtside⟩
    | ok bytes =>
      obtain ⟨hhas, hbytes⟩ := hbytes bytes rfl
      rw [List.range'_one, List.map_singleton] at hbytes
      subst hbytes
      have hinside : ∀ r : Except Errno (List UInt8), n + 1 ≠ 0 → Outside a (address + i) → r = .error .badAddress :=
        fun _ _ houtside => absurd (hnone Nat.one_ne_zero houtside) (by simp)
      have hpage : a₁.user.space.Has (pageOf (address + i)) := hhas _ ⟨_, Nat.le_refl _, Nat.lt_succ_self _, rfl⟩
      show Attempt.Ensures (if a₁.user.space.byteAt (address + i) = 0 then _ else _) _ _ _
      split
      next hzero =>
        refine ⟨hgrows₁, fun bytes hr => ?_, hinside _⟩
        obtain rfl := Except.ok.inj hr
        exact ⟨hhas, by rw [List.nil_append, List.length_nil, List.range'_one, List.map_singleton, hzero]⟩
      next hzero =>
        rw [Attempt.ensures_bind]
        refine (ih a₁ (i + 1)).mono ?_
        rintro r a₂ ⟨hgrows', hrest, _⟩
        have hgrows₂ := hgrows₁.trans
          (hgrows'.mono fun page h => h.mono (by omega : address + i ≤ _) (by omega : _ ≤ address + i + (n + 1)))
        cases r with
        | error e => exact ⟨hgrows₂, by simp, hinside _⟩
        | ok rest =>
          obtain ⟨hhas', hrest⟩ := hrest rest rfl
          refine ⟨hgrows₂, fun bytes hr => ?_, hinside _⟩
          obtain rfl := Except.ok.inj hr
          constructor
          · rintro page ⟨x, hle, hlt, hx⟩
            by_cases hstart : x = address + i
            · rw [← hx, hstart]
              exact hgrows'.has _ hpage
            · rw [List.length_cons] at hlt
              exact hhas' page ⟨x, by omega, by omega, hx⟩
          · show a₁.user.space.byteAt (address + i) :: (rest ++ [0]) = _
            rw [List.length_cons, List.range'_succ, List.map_cons, hgrows'.byteAt_eq hpage, hrest]
            rfl

/-- What is read as a text are the bytes at successive addresses, and a zero byte follows them. -/
theorem readString_spec (a : PrivateAccess) (address : Nat) :
    (Access.readString address : Attempt PrivateAccess String).Ensures a
      (fun r a' => Grows (InPages address pathLimit) a.user.space a'.user.space ∧
        (∀ text, r = .ok text →
          (∀ page, InPages address (text.utf8ByteSize + 1) page → a'.user.space.Has page) ∧
          text.toByteArray.data.toList ++ [0] =
            (List.range' address (text.utf8ByteSize + 1)).map a'.user.space.byteAt) ∧
        (Outside a address → r = .error .badAddress))
      fun _ _ => True := by
  unfold Access.readString
  rw [Attempt.ensures_bind]
  refine (readUntilZero_spec a address pathLimit 0).mono ?_
  rintro r a' ⟨hgrows, hbytes, hnone⟩
  have hpath : pathLimit ≠ 0 := by decide
  cases r with
  | error e => exact ⟨hgrows, by simp, fun houtside => by simpa using hnone hpath houtside⟩
  | ok bytes =>
    obtain ⟨hhas, hbytes⟩ := hbytes bytes rfl
    have hinside : ∀ r : Except Errno String, Outside a address → r = .error .badAddress :=
      fun _ houtside => absurd (hnone hpath houtside) (by simp)
    dsimp only
    split
    next text htext =>
      have htext : text.toByteArray = ByteArray.mk bytes.toArray := by
        unfold String.fromUTF8? at htext
        split at htext
        · rw [← Option.some.inj htext]
          rfl
        · exact absurd htext (by simp)
      have hsize : text.utf8ByteSize = bytes.length := by
        rw [← String.size_toByteArray, htext]
        rfl
      refine ⟨hgrows, fun text' hr => ?_, hinside _⟩
      obtain rfl := Except.ok.inj hr
      rw [hsize, htext]
      exact ⟨hhas, hbytes⟩
    · exact ⟨hgrows, by simp, hinside _⟩

end PrivateMemory

end TrapKernel
