import TrapKernel.Proofs.Memory.Faults
import TrapKernel.Proofs.Memory.Spans

/-!
# Copies in sound memory

The kernel copies bytes between its own memory and that of a process page by page, and after the first page it goes on
as long as the page before was there. So the copies do in paged memory what they do in private memory, if the page
table does not take the first page for another one.

* `Access.writeUser_spec`, `Access.readUser_spec`, `Access.readString_spec`: the copies.
* `UserMemory.setBrk_spec`: the move of the end of the heap.
* `UserMemory.checkRange_privately`: the check of a range, which asks about pages below the end of the stack only.
-/

namespace TrapKernel

namespace Access

variable {a a' : Access} {foreign : Surroundings} {owned held : List Nat} {ok : Prop}

/-! ### Bytes -/

theorem checkPageEnd_spec {σ : Type} {s : σ} {address : Nat} {Q : Unit → σ → Prop}
    (h : ok → pageOf address < pageLimit) (hQ : Q () s) : (checkPageEnd address).Ensures s Q fun p _ => Stops ok p := by
  unfold checkPageEnd
  simp only [Run.ensures_bind, Run.ensures_mulWords, Run.ensures_pure]
  split
  · exact hQ
  next hover =>
    refine ⟨fun hk => hover ?_, fun ⟨_, h⟩ => absurd h (by simp)⟩
    have := h hk
    simp only [pageLimit, pageSize, wordLimit] at this ⊢
    omega

private theorem checkPageEnd_follows {σ τ : Type} {image : τ → Answers → σ} {s : τ} {address : Nat}
    (h : pageOf address < pageLimit) : Run.Follows image (checkPageEnd address) s s () := by
  refine .of_forall fun rest => Run.Ensures.eq_ok ?_
  exact (checkPageEnd_spec (fun _ : True => h) ⟨rfl, rfl⟩).imp (fun _ _ h => h) fun _ _ h => h.not_ok trivial

/-- The page after one that was got for an access is not too large for the page table. -/
private theorem next_lt_pageLimit (h : a.Sound foreign owned held) {page p : Nat} {write : Bool}
    (hp : a.Behind page write p) (hlt : page < pageLimit) : page + 1 < pageLimit := by
  obtain ⟨e, he, -, -⟩ := hp
  have hpage := h.page_lt hlt he
  simp only [stackTop, pageSize, pageLimit] at hpage ⊢
  omega

private theorem writeSpans_spec (h : a.Sound foreign owned held) {l : List (Span × List UInt8)}
    (hchain : (l.map Prod.fst).IsChain Span.Next)
    (hok : ok → ∀ s ∈ (l.map Prod.fst).head?, a.Plain (pageOf s.address)) :
    (writeSpans l).Ensures a
      (fun r a' => Leads foreign owned held a a' ∧ (ok → Attempt.Follows privately (writeSpans l) a a' r))
      fun p _ => Stops ok p := by
  induction l generalizing a with
  | nil => exact ⟨.refl h, fun _ => .of_pure⟩
  | cons y rest ih =>
    obtain ⟨s, bytes⟩ := y
    rw [List.map_cons, List.isChain_cons] at hchain
    unfold writeSpans
    rw [Attempt.ensures_bind]
    refine (frameOf_spec h s.address true fun hk => hok hk s rfl).mono ?_
    rintro r a₁ ⟨hleads₁, hbehind, hfollows₁⟩
    cases r with
    | error e => exact ⟨hleads₁, fun hk => .bind_error (hfollows₁ hk).2⟩
    | ok p =>
      have hp := hbehind p rfl
      have hlt : ok → pageOf s.address < pageLimit := fun hk => (hfollows₁ hk).1 p rfl
      dsimp only
      rw [Attempt.ensures_bind, Attempt.ensures_ofRun]
      refine checkPageEnd_spec hlt ?_
      rw [Attempt.ensures_bind, Attempt.ensures_modify]
      obtain ⟨hleads₂, hset⟩ := setFrame_spec hleads₁.sound hp
        ((a₁.memory.frame p).setBytes (pageOffset s.address) bytes)
      have hnext : ok → ∀ s' ∈ (rest.map Prod.fst).head?, pageOf s'.address < pageLimit := fun hk s' hs' => by
        rw [hchain.1 s' hs']
        exact next_lt_pageLimit hleads₁.sound hp (hlt hk)
      refine (ih hleads₂.sound hchain.2 fun hk s' hs' => plain_of_lt (hnext hk s' hs')).mono ?_
      rintro r a₃ ⟨hleads₃, hfollows₃⟩
      refine ⟨(hleads₁.trans hleads₂).trans hleads₃, fun hk => ?_⟩
      refine .bind (hfollows₁ hk).2 (.bind (.ofRun (checkPageEnd_follows (hlt hk))) (.bind (.of_modify ?_) (hfollows₃ hk)))
      intro answers
      have hcontent := content_of_behind hleads₁.sound hp (hlt hk)
      rw [hset (hlt hk)]
      show MemoryAccess.mk { (a₁.privately answers).user with
        space := PrivatePages.set (a₁.user.space.content a₁.memory) (pageOf s.address)
          (((a₁.user.space.content a₁.memory (pageOf s.address)).getD .zero).setBytes _ _) } answers = _
      rw [hcontent]
      rfl

private theorem readSpans_spec (h : a.Sound foreign owned held) {l : List Span} (hchain : l.IsChain Span.Next)
    (hok : ok → ∀ s ∈ l.head?, a.Plain (pageOf s.address)) :
    (readSpans l).Ensures a
      (fun r a' => Leads foreign owned held a a' ∧
        (ok → (∀ bytes, r = .ok bytes → ∀ s ∈ l, pageOf s.address + 1 < pageLimit) ∧
          Attempt.Follows privately (readSpans l) a a' r))
      fun p _ => Stops ok p := by
  induction l generalizing a with
  | nil => exact ⟨.refl h, fun _ => ⟨by simp, .of_pure⟩⟩
  | cons s rest ih =>
    rw [List.isChain_cons] at hchain
    unfold readSpans
    rw [Attempt.ensures_bind]
    refine (frameOf_spec h s.address false fun hk => hok hk s rfl).mono ?_
    rintro r a₁ ⟨hleads₁, hbehind, hfollows₁⟩
    cases r with
    | error e => exact ⟨hleads₁, fun hk => ⟨by simp, .bind_error (hfollows₁ hk).2⟩⟩
    | ok p =>
      have hp := hbehind p rfl
      have hlt : ok → pageOf s.address < pageLimit := fun hk => (hfollows₁ hk).1 p rfl
      have hlt' : ok → pageOf s.address + 1 < pageLimit := fun hk => next_lt_pageLimit hleads₁.sound hp (hlt hk)
      dsimp only
      rw [Attempt.ensures_bind, Attempt.ensures_ofRun]
      refine checkPageEnd_spec hlt ?_
      rw [Attempt.ensures_bind, Attempt.ensures_get]
      dsimp only
      rw [Attempt.ensures_bind]
      have hnext : ok → ∀ s' ∈ rest.head?, pageOf s'.address < pageLimit := fun hk s' hs' => by
        rw [hchain.1 s' hs']
        exact hlt' hk
      refine (ih hleads₁.sound hchain.2 fun hk s' hs' => plain_of_lt (hnext hk s' hs')).mono ?_
      rintro r a₂ ⟨hleads₂, hfollows₂⟩
      have hstart : ∀ {r : Except Errno (List UInt8)}, ok → Attempt.Follows privately (do
          let bytes := (a₁.memory.frame p).bytes (pageOffset s.address) s.length
          return bytes ++ (← readSpans rest)) a₁ a₂ r → Attempt.Follows privately (readSpans (s :: rest)) a a₂ r := by
        intro r hk hrest
        refine .bind (hfollows₁ hk).2 (.bind (.ofRun (checkPageEnd_follows (hlt hk))) (.of_get (fun answers => ?_) hrest))
        have hframe : MemorySystem.frame (a₁.privately answers) (pageOf s.address) = a₁.memory.frame p := by
          show (a₁.user.space.content a₁.memory (pageOf s.address)).getD .zero = _
          rw [content_of_behind hleads₁.sound hp (hlt hk)]
          rfl
        rw [hframe]
      cases r with
      | error e => exact ⟨hleads₁.trans hleads₂, fun hk => ⟨by simp, hstart hk (.bind_error (hfollows₂ hk).2)⟩⟩
      | ok bytes =>
        refine ⟨hleads₁.trans hleads₂, fun hk => ⟨fun _ _ => ?_, hstart hk (.bind (hfollows₂ hk).2 .of_pure)⟩⟩
        exact List.forall_mem_cons.mpr ⟨hlt' hk, (hfollows₂ hk).1 bytes rfl⟩

/-! ### Copies -/

/-- Bytes are copied to paged memory as to private memory. -/
theorem writeUser_spec (h : a.Sound foreign owned held) (address : Nat) (bytes : List UInt8)
    (hok : ok → a.Plain (pageOf address)) :
    (writeUser address bytes).Ensures a
      (fun r a' => Leads foreign owned held a a' ∧ (ok → Attempt.Follows privately (writeUser address bytes) a a' r))
      fun p _ => Stops ok p := by
  unfold writeUser
  split
  · refine writeSpans_spec h ?_ fun hk s hs => ?_
    · rw [map_fst_spanBytes]
      exact isChain_pageSpans _ _
    · rw [map_fst_spanBytes] at hs
      rw [pageOf_head?_pageSpans _ _ s hs]
      exact hok hk
  · exact ⟨.refl h, fun _ => .of_throw⟩

/-- Bytes are copied from paged memory as from private memory. -/
theorem readUser_spec (h : a.Sound foreign owned held) (address length : Nat) (hok : ok → a.Plain (pageOf address)) :
    (readUser address length).Ensures a
      (fun r a' => Leads foreign owned held a a' ∧
        (ok → (∀ bytes, r = .ok bytes → ∀ s ∈ pageSpans address length, pageOf s.address + 1 < pageLimit) ∧
          Attempt.Follows privately (readUser address length) a a' r))
      fun p _ => Stops ok p := by
  unfold readUser
  split
  · refine readSpans_spec h (isChain_pageSpans _ _) fun hk s hs => ?_
    rw [pageOf_head?_pageSpans _ _ s hs]
    exact hok hk
  · exact ⟨.refl h, fun _ => ⟨by simp, .of_throw⟩⟩

private theorem readUntilZero_spec (h : a.Sound foreign owned held) (address n i : Nat)
    (hok : ok → a.Plain (pageOf (address + i))) :
    (readUntilZero address n i).Ensures a
      (fun r a' => Leads foreign owned held a a' ∧ (ok → Attempt.Follows privately (readUntilZero address n i) a a' r))
      fun p _ => Stops ok p := by
  induction n generalizing a i with
  | zero => exact ⟨.refl h, fun _ => .of_throw⟩
  | succ n ih =>
    unfold readUntilZero
    split
    swap
    · exact ⟨.refl h, fun _ => .of_throw⟩
    rw [Attempt.ensures_bind]
    refine (readUser_spec h (address + i) 1 hok).mono ?_
    rintro r a₁ ⟨hleads₁, hfollows₁⟩
    cases r with
    | error e => exact ⟨hleads₁, fun hk => .bind_error (hfollows₁ hk).2⟩
    | ok bytes =>
      dsimp only
      split
      next hzero =>
        refine ⟨hleads₁, fun hk => .bind (hfollows₁ hk).2 ?_⟩
        rw [if_pos hzero]
        exact .of_pure
      next hzero =>
        have hnext : ok → pageOf (address + (i + 1)) < pageLimit := fun hk => by
          have hin : InPages (address + i) 1 (pageOf (address + i)) := ⟨_, Nat.le_refl _, Nat.lt_succ_self _, rfl⟩
          obtain ⟨s, hs, hpage⟩ := exists_span_iff.mpr hin
          have hlt := (hfollows₁ hk).1 bytes rfl s hs
          rw [hpage] at hlt
          simp only [pageOf, pageSize, pageLimit] at hlt ⊢
          omega
        rw [Attempt.ensures_bind]
        refine (ih hleads₁.sound (i + 1) fun hk => plain_of_lt (hnext hk)).mono ?_
        rintro r a₂ ⟨hleads₂, hfollows₂⟩
        have hstart : ∀ {r : Except Errno (List UInt8)}, ok → Attempt.Follows privately
            (do return bytes.headD 0 :: (← readUntilZero address n (i + 1))) a₁ a₂ r →
            Attempt.Follows privately (do
              let b := (← readUser (address + i) 1).headD 0
              if b = 0 then return [] else return b :: (← readUntilZero address n (i + 1))) a a₂ r := by
          intro r hk hrest
          refine .bind (hfollows₁ hk).2 ?_
          rw [if_neg hzero]
          exact hrest
        cases r with
        | error e => exact ⟨hleads₁.trans hleads₂, fun hk => hstart hk (.bind_error (hfollows₂ hk))⟩
        | ok rest => exact ⟨hleads₁.trans hleads₂, fun hk => hstart hk (.bind (hfollows₂ hk) .of_pure)⟩

/-- A text is read from paged memory as from private memory. -/
theorem readString_spec (h : a.Sound foreign owned held) (address : Nat) (hok : ok → a.Plain (pageOf address)) :
    (readString address).Ensures a
      (fun r a' => Leads foreign owned held a a' ∧ (ok → Attempt.Follows privately (readString address) a a' r))
      fun p _ => Stops ok p := by
  unfold readString
  rw [Attempt.ensures_bind]
  refine (readUntilZero_spec h address pathLimit 0 hok).mono ?_
  rintro r a₁ ⟨hleads₁, hfollows₁⟩
  cases r with
  | error e => exact ⟨hleads₁, fun hk => .bind_error (hfollows₁ hk)⟩
  | ok bytes =>
    dsimp only
    split
    next text htext =>
      refine ⟨hleads₁, fun hk => .bind (hfollows₁ hk) ?_⟩
      rw [htext]
      exact .of_pure
    next htext =>
      refine ⟨hleads₁, fun hk => .bind (hfollows₁ hk) ?_⟩
      rw [htext]
      exact .of_throw

end Access

/-! ### The heap -/

private theorem pageAbove_eq {σ : Type} {address : Nat} (h : address + pageSize < wordLimit) :
    (pageAbove address : Run σ Nat) = pure ((address + pageSize - 1) / pageSize) := by
  unfold pageAbove addWords
  rw [if_pos h]
  rfl

namespace UserMemory

/-- The pages that the heap has when it ends at an address. -/
def heapEnd (brk : UInt64) : Nat := (brk.toNat + pageSize - 1) / pageSize

/-- Where the move of the end of the heap drops pages, if the heap ends below the stack. -/
theorem setBrk_eq {μ β : Type} [MemorySystem μ β] {u : UserMemory β}
    (hbrk : u.brk = u.heapStart ∨ u.brk.toNat < stackBottom) (brk : UInt64) :
    (u.setBrk brk : Run μ (UserMemory β)) =
      if u.heapStart ≤ brk ∧ brk.toNat < stackBottom then
        if h : brk < u.brk ∧ heapEnd brk < heapEnd u.brk then do
          let space ← MemorySystem.unmapRange u.space ⟨heapEnd brk, heapEnd u.brk, Nat.le_of_lt h.2⟩
          return { u with brk, space }
        else return { u with brk }
      else return u := by
  unfold setBrk
  split
  next hrange =>
    split
    next hlt =>
      have hlt' : brk.toNat < u.brk.toNat := hlt
      have hend : u.brk.toNat < stackBottom := hbrk.resolve_left fun heq => by
        have hle : u.heapStart.toNat ≤ brk.toNat := hrange.1
        rw [heq] at hlt'
        omega
      rw [pageAbove_eq (by simp only [pageSize, wordLimit, stackBottom, stackTop] at hend ⊢; omega),
        pageAbove_eq (by simp only [pageSize, wordLimit, stackBottom, stackTop] at hend ⊢; omega), pure_bind, pure_bind]
      by_cases hpages : heapEnd brk < heapEnd u.brk
      · unfold heapEnd at hpages ⊢
        rw [if_pos hpages, dif_pos ⟨hlt, hpages⟩, pageRange, dif_pos (Nat.le_of_lt hpages), pure_bind]
      · unfold heapEnd at hpages ⊢
        rw [if_neg hpages, dif_neg fun h => hpages h.2]
    next hge => rw [dif_neg fun h => hge h.1]
  · rfl

/-- The end of the heap moves in paged memory as in private memory. -/
theorem setBrk_spec {u : UserMemory AddressSpace} {m : PhysicalMemory} {foreign : Surroundings} {owned held : List Nat}
    (h : Access.Sound ⟨u, m⟩ foreign owned held) (brk : UInt64) :
    (u.setBrk brk).Ensures m
      (fun u' m' => Access.Leads foreign owned held ⟨u, m⟩ ⟨u', m'⟩ ∧ ∀ answers : Answers,
        (u.privately m).setBrk brk answers = .ok (u'.privately m') answers)
      fun _ _ => False := by
  have hbrk : u.brk = u.heapStart ∨ u.brk.toNat < stackBottom := h.fine.brk
  have hprivate := setBrk_eq (μ := Answers) (u := u.privately m) hbrk brk
  have hsound : Region.Sound u.space.region m foreign owned held := h.region
  rw [setBrk_eq hbrk]
  split
  next hrange =>
    have hend : brk.toNat < stackBottom := hrange.2
    rw [if_pos (show (u.privately m).heapStart ≤ brk ∧ brk.toNat < stackBottom from hrange)] at hprivate
    split
    next hpages =>
      rw [dif_pos (show brk < (u.privately m).brk ∧ heapEnd brk < heapEnd (u.privately m).brk from hpages)] at hprivate
      rw [Run.ensures_bind]
      refine (AddressSpace.unmapRange_spec hsound _).mono ?_
      rintro s' m' ⟨hregion, hspares, htable, hcontent, hkept⟩
      have hsubset : ∀ page p, s'.pages[page]? = some p → ∃ q, u.space.pages[page]? = some q := fun page p hp => by
        have hsome := hcontent page
        rw [AddressSpace.content, hp, Option.map_some] at hsome
        split at hsome
        · exact absurd hsome (by simp)
        · rw [eq_comm, AddressSpace.content, Option.map_eq_some_iff] at hsome
          exact hsome.imp fun _ hq => hq.1
      refine ⟨⟨⟨hregion, ⟨.inr hend, fun page p hp => ?_, fun page e he => ?_⟩⟩, hspares⟩, fun answers => ?_⟩
      · obtain ⟨q, hq⟩ := hsubset page p hp
        exact h.fine.page_lt page q hq
      · have hmem := AddressSpace.getElem?_mod_of_translate hregion.valid he
        have htranslate := hkept _ _ hmem
        rw [AddressSpace.translate, AddressSpace.translate, PageTable.translate_mod (Nat.mod_mod _ _),
          PageTable.translate_mod (Nat.mod_mod _ _)] at htranslate
        exact h.fine.usable page e (htranslate.symm.trans he)
      · have hspace : PrivatePages.unmapRange (u.privately m).space ⟨heapEnd brk, heapEnd u.brk, Nat.le_of_lt hpages.2⟩ =
            s'.content m' := funext fun page => (hcontent page).symm
        rw [hprivate]
        exact congrArg (fun space => EStateM.Result.ok (⟨u.heapStart, brk, space⟩ : UserMemory PrivatePages) answers)
          hspace
    next hpages =>
      rw [dif_neg (show ¬(brk < (u.privately m).brk ∧ heapEnd brk < heapEnd (u.privately m).brk) from hpages)] at hprivate
      rw [hprivate]
      exact ⟨⟨⟨h.region, ⟨.inr hend, h.fine.page_lt, h.fine.usable⟩⟩, .refl _ _ _⟩, fun _ => rfl⟩
  next hrange =>
    rw [if_neg (show ¬((u.privately m).heapStart ≤ brk ∧ brk.toNat < stackBottom) from hrange)] at hprivate
    rw [hprivate]
    exact ⟨.refl h, fun _ => rfl⟩

/-! ### Ranges -/

theorem isUsable_privately {a : Access} {foreign : Surroundings} {owned held : List Nat} (h : a.Sound foreign owned held) {address : Nat}
    (hlt : pageOf address < pageLimit) (answers : Answers) :
    (a.user.privately a.memory).isUsable answers address = a.user.isUsable a.memory address := by
  have hmapped : (a.user.space.content a.memory (pageOf address)).isSome = (a.translate (pageOf address)).isSome := by
    cases he : a.translate (pageOf address) with
    | none => rw [h.content_of_translate_eq_none he]; rfl
    | some e => rw [h.content_of_translate hlt he]; rfl
  show ((a.user.space.content a.memory (pageOf address)).isSome || _) = ((a.translate (pageOf address)).isSome || _)
  rw [hmapped]
  rfl

private theorem pagesUsable_privately {a : Access} {foreign : Surroundings} {owned held : List Nat}
    (h : a.Sound foreign owned held) {address n : Nat} (hlt : pageOf address + n ≤ pageLimit) (answers : Answers) :
    (a.user.privately a.memory).pagesUsable answers address n = a.user.pagesUsable a.memory address n := by
  induction n generalizing address with
  | zero => rfl
  | succ n ih =>
    have hpage : pageOf ((pageOf address + 1) * pageSize) = pageOf address + 1 := by simp [pageOf, pageSize]
    rw [pagesUsable, pagesUsable, isUsable_privately h (by omega), ih (by omega)]

theorem checkRange_eq_ok {μ β : Type} [MemorySystem μ β] {u : UserMemory β} {m : μ} {address length : Nat}
    (h : u.checkRange m address length = .ok ()) : length = 0 ∨ address + length ≤ stackTop := by
  unfold checkRange at h
  split at h
  next hzero => exact .inl hzero
  · split at h
    · exact absurd h (by simp)
    next hle => exact .inr (Nat.le_of_not_lt hle)

/-- A range of addresses is checked in paged memory as in private memory. -/
theorem checkRange_privately {a : Access} {foreign : Surroundings} {owned held : List Nat} (h : a.Sound foreign owned held)
    (address length : Nat) (answers : Answers) :
    (a.user.privately a.memory).checkRange answers address length = a.user.checkRange a.memory address length := by
  unfold checkRange
  by_cases hzero : length = 0
  · rw [if_pos hzero, if_pos hzero]
  · rw [if_neg hzero, if_neg hzero]
    by_cases hlt : stackTop < address + length
    · rw [if_pos hlt, if_pos hlt]
    · rw [if_neg hlt, if_neg hlt, pagesUsable_privately h]
      simp only [pageOf, pageSize, pageLimit, stackTop] at hlt ⊢
      omega

end UserMemory

end TrapKernel
