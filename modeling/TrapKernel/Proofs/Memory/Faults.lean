import TrapKernel.Proofs.Memory.Fork
import TrapKernel.Proofs.Memory.Private
import TrapKernel.Proofs.Process.Spaces

/-!
# Page faults in sound memory

What a process sees of paged memory is its private memory: `Access.privately` forgets the frames and keeps the content
of the pages. A page fault is answered in paged memory as in private memory, if the page table does not take its page
for another one.

* `Access.handleFault_spec`, `Access.frameOf_spec`: the faults, and the frame behind an address.
* `Access.setFrame_spec`: a write to a frame that was got for writing changes one page of one process.
-/

namespace TrapKernel

variable {foreign : Surroundings} {owned held : List Nat}

/-- The user memory as its process sees it. -/
def UserMemory.privately (u : UserMemory AddressSpace) (m : PhysicalMemory) : UserMemory PrivatePages :=
  u.mapSpace fun s => s.content m

/-- Whether user memory is as the kernel keeps it: the heap ends below the stack, all pages lie below the end of the
stack, and a page that cannot be written is shared until it is written. -/
structure UserMemory.Fine (u : UserMemory AddressSpace) (m : PhysicalMemory) : Prop where
  brk : u.brk = u.heapStart ∨ u.brk.toNat < stackBottom
  page_lt : ∀ page p, u.space.pages[page]? = some p → page < stackTop / pageSize
  usable : ∀ page e, u.space.translate m page = some e → e.isWritable = true ∨ e.isCow = true

namespace EntryFlags

theorem shared_cow (f : EntryFlags) (hf : f.has writable = true ∨ f.has cow = true) :
    ((f.without valid).shared ||| valid).has cow = true := by
  revert f
  decide +kernel

theorem unshared_writable (f : EntryFlags) : ((f.without valid).unshared ||| valid).has writable = true := by
  revert f
  decide +kernel

end EntryFlags

namespace UserMemory

variable {u u' : UserMemory AddressSpace} {m m' : PhysicalMemory}

theorem Fine.congr (h : u.Fine m) (htranslate : ∀ page, u.space.translate m' page = u.space.translate m page) :
    u.Fine m' where
  brk := h.brk
  page_lt := h.page_lt
  usable page e he := h.usable page e ((htranslate page).symm.trans he)

theorem Fine.page_lt_of_isDemandZero (h : u.Fine m) {address : Nat} (hzero : u.isDemandZero address = true) :
    pageOf address < stackTop / pageSize := by
  have hbrk := h.brk
  simp only [isDemandZero, Bool.or_eq_true, Bool.and_eq_true, decide_eq_true_eq, stackBottom, stackTop, pageSize] at hzero
  simp only [pageOf, stackTop, pageSize, stackBottom] at hbrk ⊢
  rcases hzero with ⟨hle, hlt⟩ | ⟨-, hlt⟩
  · rcases hbrk with heq | hlt'
    · rw [heq] at hlt
      omega
    · omega
  · omega

theorem Fine.pageOf_lt_pageLimit (h : u.Fine m) {address : Nat} (hzero : u.isDemandZero address = true) :
    pageOf address < pageLimit := Nat.lt_trans (h.page_lt_of_isDemandZero hzero) (by decide)

end UserMemory

namespace Access

/-- Whether the memory of a process is sound where other frames are owned and held besides its own. -/
structure Sound (a : Access) (foreign : Surroundings) (owned held : List Nat) : Prop where
  region : a.user.space.region.Sound a.memory foreign owned held
  fine : a.user.Fine a.memory

/-- Whether memory has stayed sound and nothing has happened to the frames of others. -/
structure Leads (foreign : Surroundings) (owned held : List Nat) (a a' : Access) : Prop where
  sound : a'.Sound foreign owned held
  spares : Region.Spares a.memory a'.memory owned held

/-- The memory of a process as the process sees it. -/
def privately (a : Access) (answers : Answers) : PrivateAccess := ⟨a.user.privately a.memory, answers⟩

/-- What is known when an access stops the kernel although it was not to under the condition `ok`: the books of memory
are in order even so. -/
structure Stops (ok : Prop) (p : Panic) : Prop where
  not_ok : ¬ok
  books : ¬p.IsDoubleReturn

/-- Whether the page table does not take a page for another one. -/
def Plain (a : Access) (page : Nat) : Prop := (a.translate page).isSome → page < pageLimit

variable {a a' a'' : Access}

theorem Leads.refl (h : a.Sound foreign owned held) : Leads foreign owned held a a := ⟨h, .refl _ _ _⟩

theorem Leads.trans (h : Leads foreign owned held a a') (h' : Leads foreign owned held a' a'') :
    Leads foreign owned held a a'' :=
  ⟨h'.sound, h.spares.trans h'.spares⟩

theorem plain_of_lt {page : Nat} (h : page < pageLimit) : a.Plain page := fun _ => h

namespace Sound

/-- A page that the page table leads to is held under its own number. -/
private theorem getElem?_of_translate (h : a.Sound foreign owned held) {page : Nat} (hlt : page < pageLimit) {e : Entry}
    (he : a.translate page = some e) : a.user.space.pages[page]? = some e.frame :=
  AddressSpace.getElem?_of_translate h.region hlt he

theorem translate_of_getElem? (h : a.Sound foreign owned held) {page p : Nat}
    (hp : a.user.space.pages[page]? = some p) : ∃ e, a.translate page = some e ∧ e.frame = p :=
  h.region.valid.translate_of_mem (Std.TreeMap.mem_toList_iff_getElem?_eq_some.mpr hp)

theorem content_of_translate (h : a.Sound foreign owned held) {page : Nat} (hlt : page < pageLimit) {e : Entry}
    (he : a.translate page = some e) : a.user.space.content a.memory page = some (a.memory.frame e.frame) := by
  rw [AddressSpace.content, h.getElem?_of_translate hlt he, Option.map_some]

theorem content_of_translate_eq_none (h : a.Sound foreign owned held) {page : Nat} (hnone : a.translate page = none) :
    a.user.space.content a.memory page = none := by
  rw [AddressSpace.content]
  cases hp : a.user.space.pages[page]? with
  | none => rfl
  | some p =>
    obtain ⟨e, he, -⟩ := h.translate_of_getElem? hp
    rw [hnone] at he
    exact absurd he (by simp)

theorem page_lt (h : a.Sound foreign owned held) {page : Nat} (hlt : page < pageLimit) {e : Entry}
    (he : a.translate page = some e) : page < stackTop / pageSize :=
  h.fine.page_lt page e.frame (h.getElem?_of_translate hlt he)

end Sound

/-! ### Faults in private memory -/

/-- Paged memory with the same pages looks the same to its process. -/
private theorem privately_congr (hstart : a'.user.heapStart = a.user.heapStart) (hbrk : a'.user.brk = a.user.brk)
    (hcontent : ∀ page, a'.user.space.content a'.memory page = a.user.space.content a.memory page)
    (answers : Answers) : a'.privately answers = a.privately answers := by
  have hspace : a'.user.space.content a'.memory = a.user.space.content a.memory := funext hcontent
  simp only [privately, UserMemory.privately, UserMemory.mapSpace, hstart, hbrk, hspace]

section Private

variable {address : Nat} {write : Bool}

/-- A fault on a page that is held. -/
private theorem run_handleFault_some {a : PrivateAccess} {f : Frame} (hpage : a.user.space (pageOf address) = some f) :
    (PrivateMemory.handleFault address write).run a =
      (if write then PrivateMemory.needRoom else pure () : Attempt PrivateAccess Unit).run a := by
  unfold PrivateMemory.handleFault
  rw [Attempt.run_get_bind, hpage]

/-- A fault on a page that is not held. -/
private theorem run_handleFault_none {a : PrivateAccess} (hpage : a.user.space (pageOf address) = none) :
    (PrivateMemory.handleFault address write).run a =
      (if a.user.isDemandZero address then do
        PrivateMemory.needRoom
        modify fun a => { a with user.space := PrivatePages.set a.user.space (pageOf address) .zero }
      else throw .badAddress : Attempt PrivateAccess Unit).run a := by
  unfold PrivateMemory.handleFault
  rw [Attempt.run_get_bind, hpage]

private theorem follows_read {f : Frame} (hcontent : a.user.space.content a.memory (pageOf address) = some f) :
    Attempt.Follows privately (PrivateMemory.handleFault address false) a a (.ok ()) := by
  refine .of_forall fun rest => ?_
  rw [run_handleFault_some (a := a.privately rest) hcontent]
  rfl

private theorem follows_write {f : Frame} (hcontent : a.user.space.content a.memory (pageOf address) = some f)
    (hsame : ∀ answers, a'.privately answers = a.privately answers) :
    Attempt.Follows privately (PrivateMemory.handleFault address true) a a' (.ok ()) := by
  refine ⟨[true], fun rest => ?_⟩
  rw [run_handleFault_some (a := a.privately ([true] ++ rest)) hcontent, hsame]
  rfl

private theorem follows_write_noRoom {f : Frame} (hcontent : a.user.space.content a.memory (pageOf address) = some f)
    (hsame : ∀ answers, a'.privately answers = a.privately answers) :
    Attempt.Follows privately (PrivateMemory.handleFault address true) a a' (.error .noMemory) := by
  refine ⟨[false], fun rest => ?_⟩
  rw [run_handleFault_some (a := a.privately ([false] ++ rest)) hcontent, hsame]
  rfl

private theorem follows_touch (hcontent : a.user.space.content a.memory (pageOf address) = none)
    (hzero : a.user.isDemandZero address = true)
    (hnew : ∀ answers, a'.privately answers =
      { a.privately answers with
        user.space := PrivatePages.set (a.user.space.content a.memory) (pageOf address) .zero }) :
    Attempt.Follows privately (PrivateMemory.handleFault address write) a a' (.ok ()) := by
  refine ⟨[true], fun rest => ?_⟩
  rw [run_handleFault_none (a := a.privately ([true] ++ rest)) hcontent, hnew]
  rw [if_pos (show (a.privately ([true] ++ rest)).user.isDemandZero address = true from hzero)]
  rfl

private theorem follows_touch_noRoom (hcontent : a.user.space.content a.memory (pageOf address) = none)
    (hzero : a.user.isDemandZero address = true)
    (hsame : ∀ answers, a'.privately answers = a.privately answers) :
    Attempt.Follows privately (PrivateMemory.handleFault address write) a a' (.error .noMemory) := by
  refine ⟨[false], fun rest => ?_⟩
  rw [run_handleFault_none (a := a.privately ([false] ++ rest)) hcontent, hsame]
  rw [if_pos (show (a.privately ([false] ++ rest)).user.isDemandZero address = true from hzero)]
  rfl

private theorem follows_badAddress (hcontent : a.user.space.content a.memory (pageOf address) = none)
    (hzero : ¬a.user.isDemandZero address = true) :
    Attempt.Follows privately (PrivateMemory.handleFault address write) a a (.error .badAddress) := by
  refine .of_forall fun rest => ?_
  rw [run_handleFault_none (a := a.privately rest) hcontent]
  rw [if_neg (show ¬(a.privately rest).user.isDemandZero address = true from hzero)]
  rfl

end Private

/-! ### Faults in paged memory -/

/-- A page number that is too large for the page table is not copy-on-write, or else the kernel stops. -/
private theorem resolveCow_of_le {s : AddressSpace} {m : PhysicalMemory} (h : s.region.Valid m) {page : Nat}
    (hle : pageLimit ≤ page) :
    (s.resolveCow page).Ensures m (fun r m' => r = .ok none ∧ m' = m) fun p _ => ¬p.IsDoubleReturn := by
  unfold Attempt.Ensures Run.Ensures
  rw [AddressSpace.resolveCow_eq_of_le h hle]
  by_cases hcow : (s.translate m page).any Entry.isCow = true
  · rw [if_pos hcow]
    exact fun ⟨_, h⟩ => absurd h (by simp)
  · rw [if_neg hcow]
    exact ⟨rfl, rfl⟩

/-- A write to a page that cannot be written. -/
private theorem resolveCow_fault (h : a.Sound foreign owned held) {address : Nat} {ok : Prop}
    (hok : ok → a.Plain (pageOf address)) {e : Entry} (he : a.translate (pageOf address) = some e)
    (hw : e.isWritable = false) :
    Attempt.Ensures (do if ← resolveCow (pageOf address) then return () else throw .badAddress : Attempt Access Unit) a
      (fun r a' => Leads foreign owned held a a' ∧
        (r = .ok () → ∃ e, a'.translate (pageOf address) = some e ∧ e.isWritable = true) ∧
        (ok → Attempt.Follows privately (PrivateMemory.handleFault address true) a a' r))
      fun p _ => Stops ok p := by
  have hcow : e.isCow = true := (h.fine.usable _ _ he).resolve_left (by simp [hw])
  unfold resolveCow
  simp only [Attempt.ensures_bind, Attempt.ensures_get, Attempt.ensures_within]
  by_cases hlt : pageOf address < pageLimit
  · have hcontent := h.content_of_translate hlt he
    refine Run.Ensures.imp (AddressSpace.resolveCow_spec h.region hlt) (fun r m' hr => ?_) fun _ _ => False.elim
    match r with
    | .error error =>
      obtain ⟨rfl, rfl, -⟩ := hr
      exact ⟨.refl h, by simp, fun _ => follows_write_noRoom hcontent fun _ => rfl⟩
    | .ok none => exact absurd (hr.2 e he) (by simp [hcow])
    | .ok (some s') =>
      obtain ⟨e', he', hregion, hspares, hsame, p, htranslate⟩ := hr
      have hwritable : (Entry.make p ((e'.flags.without .valid).unshared ||| .valid)).isWritable = true := by
        rw [Entry.isWritable, Entry.flags_make, EntryFlags.unshared_writable]
      have hnew := htranslate (pageOf address)
      rw [if_pos (Nat.mod_eq_of_lt hlt)] at hnew
      refine ⟨⟨⟨hregion, h.fine.brk, fun page q hq => ?_, fun page e he => ?_⟩, hspares⟩, fun _ => ⟨_, hnew, hwritable⟩,
        fun _ => follows_write hcontent (privately_congr rfl rfl hsame)⟩
      · have hsome := hsame page
        rw [AddressSpace.content, hq, Option.map_some, eq_comm, AddressSpace.content, Option.map_eq_some_iff] at hsome
        obtain ⟨q', hq', -⟩ := hsome
        exact h.fine.page_lt page q' hq'
      · rw [htranslate] at he
        split at he
        · rw [← Option.some.inj he]
          exact .inl hwritable
        · exact h.fine.usable page e he
  · refine Run.Ensures.imp (resolveCow_of_le h.region.valid (Nat.le_of_not_lt hlt)) (fun r m' hr => ?_) fun _ _ hbooks =>
        ⟨fun hk => ?_, hbooks⟩
    · obtain ⟨rfl, rfl⟩ := hr
      refine ⟨.refl h, by simp, fun hk => ?_⟩
      exact absurd (hok hk (by rw [he]; rfl)) hlt
    · exact absurd (hok hk (by rw [he]; rfl)) hlt

/-- The first touch of a heap or stack page. -/
private theorem mapZeroed_fault (h : a.Sound foreign owned held) {address : Nat}
    (hnone : a.translate (pageOf address) = none) (hzero : a.user.isDemandZero address = true) (write : Bool) :
    Attempt.Ensures
      (do if ← mapZeroed (pageOf address) .userData then return () else throw .noMemory : Attempt Access Unit) a
      (fun r a' => Leads foreign owned held a a' ∧
        (r = .ok () → ∃ e, a'.translate (pageOf address) = some e ∧ e.isWritable = true) ∧
        Attempt.Follows privately (PrivateMemory.handleFault address write) a a' r)
      fun _ _ => False := by
  have hpage := h.fine.page_lt_of_isDemandZero hzero
  have hlt := h.fine.pageOf_lt_pageLimit hzero
  have hcontent := h.content_of_translate_eq_none hnone
  unfold mapZeroed
  simp only [Attempt.ensures_bind, Attempt.ensures_liftM, Run.ensures_bind, Run.ensures_get, Run.ensures_within]
  refine (AddressSpace.mapZeroed_spec h.region hlt hnone .userData).mono ?_
  rintro ⟨s', mapped⟩ m' ⟨hregion, hspares, hframe, hr⟩
  cases mapped with
  | false =>
    obtain ⟨hpages, htranslate⟩ := hr
    have hsame : ∀ page, s'.content m' page = a.user.space.content a.memory page := fun page =>
      AddressSpace.content_congr (by rw [hpages]) hframe
    refine ⟨⟨⟨hregion, h.fine.brk, fun page q hq => ?_, fun page e he => ?_⟩, hspares⟩, by simp, ?_⟩
    · exact h.fine.page_lt page q (by rwa [hpages] at hq)
    · exact h.fine.usable page e ((htranslate page).symm.trans he)
    · exact follows_touch_noRoom hcontent hzero (privately_congr rfl rfl hsame)
  | true =>
    obtain ⟨p, hpages, -, hzeros, htranslate⟩ := hr
    have hpages : s'.pages = a.user.space.pages.insert (pageOf address) p := hpages
    have hwritable : (Entry.make p (.userData ||| .valid)).isWritable = true := by
      rw [Entry.isWritable, Entry.flags_make]
      decide
    have hnew := htranslate (pageOf address)
    rw [if_pos (Nat.mod_eq_of_lt hlt)] at hnew
    refine ⟨⟨⟨hregion, h.fine.brk, fun page q hq => ?_, fun page e he => ?_⟩, hspares⟩, fun _ => ⟨_, hnew, hwritable⟩, ?_⟩
    · rw [hpages, Std.TreeMap.getElem?_insert] at hq
      split at hq
      next heq => rwa [← Nat.compare_eq_eq.mp heq]
      · exact h.fine.page_lt page q hq
    · rw [htranslate] at he
      split at he
      · rw [← Option.some.inj he]
        exact .inl hwritable
      · exact h.fine.usable page e he
    · refine follows_touch hcontent hzero fun answers => ?_
      have hspace : s'.content m' = PrivatePages.set (a.user.space.content a.memory) (pageOf address) .zero := by
        funext page
        by_cases hpage : page = pageOf address
        · simp [AddressSpace.content, PrivatePages.set, hpages, hpage, hzeros]
        · rw [PrivatePages.set, if_neg hpage]
          refine AddressSpace.content_congr ?_ hframe
          rw [hpages, Std.TreeMap.getElem?_insert, if_neg (by simpa [Nat.compare_eq_eq] using Ne.symm hpage)]
      simp only [privately, UserMemory.privately, UserMemory.mapSpace, hspace]

/-- A page fault is answered in paged memory as in private memory, if the page table does not take the page for another
one. Otherwise memory stays sound all the same. -/
theorem handleFault_spec (h : a.Sound foreign owned held) (address : Nat) (write : Bool) {ok : Prop}
    (hok : ok → a.Plain (pageOf address)) :
    (handleFault address write).Ensures a
      (fun r a' => Leads foreign owned held a a' ∧
        (r = .ok () → ∃ e, a'.translate (pageOf address) = some e ∧ (write = true → e.isWritable = true)) ∧
        (ok → (r = .ok () → pageOf address < pageLimit) ∧
          Attempt.Follows privately (PrivateMemory.handleFault address write) a a' r))
      fun p _ => Stops ok p := by
  unfold handleFault
  simp only [Attempt.ensures_bind, Attempt.ensures_get]
  cases he : a.translate (pageOf address) with
  | some e =>
    have hlt : ok → pageOf address < pageLimit := fun hk => hok hk (by rw [he]; rfl)
    have hcontent : ok → a.user.space.content a.memory (pageOf address) = some (a.memory.frame e.frame) := fun hk =>
      h.content_of_translate (hlt hk) he
    cases write with
    | false => exact ⟨.refl h, fun _ => ⟨e, he, by simp⟩, fun hk => ⟨fun _ => hlt hk, follows_read (hcontent hk)⟩⟩
    | true =>
      cases hw : e.isWritable with
      | true =>
        simp only [hw, Bool.not_true, Bool.and_false, Bool.false_eq_true, if_false]
        exact ⟨.refl h, fun _ => ⟨e, he, fun _ => hw⟩, fun hk => ⟨fun _ => hlt hk, follows_write (hcontent hk) fun _ => rfl⟩⟩
      | false =>
        simp only [hw, Bool.not_false, Bool.and_true, if_true]
        refine (resolveCow_fault h hok he hw).mono ?_
        rintro r a' ⟨hleads, hentry, hfollows⟩
        refine ⟨hleads, fun hr => ?_, fun hk => ⟨fun _ => hlt hk, hfollows hk⟩⟩
        obtain ⟨e', he', hw'⟩ := hentry hr
        exact ⟨e', he', fun _ => hw'⟩
  | none =>
    dsimp only
    split
    next hzero =>
      refine Run.Ensures.imp (mapZeroed_fault h he hzero write) ?_ fun _ _ => False.elim
      rintro r a' ⟨hleads, hentry, hfollows⟩
      have hlt := h.fine.pageOf_lt_pageLimit hzero
      refine ⟨hleads, fun hr => ?_, fun _ => ⟨fun _ => hlt, hfollows⟩⟩
      obtain ⟨e', he', hw'⟩ := hentry hr
      exact ⟨e', he', fun _ => hw'⟩
    next hzero =>
      exact ⟨.refl h, by simp, fun _ => ⟨by simp, follows_badAddress (h.content_of_translate_eq_none he) hzero⟩⟩

/-! ### The frame behind an address -/

/-- What is known of the frame `p` that was got for an access to a page. -/
def Behind (a : Access) (page : Nat) (write : Bool) (p : Nat) : Prop :=
  ∃ e, a.translate page = some e ∧ e.frame = p ∧ (write = true → e.isWritable = true)

theorem frameOf_spec (h : a.Sound foreign owned held) (address : Nat) (write : Bool) {ok : Prop}
    (hok : ok → a.Plain (pageOf address)) :
    (frameOf address write).Ensures a
      (fun r a' => Leads foreign owned held a a' ∧ (∀ p, r = .ok p → a'.Behind (pageOf address) write p) ∧
        (ok → (∀ p, r = .ok p → pageOf address < pageLimit) ∧
          Attempt.Follows privately (PrivateMemory.frameOf address write) a a' (r.map fun _ => pageOf address)))
      fun p _ => Stops ok p := by
  have hafter : (frameAfterFault address write).Ensures a
      (fun r a' => Leads foreign owned held a a' ∧ (∀ p, r = .ok p → a'.Behind (pageOf address) write p) ∧
        (ok → (∀ p, r = .ok p → pageOf address < pageLimit) ∧
          Attempt.Follows privately (PrivateMemory.frameOf address write) a a' (r.map fun _ => pageOf address)))
      fun p _ => Stops ok p := by
    unfold frameAfterFault
    rw [Attempt.ensures_bind]
    refine (handleFault_spec h address write hok).mono ?_
    rintro r a' ⟨hleads, hentry, hfollows⟩
    cases r with
    | error error => exact ⟨hleads, by simp, fun hk => ⟨by simp, .bind_error (hfollows hk).2⟩⟩
    | ok =>
      obtain ⟨e, he, hw⟩ := hentry rfl
      simp only [Attempt.ensures_bind, Attempt.ensures_get, he, Attempt.ensures_pure]
      refine ⟨hleads, fun p hp => ⟨e, he, Except.ok.inj hp, hw⟩, fun hk => ⟨fun _ _ => (hfollows hk).1 rfl, ?_⟩⟩
      exact .bind (hfollows hk).2 .of_pure
  unfold frameOf
  simp only [Attempt.ensures_bind, Attempt.ensures_get]
  cases he : a.translate (pageOf address) with
  | none => exact hafter
  | some e =>
    dsimp only
    split
    next hdirect =>
      have hw : write = true → e.isWritable = true := by
        rintro rfl
        simpa using hdirect
      refine ⟨.refl h, fun p hp => ⟨e, he, Except.ok.inj hp, hw⟩, fun hk => ?_⟩
      have hlt := hok hk (by rw [he]; rfl)
      have hcontent := h.content_of_translate hlt he
      refine ⟨fun _ _ => hlt, .bind (c := ()) ?_ .of_pure⟩
      cases write with
      | false => exact follows_read hcontent
      | true => exact follows_write hcontent fun _ => rfl
    · exact hafter

/-- The content of the frame behind an address is that of its page. -/
theorem content_of_behind (h : a.Sound foreign owned held) {page p : Nat} {write : Bool} (hp : a.Behind page write p)
    (hlt : page < pageLimit) : a.user.space.content a.memory page = some (a.memory.frame p) := by
  obtain ⟨e, he, rfl, -⟩ := hp
  exact h.content_of_translate hlt he

/-- A write to a frame that was got for writing changes one page of one process. -/
theorem setFrame_spec (h : a.Sound foreign owned held) {page p : Nat} (hp : a.Behind page true p) (f : Frame) :
    Leads foreign owned held a { a with memory := a.memory.setFrame p f } ∧
      (page < pageLimit → ∀ answers, privately { a with memory := a.memory.setFrame p f } answers =
        { a.privately answers with user.space := PrivatePages.set (a.user.space.content a.memory) page f }) := by
  obtain ⟨e, he, rfl, hw⟩ := hp
  have hone : a.memory.holderCount e.frame = 1 := h.region.exclusive page e he (hw rfl)
  have hmem : (page % pageLimit, e.frame) ∈ a.user.space.region.pages := h.region.valid.mem_of_translate he
  have hframes : e.frame ∈ a.user.space.region.frames := List.mem_map_of_mem (f := Prod.snd) hmem
  have hother : ∀ q, q ∈ a.user.space.table.nodes ++ owned ∨ q ∈ held → q ≠ e.frame := by
    rintro q (hq | hq) rfl
    · exact (h.region.accounts.not_owned_of_held (List.mem_append_left held hframes)).2 hq
    · exact h.region.not_held hframes hone hq
  have hsame : ∀ q, q ≠ e.frame → (a.memory.setFrame e.frame f).frame q = a.memory.frame q := fun q hq => by
    rw [PhysicalMemory.frame_setFrame, if_neg (Ne.symm hq)]
  have hnodes : ∀ q ∈ a.user.space.table.nodes, (a.memory.setFrame e.frame f).frame q = a.memory.frame q := fun q hq =>
    hsame q (hother q (.inl (List.mem_append_left owned hq)))
  have htranslate : ∀ page', a.user.space.table.translate (a.memory.setFrame e.frame f) page' = a.translate page' :=
    h.region.valid.tree.translate_congr hnodes
  refine ⟨⟨⟨⟨h.region.accounts.setFrame _ _, h.region.valid.congr hnodes, fun page' e' he' hw' => ?_⟩,
    h.fine.congr htranslate⟩, ⟨fun q hq => hsame q (hother q (hq.imp_left (List.mem_append_right _))), fun _ _ h => h⟩⟩,
    fun hlt answers => ?_⟩
  · exact h.region.exclusive page' e' ((htranslate page').symm.trans he') hw'
  · rw [Nat.mod_eq_of_lt hlt] at hmem
    have hspace : a.user.space.content (a.memory.setFrame e.frame f) =
        PrivatePages.set (a.user.space.content a.memory) page f := by
      funext page'
      rw [PrivatePages.set]
      split
      next hpage =>
        rw [AddressSpace.content, hpage, h.getElem?_of_translate hlt he, Option.map_some, PhysicalMemory.frame_setFrame,
          if_pos rfl]
      next hpage =>
        rw [AddressSpace.content, AddressSpace.content]
        cases hq : a.user.space.pages[page']? with
        | none => rfl
        | some q =>
          have hmem' := Std.TreeMap.mem_toList_iff_getElem?_eq_some.mpr hq
          rw [Option.map_some, Option.map_some, hsame q]
          rintro rfl
          exact hpage (h.region.page_eq hone hmem hmem')
    simp only [privately, UserMemory.privately, UserMemory.mapSpace, hspace]

end Access

end TrapKernel
