import TrapKernel.Proofs.Memory.UserCopies

/-!
# The pages of heap and stack

A process holds pages of its heap and of its stack only: a fault gives it a page where an address of the heap or of the
stack is touched, and a move of the end of the heap drops what lies wholly above the new end. This needs no sound
memory, since no operation holds a page that it is not asked for.

* `AddressSpace.Holds`: all pages that are held have a property, and what the operations of an address space make of that.
* `UserMemory.Bounded`: the heap ends below the stack, and all pages are pages of heap or stack.
* `UserMemory.MovesHeap`, `UserMemory.setBrk_moves`: what the move of the end of the heap does to the pages.
-/

namespace TrapKernel

variable {m : PhysicalMemory}

namespace AddressSpace

variable {P : Nat → Prop} {s : AddressSpace}

/-- Whether all pages that are held have a property. -/
def Holds (P : Nat → Prop) (s : AddressSpace) : Prop := ∀ page p : Nat, s.pages[page]? = some p → P page

private theorem Holds.of_empty (h : s.pages = ∅) : s.Holds P := fun page p hp =>
  absurd ((getElem?_of_pages_eq_empty h page).symm.trans hp) (by simp)

private theorem Holds.insert (h : s.Holds P) {page : Nat} (hpage : P page) (table : PageTable) (p : Nat) :
    Holds P ⟨table, s.pages.insert page p⟩ := by
  intro page' q hq
  rw [Std.TreeMap.getElem?_insert] at hq
  split at hq
  next heq => exact compare_eq_iff_eq.mp heq ▸ hpage
  · exact h page' q hq

theorem create_holds : create.Yields fun r => ∀ s, r = some s → s.Holds P := by
  refine Run.yields_bind fun r => ?_
  split
  · exact Run.yields_pure fun _ hs => absurd hs (by simp)
  · exact Run.yields_pure fun s hs => Option.some.inj hs ▸ .of_empty rfl

/-- The only page that is added is the one that is asked for. -/
theorem mapZeroed_holds (h : s.Holds P) {page : Nat} (hpage : P page) (flags : EntryFlags) :
    (s.mapZeroed page flags).Yields fun r => r.1.Holds P := by
  refine Run.yields_bind fun r => ?_
  split
  · exact Run.yields_pure h
  refine Run.yields_bind fun x => ?_
  dsimp only
  split
  · exact Run.yields_bind fun _ => Run.yields_pure (h.insert hpage x.1 _)
  · exact Run.yields_bind fun _ => Run.yields_pure h

/-- A page that gets a copy of its frame was held before. -/
theorem resolveCow_holds (h : s.Holds P) (page : Nat) :
    (s.resolveCow page).Yields fun r => ∀ s', r = some s' → s'.Holds P := by
  refine Attempt.yields_bind fun m => ?_
  dsimp only
  split
  · exact Attempt.yields_pure fun _ hs' => absurd hs' (by simp)
  split
  · exact Attempt.yields_pure fun _ hs' => absurd hs' (by simp)
  split
  · exact ⟨fun hop => nomatch hop⟩
  next p hp =>
  split
  · exact Attempt.yields_bind fun _ => Attempt.yields_pure fun s' hs' => Option.some.inj hs' ▸ h
  · refine Attempt.yields_bind fun taken => ?_
    split
    · exact Attempt.yields_throw _
    · exact Attempt.yields_bind fun _ => Attempt.yields_bind fun _ => Attempt.yields_bind fun _ =>
        Attempt.yields_bind fun _ => Attempt.yields_pure fun s' hs' =>
          Option.some.inj hs' ▸ h.insert (h page p hp) s.table _

/-- Pages that are shared with a child are pages of the parent. -/
private theorem sharePages_holds {parent : PageTable} {l : List (Nat × Nat)} (hl : ∀ y ∈ l, P y.1)
    {child : AddressSpace} (h : child.Holds P) : (sharePages parent l child).Yields fun r => r.1.Holds P := by
  induction l generalizing child with
  | nil => exact Run.yields_pure h
  | cons y rest ih =>
    obtain ⟨page, p⟩ := y
    obtain ⟨hpage, hrest⟩ := List.forall_mem_cons.mp hl
    have henter : ∀ x : PageTable × Bool, Run.Yields (fun r : AddressSpace × Bool => r.1.Holds P)
        (if x.2 then do
          PhysicalMemory.hold p
          sharePages parent rest { table := x.1, pages := child.pages.insert page p }
        else return ({ child with table := x.1 }, false)) := fun x => by
      split
      · exact Run.yields_bind fun _ => ih hrest (h.insert hpage x.1 p)
      · exact Run.yields_pure h
    refine Run.yields_bind fun m => ?_
    split
    · exact Run.yields_crash _
    dsimp only
    split
    · exact Run.yields_bind fun _ => Run.yields_bind henter
    · exact Run.yields_bind henter

theorem fork_holds (h : s.Holds P) : s.fork.Yields fun r => ∀ child, r = some child → child.Holds P := by
  refine Run.Yields.bind (create_holds (P := P)) fun r hr => ?_
  split
  · exact Run.yields_pure fun _ hs => absurd hs (by simp)
  next child =>
  have hpages : ∀ y ∈ s.pages.toList, P y.1 := fun y hy => h y.1 y.2 (Std.TreeMap.mem_toList_iff_getElem?_eq_some.mp hy)
  refine (sharePages_holds hpages (hr child rfl)).bind fun x hchild => ?_
  dsimp only
  split
  · exact Run.yields_pure fun s hs => Option.some.inj hs ▸ hchild
  · exact Run.yields_bind fun _ => Run.yields_pure fun _ hs => absurd hs (by simp)

private theorem unmapRange_pages (s : AddressSpace) (range : PageRange) :
    (s.unmapRange range).Yields fun s' =>
      ∀ page : Nat, s'.pages[page]? = if page ∈ range then none else s.pages[page]? := by
  refine Run.yields_bind fun _ => Run.yields_pure fun page => ?_
  rw [Std.TreeMap.getElem?_filter']
  by_cases hpage : page ∈ range
  · simp [hpage]
  · cases s.pages[page]? <;> simp [hpage]

/-- The page table knows a page exactly as long as the page is held. -/
private theorem translate_of_drops {s' : AddressSpace} {m' : PhysicalMemory} (h : s.region.Valid m)
    (h' : s'.region.Valid m') {D : Nat → Prop} [DecidablePred D]
    (hpages : ∀ page : Nat, s'.pages[page]? = if D page then none else s.pages[page]?)
    (hkept : ∀ page p : Nat, s'.pages[page]? = some p → s'.translate m' page = s.translate m page) (page : Nat) :
    s'.translate m' page = if D (page % pageLimit) then none else s.translate m page := by
  have hmod : page % pageLimit % pageLimit = page % pageLimit := Nat.mod_mod _ _
  have hnone : ∀ {s : AddressSpace} {m : PhysicalMemory}, s.region.Valid m → s.pages[page % pageLimit]? = none →
      s.translate m page = none := fun hvalid hpage => Option.eq_none_iff_forall_ne_some.mpr fun e he =>
    absurd (hpage.symm.trans (getElem?_mod_of_translate hvalid he)) (by simp)
  have hpage := hpages (page % pageLimit)
  split
  next hdrop => exact hnone h' (hpage.trans (if_pos hdrop))
  next hdrop =>
    rw [if_neg hdrop] at hpage
    cases hp : s.pages[page % pageLimit]? with
    | none => rw [hnone h hp, hnone h' (hpage.trans hp)]
    | some p =>
      have htranslate := hkept _ p (hpage.trans hp)
      rw [translate, translate, PageTable.translate_mod hmod, PageTable.translate_mod hmod] at htranslate
      exact htranslate

theorem unmapAll_holds : s.unmapAll.Yields fun s' => s'.Holds P :=
  Run.yields_bind fun _ => Run.yields_pure (.of_empty rfl)

end AddressSpace

namespace UserMemory

/-! ### Heap and stack -/

/-- Whether a page is one of those from that of the first address `start` of a heap up to the end `brk` of the heap. -/
def IsHeapPage (start brk : UInt64) (page : Nat) : Prop := pageOf start.toNat ≤ page ∧ page < heapEnd brk

/-- Whether a page lies in the stack. -/
def IsStackPage (page : Nat) : Prop := stackBottom / pageSize ≤ page ∧ page < stackTop / pageSize

/-- Whether the heap of user memory, which starts at `start`, has been left empty where it starts or ends below the stack,
and all pages are pages of the heap or of the stack. -/
structure Bounded (start : UInt64) (u : UserMemory AddressSpace) : Prop where
  heapStart : u.heapStart = start
  brk : u.brk = start ∨ start ≤ u.brk ∧ u.brk.toNat < stackBottom
  pages : u.space.Holds fun page => IsHeapPage start u.brk page ∨ IsStackPage page

variable {start : UInt64} {u : UserMemory AddressSpace}

private theorem heapEnd_le_heapEnd {brk brk' : UInt64} (h : brk ≤ brk') : heapEnd brk ≤ heapEnd brk' :=
  Nat.div_le_div_right (Nat.sub_le_sub_right (Nat.add_le_add_right h _) _)

/-- A page that comes into being at a touch is a page of the heap or of the stack. -/
theorem Bounded.of_isDemandZero (h : u.Bounded start) {address : Nat} (hzero : u.isDemandZero address = true) :
    IsHeapPage start u.brk (pageOf address) ∨ IsStackPage (pageOf address) := by
  rw [isDemandZero, Bool.or_eq_true, Bool.and_eq_true, Bool.and_eq_true, h.heapStart] at hzero
  simp only [decide_eq_true_eq] at hzero
  rcases hzero with ⟨hle, hlt⟩ | ⟨hle, hlt⟩
  · refine .inl ⟨Nat.div_le_div_right hle, ?_⟩
    unfold heapEnd pageOf
    simp only [pageSize]
    omega
  · refine .inr ⟨Nat.div_le_div_right hle, ?_⟩
    unfold pageOf
    simp only [pageSize, stackTop] at hlt ⊢
    omega

/-- A move of the end of the heap that is allowed leaves no page behind that lies wholly above the new end. -/
theorem Bounded.setBrk (h : u.Bounded start) (brk : UInt64) :
    (u.setBrk brk : Run PhysicalMemory (UserMemory AddressSpace)).Yields (Bounded start) := by
  rw [setBrk_eq (h.brk.imp (fun heq => heq.trans h.heapStart.symm) And.right)]
  split
  swap
  · exact Run.yields_pure h
  next hrange =>
  rw [h.heapStart] at hrange
  split
  next hpages =>
    refine (u.space.unmapRange_pages _).bind fun space hspace => Run.yields_pure ⟨h.heapStart, .inr hrange, ?_⟩
    intro page p hp
    rw [hspace] at hp
    split at hp
    · exact absurd hp (by simp)
    next hnot =>
      exact (h.pages page p hp).imp_left fun hheap =>
        ⟨hheap.1, Nat.lt_of_not_le fun hle => hnot ⟨hle, hheap.2⟩⟩
  next hpages =>
    have hle : heapEnd u.brk ≤ heapEnd brk := by
      by_cases hlt : brk < u.brk
      · exact Nat.le_of_not_lt fun hend => hpages ⟨hlt, hend⟩
      · exact heapEnd_le_heapEnd (UInt64.not_lt.mp hlt)
    exact Run.yields_pure ⟨h.heapStart, .inr hrange, fun page p hp =>
      (h.pages page p hp).imp_left fun hheap => ⟨hheap.1, Nat.lt_of_lt_of_le hheap.2 hle⟩⟩

/-! ### The move of the end of the heap -/

/-- Whether a page lies wholly above the end `brk` of the heap, but not above the end that the heap has. -/
def Drops (u : UserMemory AddressSpace) (brk : UInt64) (page : Nat) : Prop := heapEnd brk ≤ page ∧ page < heapEnd u.brk

instance (u : UserMemory AddressSpace) (brk : UInt64) (page : Nat) : Decidable (u.Drops brk page) :=
  inferInstanceAs (Decidable (_ ∧ _))

/-- Whether the heap may end at an address. -/
def AllowsEnd (u : UserMemory AddressSpace) (brk : UInt64) : Prop := u.heapStart ≤ brk ∧ brk.toNat < stackBottom

/-- What becomes of user memory `u` and of the memory `m` behind it when the end of the heap is to move to `brk`. -/
structure MovesHeap (u : UserMemory AddressSpace) (m : PhysicalMemory) (brk : UInt64) (u' : UserMemory AddressSpace)
    (m' : PhysicalMemory) : Prop where
  refused : ¬u.AllowsEnd brk → u' = u ∧ m' = m
  moved : u.AllowsEnd brk → u'.brk = brk
  heapStart : u'.heapStart = u.heapStart
  /-- No page is dropped when the heap grows. -/
  grown : u.brk ≤ brk → u'.space = u.space ∧ m' = m
  /-- Just the pages above the new end are let go of, and the others are held in the same frames. -/
  held : u.AllowsEnd brk → ∀ page : Nat,
    u'.space.pages[page]? = if u.Drops brk page then none else u.space.pages[page]?
  /-- No page of the stack is above the end that the heap has had. -/
  stack : u.AllowsEnd brk → ∀ page, IsStackPage page → ¬u.Drops brk page
  /-- The page table knows the pages that are left under the same entries as before and no others. -/
  entry : u.AllowsEnd brk → ∀ page,
    u'.space.translate m' page = if u.Drops brk (page % pageLimit) then none else u.space.translate m page
  /-- The pages that are left have the same bytes. -/
  content : ∀ page : Nat, (u'.space.pages[page]?).isSome → u'.space.content m' page = u.space.content m page
  /-- The same move a second time changes nothing. -/
  again : (u'.setBrk brk) m' = .ok u' m'

private theorem not_drops_of_isStackPage (hbrk : u.brk = u.heapStart ∨ u.brk.toNat < stackBottom) {brk : UInt64}
    (hallows : u.AllowsEnd brk) {page : Nat} (hpage : IsStackPage page) : ¬u.Drops brk page := by
  rintro ⟨hle, hlt⟩
  rcases hbrk with heq | hend
  -- an empty heap has no page above any end that is allowed
  · have hmono : heapEnd u.brk ≤ heapEnd brk := heapEnd_le_heapEnd (heq ▸ hallows.1)
    omega
  · have hbottom := hpage.1
    simp only [heapEnd, pageSize, stackBottom, stackTop] at hlt hend hbottom
    omega

variable {foreign : Surroundings} {owned held : List Nat}

/-- In sound memory the end of the heap moves as it should, and the kernel never stops. -/
theorem setBrk_moves (h : Access.Sound ⟨u, m⟩ foreign owned held) (brk : UInt64) :
    (u.setBrk brk).Ensures m
      (fun u' m' => u.MovesHeap m brk u' m' ∧ Access.Leads foreign owned held ⟨u, m⟩ ⟨u', m'⟩) fun _ _ => False := by
  have hsound : Region.Sound u.space.region m foreign owned held := h.region
  have hmoves : (u.setBrk brk).Ensures m (fun u' m' => u.MovesHeap m brk u' m') fun _ _ => False := by
    have hbrk : u.brk = u.heapStart ∨ u.brk.toNat < stackBottom := h.fine.brk
    rw [setBrk_eq hbrk]
    split
    swap
    next hrange =>
      exact {
        refused := fun _ => ⟨rfl, rfl⟩
        moved := fun hallows => absurd hallows hrange
        heapStart := rfl
        grown := fun _ => ⟨rfl, rfl⟩
        held := fun hallows => absurd hallows hrange
        stack := fun hallows => absurd hallows hrange
        entry := fun hallows => absurd hallows hrange
        content := fun _ _ => rfl
        again := by rw [setBrk_eq hbrk, if_neg hrange]; rfl }
    next hrange =>
    -- the heap ends at `brk` from now on, so the same move again has nothing to drop
    have hagain : ∀ (space : AddressSpace) (m' : PhysicalMemory),
        (UserMemory.mk u.heapStart brk space).setBrk brk m' = .ok ⟨u.heapStart, brk, space⟩ m' := fun space m' => by
      rw [setBrk_eq (.inr hrange.2), if_pos hrange, dif_neg fun h => absurd h.1 (UInt64.lt_irrefl brk)]
      rfl
    split
    next hpages =>
      rw [Run.ensures_bind]
      refine ((u.space.unmapRange_pages _).ensures (AddressSpace.unmapRange_spec hsound _)).mono ?_
      rintro space m' ⟨hheld, hregion, -, -, hcontent, hkept⟩
      exact {
        refused := fun hallows => absurd hrange hallows
        moved := fun _ => rfl
        heapStart := rfl
        grown := fun hle => absurd hpages.1 (UInt64.not_lt.mpr hle)
        held := fun _ => hheld
        stack := fun hallows _ => not_drops_of_isStackPage hbrk hallows
        entry := fun _ => AddressSpace.translate_of_drops hsound.valid hregion.valid hheld hkept
        content := fun page hpage => by
          have hdrop := hheld page
          rw [hcontent, if_neg]
          intro hmem
          rw [if_pos hmem] at hdrop
          exact absurd hpage (by simp [hdrop])
        again := hagain space m' }
    next hpages =>
      have hdrops : ∀ page, ¬u.Drops brk page := fun page hdrop =>
        hpages ⟨UInt64.not_le.mp fun hle => absurd (heapEnd_le_heapEnd hle) (by have := hdrop.1; have := hdrop.2; omega),
          Nat.lt_of_le_of_lt hdrop.1 hdrop.2⟩
      exact {
        refused := fun hallows => absurd hrange hallows
        moved := fun _ => rfl
        heapStart := rfl
        grown := fun _ => ⟨rfl, rfl⟩
        held := fun _ page => (if_neg (hdrops page)).symm
        stack := fun _ page _ => hdrops page
        entry := fun _ page => (if_neg (hdrops _)).symm
        content := fun _ _ => rfl
        again := hagain u.space m }
  exact (hmoves.and (setBrk_spec h brk)).imp (fun _ _ hends => ⟨hends.1, hends.2.1⟩) fun _ _ h => h.1

end UserMemory

end TrapKernel
