import TrapKernel.Proofs.Kernel.ExactCopies
import TrapKernel.Proofs.Memory.FrameNeeds

/-!
# What a page fault leads to

Whether a fault can be answered is decided by three things: the entry of its page, the bounds of heap and stack, and the
number of free frames. If it can, the access that has raised it succeeds the next time. Nothing else changes for any
process.

* `Access.Decides`: how a fault is to be decided.
* `Kernel.Reachable.decidesFaults`: in reachable states all faults below the limit of addresses are decided so.
-/

namespace TrapKernel

open PrivatePages

namespace Access

/-- Whether a fault that is raised by an access to an address has been decided as it should be. -/
structure Decides (a : Access) (address : Nat) (write : Bool) (r : Except Errno Unit) (a' : Access) : Prop where
  /-- The address is bad exactly if its page has no entry and it lies neither in heap nor in stack. -/
  badAddress : r = .error .badAddress ↔ a.translate (pageOf address) = none ∧ a.user.isDemandZero address = false
  /-- There is no memory exactly if fewer frames are free than are needed. -/
  noMemory : ∃ free, a.memory.allocator.available = .ok free ∧
    (r = .error .noMemory ↔ free < a.framesNeeded address write)
  /-- There are no other errors. -/
  errors : ∀ e, r = .error e → e = .badAddress ∨ e = .noMemory
  /-- After success the page has an entry that permits the access. -/
  usable : r = .ok () → ∃ e, a'.translate (pageOf address) = some e ∧ (write = true → e.isWritable = true)
  /-- The same access raises no second fault that would change anything. -/
  again : r = .ok () → (handleFault address write).run a' = .ok (.ok ()) a'
  /-- Every other page number has the same entry as before. -/
  entries : ∀ page, page % pageLimit ≠ pageOf address → a'.translate page = a.translate page
  /-- Every other page has the same frame as before, and the same bytes. -/
  pages : ∀ page, page ≠ pageOf address →
    a'.user.space.pages[page]? = a.user.space.pages[page]? ∧ a'.heldPages page = a.heldPages page
  /-- The page of the address, if it was there, has the same bytes as before. -/
  bytes : ∀ f, a.heldPages (pageOf address) = some f → a'.heldPages (pageOf address) = some f
  /-- An error leaves the whole page table as it was. -/
  unchanged : ∀ e, r = .error e → ∀ page, a'.translate page = a.translate page

variable {a a' : Access} {foreign : Surroundings} {owned held : List Nat} {address : Nat}

/-- A fault changes the entry of one page number only, and none if it cannot be answered. -/
private theorem handleFault_entries (h : a.Sound foreign owned held) (hlt : pageOf address < pageLimit) (write : Bool) :
    (handleFault address write).Ensures a
      (fun r a' => (∀ page, page % pageLimit ≠ pageOf address → translate a' page = a.translate page) ∧
        ∀ e, r = .error e → ∀ page, translate a' page = a.translate page)
      fun _ _ => True := by
  have hsame : ∀ {r : Except Errno Unit},
      (∀ page, page % pageLimit ≠ pageOf address → a.translate page = a.translate page) ∧
        ∀ e, r = .error e → ∀ page, a.translate page = a.translate page := ⟨fun _ _ => rfl, fun _ _ _ => rfl⟩
  unfold handleFault
  simp only [Attempt.ensures_bind, Attempt.ensures_get]
  cases he : a.translate (pageOf address) with
  | some e =>
    dsimp only
    split
    swap
    · exact hsame
    unfold resolveCow
    simp only [Attempt.ensures_bind, Attempt.ensures_get, Attempt.ensures_within]
    refine Run.Ensures.imp (AddressSpace.resolveCow_spec h.region hlt) ?_ fun _ _ _ => trivial
    rintro r m' hr
    match r with
    | .error error =>
      obtain ⟨-, rfl, -⟩ := hr
      exact hsame
    | .ok none =>
      obtain ⟨rfl, -⟩ := hr
      exact hsame
    | .ok (some s') =>
      obtain ⟨_, _, _, _, _, p, htranslate⟩ := hr
      exact ⟨fun page hne => (htranslate page).trans (if_neg hne), fun _ hr => absurd hr (by simp)⟩
  | none =>
    dsimp only
    split
    swap
    · exact hsame
    unfold mapZeroed
    simp only [Attempt.ensures_bind, Attempt.ensures_liftM, Run.ensures_bind, Run.ensures_get, Run.ensures_within]
    refine (AddressSpace.mapZeroed_spec h.region hlt he .userData).imp ?_ fun _ _ _ => trivial
    rintro ⟨s', mapped⟩ m' ⟨-, -, -, hr⟩
    cases mapped with
    | false =>
      obtain ⟨-, htranslate⟩ := hr
      exact ⟨fun page _ => htranslate page, fun _ _ => htranslate⟩
    | true =>
      obtain ⟨p, -, -, -, htranslate⟩ := hr
      exact ⟨fun page hne => (htranslate page).trans (if_neg hne), fun _ hr => absurd hr (by simp)⟩

/-- An access that is permitted raises no fault that would change anything. -/
private theorem handleFault_of_permitted {write : Bool} {e : Entry} (he : a.translate (pageOf address) = some e)
    (hw : write = true → e.isWritable = true) : (handleFault address write).run a = .ok (.ok ()) a := by
  have hfault : ¬(write && !e.isWritable) = true := by
    cases write with
    | false => simp
    | true => simp [hw rfl]
  rw [handleFault, Attempt.run_get_bind, he]
  dsimp only
  rw [if_neg hfault]
  rfl

/-- Page numbers with the same entry have the same frame. -/
private theorem getElem?_eq_of_translate (h : a.Sound foreign owned held) (h' : a'.Sound foreign owned held)
    {page : Nat} (hentry : page < pageLimit → a'.translate page = a.translate page) :
    a'.user.space.pages[page]? = a.user.space.pages[page]? := by
  by_cases hlt : page < pageLimit
  · rw [← AddressSpace.map_frame_translate h.region.valid hlt, ← AddressSpace.map_frame_translate h'.region.valid hlt]
    exact congrArg (Option.map Entry.frame) (hentry hlt)
  · -- page numbers that are too large are held by no process
    have hnone : ∀ {b : Access}, b.Sound foreign owned held → b.user.space.pages[page]? = none := fun hb => by
      by_contra hsome
      obtain ⟨p, hp⟩ := Option.ne_none_iff_exists'.mp hsome
      exact hlt (AddressSpace.lt_of_getElem? hb.region.valid hp)
    rw [hnone h, hnone h']

/-- In sound memory every fault on an address that the page table can tell from others is decided as it should be. -/
private theorem handleFault_decides (h : a.Sound foreign owned held) (hlt : pageOf address < pageLimit) (write : Bool) :
    (handleFault address write).Ensures a
      (fun r a' => a.Decides address write r a' ∧ Leads foreign owned held a a') fun _ _ => False := by
  have hspec := handleFault_spec h address write fun _ : True => plain_of_lt hlt
  have hfaithful := (faithful_of_not_aliased h fun halias => Nat.not_lt.mpr halias.1 hlt).fault write
  have hcount := handleFault_freeCount h hlt write
  have hentries := handleFault_entries h hlt write
  refine (((hspec.and hfaithful).and hcount).and hentries).imp ?_ fun _ _ hstop => hstop.1.1.2
  rintro r a' ⟨⟨⟨⟨hleads, hentry, -⟩, hgrows, -, -⟩, hcount⟩, hother, herror⟩
  have hpages : ∀ page, page ≠ pageOf address → a'.user.space.pages[page]? = a.user.space.pages[page]? :=
    fun page hne => getElem?_eq_of_translate h hleads.sound fun hlt' =>
      hother page (by rwa [Nat.mod_eq_of_lt hlt'])
  refine ⟨⟨?badAddress, ⟨_, h.region.accounts.available_eq, ?noMemory⟩, ?errors, hentry, ?again, hother,
    fun page hne => ⟨hpages page hne, hgrows.same page hne⟩, hgrows.kept _, herror⟩, hleads⟩
  case badAddress =>
    cases r with
    | ok =>
      obtain ⟨-, hzero⟩ := hcount
      refine iff_of_false (by simp) ?_
      rintro ⟨hnone, hnot⟩
      exact absurd (hzero hnone) (by simp [hnot])
    | error e =>
      rcases hcount with ⟨rfl, -, hzero⟩ | ⟨rfl, -, hnone, hnot⟩
      · refine iff_of_false (by simp) ?_
        rintro ⟨hnone, hnot⟩
        exact absurd (hzero hnone) (by simp [hnot])
      · exact iff_of_true rfl ⟨hnone, hnot⟩
  case noMemory =>
    cases r with
    | ok =>
      obtain ⟨hcount, -⟩ := hcount
      refine iff_of_false (by simp) ?_
      omega
    | error e =>
      rcases hcount with ⟨rfl, hfew, -⟩ | ⟨rfl, hneeded, -, -⟩
      · exact iff_of_true rfl hfew
      · refine iff_of_false (by simp) ?_
        omega
  case errors =>
    rintro e rfl
    rcases hcount with ⟨rfl, -⟩ | ⟨rfl, -⟩
    · exact .inr rfl
    · exact .inl rfl
  case again =>
    intro hr
    obtain ⟨e, he, hw⟩ := hentry hr
    exact handleFault_of_permitted he hw

end Access

namespace Kernel

variable {σ φ : Type} [FileSystem σ] [Firmware φ] {entry stackPointer heapStart : UInt64} {memory : PhysicalMemory}
  {files : σ} {firmware : φ} {logLimit : Option LogLevel} {k₀ k : Kernel σ φ}

/-- Whatever traps have come, every fault on an address of any process is decided as it should be. The other processes
have the same entries in their page tables as before, and their pages the same bytes. -/
theorem Reachable.decidesFaults (hboot : boot entry stackPointer heapStart memory files firmware logLimit = .ok k₀)
    (hmemory : memory.Consistent) (h : Reachable k₀ k) {s : Slot} {p : Process AddressSpace}
    (hp : k.table.get s = some p) {address : Nat} (hlt : address < addressLimit) (write : Bool) :
    (Access.handleFault address write).Ensures ⟨p.memory, k.memory⟩
      (fun r a' => Access.Decides ⟨p.memory, k.memory⟩ address write r a' ∧
        ∀ s' q, s' ≠ s → k.table.get s' = some q →
          q.memory.space.translate a'.memory = q.memory.space.translate k.memory ∧
            q.memory.space.content a'.memory = q.memory.space.content k.memory)
      fun _ _ => False := by
  obtain ⟨foreign, hsound⟩ := h.exists_sound hmemory hboot
  have hpage : pageOf address < pageLimit := by
    simp only [pageOf, addressLimit, pageLimit, pageSize] at hlt ⊢
    omega
  refine (Access.handleFault_decides (hsound.access hp) hpage write).mono ?_
  rintro r a' ⟨hdecides, hleads⟩
  refine ⟨hdecides, fun s' q hne hq => ⟨funext fun page => ?_, hsound.content_of_spares hleads.spares hne hq⟩⟩
  exact (hsound.unchanged hleads.spares).translate _ (ProcessTable.mem_otherRegions hne hq) page

/-- The first process writes to a page of its stack that it shares with its child: the copy needs one frame. -/
theorem decidesFaults_sharedStack : ∃ (k₀ k : Kernel EmptyFiles Bench.BenchFirmware) (p : Process AddressSpace),
    benchStart = .ok k₀ ∧ Reachable k₀ k ∧ k.table.get .init = some p ∧
      Access.framesNeeded ⟨p.memory, k.memory⟩ 0x3FFFF000 true = 1 ∧
      (Access.handleFault 0x3FFFF000 true).Ensures ⟨p.memory, k.memory⟩
        (fun r a' => Access.Decides ⟨p.memory, k.memory⟩ 0x3FFFF000 true r a' ∧
          ∀ s' q, s' ≠ .init → k.table.get s' = some q →
            q.memory.space.translate a'.memory = q.memory.space.translate k.memory ∧
              q.memory.space.content a'.memory = q.memory.space.content k.memory)
        fun _ _ => False := by
  obtain ⟨k₀, k, hk₀, hk, hneeded⟩ := exists_of_benchRun (show benchRun shareStack (fun k =>
    (k.table.get .init).any fun p => Access.framesNeeded ⟨p.memory, k.memory⟩ 0x3FFFF000 true = 1) = true by
      decide +kernel)
  obtain ⟨p, hp, hone⟩ := (Option.any_eq_true _ _).mp hneeded
  exact ⟨k₀, k, p, hk₀, hk, hp, of_decide_eq_true hone,
    Reachable.decidesFaults hk₀ consistent_benchMemory hk hp (show 0x3FFFF000 < addressLimit by decide) true⟩

end Kernel

end TrapKernel
