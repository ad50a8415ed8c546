import TrapKernel.Proofs.Memory.Faults
import TrapKernel.Proofs.Respects

/-!
# Sharing that fails

When an address space cannot be shared since there are not frames enough, the second one is given up, and every frame
has as many holders as before. Pages of the first one may stay marked as shared. Their frames have one holder, so the
next write makes such a page writable where it is.

* `AddressSpace.fork_holders`: a fork that fails leaves the number of holders of every frame as it was.
* `Access.handleFault_alone`: a write to a page that is marked, and whose frame has a single holder, needs no frame.
-/

namespace TrapKernel

open PhysicalMemory

variable {m m' : PhysicalMemory} {foreign : Surroundings} {owned held : List Nat} {q : Nat}

namespace PhysicalMemory

/-- Whether a frame has as many holders in one memory as in another. -/
def SameHolders (q : Nat) (m m' : PhysicalMemory) : Prop := m'.holderCount q = m.holderCount q

instance : IsPreorder PhysicalMemory (SameHolders q) where
  refl _ := rfl
  trans _ _ _ h h' := Eq.trans h' h

private theorem takeFrame_sameHolders : takeFrame.Respects (SameHolders q) := by
  refine ⟨fun m => ?_⟩
  unfold takeFrame
  simp only [Run.ensures_bind, Run.ensures_get]
  cases m.allocator.alloc with
  | none => exact refl_of (SameHolders q) m
  | some x => exact refl_of (SameHolders q) m

private theorem giveFrame_sameHolders (p : Nat) : (giveFrame p).Respects (SameHolders q) := by
  refine ⟨fun m => ?_⟩
  unfold giveFrame
  simp only [Run.ensures_bind, Run.ensures_get]
  cases m.allocator.dealloc p with
  | error e => exact refl_of (SameHolders q) m
  | ok allocator => exact refl_of (SameHolders q) m

private theorem giveFrames_sameHolders (l : List Nat) : (giveFrames l).Respects (SameHolders q) := by
  induction l with
  | nil => exact Run.respects_pure _
  | cons p rest ih =>
    unfold giveFrames
    exact (giveFrame_sameHolders p).bind fun _ => ih

private theorem sameHolders_setHolderCount {p : Nat} (hp : p ≠ q) (n : Nat) : SameHolders q m (m.setHolderCount p n) :=
  (holderCount_setHolderCount m p q n).trans (if_neg hp)

private theorem hold_sameHolders {p : Nat} (hp : p ≠ q) : (hold p).Respects (SameHolders q) :=
  .modify fun _ => sameHolders_setHolderCount hp _

private theorem letGo_sameHolders {p : Nat} (hp : p ≠ q) : (letGo p).Respects (SameHolders q) := by
  refine ⟨fun m => ?_⟩
  have hset : SameHolders q m (m.setHolderCount p (m.holderCount p - 1)) := sameHolders_setHolderCount hp _
  unfold letGo
  simp only [Run.ensures_bind, Run.ensures_get, Run.ensures_set]
  split
  · exact ((giveFrame_sameHolders p).ensures _).imp (fun _ _ => trans_of (SameHolders q) hset)
      fun _ _ => trans_of (SameHolders q) hset
  · exact hset

end PhysicalMemory

namespace PageTable

private theorem descendCreating_sameHolders (node : Nat) (path : List (Fin 512)) (nodes : List Nat) :
    (descendCreating node path nodes).Respects (SameHolders q) := by
  induction path generalizing node nodes with
  | nil => exact Run.respects_pure _
  | cons i rest ih =>
    unfold descendCreating
    refine Run.respects_get.bind fun m => ?_
    dsimp only
    split
    · exact ih _ _
    · refine takeFrame_sameHolders.bind fun r => ?_
      cases r with
      | none => exact Run.respects_pure _
      | some p => exact Run.Respects.bind (.modify fun _ => rfl) fun _ => ih _ _

private theorem map_sameHolders (t : PageTable) (page frame : Nat) (flags : EntryFlags) :
    (t.map page frame flags).Respects (SameHolders q) := by
  unfold map
  refine (descendCreating_sameHolders _ _ _).bind fun ⟨leaf, nodes⟩ => ?_
  cases leaf with
  | none => exact Run.respects_pure _
  | some node =>
    refine Run.respects_get.bind fun m => ?_
    dsimp only
    have hset : Run.Respects (SameHolders q) (do
        modify fun m => m.setEntry node (leafIndex page) (.make frame (flags ||| .valid))
        return ({ t with nodes }, true) : Run PhysicalMemory (PageTable × Bool)) :=
      Run.Respects.bind (.modify fun _ => rfl) fun _ => Run.respects_pure _
    split
    · exact (Run.respects_crash _).bind fun _ => hset
    · exact hset

private theorem remap_sameHolders (t : PageTable) (page frame : Nat) (flags : EntryFlags) :
    (t.remap page frame flags).Respects (SameHolders q) := by
  refine ⟨fun m => ?_⟩
  unfold remap
  simp only [Run.ensures_bind, Run.ensures_get]
  split
  · exact refl_of (SameHolders q) m
  · split <;> exact refl_of (SameHolders q) m

end PageTable

namespace AddressSpace

private theorem letGoAll_sameHolders {l : List (Nat × Nat)} (hl : q ∉ l.map Prod.snd) :
    (letGoAll l).Respects (SameHolders q) := by
  induction l with
  | nil => exact Run.respects_pure _
  | cons y rest ih =>
    obtain ⟨page, p⟩ := y
    rw [List.map_cons, List.mem_cons, not_or] at hl
    unfold letGoAll
    exact (letGo_sameHolders (Ne.symm hl.1)).bind fun _ => ih hl.2

private theorem release_sameHolders {s : AddressSpace} (hs : q ∉ s.region.frames) :
    s.release.Respects (SameHolders q) := by
  unfold release PageTable.release
  exact (giveFrames_sameHolders _).bind fun _ => letGoAll_sameHolders hs

/-- To share pages leaves the other frames alone. -/
private theorem sharePages_sameHolders {parent : PageTable} {l : List (Nat × Nat)} {child : AddressSpace}
    (hl : q ∉ l.map Prod.snd) (hchild : q ∉ child.region.frames) (m : PhysicalMemory) :
    (sharePages parent l child).Ensures m (fun r m' => SameHolders q m m' ∧ q ∉ r.1.region.frames) fun _ _ => True := by
  induction l generalizing child m with
  | nil => exact ⟨refl_of (SameHolders q) m, hchild⟩
  | cons y rest ih =>
    obtain ⟨page, p⟩ := y
    rw [List.map_cons, List.mem_cons, not_or] at hl
    have hinsert : ∀ table, q ∉ (⟨table, child.pages.insert page p⟩ : AddressSpace).region.frames := by
      intro table hq
      obtain ⟨page', hpage'⟩ := mem_frames_iff.mp hq
      simp only [Std.TreeMap.getElem?_insert, Nat.compare_eq_eq] at hpage'
      split at hpage'
      · exact hl.1 (Option.some.inj hpage').symm
      · exact hchild (mem_frames_iff.mpr ⟨page', hpage'⟩)
    have hmap : ∀ (flags : EntryFlags) (m : PhysicalMemory), Run.Ensures (do
        let y ← child.table.map page p flags
        if y.2 then
          hold p
          sharePages parent rest { table := y.1, pages := child.pages.insert page p }
        else return ({ child with table := y.1 }, false)) m
        (fun r m' => SameHolders q m m' ∧ q ∉ r.1.region.frames) fun _ _ => True := by
      intro flags m
      rw [Run.ensures_bind]
      refine ((PageTable.map_sameHolders (q := q) _ _ _ _).ensures m).imp ?_ fun _ _ _ => trivial
      rintro ⟨table, mapped⟩ m₁ h₁
      cases mapped with
      | false => exact ⟨h₁, hchild⟩
      | true =>
        simp only [if_true]
        rw [Run.ensures_bind]
        refine ((hold_sameHolders (Ne.symm hl.1)).ensures m₁).imp ?_ fun _ _ _ => trivial
        intro _ m₂ h₂
        refine (ih hl.2 (hinsert table) m₂).mono fun r m₃ h₃ => ⟨?_, h₃.2⟩
        exact trans_of (SameHolders q) (trans_of (SameHolders q) h₁ h₂) h₃.1
    unfold sharePages
    simp only [Run.ensures_bind, Run.ensures_get]
    cases parent.translate m page with
    | none => trivial
    | some e =>
      dsimp only
      split
      · rw [Run.ensures_bind]
        refine ((PageTable.remap_sameHolders (q := q) _ _ _ _).ensures m).imp ?_ fun _ _ _ => trivial
        exact fun _ m₁ h₁ => (hmap _ m₁).mono fun r m₂ h₂ => ⟨trans_of (SameHolders q) h₁ h₂.1, h₂.2⟩
      · exact hmap _ m

/-- A fork leaves the frames of others alone. -/
private theorem fork_sameHolders {s : AddressSpace} (hs : q ∉ s.region.frames) (m : PhysicalMemory) :
    s.fork.Ensures m (fun _ m' => SameHolders q m m') fun _ _ => True := by
  unfold fork create PageTable.create
  simp only [Run.ensures_bind]
  refine ((takeFrame_sameHolders (q := q)).ensures m).imp ?_ fun _ _ _ => trivial
  intro r m₁ h₁
  cases r with
  | none => exact h₁
  | some p =>
    dsimp only
    rw [Run.ensures_pure, Run.ensures_pure]
    dsimp only
    rw [Run.ensures_bind]
    have hnone : q ∉ (⟨⟨p, [p]⟩, ∅⟩ : AddressSpace).region.frames := List.not_mem_nil
    refine (sharePages_sameHolders hs hnone m₁).mono ?_
    rintro ⟨child, complete⟩ m₂ ⟨h₂, hchild⟩
    have h₁₂ : SameHolders q m m₂ := trans_of (SameHolders q) h₁ h₂
    cases complete with
    | true => exact h₁₂
    | false =>
      simp only [Bool.false_eq_true, if_false, Run.ensures_bind]
      exact ((release_sameHolders hchild).ensures m₂).imp (fun _ _ => trans_of (SameHolders q) h₁₂) fun _ _ _ => trivial

/-- After a fork that has failed, every frame has as many holders as before. -/
theorem fork_holders {s : AddressSpace} (h : s.region.Sound m foreign owned held) :
    s.fork.Ensures m (fun r m' => r = none → ∀ q, m'.holderCount q = m.holderCount q) fun _ _ => False := by
  refine Run.ensures_iff.mpr ⟨fun r m' hr hnone q => ?_, fun _ _ => (fork_spec h).of_error⟩
  subst hnone
  obtain ⟨-, -, -, h'⟩ := (fork_spec h).of_ok hr
  by_cases hq : q ∈ foreign.frames
  · have hframes : q ∉ s.region.frames := fun hmem =>
      (h.accounts.not_owned_of_held (List.mem_append_left _ hmem)).1 hq
    exact (fork_sameHolders hframes m).of_ok hr
  · rw [h'.accounts.holders q hq, h.accounts.holders q hq]

/-! ### Pages that stay marked -/

/-- A page that is marked as shared becomes writable where it is if its frame has no other holder. -/
theorem resolveCow_alone {s : AddressSpace} (h : s.region.Sound m foreign owned held) {page : Nat} (hlt : page < pageLimit)
    {e : Entry} (he : s.translate m page = some e) (hcow : e.isCow = true) (hone : m.holderCount e.frame = 1) :
    (s.resolveCow page).Ensures m
      (fun r m' => r = .ok (some s) ∧ m'.allocator = m.allocator ∧
        ∃ e', s.translate m' page = some e' ∧ e'.isWritable = true)
      fun _ _ => False := by
  have hpage := getElem?_of_translate h hlt he
  unfold resolveCow
  simp only [Attempt.ensures_bind, Attempt.ensures_get, he, hcow, Bool.not_true, Bool.false_eq_true, if_false, hpage, hone,
    if_true, Attempt.ensures_liftM]
  refine (PageTable.remap_spec h.valid.tree (Option.isSome_iff_exists.mpr ⟨e, he⟩) _ _).mono ?_
  rintro _ m' ⟨-, halloc, htranslate⟩
  refine ⟨rfl, halloc, _, (htranslate page).trans (if_pos rfl), ?_⟩
  rw [Entry.isWritable, Entry.flags_make, EntryFlags.unshared_writable]

end AddressSpace

namespace Access

/-- A write to a page that is marked as shared needs no frame if that of the page has no other holder. -/
theorem handleFault_alone {a : Access} (h : a.user.space.region.Sound a.memory foreign owned held) {address : Nat}
    (hlt : pageOf address < pageLimit) {e : Entry} (he : a.translate (pageOf address) = some e) (hcow : e.isCow = true)
    (hw : e.isWritable = false) (hone : a.memory.holderCount e.frame = 1) :
    (handleFault address true).Ensures a
      (fun r a' => r = .ok () ∧ a'.memory.allocator = a.memory.allocator ∧
        ∃ e', a'.translate (pageOf address) = some e' ∧ e'.isWritable = true)
      fun _ _ => False := by
  unfold handleFault resolveCow
  simp only [Attempt.ensures_bind, Attempt.ensures_get, he, hw, Bool.not_false, Bool.and_true, if_true, Attempt.ensures_within]
  refine Run.Ensures.imp (AddressSpace.resolveCow_alone h hlt he hcow hone) ?_ fun _ _ => False.elim
  rintro _ m' ⟨rfl, halloc, hwritable⟩
  exact ⟨rfl, halloc, hwritable⟩

end Access

end TrapKernel
