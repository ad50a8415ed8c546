import TrapKernel.Proofs.Memory.FailedForks

/-!
# How many frames are needed

A frame is taken for every new page, for every node of a page table that is missing on the way to it, and for every copy
of a page that others share. How many an operation needs can be told beforehand, and it fails exactly if there are fewer.

* `PageTable.missing`: the nodes that are missing on the way to a page number.
* `PageTable.map_freeCount`, `AddressSpace.mapZeroed_freeCount`: what it takes to map a page number.
* `AddressSpace.resolveCow_freeCount`: what it takes to end the sharing of a page.
* `Access.handleFault_freeCount`: what it takes to answer a page fault.
-/

namespace TrapKernel

open PhysicalMemory

variable {m m' : PhysicalMemory} {foreign : Surroundings} {owned held : List Nat}

namespace PhysicalMemory

/-- The number of frames that can still be taken. -/
def freeCount (m : PhysicalMemory) : Nat := m.allocator.limit - m.allocator.next + m.allocator.recycled.length

private theorem freeCount_congr (h : m'.allocator = m.allocator) : m'.freeCount = m.freeCount := by
  rw [freeCount, freeCount, h]

theorem Accounts.available_eq (h : m.Accounts foreign owned held) : m.allocator.available = .ok m.freeCount :=
  if_pos h.next_le

/-- A frame can be taken as long as there are free ones, and then there is one less. -/
private theorem takeFrame_freeCount (h : m.Accounts foreign owned held) :
    takeFrame.Ensures m
      (fun r m' => match r with
        | none => m.freeCount = 0
        | some _ => m'.freeCount + 1 = m.freeCount)
      fun _ _ => False := by
  have hnext := h.next_le
  unfold takeFrame
  simp only [Run.ensures_bind, Run.ensures_get]
  cases halloc : m.allocator.alloc with
  | none =>
    show m.allocator.limit - m.allocator.next + m.allocator.recycled.length = 0
    obtain ⟨hrecycled, hend⟩ := FrameAllocator.alloc_eq_none halloc
    rw [hrecycled, List.length_nil]
    omega
  | some x =>
    obtain ⟨p, allocator⟩ := x
    simp only [Run.ensures_bind, Run.ensures_set, Run.ensures_pure]
    show allocator.limit - allocator.next + allocator.recycled.length + 1 =
      m.allocator.limit - m.allocator.next + m.allocator.recycled.length
    obtain ⟨rest, hrecycled, rfl⟩ | ⟨-, -, hend, rfl⟩ := FrameAllocator.alloc_eq_some halloc
    · rw [hrecycled, List.length_cons]
      rfl
    · show m.allocator.limit - (m.allocator.next + 1) + m.allocator.recycled.length + 1 = _
      omega

/-- A holder that is not the last one lets go of a frame, which is not given back. -/
private theorem letGo_freeCount {p : Nat} (h : 1 < m.holderCount p) :
    (letGo p).Ensures m (fun _ m' => m'.freeCount = m.freeCount) fun _ _ => False := by
  unfold letGo
  simp only [Run.ensures_bind, Run.ensures_get, Run.ensures_set, if_neg (Nat.not_le.mpr h), Run.ensures_pure]
  rfl

/-! ### Missing nodes -/

/-- The number of nodes that are missing on the way from a node along a path of indexes. -/
def missingNodes (m : PhysicalMemory) (node : Nat) : List (Fin 512) → Nat
  | [] => 0
  | i :: rest => if (m.entry node i).isValid then m.missingNodes (m.entry node i).frame rest else rest.length + 1

/-- No way leads on from a node of zeros. -/
private theorem missingNodes_of_zero {node : Nat} (h : m.frame node = .zero) (path : List (Fin 512)) :
    m.missingNodes node path = path.length := by
  cases path with
  | nil => rfl
  | cons i rest => rw [missingNodes, isValid_of_zero h, if_neg (by simp), List.length_cons]

/-- As many nodes are missing as before if the nodes on the way have not changed. -/
private theorem missingNodes_congr {node : Nat} {path : List (Fin 512)}
    (h : ∀ before n, before <+: path → m.descend node before = some n → m'.frame n = m.frame n) :
    m'.missingNodes node path = m.missingNodes node path := by
  induction path generalizing node with
  | nil => rfl
  | cons i rest ih =>
    have hentry : m'.entry node i = m.entry node i := entry_congr (h [] node List.nil_prefix rfl) i
    rw [missingNodes, missingNodes, hentry]
    split
    next hvalid =>
      refine ih fun before n hbefore hn => h (i :: before) n ?_ ?_
      · exact List.cons_prefix_cons.mpr ⟨rfl, hbefore⟩
      · rw [descend, if_pos hvalid, hn]
    · rfl

private theorem missingNodes_le (m : PhysicalMemory) (node : Nat) (path : List (Fin 512)) :
    m.missingNodes node path ≤ path.length := by
  induction path generalizing node with
  | nil => exact Nat.le_refl 0
  | cons i rest ih =>
    rw [missingNodes, List.length_cons]
    split
    · exact Nat.le_succ_of_le (ih _)
    · exact Nat.le_refl _

end PhysicalMemory

/-! ### Page tables -/

namespace PageTable

variable {t : PageTable}

/-- The number of nodes that are missing on the way to the leaf of a page number. -/
def missing (t : PageTable) (m : PhysicalMemory) (page : Nat) : Nat := m.missingNodes t.root (upperPath page)

private theorem missing_le (t : PageTable) (m : PhysicalMemory) (page : Nat) : t.missing m page ≤ 2 :=
  missingNodes_le m t.root (upperPath page)

private theorem Tree.missing_congr (h : t.Tree m) (hframe : ∀ p ∈ t.nodes, m'.frame p = m.frame p) (page : Nat) :
    t.missing m' page = t.missing m page :=
  missingNodes_congr fun _ n hbefore hn => hframe n (h.node_mem hbefore.length_le hn)

/-- The missing nodes are added, one frame for each of them, if there are frames enough. -/
private theorem descendCreating_freeCount {node : Nat} {path : List (Fin 512)} {nodes : List Nat}
    (hacc : m.Accounts foreign (nodes ++ owned) held)
    (hway : ∀ before n, before <+: path → m.descend node before = some n → n ∈ nodes) :
    (descendCreating node path nodes).Ensures m
      (fun r m' => match r.1 with
        | some _ => m'.freeCount + m.missingNodes node path = m.freeCount
        | none => m.freeCount < m.missingNodes node path)
      fun _ _ => False := by
  induction path generalizing node nodes m with
  | nil => exact rfl
  | cons i rest ih =>
    unfold descendCreating
    simp only [Run.ensures_bind, Run.ensures_get, missingNodes]
    by_cases hvalid : (m.entry node i).isValid = true
    · rw [if_pos hvalid, if_pos hvalid]
      refine ih hacc fun before n hbefore hn => hway (i :: before) n ?_ ?_
      · exact List.cons_prefix_cons.mpr ⟨rfl, hbefore⟩
      · rw [descend, if_pos hvalid, hn]
    · rw [if_neg hvalid, if_neg hvalid, Run.ensures_bind]
      refine ((takeFrame_accounts hacc).and (takeFrame_freeCount hacc)).imp ?_ fun _ _ h => h.1
      rintro r m₁ ⟨hr, hcount⟩
      cases r with
      | none =>
        show m.freeCount < rest.length + 1
        rw [hcount]
        exact Nat.succ_pos _
      | some p =>
        obtain ⟨hacc₁, hframe, -⟩ := hr
        dsimp only at hcount ⊢
        rw [Run.ensures_bind, Run.ensures_modify, Entry.frame_make (hacc₁.lt_frameLimit (.inl List.mem_cons_self))]
        set m₂ := m₁.setEntry node i (.make p .valid) with hm₂
        have hmem : node ∈ nodes := hway [] node List.nil_prefix rfl
        have hne : node ≠ p := by
          rintro rfl
          exact hacc₁.of_owned.2.1 (List.mem_append_left _ hmem)
        have hzero : m₂.frame p = .zero := by
          rw [hm₂, frame_setEntry_of_ne hne, hframe, if_pos rfl]
        have hacc₂ : m₂.Accounts foreign (nodes ++ [p] ++ owned) held :=
          (hacc₁.setFrame _ _).perm (by rw [List.append_assoc]; exact List.perm_middle.symm) (.refl _)
        have hcount₂ : m₂.freeCount + 1 = m.freeCount := hcount
        -- the new node leads nowhere, so that all nodes further down are missing
        have hway₂ : ∀ before n, before <+: rest → m₂.descend p before = some n → n ∈ nodes ++ [p] := by
          intro before n _ hn
          cases before with
          | nil => exact Option.some.inj hn ▸ List.mem_append_right _ List.mem_cons_self
          | cons j before =>
            rw [descend, isValid_of_zero hzero] at hn
            exact absurd hn (by simp)
        refine (ih hacc₂ hway₂).mono fun r m₃ hr => ?_
        rw [missingNodes_of_zero hzero] at hr
        cases hleaf : r.1 with
        | some leaf =>
          rw [hleaf] at hr
          dsimp only at hr ⊢
          omega
        | none =>
          rw [hleaf] at hr
          dsimp only at hr ⊢
          omega

/-- To map a page number takes a frame for every missing node, and fails exactly if there are fewer frames. -/
theorem map_freeCount (h : t.Tree m) (hacc : m.Accounts foreign (t.nodes ++ owned) held) (page frame : Nat)
    (flags : EntryFlags) :
    (t.map page frame flags).Ensures m
      (fun r m' => if r.2 then m'.freeCount + t.missing m page = m.freeCount else m.freeCount < t.missing m page)
      fun _ _ => True := by
  unfold map
  rw [Run.ensures_bind]
  refine (descendCreating_freeCount hacc fun before n hbefore hn => h.node_mem hbefore.length_le hn).imp ?_
    fun _ _ _ => trivial
  rintro ⟨leaf, nodes⟩ m' hcount
  cases leaf with
  | none => exact hcount
  | some leaf =>
    simp only [Run.ensures_bind, Run.ensures_get]
    split
    · exact trivial
    · exact hcount

/-- To remap a page number changes nothing about the frames. -/
private theorem remap_books (t : PageTable) (m : PhysicalMemory) (page frame : Nat) (flags : EntryFlags) :
    (t.remap page frame flags).Ensures m (fun _ m' => m'.allocator = m.allocator ∧ m'.holders = m.holders)
      fun _ _ => True := by
  unfold remap
  simp only [Run.ensures_bind, Run.ensures_get]
  split
  · exact trivial
  · split
    · exact ⟨rfl, rfl⟩
    · exact trivial

end PageTable

/-! ### Address spaces -/

namespace AddressSpace

variable {s : AddressSpace} {page : Nat}

/-- To map a page number to a new frame takes that frame and one for every missing node. -/
theorem mapZeroed_freeCount (h : s.region.Sound m foreign owned held) (page : Nat) (flags : EntryFlags) :
    (s.mapZeroed page flags).Ensures m
      (fun r m' =>
        if r.2 then m'.freeCount + (1 + s.table.missing m page) = m.freeCount
        else m.freeCount < 1 + s.table.missing m page)
      fun _ _ => True := by
  unfold mapZeroed
  rw [Run.ensures_bind]
  refine ((takeFrame_accounts h.accounts).and (takeFrame_freeCount h.accounts)).imp ?_ fun _ _ _ => trivial
  rintro r m₁ ⟨hr, hcount⟩
  cases r with
  | none =>
    show m.freeCount < 1 + s.table.missing m page
    rw [hcount, Nat.add_comm]
    exact Nat.succ_pos _
  | some p =>
    obtain ⟨hacc₁, hframe, -⟩ := hr
    dsimp only at hcount ⊢
    have hnodes : ∀ q ∈ s.table.nodes, m₁.frame q = m.frame q := fun q hq => by
      rw [hframe, if_neg]
      rintro rfl
      exact hacc₁.of_owned.2.1 (List.mem_append_left _ hq)
    have hmissing := h.valid.tree.missing_congr hnodes page
    have hacc₁' : m₁.Accounts foreign (s.table.nodes ++ p :: owned) (s.region.frames ++ held) :=
      hacc₁.perm List.perm_middle.symm (.refl _)
    rw [Run.ensures_bind]
    refine (PageTable.map_freeCount (h.valid.tree.congr hnodes) hacc₁' page p flags).mono ?_
    rintro ⟨table, mapped⟩ m₂ hmap
    rw [hmissing] at hmap
    cases mapped with
    | true =>
      have hmap : m₂.freeCount + s.table.missing m page = m₁.freeCount := hmap
      show m₂.freeCount + (1 + s.table.missing m page) = m.freeCount
      omega
    | false =>
      have hmap : m₁.freeCount < s.table.missing m page := hmap
      have hfew : m.freeCount < 1 + s.table.missing m page := by omega
      simp only [Bool.false_eq_true, if_false, Run.ensures_bind, Run.ensures_pure]
      exact Run.ensures_iff.mpr ⟨fun _ _ _ => hfew, fun _ _ _ => trivial⟩

/-- To end the sharing of a page takes a frame if others hold that of the page too, and none otherwise. -/
theorem resolveCow_freeCount (h : s.region.Sound m foreign owned held) (hlt : page < pageLimit) {e : Entry}
    (he : s.translate m page = some e) (hcow : e.isCow = true) :
    (s.resolveCow page).Ensures m
      (fun r m' => match r with
        | .ok _ => m'.freeCount + (if 1 < m.holderCount e.frame then 1 else 0) = m.freeCount
        | .error _ => 1 < m.holderCount e.frame ∧ m.freeCount = 0)
      fun _ _ => True := by
  have hpage := getElem?_of_translate h hlt he
  have hpos : 0 < m.holderCount e.frame := by
    have hmem : e.frame ∈ s.region.frames ++ held := List.mem_append_left _ (mem_frames hpage)
    rw [h.accounts.holderCount_eq hmem]
    exact List.count_pos_iff.mpr hmem
  by_cases hone : m.holderCount e.frame = 1
  · refine (resolveCow_alone h hlt he hcow hone).imp ?_ fun _ _ _ => trivial
    rintro _ m' ⟨rfl, halloc, -⟩
    dsimp only
    rw [freeCount_congr halloc, if_neg (by omega)]
    rfl
  have hmany : 1 < m.holderCount e.frame := by omega
  unfold resolveCow
  simp only [Attempt.ensures_bind, Attempt.ensures_get, he, hcow, Bool.not_true, Bool.false_eq_true, if_false, hpage,
    if_neg hone, Attempt.ensures_liftM, if_pos hmany]
  refine ((takeFrame_accounts h.accounts).and (takeFrame_freeCount h.accounts)).imp ?_ fun _ _ _ => trivial
  rintro r m₁ ⟨hr, hcount⟩
  cases r with
  | none => exact ⟨hmany, hcount⟩
  | some copy =>
    obtain ⟨hacc₁, -, hholders⟩ := hr
    have hne : copy ≠ e.frame := by
      rintro rfl
      exact hacc₁.of_owned.2.2 (List.mem_append_left _ (mem_frames hpage))
    simp only [Attempt.ensures_bind, Attempt.ensures_modify, Attempt.ensures_liftM]
    refine (PageTable.remap_books _ _ _ _ _).mono ?_
    rintro _ m₂ ⟨halloc₂, hholders₂⟩
    rw [hold, Run.ensures_modify]
    have hmany₂ : 1 < (m₂.setHolderCount copy (m₂.holderCount copy + 1)).holderCount e.frame := by
      rw [holderCount_setHolderCount, if_neg hne, holderCount_congr hholders₂]
      show 1 < m₁.holderCount e.frame
      rwa [holderCount_congr hholders]
    refine (letGo_freeCount hmany₂).imp (fun _ m₃ hcount₃ => ?_) fun _ _ _ => trivial
    show m₃.freeCount + 1 = m.freeCount
    have hcount₂ : m₂.freeCount = m₁.freeCount := freeCount_congr halloc₂
    have hcount₃ : m₃.freeCount = m₂.freeCount := hcount₃
    have hcount : m₁.freeCount + 1 = m.freeCount := hcount
    omega

end AddressSpace

/-! ### Page faults -/

namespace Access

variable {a : Access}

/-- The number of frames that it takes to answer a page fault: one to write to a page whose frame others hold too, and one
besides the missing nodes for the first touch of a page of heap or stack. -/
def framesNeeded (a : Access) (address : Nat) (write : Bool) : Nat :=
  match a.translate (pageOf address) with
  | some e => if write = true ∧ e.isCow = true ∧ 1 < a.memory.holderCount e.frame then 1 else 0
  | none => if a.user.isDemandZero address then 1 + a.user.space.table.missing a.memory (pageOf address) else 0

theorem framesNeeded_le (a : Access) (address : Nat) (write : Bool) : a.framesNeeded address write ≤ 3 := by
  have hmissing := a.user.space.table.missing_le a.memory (pageOf address)
  unfold framesNeeded
  split <;> split <;> omega

/-- A page fault takes the frames that it needs, fails for want of frames exactly if there are fewer, and finds the
address bad exactly if its page is not there and cannot come into being. -/
theorem handleFault_freeCount (h : a.Sound foreign owned held) {address : Nat} (hlt : pageOf address < pageLimit)
    (write : Bool) :
    (handleFault address write).Ensures a
      (fun r a' => match r with
        | .ok () => a'.memory.freeCount + a.framesNeeded address write = a.memory.freeCount ∧
            (a.translate (pageOf address) = none → a.user.isDemandZero address = true)
        | .error e => e = .noMemory ∧ a.memory.freeCount < a.framesNeeded address write ∧
              (a.translate (pageOf address) = none → a.user.isDemandZero address = true) ∨
            e = .badAddress ∧ a.framesNeeded address write = 0 ∧ a.translate (pageOf address) = none ∧
              a.user.isDemandZero address = false)
      fun _ _ => True := by
  unfold handleFault framesNeeded
  simp only [Attempt.ensures_bind, Attempt.ensures_get]
  cases he : a.translate (pageOf address) with
  | some e =>
    dsimp only
    by_cases hfault : (write && !e.isWritable) = true
    · rw [if_pos hfault]
      obtain ⟨rfl, hw⟩ : write = true ∧ e.isWritable = false := by simpa using hfault
      have hcow : e.isCow = true := (h.fine.usable _ _ he).resolve_left (by simp [hw])
      unfold resolveCow
      simp only [Attempt.ensures_bind, Attempt.ensures_get, Attempt.ensures_within, hcow, true_and]
      have hcount := AddressSpace.resolveCow_freeCount h.region hlt he hcow
      refine Run.Ensures.imp (Run.Ensures.and hcount (AddressSpace.resolveCow_spec h.region hlt)) ?_ fun _ _ _ => trivial
      rintro r m' ⟨hcount, hr⟩
      cases r with
      | error error =>
        obtain ⟨rfl, -, -⟩ := hr
        obtain ⟨hmany, hzero⟩ := hcount
        refine .inl ⟨rfl, ?_, by simp⟩
        rw [if_pos hmany, hzero]
        exact Nat.one_pos
      | ok resolved =>
        cases resolved with
        | none => exact absurd (hr.2 e he) (by simp [hcow])
        | some s' => exact ⟨hcount, by simp⟩
    · -- a page that can be written has one holder
      have hzero : ¬(write = true ∧ e.isCow = true ∧ 1 < a.memory.holderCount e.frame) := by
        rintro ⟨rfl, -, hmany⟩
        have hw : e.isWritable = true := by simpa using hfault
        have hone : a.memory.holderCount e.frame = 1 := h.region.exclusive _ _ he hw
        omega
      rw [if_neg hfault, if_neg hzero]
      exact ⟨rfl, by simp⟩
  | none =>
    dsimp only
    split
    next hzero =>
      unfold mapZeroed
      simp only [Attempt.ensures_bind, Attempt.ensures_liftM, Run.ensures_bind, Run.ensures_get, Run.ensures_within]
      refine (AddressSpace.mapZeroed_freeCount h.region (pageOf address) .userData).imp ?_ fun _ _ _ => trivial
      rintro ⟨s', mapped⟩ m' hcount
      cases mapped with
      | true => exact ⟨hcount, fun _ => hzero⟩
      | false => exact .inl ⟨rfl, hcount, fun _ => hzero⟩
    next hzero => exact .inr ⟨rfl, rfl, rfl, Bool.eq_false_iff.mpr hzero⟩

end Access

end TrapKernel
