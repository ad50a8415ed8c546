import TrapKernel.Kernel.State
import TrapKernel.Machine.Clock
import TrapKernel.Proofs.Run

/-!
# What computations never stop for

Only the scheduler stops the kernel because no process is ready. Nothing in memory, file system and user copies does,
whatever the state is. `Run.Avoids` says of a computation that it never stops for a cause of some kind.

* `PhysicalMemory.neverIdle`: the services of paged memory.
* `Access.writeUser_neverIdle`, `Access.readString_neverIdle`: the user copies, for every memory system.
-/

namespace TrapKernel

variable {σ τ α γ : Type} {kind : Panic → Prop}

/-- Whether a computation never stops for a cause of some kind. -/
structure Run.Avoids (kind : Panic → Prop) (op : Run σ α) : Prop where
  ensures : ∀ s, op.Ensures s (fun _ _ => True) fun p _ => ¬kind p

/-- `Run.Avoids` for a computation that may fail. -/
structure Attempt.Avoids (kind : Panic → Prop) (op : Attempt σ α) : Prop where
  ensures : ∀ s, op.Ensures s (fun _ _ => True) fun p _ => ¬kind p

/-- Whether a computation never stops because no process is ready. -/
abbrev Run.NeverIdle (op : Run σ α) : Prop := op.Avoids (· = .noReadyProcess)

/-- `Run.NeverIdle` for a computation that may fail. -/
abbrev Attempt.NeverIdle (op : Attempt σ α) : Prop := op.Avoids (· = .noReadyProcess)

namespace Run

theorem avoids_pure (a : α) : (pure a : Run σ α).Avoids kind := ⟨fun _ => trivial⟩

private theorem avoids_get : (get : Run σ σ).Avoids kind := ⟨fun _ => trivial⟩

private theorem avoids_set (s : σ) : (set s : Run σ PUnit).Avoids kind := ⟨fun _ => trivial⟩

private theorem avoids_modify (f : σ → σ) : (modify f : Run σ PUnit).Avoids kind := ⟨fun _ => trivial⟩

private theorem avoids_crash {p : Panic} (h : ¬kind p) : (crash p : Run σ α).Avoids kind := ⟨fun _ => h⟩

theorem Avoids.bind {x : Run σ γ} {f : γ → Run σ α} (hx : x.Avoids kind) (hf : ∀ c, (f c).Avoids kind) :
    (x >>= f).Avoids kind :=
  ⟨fun s => ensures_bind.mpr ((hx.ensures s).mono fun c t _ => (hf c).ensures t)⟩

theorem Avoids.within {view : σ → τ} {store : σ → τ → σ} {op : Run τ α} (h : op.Avoids kind) :
    (Run.within view store op).Avoids kind :=
  ⟨fun s => ensures_within.mpr (h.ensures (view s))⟩

end Run

namespace Attempt

theorem avoids_pure (a : α) : (pure a : Attempt σ α).Avoids kind := ⟨fun _ => trivial⟩

theorem avoids_throw (e : Errno) : (throw e : Attempt σ α).Avoids kind := ⟨fun _ => trivial⟩

theorem avoids_get : (get : Attempt σ σ).Avoids kind := ⟨fun _ => trivial⟩

theorem avoids_modify (f : σ → σ) : (modify f : Attempt σ PUnit).Avoids kind := ⟨fun _ => trivial⟩

theorem Avoids.run {op : Attempt σ α} (h : op.Avoids kind) : op.run.Avoids kind := ⟨h.ensures⟩

theorem Avoids.bind {x : Attempt σ γ} {f : γ → Attempt σ α} (hx : x.Avoids kind) (hf : ∀ c, (f c).Avoids kind) :
    (x >>= f).Avoids kind :=
  ⟨fun s => ensures_bind.mpr ((hx.ensures s).mono fun r t _ => by
    cases r with
    | ok c => exact (hf c).ensures t
    | error e => trivial)⟩

theorem avoids_ofRun {op : Run σ α} (h : op.Avoids kind) : (ofRun op).Avoids kind :=
  ⟨fun s => ensures_ofRun.mpr (h.ensures s)⟩

private theorem avoids_ofExcept (x : Except Errno α) : (ofExcept x : Attempt σ α).Avoids kind :=
  ⟨fun _ => ensures_ofExcept.mpr trivial⟩

private theorem Avoids.within {view : σ → τ} {store : σ → τ → σ} {op : Attempt τ α} (h : op.Avoids kind) :
    (Attempt.within view store op).Avoids kind :=
  ⟨fun s => ensures_within.mpr (h.ensures (view s))⟩

end Attempt

/-! ### Words and pages -/

private theorem addWords_avoids (h : ¬kind .addOverflow) (a b : Nat) : (addWords a b : Run σ Nat).Avoids kind := by
  unfold addWords
  split
  · exact Run.avoids_pure _
  · exact Run.avoids_crash h

private theorem mulWords_neverIdle (a b : Nat) : (mulWords a b : Run σ Nat).NeverIdle := by
  unfold mulWords
  split
  · exact Run.avoids_pure _
  · exact Run.avoids_crash (by simp)

private theorem pageAbove_neverIdle (address : Nat) : (pageAbove address : Run σ Nat).NeverIdle := by
  unfold pageAbove
  exact (addWords_avoids (by simp) _ _).bind fun _ => Run.avoids_pure _

private theorem pageRange_neverIdle (start stop : Nat) : (pageRange start stop : Run σ PageRange).NeverIdle := by
  unfold pageRange
  split
  · exact Run.avoids_pure _
  · exact Run.avoids_crash (by simp)

/-! ### Physical memory -/

namespace PhysicalMemory

private theorem takeFrame_neverIdle : takeFrame.NeverIdle := by
  refine Run.avoids_get.bind fun m => ?_
  split
  · exact Run.avoids_pure _
  · exact (Run.avoids_set _).bind fun _ => Run.avoids_pure _

private theorem giveFrame_neverIdle (p : Nat) : (giveFrame p).NeverIdle := by
  refine Run.avoids_get.bind fun m => Run.Avoids.bind ?_ fun _ => Run.avoids_set _
  unfold FrameAllocator.dealloc
  split
  · exact Run.avoids_crash (by simp)
  · exact Run.avoids_pure _

private theorem giveFrames_neverIdle (l : List Nat) : (giveFrames l).NeverIdle := by
  induction l with
  | nil => exact Run.avoids_pure _
  | cons p rest ih => exact (giveFrame_neverIdle p).bind fun _ => ih

private theorem hold_neverIdle (p : Nat) : (hold p).NeverIdle := Run.avoids_modify _

private theorem letGo_neverIdle (p : Nat) : (letGo p).NeverIdle := by
  refine Run.avoids_get.bind fun m => (Run.avoids_set _).bind fun _ => ?_
  split
  · exact giveFrame_neverIdle p
  · exact Run.avoids_pure _

end PhysicalMemory

/-! ### Page tables -/

namespace PageTable

open PhysicalMemory

private theorem create_neverIdle : create.NeverIdle := by
  refine takeFrame_neverIdle.bind fun p => ?_
  split <;> exact Run.avoids_pure _

private theorem descendCreating_neverIdle (path : List (Fin 512)) (node : Nat) (nodes : List Nat) :
    (descendCreating node path nodes).NeverIdle := by
  induction path generalizing node nodes with
  | nil => exact Run.avoids_pure _
  | cons i rest ih =>
    refine Run.avoids_get.bind fun m => ?_
    dsimp only
    split
    · exact ih _ _
    · refine takeFrame_neverIdle.bind fun p => ?_
      split
      · exact Run.avoids_pure _
      · exact (Run.avoids_modify _).bind fun _ => ih _ _

private theorem map_neverIdle (t : PageTable) (page frame : Nat) (flags : EntryFlags) :
    (t.map page frame flags).NeverIdle := by
  refine (descendCreating_neverIdle _ _ _).bind ?_
  rintro ⟨leaf, nodes⟩
  cases leaf with
  | none => exact Run.avoids_pure _
  | some node =>
    refine Run.avoids_get.bind fun m => ?_
    dsimp only
    split
    · exact Run.Avoids.bind (Run.avoids_crash (by simp)) fun _ =>
        (Run.avoids_modify _).bind fun _ => Run.avoids_pure _
    · exact (Run.avoids_modify _).bind fun _ => Run.avoids_pure _

private theorem unmap_neverIdle (t : PageTable) (page : Nat) : (t.unmap page).NeverIdle := by
  refine Run.avoids_get.bind fun m => ?_
  split
  · exact Run.avoids_crash (by simp)
  · split
    · exact Run.avoids_set _
    · exact Run.avoids_crash (by simp)

private theorem remap_neverIdle (t : PageTable) (page frame : Nat) (flags : EntryFlags) :
    (t.remap page frame flags).NeverIdle := by
  refine Run.avoids_get.bind fun m => ?_
  split
  · exact Run.avoids_crash (by simp)
  · split
    · exact Run.avoids_set _
    · exact Run.avoids_crash (by simp)

end PageTable

/-! ### Address spaces -/

namespace AddressSpace

open PhysicalMemory

private theorem create_neverIdle : create.NeverIdle := by
  refine PageTable.create_neverIdle.bind fun t => ?_
  split <;> exact Run.avoids_pure _

private theorem mapZeroed_neverIdle (s : AddressSpace) (page : Nat) (flags : EntryFlags) :
    (s.mapZeroed page flags).NeverIdle := by
  refine takeFrame_neverIdle.bind fun p => ?_
  split
  · exact Run.avoids_pure _
  · refine (PageTable.map_neverIdle _ _ _ _).bind ?_
    rintro ⟨table, mapped⟩
    cases mapped with
    | true => exact (hold_neverIdle _).bind fun _ => Run.avoids_pure _
    | false => exact (giveFrame_neverIdle _).bind fun _ => Run.avoids_pure _

private theorem dropPages_neverIdle (t : PageTable) (l : List (Nat × Nat)) : (dropPages t l).NeverIdle := by
  induction l with
  | nil => exact Run.avoids_pure _
  | cons x rest ih => exact (letGo_neverIdle _).bind fun _ => (PageTable.unmap_neverIdle _ _).bind fun _ => ih

private theorem letGoAll_neverIdle (l : List (Nat × Nat)) : (letGoAll l).NeverIdle := by
  induction l with
  | nil => exact Run.avoids_pure _
  | cons x rest ih => exact (letGo_neverIdle _).bind fun _ => ih

private theorem release_neverIdle (s : AddressSpace) : s.release.NeverIdle :=
  (giveFrames_neverIdle _).bind fun _ => letGoAll_neverIdle _

private theorem sharePages_neverIdle (parent : PageTable) (l : List (Nat × Nat)) (child : AddressSpace) :
    (sharePages parent l child).NeverIdle := by
  induction l generalizing child with
  | nil => exact Run.avoids_pure _
  | cons x rest ih =>
    obtain ⟨page, p⟩ := x
    have hmap : ∀ flags : EntryFlags, Run.NeverIdle (do
        let r ← child.table.map page p flags
        if r.2 then
          hold p
          sharePages parent rest { table := r.1, pages := child.pages.insert page p }
        else return ({ child with table := r.1 }, false)) := by
      intro flags
      refine (PageTable.map_neverIdle _ _ _ _).bind fun r => ?_
      split
      · exact (hold_neverIdle _).bind fun _ => ih _
      · exact Run.avoids_pure _
    refine Run.avoids_get.bind fun m => ?_
    split
    · exact Run.avoids_crash (by simp)
    · dsimp only
      split
      · exact (PageTable.remap_neverIdle _ _ _ _).bind fun _ => hmap _
      · exact hmap _

private theorem fork_neverIdle (s : AddressSpace) : s.fork.NeverIdle := by
  refine create_neverIdle.bind fun child => ?_
  split
  · exact Run.avoids_pure _
  · refine (sharePages_neverIdle _ _ _).bind ?_
    rintro ⟨child, complete⟩
    cases complete with
    | true => exact Run.avoids_pure _
    | false => exact (release_neverIdle _).bind fun _ => Run.avoids_pure _

private theorem unmapRange_neverIdle (s : AddressSpace) (range : PageRange) : (s.unmapRange range).NeverIdle :=
  (dropPages_neverIdle _ _).bind fun _ => Run.avoids_pure _

private theorem unmapAll_neverIdle (s : AddressSpace) : s.unmapAll.NeverIdle :=
  (dropPages_neverIdle _ _).bind fun _ => Run.avoids_pure _

private theorem resolveCow_neverIdle (s : AddressSpace) (page : Nat) : (s.resolveCow page).NeverIdle := by
  refine Attempt.avoids_get.bind fun m => ?_
  split
  · exact Attempt.avoids_pure _
  · dsimp only
    split
    · exact Attempt.avoids_pure _
    · split
      · exact Attempt.avoids_ofRun (Run.avoids_crash (by simp))
      · split
        · exact (Attempt.avoids_ofRun (PageTable.remap_neverIdle _ _ _ _)).bind fun _ => Attempt.avoids_pure _
        · refine (Attempt.avoids_ofRun takeFrame_neverIdle).bind fun copy => ?_
          split
          · exact Attempt.avoids_throw _
          · exact (Attempt.avoids_modify _).bind fun _ =>
              (Attempt.avoids_ofRun (PageTable.remap_neverIdle _ _ _ _)).bind fun _ =>
              (Attempt.avoids_ofRun (hold_neverIdle _)).bind fun _ =>
              (Attempt.avoids_ofRun (letGo_neverIdle _)).bind fun _ => Attempt.avoids_pure _

end AddressSpace

/-! ### Faults -/

namespace Access

private theorem resolveCow_neverIdle (page : Nat) : (resolveCow page).NeverIdle := by
  refine Attempt.avoids_get.bind fun a =>
    (Attempt.Avoids.within (AddressSpace.resolveCow_neverIdle _ _)).bind fun space => ?_
  split
  · exact Attempt.avoids_pure _
  · exact (Attempt.avoids_modify _).bind fun _ => Attempt.avoids_pure _

private theorem mapZeroed_neverIdle (page : Nat) (flags : EntryFlags) : (mapZeroed page flags).NeverIdle :=
  Run.avoids_get.bind fun _ => (Run.Avoids.within (AddressSpace.mapZeroed_neverIdle _ _ _)).bind fun _ =>
    (Run.avoids_modify _).bind fun _ => Run.avoids_pure _

private theorem handleFault_neverIdle (address : Nat) (write : Bool) : (handleFault address write).NeverIdle := by
  refine Attempt.avoids_get.bind fun a => ?_
  split
  · split
    · refine (resolveCow_neverIdle _).bind fun resolved => ?_
      cases resolved with
      | true => exact Attempt.avoids_pure _
      | false => exact Attempt.avoids_throw _
    · exact Attempt.avoids_pure _
  · split
    · refine (Attempt.avoids_ofRun (mapZeroed_neverIdle _ _)).bind fun mapped => ?_
      cases mapped with
      | true => exact Attempt.avoids_pure _
      | false => exact Attempt.avoids_throw _
    · exact Attempt.avoids_throw _

private theorem frameAfterFault_neverIdle (address : Nat) (write : Bool) :
    (frameAfterFault address write).NeverIdle := by
  refine (handleFault_neverIdle _ _).bind fun _ => Attempt.avoids_get.bind fun a => ?_
  split
  · exact Attempt.avoids_pure _
  · exact Attempt.avoids_throw _

private theorem frameOf_neverIdle (address : Nat) (write : Bool) : (frameOf address write).NeverIdle := by
  refine Attempt.avoids_get.bind fun a => ?_
  split
  · split
    · exact Attempt.avoids_pure _
    · exact frameAfterFault_neverIdle _ _
  · exact frameAfterFault_neverIdle _ _

end Access

/-- Whether none of the services of a memory system stops because no process is ready. -/
structure MemorySystem.NeverIdle (μ : Type) {β : Type} [MemorySystem μ β] : Prop where
  fork : ∀ space, (MemorySystem.fork space : Run μ (Option β)).NeverIdle
  unmapRange : ∀ space range, (MemorySystem.unmapRange space range : Run μ β).NeverIdle
  unmapAll : ∀ space, (MemorySystem.unmapAll space : Run μ β).NeverIdle
  release : ∀ space : β, (MemorySystem.release space : Run μ Unit).NeverIdle
  handleFault : ∀ address write, (MemorySystem.handleFault address write : Attempt (MemoryAccess μ β) Unit).NeverIdle
  frameOf : ∀ address write, (MemorySystem.frameOf address write : Attempt (MemoryAccess μ β) Nat).NeverIdle

theorem PhysicalMemory.neverIdle : MemorySystem.NeverIdle PhysicalMemory where
  fork := AddressSpace.fork_neverIdle
  unmapRange := AddressSpace.unmapRange_neverIdle
  unmapAll := AddressSpace.unmapAll_neverIdle
  release := AddressSpace.release_neverIdle
  handleFault := Access.handleFault_neverIdle
  frameOf := Access.frameOf_neverIdle

/-! ### User memory -/

section UserMemory

variable {μ β : Type} [MemorySystem μ β] (hμ : MemorySystem.NeverIdle μ)

include hμ

theorem UserMemory.setBrk_neverIdle (u : UserMemory β) (brk : UInt64) :
    (u.setBrk brk : Run μ (UserMemory β)).NeverIdle := by
  unfold UserMemory.setBrk
  split
  · split
    · refine (pageAbove_neverIdle _).bind fun start => (pageAbove_neverIdle _).bind fun stop => ?_
      split
      · exact (pageRange_neverIdle _ _).bind fun range => (hμ.unmapRange _ _).bind fun _ => Run.avoids_pure _
      · exact Run.avoids_pure _
    · exact Run.avoids_pure _
  · exact Run.avoids_pure _

namespace Access

omit [MemorySystem μ β] hμ in
private theorem checkPageEnd_neverIdle (address : Nat) : (checkPageEnd address : Run σ Unit).NeverIdle := by
  unfold checkPageEnd
  exact (mulWords_neverIdle _ _).bind fun _ => Run.avoids_pure _

private theorem writeSpans_neverIdle (l : List (Span × List UInt8)) :
    (writeSpans l : Attempt (MemoryAccess μ β) Unit).NeverIdle := by
  induction l with
  | nil => exact Attempt.avoids_pure _
  | cons x rest ih =>
    exact (hμ.frameOf _ _).bind fun p => (Attempt.avoids_ofRun (checkPageEnd_neverIdle _)).bind fun _ =>
      (Attempt.avoids_modify _).bind fun _ => ih

private theorem readSpans_neverIdle (l : List Span) :
    (readSpans l : Attempt (MemoryAccess μ β) (List UInt8)).NeverIdle := by
  induction l with
  | nil => exact Attempt.avoids_pure _
  | cons s rest ih =>
    exact (hμ.frameOf _ _).bind fun p => (Attempt.avoids_ofRun (checkPageEnd_neverIdle _)).bind fun _ =>
      Attempt.avoids_get.bind fun _ => ih.bind fun _ => Attempt.avoids_pure _

theorem writeUser_neverIdle (address : Nat) (bytes : List UInt8) :
    (writeUser address bytes : Attempt (MemoryAccess μ β) Unit).NeverIdle := by
  unfold writeUser
  split
  · exact writeSpans_neverIdle hμ _
  · exact Attempt.avoids_throw _

theorem readUser_neverIdle (address length : Nat) :
    (readUser address length : Attempt (MemoryAccess μ β) (List UInt8)).NeverIdle := by
  unfold readUser
  split
  · exact readSpans_neverIdle hμ _
  · exact Attempt.avoids_throw _

private theorem readUntilZero_neverIdle (address n i : Nat) :
    (readUntilZero address n i : Attempt (MemoryAccess μ β) (List UInt8)).NeverIdle := by
  induction n generalizing i with
  | zero => exact Attempt.avoids_throw _
  | succ n ih =>
    unfold readUntilZero
    split
    · refine (readUser_neverIdle hμ _ _).bind fun bytes => ?_
      dsimp only
      split
      · exact Attempt.avoids_pure _
      · exact (ih _).bind fun _ => Attempt.avoids_pure _
    · exact Attempt.avoids_throw _

theorem readString_neverIdle (address : Nat) :
    (readString address : Attempt (MemoryAccess μ β) String).NeverIdle := by
  refine (readUntilZero_neverIdle hμ _ _ _).bind fun bytes => ?_
  split
  · exact Attempt.avoids_pure _
  · exact Attempt.avoids_throw _

end Access

end UserMemory

/-! ### Files -/

section Files

variable [FileSystem σ]

namespace Volume

private theorem free_avoids (h : ∀ message, ¬kind (.collaborator message)) (inode : Inode) :
    (free inode : Run (Volume σ) Unit).Avoids kind := by
  refine Run.avoids_get.bind fun v => (Run.avoids_set _).bind fun _ => ?_
  split
  · exact Run.avoids_set _
  · exact Run.avoids_crash (h _)

private theorem lookup_avoids (path : String) : (lookup path : Run (Volume σ) (Option Inode)).Avoids kind :=
  Run.avoids_get.bind fun _ => (Run.avoids_set _).bind fun _ => Run.avoids_pure _

private theorem ref_avoids (inode : Inode) : (ref inode : Run (Volume σ) Unit).Avoids kind := Run.avoids_modify _

theorem stat_avoids (inode : Inode) : (stat inode : Run (Volume σ) FileStat).Avoids kind :=
  Run.avoids_get.bind fun _ => (Run.avoids_set _).bind fun _ => Run.avoids_pure _

theorem request_avoids (inode : Inode) (buffer : List UInt8) (offset : Nat) (direction : Direction) :
    (request inode buffer offset direction : Attempt (Volume σ) (List UInt8)).Avoids kind :=
  Attempt.avoids_get.bind fun _ => Attempt.Avoids.bind (Attempt.avoids_ofRun (Run.avoids_set _)) fun _ =>
    Attempt.avoids_ofExcept _

end Volume

namespace Descriptors

theorem openPath_avoids (d : Descriptors) (path : String) :
    (d.openPath path : Attempt (Volume σ) (Fin descriptorCount × Descriptors)).Avoids kind := by
  unfold openPath
  split
  · exact Attempt.avoids_throw _
  · refine (Attempt.avoids_ofRun (Volume.lookup_avoids _)).bind fun inode => ?_
    split
    · exact Attempt.avoids_throw _
    · exact (Attempt.avoids_ofRun (Volume.ref_avoids _)).bind fun _ => Attempt.avoids_pure _

theorem close_avoids (h : ∀ message, ¬kind (.collaborator message)) (d : Descriptors) (fd : Nat) :
    (d.close fd : Attempt (Volume σ) Descriptors).Avoids kind := by
  unfold close
  split
  · split
    · exact Attempt.avoids_pure _
    · exact (Attempt.avoids_ofRun (Volume.free_avoids h _)).bind fun _ => Attempt.avoids_pure _
  · exact Attempt.avoids_throw _

private theorem freeSlots_avoids (h : ∀ message, ¬kind (.collaborator message)) (l : List (Option Inode)) :
    (freeSlots l : Run (Volume σ) Unit).Avoids kind := by
  induction l with
  | nil => exact Run.avoids_pure _
  | cons x rest ih =>
    cases x with
    | none => exact ih
    | some inode => exact (Volume.free_avoids h _).bind fun _ => ih

theorem closeAll_avoids (h : ∀ message, ¬kind (.collaborator message)) (d : Descriptors) :
    (d.closeAll : Run (Volume σ) Descriptors).Avoids kind :=
  (freeSlots_avoids h _).bind fun _ => Run.avoids_pure _

end Descriptors

end Files

/-! ### The machine -/

theorem Machine.startSlice_avoids {φ : Type} [Firmware φ] (h : ¬kind .addOverflow) :
    (startSlice : Run (Machine φ) Unit).Avoids kind := by
  unfold startSlice
  exact Run.avoids_get.bind fun _ => (addWords_avoids h _ _).bind fun _ => Run.avoids_modify _

end TrapKernel
