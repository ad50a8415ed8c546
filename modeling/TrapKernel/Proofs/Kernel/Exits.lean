import TrapKernel.Proofs.Files.References
import TrapKernel.Proofs.Kernel.Frames

/-!
# Exits

What the exit of a process does to the whole kernel: to the process itself, its children, its parent and the first
process, to the file system and to memory. All else stays as it was.

* `Kernel.Exited`: the kernel before and after an exit.
* `Kernel.Reachable.exitProcess_outcome`: in reachable states an exit either fails and changes nothing, or has done all
  of this and nothing else.
-/

namespace TrapKernel

namespace ProcessTable

variable {β : Type} {t : ProcessTable β} {s c : Slot} {p z : Process β}

private theorem hasZombieChild_iff :
    t.hasZombieChild s = true ↔ ∃ c q, t.get c = some q ∧ q.parent = some s ∧ q.isZombie = true := by
  simp only [hasZombieChild, List.any_eq_true, mem_children, hasStatus_iff, ← Process.isZombie_iff]
  constructor
  · rintro ⟨c, ⟨q, hq, hparent⟩, q', hq', hzombie⟩
    exact ⟨c, q, hq, hparent, Option.some.inj (hq'.symm.trans hq) ▸ hzombie⟩
  · rintro ⟨c, q, hq, hparent, hzombie⟩
    exact ⟨c, ⟨q, hq, hparent⟩, q, hq, hzombie⟩

/-- The process that exits is none of its own children. -/
private theorem hasZombieChild_put (hp : t.get s = some p) (hparent : p.parent ≠ some s) (hz : z.parent ≠ some s) :
    (t.put s (some z)).hasZombieChild s = t.hasZombieChild s := by
  rw [Bool.eq_iff_iff, hasZombieChild_iff, hasZombieChild_iff]
  refine exists_congr fun c => exists_congr fun q => ?_
  rw [get_put]
  split
  next hs =>
    subst hs
    rw [hp, Option.some.injEq, Option.some.injEq]
    exact iff_of_false (fun h => hz (h.1 ▸ h.2.1)) fun h => hparent (h.1 ▸ h.2.1)
  · exact Iff.rfl

/-- What happens to the process `q` in slot `c` when the process `p` in slot `s` exits. If `p` was its parent, it gets
the first process for one. If it is the parent of `p`, it gets a signal. It is woken up if it is the parent of `p`, or
if it is the first process and becomes the parent of a zombie. -/
def bereaved (t : ProcessTable β) (s : Slot) (p : Process β) (c : Slot) (q : Process β) : Process β :=
  { q with
    parent := if q.parent = some s then some .init else q.parent
    pending := if p.parent = some c then q.pending.union (.single sigChild) else q.pending
    status :=
      if q.status = .blocked ∧ (p.parent = some c ∨ c = .init ∧ t.hasZombieChild s) then .ready else q.status }

private theorem adopt_eq (t : ProcessTable β) (s c : Slot) (q : Process β) : t.adopt s c q =
    { q with
      parent := if q.parent = some s then some .init else q.parent
      status := if q.status = .blocked ∧ c = .init ∧ t.hasZombieChild s then .ready else q.status } := by
  unfold adopt Process.disown
  by_cases hc : c = .init ∧ t.hasZombieChild s = true
  · rw [if_pos hc.symm]
    by_cases hq : q.parent = some s <;> by_cases hb : q.status = .blocked <;> simp [hc, hq, hb, Process.wake]
  · rw [if_neg fun h => hc h.symm]
    by_cases hq : q.parent = some s <;> simp [hc, hq]

private theorem exitEffect_eq_bereaved (hp : t.get s = some p) (hparent : p.parent ≠ some s) (hz : z.parent = p.parent)
    (q : Process β) : t.exitEffect s z c q = t.bereaved s p c q := by
  unfold exitEffect bereaved
  rw [adopt_eq, hasZombieChild_put hp hparent (hz ▸ hparent), hz]
  by_cases hc : p.parent = some c
  · rw [if_pos hc, if_pos hc]
    by_cases hb : q.status = .blocked <;> simp [hc, hb, Process.notify, Process.post, Process.wake]
  · simp [hc]

end ProcessTable

namespace Kernel

open ProcessTable

variable {σ φ : Type} [FileSystem σ]

/-- Whether the process `p` in slot `s` has exited with a code between the states `k` and `k'`, and nothing else has
happened. -/
structure Exited (s : Slot) (p : Process AddressSpace) (code : Int32) (k k' : Kernel σ φ) : Prop where
  /-- A zombie without descriptors, pages and signals is left of the process. -/
  self : ∃ space, k'.table.get s = some (p.remains code space) ∧ space.table = p.memory.space.table ∧ space.pages = ∅ ∧
    ∀ page, space.translate k'.memory page = none
  others : ∀ c, c ≠ s → k'.table.get c = (k.table.get c).map (k.table.bereaved s p c)
  current : k'.table.current = k.table.current
  nextPid : k'.table.nextPid = k.table.nextPid
  machine : k'.machine = k.machine
  /-- The references of the bound descriptors have been given back one after the other. -/
  freed : p.descriptors.files.foldlM FileSystem.free k.volume.state = .ok k'.volume.state
  calls : k'.volume.calls = k.volume.calls ++ (p.descriptors.files.map FileCall.free).toArray
  /-- The data frames of the process that no other process holds have become free. -/
  isFree : ∀ frame, k'.memory.allocator.IsFree frame ↔ k.memory.allocator.IsFree frame ∨
    (k.table.holdersOf frame).Nonempty ∧ ∀ x ∈ k.table.holdersOf frame, x.1 = s
  /-- The pages of the other processes lead where they led, and hold what they held. -/
  seen : ∀ c q, c ≠ s → k.table.get c = some q →
    q.memory.space.translate k'.memory = q.memory.space.translate k.memory ∧
      q.memory.space.content k'.memory = q.memory.space.content k.memory

/-- How an attempt to let the process in a slot exit with a code can end. -/
inductive ExitOutcome (s : Slot) (code : Int32) (k : Kernel σ φ) : Except Errno Unit → Kernel σ φ → Prop
  | first (hs : s = .init) : ExitOutcome s code k (.error .notPermitted) k
  | gone (hs : s ≠ .init) (hgone : ∀ p, k.table.get s = some p → p.isZombie = true) :
      ExitOutcome s code k (.error .noProcess) k
  | exited {p : Process AddressSpace} {k' : Kernel σ φ} (hs : s ≠ .init) (hp : k.table.get s = some p)
      (hlive : p.isZombie = false) (h : k.Exited s p code k') : ExitOutcome s code k (.ok ()) k'

variable {foreign : Surroundings} {k : Kernel σ φ} {s : Slot} {p : Process AddressSpace}

omit [FileSystem σ] in
private theorem mem_otherFrames {frame : Nat} : frame ∈ k.otherFrames s ↔ ∃ x ∈ k.table.holdersOf frame, x.1 ≠ s := by
  simp only [otherFrames, otherRegions, List.mem_flatMap, mem_regionsAt, holdersOf]
  constructor
  · rintro ⟨_, ⟨c, hc, q, hq, rfl⟩, hframe⟩
    obtain ⟨page, hpage⟩ := AddressSpace.mem_frames_iff.mp hframe
    exact ⟨(c, page), ⟨q, hq, hpage⟩, fun hs => (List.nodup_finRange _).not_mem_erase (hs ▸ hc)⟩
  · rintro ⟨⟨c, page⟩, ⟨q, hq, hpage⟩, hs⟩
    exact ⟨_, ⟨c, (List.mem_erase_of_ne hs).mpr (Slot.mem_all c), q, hq, rfl⟩, AddressSpace.mem_frames hpage⟩

omit [FileSystem σ] in
/-- A frame is held by one process only if it is among its frames and not among those of the others. -/
private theorem held_alone_iff (hp : k.table.get s = some p) {frame : Nat} :
    ((k.table.holdersOf frame).Nonempty ∧ ∀ x ∈ k.table.holdersOf frame, x.1 = s) ↔
      frame ∈ p.memory.space.region.frames ∧ frame ∉ k.otherFrames s := by
  rw [mem_otherFrames, AddressSpace.mem_frames_iff]
  constructor
  · rintro ⟨⟨⟨c, page⟩, hx⟩, hall⟩
    obtain rfl : c = s := hall _ hx
    obtain ⟨q, hq, hpage⟩ := hx
    exact ⟨⟨page, Option.some.inj (hq.symm.trans hp) ▸ hpage⟩, fun ⟨x, hx, hne⟩ => hne (hall x hx)⟩
  · rintro ⟨⟨page, hpage⟩, hother⟩
    exact ⟨⟨(s, page), p, hp, hpage⟩, fun x hx => by_contra fun hne => hother ⟨x, hx, hne⟩⟩

omit [FileSystem σ] in
/-- When a process has dropped its pages, those of its frames that it alone held are free. -/
private theorem isFree_of_unmapAll (h : k.Sound foreign) (hp : k.table.get s = some p) {space : AddressSpace}
    {m : PhysicalMemory} (hsound : space.region.Sound m foreign (k.otherNodes s) (k.otherFrames s))
    (htable : space.table = p.memory.space.table) (hpages : space.pages = ∅) (frame : Nat) :
    m.allocator.IsFree frame ↔ k.memory.allocator.IsFree frame ∨
      (k.table.holdersOf frame).Nonempty ∧ ∀ x ∈ k.table.holdersOf frame, x.1 = s := by
  have hbefore := (h.access hp).region.accounts
  have hafter := hsound.accounts
  have hnone : space.region.frames = [] := by
    rw [Region.frames, AddressSpace.region, hpages]
    rfl
  rw [hnone, List.nil_append, AddressSpace.region, htable] at hafter
  rw [held_alone_iff hp, hafter.isFree_iff, hbefore.isFree_iff]
  have hlt : frame ∈ p.memory.space.region.frames → frame < foreign.limit := fun hmem =>
    hbefore.lt_limit (.inr (List.mem_append_left _ hmem))
  have hnot : frame ∈ p.memory.space.region.frames → frame ∉ foreign.frames ∧ _ := fun hmem =>
    hbefore.not_owned_of_held (List.mem_append_left _ hmem)
  rw [List.mem_append (s := p.memory.space.region.frames)]
  tauto

/-- A process has exited when its table entry and its pages are gone and its descriptors are closed. -/
private theorem Sound.exited (h : k.Sound foreign) (hp : k.table.get s = some p) (hs : s ≠ .init)
    (hparent : p.parent ≠ some s) {code : Int32} {k' : Kernel σ φ} {space : AddressSpace}
    (htable : k'.table = k.table.exited s (p.remains code space)) (hmachine : k'.machine = k.machine)
    (hfreed : p.descriptors.files.foldlM FileSystem.free k.volume.state = .ok k'.volume.state)
    (hcalls : k'.volume.calls = k.volume.calls ++ (p.descriptors.files.map FileCall.free).toArray)
    (hsound : space.region.Sound k'.memory foreign (k.otherNodes s) (k.otherFrames s))
    (hspares : Region.Spares k.memory k'.memory (k.otherNodes s) (k.otherFrames s))
    (hsame : space.table = p.memory.space.table) (hpages : space.pages = ∅) : k.Exited s p code k' where
  self := by
    refine ⟨space, ?_, hsame, hpages, fun page => ?_⟩
    · exact htable ▸ get_exited_self (z := p.remains code space) hs hparent
    · by_contra hsome
      obtain ⟨e, he⟩ := Option.ne_none_iff_exists'.mp hsome
      have hmem := AddressSpace.mem_frames_iff.mp (Region.mem_frames.mpr ⟨_, hsound.valid.mem_of_translate he⟩)
      obtain ⟨_, hpage⟩ := hmem
      exact absurd ((AddressSpace.getElem?_of_pages_eq_empty hpages _).symm.trans hpage) (by simp)
  others c hc := by
    rw [htable, get_exited_of_ne _ hc]
    exact congrArg (Option.map · _) (funext fun q => exitEffect_eq_bereaved (z := p.remains code space) hp hparent rfl q)
  current := by rw [htable, current_exited]
  nextPid := by rw [htable, nextPid_exited]
  machine := hmachine
  freed := hfreed
  calls := hcalls
  isFree := isFree_of_unmapAll h hp hsound hsame hpages
  seen c q hc hq :=
    ⟨funext fun page => (h.unchanged hspares).translate q.memory.space.region (mem_otherRegions hc hq) page,
      h.content_of_spares hspares hc hq⟩

/-- An exit succeeds for every process but the first one and those that have exited, unless the file system breaks
down over a reference that is given back. -/
private theorem Sound.exitProcess_spec (h : k.Sound foreign) (hforest : k.table.Forest PhysicalMemory) (s : Slot)
    (code : Int32) :
    (exitProcess s code).Ensures k (ExitOutcome s code k)
      fun q _ => ∃ p message, k.table.get s = some p ∧
        p.descriptors.files.foldlM FileSystem.free k.volume.state = .error message ∧ q = .collaborator message := by
  unfold exitProcess
  by_cases hs : s = .init
  · rw [if_pos hs]
    exact .first hs
  rw [if_neg hs]
  simp only [Attempt.ensures_bind, Attempt.ensures_get]
  cases hp : k.table.get s with
  | none => exact .gone hs fun p hp' => absurd (hp.symm.trans hp') (by simp)
  | some p =>
    cases hlive : p.isZombie with
    | true =>
      simp only [hlive, if_true]
      exact .gone hs fun p' hp' => Option.some.inj (hp.symm.trans hp') ▸ hlive
    | false =>
      have hself : p.parent ≠ some s := fun hparent => hforest.parent_ne hp hparent rfl
      simp only [hlive, Bool.false_eq_true, if_false, Attempt.ensures_bind, Attempt.ensures_ofRun, ensures_onVolume]
      refine (p.descriptors.closeAll_spec k.volume).imp ?_ ?_
      case refine_2 => exact fun q _ ⟨message, hfree, hq⟩ => ⟨p, message, rfl, hfree, hq⟩
      rintro descriptors volume ⟨rfl, hfreed, hcalls⟩
      rw [ensures_onMemory]
      refine Run.Ensures.imp (AddressSpace.unmapAll_spec (h.access hp).region) ?_ fun _ _ => False.elim
      rintro space m ⟨hsound, hspares, hsame, hpages⟩
      simp only [ensures_modifyTable, ensures_note]
      have hexited {k' : Kernel σ φ} (htable : k'.table = k.table.exited s (p.remains code space)) (hm : k'.memory = m)
          (hv : k'.volume = volume) (hmachine : k'.machine = k.machine) : k.Exited s p code k' := by
        subst hm hv
        exact h.exited hp hs hself htable hmachine hfreed hcalls hsound hspares hsame hpages
      cases hparent : p.parent with
      | none => exact .exited hs hp hlive (hexited (by simp [ProcessTable.exited, Process.remains, hparent]) rfl rfl rfl)
      | some parent => exact .exited hs hp hlive (hexited (by simp [ProcessTable.exited, Process.remains, hparent]) rfl rfl rfl)

variable [Firmware φ] {entry stackPointer heapStart : UInt64} {memory : PhysicalMemory} {files : σ} {firmware : φ}
  {logLimit : Option LogLevel} {k₀ : Kernel σ φ}

/-- In reachable states an exit of any process does what it is to do and nothing else, or fails and does nothing at all.
It stops only if the file system breaks down over a reference that is given back. -/
theorem Reachable.exitProcess_outcome (hmemory : memory.Consistent)
    (hboot : boot entry stackPointer heapStart memory files firmware logLimit = .ok k₀) (h : Reachable k₀ k) (s : Slot)
    (code : Int32) :
    (exitProcess s code).Ensures k (ExitOutcome s code k)
      fun q _ => ∃ p message, k.table.get s = some p ∧
        p.descriptors.files.foldlM FileSystem.free k.volume.state = .error message ∧ q = .collaborator message := by
  obtain ⟨foreign, hsound⟩ := h.exists_sound hmemory hboot
  exact hsound.exitProcess_spec (h.table_forest hboot).1 s code

/-- Whether the process in a slot can exit with a code. -/
def canExit (s : Slot) (code : Int32) (k : Kernel σ φ) : Bool :=
  match (exitProcess s code).run k with
  | .ok (.ok ()) _ => true
  | _ => false

/-- The second process has forked a third one, which is a zombie, and exits while the first one waits for it. -/
theorem exited_waitedFor : ∃ (k₀ k k' : Kernel EmptyFiles Bench.BenchFirmware) (p : Process AddressSpace),
    benchStart = .ok k₀ ∧ Reachable k₀ k ∧ k.table.hasStatus .init .blocked = true ∧ k.table.hasZombieChild 1 = true ∧
      k.table.get 1 = some p ∧ (exitProcess 1 5).run k = .ok (.ok ()) k' ∧ k.Exited 1 p 5 k' := by
  obtain ⟨k₀, k, hk₀, hk, htest⟩ := exists_of_benchRun (show benchRun
    [callFrame .fork 0 0 0, callFrame .wait 0xFFFFFFFFFFFFFFFF 0 0, callFrame .fork 0 0 0, callFrame .yield 0 0 0,
      callFrame .exit 7 0 0]
    (fun k => k.table.hasStatus .init .blocked && (k.table.hasZombieChild 1 && canExit 1 5 k)) = true by
      decide +kernel)
  rw [Bool.and_eq_true, Bool.and_eq_true] at htest
  obtain ⟨hblocked, hzombie, hcan⟩ := htest
  unfold canExit at hcan
  split at hcan
  next k' hk' =>
    cases (Reachable.exitProcess_outcome consistent_benchMemory hk₀ hk 1 5).of_ok hk' with
    | exited _ hp _ hexited => exact ⟨k₀, k, k', _, hk₀, hk, hblocked, hzombie, hp, hk', hexited⟩
  · exact absurd hcan (by simp)

end Kernel

end TrapKernel
