import TrapKernel.Proofs.Kernel.Calls
import TrapKernel.Proofs.Kernel.Frames

/-!
# Forks

A fork that succeeds returns twice: the parent and its child go on behind the call with the same registers but for the
result, with the same pages, and with the same bounds and signal handlers. Neither can write to a page before it gets
one of its own. The child costs no frames but those for the nodes of its page table.

* `Kernel.ensures_fork`: what a fork does to the kernel, in terms of what it does to memory.
* `Kernel.Reachable.forked`: what a trap that asks for a fork and gets it has done before signals are delivered.
-/

namespace TrapKernel

open PhysicalMemory

namespace AddressSpace

variable {s child : AddressSpace} {m m' : PhysicalMemory} {foreign : Surroundings} {owned held : List Nat}

/-- The frame behind a page number and what it holds. -/
def backing (s : AddressSpace) (m : PhysicalMemory) (page : Nat) : Option (Nat × Frame) :=
  (s.translate m page).map fun e => (e.frame, m.frame e.frame)

/-- The frame behind a page number and what it may be used for. -/
def mapping (s : AddressSpace) (m : PhysicalMemory) (page : Nat) : Option (Nat × EntryFlags) :=
  (s.translate m page).map fun e => (e.frame, e.flags)

/-- Whether an address space `s` has been shared with a second one between the memories `m` and `m'`. -/
structure Twins (s child : AddressSpace) (m m' : PhysicalMemory) : Prop where
  /-- Every page number leads to the same frame with the same flags in both, or to nothing. -/
  mapping : child.mapping m' = s.mapping m'
  readonly : ∀ page e, child.translate m' page = some e → e.isWritable = false
  /-- The pages are on the same frames as before, and have the same content. -/
  backing : s.backing m' = s.backing m
  /-- The frames that were taken are the root, a middle node for each nine upper bits of a page number, and a leaf for
  each eighteen. -/
  available : ∃ free free', m.allocator.available = .ok free ∧ m'.allocator.available = .ok free' ∧
    free = free' + (1 + ((· / 2 ^ 18) '' child.table.mapped m').ncard + ((· / 2 ^ 9) '' child.table.mapped m').ncard)

/-- Pages that are marked as shared stay on their frames. -/
theorem backing_of_marked (h : s.region.Valid m) (hmarked : Marked s.table m m')
    (hcontent : ∀ page, s.content m' page = s.content m page) : s.backing m' = s.backing m := by
  have hframe : ∀ page e, s.translate m page = some e → m'.frame e.frame = m.frame e.frame := by
    intro page e he
    have hsame := hcontent (page % pageLimit)
    rw [content, content, getElem?_mod_of_translate h he, Option.map_some, Option.map_some] at hsame
    exact Option.some.inj hsame
  funext page
  unfold backing
  rcases hmarked page with heq | ⟨e, he, hshared⟩
  · rw [show s.translate m' page = s.translate m page from heq]
    cases he : s.translate m page with
    | none => rfl
    | some e => rw [Option.map_some, Option.map_some, hframe page e he]
  · have he : s.translate m page = some e := he
    rw [show s.translate m' page = some e.shared from hshared, he, Option.map_some, Option.map_some, Entry.frame_shared,
      hframe page e he]

section Mirror

variable (h : s.region.Sound m' foreign (child.table.nodes ++ owned) (child.region.frames ++ held))
  (hchild : child.region.Sound m' foreign (s.table.nodes ++ owned) (s.region.frames ++ held))
  (hmirror : ∀ page e, child.translate m' page = some e →
    ∃ e', s.translate m' page = some e' ∧ e.frame = e'.frame ∧ e.flags = e'.flags)

include h hchild hmirror

omit hchild in
/-- An address space with the same pages as another one, whose entries it has, has all of its entries. -/
private theorem mapping_eq (hchild : child.region.Valid m')
    (hpages : ∀ page : Nat, (s.pages[page]?).isSome → (child.pages[page]?).isSome) :
    child.mapping m' = s.mapping m' := by
  funext page
  unfold mapping
  cases he : child.translate m' page with
  | some e =>
    obtain ⟨e', he', hframe, hflags⟩ := hmirror page e he
    rw [he', Option.map_some, Option.map_some, hframe, hflags]
  | none =>
    cases he' : s.translate m' page with
    | none => rfl
    | some e' =>
      have hsome := hpages (page % pageLimit) (by rw [getElem?_mod_of_translate h.valid he', Option.isSome_some])
      obtain ⟨p, hp⟩ := Option.isSome_iff_exists.mp hsome
      obtain ⟨e, hmod, -⟩ := hchild.translate_of_mem (Std.TreeMap.mem_toList_iff_getElem?_eq_some.mpr hp)
      have hmod : child.translate m' (page % pageLimit) = some e := hmod
      have heq : child.translate m' page = child.translate m' (page % pageLimit) :=
        PageTable.translate_mod (Nat.mod_mod page pageLimit).symm
      rw [heq, hmod] at he
      exact absurd he (by simp)

/-- Where an address space has the entries of another one, none of them gives write permission. -/
private theorem isWritable_eq_false {page : Nat} {e : Entry} (he : child.translate m' page = some e) :
    e.isWritable = false := by
  by_contra hw
  rw [Bool.not_eq_false] at hw
  obtain ⟨e', he', hframe, -⟩ := hmirror page e he
  have hmem : e.frame ∈ child.region.frames := List.mem_map_of_mem (f := Prod.snd) (hchild.valid.mem_of_translate he)
  have hmem' : e.frame ∈ s.region.frames :=
    hframe ▸ List.mem_map_of_mem (f := Prod.snd) (h.valid.mem_of_translate he')
  exact hchild.not_held hmem (hchild.exclusive page e he hw) (List.mem_append_left _ hmem')

omit h hmirror in
/-- If an address space holds no frames but those of another one, there are fewer free frames by its nodes than there
would be without it. -/
private theorem available_eq (hbefore : m.Accounts foreign (s.table.nodes ++ owned) (s.region.frames ++ held))
    (hsub : child.region.frames ⊆ s.region.frames) (hleads : child.table.LeadsTo m' (child.table.mapped m')) :
    ∃ free free', m.allocator.available = .ok free ∧ m'.allocator.available = .ok free' ∧
      free = free' + (1 + ((· / 2 ^ 18) '' child.table.mapped m').ncard + ((· / 2 ^ 9) '' child.table.mapped m').ncard) := by
  obtain ⟨free, hfree, htotal⟩ := hbefore.available
  obtain ⟨free', hfree', htotal'⟩ := hchild.accounts.available
  have hnodup : child.table.nodes.Nodup := hchild.accounts.nodup_owned.of_append_left
  have hlength := PageTable.Tree.length_nodes (t := child.table) hchild.valid.tree hnodup hleads
  rw [List.Subset.dedup_append_right (List.Subset.trans hsub (List.subset_append_left _ _))] at htotal'
  simp only [List.length_append, region] at htotal htotal'
  exact ⟨free, free', hfree, hfree', by omega⟩

end Mirror

/-- An address space that is shared and its second one are twins. -/
private theorem fork_twins (h : s.region.Sound m foreign owned held) :
    s.fork.Ensures m (fun r m' => ∀ child, r = some child → s.Twins child m m') fun _ _ => False := by
  refine (fork_spec h).mono fun r m' hr child hchild => ?_
  subst hchild
  obtain ⟨hcontent, hmarked, -, hparent, hchild, hcopy, hmirror, hleads⟩ := hr
  have hpages : ∀ page : Nat, (child.pages[page]?).isSome = (s.pages[page]?).isSome := fun page => by
    have hsome := congrArg Option.isSome (hcopy page)
    rwa [content, content, Option.isSome_map, Option.isSome_map] at hsome
  refine ⟨mapping_eq hparent hmirror hchild.valid fun page hsome => (hpages page).trans hsome,
    fun page e he => isWritable_eq_false hparent hchild hmirror he, backing_of_marked h.valid hmarked hcontent,
    available_eq hchild h.accounts (fun p hp => ?_) hleads⟩
  obtain ⟨⟨page, _⟩, hmem, rfl⟩ := List.mem_map.mp hp
  obtain ⟨e, he, hframe⟩ := hchild.valid.translate_of_mem hmem
  obtain ⟨e', he', hsame, -⟩ := hmirror page e he
  have hmem' : e'.frame ∈ s.region.frames := List.mem_map_of_mem (f := Prod.snd) (hparent.valid.mem_of_translate he')
  rwa [← hsame, hframe] at hmem'

end AddressSpace

/-- Whether a process `q` goes on like the process `p`, with zero for a result. Only signals that have been sent to `p`
and its descriptors it does not have. -/
structure Process.Resembles {β : Type} (p q : Process β) : Prop where
  frame : p.frame.ResumesAt p.frame.sepc 0 q.frame
  heapStart : q.memory.heapStart = p.memory.heapStart
  brk : q.memory.brk = p.memory.brk
  mask : q.mask = p.mask
  actions : q.actions = p.actions
  interrupted : q.interrupted = p.interrupted
  pending : q.pending = .empty
  descriptors : q.descriptors = .empty

namespace Kernel

open ProcessTable

/-- Whether the current process has made a fork with the registers `f` between the states `k` and `k'`. Then it is the
process `p`, and its child is the process `q` in slot `c`. -/
structure Forked {σ φ : Type} (k k' : Kernel σ φ) (f : TrapFrame) (c : Slot) (p q : Process AddressSpace) : Prop where
  empty : k.table.get c = none
  lowest : ∀ s, k.table.get s = none → c ≤ s
  child : k'.table.get c = some q
  others : ∀ s, s ≠ c → s ≠ k.table.current → k'.table.get s = k.table.get s
  current : k'.table.current = k.table.current
  /-- Nothing in the caller has changed but its registers. -/
  parent : k'.table.get k.table.current = some p ∧
    (k.table.get k.table.current).map (fun p₀ => { p₀ with frame := p.frame }) = some p
  /-- The caller is behind the call with the number of the child for a result. No other register has changed. -/
  frame : f.ResumesAt (f.sepc + 4) q.pid p.frame
  sepc : p.frame.sepc.toNat = f.sepc.toNat + 4
  status : q.status = .ready
  parented : q.parent = some k.table.current
  fresh : q.pid ≠ 0 ∧ ∀ s r, k.table.get s = some r → r.pid ≠ q.pid
  resembles : p.Resembles q
  spaces : p.memory.space.Twins q.memory.space k.memory k'.memory

variable {σ φ : Type} {k k₁ k' : Kernel σ φ} {foreign : Surroundings} {p : Process AddressSpace} {f : TrapFrame}
  {pid : UInt64}

/-- A fork that succeeds. -/
private theorem Sound.fork_ok (h : k.Sound foreign) (hp : k.table.get k.table.current = some p)
    (hk : Kernel.fork.run k = .ok (.ok pid) k') :
    ∃ c child, k.table.firstFree? = some c ∧ pid = k.table.allocPid.1 ∧
      k'.table = k.table.allocPid.2.put c (some (p.child pid k.table.current child)) ∧
      p.memory.space.Twins child k.memory k'.memory := by
  have hspec : Kernel.fork.Ensures k
      (fun r k' => ∀ pid, r = .ok pid → ∃ c child, k.table.firstFree? = some c ∧ pid = k.table.allocPid.1 ∧
        k'.table = k.table.allocPid.2.put c (some (p.child pid k.table.current child)) ∧
        p.memory.space.Twins child k.memory k'.memory)
      fun _ _ => False := by
    rw [ensures_fork hp]
    cases hfree : k.table.firstFree? with
    | none => exact fun pid hpid => absurd hpid (by simp)
    | some c =>
      refine Run.Ensures.imp (AddressSpace.fork_twins (h.access hp).region) (fun r m' htwins => ?_) fun _ _ => False.elim
      cases r with
      | none => exact fun pid hpid => absurd hpid (by simp)
      | some child =>
        rintro _ ⟨⟩
        exact ⟨c, child, rfl, rfl, rfl, htwins child rfl⟩
  exact hspec.of_ok hk pid rfl

/-- To enter a call keeps the kernel sound. -/
theorem Sound.entered (h : k.Sound foreign) (hp : k.table.get k.table.current = some p)
    (htable : k₁.table = k.table.put k.table.current (some { p with frame := f.advanced }))
    (hmemory : k₁.memory = k.memory) : k₁.Sound foreign := by
  refine h.congr hmemory fun s => ?_
  rw [htable, get_put]
  split
  next hs => rw [← hs, hp]; rfl
  · rfl

variable [FileSystem σ] [Firmware φ]

/-- The slots after a fork has been answered: the child is in its own, the caller is behind the call with its result, and
the others are as they were. -/
private theorem get_answered {t : ProcessTable AddressSpace} {p₀ q : Process AddressSpace} {c : Slot}
    {frame : TrapFrame} (hrun : p₀.status = .running) (hc : c ≠ t.current) (s : Slot) :
    (((t.put t.current (some { p₀ with frame })).allocPid.2.put c (some q)).modifyAt t.current
        (Process.withResult pid)).get s =
      if c = s then some q else if t.current = s then some { p₀ with frame := frame.setA0 pid } else t.get s := by
  rw [get_modifyAt, get_put, get_allocPid, get_put]
  by_cases hs : t.current = s
  · subst hs
    have hlive : ({ p₀ with frame } : Process AddressSpace).isZombie = false := by simp [Process.isZombie, hrun]
    rw [if_pos rfl, if_neg hc, if_pos rfl, if_neg hc, if_pos rfl, Option.map_some, Process.withResult, hlive]
    rfl
  · rw [if_neg hs, if_neg hs, if_neg hs]

/-- A number that no process of a table has is not that of any of its processes before one of them trapped. -/
private theorem pid_ne_of_unused {t : ProcessTable AddressSpace} {p₀ : Process AddressSpace} {frame : TrapFrame}
    (hp : t.get t.current = some p₀) (hunused : (t.put t.current (some { p₀ with frame })).findPid? pid = none) (s : Slot)
    (r : Process AddressSpace) (hr : t.get s = some r) : r.pid ≠ pid := by
  have hother := findPid?_eq_none.mp hunused s
  rw [get_put] at hother
  split at hother
  next hs =>
    obtain rfl := Option.some.inj ((hs ▸ hr).symm.trans hp)
    exact hother { r with frame } rfl
  · exact hother r hr

/-- A trap that asks for a fork and gets it. -/
private theorem Sound.serve_fork (h : k.Sound foreign) (hforest : k.table.Forest PhysicalMemory) (hr : k.table.Running)
    (hasks : f.Asks .fork) {k₂ : Kernel σ φ} (hk : answerCall f k = .ok (.ok pid) k₂) :
    ∃ k' c p q, serve f k = .ok () k' ∧ q.pid = pid ∧ k.Forked k' f c p q := by
  obtain ⟨p₀, hp₀, hrun⟩ := id hr
  -- The trap goes behind the call, makes the fork, and puts the result into the registers.
  obtain ⟨k₁, henter, hperform⟩ := exists_perform hasks hk
  obtain ⟨hsepc, htable₁, -, hmemory₁⟩ := (enterCall_spec .fork hp₀).of_ok henter
  have hcurrent₁ : k₁.table.current = k.table.current := by rw [htable₁, current_put]
  have hp₁ : k₁.table.get k₁.table.current = some { p₀ with frame := f.advanced } := by
    rw [htable₁, current_put, get_put_self]
  obtain ⟨c, child, hfree, hpid, htable₂, htwins⟩ := (h.entered hp₀ htable₁ hmemory₁).fork_ok hp₁ hperform
  have hserve : serve f k = .ok () { k₂ with table := k₂.table.modifyAt k.table.current (Process.withResult pid) } := by
    rw [serve_eq_answerCall hasks.1 hp₀]
    exact Run.bind_eq_ok.mpr ⟨_, _, hk, rfl⟩
  obtain ⟨hpid₀, hunused, -⟩ := k₁.table.allocPid_fresh (by rw [htable₁]; exact hforest.nextPid)
  have hempty := firstFree?_eq_some hfree
  have hc : c ≠ k.table.current := by
    rintro rfl
    rw [← hcurrent₁, hp₁] at hempty
    exact absurd hempty (by simp)
  rw [← hpid] at hpid₀ hunused
  rw [htable₁] at hfree htable₂ hunused hempty
  let q := ({ p₀ with frame := f.advanced } : Process AddressSpace).child pid k.table.current child
  have hget (s : Slot) : (k₂.table.modifyAt k.table.current (Process.withResult pid)).get s =
      if c = s then some q else if k.table.current = s then some { p₀ with frame := f.advanced.setA0 pid }
      else k.table.get s := by
    rw [htable₂]
    exact get_answered hrun hc s
  refine ⟨_, c, { p₀ with frame := f.advanced.setA0 pid }, q, hserve, rfl, ?_⟩
  constructor
  case empty => rwa [get_put_of_ne _ hc] at hempty
  case lowest =>
    intro s hs
    refine firstFree?_le hfree ?_
    rw [get_put_of_ne, hs]
    rintro rfl
    exact absurd (hs.symm.trans hp₀) (by simp)
  case child => rw [hget, if_pos rfl]
  case others => exact fun s hs hs' => by rw [hget, if_neg (Ne.symm hs), if_neg (Ne.symm hs')]
  case current => exact (congrArg current htable₂).trans rfl
  case parent => exact ⟨by rw [hget, if_neg hc, if_pos rfl], by rw [hp₀]; rfl⟩
  case frame => exact f.resumesAt_advanced_setA0 pid
  case sepc => exact TrapFrame.sepc_advanced hsepc
  case status => rfl
  case parented => rfl
  case fresh => exact ⟨hpid₀, pid_ne_of_unused hp₀ hunused⟩
  case resembles =>
    have hzero : q.frame = (f.advanced.setA0 pid).setA0 0 := (TrapFrame.setA0_setA0 _ _ _).symm
    refine ⟨?_, rfl, rfl, rfl, rfl, rfl, rfl, rfl⟩
    rw [hzero]
    exact (f.advanced.setA0 pid).resumesAt_setA0 f.advanced.sepc 0
  case spaces =>
    rw [hmemory₁] at htwins
    exact htwins

variable {entry stackPointer heapStart : UInt64} {memory : PhysicalMemory} {files : σ} {firmware : φ}
  {logLimit : Option LogLevel} {k₀ : Kernel σ φ}

/-- Whatever traps have come, a trap that asks for a fork and gets it returns twice: in the caller with the number of
the child, and in the child with zero. -/
theorem Reachable.forked (hmemory : memory.Consistent)
    (hboot : boot entry stackPointer heapStart memory files firmware logLimit = .ok k₀) (h : Reachable k₀ k)
    (hasks : f.Asks .fork) {k₂ : Kernel σ φ} (hk : answerCall f k = .ok (.ok pid) k₂) :
    ∃ k' c p q, serve f k = .ok () k' ∧ q.pid = pid ∧ k.Forked k' f c p q := by
  obtain ⟨foreign, hsound⟩ := h.exists_sound hmemory hboot
  obtain ⟨hforest, hr⟩ := h.table_forest hboot
  exact hsound.serve_fork hforest hr hasks hk

/-- Whether a trap gets a number for an answer, such as that of a new process. -/
def answers (f : TrapFrame) (pid : UInt64) (k : Kernel σ φ) : Bool :=
  match answerCall f k with
  | .ok (.ok n) _ => n = pid
  | _ => false

/-- The first process has pages in its heap and on its stack, and has forked before. Since then it has written to the
stack again, so the next child gets one page that is shared already and one that was private. -/
def mixPages : List TrapFrame :=
  [callFrame .brk 0x10001000 0 0, { TrapFrame.zero with scause := 15, stval := 0x10000000 },
    { TrapFrame.zero with scause := 15, stval := 0x3FFFF000 }, callFrame .fork 0 0 0,
    { TrapFrame.zero with scause := 15, stval := 0x3FFFF000 }]

/-- The fork leaves the number of the child in the register of the first argument of its parent, and zero in that of the
child. Both are behind the call, and the other arguments are what they were. -/
theorem forked_twice : ∃ (k₀ k k' : Kernel EmptyFiles Bench.BenchFirmware) (c : Slot) (p q : Process AddressSpace),
    benchStart = .ok k₀ ∧ Reachable k₀ k ∧ k.table.children .init = [1] ∧
      serve (callFrame .fork 9 8 7) k = .ok () k' ∧ q.pid = 2 ∧ k.Forked k' (callFrame .fork 9 8 7) c p q ∧
      k'.table.get k.table.current = some p ∧ k'.table.get c = some q ∧
      p.frame.sepc = 4 ∧ p.frame.registers.get 10 = 2 ∧ p.frame.registers.get 11 = 8 ∧ p.frame.registers.get 12 = 7 ∧
      q.frame.sepc = 4 ∧ q.frame.registers.get 10 = 0 ∧ q.frame.registers.get 11 = 8 ∧ q.frame.registers.get 12 = 7 := by
  obtain ⟨k₀, k, hk₀, hk, htest⟩ := exists_of_benchRun (show benchRun mixPages
    (fun k => decide (k.table.children .init = [1]) && answers (callFrame .fork 9 8 7) 2 k) = true by decide +kernel)
  rw [Bool.and_eq_true, decide_eq_true_eq] at htest
  obtain ⟨hchildren, hanswer⟩ := htest
  unfold answers at hanswer
  split at hanswer
  next hforked =>
    rw [of_decide_eq_true hanswer] at hforked
    obtain ⟨k', c, p, q, hserve, hpid, hf⟩ := Reachable.forked consistent_benchMemory hk₀ hk (by decide) hforked
    have hparent : (callFrame .fork 9 8 7).ResumesAt 4 2 p.frame := hpid ▸ hf.frame
    have hchild : p.frame.ResumesAt 4 0 q.frame := hparent.sepc ▸ hf.resembles.frame
    have hparent11 : p.frame.registers.get 11 = 8 := (hparent.registers 11 (by decide)).trans rfl
    have hparent12 : p.frame.registers.get 12 = 7 := (hparent.registers 12 (by decide)).trans rfl
    exact ⟨k₀, k, k', c, p, q, hk₀, hk, hchildren, hserve, hpid, hf, hf.parent.1, hf.child, hparent.sepc, hparent.a0,
      hparent11, hparent12, hchild.sepc, hchild.a0, (hchild.registers 11 (by decide)).trans hparent11,
      (hchild.registers 12 (by decide)).trans hparent12⟩
  · exact absurd hanswer (by simp)

end Kernel

end TrapKernel
