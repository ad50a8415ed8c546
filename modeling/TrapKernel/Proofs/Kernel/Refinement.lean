import TrapKernel.Proofs.Kernel.Events

/-!
# Copy-on-write refines copying

On paged memory, where a copy of a process shares its frames, every run looks to the processes like a run on private
memory, where a copy is made of every page at once.

* `Event.performAll_refines`: what the page tables show after a run are the pages of private memory after the same run,
  and no event changes what the processes see that do not run.
-/

namespace TrapKernel

/-- What the page table shows to the process under a page number that it can tell apart from others. -/
def AddressSpace.seen (s : AddressSpace) (m : PhysicalMemory) (page : Nat) : Option Frame :=
  if page < pageLimit then (s.translate m page).map fun e => m.frame e.frame else none

private theorem Access.Sound.content_eq_seen {a : Access} {foreign : Surroundings} {owned held : List Nat}
    (h : a.Sound foreign owned held) : a.user.space.content a.memory = a.user.space.seen a.memory := by
  funext page
  unfold AddressSpace.seen
  split
  next hlt =>
    show _ = (a.translate page).map _
    cases he : a.translate page with
    | none => exact h.content_of_translate_eq_none he
    | some e => exact h.content_of_translate hlt he
  next hge =>
    unfold AddressSpace.content
    cases hp : a.user.space.pages[page]? with
    | none => rfl
    | some p => exact absurd (AddressSpace.lt_of_getElem? h.region.valid hp) hge

/-! ### Private memory -/

namespace PrivateMemory

private theorem hasRoom_neverIdle : hasRoom.NeverIdle := ⟨fun _ => trivial⟩

private theorem needRoom_neverIdle : needRoom.NeverIdle := by
  refine (Attempt.avoids_ofRun hasRoom_neverIdle.within).bind fun room => ?_
  split
  · exact Attempt.avoids_pure _
  · exact Attempt.avoids_throw _

private theorem handleFault_neverIdle (address : Nat) (write : Bool) : (handleFault address write).NeverIdle := by
  refine Attempt.avoids_get.bind fun a => ?_
  split
  · split
    · exact needRoom_neverIdle
    · exact Attempt.avoids_pure _
  · split
    · exact needRoom_neverIdle.bind fun _ => Attempt.avoids_modify _
    · exact Attempt.avoids_throw _

private theorem fork_neverIdle (s : PrivatePages) :
    (MemorySystem.fork s : Run Answers (Option PrivatePages)).NeverIdle := by
  refine hasRoom_neverIdle.bind fun room => ?_
  split
  · exact Run.avoids_pure _
  · exact Run.avoids_pure _

private theorem neverIdle : MemorySystem.NeverIdle Answers where
  fork := fork_neverIdle
  unmapRange _ _ := Run.avoids_pure _
  unmapAll _ := Run.avoids_pure _
  release _ := Run.avoids_pure _
  handleFault := handleFault_neverIdle
  frameOf address write := (handleFault_neverIdle address write).bind fun _ => Attempt.avoids_pure _

end PrivateMemory

namespace Kernel

open ProcessTable

variable {σ φ : Type}

/-- Whether a kernel with private memory is in the state that the processes see: every process has the pages that its
page table shows to it, and the rest is the same. -/
structure SeenAs (k : Kernel σ φ) (q : PrivateKernel σ φ) : Prop where
  current : q.table.current = k.table.current
  nextPid : q.table.nextPid = k.table.nextPid
  get : ∀ s, q.table.get s = (k.table.get s).map fun p => p.mapSpace fun space => space.seen k.memory
  volume : q.volume = k.volume
  machine : q.machine = k.machine
  log : q.log = k.log

/-- Whether the processes that have not exited, apart from the running one of `k`, see the same pages in `k'` or have
exited since. -/
def Isolates (k k' : Kernel σ φ) : Prop :=
  ∀ s p, s ≠ k.table.current → k.table.get s = some p → p.isZombie = false →
    ∃ q, k'.table.get s = some q ∧ q.pid = p.pid ∧
      (q.isZombie = true ∨ q.memory.space.seen k'.memory = p.memory.space.seen k.memory)

variable {foreign : Surroundings} {k k' : Kernel σ φ}

private theorem Sound.privately_eq (h : k.Sound foreign) {s : Slot} {p : Process AddressSpace}
    (hp : k.table.get s = some p) : p.privately k.memory = p.mapSpace fun space => space.seen k.memory := by
  rw [Process.privately, Process.mapSpace, Process.mapSpace, UserMemory.mapSpace, UserMemory.mapSpace]
  rw [(h.access hp).content_eq_seen]

private theorem Sound.seenAs (h : k.Sound foreign) (answers : Answers) : k.SeenAs (k.privately answers) where
  current := rfl
  nextPid := rfl
  get s := by
    rw [table_privately, get_mapSpace]
    cases hp : k.table.get s with
    | none => rfl
    | some p => exact congrArg some (h.privately_eq hp)
  volume := rfl
  machine := rfl
  log := rfl

/-- If the private memory of the others is kept, they see the same pages. -/
private theorem Sound.isolates (h : k.Sound foreign) (h' : k'.Sound foreign)
    (hkeeps : (k.privately []).table.Keeps (k'.privately []).table) : k.Isolates k' := by
  intro s p hs hp hlive
  obtain ⟨q, hq, hpid, hor⟩ := hkeeps s _ hs (get_privately hp []) hlive
  rw [table_privately, get_mapSpace, Option.map_eq_some_iff] at hq
  obtain ⟨q, hq, rfl⟩ := hq
  refine ⟨q, hq, hpid, hor.imp id fun hmemory => ?_⟩
  have hcontent : q.memory.space.content k'.memory = p.memory.space.content k.memory :=
    congrArg UserMemory.space hmemory
  rwa [(h.access hp).content_eq_seen, (h'.access hq).content_eq_seen] at hcontent

end Kernel

namespace Event

open ProcessTable Kernel

variable {σ φ : Type} [FileSystem σ] [Firmware φ] {foreign : Surroundings} {k k' : Kernel σ φ}

/-- Whether the kernel is sound and its processes form a tree with a running one. -/
structure Steady (foreign : Surroundings) (k : Kernel σ φ) : Prop where
  sound : k.Sound foreign
  forest : (k.privately []).table.Forest Answers
  running : (k.privately []).table.Running

/-- A steady kernel stays steady at an event with low addresses, does what it does on private memory, and isolates the
processes. -/
private theorem Steady.perform (h : Steady foreign k) {e : Event} (hlow : e.Low) {r : Except Errno (List UInt8)}
    (hk : e.perform k = .ok r k') : Steady foreign k' ∧ Run.Follows privately e.perform k k' r ∧ k.Isolates k' := by
  obtain ⟨hsound, hfollows⟩ := (perform_agrees h.sound e fun _ : True => hlow).of_ok hk
  obtain ⟨answers, hanswers⟩ := hfollows trivial
  obtain ⟨hmoves, hkeeps⟩ := (perform_moves (k := k.privately (answers ++ [])) PrivateMemory.neverIdle h.forest
    h.running e).of_ok (hanswers [])
  obtain ⟨hforest, hrunning⟩ := forest_of_moves hmoves h.forest h.running
  exact ⟨⟨hsound, hforest, hrunning⟩, ⟨answers, hanswers⟩, h.sound.isolates hsound hkeeps⟩

/-- A run from a steady kernel leads to a steady kernel and does what it does on private memory. -/
private theorem Steady.performAll (h : Steady foreign k) {es : List Event} (hlow : ∀ e ∈ es, e.Low) :
    (performAll es).Ensures k
      (fun rs k' => Steady foreign k' ∧ Run.Follows privately (Event.performAll es) k k' rs) fun _ _ => True := by
  induction es generalizing k with
  | nil => exact ⟨h, .of_pure⟩
  | cons e rest ih =>
    obtain ⟨he, hrest⟩ := List.forall_mem_cons.mp hlow
    unfold Event.performAll
    rw [Run.ensures_bind, Run.ensures_iff]
    refine ⟨fun r k₁ hk₁ => ?_, fun _ _ _ => trivial⟩
    obtain ⟨hsteady, hfollows, -⟩ := h.perform he hk₁
    rw [Run.ensures_bind]
    refine (ih hsteady hrest).mono ?_
    rintro rs k' ⟨hsteady', hfollows'⟩
    exact ⟨hsteady', .bind hfollows (.bind hfollows' .of_pure)⟩

variable {entry stackPointer heapStart : UInt64} {memory : PhysicalMemory} {files : σ} {firmware : φ}
  {logLimit : Option LogLevel} {k₀ : Kernel σ φ}

/-- After any run from the start, what the page tables show to the processes are the pages of private memory after the
same run, with the same bytes read, and no event changes what the processes see that do not run. -/
theorem performAll_refines (hboot : boot entry stackPointer heapStart memory files firmware logLimit = .ok k₀)
    (hmemory : memory.Consistent) {es : List Event} (hlow : ∀ e ∈ es, e.Low) {rs : List (Except Errno (List UInt8))}
    (hk : performAll es k₀ = .ok rs k) :
    (∃ (answers : Answers) (q₀ q : PrivateKernel σ φ),
      boot entry stackPointer heapStart answers files firmware logLimit = .ok q₀ ∧
        performAll es q₀ = .ok rs q ∧ k.SeenAs q) ∧
      ∀ (e : Event) (r : Except Errno (List UInt8)) (k' : Kernel σ φ),
        e.Low → e.perform k = .ok r k' → k.Isolates k' := by
  obtain ⟨foreign, haccounts⟩ := hmemory
  obtain ⟨hsound, hprivate⟩ := boot_spec haccounts hboot
  obtain ⟨hforest, hrunning⟩ := forest_of_boot (hprivate [])
  have hsteady : Steady foreign k₀ := ⟨hsound, hforest, hrunning⟩
  obtain ⟨hsteady', answers, hanswers⟩ := (hsteady.performAll hlow).of_ok hk
  refine ⟨⟨true :: answers, k₀.privately answers, k.privately [], hprivate answers, ?_, hsteady'.sound.seenAs []⟩,
    fun e r k' he hk' => (hsteady'.perform he hk').2.2⟩
  simpa using hanswers []

/-- What some events at the start of the bench kernel answer, if none of them stops it. -/
def benchAnswers (es : List Event) : Option (List (Except Errno (List UInt8))) :=
  match benchStart with
  | .error _ => none
  | .ok k =>
    match performAll es k with
    | .ok rs _ => some rs
    | .error _ _ => none

private theorem exists_of_benchAnswers {es : List Event} {rs : List (Except Errno (List UInt8))}
    (h : benchAnswers es = some rs) : ∃ k₀ k, benchStart = .ok k₀ ∧ performAll es k₀ = .ok rs k := by
  unfold benchAnswers at h
  split at h
  · exact absurd h (by simp)
  next k₀ hk₀ =>
    split at h
    next k hk => exact ⟨k₀, k, hk₀, by rw [hk, Option.some.inj h]⟩
    · exact absurd h (by simp)

/-- The first process writes before and after it forks, and its child sees the first of the two bytes only. -/
def forkEvents : List Event :=
  [.store 0x3FFFE000 [1], .trap (callFrame .fork 0 0 0), .store 0x3FFFE000 [2], .load 0x3FFFE000 1,
    .trap (callFrame .yield 0 0 0), .load 0x3FFFE000 1]

theorem performAll_refines_fork : ∃ (k₀ k : Kernel EmptyFiles Bench.BenchFirmware) (answers : Answers)
    (q₀ q : PrivateKernel EmptyFiles Bench.BenchFirmware),
    benchStart = .ok k₀ ∧ boot 0x1000 0x40000000 0x10000000 answers .empty {} none = .ok q₀ ∧
      performAll forkEvents k₀ = .ok [.ok [], .ok [], .ok [], .ok [2], .ok [], .ok [1]] k ∧
      performAll forkEvents q₀ = .ok [.ok [], .ok [], .ok [], .ok [2], .ok [], .ok [1]] q ∧ k.SeenAs q := by
  obtain ⟨k₀, k, hk₀, hk⟩ := exists_of_benchAnswers
    (show benchAnswers forkEvents = some [.ok [], .ok [], .ok [], .ok [2], .ok [], .ok [1]] by decide +kernel)
  obtain ⟨⟨answers, q₀, q, hq₀, hq, hseen⟩, -⟩ := performAll_refines hk₀ consistent_benchMemory (by decide +kernel) hk
  exact ⟨k₀, k, answers, q₀, q, hk₀, hq₀, hk, hq, hseen⟩

end Event

end TrapKernel
