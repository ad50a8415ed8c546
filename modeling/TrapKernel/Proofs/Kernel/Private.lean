import TrapKernel.Proofs.Kernel.Sound
import TrapKernel.Proofs.NeverIdle

/-!
# The kernel with private memory

`PrivateKernel` is the same kernel on private memory, and `Kernel.privately` forgets the frames of a kernel with paged
memory. Two computations agree if the first keeps the kernel sound, and never stops because a frame is given back that is
not handed out, and the second does on private memory what the first does on paged memory. There is one rule for each
way to build a computation of the kernel.
-/

namespace TrapKernel

/-- All that the kernel knows, where every process has private memory. -/
abbrev PrivateKernel (σ φ : Type) : Type := KernelState Answers PrivatePages σ φ

/-- The process as it sees itself. -/
def Process.privately (p : Process AddressSpace) (m : PhysicalMemory) : Process PrivatePages :=
  p.mapSpace fun s => s.content m

namespace Kernel

open ProcessTable

variable {σ φ α γ : Type}

/-- The kernel as its processes see it. -/
def privately (k : Kernel σ φ) (answers : Answers) : PrivateKernel σ φ where
  memory := answers
  table := k.table.mapSpace fun s => s.content k.memory
  volume := k.volume
  machine := k.machine
  log := k.log

/-- Whether a computation keeps the kernel sound and its books in order, and under the condition `ok` another one does
the same on private memory. -/
def Agrees (foreign : Surroundings) (ok : Prop) (k : Kernel σ φ) (op : Run (Kernel σ φ) α)
    (op' : Run (PrivateKernel σ φ) α) : Prop :=
  op.Ensures k (fun a k' => k'.Sound foreign ∧ (ok → Run.Follows privately op' k k' a)) fun p _ => ¬p.IsDoubleReturn

/-- `Agrees` for computations that may fail. -/
def AttemptAgrees (foreign : Surroundings) (ok : Prop) (k : Kernel σ φ) (op : Attempt (Kernel σ φ) α)
    (op' : Attempt (PrivateKernel σ φ) α) : Prop :=
  Agrees foreign ok k op.run op'.run

variable {foreign : Surroundings} {ok : Prop} {k k' : Kernel σ φ}

@[simp] theorem table_privately (answers : Answers) :
    (k.privately answers).table = k.table.mapSpace fun s => s.content k.memory := rfl

theorem get_privately {s : Slot} {p : Process AddressSpace} (hp : k.table.get s = some p) (answers : Answers) :
    (k.privately answers).table.get s = some (p.privately k.memory) := by
  show (k.table.mapSpace _).get s = _
  rw [get_mapSpace, hp]
  rfl

/-- What the processes see when the content of one slot has been replaced, and the others see what they saw. -/
theorem privately_put (k' : Kernel σ φ) {s : Slot} {pt : Option (Process AddressSpace)}
    (hothers : ∀ s' q, s' ≠ s → k.table.get s' = some q →
      q.memory.space.content k'.memory = q.memory.space.content k.memory)
    (htable : k'.table = k.table.put s pt) (hvolume : k'.volume = k.volume) (hmachine : k'.machine = k.machine)
    (answers : Answers) : k'.privately answers =
      { k.privately answers with
        table := (k.privately answers).table.put s (pt.map fun p => p.privately k'.memory)
        log := k'.log } := by
  have hput : (k.table.put s pt).mapSpace (fun s => s.content k'.memory) =
      (k.table.mapSpace fun s => s.content k.memory).put s (pt.map fun p => p.privately k'.memory) :=
    mapSpace_put _ hothers
  simp only [privately, htable, hvolume, hmachine, hput]

/-- What the processes see when one of them has worked on its memory. -/
theorem privately_storeAccess (h : k.Sound foreign) {s : Slot} {p : Process AddressSpace} {a : Access}
    (hs : Region.Spares k.memory a.memory (k.otherNodes s) (k.otherFrames s)) (answers answers' : Answers) :
    storeAccess (k.privately answers') s (p.privately k.memory) (a.privately answers) =
      privately (storeAccess k s p a) answers :=
  (privately_put (storeAccess k s p a) (fun _ _ hne hq => h.content_of_spares hs hne hq) rfl rfl rfl answers).symm

/-! ### Computations that cannot fail -/

namespace Agrees

theorem of_pure (h : k.Sound foreign) (a : α) : Agrees foreign ok k (pure a) (pure a) := ⟨h, fun _ => .of_pure⟩

theorem of_crash {op : Run (PrivateKernel σ φ) α} {p : Panic} (hp : ¬p.IsDoubleReturn) :
    Agrees foreign ok k (crash p) op := hp

theorem bind {x : Run (Kernel σ φ) γ} {x' : Run (PrivateKernel σ φ) γ} {f : γ → Run (Kernel σ φ) α}
    {f' : γ → Run (PrivateKernel σ φ) α} (hx : Agrees foreign ok k x x')
    (hf : ∀ a k', k'.Sound foreign → Agrees foreign ok k' (f a) (f' a)) : Agrees foreign ok k (x >>= f) (x' >>= f') := by
  unfold Agrees
  rw [Run.ensures_bind]
  refine hx.mono ?_
  rintro c k₁ ⟨hk₁, hfollows₁⟩
  refine (hf c k₁ hk₁).mono ?_
  rintro a k₂ ⟨hk₂, hfollows₂⟩
  exact ⟨hk₂, fun hok => .bind (hfollows₁ hok) (hfollows₂ hok)⟩

/-- A computation that comes first and ends in a known state. -/
theorem of_bind {x : Run (Kernel σ φ) γ} {x' : Run (PrivateKernel σ φ) γ} {f : γ → Run (Kernel σ φ) α}
    {f' : γ → Run (PrivateKernel σ φ) α} {c : γ} (k' : Kernel σ φ) (hx : x k = .ok c k') (hx' : Run.Follows privately x' k k' c)
    (h : Agrees foreign ok k' (f c) (f' c)) : Agrees foreign ok k (x >>= f) (x' >>= f') := by
  unfold Agrees
  rw [Run.ensures_bind]
  refine Run.ensures_of_eq_ok hx ?_
  refine h.mono ?_
  rintro a k₂ ⟨hk₂, hfollows⟩
  exact ⟨hk₂, fun hok => .bind hx' (hfollows hok)⟩

private theorem of_onVolume {op : Run (Volume σ) γ} {f : γ → Run (Kernel σ φ) α} {f' : γ → Run (PrivateKernel σ φ) α}
    (havoids : op.Avoids Panic.IsDoubleReturn) (h : ∀ c volume, Agrees foreign ok { k with volume } (f c) (f' c)) :
    Agrees foreign ok k (Kernel.onVolume op >>= f) (Kernel.onVolume op >>= f') := by
  cases hop : op k.volume with
  | ok c volume =>
    refine of_bind _ (Run.Ensures.eq_ok (ensures_onVolume.mpr (Run.ensures_of_eq_ok hop ⟨rfl, rfl⟩)))
      (.of_forall fun rest => ?_) (h c volume)
    exact Run.Ensures.eq_ok (ensures_onVolume.mpr (Run.ensures_of_eq_ok hop ⟨rfl, rfl⟩))
  | error p volume =>
    unfold Agrees
    rw [Run.ensures_bind, ensures_onVolume]
    unfold Run.Ensures
    rw [hop]
    exact (havoids.ensures k.volume).of_error hop

theorem ite {c : Prop} [Decidable c] {x y : Run (Kernel σ φ) α} {x' y' : Run (PrivateKernel σ φ) α}
    (hx : c → Agrees foreign ok k x x') (hy : ¬c → Agrees foreign ok k y y') :
    Agrees foreign ok k (if c then x else y) (if c then x' else y') := by
  by_cases hc : c
  · rw [if_pos hc, if_pos hc]
    exact hx hc
  · rw [if_neg hc, if_neg hc]
    exact hy hc

theorem of_addWords {a b : Nat} {f : Nat → Run (Kernel σ φ) α} {f' : Nat → Run (PrivateKernel σ φ) α}
    (h : Agrees foreign ok k (f (a + b)) (f' (a + b))) :
    Agrees foreign ok k (addWords a b >>= f) (addWords a b >>= f') := by
  unfold addWords
  split
  · exact h
  · exact of_crash (by simp)

theorem subWords (h : k.Sound foreign) (a b : Nat) :
    Agrees foreign ok k (TrapKernel.subWords a b) (TrapKernel.subWords a b) := by
  unfold TrapKernel.subWords
  exact ite (fun _ => of_pure h _) fun _ => of_crash (by simp)

/-- To look at the kernel is to know what does not depend on the answers. -/
theorem of_get {f : Kernel σ φ → Run (Kernel σ φ) α} {f' : PrivateKernel σ φ → Run (PrivateKernel σ φ) α}
    (hf : ∀ answers, f' (k.privately answers) = f' (k.privately []))
    (h : Agrees foreign ok k (f k) (f' (k.privately []))) : Agrees foreign ok k (get >>= f) (get >>= f') := by
  unfold Agrees
  rw [Run.ensures_bind, Run.ensures_get]
  refine h.mono ?_
  rintro a k' ⟨hk', hfollows⟩
  exact ⟨hk', fun hok => .of_get hf (hfollows hok)⟩

/-- A change that leaves the memory of all processes alone. -/
theorem of_modify {f : Kernel σ φ → Kernel σ φ} {f' : PrivateKernel σ φ → PrivateKernel σ φ} (h : k.Sound foreign)
    (hmemory : (f k).memory = k.memory)
    (htable : ∀ s, ((f k).table.get s).map Process.memory = (k.table.get s).map Process.memory)
    (hf : ∀ answers, f' (k.privately answers) = (f k).privately answers) :
    Agrees foreign ok k (modify f) (modify f') :=
  ⟨h.congr hmemory htable, fun _ => .of_modify hf⟩

theorem note (h : k.Sound foreign) (n : Notice) : Agrees foreign ok k (Kernel.note n) (Kernel.note n) :=
  of_modify h rfl (fun _ => rfl) fun _ => rfl

theorem modifyTable {f : ProcessTable → ProcessTable} {f' : ProcessTable PrivatePages → ProcessTable PrivatePages}
    (h : k.Sound foreign) (htable : ∀ s, ((f k.table).get s).map Process.memory = (k.table.get s).map Process.memory)
    (hf : f' (k.table.mapSpace fun s => s.content k.memory) = (f k.table).mapSpace fun s => s.content k.memory) :
    Agrees foreign ok k (Kernel.modifyTable f) (Kernel.modifyTable f') := by
  refine of_modify h rfl htable fun answers => ?_
  show KernelState.mk _ (f' (k.table.mapSpace _)) _ _ _ = _
  rw [hf]
  rfl

theorem onVolume (h : k.Sound foreign) {op : Run (Volume σ) α} (havoids : op.Avoids Panic.IsDoubleReturn) :
    Agrees foreign ok k (Kernel.onVolume op) (Kernel.onVolume op) := by
  have hbind : Agrees foreign ok k (Kernel.onVolume op >>= pure) (Kernel.onVolume op >>= pure) :=
    of_onVolume havoids fun c volume => of_pure (k := { k with volume }) (h.congr rfl fun _ => rfl) c
  rwa [bind_pure, bind_pure] at hbind

theorem onMachine (h : k.Sound foreign) {op : Run (Machine φ) α} (havoids : op.Avoids Panic.IsDoubleReturn) :
    Agrees foreign ok k (Kernel.onMachine op) (Kernel.onMachine op) := by
  unfold Agrees
  rw [ensures_onMachine, Run.ensures_iff]
  refine ⟨fun a machine hop => ⟨h.congr rfl fun _ => rfl, fun _ => .of_forall fun rest => ?_⟩,
    fun _ _ => (havoids.ensures k.machine).of_error⟩
  exact Run.Ensures.eq_ok (ensures_onMachine.mpr (Run.ensures_of_eq_ok hop ⟨rfl, rfl⟩))

/-- To look at the running process is to know it as it sees itself. -/
theorem of_currentProcess {f : Process AddressSpace → Run (Kernel σ φ) α}
    {f' : Process PrivatePages → Run (PrivateKernel σ φ) α}
    (h : ∀ p, k.table.get k.table.current = some p → Agrees foreign ok k (f p) (f' (p.privately k.memory))) :
    Agrees foreign ok k (currentProcess >>= f) (currentProcess >>= f') := by
  cases hp : k.table.get k.table.current with
  | none =>
    unfold Agrees currentProcess processAt
    simp only [Run.ensures_bind, Run.ensures_get, hp, Run.ensures_crash]
    simp
  | some p =>
    unfold Agrees
    rw [Run.ensures_bind, ensures_currentProcess hp]
    refine (h p hp).mono ?_
    rintro a k' ⟨hk', hfollows⟩
    refine ⟨hk', fun hok => ?_⟩
    refine .bind (.of_forall fun rest => Run.Ensures.eq_ok ?_) (hfollows hok)
    exact (ensures_currentProcess (get_privately hp rest)).mpr ⟨rfl, rfl⟩

theorem modifyCurrent {g : Process AddressSpace → Process AddressSpace} {g' : Process PrivatePages → Process PrivatePages}
    (h : k.Sound foreign) (hmemory : ∀ p, (g p).memory = p.memory)
    (hg : ∀ p (f : AddressSpace → PrivatePages), g' (p.mapSpace f) = (g p).mapSpace f) :
    Agrees foreign ok k (Kernel.modifyCurrent g) (Kernel.modifyCurrent g') := by
  unfold Kernel.modifyCurrent
  refine of_currentProcess fun p hp => modifyTable h (fun s => ?_) ?_
  · rw [get_put]
    split
    next hs => rw [← hs, hp, Option.map_some, Option.map_some, hmemory]
    · rfl
  · rw [Process.privately, hg]
    exact put_mapSpace _ (some (g p))

end Agrees

/-! ### Computations that may fail -/

namespace AttemptAgrees

theorem of_pure (h : k.Sound foreign) (a : α) : AttemptAgrees foreign ok k (pure a) (pure a) := Agrees.of_pure h _

theorem of_throw (h : k.Sound foreign) (e : Errno) :
    AttemptAgrees foreign ok k (throw e : Attempt (Kernel σ φ) α) (throw e) :=
  Agrees.of_pure h _

theorem of_run {op : Run (Kernel σ φ) (Except Errno α)} {op' : Run (PrivateKernel σ φ) (Except Errno α)}
    (h : Agrees foreign ok k op op') : AttemptAgrees foreign ok k (ExceptT.mk op) (ExceptT.mk op') :=
  h

theorem ofRun {op : Run (Kernel σ φ) α} {op' : Run (PrivateKernel σ φ) α} (h : Agrees foreign ok k op op') :
    AttemptAgrees foreign ok k (Attempt.ofRun op) (Attempt.ofRun op') :=
  Agrees.bind h fun a _ hk' => Agrees.of_pure hk' (Except.ok a)

/-- A change that leaves the memory of all processes alone. -/
theorem of_modify {f : Kernel σ φ → Kernel σ φ} {f' : PrivateKernel σ φ → PrivateKernel σ φ} (h : k.Sound foreign)
    (hmemory : (f k).memory = k.memory)
    (htable : ∀ s, ((f k).table.get s).map Process.memory = (k.table.get s).map Process.memory)
    (hf : ∀ answers, f' (k.privately answers) = (f k).privately answers) :
    AttemptAgrees foreign ok k (modify f) (modify f') :=
  ⟨h.congr hmemory htable, fun _ => Attempt.Follows.of_modify hf⟩

/-- A computation that cannot fail comes first. -/
theorem of_ofRun_bind {γ' : Type} {x : Run (Kernel σ φ) γ} {x' : Run (PrivateKernel σ φ) γ'}
    {f : γ → Attempt (Kernel σ φ) α} {f' : γ' → Attempt (PrivateKernel σ φ) α}
    (h : Agrees foreign ok k (x >>= fun c => (f c).run) (x' >>= fun c => (f' c).run)) :
    AttemptAgrees foreign ok k (Attempt.ofRun x >>= f) (Attempt.ofRun x' >>= f') := by
  unfold AttemptAgrees
  rwa [Attempt.run_ofRun_bind, Attempt.run_ofRun_bind]

theorem of_ofExcept {x : Except Errno γ} {f : γ → Attempt (Kernel σ φ) α} {f' : γ → Attempt (PrivateKernel σ φ) α}
    (h : k.Sound foreign) (hf : ∀ c, x = .ok c → AttemptAgrees foreign ok k (f c) (f' c)) :
    AttemptAgrees foreign ok k (Attempt.ofExcept x >>= f) (Attempt.ofExcept x >>= f') := by
  cases x with
  | ok c => exact hf c rfl
  | error e => exact of_throw h e

theorem bind {x : Attempt (Kernel σ φ) γ} {x' : Attempt (PrivateKernel σ φ) γ} {f : γ → Attempt (Kernel σ φ) α}
    {f' : γ → Attempt (PrivateKernel σ φ) α} (hx : AttemptAgrees foreign ok k x x')
    (hf : ∀ a k', k'.Sound foreign → AttemptAgrees foreign ok k' (f a) (f' a)) :
    AttemptAgrees foreign ok k (x >>= f) (x' >>= f') := by
  refine Agrees.bind hx fun r k₁ hk₁ => ?_
  cases r with
  | ok a => exact hf a k₁ hk₁
  | error e => exact Agrees.of_pure hk₁ (Except.error e)

theorem ite {c : Prop} [Decidable c] {x y : Attempt (Kernel σ φ) α} {x' y' : Attempt (PrivateKernel σ φ) α}
    (hx : c → AttemptAgrees foreign ok k x x') (hy : ¬c → AttemptAgrees foreign ok k y y') :
    AttemptAgrees foreign ok k (if c then x else y) (if c then x' else y') := by
  by_cases hc : c
  · rw [if_pos hc, if_pos hc]
    exact hx hc
  · rw [if_neg hc, if_neg hc]
    exact hy hc

theorem of_get {f : Kernel σ φ → Attempt (Kernel σ φ) α} {f' : PrivateKernel σ φ → Attempt (PrivateKernel σ φ) α}
    (hf : ∀ answers, f' (k.privately answers) = f' (k.privately []))
    (h : AttemptAgrees foreign ok k (f k) (f' (k.privately []))) :
    AttemptAgrees foreign ok k (get >>= f) (get >>= f') := by
  unfold AttemptAgrees Agrees
  rw [Attempt.ensures_run, Attempt.ensures_bind, Attempt.ensures_get]
  refine Run.Ensures.mono h ?_
  rintro a k' ⟨hk', hfollows⟩
  exact ⟨hk', fun hok => Attempt.Follows.of_get (f := f') hf (hfollows hok)⟩

theorem of_currentProcess {f : Process AddressSpace → Attempt (Kernel σ φ) α}
    {f' : Process PrivatePages → Attempt (PrivateKernel σ φ) α}
    (h : ∀ p, k.table.get k.table.current = some p → AttemptAgrees foreign ok k (f p) (f' (p.privately k.memory))) :
    AttemptAgrees foreign ok k (Attempt.ofRun currentProcess >>= f) (Attempt.ofRun currentProcess >>= f') :=
  of_ofRun_bind (Agrees.of_currentProcess h)

theorem of_onVolume {op : Run (Volume σ) γ} {f : γ → Attempt (Kernel σ φ) α} {f' : γ → Attempt (PrivateKernel σ φ) α}
    (havoids : op.Avoids Panic.IsDoubleReturn) (h : ∀ c volume, AttemptAgrees foreign ok { k with volume } (f c) (f' c)) :
    AttemptAgrees foreign ok k (Attempt.ofRun (Kernel.onVolume op) >>= f) (Attempt.ofRun (Kernel.onVolume op) >>= f') :=
  of_ofRun_bind (Agrees.of_onVolume havoids h)

/-- The running process works on its memory. -/
theorem onCurrentMemory {op : Attempt Access α} {op' : Attempt PrivateAccess α} (h : k.Sound foreign)
    (hop : ∀ p owned held, k.table.get k.table.current = some p →
      Access.Sound ⟨p.memory, k.memory⟩ foreign owned held → op.Ensures ⟨p.memory, k.memory⟩
        (fun r a => Access.Leads foreign owned held ⟨p.memory, k.memory⟩ a ∧
          (ok → Attempt.Follows Access.privately op' ⟨p.memory, k.memory⟩ a r)) fun p _ => ¬p.IsDoubleReturn) :
    AttemptAgrees foreign ok k (Kernel.onCurrentMemory op) (Kernel.onCurrentMemory op') := by
  unfold Kernel.onCurrentMemory
  refine of_get (fun _ => rfl) ?_
  show AttemptAgrees foreign ok k (onUserMemory k.table.current op) (onUserMemory k.table.current op')
  cases hp : k.table.get k.table.current with
  | none =>
    unfold onUserMemory AttemptAgrees Agrees processAt
    rw [Attempt.run_ofRun_bind]
    simp only [Run.ensures_bind, Run.ensures_get, hp, Run.ensures_crash]
    simp
  | some p =>
    unfold AttemptAgrees Agrees
    rw [Attempt.ensures_run, ensures_onUserMemory hp]
    refine (hop p _ _ hp (h.access hp)).mono ?_
    rintro r a ⟨hleads, hfollows⟩
    refine ⟨h.store hp hleads rfl, fun hok => ?_⟩
    obtain ⟨l, hl⟩ := hfollows hok
    refine ⟨l, fun rest => Run.Ensures.eq_ok ?_⟩
    refine (ensures_onUserMemory (get_privately hp _)).mpr (Run.ensures_of_eq_ok (hl rest) ⟨rfl, ?_⟩)
    exact privately_storeAccess h hleads.spares rest _

/-- All pages of a process are dropped. -/
theorem of_unmapAll (h : k.Sound foreign) {s : Slot} {p : Process AddressSpace} (hp : k.table.get s = some p)
    {z : AddressSpace → Process AddressSpace} {z' : PrivatePages → Process PrivatePages}
    (hmemory : ∀ space, (z space).memory = { p.memory with space })
    (hz : ∀ space m, z' (space.content m) = (z space).privately m) {f : Attempt (Kernel σ φ) α}
    {f' : Attempt (PrivateKernel σ φ) α} (hf : ∀ k', k'.Sound foreign → AttemptAgrees foreign ok k' f f') :
    AttemptAgrees foreign ok k
      (do
        let space ← Attempt.ofRun (onMemory (MemorySystem.unmapAll p.memory.space))
        Attempt.ofRun (Kernel.modifyTable fun t => t.put s (some (z space)))
        f)
      (do
        let space ← Attempt.ofRun (onMemory (MemorySystem.unmapAll (p.privately k.memory).memory.space))
        Attempt.ofRun (Kernel.modifyTable fun t => t.put s (some (z' space)))
        f') := by
  refine of_ofRun_bind ?_
  unfold Agrees
  rw [Run.ensures_bind, ensures_onMemory]
  refine Run.Ensures.imp (AddressSpace.unmapAll_spec (h.access hp).region) ?_ fun _ _ => False.elim
  rintro space m' ⟨hregion, hspares, _, hpages⟩
  -- an address space without pages has nothing that could be wrong, and nobody reads anything there
  have hempty : ∀ page, space.pages[page]? = none := AddressSpace.getElem?_of_pages_eq_empty hpages
  have hfine : UserMemory.Fine { p.memory with space } m' := by
    refine ⟨(h.fine s p hp).brk, fun page q hq => ?_, fun page e he => ?_⟩
    · rw [hempty] at hq
      exact absurd hq (by simp)
    · have hmem := AddressSpace.getElem?_mod_of_translate hregion.valid he
      rw [hempty] at hmem
      exact absurd hmem (by simp)
  have hleads : Access.Leads foreign (k.otherNodes s) (k.otherFrames s) ⟨p.memory, k.memory⟩ ⟨(z space).memory, m'⟩ := by
    rw [hmemory]
    exact ⟨⟨hregion, hfine⟩, hspares⟩
  let k₂ : Kernel σ φ := { k with memory := m', table := k.table.put s (some (z space)) }
  have hk₂ : k₂.Sound foreign := h.store hp hleads rfl
  have hcontent : (fun _ => none : PrivatePages) = space.content m' := funext fun page => by
    rw [AddressSpace.content, hempty, Option.map_none]
  rw [Attempt.run_ofRun_bind, Run.ensures_bind, ensures_modifyTable]
  refine (hf k₂ hk₂).mono ?_
  rintro a k₃ ⟨hk₃, hfollows⟩
  refine ⟨hk₃, fun hok => ?_⟩
  refine .bind (t := k) (c := fun _ => none) (.of_forall fun _ => rfl) ?_
  rw [Attempt.run_ofRun_bind]
  refine .bind (t := k₂) (.of_modify fun answers => ?_) (hfollows hok)
  rw [privately_put k₂ (fun _ _ hne hq => h.content_of_spares hspares hne hq) rfl rfl rfl, hcontent, hz]
  rfl

end AttemptAgrees

end Kernel

end TrapKernel
