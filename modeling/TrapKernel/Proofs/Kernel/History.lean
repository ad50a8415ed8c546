import TrapKernel.Proofs.Kernel.Fates

/-!
# Histories

A history is a run with all the states it goes through. Slots are used again, so it takes a history to tell the process
in a slot from those before it: it is the same one for as long as the slot is never without a process.

* `Kernel.exists_history`: every run has a history.
* `Kernel.History.Stays.exists_get`: what stays as it is while a process stays in its slot.
* `Kernel.History.exists_created`: all processes but the first one have been created.
-/

namespace TrapKernel

namespace Kernel

open ProcessTable

variable {σ φ : Type} [FileSystem σ] [Firmware φ] {k₀ : Kernel σ φ}

/-- A run from the state `k₀` on. The trap `i` leads from the state `i` to the next one, with the given registers of the
process that runs. What lies behind the last trap is of no meaning. -/
structure History (k₀ : Kernel σ φ) where
  length : Nat
  state : Nat → Kernel σ φ
  frame : Nat → TrapFrame
  start : state 0 = k₀
  trap : ∀ i < length, trapWith (frame i) (state i) = .ok () (state (i + 1))

/-- Every run has a history. -/
theorem exists_history {fs : List TrapFrame} {k : Kernel σ φ} (h : trapsWith fs k₀ = .ok () k) :
    ∃ H : History k₀, H.length = fs.length ∧
      ∀ i ≤ fs.length, trapsWith (fs.take i) k₀ = .ok () (H.state i) ∧ ∀ f, fs[i]? = some f → H.frame i = f := by
  induction fs generalizing k₀ with
  | nil =>
    refine ⟨⟨0, fun _ => k₀, fun _ => .zero, rfl, by simp⟩, rfl, fun i _ => ⟨?_, by simp⟩⟩
    rw [List.take_nil]
    rfl
  | cons f rest ih =>
    obtain ⟨_, k₁, hf, hrest⟩ := Run.bind_eq_ok.mp h
    obtain ⟨H, hlength, hstates⟩ := ih hrest
    refine ⟨⟨H.length + 1, fun i => i.casesOn k₀ H.state, fun i => i.casesOn f H.frame, rfl, ?_⟩, ?_, ?_⟩
    · rintro (_ | i) hi
      · show trapWith f k₀ = .ok () (H.state 0)
        rw [hf, H.start]
      · exact H.trap i (by omega)
    · simp [hlength]
    · rintro (_ | i) hi
      · exact ⟨rfl, fun g hg => by simpa using hg⟩
      · obtain ⟨htake, hframe⟩ := hstates i (by simpa using hi)
        exact ⟨Run.bind_eq_ok.mpr ⟨_, k₁, hf, htake⟩, fun g hg => hframe g (by simpa using hg)⟩

/-- If some traps lead the bench kernel anywhere, there is a history of them, and what a test says of the states on the
way is true of the states of the history. -/
theorem exists_benchHistory {fs : List TrapFrame} (h : benchRun fs (fun _ => true) = true) :
    ∃ k₀, ∃ H : History k₀, benchStart = .ok k₀ ∧ H.length = fs.length ∧
      (∀ i f, fs[i]? = some f → H.frame i = f) ∧
      ∀ i ≤ fs.length, ∀ test, benchRun (fs.take i) test = true → test (H.state i) = true := by
  unfold benchRun runFrom at h
  split at h
  · exact absurd h (by simp)
  next k₀ hk₀ =>
    split at h
    · next k hk =>
      obtain ⟨H, hlength, hstates⟩ := exists_history hk
      refine ⟨k₀, H, hk₀, hlength, fun i f hf => ?_, fun i hi test htest => ?_⟩
      · exact (hstates i (List.getElem?_eq_some_iff.mp hf).1.le).2 f hf
      · simpa only [benchRun, runFrom, hk₀, (hstates i hi).1] using htest
    · exact absurd h (by simp)

namespace History

section Definitions

variable (H : History k₀)

/-- The process table after `i` traps. -/
abbrev table (i : Nat) : ProcessTable := (H.state i).table

/-- Whether a slot always has a process, from the state `i` to the state `j`. Then it is the same one all the time. -/
def Stays (s : Slot) (i j : Nat) : Prop := ∀ m, i ≤ m → m ≤ j → (H.table m).get s ≠ none

/-- Whether a slot always has a process that has not exited, from the state `i` to the state `j`. -/
def Survives (s : Slot) (i j : Nat) : Prop := ∀ m, i ≤ m → m ≤ j → (H.table m).isLive s = true

/-- Whether the process that is in a slot in the state `j` has been created by the trap `i`. -/
structure Created (s : Slot) (i j : Nat) : Prop where
  lt : i < j
  free : (H.table i).get s = none
  stays : H.Stays s (i + 1) j

end Definitions

variable {H : History k₀} {s : Slot} {i j : Nat}

/-! ### Slots over time -/

theorem Stays.of_le {i' j' : Nat} (h : H.Stays s i j) (hi : i ≤ i') (hj : j' ≤ j) : H.Stays s i' j' :=
  fun m him hmj => h m (hi.trans him) (hmj.trans hj)

private theorem Stays.succ (h : H.Stays s i j) (hs : (H.table (j + 1)).get s ≠ none) : H.Stays s i (j + 1) := by
  intro m him hmj
  rcases Nat.le_succ_iff.mp hmj with hmj | rfl
  · exact h m him hmj
  · exact hs

private theorem stays_self (hs : (H.table i).get s ≠ none) : H.Stays s i i := by
  intro m him hmi
  obtain rfl := Nat.le_antisymm him hmi
  exact hs

theorem survives_succ_iff (hij : i ≤ j + 1) :
    H.Survives s i (j + 1) ↔ H.Survives s i j ∧ (H.table (j + 1)).isLive s = true := by
  constructor
  · exact fun h => ⟨fun m him hmj => h m him (by omega), h _ hij le_rfl⟩
  · rintro ⟨h, hlive⟩ m him hmj
    rcases Nat.le_succ_iff.mp hmj with hmj | rfl
    · exact h m him hmj
    · exact hlive

theorem survives_self_iff : H.Survives s i i ↔ (H.table i).isLive s = true := by
  constructor
  · exact fun h => h i le_rfl le_rfl
  · intro h m him hmi
    obtain rfl := Nat.le_antisymm him hmi
    exact h

theorem Survives.stays (h : H.Survives s i j) : H.Stays s i j := by
  intro m him hmj hnone
  exact absurd (h m him hmj) (by simp [isLive_eq_false (.inl hnone)])

private theorem Created.succ (h : H.Created s i j) (hs : (H.table (j + 1)).get s ≠ none) : H.Created s i (j + 1) :=
  ⟨by have := h.lt; omega, h.free, h.stays.succ hs⟩

/-- The process in a slot has been created once. -/
theorem Created.unique {i' : Nat} (h : H.Created s i j) (h' : H.Created s i' j) : i' = i := by
  have hle : ∀ {i i'}, H.Created s i j → H.Created s i' j → i' ≤ i := fun h h' => by
    by_contra hlt
    exact h.stays _ (by omega) h'.lt.le h'.free
  exact Nat.le_antisymm (hle h h') (hle h' h)

/-! ### Traps -/

variable {entry stackPointer heapStart : UInt64} {memory : PhysicalMemory} {files : σ} {firmware : φ}
  {logLimit : Option LogLevel}

private theorem reachable (H : History k₀) (hi : i ≤ H.length) : Reachable k₀ (H.state i) := by
  induction i with
  | zero =>
    rw [H.start]
    exact .start
  | succ i ih => exact (ih (by omega)).trap (H.frame i) (H.trap i hi)

section Boot

variable (hboot : boot entry stackPointer heapStart memory files firmware logLimit = .ok k₀)

include hboot

theorem forest (H : History k₀) (hi : i ≤ H.length) :
    (H.table i).Forest PhysicalMemory ∧ (H.table i).Running :=
  (H.reachable hi).table_forest hboot

theorem fates (H : History k₀) (hi : i < H.length) : Fates (H.frame i) (H.state i) (H.table (i + 1)) := by
  obtain ⟨hforest, hr⟩ := H.forest hboot hi.le
  exact trapWith_fates PhysicalMemory.neverIdle hforest hr (H.trap i hi)

/-- As long as a process stays in its slot it keeps its number, and if it has exited, its exit code. -/
theorem Stays.exists_get (h : H.Stays s i j) (hij : i ≤ j) (hj : j ≤ H.length) {p : Process AddressSpace}
    (hp : (H.table i).get s = some p) :
    ∃ q, (H.table j).get s = some q ∧ q.pid = p.pid ∧
      (p.isZombie = true → q.isZombie = true ∧ q.exitCode = p.exitCode) := by
  induction j, hij using Nat.le_induction with
  | base => exact ⟨p, hp, rfl, fun hz => ⟨hz, rfl⟩⟩
  | succ j hij ih =>
    obtain ⟨q, hq, hpid, hzombie⟩ := ih (h.of_le le_rfl j.le_succ) (by omega)
    obtain ⟨r, hr⟩ := Option.ne_none_iff_exists'.mp (h (j + 1) (by omega) le_rfl)
    have hages := (H.fates hboot hj).ages_slot hq hr
    refine ⟨r, hr, hages.pid.trans hpid, fun hz => ?_⟩
    obtain ⟨hqz, hcode⟩ := hzombie hz
    obtain ⟨hrz, hcode', -⟩ := hages.remains hqz
    exact ⟨hrz, hcode'.trans hcode⟩

/-- All processes but the first one have been created. -/
theorem exists_created {p : Process AddressSpace} (hj : j ≤ H.length) (hp : (H.table j).get s = some p)
    (hs : s ≠ .init) : ∃ i, H.Created s i j := by
  induction j generalizing p with
  | zero =>
    obtain ⟨space, htable⟩ := table_of_boot hboot
    rw [show H.table 0 = k₀.table from congrArg _ H.start, htable] at hp
    exact absurd (get_initial_eq_some hp).1 hs
  | succ j ih =>
    have hstays : (H.table (j + 1)).get s ≠ none := by simp [hp]
    cases hq : (H.table j).get s with
    | none => exact ⟨j, by omega, hq, stays_self hstays⟩
    | some q =>
      obtain ⟨i, hcreated⟩ := ih (by omega) hq
      exact ⟨i, hcreated.succ hstays⟩

/-- What was answered to the process that created another one, and what that was like at first. -/
theorem Created.exists_forks (h : H.Created s i j) (hj : j ≤ H.length) :
    ∃ p, (H.table (i + 1)).get s = some p ∧ Forks (H.frame i) (H.state i) p.pid ∧
      p.parent = some ((H.table (i + 1)).heir (H.table i).current) ∧ p.isZombie = false := by
  have hlt := h.lt
  obtain ⟨p, hp⟩ := Option.ne_none_iff_exists'.mp (h.stays (i + 1) le_rfl hlt)
  have hcurrent := (H.forest hboot (i := i) (by omega)).1.current
  obtain ⟨hforks, -, hparent, hlive⟩ := (H.fates hboot (i := i) (by omega)).forks_of_filled hcurrent h.free hp
  exact ⟨p, hp, hforks, hparent, hlive⟩

end Boot

end History

end Kernel

end TrapKernel
