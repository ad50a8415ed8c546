import TrapKernel.Proofs.Kernel.Calls
import TrapKernel.Proofs.Kernel.Reachable
import TrapKernel.Proofs.Memory.Failures

/-!
# Waits that fail

To wait for a child that has exited is to remove it and then to copy its exit code to user memory. The copy may fail,
and the child is gone all the same: nobody learns of its exit code any more. Only a process that has no child to wait
for fails without loss.

* `Kernel.Reachable.census_eq_iff_noChild`: what is lost by a wait that fails.
* `Kernel.exists_lost_exitCode`: a process is told that its child does not exist after it was told that its address is
  bad.
-/

namespace TrapKernel

/-- What is known of a process by its number: its parent, where it is in its life cycle, and its exit code. -/
structure Standing where
  pid : UInt64
  parent : Option Slot
  status : Status
  exitCode : Int32
  deriving DecidableEq

/-- The standing of the processes in all slots. -/
def ProcessTable.census {β : Type} (t : ProcessTable β) (s : Slot) : Option Standing :=
  (t.get s).map fun p => ⟨p.pid, p.parent, p.status, p.exitCode⟩

namespace ProcessTable

variable {β : Type} {t u : ProcessTable β}

/-- Who works on what is its own keeps its standing. -/
private theorem Works.census_eq (h : t.Works u) : u.census = t.census := by
  obtain ⟨p, q, hp, ⟨_, _, _, _, rfl⟩, rfl⟩ := h
  funext s
  unfold census
  by_cases hs : s = t.current
  · rw [hs, get_put_self, hp]
    rfl
  · rw [get_put_of_ne _ hs]

/-- The frame of a process is no part of its standing. -/
private theorem census_put_frame {s : Slot} {p : Process β} (hp : t.get s = some p) (frame : TrapFrame) :
    (t.put s (some { p with frame })).census = t.census := by
  funext s'
  unfold census
  by_cases hs : s' = s
  · rw [hs, get_put_self, hp]
    rfl
  · rw [get_put_of_ne _ hs]

private theorem census_put_of_ne {s s' : Slot} (hs : s' ≠ s) (p : Option (Process β)) :
    (t.put s p).census s' = t.census s' := by
  unfold census
  rw [get_put_of_ne _ hs]

private theorem hasStatus_of_census_eq (h : u.census = t.census) (s : Slot) (status : Status) :
    u.hasStatus s status = t.hasStatus s status := by
  have hs := congrFun h s
  unfold census at hs
  unfold hasStatus
  cases hu : u.get s <;> cases ht : t.get s <;> simp_all

/-- Whom a process waits for shows in the standing of its children. -/
private theorem waitedFor_of_census_eq (h : u.census = t.census) (s : Slot) (target : WaitTarget) :
    u.waitedFor s target = t.waitedFor s target := by
  have hslot : ∀ c, (u.get c = none ∧ t.get c = none) ∨
      ∃ p q, u.get c = some p ∧ t.get c = some q ∧ p.parent = q.parent ∧ p.pid = q.pid := by
    intro c
    have hc := congrFun h c
    unfold census at hc
    cases hu : u.get c <;> cases ht : t.get c <;> simp_all
  have hchildren : u.children s = t.children s := by
    refine List.filter_congr fun c _ => ?_
    rcases hslot c with ⟨hu, ht⟩ | ⟨p, q, hu, ht, hparent, -⟩
    · rw [hu, ht]
    · simp [hu, ht, hparent]
  unfold waitedFor
  rw [hchildren]
  refine List.filter_congr fun c _ => ?_
  rcases hslot c with ⟨hu, ht⟩ | ⟨p, q, hu, ht, -, hpid⟩
  · rw [hu, ht]
  · cases target <;> simp [hu, ht, WaitTarget.accepts, hpid]

end ProcessTable

namespace Kernel

open ProcessTable

variable {σ φ : Type} {k : Kernel σ φ} {f : TrapFrame}

/-- A wait fails before anything has happened, or after the exited child has been removed. -/
private theorem callWait_failure (hr : k.table.Running) :
    (callWait f).Ensures k
      (fun r k' => ∀ e, r = .error e →
        e = .noChild ∧ k' = k ∧ k.table.waitedFor k.table.current (.ofWord f.a0) = [] ∨
        e.OfAccess ∧ f.a1 ≠ 0 ∧ ∃ c,
          (k.table.waitedFor k.table.current (.ofWord f.a0)).find? (fun c => k.table.hasStatus c .zombie) = some c ∧
            (k.table.put c none).Works k'.table)
      fun _ _ => True := by
  obtain ⟨p, hp, hlive⟩ := hr.live
  unfold callWait
  rw [Attempt.ensures_bind]
  refine Run.Ensures.imp (collect_effect PhysicalMemory.neverIdle _) (fun r k' hk' => ?_) fun _ _ _ => trivial
  match r with
  | .error e =>
    obtain ⟨rfl, rfl, hnone⟩ := hk'
    rintro _ ⟨rfl⟩
    exact .inl ⟨rfl, rfl, hnone⟩
  | .ok none =>
    -- a process that is blocked has no result yet, so the rest cannot fail
    have hrest : (do
        let p ← Attempt.ofRun currentProcess
        let sepc ← Attempt.ofRun (subWords p.frame.sepc.toNat 4)
        Attempt.ofRun (modifyCurrent fun p => { p with frame := { p.frame with sepc := UInt64.ofNat sepc } })
        Attempt.ofRun blockCurrent
        return f.a0 : Attempt (Kernel σ φ) UInt64).FailsAs fun _ => False :=
      (Attempt.failsAs_ofRun _).bind fun _ => (Attempt.failsAs_ofRun _).bind fun _ =>
        (Attempt.failsAs_ofRun _).bind fun _ => (Attempt.failsAs_ofRun _).bind fun _ => Attempt.failsAs_pure _
    exact (hrest.ensures k').mono fun r k'' hr e he => (hr e he).elim
  | .ok (some (pid, code)) =>
    obtain ⟨c, z, hfind, hz, hzombie, -, -, htable⟩ := hk'
    have hne : k.table.current ≠ c := by
      rintro rfl
      rw [Option.some.inj (hp.symm.trans hz), hzombie] at hlive
      exact absurd hlive (by simp)
    have hp' : k'.table.get k'.table.current = some p := by rw [htable, current_put, get_put_of_ne _ hne, hp]
    have hworks : (k.table.put c none).Works k'.table := by
      rw [htable] at hp' ⊢
      exact .refl hp'
    dsimp only
    split
    · exact fun e he => absurd he (by simp)
    next ha1 =>
      rw [Attempt.ensures_bind, ensures_onCurrentMemory hp']
      refine Run.Ensures.imp ((Access.writeUser_failsAs _ _).ensures _) (fun r a hr => ?_) fun _ _ _ => trivial
      cases r with
      | ok => exact fun e he => absurd he (by simp)
      | error e =>
        rintro _ ⟨rfl⟩
        exact .inr ⟨hr e rfl, ha1, c, hfind, hworks.edit hp' (.of_memory p a.user)⟩

variable [FileSystem σ] [Firmware φ] {entry stackPointer heapStart : UInt64} {memory : PhysicalMemory}
  {files : σ} {firmware : φ} {logLimit : Option LogLevel} {k₀ : Kernel σ φ}

/-- A wait that fails leaves the standing of all processes as it is exactly if there is no child to wait for. Otherwise
the exit code of a child could not be written to the caller's memory, and that child is removed all the same. -/
theorem Reachable.census_eq_iff_noChild
    (hboot : boot entry stackPointer heapStart memory files firmware logLimit = .ok k₀) (h : Reachable k₀ k)
    (hasks : f.Asks .wait) {e : Errno} {k' : Kernel σ φ} (hk : answerCall f k = .ok (.error e) k') :
    (k'.table.census = k.table.census ↔ e = .noChild) ∧
    (e = .noChild → k.table.waitedFor k.table.current (.ofWord f.a0) = []) ∧
    (e ≠ .noChild → e.OfAccess ∧ f.a1 ≠ 0 ∧ ∃ c z, k.table.get c = some z ∧ z.parent = some k.table.current ∧
      (WaitTarget.ofWord f.a0).accepts z = true ∧ z.status = .zombie ∧ k'.table.get c = none ∧
      ∀ s, s ≠ c → k'.table.census s = k.table.census s) := by
  obtain ⟨hforest, hr⟩ := h.table_forest hboot
  obtain ⟨p, hp, hlive⟩ := hr.live
  obtain ⟨k₁, henter, hperform⟩ := exists_perform hasks hk
  obtain ⟨-, htable, -⟩ := (enterCall_spec .wait hp).of_ok henter
  have hcurrent : k₁.table.current = k.table.current := by rw [htable, current_put]
  have hcensus : k₁.table.census = k.table.census := by rw [htable, census_put_frame hp]
  have hr₁ : k₁.table.Running := by
    obtain ⟨-, hr₁⟩ := (move_of_frame (μ := PhysicalMemory) hp hlive f.advanced).forest hforest hr
    rwa [htable]
  have hcases := (callWait_failure hr₁).of_ok hperform e rfl
  rw [hcurrent, waitedFor_of_census_eq hcensus] at hcases
  simp only [hasStatus_of_census_eq hcensus] at hcases
  rcases hcases with ⟨rfl, rfl, hnone⟩ | ⟨he, ha1, c, hfind, hworks⟩
  · exact ⟨by simp [hcensus], fun _ => hnone, fun hne => absurd rfl hne⟩
  · have hne : e ≠ .noChild := by rintro rfl; simp [Errno.OfAccess] at he
    obtain ⟨hmem, haccepts⟩ := List.mem_filter.mp (List.mem_of_find?_eq_some hfind)
    obtain ⟨z, hz, hparent⟩ := mem_children.mp hmem
    have hstatus : k.table.hasStatus c .zombie = true := by simpa using List.find?_some hfind
    -- the child is in its slot before the call, and nobody is afterwards
    have hgone : k'.table.census c = none := by rw [hworks.census_eq]; simp [census]
    have hthere : k.table.census c ≠ none := by simp [census, hz]
    refine ⟨⟨fun heq => absurd hgone (heq ▸ hthere), fun h => absurd h hne⟩, fun h => absurd h hne,
      fun _ => ⟨he, ha1, c, z, hz, hparent, ?_, ?_, by simpa [census] using hgone, fun s hs => ?_⟩⟩
    · rwa [hz] at haccepts
    · simpa [hasStatus, hz] using hstatus
    · rw [hworks.census_eq, census_put_of_ne hs, hcensus]

/-! ### A child that is lost -/

/-- A child of the first process exits with code 7. -/
def exitFrames : List TrapFrame := [callFrame .fork 0 0 0, callFrame .yield 0 0 0, callFrame .exit 7 0 0]

/-- A wait for any child, whose exit code shall be written to an address. -/
def waitFrame (address : UInt64) : TrapFrame := callFrame .wait 0xFFFFFFFFFFFFFFFF address 0

/-- Whether the child in a slot has exited with code 7, a wait fails since its address is bad, and the wait after that
finds no child. -/
private def losesChild (child : Slot) (k : Kernel EmptyFiles Bench.BenchFirmware) : Bool :=
  match k.table.get child, answerCall (waitFrame 0x10) k, trapWith (waitFrame 0x10) k with
  | some z, .ok (.error .badAddress) k₁, .ok () k₂ =>
    match answerCall (waitFrame 0) k₂ with
    | .ok (.error .noChild) _ => z.status = .zombie && z.exitCode = 7 && (k₁.table.get child).isNone
    | _ => false
  | _, _, _ => false

private theorem exists_losesChild : ∃ (k₀ k k₁ k₂ k₃ : Kernel EmptyFiles Bench.BenchFirmware)
    (z : Process AddressSpace), benchStart = .ok k₀ ∧ Reachable k₀ k ∧ k.table.get 1 = some z ∧ z.status = .zombie ∧
      z.exitCode = 7 ∧ answerCall (waitFrame 0x10) k = .ok (.error .badAddress) k₁ ∧ k₁.table.get 1 = none ∧
      trapWith (waitFrame 0x10) k = .ok () k₂ ∧ answerCall (waitFrame 0) k₂ = .ok (.error .noChild) k₃ := by
  obtain ⟨k₀, k, hk₀, hk, htest⟩ :=
    exists_of_benchRun (show benchRun exitFrames (losesChild 1) = true by decide +kernel)
  unfold losesChild at htest
  split at htest
  next z k₁ k₂ hz hwait htrap =>
    split at htest
    next k₃ hagain =>
      simp only [Bool.and_eq_true, decide_eq_true_eq, Option.isNone_iff_eq_none] at htest
      obtain ⟨⟨hzombie, hcode⟩, hgone⟩ := htest
      exact ⟨k₀, k, k₁, k₂, k₃, z, hk₀, hk, hz, hzombie, hcode, hwait, hgone, htrap, hagain⟩
    · exact absurd htest (by simp)
  · exact absurd htest (by simp)

/-- The exit code of a child cannot be written to address 16, and the child is removed with it. -/
theorem census_ne_badAddress : ∃ (k₀ k k' : Kernel EmptyFiles Bench.BenchFirmware), benchStart = .ok k₀ ∧
    Reachable k₀ k ∧ (waitFrame 0x10).Asks .wait ∧ answerCall (waitFrame 0x10) k = .ok (.error .badAddress) k' ∧
      k'.table.census ≠ k.table.census := by
  obtain ⟨k₀, k, k', _, _, _, hk₀, hk, -, -, -, hwait, -, -, -⟩ := exists_losesChild
  have hasks : (waitFrame 0x10).Asks .wait := by decide +kernel
  refine ⟨k₀, k, k', hk₀, hk, hasks, hwait, fun heq => ?_⟩
  exact absurd ((hk.census_eq_iff_noChild hk₀ hasks hwait).1.mp heq) (by simp)

/-- A process is told that its address is bad, and when it waits again that it has no child, although the child has
exited with code 7 before. -/
theorem exists_lost_exitCode : ∃ (k₀ k k₁ k₂ k₃ : Kernel EmptyFiles Bench.BenchFirmware)
    (z : Process AddressSpace), benchStart = .ok k₀ ∧ Reachable k₀ k ∧ k.table.get 1 = some z ∧ z.status = .zombie ∧
      z.exitCode = 7 ∧ answerCall (waitFrame 0x10) k = .ok (.error .badAddress) k₁ ∧ k₁.table.get 1 = none ∧
      trapWith (waitFrame 0x10) k = .ok () k₂ ∧ answerCall (waitFrame 0) k₂ = .ok (.error .noChild) k₃ :=
  exists_losesChild

end Kernel

end TrapKernel
