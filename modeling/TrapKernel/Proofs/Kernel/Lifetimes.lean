import TrapKernel.Proofs.Kernel.History

/-!
# The life of a process

From the trap that creates it until its parent collects its exit code a process stays in one slot, with one number. It
dies at most once, and what it leaves is its exit code. Numbers ascend until the counter starts over at the end of the
64-bit words, so before that no number is answered twice.

* `Kernel.History.lifetime`: the life of a process.
* `Kernel.History.exists_forks_between`: between two collections of one number it has been handed out again.
* `Kernel.History.forks_lt`: numbers are handed out in ascending order.
-/

namespace TrapKernel

namespace Kernel

open ProcessTable

namespace History

variable {σ φ : Type} [FileSystem σ] [Firmware φ] {k₀ : Kernel σ φ}

section Definitions

variable (H : History k₀)

/-- The life of the process with the number `pid` that the trap `i` creates in the slot `s`. -/
structure Lifetime (i : Nat) (pid : UInt64) (s : Slot) : Prop where
  /-- Nobody has the number before. -/
  fresh : ∀ c p, (H.table i).get c = some p → p.pid ≠ pid
  free : (H.table i).get s = none
  born : ∃ p, (H.table (i + 1)).get s = some p ∧ p.isZombie = false
  /-- Until it is removed it is in its slot and has its number alone. -/
  stays : ∀ j, i < j → j ≤ H.length → H.Stays s (i + 1) j →
    ∃ p, (H.table j).get s = some p ∧ p.pid = pid ∧ ∀ c q, (H.table j).get c = some q → q.pid = pid → c = s
  /-- When it dies, its exit code tells why. -/
  dies : ∀ j p q, i < j → j < H.length → H.Stays s (i + 1) j → (H.table j).get s = some p →
    (H.table (j + 1)).get s = some q → p.isZombie = false → q.isZombie = true →
    p.Dies (H.frame j) (H.table j).current s q
  /-- It dies once. -/
  remains : ∀ j j' p, i < j → j ≤ j' → j' ≤ H.length → H.Stays s (i + 1) j' → (H.table j).get s = some p →
    p.isZombie = true → ∃ q, (H.table j').get s = some q ∧ q.isZombie = true ∧ q.exitCode = p.exitCode
  /-- It is removed when the process that is its parent then waits for it. -/
  removed : ∀ j, i < j → j < H.length → H.Stays s (i + 1) j → (H.table (j + 1)).get s = none →
    ∃ z, (H.table j).get s = some z ∧ z.isZombie = true ∧ z.parent = some (H.table j).current ∧
      (WaitTarget.ofWord (H.frame j).a0).accepts z = true ∧
      Collects (H.frame j) (H.state j) pid z.exitCode
  /-- Whoever collects it gets its exit code and removes it. -/
  collected : ∀ j code, i < j → j ≤ H.length → H.Stays s (i + 1) j → Collects (H.frame j) (H.state j) pid code →
    (∃ z, (H.table j).get s = some z ∧ z.isZombie = true ∧ z.exitCode = code) ∧
      (j < H.length → (H.table (j + 1)).get s = none)

/-- Whether the counter of process numbers has not started over in the first `j` traps. -/
def Unwrapped (j : Nat) : Prop := ∀ m < j, (H.table m).nextPid ≤ (H.table (m + 1)).nextPid

/-- What exit codes are worth: a process that is created lives and dies as it should, an exit code that is collected
belongs to a process that has been created since its number was collected last, and as long as the counter has not
started over, numbers are handed out and collected once. -/
structure KeepsExitCodes : Prop where
  lifetime : ∀ i pid, i < H.length → Forks (H.frame i) (H.state i) pid → ∃ s, H.Lifetime i pid s
  answer : ∀ j pid code r k', j ≤ H.length → Collects (H.frame j) (H.state j) pid code →
    answerCall (H.frame j) (H.state j) = .ok r k' → r = .ok pid ∨ (H.frame j).a1 ≠ 0 ∧ ∃ e, r = .error e
  forked : ∀ j pid code, j ≤ H.length → Collects (H.frame j) (H.state j) pid code →
    ∃ i < j, Forks (H.frame i) (H.state i) pid
  forkedBetween : ∀ i j pid code code', i < j → j ≤ H.length → Collects (H.frame i) (H.state i) pid code →
    Collects (H.frame j) (H.state j) pid code' → ∃ m, i < m ∧ m < j ∧ Forks (H.frame m) (H.state m) pid
  forksOnce : ∀ i j pid pid', i < j → j < H.length → H.Unwrapped (j + 1) → Forks (H.frame i) (H.state i) pid →
    Forks (H.frame j) (H.state j) pid' → pid < pid'
  collectsOnce : ∀ i j pid pid' code code', i < j → j ≤ H.length → H.Unwrapped j →
    Collects (H.frame i) (H.state i) pid code → Collects (H.frame j) (H.state j) pid' code' → pid' ≠ pid

end Definitions

section Boot

variable {H : History k₀} {s : Slot} {i j : Nat} {pid pid' : UInt64} {code code' : Int32}
  {entry stackPointer heapStart : UInt64} {memory : PhysicalMemory} {files : σ} {firmware : φ}
  {logLimit : Option LogLevel} (hboot : boot entry stackPointer heapStart memory files firmware logLimit = .ok k₀)

include hboot

/-! ### The life of a process -/

private theorem exists_zombie (hj : j ≤ H.length) (h : Collects (H.frame j) (H.state j) pid code) :
    ∃ s z, (H.table j).get s = some z ∧ z.isZombie = true ∧ z.pid = pid ∧ z.exitCode = code :=
  h.exists_zombie PhysicalMemory.neverIdle (H.forest hboot hj).2

/-- After its exit code has been collected, no process has the number. -/
private theorem pid_ne_of_collects (hi : i < H.length) (h : Collects (H.frame i) (H.state i) pid code) {c : Slot}
    {q : Process AddressSpace} (hq : (H.table (i + 1)).get c = some q) : q.pid ≠ pid := by
  rintro rfl
  have hforest := (H.forest hboot hi.le).1
  have hfates := H.fates hboot hi
  obtain ⟨s, z, hz, -, hpid, -, hremoved⟩ := hfates.exists_removed h
  cases hp : (H.table i).get c with
  | none => exact (hfates.forks_of_filled hforest.current hp hq).1.not_collects _ _ h
  | some p =>
    -- it has had the number before, so it is the one that is removed
    have hpid' := (hfates.ages_slot hp hq).pid
    obtain rfl := hforest.pid_injective _ _ _ _ hz hp (hpid.trans hpid')
    exact absurd (hremoved.symm.trans hq) (by simp)

/-- The life of a process. -/
theorem lifetime (hi : i < H.length) (h : Forks (H.frame i) (H.state i) pid) : ∃ s, H.Lifetime i pid s := by
  have hforest := (H.forest hboot hi.le).1
  obtain ⟨rfl, -, s, q, hfree, hq, hpid⟩ := (H.fates hboot hi).exists_born h
  have hfresh := findPid?_eq_none.mp (allocPid_fresh (H.table i) hforest.nextPid).2.1
  have hstays : ∀ j, i < j → j ≤ H.length → H.Stays s (i + 1) j →
      ∃ p, (H.table j).get s = some p ∧ p.pid = (H.table i).allocPid.1 := fun j hij hj hstays => by
    obtain ⟨p, hp, hpid', -⟩ := hstays.exists_get hboot hij hj hq
    exact ⟨p, hp, hpid'.trans hpid⟩
  have halone : ∀ j, i < j → j ≤ H.length → H.Stays s (i + 1) j → ∀ c q, (H.table j).get c = some q →
      q.pid = (H.table i).allocPid.1 → c = s := fun j hij hj h c q hq hqpid => by
    obtain ⟨p, hp, hpid'⟩ := hstays j hij hj h
    exact (H.forest hboot hj).1.pid_injective _ _ _ _ hq hp (hqpid.trans hpid'.symm)
  refine ⟨s, hfresh, hfree, ?born, ?stays, ?dies, ?remains, ?removed, ?collected⟩
  case born =>
    exact ⟨q, hq, ((H.fates hboot hi).forks_of_filled hforest.current hfree hq).2.2.2⟩
  case stays =>
    intro j hij hj h
    obtain ⟨p, hp, hpid'⟩ := hstays j hij hj h
    exact ⟨p, hp, hpid', halone j hij hj h⟩
  case dies =>
    intro j p q _ hj _ hp hq hlive hzombie
    exact ((H.fates hboot hj).ages_slot hp hq).dies hlive hzombie
  case remains =>
    intro j j' p hij hjj' hj' h hp hzombie
    obtain ⟨q, hq, -, hremains⟩ := (h.of_le hij le_rfl).exists_get hboot hjj' hj' hp
    obtain ⟨hqz, hcode⟩ := hremains hzombie
    exact ⟨q, hq, hqz, hcode⟩
  case removed =>
    intro j hij hj h hnone
    obtain ⟨z, hz, hpid'⟩ := hstays j hij hj.le h
    obtain ⟨hcollects, hzombie, hparent, haccepts⟩ := (H.fates hboot hj).collects_of_emptied hz hnone
    exact ⟨z, hz, hzombie, hparent, haccepts, hpid' ▸ hcollects⟩
  case collected =>
    intro j code hij hj h hcollects
    obtain ⟨c, z, hz, hzombie, hzpid, hcode⟩ := exists_zombie hboot hj hcollects
    obtain rfl := halone j hij hj h c z hz hzpid
    refine ⟨⟨z, hz, hzombie, hcode⟩, fun hlt => ?_⟩
    obtain ⟨c', z', hz', -, hzpid', -, hremoved⟩ := (H.fates hboot hlt).exists_removed hcollects
    rwa [halone j hij hj h c' z' hz' hzpid'] at hremoved

/-! ### Numbers -/

/-- What is collected was created, and its number has been in use since. -/
private theorem exists_forks_of_collects (hj : j ≤ H.length) (h : Collects (H.frame j) (H.state j) pid code) :
    ∃ i < j, Forks (H.frame i) (H.state i) pid ∧
      ∀ m, i < m → m ≤ j → ∃ c p, (H.table m).get c = some p ∧ p.pid = pid := by
  obtain ⟨s, z, hz, hzombie, rfl, -⟩ := exists_zombie hboot hj h
  have hs : s ≠ .init := by
    rintro rfl
    obtain ⟨p, hp, -, -, hlive⟩ := (H.forest hboot hj).1.init
    obtain rfl := Option.some.inj (hp.symm.trans hz)
    exact absurd (hzombie.symm.trans hlive) (by simp)
  obtain ⟨i, hcreated⟩ := exists_created hboot hj hz hs
  obtain ⟨p, hp, hforks, -⟩ := hcreated.exists_forks hboot hj
  have hpid : ∀ m, i < m → m ≤ j → ∃ q, (H.table m).get s = some q ∧ q.pid = p.pid := fun m him hmj => by
    obtain ⟨q, hq, hqpid, -⟩ := (hcreated.stays.of_le le_rfl hmj).exists_get hboot him (hmj.trans hj) hp
    exact ⟨q, hq, hqpid⟩
  obtain ⟨q, hq, hqpid⟩ := hpid j hcreated.lt le_rfl
  obtain rfl := Option.some.inj (hz.symm.trans hq)
  exact ⟨i, hcreated.lt, hqpid ▸ hforks, fun m him hmj => ⟨s, hqpid ▸ hpid m him hmj⟩⟩

/-- Between two collections of one number it has been handed out again. -/
theorem exists_forks_between (hij : i < j) (hj : j ≤ H.length) (h : Collects (H.frame i) (H.state i) pid code)
    (h' : Collects (H.frame j) (H.state j) pid code') :
    ∃ m, i < m ∧ m < j ∧ Forks (H.frame m) (H.state m) pid := by
  obtain ⟨m, hmj, hforks, hused⟩ := exists_forks_of_collects hboot hj h'
  refine ⟨m, ?_, hmj, hforks⟩
  by_contra hle
  obtain ⟨c, q, hq, hpid⟩ := hused (i + 1) (by omega) hij
  exact pid_ne_of_collects hboot (hij.trans_le hj) h hq hpid

omit hboot in
private theorem Unwrapped.nextPid_le (h : H.Unwrapped j) (hij : i ≤ j) : (H.table i).nextPid ≤ (H.table j).nextPid := by
  induction j, hij using Nat.le_induction with
  | base => exact UInt64.le_refl _
  | succ j hij ih => exact UInt64.le_trans (ih fun m hm => h m (by omega)) (h j (by omega))

/-- A number that is handed out lies between the old and the new value of the counter. -/
private theorem forks_between (hi : i < H.length) (hwrap : (H.table i).nextPid ≤ (H.table (i + 1)).nextPid)
    (h : Forks (H.frame i) (H.state i) pid) : (H.table i).nextPid ≤ pid ∧ pid < (H.table (i + 1)).nextPid := by
  obtain ⟨rfl, hnext, -⟩ := (H.fates hboot hi).exists_born h
  rw [hnext] at hwrap ⊢
  exact (H.table i).allocPid_between (H.forest hboot hi.le).1.nextPid hwrap

/-- Numbers are handed out in ascending order. -/
theorem forks_lt (hij : i < j) (hj : j < H.length) (hwrap : H.Unwrapped (j + 1))
    (h : Forks (H.frame i) (H.state i) pid) (h' : Forks (H.frame j) (H.state j) pid') : pid < pid' := by
  have hlt := (forks_between hboot (hij.trans hj) (hwrap i (by omega)) h).2
  have hle := (forks_between hboot hj (hwrap j (by omega)) h').1
  have hcounter := Unwrapped.nextPid_le (fun m hm => hwrap m (by omega)) hij
  exact UInt64.lt_of_lt_of_le hlt (UInt64.le_trans hcounter hle)

/-- No number is collected twice. -/
private theorem collects_ne (hij : i < j) (hj : j ≤ H.length) (hwrap : H.Unwrapped j)
    (h : Collects (H.frame i) (H.state i) pid code) (h' : Collects (H.frame j) (H.state j) pid' code') :
    pid' ≠ pid := by
  rintro rfl
  obtain ⟨m, him, hmj, hforks'⟩ := exists_forks_between hboot hij hj h h'
  obtain ⟨n, hni, hforks, -⟩ := exists_forks_of_collects hboot (hij.le.trans hj) h
  have hlt := forks_lt hboot (hni.trans him) (hmj.trans_le hj) (fun l hl => hwrap l (by omega)) hforks hforks'
  exact absurd hlt (UInt64.lt_irrefl _)

/-- In every history exit codes are kept and collected as they should. -/
theorem keepsExitCodes (H : History k₀) : H.KeepsExitCodes where
  lifetime _ _ hi h := lifetime hboot hi h
  answer _ _ _ _ _ _ h hanswer := h.answer hanswer
  forked _ _ _ hj h := by
    obtain ⟨i, hij, hforks, -⟩ := exists_forks_of_collects hboot hj h
    exact ⟨i, hij, hforks⟩
  forkedBetween _ _ _ _ _ hij hj h h' := exists_forks_between hboot hij hj h h'
  forksOnce _ _ _ _ hij hj hwrap h h' := forks_lt hboot hij hj hwrap h h'
  collectsOnce _ _ _ _ _ _ hij hj hwrap h h' := collects_ne hboot hij hj hwrap h h'

end Boot

/-- The first process creates a process, which exits with the code 7, and waits for it. -/
theorem keepsExitCodes_wait : ∃ k₀ : Kernel EmptyFiles Bench.BenchFirmware, ∃ H : History k₀, benchStart = .ok k₀ ∧
    H.length = 4 ∧ Forks (H.frame 0) (H.state 0) 1 ∧ Collects (H.frame 3) (H.state 3) 1 7 ∧ H.KeepsExitCodes := by
  obtain ⟨k₀, H, hk₀, hlength, hframe, hstate⟩ := exists_benchHistory
    (show benchRun [callFrame .fork 0 0 0, callFrame .yield 0 0 0, callFrame .exit 7 0 0, callFrame .wait 1 0 0]
      (fun _ => true) = true by decide +kernel)
  have hforks := hstate 0 (by simp) (fun k => Forks (callFrame .fork 0 0 0) k 1) (by decide +kernel)
  have hcollects := hstate 3 (by simp) (fun k => Collects (callFrame .wait 1 0 0) k 1 7) (by decide +kernel)
  refine ⟨k₀, H, hk₀, hlength, ?_, ?_, keepsExitCodes hk₀ H⟩
  · rw [hframe 0 _ rfl]
    exact of_decide_eq_true hforks
  · rw [hframe 3 _ rfl]
    exact of_decide_eq_true hcollects

end History

end Kernel

end TrapKernel
