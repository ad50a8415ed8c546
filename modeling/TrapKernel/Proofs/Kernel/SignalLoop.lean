import TrapKernel.Proofs.Files.References
import TrapKernel.Proofs.Kernel.Agreement
import TrapKernel.Proofs.Kernel.Deliveries
import TrapKernel.Proofs.Kernel.Handlers
import TrapKernel.Proofs.Process.FatalSignals

/-!
# The delivery of signals ends

Sound memory and a file system that takes every reference back do not stop the delivery of signals, so it ends with a
process that runs on: one that has nothing left to deliver, or one that has just entered a handler.

* `Kernel.handleSignals_returns`: nothing stops them, if the memory is sound and the file system does not break down.
* `Kernel.handleSignals_spec`: what has become of the process that runs on, of those that were ended, and of the one
  that was sent the signal that cannot be caught.
-/

namespace TrapKernel

namespace ProcessTable.WellFormed

variable {t : ProcessTable}

private theorem parent_ne (h : t.WellFormed) {s : Slot} {p : Process AddressSpace} (hp : t.get s = some p)
    (hs : s ≠ .init) : p.parent ≠ some s := by
  intro hself
  -- who is its own parent never comes to the first process
  have hstuck : ∀ c, Relation.ReflTransGen (fun s s' => ∃ p, t.get s = some p ∧ p.parent = some s') s c → c = s := by
    intro c hc
    induction hc with
    | refl => rfl
    | tail _ hstep ih =>
      subst ih
      obtain ⟨q, hq, hparent⟩ := hstep
      rw [Option.some.inj (hq.symm.trans hp), hself] at hparent
      exact (Option.some.inj hparent).symm
  exact hs (hstuck _ (h.ancestor s p hp)).symm

private theorem parented (h : t.WellFormed) : t.Parented where
  init := by
    obtain ⟨p, hp, -, hparent, hlive⟩ := h.init
    exact ⟨p, hp, hparent, Process.isZombie_eq_false_iff.mpr hlive⟩
  current := by
    obtain ⟨p, hp⟩ := h.current
    exact ⟨p, hp, (h.running _ p hp).mpr rfl⟩
  running s p hp := (h.running s p hp).mp
  parent s p hp hs := by
    obtain ⟨s', p', hparent, hp', hlive⟩ := h.parent s p hp hs
    refine ⟨s', p', hparent, ?_, hp', Process.isZombie_eq_false_iff.mpr hlive⟩
    rintro rfl
    exact h.parent_ne hp hs hparent

end ProcessTable.WellFormed

/-- Whether a file system takes every reference back. -/
def FileSystem.TakesBack (σ : Type) [FileSystem σ] : Prop :=
  ∀ (files : σ) (inode : Inode), ∃ files', FileSystem.free files inode = .ok files'

/-- Who takes every reference back takes any number of them back. -/
private theorem FileSystem.TakesBack.foldlM_ne_error {σ : Type} [FileSystem σ] (hfree : TakesBack σ) (l : List Inode)
    (files : σ) (message : String) : l.foldlM FileSystem.free files ≠ .error message := by
  induction l generalizing files with
  | nil => exact nofun
  | cons inode rest ih =>
    obtain ⟨files', hfiles⟩ := hfree files inode
    rw [List.foldlM_cons, hfiles]
    exact ih files'

private theorem Descriptors.closeAll_returns {σ : Type} [FileSystem σ] (hfree : FileSystem.TakesBack σ)
    (d : Descriptors) (v : Volume σ) : d.closeAll.Ensures v (fun _ _ => True) fun _ _ => False :=
  (d.closeAll_spec v).imp (fun _ _ _ => trivial) fun _ _ ⟨message, herror, _⟩ =>
    hfree.foldlM_ne_error d.files v.state message herror

namespace Kernel

open ProcessTable

variable {σ φ : Type} [FileSystem σ] {k : Kernel σ φ} {foreign : Surroundings}

/-! ### Nothing stops the delivery -/

omit [FileSystem σ] in
/-- The hart passes on, unless no process is ready. -/
private theorem runNext_stops : (runNext : Run (Kernel σ φ) Unit).Ensures k (fun _ _ => True)
    fun cause _ => cause = .noReadyProcess := by
  unfold runNext
  rw [Run.ensures_bind, Run.ensures_get]
  cases k.table.nextReady? with
  | none => rfl
  | some next =>
    dsimp only
    split <;> trivial

private theorem exitAndRunNext_stops (hk : k.Sound foreign) (hfree : FileSystem.TakesBack σ) (code : Int32) :
    (exitAndRunNext code : Attempt (Kernel σ φ) Unit).Ensures k (fun _ _ => True)
      fun cause _ => cause = .noReadyProcess := by
  have hexit : (exitProcess k.table.current code : Attempt (Kernel σ φ) Unit).Ensures k (fun _ _ => True)
      fun cause _ => cause = .noReadyProcess := by
    unfold exitProcess
    split
    · trivial
    · simp only [Attempt.ensures_bind, Attempt.ensures_get]
      cases hp : k.table.get k.table.current with
      | none => trivial
      | some p =>
        dsimp only
        split
        · trivial
        · simp only [Attempt.ensures_bind, Attempt.ensures_ofRun, ensures_onVolume]
          refine (Descriptors.closeAll_returns hfree _ _).imp (fun descriptors volume _ => ?_) fun _ _ => False.elim
          rw [ensures_onMemory]
          refine Run.Ensures.imp (AddressSpace.unmapAll_spec (hk.access hp).region) (fun space memory _ => ?_)
            fun _ _ => False.elim
          simp only [ensures_modifyTable, ensures_note]
          cases p.parent <;> trivial
  unfold exitAndRunNext
  simp only [Attempt.ensures_bind, Attempt.ensures_get]
  refine hexit.mono fun r k' _ => ?_
  cases r with
  | ok => exact Attempt.ensures_ofRun.mpr (runNext_stops.mono fun _ _ _ => trivial)
  | error => trivial

private theorem deliverSignal_sound (hk : k.Sound foreign) {more : Bool} {k' : Kernel σ φ}
    (h : deliverSignal k = .ok more k') : k'.Sound foreign := by
  have hagrees : Agrees foreign False k deliverSignal deliverSignal := deliverSignal_agrees hk
  exact (hagrees.of_ok h).1

/-- A signal is delivered, and the kernel does not stop, if the memory is sound and the file system does not break
down. -/
private theorem deliverSignal_returns (h : k.table.Parented) (hk : k.Sound foreign) (hfree : FileSystem.TakesBack σ) :
    ∃ more k', deliverSignal k = .ok more k' := by
  obtain ⟨p, hp, -⟩ := h.current
  have hstops : (deliverSignal : Run (Kernel σ φ) Bool).Ensures k (fun _ _ => True)
      fun cause _ => cause = .noReadyProcess := by
    unfold deliverSignal
    rw [Run.ensures_bind, ensures_currentProcess hp]
    cases hsignal : p.nextSignal? with
    | none => trivial
    | some n =>
      have hsound : Sound foreign { k with table := k.table.put k.table.current (some (p.take n)) } := by
        refine hk.congr rfl fun s => ?_
        rw [get_put]
        split
        next hs => rw [← hs, hp]; rfl
        · rfl
      dsimp only
      split
      · rw [Run.ensures_bind, ensures_modifyCurrent hp]
        trivial
      · rw [Run.ensures_bind, ensures_modifyCurrent hp]
        trivial
      · rw [Run.ensures_bind, ensures_modifyCurrent hp]
        split
        · trivial
        · simp only [Run.ensures_bind, Run.ensures_get]
          split
          · trivial
          · simp only [Run.ensures_bind, Attempt.ensures_run]
            refine Run.Ensures.mono (exitAndRunNext_stops hsound hfree _) fun r k' _ => ?_
            cases r <;> trivial
  cases hdeliver : deliverSignal k with
  | ok more k' => exact ⟨more, k', rfl⟩
  | error cause k' =>
    have hidle : cause ≠ .noReadyProcess := (deliverSignal_delivers PhysicalMemory.neverIdle h).of_error hdeliver
    exact absurd (hstops.of_error hdeliver) hidle

/-- The deliveries end, and the kernel goes on. -/
theorem handleSignals_returns (h : k.table.Parented) (hk : k.Sound foreign) (hfree : FileSystem.TakesBack σ) :
    ∃ k', handleSignals k = .ok () k' := by
  obtain ⟨n, k₁, -, hpath, h₁, hend⟩ :=
    deliverSignals_ends PhysicalMemory.neverIdle _ k.table.load_lt_signalBound h
  have hk₁ : Sound foreign k₁ := by
    clear hend h h₁
    induction hpath with
    | none => exact hk
    | more hdeliver _ ih => exact ih (deliverSignal_sound hk hdeliver)
  obtain ⟨more, k₂, hdeliver⟩ := deliverSignal_returns h₁ hk₁ hfree
  rcases hend with ⟨k', -, hk'⟩ | ⟨cause, k', hstop, -⟩
  · exact ⟨k', hk'⟩
  · rw [hdeliver] at hstop
    exact absurd hstop (by simp)

/-! ### What the delivery leads to -/

/-- What the delivery of signals leads to, from `k` to `k'`. -/
structure SignalsDelivered (k k' : Kernel σ φ) : Prop where
  /-- When the last delivery comes, the process that runs on has no signal left that can be delivered, or it enters the
  handler of the least one that it has. -/
  current : ∃ i k₁ p, Delivering i k k₁ ∧ deliverSignal k₁ = .ok false k' ∧ k₁.table.get k₁.table.current = some p ∧
    (p.nextSignal? = none ∧ k'.table = k₁.table ∨
      ∃ n entry q, p.Enters n entry q ∧ k'.table.get k'.table.current = some q ∧
        k'.table = k₁.table.put k₁.table.current (some q))
  /-- A process that has been ended is not the first one, and its exit code tells the signal that it died of. -/
  ended : ∀ s p q, k.table.get s = some p → p.status ≠ .zombie → k'.table.get s = some q → q.status = .zombie →
    s ≠ .init ∧ q.pid = p.pid ∧ ∃ n, p.DiesOf n ∧ q.exitCode = Int32.ofInt (-(n : Int))
  /-- The signal that cannot be caught has ended the process that was running, unless a lower one has, or the process
  ran no handler and has just entered one for a lower signal. Then the signal that cannot be caught is still pending. -/
  sigKill : ∀ p, k.table.current ≠ .init → k.table.get k.table.current = some p →
    p.pending.contains sigKill = true →
      (∃ q n, k'.table.get k.table.current = some q ∧ q.pid = p.pid ∧ q.status = .zombie ∧ 1 ≤ n ∧ n ≤ sigKill ∧
        q.exitCode = Int32.ofInt (-(n : Int))) ∨
      p.interrupted = none ∧ k'.table.current = k.table.current ∧
        ∃ (r q : Process AddressSpace) (n : Nat) (entry : UInt64), n < sigKill ∧
          r = { p with pending := r.pending } ∧ r.Enters n entry q ∧ k'.table.get k.table.current = some q ∧
          q.pid = p.pid ∧ q.interrupted = some ⟨p.frame, p.mask⟩ ∧ q.pending.contains sigKill = true

/-- A process that runs on in a handler, and ran none before, has just entered it. -/
private theorem SignalsDelivered.enters {k' : Kernel σ φ} {p q : Process AddressSpace} (h : SignalsDelivered k k')
    (hk : k.table.WellFormed) (hp : k.table.get k'.table.current = some p) (hidle : p.interrupted = none)
    (hq : k'.table.get k'.table.current = some q) (hlive : q.status ≠ .zombie) (hhandler : q.interrupted ≠ none) :
    ∃ (r : Process AddressSpace) (n : Nat) (entry : UInt64), r.Enters n entry q := by
  obtain ⟨i, k₁, r, hpath, -, -, ⟨-, htable⟩ | ⟨n, entry, q', henters, hq', -⟩⟩ := h.current
  · obtain ⟨q', hq', hlasts⟩ := hpath.lasts PhysicalMemory.neverIdle hk.parented hp
    rw [← htable] at hq'
    obtain rfl := Option.some.inj (hq.symm.trans hq')
    rcases hlasts.stays with hzombie | hstays
    · exact absurd (Process.isZombie_iff.mp hzombie) hlive
    · exact absurd (hstays.interrupted.trans hidle) hhandler
  · obtain rfl := Option.some.inj (hq.symm.trans hq')
    exact ⟨r, n, entry, henters⟩

/-- In every table that is well-formed, whatever signals are pending and held off, and whatever actions the processes
have installed, the deliveries end by themselves: the last one finds nothing, or enters a handler, or the file system
or the memory stops it, which sound memory and a file system that takes every reference back never do. -/
theorem handleSignals_spec (hk : k.table.WellFormed)
    (hactions : ∀ s p, k.table.get s = some p → p.actions.Exchanged) :
    (∃ n k₁, n < signalBound k.table ∧ Delivering n k k₁ ∧
      ((∃ k', deliverSignal k₁ = .ok false k' ∧ handleSignals k = .ok () k') ∨
        ∃ cause k', deliverSignal k₁ = .error cause k' ∧ handleSignals k = .error cause k' ∧
          cause ≠ .noReadyProcess)) ∧
    (∀ foreign, k.Sound foreign → FileSystem.TakesBack σ → ∃ k', handleSignals k = .ok () k') ∧
    ∀ k', handleSignals k = .ok () k' → SignalsDelivered k k' := by
  have hparented := hk.parented
  obtain ⟨n, k₁, hn, hpath, -, hend⟩ :=
    deliverSignals_ends PhysicalMemory.neverIdle _ k.table.load_lt_signalBound hparented
  refine ⟨⟨n, k₁, hn, hpath, hend⟩, fun foreign hsound hfree => handleSignals_returns hparented hsound hfree,
    fun k' hk' => ?_⟩
  have hsettles := (handleSignals_settles PhysicalMemory.neverIdle hparented).of_ok hk'
  constructor
  case current =>
    obtain ⟨i, k₂, hpath', h₂, hlast⟩ := exists_last_of_handleSignals PhysicalMemory.neverIdle hparented hk'
    obtain ⟨p, hp, hcases⟩ := deliverSignal_last PhysicalMemory.neverIdle h₂ hlast
    refine ⟨i, k₂, p, hpath', hlast, hp, hcases.imp_right ?_⟩
    rintro ⟨n, entry, q, henters, htable⟩
    exact ⟨n, entry, q, henters, by rw [htable, current_put, get_put_self], htable⟩
  case ended =>
    intro s p q hp hlive hq hzombie
    exact hsettles.diesOf hparented hp (Process.isZombie_eq_false_iff.mpr hlive) hq (Process.isZombie_iff.mpr hzombie)
  case sigKill =>
    intro p hinit hp hsent
    have hdefault : (p.actions.action sigKill).handler = .default := by
      rw [(hactions _ p hp).action_eq (by decide)]
      rfl
    rcases hsettles.ends_of_sigKill hparented hinit hp hsent hdefault with
      ⟨q, n, hq, hpid, hzombie, h1, h9, hcode⟩ | ⟨hidle, hcurrent, r, q, n, entry, hlt, hr, henters, hleft, hq⟩
    · exact .inl ⟨q, n, hq, hpid, Process.isZombie_iff.mp hzombie, h1, h9, hcode⟩
    · refine .inr ⟨hidle, hcurrent, r, q, n, entry, hlt, hr, henters, hq, ?_, ?_, hleft⟩
      · rw [henters.pid, hr]
      · rw [henters.interrupted, hr]

/-! ### Deliveries on fixed inputs -/

/-- The initial actions with a handler for the signal 2. -/
private def oneHandler : SignalActions := SignalActions.initial.install 2 ⟨.user 0x2000, .empty⟩

/-- Whether the states before and after the signals are delivered that come with a trap pass a test. No process has
installed another handler than the one for the signal 2. -/
private def deliveryTest (f : TrapFrame)
    (test : Kernel EmptyFiles Bench.BenchFirmware → Kernel EmptyFiles Bench.BenchFirmware → Bool)
    (k : Kernel EmptyFiles Bench.BenchFirmware) : Bool :=
  match serve f k with
  | .ok () k₁ =>
    match handleSignals k₁ with
    | .ok () k₂ =>
      (Slot.all.all fun s => (k₁.table.get s).all fun p => p.actions = .initial || p.actions = oneHandler) && test k₁ k₂
    | _ => false
  | _ => false

private theorem exists_of_deliveryTest {fs : List TrapFrame} {f : TrapFrame}
    {test : Kernel EmptyFiles Bench.BenchFirmware → Kernel EmptyFiles Bench.BenchFirmware → Bool}
    (h : benchRun fs (deliveryTest f test) = true) :
    ∃ k₀ k k₁ k₂, benchStart = .ok k₀ ∧ Reachable k₀ k ∧ serve f k = .ok () k₁ ∧ k₁.table.WellFormed ∧
      (∀ s p, k₁.table.get s = some p → p.actions.Exchanged) ∧ handleSignals k₁ = .ok () k₂ ∧ test k₁ k₂ = true := by
  obtain ⟨k₀, k, hk₀, hk, htest⟩ := exists_of_benchRun h
  obtain ⟨hforest, hr⟩ := hk.table_forest hk₀
  unfold deliveryTest at htest
  split at htest
  next k₁ hserve =>
    split at htest
    next k₂ hsignals =>
      obtain ⟨-, -, -, -, -, hforest₁, hr₁⟩ := serve_stages PhysicalMemory.neverIdle hforest hr hserve
      rw [Bool.and_eq_true] at htest
      refine ⟨k₀, k, k₁, k₂, hk₀, hk, hserve, hforest₁.wellFormed hr₁, fun s p hp => ?_, hsignals, htest.2⟩
      have hactions := List.all_eq_true.mp htest.1 s (Slot.mem_all s)
      rw [hp, Option.all_some, Bool.or_eq_true, decide_eq_true_eq, decide_eq_true_eq] at hactions
      rcases hactions with heq | heq
      · exact heq ▸ .initial
      · have hswap : SignalActions.initial.swap 2 ⟨.user 0x2000, .empty⟩ = .ok (.initial, oneHandler) := by rfl
        exact heq ▸ .swap .initial hswap
    · exact absurd htest (by simp)
  · exact absurd htest (by simp)

/-- A child of the first process has a handler for the signal 2. It creates two children, and sends the signal 15 to one
and the signal 2 to the other. -/
def killFrames : List TrapFrame :=
  installFrames ++ [callFrame .fork 0 0 0, callFrame .yield 0 0 0, callFrame .fork 0 0 0, callFrame .fork 0 0 0,
    callFrame .kill 3 15 0, callFrame .kill 4 2 0]

/-- The first process has a child with a handler for the signal 2, and sends it the signals 9 and 2. -/
def holdFrames : List TrapFrame :=
  installFrames ++ [callFrame .fork 0 0 0, callFrame .kill 2 9 0, callFrame .kill 2 2 0]

/-- A process that sends itself the signal 9 dies of it, the next one dies of the signal 15, and the third one enters its
handler for the signal 2. A process that comes to run with the signals 9 and 2 enters its handler for the lower one, and
the other one stays pending. -/
theorem handleSignals_spec_three :
    (∃ (k₀ k k₁ k₂ : Kernel EmptyFiles Bench.BenchFirmware) (p q r r' : Process AddressSpace), benchStart = .ok k₀ ∧
      Reachable k₀ k ∧ serve (callFrame .kill 2 9 0) k = .ok () k₁ ∧ k₁.table.WellFormed ∧
      (∀ s p, k₁.table.get s = some p → p.actions.Exchanged) ∧ handleSignals k₁ = .ok () k₂ ∧
      k₁.table.current = 1 ∧ (∃ n, 1 ≤ n ∧ n ≤ sigKill ∧ q.exitCode = Int32.ofInt (-(n : Int))) ∧
      k₂.table.get 1 = some q ∧ q.status = .zombie ∧
      k₁.table.get 2 = some p ∧ p.status = .ready ∧ k₂.table.get 2 = some r ∧ r.status = .zombie ∧
      (∃ n, p.DiesOf n ∧ r.exitCode = Int32.ofInt (-(n : Int))) ∧
      k₂.table.current = 3 ∧ k₂.table.get 3 = some r' ∧ r'.frame.sepc = 0x2000 ∧
      ∃ (p' : Process AddressSpace) (n : Nat), p'.Enters n 0x2000 r') ∧
    ∃ (k₀ k k₁ k₂ : Kernel EmptyFiles Bench.BenchFirmware) (p q r : Process AddressSpace) (n : Nat),
      benchStart = .ok k₀ ∧ Reachable k₀ k ∧ serve (callFrame .yield 0 0 0) k = .ok () k₁ ∧ k₁.table.WellFormed ∧
      (∀ s p, k₁.table.get s = some p → p.actions.Exchanged) ∧ handleSignals k₁ = .ok () k₂ ∧
      k₁.table.current = 1 ∧ k₁.table.get 1 = some p ∧ p.pending.contains sigKill = true ∧
      k₂.table.get 1 = some q ∧ q.pid = p.pid ∧ q.status = .running ∧ n < sigKill ∧ r.Enters n 0x2000 q ∧
      q.interrupted = some ⟨p.frame, p.mask⟩ ∧ q.pending.contains sigKill = true := by
  constructor
  · obtain ⟨k₀, k, k₁, k₂, hk₀, hk, hserve, hwf, hexchanged, hsignals, htest⟩ := exists_of_deliveryTest
      (show benchRun killFrames (deliveryTest (callFrame .kill 2 9 0) fun k₁ k₂ =>
        decide (k₁.table.current = 1) && (k₁.table.get 1).any (fun p => p.pending.contains sigKill) &&
          k₁.table.hasStatus 2 .ready && k₂.table.hasStatus 2 .zombie &&
          (k₁.table.get 3).any (fun p => p.interrupted = none) && decide (k₂.table.current = 3) &&
          (k₂.table.get 3).any (fun p => p.status = .running && (p.interrupted ≠ none && p.frame.sepc = 0x2000))) =
        true by decide +kernel)
    simp only [Bool.and_eq_true, decide_eq_true_eq, Option.any_eq_true] at htest
    obtain ⟨⟨⟨⟨⟨⟨hcurrent, p₁, hp₁, hsent⟩, hready⟩, hzombie⟩, p₃, hp₃, hidle⟩, hlast⟩, r', hr', hrun, hentered,
      hsepc⟩ := htest
    obtain ⟨p, hp, hpready⟩ := hasStatus_iff.mp hready
    obtain ⟨r, hr, hrzombie⟩ := hasStatus_iff.mp hzombie
    have hdelivered := (handleSignals_spec hwf hexchanged).2.2 k₂ hsignals
    obtain ⟨-, -, hdies⟩ := hdelivered.ended 2 p r hp (by simp [hpready]) hr hrzombie
    have hkilled : ∃ q n, k₂.table.get 1 = some q ∧ q.status = .zombie ∧ 1 ≤ n ∧ n ≤ sigKill ∧
        q.exitCode = Int32.ofInt (-(n : Int)) := by
      rcases hdelivered.sigKill p₁ (by rw [hcurrent]; decide) (hcurrent ▸ hp₁) hsent with
        ⟨q, n, hq, -, hqzombie, h1, h9, hcode⟩ | ⟨-, hsame, -⟩
      · exact ⟨q, n, hcurrent ▸ hq, hqzombie, h1, h9, hcode⟩
      · rw [hlast, hcurrent] at hsame
        exact absurd hsame (by decide)
    obtain ⟨p', n', entry, henters⟩ := hdelivered.enters hwf (hlast ▸ hp₃) hidle (hlast ▸ hr') (by simp [hrun]) hentered
    obtain rfl : entry = 0x2000 := henters.frame.sepc.symm.trans hsepc
    obtain ⟨q, n, hq, hqzombie, h1, h9, hcode⟩ := hkilled
    exact ⟨k₀, k, k₁, k₂, p, q, r, r', hk₀, hk, hserve, hwf, hexchanged, hsignals, hcurrent, ⟨n, h1, h9, hcode⟩, hq,
      hqzombie, hp, hpready, hr, hrzombie, hdies, hlast, hr', hsepc, p', n', henters⟩
  · obtain ⟨k₀, k, k₁, k₂, hk₀, hk, hserve, hwf, hexchanged, hsignals, htest⟩ := exists_of_deliveryTest
      (show benchRun holdFrames (deliveryTest (callFrame .yield 0 0 0) fun k₁ k₂ =>
        decide (k₁.table.current = 1) && (k₁.table.get 1).any (fun p => p.pending.contains sigKill) &&
          (k₂.table.get 1).any (fun p => p.status = .running && p.frame.sepc = 0x2000)) = true by decide +kernel)
    simp only [Bool.and_eq_true, decide_eq_true_eq, Option.any_eq_true] at htest
    obtain ⟨⟨hcurrent, p, hp, hsent⟩, q, hq, hrun, hsepc⟩ := htest
    rcases ((handleSignals_spec hwf hexchanged).2.2 k₂ hsignals).sigKill p (by rw [hcurrent]; decide) (hcurrent ▸ hp)
      hsent with ⟨q', n, hq', -, hqzombie, -⟩ | ⟨-, -, r, q', n, entry, hlt, -, henters, hq', hpid, hsaved, hleft⟩
    · rw [hcurrent, hq] at hq'
      obtain rfl := Option.some.inj hq'
      exact absurd (hrun.symm.trans hqzombie) (by decide)
    · rw [hcurrent, hq] at hq'
      obtain rfl := Option.some.inj hq'
      obtain rfl : entry = 0x2000 := henters.frame.sepc.symm.trans hsepc
      exact ⟨k₀, k, k₁, k₂, p, q, r, n, hk₀, hk, hserve, hwf, hexchanged, hsignals, hcurrent, hp, hsent, hq, hpid, hrun,
        hlt, henters, hsaved, hleft⟩

end Kernel

end TrapKernel
