import TrapKernel.Proofs.Kernel.Calls
import TrapKernel.Proofs.Kernel.Deliveries
import TrapKernel.Proofs.Kernel.Handlers

/-!
# The registers of a process

Every process goes on with its own registers. A trap leaves the registers of the processes that did not make it alone,
whoever runs next and whichever processes exit, unless it delivers a signal to one of them that has a handler. Then what
the process did is saved, and the program counter and the first argument are the only registers that change. The process
that trapped keeps its registers too, apart from the result of a system call.

* `Kernel.Reachable.keepsRegisters`: the registers in reachable states.
-/

namespace TrapKernel

variable {β : Type}

/-- Whether a word is what a caller reads as the result of its call: the value, or the opposite of an error's code. -/
def Tells : Except Errno UInt64 → UInt64 → Prop
  | .ok v, w => w = v
  | .error e, w => w.toNat + e.code = wordLimit

private theorem tells_resultWord (r : Except Errno UInt64) : Tells r (resultWord r) := by
  cases r with
  | ok v => rfl
  | error e => cases e <;> rfl

namespace Process

variable {p q r : Process β} {caught : Nat → UInt64 → Prop}

/-- Whether the process `q` is the process `p` after it has been interrupted by the signal `n`, whose handler is at
`entry`. What it did is saved, and the new registers differ in two places only: the program counter is at the handler,
and the first argument is the number of the signal. -/
structure InterruptedBy (p : Process β) (n : Nat) (entry : UInt64) (q : Process β) : Prop where
  signal : isSignal n = true
  handler : (p.actions.action n).handler = .user entry
  taken : q.pending.contains n = false
  idle : p.interrupted = none
  saved : q.interrupted = some ⟨p.frame, p.mask⟩
  frame : p.frame.ResumesAt entry (UInt64.ofNat n) q.frame

/-- How a process goes on after something that it did not do itself, where `caught` are the signals that it has got and
the handlers that it has for them. If there are none it goes on with the registers that it had, or it has exited. If it
has got a signal it has been interrupted by it. -/
structure Resumes (caught : Nat → UInt64 → Prop) (p q : Process β) : Prop where
  uncaught : (∀ n entry, ¬caught n entry) → q.frame = p.frame ∧ (q.status = .zombie ∨ q.interrupted = p.interrupted)
  caught : ∀ n entry, caught n entry → p.InterruptedBy n entry q

/-- What becomes of a process that made a system call with the registers `f` and the result `r`, before signals are
delivered. If it goes on it is behind the call and has the result in the register of the first argument. If it waits it
is still at the call, so that it makes it again, and if it has exited there is no result. -/
inductive Answered (f : TrapFrame) (r : Except Errno UInt64) (q : Process β) : Prop
  | returns (w : UInt64) (htells : Tells r w) (hstatus : q.status = .ready ∨ q.status = .running)
      (hframe : f.ResumesAt (f.sepc + 4) w q.frame)
  | waits (hasks : f.Asks .wait) (hstatus : q.status = .blocked) (hframe : q.frame = f)
  | exits (hasks : f.Asks .exit) (hstatus : q.status = .zombie)
      (hframe : f.ResumesAt (f.sepc + 4) (f.registers.get 10) q.frame)

theorem Bystander.actions (h : p.Bystander q) : q.actions = p.actions := by rw [h.eq]

/-- What happens to a bystander first makes no difference to its registers. -/
private theorem Bystander.resumes (h : p.Bystander q) (hr : q.Resumes caught r) : p.Resumes caught r where
  uncaught hnone := by
    obtain ⟨hframe, hsaved⟩ := hr.uncaught hnone
    exact ⟨hframe.trans h.frame, hsaved.imp_right fun hsame => hsame.trans h.interrupted⟩
  caught n entry hn := by
    have hinterrupted := hr.caught n entry hn
    exact {
      signal := hinterrupted.signal
      handler := h.actions ▸ hinterrupted.handler
      taken := hinterrupted.taken
      idle := h.interrupted.symm.trans hinterrupted.idle
      saved := by rw [hinterrupted.saved, h.frame, h.mask]
      frame := h.frame ▸ hinterrupted.frame }

/-- Who enters a handler has been interrupted by its signal. -/
private theorem Enters.interruptedBy {n : Nat} {entry : UInt64} (h : p.Enters n entry q) :
    p.InterruptedBy n entry q where
  signal := isSignal_of_nextSignal? h.next
  handler := h.handler
  taken := by simp [h.pending]
  idle := h.idle
  saved := h.interrupted
  frame := h.frame

/-- A process that gets no signal for which it has a handler goes on as it was, or it is ended. -/
private theorem Lasts.resumes (h : p.Lasts q) (hnone : ∀ n entry, ¬caught n entry) : p.Resumes caught q where
  uncaught _ := ⟨h.frame, h.stays.imp isZombie_iff.mp fun hstays => hstays.interrupted⟩
  caught n entry hn := absurd hn (hnone n entry)

theorem Called.pid {call : Option SystemCall} {r : Except Errno UInt64} (h : p.Called call r q) :
    q.pid = p.pid := by
  cases h with
  | goesOn hworks _ _ =>
    obtain ⟨_, _, _, -, rfl⟩ := hworks
    rfl
  | goesBack _ | waits _ | exits => rfl

/-- A system call leaves its result in the registers of its caller and nothing else, unless it is a return from a
handler. -/
private theorem Called.answered {f : TrapFrame} {call : Option SystemCall} {r : Except Errno UInt64}
    (h : ({ p with frame := f.advanced } : Process β).Called call r q) (hsepc : f.sepc.toNat + 4 < wordLimit)
    (hasks : ∀ c, call = some c → f.Asks c) (hreturn : f.Asks .signalReturn → p.interrupted = none) :
    (q.withResult (resultWord r)).Answered f r := by
  cases h with
  | goesOn hworks hstatus _ =>
    obtain ⟨_, _, _, -, rfl⟩ := hworks
    refine .returns (resultWord r) (tells_resultWord r) (by simpa using hstatus) ?_
    rw [withResult, if_neg (by rcases hstatus with h | h <;> simp [isZombie, h])]
    exact f.resumesAt_advanced_setA0 _
  | goesBack hsaved => exact absurd ((hreturn (hasks _ rfl)).symm.trans hsaved) (by simp)
  | waits _ =>
    refine .waits (hasks _ rfl) (withResult_status _ _) ?_
    rw [withResult, if_neg (by simp [isZombie])]
    -- the result of a call that waits is the register as it was
    have hsame : f.advanced.rewound.setA0 (resultWord (.ok f.advanced.a0)) = f.advanced.rewound :=
      TrapFrame.setA0_a0 f.advanced.rewound
    exact hsame.trans (TrapFrame.rewound_advanced hsepc)
  | exits =>
    refine .exits (hasks _ rfl) (withResult_status _ _) ?_
    rw [withResult, if_pos (by simp [isZombie, remains])]
    exact f.resumesAt_advanced

end Process

namespace ProcessTable

variable {μ : Type} [MemorySystem μ β] {t u : ProcessTable β} {f : TrapFrame} {s : Slot} {p q : Process β}

/-- Without a system call the registers of the process that trapped stay, even if it exits. -/
private theorem CauseEffect.frame_eq (h : t.CauseEffect μ u) (hforest : t.Forest μ) (hr : t.Running)
    (hp : t.get t.current = some p) (hcause : TrapCause.ofWord p.frame.scause ≠ .systemCall) :
    ∃ q, u.get t.current = some q ∧ q.pid = p.pid ∧ q.frame = p.frame := by
  cases h with
  | call hp' hcall _ _ =>
    obtain rfl := Option.some.inj (hp.symm.trans hp')
    exact absurd hcall hcause
  | timer _ _ h =>
    obtain ⟨_, -, hq⟩ := h.self hp
    exact ⟨_, hq, rfl, rfl⟩
  | fault _ _ h =>
    obtain ⟨_, ⟨_, _, _, -, rfl⟩, hq⟩ := h.self hp
    exact ⟨_, hq, rfl, rfl⟩
  | fatal _ _ _ _ hworks h =>
    obtain ⟨_, ⟨_, _, _, -, rfl⟩, hget⟩ := hworks.self hp
    obtain ⟨hforest', -⟩ := (hworks.move (μ := μ) hr).forest hforest hr
    rw [← hworks.current_eq] at hget
    obtain ⟨space, hexit⟩ := h.self hforest' hget
    rw [hworks.current_eq] at hexit
    exact ⟨_, hexit, rfl, rfl⟩

end ProcessTable

namespace Kernel

open ProcessTable

variable {μ β σ φ : Type} [MemorySystem μ β] [FileSystem σ] [Firmware φ] {k k₁ k₂ : KernelState μ β σ φ} {f : TrapFrame}
  {s : Slot} {p q : Process β}

/-- Whether every process keeps its own registers from a state on. -/
structure KeepsRegisters (k : KernelState μ β σ φ) : Prop where
  /-- A trap lets all processes but the one that trapped go on with their own registers, but for the signals that they
  get, once the trap has been served, and for which they have a handler. -/
  elsewhere : ∀ f k' s p q, trapWith f k = .ok () k' → s ≠ k.table.current → k.table.get s = some p →
    k'.table.get s = some q →
    q.pid = p.pid ∧ ∃ k₁, serve f k = .ok () k₁ ∧ handleSignals k₁ = .ok () k' ∧ p.Resumes (Catches k₁ s) q
  /-- A trap is served first, and then signals are delivered. -/
  staged : ∀ f, trapWith f k = (serve f >>= fun _ => handleSignals) k
  /-- To serve a trap without a system call leaves the registers of the process that trapped alone. -/
  noCall : ∀ f k₁ p, serve f k = .ok () k₁ → k.table.get k.table.current = some p →
    TrapCause.ofWord f.scause ≠ .systemCall →
    ∃ q, k₁.table.get k.table.current = some q ∧ q.pid = p.pid ∧ q.frame = f
  /-- A system call other than a return from a handler, whichever process runs after it: it has a result, and the
  process that made it has no more than this result in its registers. -/
  call : ∀ f k₁ p, serve f k = .ok () k₁ → k.table.get k.table.current = some p →
    TrapCause.ofWord f.scause = .systemCall → (f.Asks .signalReturn → p.interrupted = none) →
    f.sepc.toNat + 4 < wordLimit ∧ ∃ r k₂ q, answerCall f k = .ok r k₂ ∧ k₁.table.get k.table.current = some q ∧
      q.pid = p.pid ∧ q.Answered f r
  /-- The delivery of signals lets all processes go on with their own registers, but for the signals that they get and
  for which they have a handler. -/
  delivery : ∀ f k₁ k₂ s p, serve f k = .ok () k₁ → handleSignals k₁ = .ok () k₂ → k₁.table.get s = some p →
    ∃ q, k₂.table.get s = some q ∧ q.pid = p.pid ∧ p.Resumes (Catches k₁ s) q

section Stages

variable (hμ : MemorySystem.NeverIdle μ) (hforest : k.table.Forest μ) (hr : k.table.Running)

include hμ hforest hr

private theorem serve_noCall (hk : serve f k = .ok () k₁) (hp : k.table.get k.table.current = some p)
    (hcause : TrapCause.ofWord f.scause ≠ .systemCall) :
    ∃ q, k₁.table.get k.table.current = some q ∧ q.pid = p.pid ∧ q.frame = f := by
  obtain ⟨p', hp', heffect, hforest₁, hr₁, -⟩ := serve_stages hμ hforest hr hk
  obtain rfl := Option.some.inj (hp.symm.trans hp')
  exact heffect.frame_eq hforest₁ hr₁ (get_put_self _ _ _) hcause

private theorem serve_answered (hk : serve f k = .ok () k₁) (hp : k.table.get k.table.current = some p)
    (hcause : TrapCause.ofWord f.scause = .systemCall) (hreturn : f.Asks .signalReturn → p.interrupted = none) :
    f.sepc.toNat + 4 < wordLimit ∧ ∃ r k₂ q, answerCall f k = .ok r k₂ ∧ k₁.table.get k.table.current = some q ∧
      q.pid = p.pid ∧ q.Answered f r := by
  obtain ⟨p', hp', hrun⟩ := id hr
  obtain rfl := Option.some.inj (hp.symm.trans hp')
  have hlive : p.isZombie = false := Process.isZombie_eq_false_iff.mpr (by simp [hrun])
  obtain ⟨r, k₂, hanswer, hsepc, heffect, hk₁⟩ := exists_answerCall hμ hp hforest hr hcause hk
  obtain ⟨hforest', -⟩ := (move_of_frame (μ := μ) hp hlive f.advanced).forest hforest hr
  obtain ⟨q, hcalled, hq⟩ := heffect.self hforest' (get_put_self _ _ _) hrun
  refine ⟨hsepc, r, k₂, q.withResult (resultWord r), hanswer, ?_, ?_, ?_⟩
  · rw [hk₁, get_modifyAt, if_pos rfl]
    exact congrArg (Option.map _) hq
  · exact (Process.withResult_pid _ _).trans hcalled.pid
  · exact hcalled.answered hsepc (fun c hc => ⟨hcause, hc⟩) hreturn

omit [Firmware φ] hforest hr in
/-- The delivery of signals interrupts the processes that get a signal for which they have a handler, and no others. -/
private theorem handleSignals_resumes (ht : k.table.Parented) (hk : handleSignals k = .ok () k₂)
    (hp : k.table.get s = some p) : ∃ q, k₂.table.get s = some q ∧ q.pid = p.pid ∧ p.Resumes (Catches k s) q := by
  obtain ⟨i, k₁, hpath, h₁, hlast⟩ := exists_last_of_handleSignals hμ ht hk
  obtain ⟨c, hc, hlasts⟩ := hpath.lasts hμ ht hp
  rcases get_deliverSignal_last hμ h₁ hlast hc with ⟨hsame, hnone⟩ | ⟨rfl, n, entry, q, henters, hq⟩
  · refine ⟨c, hsame, hlasts.pid, hlasts.resumes fun n entry h => ?_⟩
    obtain ⟨hcurrent, hn, -⟩ := h.last hμ ht hpath hlast hc
    exact absurd (hn.symm.trans (hnone hcurrent)) (by simp)
  · obtain ⟨c', hc', hrun⟩ := h₁.current
    obtain rfl := Option.some.inj (hc.symm.trans hc')
    have hstays : p.Bystander c := hlasts.stays.resolve_left (by simp [Process.isZombie, hrun])
    refine ⟨q, hq, henters.pid.trans hlasts.pid, hstays.resumes ⟨fun hnone => ?_, fun m entry' h => ?_⟩⟩
    · exact absurd ⟨i, k₁, c, hpath, rfl, hc, henters.next, henters.handler⟩ (hnone n entry)
    -- whatever else the process may have got, it is with this delivery, so it is the same signal
    · obtain ⟨-, hm, hentry⟩ := h.last hμ ht hpath hlast hc
      obtain rfl := Option.some.inj (henters.next.symm.trans hm)
      obtain rfl := SignalHandler.user.inj (henters.handler.symm.trans hentry)
      exact henters.interruptedBy

/-- Every process that did not trap goes on with its own registers. -/
private theorem trapWith_resumes {k' : KernelState μ β σ φ} (hk : trapWith f k = .ok () k') (hs : s ≠ k.table.current)
    (hp : k.table.get s = some p) (hq : k'.table.get s = some q) :
    q.pid = p.pid ∧ ∃ k₁, serve f k = .ok () k₁ ∧ handleSignals k₁ = .ok () k' ∧ p.Resumes (Catches k₁ s) q := by
  rw [trapWith_eq f hr] at hk
  obtain ⟨_, k₁, hserve, hsignals⟩ := Run.bind_eq_ok.mp hk
  obtain ⟨p₀, hp₀, heffect, -, -, hforest₁, hr₁⟩ := serve_stages hμ hforest hr hserve
  have helsewhere := heffect.elsewhere (s := s) (get_put_self _ _ _) hs
  rw [get_put_of_ne _ hs, hp] at helsewhere
  generalize hbetween : k₁.table.get s = between at helsewhere
  cases helsewhere with
  | stays hrel =>
    cases hrel with
    | some hstays =>
      obtain ⟨q', hq', hpid, hresumes⟩ := handleSignals_resumes hμ (hforest₁.parented hr₁) hsignals hbetween
      obtain rfl := Option.some.inj (hq.symm.trans hq')
      exact ⟨hpid.trans hstays.pid, k₁, hserve, hsignals, hstays.resumes hresumes⟩
  | collected _ =>
    have hsettled := ((handleSignals_settles hμ (hforest₁.parented hr₁)).of_ok hsignals).slot hforest₁ hr₁ s
    rw [hbetween, hq] at hsettled
    nomatch hsettled

end Stages

/-- In all reachable states every process keeps its own registers. -/
theorem Reachable.keepsRegisters {σ φ : Type} [FileSystem σ] [Firmware φ] {entry stackPointer heapStart : UInt64}
    {memory : PhysicalMemory} {files : σ} {firmware : φ} {logLimit : Option LogLevel} {k₀ k : Kernel σ φ}
    (hboot : boot entry stackPointer heapStart memory files firmware logLimit = .ok k₀) (h : Reachable k₀ k) :
    KeepsRegisters k := by
  obtain ⟨hforest, hr⟩ := h.table_forest hboot
  have hμ : MemorySystem.NeverIdle PhysicalMemory := PhysicalMemory.neverIdle
  constructor
  case elsewhere => exact fun f k' s p q hk hs hp hq => trapWith_resumes hμ hforest hr hk hs hp hq
  case staged => exact fun f => trapWith_eq f hr
  case noCall => exact fun f k₁ p hk hp hcause => serve_noCall hμ hforest hr hk hp hcause
  case call => exact fun f k₁ p hk hp hcause hreturn => serve_answered hμ hforest hr hk hp hcause hreturn
  case delivery =>
    intro f k₁ k₂ s p hk hk₂ hp
    obtain ⟨-, -, -, -, -, hforest₁, hr₁⟩ := serve_stages hμ hforest hr hk
    exact handleSignals_resumes hμ (hforest₁.parented hr₁) hk₂ hp

/-- The first process has a handler for the signal 2, which its child sends to it. -/
def catchFrames : List TrapFrame :=
  installFrames ++ [callFrame .fork 0 0 0, callFrame .yield 0 0 0, callFrame .kill 0 2 0]

/-- Whether the child gives way with zero for a result, and the first process gets the signal then. -/
private def catchTest (child : Slot) (k : Kernel EmptyFiles Bench.BenchFirmware) : Bool :=
  match serve (callFrame .yield 7 8 9) k, answerCall (callFrame .yield 7 8 9) k,
    trapWith (callFrame .yield 7 8 9) k with
  | .ok () k₁, .ok (.ok w) _, .ok () k' =>
    decide (w = 0) && decide (k.table.current = child) && (k.table.get .init).isSome && (k.table.get child).isSome &&
    (k'.table.get .init).isSome && decide (k₁.table.current = .init) &&
    (k₁.table.get .init).any fun p => p.nextSignal? = some 2 && (p.actions.action 2).handler = .user 0x2000
  | _, _, _ => false

/-- A process gives way to one that enters a handler. The former has zero for the result of its call, and no other
register has changed. The latter has the number of the signal in the register of the first argument, and the registers
that it had are saved. -/
theorem keepsRegisters_handler : ∃ (k₀ k k₁ k' : Kernel EmptyFiles Bench.BenchFirmware)
    (p q c : Process AddressSpace), benchStart = .ok k₀ ∧ Reachable k₀ k ∧ KeepsRegisters k ∧
      trapWith (callFrame .yield 7 8 9) k = .ok () k' ∧ k.table.current = 1 ∧
      serve (callFrame .yield 7 8 9) k = .ok () k₁ ∧ k₁.table.get 1 = some c ∧ c.frame.sepc = 4 ∧
      c.frame.registers.get 10 = 0 ∧ c.frame.registers.get 11 = 8 ∧ c.frame.registers.get 12 = 9 ∧
      k.table.get 0 = some p ∧ k'.table.get 0 = some q ∧ q.interrupted = some ⟨p.frame, p.mask⟩ ∧
      q.frame.sepc = 0x2000 ∧ q.frame.registers.get 10 = 2 ∧
      ∀ i, i ≠ 10 → q.frame.registers.get i = p.frame.registers.get i := by
  obtain ⟨k₀, k, hk₀, hk, htest⟩ := exists_of_benchRun (show benchRun catchFrames (catchTest 1) = true by decide +kernel)
  unfold catchTest at htest
  split at htest
  next k₁ w k₂ k' hserve hanswer htrap =>
    simp only [Bool.and_eq_true, decide_eq_true_eq, Option.any_eq_true, Option.isSome_iff_exists] at htest
    obtain ⟨⟨⟨⟨⟨⟨rfl, hcurrent⟩, p, hp⟩, r, hr⟩, q, hq⟩, hnext⟩, p₁, hp₁, hn, hentry⟩ := htest
    have hkeeps : KeepsRegisters k := Reachable.keepsRegisters hk₀ hk
    -- the one that gives way
    obtain ⟨-, result, _, c, hanswer', hc, -, hanswered⟩ := hkeeps.call _ k₁ r hserve (by rw [hcurrent, hr]) (by decide)
      fun h => absurd h (by decide)
    obtain rfl := (EStateM.Result.ok.inj (hanswer.symm.trans hanswer')).1
    have hgives : (callFrame .yield 7 8 9).ResumesAt 4 0 c.frame := by
      cases hanswered with
      | returns w htells _ hframe => exact (htells : w = 0) ▸ hframe
      | waits hasks _ _ => exact absurd hasks (by decide)
      | exits hasks _ _ => exact absurd hasks (by decide)
    -- the one that is interrupted
    obtain ⟨-, k₁', hserve', -, hresumes⟩ := hkeeps.elsewhere _ k' 0 p q htrap (by rw [hcurrent]; decide) hp hq
    obtain rfl := (EStateM.Result.ok.inj (hserve.symm.trans hserve')).2
    have hinterrupted := hresumes.caught 2 0x2000 ⟨0, k₁, p₁, .none, hnext, hp₁, hn, hentry⟩
    exact ⟨k₀, k, k₁, k', p, q, c, hk₀, hk, hkeeps, htrap, hcurrent, hserve, hcurrent ▸ hc, hgives.sepc, hgives.a0,
      (hgives.registers 11 (by decide)).trans rfl, (hgives.registers 12 (by decide)).trans rfl, hp, hq,
      hinterrupted.saved, hinterrupted.frame.sepc, hinterrupted.frame.a0, hinterrupted.frame.registers⟩
  · exact absurd htest (by simp)

end Kernel

end TrapKernel
