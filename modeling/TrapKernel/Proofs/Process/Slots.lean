import TrapKernel.Proofs.Process.Effects
import Mathlib.Data.Option.Basic

/-!
# The effect of a trap on one slot

What a trap does to a single process, read off the relations of `TrapKernel.Proofs.Process.Effects`. A process that
does not run is a `Process.Bystander`: all that can happen to it is that it is woken up, chosen to run, adopted or sent
a signal. `Process.Served` is what becomes of the process that trapped, and `Process.Settled` what the delivery of
signals makes of any process.

* `ProcessTable.CauseEffect.elsewhere`, `ProcessTable.CauseEffect.self`: before signals are delivered.
* `ProcessTable.Settles.slot`: the delivery of signals.
-/

namespace TrapKernel

variable {β : Type}

/-- Whether the registers ask for a system call. -/
def TrapFrame.Asks (f : TrapFrame) (call : SystemCall) : Prop :=
  TrapCause.ofWord f.scause = .systemCall ∧ SystemCall.ofNumber? f.callNumber.toNat = some call

instance (f : TrapFrame) (call : SystemCall) : Decidable (f.Asks call) := inferInstanceAs (Decidable (_ ∧ _))

theorem TrapFrame.Asks.callNumber_eq {f : TrapFrame} {call : SystemCall} (h : f.Asks call) :
    f.callNumber.toNat = call.number := by
  have hnumber := List.find?_some h.2
  exact (of_decide_eq_true hnumber).symm

namespace Process

/-- What happens to a process while others run: its status, its parent and its pending signals may change, but it
does not exit, and if it is blocked afterwards it was all the time and has been sent nothing. -/
structure Bystander (p q : Process β) : Prop where
  eq : q = { p with status := q.status, parent := q.parent, pending := q.pending }
  isZombie : q.isZombie = p.isZombie
  blocked : q.status = .blocked → p.status = .blocked ∧ q.pending = p.pending

namespace Bystander

variable {p q r : Process β}

theorem refl (p : Process β) : p.Bystander p := ⟨rfl, rfl, fun h => ⟨h, rfl⟩⟩

theorem trans (h : p.Bystander q) (h' : q.Bystander r) : p.Bystander r where
  eq := by rw [h'.eq, h.eq]
  isZombie := h'.isZombie.trans h.isZombie
  blocked hr := by
    obtain ⟨hq, hpending⟩ := h'.blocked hr
    obtain ⟨hp, hpending'⟩ := h.blocked hq
    exact ⟨hp, hpending.trans hpending'⟩

theorem pid (h : p.Bystander q) : q.pid = p.pid := by rw [h.eq]

theorem frame (h : p.Bystander q) : q.frame = p.frame := by rw [h.eq]

theorem memory (h : p.Bystander q) : q.memory = p.memory := by rw [h.eq]

theorem mask (h : p.Bystander q) : q.mask = p.mask := by rw [h.eq]

theorem interrupted (h : p.Bystander q) : q.interrupted = p.interrupted := by rw [h.eq]

private theorem disown (p : Process β) (s : Slot) : p.Bystander (p.disown s) where
  eq := by unfold Process.disown; split <;> rfl
  isZombie := by simp [Process.isZombie]
  blocked h := ⟨by simpa using h, by unfold Process.disown; split <;> rfl⟩

private theorem wake (p : Process β) : p.Bystander p.wake where
  eq := by unfold Process.wake; split <;> rfl
  isZombie := p.wake_isZombie
  blocked h := by
    rw [wake_status] at h
    split at h
    · exact absurd h (by simp)
    next hp => exact absurd h hp

/-- A process that is sent a signal is woken up. -/
theorem post_wake (p : Process β) (n : Nat) : p.Bystander (p.post n).wake where
  eq := by unfold Process.wake; split <;> rfl
  isZombie := (p.post n).wake_isZombie
  blocked h := by
    rw [wake_status] at h
    split at h
    · exact absurd h (by simp)
    next hp => exact absurd h hp

theorem take (hp : p.status ≠ .blocked) (n : Nat) : p.Bystander (p.take n) :=
  ⟨rfl, rfl, fun h => absurd h hp⟩

/-- A ready process is chosen to run. -/
theorem run (hp : p.status = .ready) : p.Bystander { p with status := .running } :=
  ⟨rfl, by simp [Process.isZombie, hp], fun h => absurd h (by simp)⟩

end Bystander

/-- What the delivery of signals makes of a process: nothing more than of a bystander, or it enters a handler, or a
signal ends it. -/
inductive Settled (p : Process β) : Process β → Prop
  | stays {q : Process β} (h : p.Bystander q) : Settled p q
  | enters {q : Process β} {n : Nat} {entry : UInt64} (h : p.Bystander q) (hrun : q.status = .running)
      (hn : q.nextSignal? = some n) (hentry : (q.actions.action n).handler = .user entry) :
      Settled p ((q.take n).enterHandler n entry)
  | exits {q r : Process β} {n : Nat} {space : β} (h : p.Bystander q) (hlive : q.isZombie = false)
      (hn : q.nextSignal? = some n) (hr : (q.remains (Int32.ofInt (-(n : Int))) space).Bystander r) : Settled p r

theorem isSignal_of_nextSignal? {p : Process β} {n : Nat} (hn : p.nextSignal? = some n) : isSignal n = true := by
  have hcan := List.find?_some hn
  simp only [canDeliver, Bool.and_eq_true] at hcan
  exact SignalSet.isSignal_of_contains hcan.1.1

private theorem Bystander.settled {p q r : Process β} (h : p.Bystander q) (h' : q.Settled r) : p.Settled r := by
  cases h' with
  | stays h' => exact .stays (h.trans h')
  | enters h' hrun hn hentry => exact .enters (h.trans h') hrun hn hentry
  | exits h' hlive hn hr => exact .exits (h.trans h') hlive hn hr

/-- To a process that has exited the delivery of signals does no more than to a bystander. -/
theorem Settled.of_isZombie {p q : Process β} (h : p.Settled q) (hzombie : p.isZombie = true) : p.Bystander q := by
  cases h with
  | stays h => exact h
  | @enters q n entry h hrun _ _ =>
    have hlive : q.isZombie = false := isZombie_eq_false_iff.mpr (by simp [hrun])
    rw [h.isZombie, hzombie] at hlive
    exact absurd hlive (by simp)
  | exits h hlive _ _ =>
    rw [h.isZombie, hzombie] at hlive
    exact absurd hlive (by simp)

/-- A process that is blocked after the delivery of signals was so before, and nothing but its parent has changed. -/
theorem Settled.blocked {p q : Process β} (h : p.Settled q) (hb : q.status = .blocked) :
    p.status = .blocked ∧ q = { p with parent := q.parent } := by
  cases h with
  | stays h =>
    obtain ⟨hp, hpending⟩ := h.blocked hb
    refine ⟨hp, ?_⟩
    have heq := h.eq
    rwa [hb, hpending, ← hp] at heq
  | enters _ hrun _ _ => exact absurd (hrun.symm.trans hb) (by simp)
  | exits _ _ _ hr => exact absurd (hr.blocked hb).1 (by simp [remains])

/-- What a system call makes of its caller, before the result is left in its registers, depending on the call and its
result. -/
inductive Called (p : Process β) : Option SystemCall → Except Errno UInt64 → Process β → Prop
  | goesOn {call : Option SystemCall} {r : Except Errno UInt64} {q : Process β} {status : Status} {pending : SignalSet}
      (hworks : p.Works q) (hstatus : status = .ready ∨ status = .running)
      (hreturn : call = some .signalReturn → p.interrupted = none) : Called p call r { q with status, pending }
  | goesBack {saved : SavedContext} (hsaved : p.interrupted = some saved) :
      Called p (some .signalReturn) (.ok saved.frame.a0)
        { p with frame := saved.frame, mask := saved.mask, interrupted := none }
  | waits (hsepc : 4 ≤ p.frame.sepc.toNat) :
      Called p (some .wait) (.ok p.frame.a0) { p with frame := p.frame.rewound, status := .blocked }
  | exits {code : Int32} {space : β} : Called p (some .exit) (.ok 0) (p.remains code space)

/-- What a trap with its registers makes of the process that trapped, before signals are delivered: it goes on, goes
back from a handler, waits or exits. -/
inductive Served (p : Process β) : Process β → Prop
  | goesOn {q : Process β} {frame : TrapFrame} {status : Status} {pending : SignalSet} (hworks : p.Works q)
      (hstatus : status = .ready ∨ status = .running) (hreturn : p.frame.Asks .signalReturn → p.interrupted = none)
      (hframe : TrapCause.ofWord p.frame.scause ≠ .systemCall ∧ frame = p.frame ∨
        TrapCause.ofWord p.frame.scause = .systemCall ∧ ∃ w, frame = p.frame.advanced.setA0 w) :
      Served p { q with frame, status, pending }
  | goesBack {saved : SavedContext} (hasks : p.frame.Asks .signalReturn) (hsaved : p.interrupted = some saved) :
      Served p { p with frame := saved.frame, mask := saved.mask, interrupted := none }
  | waits (hasks : p.frame.Asks .wait) : Served p { p with status := .blocked }
  | exits {q : Process β} {frame : TrapFrame} {code : Int32} {space : β} (hworks : p.Works q) :
      Served p ({ q with frame }.remains code space)

end Process

namespace ProcessTable

variable {t u v : ProcessTable β} {s : Slot}

/-! ### The slots of bystanders -/

/-- What a call of the process `p` in slot `s` does to another slot: its process is a bystander, or a copy of `p` is
put into it, or an exited process is removed from it. -/
inductive Elsewhere (p : Process β) (s : Slot) : Option (Process β) → Option (Process β) → Prop
  | stays {before after : Option (Process β)} (h : Option.Rel Process.Bystander before after) :
      Elsewhere p s before after
  | forked {pid : UInt64} {space : β} : Elsewhere p s none (some (p.child pid s space))
  | collected {z : Process β} (hzombie : z.isZombie = true) : Elsewhere p s (some z) none

private theorem rel_refl (p : Option (Process β)) : Option.Rel Process.Bystander p p := by
  cases p with
  | none => exact .none
  | some p => exact .some (.refl p)

private theorem rel_map {p : Option (Process β)} {f : Process β → Process β}
    (hf : ∀ q, p = some q → q.Bystander (f q)) : Option.Rel Process.Bystander p (p.map f) := by
  cases p with
  | none => exact .none
  | some p => exact .some (hf p rfl)

private theorem rel_trans {p q r : Option (Process β)} (h : Option.Rel Process.Bystander p q)
    (h' : Option.Rel Process.Bystander q r) : Option.Rel Process.Bystander p r := by
  cases h with
  | none => exact h'
  | some h =>
    cases h' with
    | some h' => exact .some (h.trans h')

private theorem Passes.slot (h : t.Passes u) (s : Slot) : Option.Rel Process.Bystander (t.get s) (u.get s) := by
  obtain ⟨next, hnext, rfl⟩ := h
  obtain ⟨p, hp, hready⟩ := nextReady?_eq_some hnext
  rw [get_switchTo]
  split
  next hs =>
    subst hs
    refine rel_map fun q hq => ?_
    obtain rfl := Option.some.inj (hp.symm.trans hq)
    exact .run hready
  · exact rel_refl _

theorem Works.slot (h : t.Works u) (hs : s ≠ t.current) : u.get s = t.get s := by
  obtain ⟨_, _, _, _, rfl⟩ := h
  exact get_put_of_ne _ hs _

private theorem Suspends.slot (h : t.Suspends u) (hs : s ≠ t.current) :
    Option.Rel Process.Bystander (t.get s) (u.get s) := by
  obtain ⟨p, hp, hpass⟩ := h
  rw [← get_put_of_ne t hs (some { p with status := .ready })]
  exact hpass.slot s

theorem bystander_exitEffect (s : Slot) (z : Process β) (c : Slot) (p : Process β) :
    p.Bystander (t.exitEffect s z c p) := by
  have hadopt : p.Bystander ((t.put s (some z)).adopt s c p) := by
    unfold adopt
    split
    · exact (Process.Bystander.disown p s).trans (.wake _)
    · exact .disown p s
  unfold exitEffect
  split
  · exact hadopt.trans (.post_wake _ _)
  · exact hadopt

private theorem rel_exited (z : Process β) (hs : s ≠ t.current) :
    Option.Rel Process.Bystander (t.get s) ((t.exited t.current z).get s) := by
  rw [get_exited_of_ne z hs]
  exact rel_map fun q _ => bystander_exitEffect _ _ _ _

variable {μ : Type} [MemorySystem μ β]

theorem Exits.slot {code : Int32} (h : t.Exits μ code u) (hs : s ≠ t.current) :
    Option.Rel Process.Bystander (t.get s) (u.get s) := by
  obtain ⟨p, space, hp, hinit, hspace, hpass⟩ := h
  exact rel_trans (rel_exited _ hs) (hpass.slot s)

private theorem CallEffect.elsewhere {f : TrapFrame} {call : Option SystemCall} {r : Except Errno UInt64}
    {p : Process β} (h : t.CallEffect μ f call r u) (hp : t.get t.current = some p) (hs : s ≠ t.current) :
    Elsewhere p t.current (t.get s) (u.get s) := by
  have hsame : ∀ {q}, q = t.get s → Elsewhere p t.current (t.get s) q := fun hq => .stays (hq ▸ rel_refl _)
  cases h with
  | unassigned | forkFull _ | killFails | signalReturnFails _ _ | noChild _ => exact hsame rfl
  | works _ h => exact hsame (h.slot hs)
  | forkFails _ => exact hsame (get_allocPid _ _)
  | @fork c p' space hfree hp' =>
    obtain rfl := Option.some.inj (hp.symm.trans hp')
    rw [get_put]
    split
    next hc => exact hc ▸ (firstFree?_eq_some hfree) ▸ .forked
    · exact hsame (get_allocPid _ _)
  | @kill c q _ hq _ _ =>
    rw [get_put]
    split
    next hc => exact hc ▸ hq ▸ .stays (.some (.post_wake q _))
    · exact hsame rfl
  | exit h => exact .stays (h.slot hs)
  | signalReturn _ _ => exact hsame (get_put_of_ne _ hs _)
  | @collect c z _ _ _ hz hzombie _ h =>
    rw [h.slot (by exact hs), get_put]
    split
    next hc => exact hc ▸ hz ▸ .collected hzombie
    · exact hsame rfl
  | wait _ _ _ _ h =>
    rw [← get_put_of_ne t hs]
    exact .stays (h.slot s)
  | yield h => exact .stays (h.slot hs)

/-- Before signals are delivered, a trap leaves all other processes as bystanders, apart from one that is created or
removed. -/
theorem CauseEffect.elsewhere {p : Process β} (h : t.CauseEffect μ u) (hp : t.get t.current = some p)
    (hs : s ≠ t.current) :
    Elsewhere { p with frame := p.frame.advanced } t.current (t.get s) (u.get s) := by
  cases h with
  | call hp' _ _ h =>
    obtain rfl := Option.some.inj (hp.symm.trans hp')
    have hcall := h.elsewhere (get_put_self _ _ _) (s := s) hs
    rw [get_put_of_ne _ hs] at hcall
    rw [get_modifyAt, if_neg (Ne.symm hs)]
    exact hcall
  | timer _ _ h => exact .stays (h.slot hs)
  | fault _ _ h => exact .stays (h.slot hs ▸ rel_refl _)
  | fatal _ _ _ _ hworks h =>
    rw [← hworks.slot hs]
    exact .stays (h.slot (hworks.current_eq ▸ hs))

/-! ### The slot of the process that trapped -/

theorem Works.self {p : Process β} (h : t.Works u) (hp : t.get t.current = some p) :
    ∃ q, p.Works q ∧ u.get t.current = some q := by
  obtain ⟨p', q, hp', hworks, rfl⟩ := h
  obtain rfl := Option.some.inj (hp.symm.trans hp')
  exact ⟨q, hworks, get_put_self _ _ _⟩

/-- A process that is ready stays so or is chosen to run. -/
private theorem Passes.get_ready {p : Process β} (h : t.Passes u) (hp : t.get s = some p) (hready : p.status = .ready) :
    ∃ status, (status = .ready ∨ status = .running) ∧ u.get s = some { p with status } := by
  obtain ⟨next, -, rfl⟩ := h
  rw [get_switchTo, hp]
  split
  · exact ⟨.running, .inr rfl, rfl⟩
  · exact ⟨.ready, .inl rfl, by rw [← hready]⟩

/-- A process that is not ready is not chosen to run. -/
private theorem Passes.get_of_not_ready {p : Process β} (h : t.Passes u) (hp : t.get s = some p)
    (hready : p.status ≠ .ready) : u.get s = some p := by
  obtain ⟨next, hnext, rfl⟩ := h
  obtain ⟨q, hq, hqready⟩ := nextReady?_eq_some hnext
  rw [get_switchTo, if_neg, hp]
  rintro rfl
  exact hready (Option.some.inj (hp.symm.trans hq) ▸ hqready)

theorem Suspends.self {p : Process β} (h : t.Suspends u) (hp : t.get t.current = some p) :
    ∃ status, (status = .ready ∨ status = .running) ∧ u.get t.current = some { p with status } := by
  obtain ⟨p', hp', hpass⟩ := h
  obtain rfl := Option.some.inj (hp.symm.trans hp')
  exact hpass.get_ready (p := { p with status := .ready }) (get_put_self _ _ _) rfl

theorem Exits.get_current {code : Int32} {p : Process β} (h : t.Exits μ code u) (hp : t.get t.current = some p)
    (hne : p.parent ≠ some t.current) : ∃ space, u.get t.current = some (p.remains code space) := by
  obtain ⟨p', space, hp', hs, -, hpass⟩ := h
  obtain rfl := Option.some.inj (hp.symm.trans hp')
  have hself := get_exited_self (t := t) (z := p.remains code space) hs hne
  exact ⟨space, hpass.get_of_not_ready hself (by simp [Process.remains])⟩

theorem Exits.self {code : Int32} {p : Process β} (h : t.Exits μ code u) (hforest : t.Forest μ)
    (hp : t.get t.current = some p) : ∃ space, u.get t.current = some (p.remains code space) :=
  h.get_current hp fun hparent => hforest.parent_ne hp hparent rfl

theorem CallEffect.self {call : Option SystemCall} {r : Except Errno UInt64} {p : Process β}
    (h : t.CallEffect μ p.frame call r u) (hforest : t.Forest μ) (hp : t.get t.current = some p)
    (hrun : p.status = .running) : ∃ q, p.Called call r q ∧ u.get t.current = some q := by
  have hstays : ∀ {call r q}, p.Works q → (call = some .signalReturn → p.interrupted = none) → p.Called call r q := by
    rintro call r _ ⟨memory, descriptors, actions, hactions, rfl⟩ hreturn
    exact .goesOn ⟨memory, descriptors, actions, hactions, rfl⟩ (.inr hrun) hreturn
  have hsame : ∀ {call r}, call ≠ some .signalReturn → p.Called call r p := fun hcall =>
    hstays (.refl p) fun h => absurd h hcall
  cases h with
  | unassigned | forkFull _ | killFails | noChild _ => exact ⟨p, hsame (by simp), hp⟩
  | @works call _ _ hcall h =>
    obtain ⟨q, hworks, hq⟩ := h.self hp
    refine ⟨q, hstays hworks fun heq => ?_, hq⟩
    rw [Option.some.inj heq] at hcall
    exact absurd hcall (by decide)
  | forkFails _ => exact ⟨p, hsame (by simp), hp⟩
  | @fork s p' space hfree hp' =>
    have hs : t.current ≠ s := by
      rintro rfl
      rw [firstFree?_eq_some hfree] at hp
      exact absurd hp (by simp)
    exact ⟨p, hsame (by simp), by rw [get_put_of_ne _ hs, get_allocPid, hp]⟩
  | @kill s q _ hq _ _ =>
    by_cases hs : t.current = s
    · subst hs
      obtain rfl := Option.some.inj (hp.symm.trans hq)
      -- it sends the signal to itself, and as it runs it need not be woken up
      rw [Process.wake_of_not_blocked (p := p.post _) (by simp [Process.post, hrun])]
      have hposted : p.Called (some .kill) (.ok 0) (p.post p.frame.a1.toNat) :=
        .goesOn (.refl p) (.inr hrun) (by simp)
      exact ⟨_, hposted, get_put_self _ _ _⟩
    · exact ⟨p, hsame (by simp), by rw [get_put_of_ne _ hs, hp]⟩
  | exit h =>
    obtain ⟨space, hq⟩ := h.self hforest hp
    exact ⟨_, .exits, hq⟩
  | signalReturnFails hp' hnone =>
    obtain rfl := Option.some.inj (hp.symm.trans hp')
    exact ⟨p, hstays (.refl p) fun _ => hnone, hp⟩
  | signalReturn hp' hsaved =>
    obtain rfl := Option.some.inj (hp.symm.trans hp')
    exact ⟨_, .goesBack hsaved, get_put_self _ _ _⟩
  | @collect c z _ _ _ hz hzombie _ h =>
    have hc : t.current ≠ c := by
      rintro rfl
      rw [← Option.some.inj (hp.symm.trans hz), Process.isZombie_iff, hrun] at hzombie
      exact absurd hzombie (by simp)
    obtain ⟨q, hworks, hq⟩ := h.self (by rw [current_put, get_put_of_ne _ hc, hp])
    exact ⟨q, hstays hworks (by simp), hq⟩
  | wait _ _ hp' hsepc h =>
    obtain rfl := Option.some.inj (hp.symm.trans hp')
    exact ⟨_, .waits hsepc, h.get_of_not_ready (get_put_self _ _ _) (by simp)⟩
  | yield h =>
    obtain ⟨status, hstatus, hq⟩ := h.self hp
    exact ⟨_, .goesOn (.refl p) hstatus (by simp), hq⟩

end ProcessTable

/-! ### The result of a call -/

namespace Process

@[simp] theorem withResult_pid (w : UInt64) (p : Process β) : (p.withResult w).pid = p.pid := by
  unfold withResult; split <;> rfl

@[simp] theorem withResult_parent (w : UInt64) (p : Process β) : (p.withResult w).parent = p.parent := by
  unfold withResult; split <;> rfl

@[simp] theorem withResult_status (w : UInt64) (p : Process β) : (p.withResult w).status = p.status := by
  unfold withResult; split <;> rfl

/-- A process that is blocked by a call has the result of the call in its registers already. -/
theorem Called.withResult_eq {p q : Process β} {call : Option SystemCall} {r : Except Errno UInt64}
    (h : p.Called call r q) (hrun : p.status = .running) (hb : q.status = .blocked) :
    q.withResult (resultWord r) = q := by
  cases h with
  | goesOn _ hstatus _ => rcases hstatus with h | h <;> exact absurd (h.symm.trans hb) (by simp)
  | goesBack _ => exact absurd (hrun.symm.trans hb) (by simp)
  | waits _ =>
    rw [withResult, if_neg (by simp [isZombie])]
    have hsame : p.frame.rewound.setA0 (resultWord (.ok p.frame.a0)) = p.frame.rewound :=
      TrapFrame.setA0_a0 p.frame.rewound
    rw [hsame]
  | exits => exact absurd hb (by simp [remains])

/-- A process that is blocked after its trap has waited, and it has the registers with which it trapped. -/
theorem Served.blocked {p q : Process β} (h : p.Served q) (hrun : p.status = .running) (hb : q.status = .blocked) :
    p.frame.Asks .wait ∧ q = { p with status := .blocked } := by
  cases h with
  | goesOn _ hstatus _ _ => rcases hstatus with h | h <;> exact absurd (h.symm.trans hb) (by simp)
  | goesBack _ _ => exact absurd (hrun.symm.trans hb) (by simp)
  | waits hasks => exact ⟨hasks, rfl⟩
  | exits _ => exact absurd hb (by simp [remains])

/-- With the result in its registers a process that goes back from a handler or waits has the registers that it had
when it was interrupted or made the call. -/
private theorem Called.served {p q : Process β} {call : Option SystemCall} {r : Except Errno UInt64}
    (h : ({ p with frame := p.frame.advanced } : Process β).Called call r q) (hlive : p.isZombie = false)
    (hcause : TrapCause.ofWord p.frame.scause = .systemCall) (hsepc : p.frame.sepc.toNat + 4 < wordLimit)
    (hcall : SystemCall.ofNumber? p.frame.callNumber.toNat = call) : p.Served (q.withResult (resultWord r)) := by
  cases h with
  | @goesOn _ r q status pending hworks hstatus hreturn =>
    obtain ⟨memory, descriptors, actions, hactions, rfl⟩ := hworks
    rw [withResult, if_neg (by rcases hstatus with h | h <;> simp [isZombie, h])]
    have hself : p.Works { p with memory, descriptors, actions } := ⟨_, _, _, hactions, rfl⟩
    have hgoes : p.Served
        { p with memory, descriptors, actions, frame := p.frame.advanced.setA0 (resultWord r), status, pending } :=
      .goesOn hself hstatus (fun hasks => hreturn (hcall.symm.trans hasks.2)) (.inr ⟨hcause, _, rfl⟩)
    exact hgoes
  | @goesBack saved hsaved =>
    have hlive' : ¬p.status = .zombie := isZombie_eq_false_iff.mp hlive
    rw [withResult, if_neg (by simpa [isZombie] using hlive')]
    have hback := Served.goesBack (p := p) ⟨hcause, hcall⟩ hsaved
    simpa [resultWord] using hback
  | waits _ =>
    rw [withResult, if_neg (by simp [isZombie])]
    have hwaits := Served.waits (p := p) ⟨hcause, hcall⟩
    simpa [resultWord, TrapFrame.rewound_advanced hsepc] using hwaits
  | exits =>
    rw [withResult, if_pos (by simp [isZombie, remains])]
    exact .exits (.refl p)

end Process

namespace ProcessTable

variable {μ : Type} [MemorySystem μ β] {t u : ProcessTable β}

/-- What becomes of the process that trapped, before signals are delivered. -/
theorem CauseEffect.self {p : Process β} (h : t.CauseEffect μ u) (hforest : t.Forest μ)
    (hp : t.get t.current = some p) (hrun : p.status = .running) : ∃ q, p.Served q ∧ u.get t.current = some q := by
  have hlive : p.isZombie = false := Process.isZombie_eq_false_iff.mpr (by simp [hrun])
  cases h with
  | call hp' hcause hsepc h =>
    obtain rfl := Option.some.inj (hp.symm.trans hp')
    obtain ⟨hforest', -⟩ := (move_of_frame (μ := μ) hp hlive p.frame.advanced).forest hforest ⟨p, hp, hrun⟩
    obtain ⟨q, hcalled, hq⟩ := h.self hforest' (get_put_self _ _ _) hrun
    refine ⟨_, hcalled.served hlive hcause hsepc rfl, ?_⟩
    rw [current_put] at hq
    rw [get_modifyAt, if_pos rfl, hq, Option.map_some]
  | timer hp' hcause h =>
    obtain rfl := Option.some.inj (hp.symm.trans hp')
    obtain ⟨status, hstatus, hq⟩ := h.self hp
    have hasks : ¬p.frame.Asks .signalReturn := fun h => by rw [h.1] at hcause; exact absurd hcause (by simp)
    exact ⟨_, .goesOn (.refl p) hstatus (fun h => absurd h hasks) (.inl ⟨by simp [hcause], rfl⟩), hq⟩
  | fault hp' hcause h =>
    obtain rfl := Option.some.inj (hp.symm.trans hp')
    obtain ⟨q, ⟨memory, descriptors, actions, hactions, rfl⟩, hq⟩ := h.self hp
    have hcall : TrapCause.ofWord p.frame.scause ≠ .systemCall := by rcases hcause with h | h <;> simp [h]
    have hself : p.Works { p with memory, descriptors, actions } := ⟨_, _, _, hactions, rfl⟩
    have hgoes : p.Served { p with memory, descriptors, actions } :=
      .goesOn hself (.inr hrun) (fun h => absurd h.1 hcall) (.inl ⟨hcall, rfl⟩)
    exact ⟨_, hgoes, hq⟩
  | fatal hp' hcall _ _ hworks h =>
    obtain ⟨q, hq, hget⟩ := hworks.self hp
    obtain ⟨hforest', -⟩ := (hworks.move (μ := μ) ⟨p, hp, hrun⟩).forest hforest ⟨p, hp, hrun⟩
    rw [← hworks.current_eq] at hget
    obtain ⟨space, hexit⟩ := h.self hforest' hget
    exact ⟨_, .exits hq, hworks.current_eq ▸ hexit⟩

/-! ### The delivery of signals -/

/-- What comes before the delivery of signals may be counted as a part of it. -/
private theorem settled_of_rel {p q r : Option (Process β)} (h : Option.Rel Process.Bystander p q)
    (h' : Option.Rel Process.Settled q r) : Option.Rel Process.Settled p r := by
  cases h with
  | none => exact h'
  | some h =>
    cases h' with
    | some h' => exact .some (h.settled h')

private theorem rel_settled {p q : Option (Process β)} (h : Option.Rel Process.Bystander p q) :
    Option.Rel Process.Settled p q := by
  cases h with
  | none => exact .none
  | some h => exact .some (.stays h)

/-- A delivery does to the other processes no more than to bystanders. -/
theorem Delivers.slot {more : Bool} (h : t.Delivers μ more u) {s : Slot} (hs : s ≠ t.current) :
    Option.Rel Process.Bystander (t.get s) (u.get s) := by
  cases h with
  | done _ _ => exact rel_refl _
  | enter _ _ _ => exact get_put_of_ne t hs _ ▸ rel_refl _
  | drop _ _ _ => exact get_put_of_ne t hs _ ▸ rel_refl _
  | terminate _ _ _ _ h => exact h.slot hs

/-- What the delivery of signals makes of each process. -/
theorem Settles.slot (h : t.Settles μ u) (hforest : t.Forest μ) (hr : t.Running) (s : Slot) :
    Option.Rel Process.Settled (t.get s) (u.get s) := by
  induction h with
  | @stop t u h =>
    by_cases hs : s = t.current
    · subst hs
      obtain ⟨p, hp, hrun⟩ := hr
      cases h with
      | done _ _ => exact rel_settled (rel_refl _)
      | @enter p' n entry hp' hn hentry =>
        obtain rfl := Option.some.inj (hp.symm.trans hp')
        rw [hp, get_put_self]
        exact .some (.enters (.refl p) hrun hn hentry)
    · exact rel_settled (h.slot hs)
  | @more t u v h hrest ih =>
    obtain ⟨hforest', hr'⟩ := forest_of_moves (h.moves hr) hforest hr
    have hrel := ih hforest' hr'
    by_cases hs : s = t.current
    · subst hs
      obtain ⟨p, hp, hrun⟩ := hr
      cases h with
      | @drop p' n hp' hn hdrop =>
        obtain rfl := Option.some.inj (hp.symm.trans hp')
        rw [get_put_self] at hrel
        rw [hp]
        exact settled_of_rel (.some (.take (by simp [hrun]) n)) hrel
      | @terminate p' n _ hp' hn _ _ hexits =>
        obtain rfl := Option.some.inj (hp.symm.trans hp')
        obtain ⟨space, hz⟩ := hexits.self hforest hp
        rw [hz] at hrel
        rw [hp]
        -- what is delivered after the exit concerns the process that runs next
        generalize v.get t.current = after at hrel ⊢
        cases hrel with
        | some hz => exact .some (.exits (.refl p) (by simp [Process.isZombie, hrun]) hn (hz.of_isZombie rfl))
    · exact settled_of_rel (h.slot hs) hrel

/-! ### A whole trap -/

/-- What a trap makes of the process that trapped. -/
theorem Traps.self {f : TrapFrame} {p : Process β} (h : t.Traps μ f u) (hforest : t.Forest μ) (hr : t.Running)
    (hp : t.get t.current = some p) :
    ∃ q r, ({ p with frame := f } : Process β).Served q ∧ q.Settled r ∧ u.get t.current = some r := by
  obtain ⟨p', t₁, t₂, hp', hrun, -, rfl, hforest₁, -, hcause, hforest₂, hr₂, hsettles⟩ := h.stages hforest hr
  obtain rfl := Option.some.inj (hp'.symm.trans hp)
  obtain ⟨q, hserved, hq⟩ := hcause.self hforest₁ (get_put_self _ _ _) hrun
  have hsettled := hsettles.slot hforest₂ hr₂ t.current
  rw [current_put] at hq
  rw [hq] at hsettled
  generalize u.get t.current = after at hsettled ⊢
  cases hsettled with
  | some h => exact ⟨q, _, hserved, h, rfl⟩

/-- What a trap makes of another process that has not exited. -/
theorem Traps.other {f : TrapFrame} {s : Slot} {p : Process β} (h : t.Traps μ f u) (hforest : t.Forest μ)
    (hr : t.Running) (hs : s ≠ t.current) (hp : t.get s = some p) (hlive : p.isZombie = false) :
    ∃ q, p.Settled q ∧ u.get s = some q := by
  obtain ⟨_, t₁, t₂, -, -, -, rfl, hforest₁, -, hcause, hforest₂, hr₂, hsettles⟩ := h.stages hforest hr
  have helsewhere := hcause.elsewhere (s := s) (get_put_self _ _ _) hs
  have hsettled := hsettles.slot hforest₂ hr₂ s
  rw [get_put_of_ne _ hs, hp] at helsewhere
  generalize t₂.get s = between at helsewhere hsettled
  generalize u.get s = after at hsettled ⊢
  cases helsewhere with
  | stays hrel =>
    cases settled_of_rel hrel hsettled with
    | some h => exact ⟨_, h, rfl⟩
  | collected hzombie => exact absurd hzombie (by simp [hlive])

/-- A process that is there after a trap and did not trap itself was there before, or it is a copy of the one that
trapped. -/
theorem Traps.origin {f : TrapFrame} {s : Slot} {q : Process β} (h : t.Traps μ f u) (hforest : t.Forest μ)
    (hr : t.Running) (hs : s ≠ t.current) (hq : u.get s = some q) :
    (∃ p, t.get s = some p ∧ p.Settled q) ∨ ∃ p pid space, t.get t.current = some p ∧ t.get s = none ∧
      (({ p with frame := f.advanced } : Process β).child pid t.current space).Settled q := by
  obtain ⟨p, t₁, t₂, hp, -, -, rfl, hforest₁, -, hcause, hforest₂, hr₂, hsettles⟩ := h.stages hforest hr
  have helsewhere := hcause.elsewhere (s := s) (get_put_self _ _ _) hs
  have hsettled := hsettles.slot hforest₂ hr₂ s
  rw [get_put_of_ne _ hs, current_put] at helsewhere
  rw [hq] at hsettled
  generalize t₂.get s = between at helsewhere hsettled
  generalize t.get s = before at helsewhere ⊢
  cases helsewhere with
  | stays hrel =>
    cases settled_of_rel hrel hsettled with
    | some h => exact .inl ⟨_, rfl, h⟩
  | forked =>
    cases hsettled with
    | some h => exact .inr ⟨p, _, _, hp, rfl, h⟩
  | collected _ => exact absurd hsettled (by rintro ⟨⟩)

end ProcessTable

end TrapKernel
