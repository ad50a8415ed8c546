import TrapKernel.Kernel.Trap
import TrapKernel.Proofs.Process.Forest
import TrapKernel.Proofs.Trap.Frame

/-!
# The effect of a trap on the process table

What a trap does to the process table, said once and for all, with a constructor for each thing that can happen: what a
system call does and what its result is (`ProcessTable.CallEffect`), what is done for the cause of a trap
(`ProcessTable.CauseEffect`), and how signals are delivered after that (`ProcessTable.Delivers`,
`ProcessTable.Settles`). A relation tells when a thing can happen as well, so later proofs open neither the calls nor
the scheduler.

* `ProcessTable.Traps.moves`: a whole trap is made of moves.
-/

namespace TrapKernel

variable {β : Type}

namespace SystemCall

/-- Whether a system call touches at most the memory, the descriptors and the signal actions of its caller. -/
def isLocal (call : SystemCall) : Bool := call ∉ [fork, kill, exit, signalReturn, wait, yield]

end SystemCall

namespace Process

/-- Whether a process has worked on what is its own: its memory, its descriptors and its signal actions, apart from
those of the two signals that cannot be caught. -/
def Works (p q : Process β) : Prop :=
  ∃ memory descriptors actions, (∀ n, isCatchable n = false → actions.action n = p.actions.action n) ∧
    q = { p with memory, descriptors, actions }

theorem Works.refl (p : Process β) : p.Works p := ⟨_, _, _, fun _ _ => rfl, rfl⟩

private theorem Works.trans {p q r : Process β} (h : p.Works q) (h' : q.Works r) : p.Works r := by
  obtain ⟨_, _, _, hactions, rfl⟩ := h
  obtain ⟨_, _, _, hactions', rfl⟩ := h'
  exact ⟨_, _, _, fun n hn => (hactions' n hn).trans (hactions n hn), rfl⟩

theorem Works.of_memory (p : Process β) (memory : UserMemory β) : p.Works { p with memory } :=
  ⟨_, _, _, fun _ _ => rfl, rfl⟩

theorem Works.of_descriptors (p : Process β) (descriptors : Descriptors) : p.Works { p with descriptors } :=
  ⟨_, _, _, fun _ _ => rfl, rfl⟩

theorem Works.of_install (p : Process β) {n : Nat} (hn : isCatchable n = true) (action : SignalAction) :
    p.Works { p with actions := p.actions.install n action } := by
  refine ⟨_, _, _, fun m hm => ?_, rfl⟩
  have hne : n ≠ m := by rintro rfl; rw [hn] at hm; exact absurd hm (by simp)
  simp [SignalActions.action, SignalActions.install, Vector.getElem?_setIfInBounds_ne hne]

/-- The process with the result of its system call, unless it has exited. -/
def withResult (w : UInt64) (p : Process β) : Process β :=
  if p.isZombie then p else { p with frame := p.frame.setA0 w }

end Process

namespace ProcessTable

/-! ### What happens to a table -/

/-- The hart passes to the next ready process. -/
def Passes (t u : ProcessTable β) : Prop := ∃ next, t.nextReady? = some next ∧ u = t.switchTo next

/-- The running process has worked on what is its own. -/
def Works (t u : ProcessTable β) : Prop :=
  ∃ p q, t.get t.current = some p ∧ p.Works q ∧ u = t.put t.current (some q)

/-- The running process gives way to the next ready one, which may be itself. -/
def Suspends (t u : ProcessTable β) : Prop :=
  ∃ p, t.get t.current = some p ∧ (t.put t.current (some { p with status := .ready })).Passes u

variable (μ : Type) [MemorySystem μ β]

/-- The running process, which is not the first one, exits with a code. -/
def Exits (code : Int32) (t u : ProcessTable β) : Prop :=
  ∃ p space, t.get t.current = some p ∧ t.current ≠ .init ∧ MemorySystem.Dropped μ space ∧
    (t.exited t.current (p.remains code space)).Passes u

/-- What a system call with the registers `f` does to the process table, and its result. There is no call for a number
that is not assigned. -/
inductive CallEffect (f : TrapFrame) (t : ProcessTable β) :
    Option SystemCall → Except Errno UInt64 → ProcessTable β → Prop
  | unassigned : CallEffect f t none (.error .noSystemCall) t
  | works {call : SystemCall} {r : Except Errno UInt64} {u : ProcessTable β} (hcall : call.isLocal = true)
      (h : t.Works u) : CallEffect f t (some call) r u
  | forkFull (hfull : t.firstFree? = none) : CallEffect f t (some .fork) (.error .tryAgain) t
  | forkFails (hfree : t.firstFree?.isSome) : CallEffect f t (some .fork) (.error .noMemory) t.allocPid.2
  | fork {s : Slot} {p : Process β} {space : β} (hfree : t.firstFree? = some s) (hp : t.get t.current = some p) :
      CallEffect f t (some .fork) (.ok t.allocPid.1)
        (t.allocPid.2.put s (some (p.child t.allocPid.1 t.current space)))
  | killFails {e : Errno} : CallEffect f t (some .kill) (.error e) t
  | kill {s : Slot} {q : Process β} (hfind : t.findPid? f.a0 = some s) (hq : t.get s = some q)
      (hlive : q.isZombie = false) (hn : isSignal f.a1.toNat = true) :
      CallEffect f t (some .kill) (.ok 0) (t.put s (some (q.post f.a1.toNat).wake))
  | exit {u : ProcessTable β} (h : t.Exits μ f.a0.toUInt32.toInt32 u) : CallEffect f t (some .exit) (.ok 0) u
  | signalReturnFails {p : Process β} (hp : t.get t.current = some p) (hnone : p.interrupted = none) :
      CallEffect f t (some .signalReturn) (.error .invalid) t
  | signalReturn {p : Process β} {saved : SavedContext} (hp : t.get t.current = some p)
      (hsaved : p.interrupted = some saved) :
      CallEffect f t (some .signalReturn) (.ok saved.frame.a0)
        (t.put t.current (some { p with frame := saved.frame, mask := saved.mask, interrupted := none }))
  | noChild (hnone : t.waitedFor t.current (.ofWord f.a0) = []) :
      CallEffect f t (some .wait) (.error .noChild) t
  | collect {c : Slot} {z : Process β} {r : Except Errno UInt64} {u : ProcessTable β}
      (hfind : (t.waitedFor t.current (.ofWord f.a0)).find? (fun c => t.hasStatus c .zombie) = some c)
      (hz : t.get c = some z) (hzombie : z.isZombie = true) (hr : ∀ w, r = .ok w → w = z.pid)
      (h : (t.put c none).Works u) : CallEffect f t (some .wait) r u
  | wait {p : Process β} {u : ProcessTable β} (hsome : t.waitedFor t.current (.ofWord f.a0) ≠ [])
      (hnone : ∀ c ∈ t.waitedFor t.current (.ofWord f.a0), t.hasStatus c .zombie = false)
      (hp : t.get t.current = some p) (hsepc : 4 ≤ p.frame.sepc.toNat)
      (h : (t.put t.current (some { p with frame := p.frame.rewound, status := .blocked })).Passes u) :
      CallEffect f t (some .wait) (.ok f.a0) u
  | yield {u : ProcessTable β} (h : t.Suspends u) : CallEffect f t (some .yield) (.ok 0) u

/-- What is done for the cause of a trap of the running process, before signals are delivered. -/
inductive CauseEffect (t : ProcessTable β) : ProcessTable β → Prop
  | call {p : Process β} {r : Except Errno UInt64} {u : ProcessTable β} (hp : t.get t.current = some p)
      (hcause : TrapCause.ofWord p.frame.scause = .systemCall) (hsepc : p.frame.sepc.toNat + 4 < wordLimit)
      (h : CallEffect μ p.frame.advanced (t.put t.current (some { p with frame := p.frame.advanced }))
        (SystemCall.ofNumber? p.frame.callNumber.toNat) r u) :
      CauseEffect t (u.modifyAt t.current (Process.withResult (resultWord r)))
  | timer {p : Process β} {u : ProcessTable β} (hp : t.get t.current = some p)
      (hcause : TrapCause.ofWord p.frame.scause = .timer) (h : t.Suspends u) : CauseEffect t u
  | fault {p : Process β} {u : ProcessTable β} (hp : t.get t.current = some p)
      (hcause : TrapCause.ofWord p.frame.scause = .loadPageFault ∨ TrapCause.ofWord p.frame.scause = .storePageFault)
      (h : t.Works u) : CauseEffect t u
  | fatal {p : Process β} {code : Int32} {u v : ProcessTable β} (hp : t.get t.current = some p)
      (hcall : TrapCause.ofWord p.frame.scause ≠ .systemCall) (htimer : TrapCause.ofWord p.frame.scause ≠ .timer)
      (hcode : code = if TrapCause.ofWord p.frame.scause = .illegalInstruction then -3 else -2)
      (hworks : t.Works u) (h : u.Exits μ code v) : CauseEffect t v

/-- The next signal of the running process is delivered, if there is one. The answer tells whether there may be more
to deliver. -/
inductive Delivers (t : ProcessTable β) : Bool → ProcessTable β → Prop
  | done {p : Process β} (hp : t.get t.current = some p) (hnone : p.nextSignal? = none) : Delivers t false t
  | enter {p : Process β} {n : Nat} {entry : UInt64} (hp : t.get t.current = some p) (hn : p.nextSignal? = some n)
      (hentry : (p.actions.action n).handler = .user entry) :
      Delivers t false (t.put t.current (some ((p.take n).enterHandler n entry)))
  | drop {p : Process β} {n : Nat} (hp : t.get t.current = some p) (hn : p.nextSignal? = some n)
      (hdrop : (p.actions.action n).handler = .ignore ∨
        (p.actions.action n).handler = .default ∧ (defaultAction n = .ignore ∨ t.current = .init)) :
      Delivers t true (t.put t.current (some (p.take n)))
  | terminate {p : Process β} {n : Nat} {u : ProcessTable β} (hp : t.get t.current = some p)
      (hn : p.nextSignal? = some n) (hdefault : (p.actions.action n).handler = .default)
      (hfatal : defaultAction n = .terminate) (h : t.Exits μ (Int32.ofInt (-(n : Int))) u) : Delivers t true u

/-- Signals are delivered until there may be no more to deliver. -/
inductive Settles : ProcessTable β → ProcessTable β → Prop
  | stop {t u : ProcessTable β} (h : t.Delivers μ false u) : Settles t u
  | more {t u v : ProcessTable β} (h : t.Delivers μ true u) (hrest : Settles u v) : Settles t v

/-- The running process traps with the registers `f`: what its cause asks for is done, and signals are delivered. -/
def Traps (f : TrapFrame) (t v : ProcessTable β) : Prop :=
  ∃ p u, t.get t.current = some p ∧ (t.put t.current (some { p with frame := f })).CauseEffect μ u ∧ u.Settles μ v

variable {μ} {t u v : ProcessTable β}

/-! ### All of it is made of moves -/

theorem put_put (t : ProcessTable β) (s : Slot) (p q : Option (Process β)) : (t.put s p).put s q = t.put s q := by
  simp [put]

theorem Works.refl {p : Process β} (hp : t.get t.current = some p) : t.Works t :=
  ⟨p, p, hp, .refl p, by rw [← hp, put_get]⟩

theorem Works.current_eq (h : t.Works u) : u.current = t.current := by
  obtain ⟨_, _, _, _, rfl⟩ := h
  rfl

private theorem Works.trans (h : t.Works u) (h' : u.Works v) : t.Works v := by
  obtain ⟨p, q, hp, hw, rfl⟩ := h
  obtain ⟨q', r, hq, hw', rfl⟩ := h'
  rw [current_put, get_put_self, Option.some.injEq] at hq
  subst hq
  exact ⟨p, r, hp, hw.trans hw', by rw [current_put, put_put]⟩

theorem Works.current (h : t.Works u) : ∃ p, u.get u.current = some p := by
  obtain ⟨_, q, _, _, rfl⟩ := h
  exact ⟨q, by rw [current_put, get_put_self]⟩

/-- The running process works on. -/
theorem Works.edit (h : t.Works u) {p q : Process β} (hp : u.get u.current = some p) (hw : p.Works q) :
    t.Works (u.put u.current (some q)) :=
  h.trans ⟨p, q, hp, hw, rfl⟩

/-- That a signal was taken from the running process before it exits does not matter. -/
theorem Exits.of_take {code : Int32} {n : Nat} {p : Process β} (hp : t.get t.current = some p)
    (h : (t.put t.current (some (p.take n))).Exits μ code u) : t.Exits μ code u := by
  obtain ⟨q, space, hq, hs, hspace, hpass⟩ := h
  rw [current_put, get_put_self, Option.some.injEq] at hq
  subst hq
  refine ⟨p, space, hp, hs, hspace, ?_⟩
  have hexited : (t.put t.current (some (p.take n))).exited t.current ((p.take n).remains code space) =
      t.exited t.current (p.remains code space) := by
    unfold exited
    rw [put_put]
    rfl
  rwa [current_put, hexited] at hpass

/-- Any number of moves. -/
abbrev Moves (μ : Type) [MemorySystem μ β] : ProcessTable β → ProcessTable β → Prop :=
  Relation.ReflTransGen (Move μ)

theorem Works.move (h : t.Works u) (hr : t.Running) : Move μ t u := by
  obtain ⟨p, q, hp, ⟨_, _, _, _, rfl⟩, rfl⟩ := h
  have hlive := hr.isZombie_eq_false hp
  exact .edit hp hlive rfl rfl rfl

private theorem Suspends.move (h : t.Suspends u) : Move μ t u := by
  obtain ⟨p, hp, next, hnext, rfl⟩ := h
  exact .switch (.suspend hp) hnext

private theorem Exits.move {code : Int32} (h : t.Exits μ code u) : Move μ t u := by
  obtain ⟨p, space, hp, hs, hspace, next, hnext, rfl⟩ := h
  exact .switch (.exit hp hs hspace) hnext

/-- A process that waits has a child that has not exited. -/
theorem exists_live_of_waitedFor {s : Slot} {target : WaitTarget} (hsome : t.waitedFor s target ≠ [])
    (hnone : ∀ c ∈ t.waitedFor s target, t.hasStatus c .zombie = false) :
    ∃ c q, t.get c = some q ∧ q.parent = some s ∧ q.isZombie = false := by
  obtain ⟨c, hc⟩ := List.exists_mem_of_ne_nil _ hsome
  obtain ⟨q, hq, hparent⟩ := mem_children.mp (List.mem_filter.mp hc).1
  refine ⟨c, q, hq, hparent, ?_⟩
  have hstatus := hnone c hc
  rw [hasStatus, hq] at hstatus
  exact hstatus

theorem CallEffect.moves {f : TrapFrame} {call : Option SystemCall} {r : Except Errno UInt64}
    (h : t.CallEffect μ f call r u) (hforest : t.Forest μ) (hr : t.Running) : Moves μ t u := by
  obtain ⟨p', hp', hlive'⟩ := hr.live
  cases h with
  | unassigned | forkFull _ | killFails | signalReturnFails _ _ | noChild _ => exact .refl
  | works _ h => exact .single (h.move hr)
  | forkFails _ => exact .single .countPid
  | fork hfree hp => exact .single (.fork (firstFree?_eq_some hfree) hp)
  | @kill s q _ hq hlive _ =>
    have hpost : Move μ t (t.put s (some (q.post f.a1.toNat))) := .edit hq hlive rfl rfl rfl
    refine (Relation.ReflTransGen.single hpost).tail ?_
    have hwake : (t.put s (some (q.post f.a1.toNat))).wake s = t.put s (some (q.post f.a1.toNat).wake) := by
      rw [wake, modifyAt_eq_put (get_put_self _ _ _), put_put]
    exact hwake ▸ .wake
  | exit h => exact .single h.move
  | signalReturn hp _ =>
    obtain rfl := Option.some.inj (hp.symm.trans hp')
    exact .single (.edit hp hlive' rfl rfl rfl)
  | @collect c z _ _ hfind hz hzombie _ h =>
    have hc : c ∈ t.children t.current := (List.mem_filter.mp (List.mem_of_find?_eq_some hfind)).1
    obtain ⟨z', hz', hparent⟩ := mem_children.mp hc
    obtain rfl := Option.some.inj (hz.symm.trans hz')
    have hreap : Move μ t (t.put c none) := .reap hz hzombie hparent
    exact (Relation.ReflTransGen.single hreap).tail (h.move (hreap.forest hforest hr).2)
  | wait hsome hnone hp _ h =>
    obtain rfl := Option.some.inj (hp'.symm.trans hp)
    obtain ⟨next, hnext, rfl⟩ := h
    obtain ⟨c, q, hq, hparent, hqlive⟩ := exists_live_of_waitedFor hsome hnone
    have hback : Move μ t (t.put t.current (some { p' with frame := p'.frame.rewound })) :=
      .edit hp hlive' rfl rfl rfl
    have hq' : (t.put t.current (some { p' with frame := p'.frame.rewound })).get c = some q := by
      rw [get_put_of_ne _ (hforest.parent_ne hq hparent).symm, hq]
    have hblock := Yields.block (μ := μ) (get_put_self _ _ _) hq' hparent hqlive
    rw [current_put, put_put] at hblock
    exact (Relation.ReflTransGen.single hback).tail (.switch hblock hnext)
  | yield h => exact .single h.move

/-- A frame that is replaced in a process that has not exited is a move. -/
theorem move_of_frame {s : Slot} {p : Process β} (hp : t.get s = some p) (hlive : p.isZombie = false)
    (frame : TrapFrame) : Move μ t (t.put s (some { p with frame })) :=
  .edit hp hlive rfl rfl rfl

private theorem moves_withResult (s : Slot) (w : UInt64) : Moves μ t (t.modifyAt s (Process.withResult w)) := by
  by_cases hlive : ∃ p, t.get s = some p ∧ p.isZombie = false
  · obtain ⟨p, hp, hlive⟩ := hlive
    rw [modifyAt_eq_put hp, Process.withResult, if_neg (by simp [hlive])]
    exact .single (move_of_frame hp hlive _)
  · have hsame : t.modifyAt s (Process.withResult w) = t := modifyAt_of_eq fun p hp => if_pos <| by
      by_contra hz
      exact hlive ⟨p, hp, by simpa using hz⟩
    rw [hsame]

theorem CauseEffect.moves (h : t.CauseEffect μ u) (hforest : t.Forest μ) (hr : t.Running) : Moves μ t u := by
  obtain ⟨p', hp', hlive⟩ := hr.live
  cases h with
  | call hp _ _ h =>
    obtain rfl := Option.some.inj (hp'.symm.trans hp)
    have hmove := move_of_frame (μ := μ) hp hlive p'.frame.advanced
    obtain ⟨hforest', hr'⟩ := hmove.forest hforest hr
    exact (Relation.ReflTransGen.head hmove (h.moves hforest' hr')).trans (moves_withResult _ _)
  | timer _ _ h => exact .single h.move
  | fault _ _ h => exact .single (h.move hr)
  | fatal _ _ _ _ hworks h => exact .tail (.single (hworks.move hr)) h.move

theorem Delivers.moves {more : Bool} (h : t.Delivers μ more u) (hr : t.Running) : Moves μ t u := by
  obtain ⟨p', hp', hlive⟩ := hr.live
  cases h with
  | done _ _ => exact .refl
  | enter hp _ _ =>
    obtain rfl := Option.some.inj (hp'.symm.trans hp)
    exact .single (.edit hp hlive rfl rfl rfl)
  | drop hp _ _ =>
    obtain rfl := Option.some.inj (hp'.symm.trans hp)
    exact .single (.edit hp hlive rfl rfl rfl)
  | terminate _ _ _ _ h => exact .single h.move

private theorem Settles.moves (h : t.Settles μ u) (hforest : t.Forest μ) (hr : t.Running) : Moves μ t u := by
  induction h with
  | stop h => exact h.moves hr
  | more h _ ih =>
    have hmoves := h.moves hr
    obtain ⟨hforest', hr'⟩ := forest_of_moves hmoves hforest hr
    exact hmoves.trans (ih hforest' hr')

/-- The stages of a trap: the registers are saved, what the cause asks for is done, and signals are delivered. At each
of them the processes are a forest and one of them is running. -/
theorem Traps.stages {f : TrapFrame} (h : t.Traps μ f u) (hforest : t.Forest μ) (hr : t.Running) :
    ∃ p t₁ t₂, t.get t.current = some p ∧ p.status = .running ∧ p.isZombie = false ∧
      t₁ = t.put t.current (some { p with frame := f }) ∧ t₁.Forest μ ∧ t₁.Running ∧ t₁.CauseEffect μ t₂ ∧
        t₂.Forest μ ∧ t₂.Running ∧ t₂.Settles μ u := by
  obtain ⟨p, t₂, hp, hcause, hsettles⟩ := h
  obtain ⟨p', hp', hrun⟩ := id hr
  obtain rfl := Option.some.inj (hp'.symm.trans hp)
  have hlive : p'.isZombie = false := Process.isZombie_eq_false_iff.mpr (by simp [hrun])
  obtain ⟨hforest₁, hr₁⟩ := (move_of_frame (μ := μ) hp hlive f).forest hforest hr
  obtain ⟨hforest₂, hr₂⟩ := forest_of_moves (hcause.moves hforest₁ hr₁) hforest₁ hr₁
  exact ⟨p', _, t₂, hp, hrun, hlive, rfl, hforest₁, hr₁, hcause, hforest₂, hr₂, hsettles⟩

theorem Traps.moves {f : TrapFrame} (h : t.Traps μ f u) (hforest : t.Forest μ) (hr : t.Running) : Moves μ t u := by
  obtain ⟨p, t₁, t₂, hp, -, hlive, rfl, hforest₁, hr₁, hcause, hforest₂, hr₂, hsettles⟩ := h.stages hforest hr
  have hmoves := Relation.ReflTransGen.head (move_of_frame (μ := μ) hp hlive f) (hcause.moves hforest₁ hr₁)
  exact hmoves.trans (hsettles.moves hforest₂ hr₂)

end ProcessTable

end TrapKernel
