import TrapKernel.Proofs.Kernel.Reachable
import TrapKernel.Proofs.Process.Handlers

/-!
# Signal handlers

A process that is interrupted by a signal handler does not notice: what it did is saved when the handler is entered,
nothing that happens while the handler runs changes what was saved, and when the handler returns all registers and the
mask are what they were.

* `Kernel.Reachable.handlers`: the saved context in reachable states.
-/

namespace TrapKernel

variable {β : Type}

namespace Process

/-- Whether two processes were interrupted by the same handler, or none of them was, and hold off the same signals. -/
def SameHandler (p q : Process β) : Prop := q.interrupted = p.interrupted ∧ q.mask = p.mask

/-- Whether no signals are held off, except while a handler runs. -/
structure Unmasked (p : Process β) : Prop where
  mask : p.isZombie = false → p.interrupted = none → p.mask = .empty
  saved : ∀ saved, p.interrupted = some saved → saved.mask = .empty

private theorem Unmasked.of_sameHandler {p q : Process β} (h : p.Unmasked) (hsame : p.SameHandler q)
    (hzombie : q.isZombie = false → p.isZombie = false) : q.Unmasked where
  mask hlive hnone := hsame.2.trans (h.mask (hzombie hlive) (hsame.1.symm.trans hnone))
  saved saved hsaved := h.saved saved (hsame.1.symm.trans hsaved)

private theorem Bystander.sameHandler {p q : Process β} (h : p.Bystander q) : p.SameHandler q := ⟨h.interrupted, h.mask⟩

private theorem Bystander.unmasked {p q : Process β} (h : p.Bystander q) (hp : p.Unmasked) : q.Unmasked :=
  hp.of_sameHandler h.sameHandler fun hlive => h.isZombie.symm.trans hlive

/-- What is left of an exited process is not about to return from a handler. -/
private theorem unmasked_remains (p : Process β) (code : Int32) (space : β) : (p.remains code space).Unmasked where
  mask hlive := absurd hlive (by simp [remains, isZombie])
  saved _ hsaved := absurd hsaved (by simp [remains])

private theorem Settled.unmasked {p q : Process β} (h : p.Settled q) (hp : p.Unmasked) : q.Unmasked := by
  cases h with
  | stays h => exact h.unmasked hp
  | @enters q n entry h hrun hn hentry =>
    have hq := h.unmasked hp
    have hlive : q.isZombie = false := isZombie_eq_false_iff.mpr (by simp [hrun])
    refine ⟨fun _ hnone => absurd hnone (by simp [enterHandler]), fun saved hsaved => ?_⟩
    obtain rfl := Option.some.inj hsaved
    exact hq.mask hlive (interrupted_of_nextSignal? hn hentry)
  | exits _ _ _ hr => exact hr.unmasked (unmasked_remains _ _ _)

private theorem Served.unmasked {p q : Process β} (h : p.Served q) (hlive : p.isZombie = false) (hp : p.Unmasked) :
    q.Unmasked := by
  cases h with
  | goesOn hworks _ _ _ =>
    obtain ⟨_, _, _, -, rfl⟩ := hworks
    exact hp.of_sameHandler ⟨rfl, rfl⟩ fun _ => hlive
  | @goesBack saved _ hsaved =>
    exact ⟨fun _ _ => hp.saved saved hsaved, fun _ h => absurd h (by simp)⟩
  | waits _ => exact hp.of_sameHandler ⟨rfl, rfl⟩ fun _ => hlive
  | exits _ => exact unmasked_remains _ _ _

/-- The delivery of signals to a process that does not exit leaves what was saved alone, or it saves what the process
did, if nothing was saved. -/
private theorem Settled.saved {p q : Process β} (h : p.Settled q) :
    q.pid = p.pid ∧ (q.isZombie = true ∨ q.interrupted = p.interrupted ∧ q.mask = p.mask ∧ q.frame = p.frame ∨
      p.interrupted = none ∧ q.interrupted = some ⟨p.frame, p.mask⟩) := by
  cases h with
  | stays h => exact ⟨h.pid, .inr (.inl ⟨h.interrupted, h.mask, h.frame⟩)⟩
  | @enters q n entry h _ hn hentry =>
    have hnone := h.interrupted.symm.trans (interrupted_of_nextSignal? hn hentry)
    refine ⟨h.pid, .inr (.inr ⟨hnone, ?_⟩)⟩
    rw [← h.frame, ← h.mask]
    rfl
  | exits h _ _ hr => exact ⟨hr.pid.trans h.pid, .inl (hr.isZombie.trans rfl)⟩

/-- A process that runs a handler enters no other one. -/
private theorem Settled.kept {p q : Process β} {saved : SavedContext} (h : p.Settled q)
    (hsaved : p.interrupted = some saved) :
    q.pid = p.pid ∧ (q.isZombie = true ∨ q.interrupted = some saved ∧ q.mask = p.mask) := by
  obtain ⟨hpid, hzombie | ⟨hinterrupted, hmask, -⟩ | ⟨hnone, -⟩⟩ := h.saved
  · exact ⟨hpid, .inl hzombie⟩
  · exact ⟨hpid, .inr ⟨hinterrupted.trans hsaved, hmask⟩⟩
  · exact absurd (hnone.symm.trans hsaved) (by simp)

/-- Before signals are delivered, only a return from the handler takes away what was saved. -/
private theorem Served.saved {p q : Process β} (h : p.Served q)
    (hreturn : p.frame.Asks .signalReturn → p.interrupted = none) :
    q.pid = p.pid ∧ (q.isZombie = true ∨ q.interrupted = p.interrupted ∧ q.mask = p.mask) := by
  cases h with
  | goesOn hworks _ _ _ =>
    obtain ⟨_, _, _, -, rfl⟩ := hworks
    exact ⟨rfl, .inr ⟨rfl, rfl⟩⟩
  | goesBack hasks hsaved => exact absurd ((hreturn hasks).symm.trans hsaved) (by simp)
  | waits _ => exact ⟨rfl, .inr ⟨rfl, rfl⟩⟩
  | exits hworks =>
    obtain ⟨_, _, _, -, rfl⟩ := hworks
    exact ⟨rfl, .inl rfl⟩

end Process

namespace ProcessTable

variable {μ : Type} [MemorySystem μ β] {t u : ProcessTable β}

/-- No process holds off signals, except while one of its handlers runs. -/
private theorem Traps.unmasked {f : TrapFrame} (h : t.Traps μ f u) (hforest : t.Forest μ) (hr : t.Running)
    (hunmasked : ∀ s p, t.get s = some p → p.Unmasked) : ∀ s p, u.get s = some p → p.Unmasked := by
  intro s q hq
  obtain ⟨p, hp, hrun⟩ := id hr
  have hlive : p.isZombie = false := Process.isZombie_eq_false_iff.mpr (by simp [hrun])
  have hframe : ∀ frame, ({ p with frame } : Process β).Unmasked := fun frame =>
    (hunmasked _ p hp).of_sameHandler ⟨rfl, rfl⟩ id
  by_cases hs : s = t.current
  · subst hs
    obtain ⟨r, q', hserved, hsettled, hq'⟩ := h.self hforest hr hp
    obtain rfl := Option.some.inj (hq.symm.trans hq')
    exact hsettled.unmasked (hserved.unmasked hlive (hframe f))
  -- another process was there before, or it was created with what its parent had saved
  · rcases h.origin hforest hr hs hq with ⟨p, hp, hsettled⟩ | ⟨p', pid, space, hp', -, hsettled⟩
    · exact hsettled.unmasked (hunmasked s p hp)
    · obtain rfl := Option.some.inj (hp.symm.trans hp')
      exact hsettled.unmasked ((hframe f.advanced).of_sameHandler ⟨rfl, rfl⟩ fun _ => hlive)

/-- Before signals are delivered, what was saved is kept. -/
private theorem CauseEffect.kept {s : Slot} {p : Process β} (h : t.CauseEffect μ u) (hforest : t.Forest μ)
    (hr : t.Running) (hp : t.get s = some p) (hlive : p.isZombie = false)
    (hreturn : s = t.current → p.frame.Asks .signalReturn → p.interrupted = none) :
    ∃ q, u.get s = some q ∧ q.pid = p.pid ∧ (q.isZombie = true ∨ p.SameHandler q) := by
  obtain ⟨p₀, hp₀, hrun⟩ := hr
  by_cases hs : s = t.current
  · subst hs
    obtain rfl := Option.some.inj (hp.symm.trans hp₀)
    obtain ⟨q, hserved, hq⟩ := h.self hforest hp hrun
    exact ⟨q, hq, hserved.saved (hreturn rfl)⟩
  · have helsewhere := h.elsewhere hp₀ hs
    rw [hp] at helsewhere
    generalize u.get s = after at helsewhere ⊢
    cases helsewhere with
    | stays hrel =>
      cases hrel with
      | some hstays => exact ⟨_, rfl, hstays.pid, .inr hstays.sameHandler⟩
    | collected hzombie => exact absurd hzombie (by simp [hlive])

/-- A process that is created has the same saved as the one that created it. -/
private theorem CauseEffect.copied {s : Slot} {p q : Process β} (h : t.CauseEffect μ u) (hp : t.get t.current = some p)
    (hs : t.get s = none) (hq : u.get s = some q) : p.SameHandler q := by
  have hne : s ≠ t.current := by
    rintro rfl
    exact absurd (hp.symm.trans hs) (by simp)
  have helsewhere := h.elsewhere hp hne
  rw [hs, hq] at helsewhere
  cases helsewhere with
  | stays hrel => exact absurd hrel (by rintro ⟨⟩)
  | forked => exact ⟨rfl, rfl⟩

/-- A whole trap keeps what was saved for a process that neither returns from its handler nor exits. -/
private theorem Traps.kept {f : TrapFrame} {s : Slot} {p : Process β} {saved : SavedContext} (h : t.Traps μ f u)
    (hforest : t.Forest μ) (hr : t.Running) (hp : t.get s = some p) (hlive : p.isZombie = false)
    (hsaved : p.interrupted = some saved) (hreturn : t.current = s → ¬f.Asks .signalReturn) :
    ∃ q, u.get s = some q ∧ q.pid = p.pid ∧ (q.isZombie = true ∨ q.interrupted = some saved ∧ q.mask = p.mask) := by
  by_cases hs : s = t.current
  · subst hs
    obtain ⟨q, r, hserved, hsettled, hget⟩ := h.self hforest hr hp
    obtain ⟨hpid, hq⟩ := hserved.saved fun hasks => absurd hasks (hreturn rfl)
    rcases hq with hzombie | ⟨hinterrupted, hmask⟩
    · have hstays := hsettled.of_isZombie hzombie
      exact ⟨r, hget, hstays.pid.trans hpid, .inl (hstays.isZombie.trans hzombie)⟩
    · obtain ⟨hpid', hr⟩ := hsettled.kept (hinterrupted.trans hsaved)
      exact ⟨r, hget, hpid'.trans hpid, hmask ▸ hr⟩
  · obtain ⟨q, hsettled, hq⟩ := h.other hforest hr hs hp hlive
    exact ⟨q, hq, hsettled.kept hsaved⟩

end ProcessTable

namespace Kernel

open ProcessTable

section Statement

variable {μ β σ φ : Type} [MemorySystem μ β] [FileSystem σ] [Firmware φ]

/-- Some traps, in which the process in a slot neither returns from a handler nor exits. -/
inductive Undisturbed (s : Slot) : KernelState μ β σ φ → KernelState μ β σ φ → Prop
  | refl (k : KernelState μ β σ φ) : Undisturbed s k k
  | trap {k k₁ k₂ : KernelState μ β σ φ} (h : Undisturbed s k k₁) {f : TrapFrame} (hk : trapWith f k₁ = .ok () k₂)
      (hreturn : k₁.table.current = s → ¬f.Asks .signalReturn) (hlive : k₂.table.hasStatus s .zombie = false) :
      Undisturbed s k k₂

/-- Whether the handlers of signals are transparent from a state on. -/
structure HandlersTransparent (k : KernelState μ β σ φ) : Prop where
  /-- A process that no handler interrupts holds off no signals. -/
  mask_eq_empty : ∀ s p, k.table.get s = some p → p.status ≠ .zombie → p.interrupted = none → p.mask = .empty
  /-- A trap is served first, and then signals are delivered. -/
  staged : ∀ f, trapWith f k = (serve f >>= fun _ => handleSignals) k
  /-- To serve a trap keeps what was saved, unless the process returns from its handler or exits. -/
  kept : ∀ f k₁ s p, serve f k = .ok () k₁ → k.table.get s = some p → p.status ≠ .zombie →
    (s = k.table.current → f.Asks .signalReturn → p.interrupted = none) →
    ∃ q, k₁.table.get s = some q ∧ q.pid = p.pid ∧
      (q.status = .zombie ∨ q.interrupted = p.interrupted ∧ q.mask = p.mask)
  /-- A process that is created has the same saved as the one that trapped. -/
  copied : ∀ f k₁ s q, serve f k = .ok () k₁ → k.table.get s = none → k₁.table.get s = some q →
    ∃ p, k.table.get k.table.current = some p ∧ q.interrupted = p.interrupted ∧ q.mask = p.mask
  /-- A return from a handler restores all that was saved. It is served, unless the address behind the call is no
  word. -/
  restored : ∀ f p saved, k.table.get k.table.current = some p → p.interrupted = some saved → f.Asks .signalReturn →
    (f.sepc.toNat + 4 < wordLimit → ∃ k₁, serve f k = .ok () k₁) ∧
    ∀ k₁, serve f k = .ok () k₁ → k₁.table.current = k.table.current ∧
      ∃ q, k₁.table.get k.table.current = some q ∧ q.frame = saved.frame ∧ q.mask = saved.mask ∧ q.interrupted = none
  /-- The delivery of signals saves what a process did if nothing was saved, and otherwise keeps what was. -/
  entered : ∀ f k₁ k₂ s p, serve f k = .ok () k₁ → handleSignals k₁ = .ok () k₂ → k₁.table.get s = some p →
    ∃ q, k₂.table.get s = some q ∧ q.pid = p.pid ∧
      (q.status = .zombie ∨ q.interrupted = p.interrupted ∧ q.mask = p.mask ∧ q.frame = p.frame ∨
        p.interrupted = none ∧ q.interrupted = some ⟨p.frame, p.mask⟩)
  /-- However many traps there are, what was saved stays until the process returns from the handler or exits. -/
  undisturbed : ∀ k' s p saved, Undisturbed s k k' → k.table.get s = some p → p.status ≠ .zombie →
    p.interrupted = some saved →
    ∃ q, k'.table.get s = some q ∧ q.pid = p.pid ∧ q.interrupted = some saved ∧ q.mask = p.mask

end Statement

/-! ### The return from a handler -/

attribute [local irreducible] addWords

section Return

variable {μ β σ φ : Type} [MemorySystem μ β] [FileSystem σ] [Firmware φ] {k : KernelState μ β σ φ}

omit [MemorySystem μ β] [FileSystem σ] [Firmware φ] in
/-- A process that is interrupted by a handler can always go back. -/
private theorem returnFromHandler_goesBack {p : Process β} {saved : SavedContext}
    (hp : k.table.get k.table.current = some p) (hsaved : p.interrupted = some saved) :
    returnFromHandler.Ensures k
      (fun r k' => r = .ok saved.frame.a0 ∧ k'.table = k.table.put k.table.current
        (some { p with frame := saved.frame, mask := saved.mask, interrupted := none })) fun _ _ => False := by
  unfold returnFromHandler
  rw [Attempt.ensures_bind, Attempt.ensures_ofRun, ensures_currentProcess hp]
  simp only [hsaved]
  rw [Attempt.ensures_bind, Attempt.ensures_ofRun, ensures_modifyCurrent hp]
  exact ⟨rfl, rfl⟩

private theorem systemCall_goesBack (f : TrapFrame) {number : Nat} {p : Process β} {saved : SavedContext}
    (hp : k.table.get k.table.current = some p) (hsaved : p.interrupted = some saved)
    (hnumber : number = SystemCall.signalReturn.number) :
    (systemCall number f).Ensures k
      (fun r k' => r = .ok saved.frame.a0 ∧ k'.table = k.table.put k.table.current
        (some { p with frame := saved.frame, mask := saved.mask, interrupted := none })) fun _ _ => False := by
  unfold systemCall noteCall
  rw [hnumber, if_pos (by decide), SystemCall.ofNumber?_number]
  simp only [Attempt.ensures_bind, Attempt.ensures_ofRun, Run.ensures_bind, Run.ensures_get]
  split
  · simp only [Run.ensures_bind, ensures_currentProcess hp, ensures_note]
    exact returnFromHandler_goesBack (k := { k with log := _ }) hp hsaved
  · exact returnFromHandler_goesBack hp hsaved

/-- A return from a handler is always served, unless the address behind the call is no word. The result of the call is
the saved one of the result register, so nothing of what was restored is lost. -/
private theorem serve_goesBack {f : TrapFrame} {p : Process β} {saved : SavedContext}
    (hp : k.table.get k.table.current = some p) (hlive : p.isZombie = false) (hsaved : p.interrupted = some saved)
    (hasks : f.Asks .signalReturn) :
    (serve f).Ensures k
      (fun _ k₁ => k₁.table = k.table.put k.table.current
        (some { p with frame := saved.frame, mask := saved.mask, interrupted := none }))
      fun _ _ => wordLimit ≤ f.sepc.toNat + 4 := by
  unfold serve handleCause
  rw [Run.ensures_bind, ensures_modifyCurrent hp, hasks.1]
  unfold handleCall
  simp only [Run.ensures_bind, Run.ensures_get, Run.ensures_addWords, current_put, Attempt.ensures_run]
  rw [ensures_currentProcess (get_put_self _ _ _)]
  by_cases hsepc : f.sepc.toNat + 4 < wordLimit
  case neg => exact (if_neg hsepc).mpr (Nat.le_of_not_lt hsepc)
  rw [if_pos hsepc, ensures_modifyCurrent (get_put_self _ _ _)]
  have hp' : (k.table.put k.table.current (some { p with frame := f.advanced })).get k.table.current =
      some { p with frame := f.advanced } := get_put_self _ _ _
  rw [current_put, put_put]
  refine Run.Ensures.imp (systemCall_goesBack (k := { k with table := _ }) _ hp' hsaved hasks.callNumber_eq) ?_
    fun _ _ hfalse => hfalse.elim
  rintro r k₁ ⟨rfl, hk₁⟩
  -- the result is left where it is already, in the registers that were restored
  unfold leaveResult
  rw [ensures_modifyTable, hk₁, current_put, put_put, modifyAt_eq_put (get_put_self _ _ _), put_put]
  have hlive' : ¬p.status = .zombie := Process.isZombie_eq_false_iff.mp hlive
  simp [Process.isZombie, hlive', resultWord]

end Return

/-! ### The stages of a trap -/

section Stages

variable {μ β σ φ : Type} [MemorySystem μ β] [FileSystem σ] [Firmware φ] {k k₁ k₂ : KernelState μ β σ φ} {f : TrapFrame}
  {s : Slot} {p q : Process β} (hμ : MemorySystem.NeverIdle μ) (hforest : k.table.Forest μ) (hr : k.table.Running)

include hμ hforest hr

/-- What the service of a trap does to the process table, which stays in order. -/
theorem serve_stages (hk : serve f k = .ok () k₁) : ∃ p, k.table.get k.table.current = some p ∧
    (k.table.put k.table.current (some { p with frame := f })).CauseEffect μ k₁.table ∧
    (k.table.put k.table.current (some { p with frame := f })).Forest μ ∧
    (k.table.put k.table.current (some { p with frame := f })).Running ∧
    k₁.table.Forest μ ∧ k₁.table.Running := by
  obtain ⟨p, hp, hlive⟩ := hr.live
  obtain ⟨hforest₁, hr₁⟩ := (move_of_frame (μ := μ) hp hlive f).forest hforest hr
  have hcause := (serve_effect hμ f hp hforest hr).of_ok hk
  exact ⟨p, hp, hcause, hforest₁, hr₁, forest_of_moves (hcause.moves hforest₁ hr₁) hforest₁ hr₁⟩

private theorem serve_kept (hk : serve f k = .ok () k₁) (hp : k.table.get s = some p) (hlive : p.status ≠ .zombie)
    (hreturn : s = k.table.current → f.Asks .signalReturn → p.interrupted = none) :
    ∃ q, k₁.table.get s = some q ∧ q.pid = p.pid ∧ (q.status = .zombie ∨ p.SameHandler q) := by
  obtain ⟨p₀, hp₀, hcause, hforest₁, hr₁, -⟩ := serve_stages hμ hforest hr hk
  by_cases hs : s = k.table.current
  · subst hs
    obtain rfl := Option.some.inj (hp.symm.trans hp₀)
    have hlive' : ({ p with frame := f } : Process β).isZombie = false := Process.isZombie_eq_false_iff.mpr hlive
    obtain ⟨q, hq, hpid, hcases⟩ := hcause.kept hforest₁ hr₁ (get_put_self _ _ _) hlive' fun _ => hreturn rfl
    exact ⟨q, hq, hpid, hcases.imp_left Process.isZombie_iff.mp⟩
  · have hp₁ : (k.table.put k.table.current (some { p₀ with frame := f })).get s = some p := by
      rw [get_put_of_ne _ hs, hp]
    obtain ⟨q, hq, hpid, hcases⟩ := hcause.kept hforest₁ hr₁ hp₁ (Process.isZombie_eq_false_iff.mpr hlive)
      fun hs' => absurd hs' hs
    exact ⟨q, hq, hpid, hcases.imp_left Process.isZombie_iff.mp⟩

private theorem serve_copied (hk : serve f k = .ok () k₁) (hs : k.table.get s = none) (hq : k₁.table.get s = some q) :
    ∃ p, k.table.get k.table.current = some p ∧ p.SameHandler q := by
  obtain ⟨p, hp, hcause, -⟩ := serve_stages hμ hforest hr hk
  have hne : s ≠ k.table.current := by
    rintro rfl
    exact absurd (hp.symm.trans hs) (by simp)
  have hs₁ : (k.table.put k.table.current (some { p with frame := f })).get s = none := by
    rw [get_put_of_ne _ hne, hs]
  have hsame : ({ p with frame := f } : Process β).SameHandler q := hcause.copied (get_put_self _ _ _) hs₁ hq
  exact ⟨p, hp, hsame⟩

omit hμ hforest in
private theorem serve_restores {saved : SavedContext} (hp : k.table.get k.table.current = some p)
    (hsaved : p.interrupted = some saved) (hasks : f.Asks .signalReturn) :
    (f.sepc.toNat + 4 < wordLimit → ∃ k₁, serve f k = .ok () k₁) ∧
    ∀ k₁, serve f k = .ok () k₁ → k₁.table.current = k.table.current ∧
      ∃ q, k₁.table.get k.table.current = some q ∧ q.frame = saved.frame ∧ q.mask = saved.mask ∧
        q.interrupted = none := by
  have hlive := hr.isZombie_eq_false hp
  have hensures := serve_goesBack hp hlive hsaved hasks
  refine ⟨fun hsepc => ?served, fun k₁ hk₁ => ?restored⟩
  case served =>
    cases hserve : serve f k with
    | ok _ k₁ => exact ⟨k₁, rfl⟩
    | error => exact absurd hsepc (Nat.not_lt_of_le (hensures.of_error hserve))
  case restored =>
    have htable := hensures.of_ok hk₁
    exact ⟨by rw [htable, current_put], _, by rw [htable, get_put_self], rfl, rfl, rfl⟩

omit [Firmware φ] in
private theorem handleSignals_saved (hk : handleSignals k = .ok () k₂) (hp : k.table.get s = some p) :
    ∃ q, k₂.table.get s = some q ∧ q.pid = p.pid ∧
      (q.status = .zombie ∨ q.interrupted = p.interrupted ∧ q.mask = p.mask ∧ q.frame = p.frame ∨
        p.interrupted = none ∧ q.interrupted = some ⟨p.frame, p.mask⟩) := by
  have hsettled := ((handleSignals_settles hμ (hforest.parented hr)).of_ok hk).slot hforest hr s
  rw [hp] at hsettled
  generalize k₂.table.get s = after at hsettled ⊢
  cases hsettled with
  | some h => exact ⟨_, rfl, h.saved.1, h.saved.2.imp_left Process.isZombie_iff.mp⟩

end Stages

/-! ### Reachable states -/

variable {σ φ : Type} [FileSystem σ] [Firmware φ] {entry stackPointer heapStart : UInt64} {memory : PhysicalMemory}
  {files : σ} {firmware : φ} {logLimit : Option LogLevel} {k₀ k : Kernel σ φ}

private theorem Reachable.unmasked (hboot : boot entry stackPointer heapStart memory files firmware logLimit = .ok k₀)
    (h : Reachable k₀ k) : ∀ s p, k.table.get s = some p → p.Unmasked := by
  refine h.invariant hboot (P := fun t => ∀ s p, t.get s = some p → p.Unmasked) (fun space s p hp => ?_)
    fun _ _ _ hforest hr htraps hunmasked => htraps.unmasked hforest hr hunmasked
  rw [(get_initial_eq_some hp).2]
  exact ⟨fun _ _ => rfl, fun _ hsaved => absurd hsaved (by simp [Process.initial])⟩

/-- What happens while a handler runs leaves alone what was saved. -/
private theorem Reachable.undisturbed
    (hboot : boot entry stackPointer heapStart memory files firmware logLimit = .ok k₀)
    (h : Reachable k₀ k) {k' : Kernel σ φ} {s : Slot} {p : Process AddressSpace} {saved : SavedContext}
    (hk : Undisturbed s k k') (hp : k.table.get s = some p) (hlive : p.isZombie = false)
    (hsaved : p.interrupted = some saved) :
    Reachable k₀ k' ∧ ∃ q, k'.table.get s = some q ∧ q.isZombie = false ∧ q.pid = p.pid ∧
      q.interrupted = some saved ∧ q.mask = p.mask := by
  induction hk with
  | refl => exact ⟨h, p, hp, hlive, rfl, hsaved, rfl⟩
  | @trap k₁ k₂ _ f hk hreturn hstatus ih =>
    obtain ⟨hreach, q, hq, hqlive, hpid, hqsaved, hmask⟩ := ih
    obtain ⟨hforest, hr⟩ := hreach.table_forest hboot
    obtain ⟨r, hget, hpid', hcases⟩ := (hreach.traps hboot hk).kept hforest hr hq hqlive hqsaved hreturn
    have hrlive : r.isZombie = false :=
      isZombie_eq_false_of_hasStatus hget (by simp [hstatus])
    rcases hcases with hzombie | ⟨hrsaved, hrmask⟩
    · exact absurd hzombie (by simp [hrlive])
    · exact ⟨hreach.trap f hk, r, hget, hrlive, hpid'.trans hpid, hrsaved, hrmask.trans hmask⟩

/-- Signal handlers are transparent in all reachable states. -/
theorem Reachable.handlers (hboot : boot entry stackPointer heapStart memory files firmware logLimit = .ok k₀)
    (h : Reachable k₀ k) : HandlersTransparent k := by
  obtain ⟨hforest, hr⟩ := h.table_forest hboot
  have hμ : MemorySystem.NeverIdle PhysicalMemory := PhysicalMemory.neverIdle
  constructor
  case mask_eq_empty =>
    intro s p hp hlive
    exact (h.unmasked hboot s p hp).mask (Process.isZombie_eq_false_iff.mpr hlive)
  case staged => exact fun f => trapWith_eq f hr
  case kept => exact fun f k₁ s p hk hp hlive hreturn => serve_kept hμ hforest hr hk hp hlive hreturn
  case copied => exact fun f k₁ s q hk hs hq => serve_copied hμ hforest hr hk hs hq
  case restored => exact fun f p saved hp hsaved hasks => serve_restores hr hp hsaved hasks
  case entered =>
    intro f k₁ k₂ s p hk hk₂ hp
    obtain ⟨-, -, -, -, -, hforest₁, hr₁⟩ := serve_stages hμ hforest hr hk
    exact handleSignals_saved hμ hforest₁ hr₁ hk₂ hp
  case undisturbed =>
    intro k' s p saved hk hp hlive hsaved
    obtain ⟨-, q, hq, -, hpid, hinterrupted, hmask⟩ :=
      h.undisturbed hboot hk hp (Process.isZombie_eq_false_iff.mpr hlive) hsaved
    exact ⟨q, hq, hpid, hinterrupted, hmask⟩

/-- The first process takes an action with a handler for signal 2 from its stack, where the exit code of a child has been
left. -/
def installFrames : List TrapFrame :=
  [callFrame .fork 0 0 0, callFrame .yield 0 0 0, callFrame .exit 0x2000 0 0, callFrame .wait 1 0x3FFFE000 0,
    callFrame .signalAction 2 0x3FFFE000 0]

/-- It sends itself that signal. -/
def handlerFrames : List TrapFrame := installFrames ++ [callFrame .kill 0 2 0]

/-- It runs the handler then, and when it asks to go back it has what was saved. -/
theorem handlers_kill : ∃ (k₀ k k₁ : Kernel EmptyFiles Bench.BenchFirmware) (p q : Process AddressSpace)
    (saved : SavedContext), benchStart = .ok k₀ ∧ Reachable k₀ k ∧ k.table.get k.table.current = some p ∧
      p.interrupted = some saved ∧ serve (callFrame .signalReturn 0 0 0) k = .ok () k₁ ∧
      k₁.table.get k.table.current = some q ∧ q.frame = saved.frame ∧ q.mask = saved.mask := by
  obtain ⟨k₀, k, hk₀, hk, htest⟩ := exists_of_benchRun
    (show benchRun handlerFrames (fun k =>
      match k.table.get k.table.current with
      | some p => p.interrupted.isSome
      | none => false) = true by decide +kernel)
  split at htest
  next p hp =>
    obtain ⟨saved, hsaved⟩ := Option.isSome_iff_exists.mp htest
    obtain ⟨hserved, hrestored⟩ := (hk.handlers hk₀).restored (callFrame .signalReturn 0 0 0) p saved hp hsaved
      ⟨by decide +kernel, by decide +kernel⟩
    obtain ⟨k₁, hk₁⟩ := hserved (by decide +kernel)
    obtain ⟨-, q, hq, hframe, hmask, -⟩ := hrestored k₁ hk₁
    exact ⟨k₀, k, k₁, p, q, saved, hk₀, hk, hp, hsaved, hk₁, hq, hframe, hmask⟩
  · exact absurd htest (by simp)

end Kernel

end TrapKernel
