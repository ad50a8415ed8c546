import TrapKernel.Proofs.Process.Handlers
import TrapKernel.Proofs.Process.Parented

/-!
# Signals that end a process

When signals are delivered, a process may be ended by one of them, and then the signals of the next process are
delivered. So several processes may come to their end in a row, each by the least signal that it has left after those
that it ignores (`Process.DiesOf`). What it has left is what it had before the first of them died: the end of a child
adds a signal that ends nobody.

* `ProcessTable.Settles.diesOf`: which processes are ended, and the exit codes that they leave.
* `ProcessTable.Settles.ends_of_sigKill`: the signal that cannot be caught ends the running process, unless it enters
  a handler for a lower one.
-/

namespace TrapKernel

variable {β : Type}

/-- The action tables that the exchange of actions leads to. -/
inductive SignalActions.Exchanged : SignalActions → Prop
  | initial : Exchanged .initial
  | swap {a b : SignalActions} {n : Nat} {action old : SignalAction} (h : Exchanged a)
      (hswap : a.swap n action = .ok (old, b)) : Exchanged b

/-- The actions of the two signals that cannot be caught are never exchanged. -/
theorem SignalActions.Exchanged.action_eq {a : SignalActions} (h : a.Exchanged) {n : Nat}
    (hn : isCatchable n = false) : a.action n = .initial := by
  induction h with
  | initial =>
    rw [SignalActions.action, SignalActions.initial, Vector.getElem?_replicate]
    split <;> rfl
  | @swap a b m action old _ hswap ih =>
    unfold SignalActions.swap at hswap
    split at hswap
    next hm =>
      have hne : m ≠ n := by rintro rfl; simp [hn] at hm
      obtain ⟨-, rfl⟩ := Prod.mk.inj (Except.ok.inj hswap)
      rwa [SignalActions.action, install, Vector.getElem?_setIfInBounds_ne hne]
    · exact absurd hswap (by simp)

namespace Process

/-- Whether the delivery of a signal to the process changes nothing else. -/
def Ignores (p : Process β) (n : Nat) : Prop :=
  (p.actions.action n).handler = .ignore ∨ (p.actions.action n).handler = .default ∧ defaultAction n = .ignore

/-- Whether a signal ends the process: it is the least one that can be delivered, those that the process ignores left
out, and the default action is to end the process. -/
structure DiesOf (p : Process β) (n : Nat) : Prop where
  canDeliver : p.canDeliver n = true
  handler : (p.actions.action n).handler = .default
  fatal : defaultAction n = .terminate
  least : ∀ m < n, p.canDeliver m = true → p.Ignores m

/-- What becomes of a process when another one exits: it stays in its place, and it may learn of the end of a child. -/
structure Outlives (p q : Process β) : Prop where
  bystander : p.Bystander q
  pending : q.pending = p.pending ∨ q.pending = p.pending.union (.single sigChild)

variable {p q : Process β} {n m : Nat}

private theorem canDeliver_of_nextSignal? (h : p.nextSignal? = some n) : p.canDeliver n = true := by
  simpa using List.find?_some h

private theorem canDeliver_eq_false_of_lt (h : p.nextSignal? = some n) (hm : m < n) : p.canDeliver m = false := by
  unfold nextSignal? at h
  rw [List.find?_range'_eq_some] at h
  obtain ⟨-, -, hlow⟩ := h
  by_cases h1 : 1 ≤ m
  · simpa using hlow m h1 hm
  · simp [canDeliver, SignalSet.contains, h1]

private theorem le_of_canDeliver (h : p.nextSignal? = some n) (hm : p.canDeliver m = true) : n ≤ m := by
  by_contra hlt
  rw [canDeliver_eq_false_of_lt h (by omega)] at hm
  exact absurd hm (by simp)

private theorem nextSignal?_ne_none (hm : p.canDeliver m = true) : p.nextSignal? ≠ none := by
  intro hnone
  have hsignal : isSignal m = true := by
    simp only [canDeliver, Bool.and_eq_true] at hm
    exact SignalSet.isSignal_of_contains hm.1.1
  simp only [isSignal, Bool.and_eq_true, decide_eq_true_eq] at hsignal
  refine List.find?_eq_none.mp hnone m ?_ hm
  rw [List.mem_range'_1]
  omega

private theorem canDeliver_take (p : Process β) (n m : Nat) :
    (p.take n).canDeliver m = (p.canDeliver m && !(isSignal n && m = n)) := by
  simp only [canDeliver, take, SignalSet.contains_diff, SignalSet.contains_single]
  cases p.pending.contains m <;> cases (isSignal n && decide (m = n)) <;> simp

/-- The end of another process adds no signal that ends a process. -/
private theorem Outlives.canDeliver_eq (h : p.Outlives q) (hn : n ≠ sigChild) : q.canDeliver n = p.canDeliver n := by
  have hpending : q.pending.contains n = p.pending.contains n := by
    rcases h.pending with heq | heq <;> simp [heq, hn]
  unfold canDeliver
  rw [hpending, h.bystander.mask, h.bystander.interrupted, show q.actions = p.actions by rw [h.bystander.eq]]

private theorem Outlives.canDeliver (h : p.Outlives q) (hn : p.canDeliver n = true) : q.canDeliver n = true := by
  have hpending : p.pending.contains n = true → q.pending.contains n = true := fun hp => by
    rcases h.pending with heq | heq <;> simp [heq, hp]
  simp only [Process.canDeliver, Bool.and_eq_true] at hn ⊢
  rw [h.bystander.mask, h.bystander.interrupted, show q.actions = p.actions by rw [h.bystander.eq]]
  exact ⟨⟨hpending hn.1.1, hn.1.2⟩, hn.2⟩

/-- What ends a process after another one has exited was to end it before. -/
private theorem DiesOf.of_outlives (h : q.DiesOf n) (hpq : p.Outlives q) : p.DiesOf n := by
  have hactions : q.actions = p.actions := by rw [hpq.bystander.eq]
  have hne : n ≠ sigChild := by rintro rfl; exact absurd h.fatal (by decide)
  refine ⟨hpq.canDeliver_eq hne ▸ h.canDeliver, hactions ▸ h.handler, h.fatal, fun m hm hdeliver => ?_⟩
  have hignores := h.least m hm (hpq.canDeliver hdeliver)
  rwa [Ignores, hactions] at hignores

/-- What ends a process after it has dropped a signal that it ignores was to end it before. -/
private theorem DiesOf.of_take (h : (p.take m).DiesOf n) (hm : p.Ignores m) : p.DiesOf n := by
  have hdeliver := h.canDeliver
  rw [canDeliver_take, Bool.and_eq_true] at hdeliver
  refine ⟨hdeliver.1, h.handler, h.fatal, fun j hj hjd => ?_⟩
  by_cases hjm : j = m
  · exact hjm ▸ hm
  · exact h.least j hj (by rw [canDeliver_take, hjd]; simp [hjm])

/-- The least signal that can be delivered ends the process, if that is its default action. -/
private theorem diesOf_of_nextSignal? (hn : p.nextSignal? = some n) (hdefault : (p.actions.action n).handler = .default)
    (hfatal : defaultAction n = .terminate) : p.DiesOf n :=
  ⟨canDeliver_of_nextSignal? hn, hdefault, hfatal, fun m hm hdeliver =>
    absurd hdeliver (by simp [canDeliver_eq_false_of_lt hn hm])⟩

/-- The signal that cannot be caught can always be delivered. -/
private theorem canDeliver_sigKill (hn : p.pending.contains sigKill = true)
    (hdefault : (p.actions.action sigKill).handler = .default) : p.canDeliver sigKill = true := by
  simp [canDeliver, hn, hdefault, SignalHandler.isUser]

end Process

namespace ProcessTable

variable {μ : Type} [MemorySystem μ β] {t u : ProcessTable β} {s : Slot} {p q : Process β}

/-- The processes other than the one that exits outlive it. -/
private theorem Exits.outlives {code : Int32} (h : t.Exits μ code u) (hs : s ≠ t.current) (hp : t.get s = some p) :
    ∃ q, u.get s = some q ∧ p.Outlives q := by
  have hslot := h.slot hs
  obtain ⟨p', space, -, -, -, next, -, rfl⟩ := h
  rw [get_switchTo, get_exited_of_ne _ hs, hp, Option.map_some] at hslot ⊢
  have hpending : (t.exitEffect t.current (p'.remains code space) s p).pending = p.pending ∨
      (t.exitEffect t.current (p'.remains code space) s p).pending = p.pending.union (.single sigChild) := by
    rw [exitEffect_pending]
    exact (ite_eq_or_eq _ _ _).symm
  by_cases hnext : next = s
  · rw [if_pos hnext] at hslot ⊢
    cases hslot with
    | some hstays => exact ⟨_, rfl, hstays, hpending⟩
  · rw [if_neg hnext] at hslot ⊢
    cases hslot with
    | some hstays => exact ⟨_, rfl, hstays, hpending⟩

/-! ### The delivery of signals -/

/-- The process that a signal is delivered to has not exited. -/
private theorem Delivers.bystander_of_isZombie {more : Bool} (h : t.Delivers μ more u) (ht : t.Parented)
    (hp : t.get s = some p) (hzombie : p.isZombie = true) : ∃ q, u.get s = some q ∧ p.Bystander q := by
  have hs : s ≠ t.current := by
    rintro rfl
    rw [ht.current.isZombie_eq_false hp] at hzombie
    exact absurd hzombie (by simp)
  have hslot := h.slot hs
  rw [hp] at hslot
  generalize u.get s = after at hslot ⊢
  cases hslot with
  | some hstays => exact ⟨_, rfl, hstays⟩

/-- The delivery of signals leaves the remains of a process alone. -/
private theorem Settles.bystander_of_isZombie (h : t.Settles μ u) (ht : t.Parented) (hp : t.get s = some p)
    (hzombie : p.isZombie = true) : ∃ q, u.get s = some q ∧ p.Bystander q := by
  induction h generalizing p with
  | stop h => exact h.bystander_of_isZombie ht hp hzombie
  | more h _ ih =>
    obtain ⟨q, hq, hpq⟩ := h.bystander_of_isZombie ht hp hzombie
    obtain ⟨r, hr, hqr⟩ := ih (h.parented ht) hq (hpq.isZombie.trans hzombie)
    exact ⟨r, hr, hpq.trans hqr⟩

/-- A process that a delivery ends stays as it is left. -/
private theorem Settles.remains {v : ProcessTable β} {n : Nat} (h : u.Settles μ v) (ht : t.Parented)
    (hp : t.get t.current = some p) (hexits : t.Exits μ (Int32.ofInt (-(n : Int))) u) :
    ∃ q, v.get t.current = some q ∧ q.isZombie = true ∧ q.pid = p.pid ∧ q.exitCode = Int32.ofInt (-(n : Int)) := by
  obtain ⟨space, hleft⟩ := hexits.get_current hp (ht.parent_ne hp)
  obtain ⟨q, hq, hstays⟩ := h.bystander_of_isZombie (hexits.parented ht) hleft rfl
  exact ⟨q, hq, hstays.isZombie, hstays.pid, by rw [hstays.eq]; rfl⟩

/-- A process that is ended when signals are delivered is not the first one, and what it leaves tells the signal. -/
theorem Settles.diesOf (h : t.Settles μ u) (ht : t.Parented) (hp : t.get s = some p) (hlive : p.isZombie = false)
    (hq : u.get s = some q) (hzombie : q.isZombie = true) :
    s ≠ .init ∧ q.pid = p.pid ∧ ∃ n, p.DiesOf n ∧ q.exitCode = Int32.ofInt (-(n : Int)) := by
  induction h generalizing p with
  | @stop t u h =>
    have hne : p.isZombie = q.isZombie := by
      cases h with
      | done => rw [Option.some.inj (hp.symm.trans hq)]
      | @enter p' n entry hp' _ _ =>
        rw [get_put] at hq
        split at hq
        next hs =>
          subst hs
          obtain rfl := Option.some.inj (hp.symm.trans hp')
          rw [← Option.some.inj hq]
          rfl
        · rw [Option.some.inj (hp.symm.trans hq)]
    rw [← hne, hlive] at hzombie
    exact absurd hzombie (by simp)
  | @more t u v h hrest ih =>
    have hu := h.parented ht
    by_cases hs : s = t.current
    · subst hs
      cases h with
      | @drop p' n hp' hn hdrop =>
        obtain rfl := Option.some.inj (hp.symm.trans hp')
        obtain ⟨hinit, hpid, m, hm, hcode⟩ := ih hu (get_put_self _ _ _) hlive hq
        refine ⟨hinit, hpid, m, hm.of_take ?_, hcode⟩
        exact hdrop.imp_right fun ⟨hdefault, hdrop⟩ => ⟨hdefault, hdrop.resolve_right hinit⟩
      | @terminate p' n _ hp' hn hdefault hfatal hexits =>
        obtain rfl := Option.some.inj (hp.symm.trans hp')
        obtain ⟨q', hq', -, hpid, hcode⟩ := hrest.remains ht hp hexits
        obtain rfl := Option.some.inj (hq.symm.trans hq')
        obtain ⟨-, -, -, hinit, -⟩ := hexits
        exact ⟨hinit, hpid, n, Process.diesOf_of_nextSignal? hn hdefault hfatal, hcode⟩
    · cases h with
      | drop _ _ _ => exact ih hu (by rw [get_put_of_ne _ hs, hp]) hlive hq
      | terminate _ _ _ _ hexits =>
        obtain ⟨r, hr, hpr⟩ := hexits.outlives hs hp
        obtain ⟨hinit, hpid, n, hn, hcode⟩ := ih hu hr (hpr.bystander.isZombie.trans hlive) hq
        exact ⟨hinit, hpid.trans hpr.bystander.pid, n, hn.of_outlives hpr, hcode⟩

/-- The signal that cannot be caught ends the running process, and if it does not, a lower one does, or the process has
entered a handler for a lower one, after those were dropped that it ignores. -/
theorem Settles.ends_of_sigKill (h : t.Settles μ u) (ht : t.Parented) (hinit : t.current ≠ .init)
    (hp : t.get t.current = some p) (hsent : p.pending.contains sigKill = true)
    (hdefault : (p.actions.action sigKill).handler = .default) :
    (∃ q n, u.get t.current = some q ∧ q.pid = p.pid ∧ q.isZombie = true ∧ 1 ≤ n ∧ n ≤ sigKill ∧
      q.exitCode = Int32.ofInt (-(n : Int))) ∨
    p.interrupted = none ∧ u.current = t.current ∧ ∃ (r q : Process β) (n : Nat) (entry : UInt64), n < sigKill ∧
      r = { p with pending := r.pending } ∧ r.Enters n entry q ∧ q.pending.contains sigKill = true ∧
        u.get t.current = some q := by
  induction h generalizing p with
  | @stop t u h =>
    have hdeliver := Process.canDeliver_sigKill hsent hdefault
    cases h with
    | @done p' hp' hnone =>
      obtain rfl := Option.some.inj (hp.symm.trans hp')
      exact absurd hnone (Process.nextSignal?_ne_none hdeliver)
    | @enter p' n entry hp' hn hentry =>
      obtain rfl := Option.some.inj (hp.symm.trans hp')
      have hne : n ≠ sigKill := by rintro rfl; simp [hdefault] at hentry
      have hle := Process.le_of_canDeliver hn hdeliver
      have henters := Process.enters_enterHandler hn hentry
      have hleft : ((p.take n).enterHandler n entry).pending.contains sigKill = true := by
        rw [henters.pending, hsent]
        simp [Ne.symm hne]
      exact .inr ⟨henters.idle, rfl, p, _, n, entry, by omega, rfl, henters, hleft, get_put_self _ _ _⟩
  | @more t u v h hrest ih =>
    have hdeliver := Process.canDeliver_sigKill hsent hdefault
    have hu := h.parented ht
    cases h with
    | @drop p' n hp' hn hdrop =>
      obtain rfl := Option.some.inj (hp.symm.trans hp')
      have hne : n ≠ sigKill := by
        rintro rfl
        rcases hdrop with hignore | ⟨-, hignore | hfirst⟩
        · simp [hdefault] at hignore
        · exact absurd hignore (by decide)
        · exact hinit hfirst
      have hsent' : (p.take n).pending.contains sigKill = true := by simp [Process.take, hsent, Ne.symm hne]
      exact ih (p := p.take n) hu hinit (get_put_self _ _ _) hsent' hdefault
    | @terminate p' n _ hp' hn _ _ hexits =>
      obtain rfl := Option.some.inj (hp.symm.trans hp')
      obtain ⟨q, hq, hzombie, hpid, hcode⟩ := hrest.remains ht hp hexits
      have hsignal := Process.isSignal_of_nextSignal? hn
      simp only [isSignal, Bool.and_eq_true, decide_eq_true_eq] at hsignal
      exact .inl ⟨q, n, hq, hpid, hzombie, hsignal.1, Process.le_of_canDeliver hn hdeliver, hcode⟩

end ProcessTable

end TrapKernel
