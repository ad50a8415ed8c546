import TrapKernel.Proofs.Kernel.Effects
import TrapKernel.Proofs.Process.Handlers

/-!
# One delivery after another

Before a process runs on, signals are delivered one after the other, and whenever one of them ends the process, the next
process and its signals take its place. The number of deliveries that are tried is never used up: the last delivery
finds nothing to deliver or enters a handler.

* `Kernel.Delivering`: a number of deliveries, after each of which there may be more to deliver.
* `Kernel.deliverSignals_ends`: the deliveries come to an end by themselves.
* `Kernel.exists_last_of_handleSignals`: if they do not stop the kernel there was a last one.
* `Kernel.deliverSignal_last`: what the last delivery does.
* `Kernel.Delivering.lasts`: what those before it do to each process.
* `Kernel.Catches`: a process gets a signal for which it has a handler. By `Kernel.Catches.last` that is the last
  delivery.
-/

namespace TrapKernel

variable {β : Type}

namespace Process

/-- What the deliveries before the last one make of a process: it may be ended, or no more happens to it than to a
bystander. -/
structure Lasts (p q : Process β) : Prop where
  pid : q.pid = p.pid
  frame : q.frame = p.frame
  stays : q.isZombie = true ∨ p.Bystander q

variable {p q r : Process β}

private theorem Bystander.lasts (h : p.Bystander q) : p.Lasts q := ⟨h.pid, h.frame, .inr h⟩

private theorem Lasts.trans (h : p.Lasts q) (h' : q.Lasts r) : p.Lasts r where
  pid := h'.pid.trans h.pid
  frame := h'.frame.trans h.frame
  stays := by
    rcases h'.stays with hzombie | hstays'
    · exact .inl hzombie
    · rcases h.stays with hzombie | hstays
      · exact .inl (hstays'.isZombie.trans hzombie)
      · exact .inr (hstays.trans hstays')

end Process

namespace ProcessTable

variable {μ : Type} [MemorySystem μ β] {t u : ProcessTable β} {s : Slot} {p : Process β}

/-- A delivery that is not the last one. -/
private theorem Delivers.lasts (h : t.Delivers μ true u) (ht : t.Parented) (hp : t.get s = some p) :
    ∃ q, u.get s = some q ∧ p.Lasts q := by
  by_cases hs : s = t.current
  · subst hs
    obtain ⟨p₀, hp₀, hrun⟩ := ht.current
    obtain rfl := Option.some.inj (hp.symm.trans hp₀)
    cases h with
    | @drop p' n hp' _ _ =>
      obtain rfl := Option.some.inj (hp.symm.trans hp')
      have htaken : p.Bystander (p.take n) := .take (by simp [hrun]) n
      exact ⟨_, get_put_self _ _ _, htaken.lasts⟩
    | terminate _ _ _ _ hexits =>
      obtain ⟨space, hleft⟩ := hexits.get_current hp (ht.parent_ne hp)
      exact ⟨_, hleft, rfl, rfl, .inl rfl⟩
  · have hslot := h.slot hs
    rw [hp] at hslot
    generalize u.get s = after at hslot ⊢
    cases hslot with
    | some hstays => exact ⟨_, rfl, hstays.lasts⟩

end ProcessTable

namespace Kernel

open ProcessTable

variable {μ σ φ : Type} [MemorySystem μ β] [FileSystem σ]

/-- A number of deliveries one after the other, after each of which there may be more to deliver. -/
inductive Delivering : Nat → KernelState μ β σ φ → KernelState μ β σ φ → Prop
  | none {k : KernelState μ β σ φ} : Delivering 0 k k
  | more {n : Nat} {k k₁ k' : KernelState μ β σ φ} (hk : deliverSignal k = .ok true k₁) (h : Delivering n k₁ k') :
      Delivering (n + 1) k k'

/-- Whether the process in slot `s` comes to run while signals are delivered, from `k` on, and gets the signal `n` then,
for which it has a handler at `entry`. -/
def Catches (k : KernelState μ β σ φ) (s : Slot) (n : Nat) (entry : UInt64) : Prop :=
  ∃ i k₁ p, Delivering i k k₁ ∧ k₁.table.current = s ∧ k₁.table.get s = some p ∧ p.nextSignal? = some n ∧
    (p.actions.action n).handler = .user entry

variable {k k' k₁ k₂ : KernelState μ β σ φ}

/-- Before the last delivery there is no state from which there is nothing more to deliver. -/
private theorem Delivering.eq_or_more {n m : Nat} (h : Delivering n k k₁) (hlast : deliverSignal k₁ = .ok false k')
    (h' : Delivering m k k₂) : k₂ = k₁ ∨ ∃ k₃, deliverSignal k₂ = .ok true k₃ := by
  induction h' generalizing n with
  | none =>
    cases h with
    | none => exact .inl rfl
    | more hk _ => exact .inr ⟨_, hk⟩
  | more hk _ ih =>
    cases h with
    | none => exact absurd (hk.symm.trans hlast) (by simp)
    | more hk' hrest =>
      obtain rfl := (EStateM.Result.ok.inj (hk.symm.trans hk')).2
      exact ih hrest

variable (hμ : MemorySystem.NeverIdle μ)

include hμ

/-- The last delivery finds nothing, or it makes the running process enter a handler. -/
theorem deliverSignal_last (h : k.table.Parented) (hk : deliverSignal k = .ok false k') :
    ∃ p, k.table.get k.table.current = some p ∧
      (p.nextSignal? = none ∧ k'.table = k.table ∨
        ∃ n entry q, p.Enters n entry q ∧ k'.table = k.table.put k.table.current (some q)) := by
  have hdelivers := (deliverSignal_delivers hμ h).of_ok hk
  generalize k'.table = t at hdelivers ⊢
  cases hdelivers with
  | @done p hp hnone => exact ⟨p, hp, .inl ⟨hnone, rfl⟩⟩
  | @enter p n entry hp hn hentry => exact ⟨p, hp, .inr ⟨n, entry, _, Process.enters_enterHandler hn hentry, rfl⟩⟩

/-- The last delivery changes one process at most, which enters a handler. Any other one has not been given a signal. -/
theorem get_deliverSignal_last {s : Slot} {p : Process β} (h : k.table.Parented) (hk : deliverSignal k = .ok false k')
    (hp : k.table.get s = some p) :
    k'.table.get s = some p ∧ (k.table.current = s → p.nextSignal? = none) ∨
      k.table.current = s ∧ ∃ n entry q, p.Enters n entry q ∧ k'.table.get s = some q := by
  obtain ⟨r, hr, ⟨hnone, htable⟩ | ⟨n, entry, q, henters, htable⟩⟩ := deliverSignal_last hμ h hk
  · refine .inl ⟨by rw [htable, hp], ?_⟩
    rintro rfl
    rwa [Option.some.inj (hp.symm.trans hr)]
  · by_cases hs : k.table.current = s
    · subst hs
      obtain rfl := Option.some.inj (hp.symm.trans hr)
      exact .inr ⟨rfl, n, entry, q, henters, by rw [htable, get_put_self]⟩
    · exact .inl ⟨by rw [htable, get_put_of_ne _ (Ne.symm hs), hp], fun h => absurd h hs⟩

/-- After a signal that has a handler in user memory there is nothing more to deliver. -/
private theorem deliverSignal_ne_true {p : Process β} {n : Nat} {entry : UInt64} (h : k.table.Parented)
    (hp : k.table.get k.table.current = some p) (hn : p.nextSignal? = some n)
    (hentry : (p.actions.action n).handler = .user entry) : deliverSignal k ≠ .ok true k' := by
  intro hk
  have hdelivers := (deliverSignal_delivers hμ h).of_ok hk
  generalize k'.table = t at hdelivers
  cases hdelivers with
  | drop hp' hn' hdrop =>
    obtain rfl := Option.some.inj (hp.symm.trans hp')
    obtain rfl := Option.some.inj (hn.symm.trans hn')
    simp [hentry] at hdrop
  | terminate hp' hn' hdefault _ _ =>
    obtain rfl := Option.some.inj (hp.symm.trans hp')
    obtain rfl := Option.some.inj (hn.symm.trans hn')
    exact absurd (hentry.symm.trans hdefault) (by simp)

private theorem Delivering.parented {n : Nat} (h : Delivering n k k') (ht : k.table.Parented) : k'.table.Parented := by
  induction h with
  | none => exact ht
  | more hk _ ih => exact ih (((deliverSignal_delivers hμ ht).of_ok hk).parented ht)

theorem Delivering.lasts {n : Nat} {s : Slot} {p : Process β} (h : Delivering n k k') (ht : k.table.Parented)
    (hp : k.table.get s = some p) : ∃ q, k'.table.get s = some q ∧ p.Lasts q := by
  induction h generalizing p with
  | none => exact ⟨p, hp, (Process.Bystander.refl p).lasts⟩
  | more hk _ ih =>
    have hdelivers := (deliverSignal_delivers hμ ht).of_ok hk
    obtain ⟨q, hq, hpq⟩ := hdelivers.lasts ht hp
    obtain ⟨r, hr, hqr⟩ := ih (hdelivers.parented ht) hq
    exact ⟨r, hr, hpq.trans hqr⟩

/-- A process that gets a signal for which it has a handler gets it with the last delivery. -/
theorem Catches.last {i n : Nat} {s : Slot} {entry : UInt64} {p : Process β} (h : Catches k s n entry)
    (ht : k.table.Parented) (hpath : Delivering i k k₁) (hlast : deliverSignal k₁ = .ok false k')
    (hp : k₁.table.get s = some p) :
    k₁.table.current = s ∧ p.nextSignal? = some n ∧ (p.actions.action n).handler = .user entry := by
  obtain ⟨j, k₂, q, hpath', rfl, hq, hn, hentry⟩ := h
  rcases hpath.eq_or_more hlast hpath' with rfl | ⟨k₃, hmore⟩
  · obtain rfl := Option.some.inj (hp.symm.trans hq)
    exact ⟨rfl, hn, hentry⟩
  · exact absurd hmore (deliverSignal_ne_true hμ (hpath'.parented hμ ht) hq hn hentry)

/-- The deliveries come to an end before the number of them that are tried is used up: one finds nothing to deliver,
enters a handler, or stops the kernel. It does not stop for want of a ready process. -/
theorem deliverSignals_ends (m : Nat) (hload : k.table.load < m) (h : k.table.Parented) :
    ∃ n k₁, n < m ∧ Delivering n k k₁ ∧ k₁.table.Parented ∧
      ((∃ k', deliverSignal k₁ = .ok false k' ∧ deliverSignals m k = .ok () k') ∨
        ∃ cause k', deliverSignal k₁ = .error cause k' ∧ deliverSignals m k = .error cause k' ∧
          cause ≠ .noReadyProcess) := by
  induction m generalizing k with
  | zero => exact absurd hload (Nat.not_lt_zero _)
  | succ m ih =>
    have hunfold : ∀ {more k₁}, deliverSignal k = .ok more k₁ →
        deliverSignals (m + 1) k = (if more then deliverSignals m else pure () : Run (KernelState μ β σ φ) Unit) k₁ :=
      fun hk => Run.bind_of_ok hk _
    cases hk : deliverSignal k with
    | error cause k' =>
      exact ⟨0, k, Nat.succ_pos m, .none, h,
        .inr ⟨cause, k', hk, Run.bind_of_error hk _, (deliverSignal_delivers hμ h).of_error hk⟩⟩
    | ok more k₁ =>
      have hdelivers := (deliverSignal_delivers hμ h).of_ok hk
      rw [hunfold hk]
      cases more with
      | false => exact ⟨0, k, Nat.succ_pos m, .none, h, .inl ⟨k₁, hk, rfl⟩⟩
      | true =>
        have hlt := hdelivers.load_lt h.current
        obtain ⟨n, k₂, hn, hpath, hk₂, hend⟩ := ih (k := k₁) (by omega) (hdelivers.parented h)
        exact ⟨n + 1, k₂, by omega, .more hk hpath, hk₂, hend⟩

/-- If the kernel goes on after the deliveries, there was a last one. -/
theorem exists_last_of_handleSignals (h : k.table.Parented) (hk : handleSignals k = .ok () k') :
    ∃ n k₁, Delivering n k k₁ ∧ k₁.table.Parented ∧ deliverSignal k₁ = .ok false k' := by
  obtain ⟨n, k₁, -, hpath, h₁, ⟨k₂, hlast, hk₂⟩ | ⟨_, _, -, hstop, -⟩⟩ :=
    deliverSignals_ends hμ _ k.table.load_lt_signalBound h
  · obtain rfl : k' = k₂ := (EStateM.Result.ok.inj (hk.symm.trans hk₂)).2
    exact ⟨n, k₁, hpath, h₁, hlast⟩
  · exact absurd (hk.symm.trans hstop) (by simp)

end Kernel

end TrapKernel
