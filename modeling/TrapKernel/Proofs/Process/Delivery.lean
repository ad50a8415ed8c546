import TrapKernel.Proofs.Process.Effects
import Mathlib.Algebra.BigOperators.Group.Finset.Piecewise
import Mathlib.Algebra.Order.BigOperators.Group.Finset
import Mathlib.Order.Interval.Finset.Nat

/-!
# The delivery of signals ends

A signal that is delivered is no longer pending, and if it ends a process another one goes on with its own signals. The
load of a table counts what is left: a process that has not exited counts for itself and for each of its pending
signals. Every delivery lowers it, also one that ends a process: that process counted for itself and for the signal,
and its parent gets one signal.

* `ProcessTable.Delivers.load_lt`: a delivery after which there may be more to deliver lowers the load.
* `ProcessTable.load_lt_signalBound`: the load is less than the number of deliveries that are tried.
-/

namespace TrapKernel

variable {β : Type}

namespace Process

/-- The pending signals. -/
def pendingSignals (p : Process β) : Finset Nat := (Finset.Icc 1 lastSignal).filter fun n => p.pending.contains n

/-- What a process may still have delivered, and the process itself unless it has exited. -/
def load (p : Process β) : Nat := if p.isZombie then 0 else p.pendingSignals.card + 1

private theorem mem_pendingSignals {p : Process β} {n : Nat} : n ∈ p.pendingSignals ↔ p.pending.contains n = true := by
  unfold pendingSignals
  rw [Finset.mem_filter, Finset.mem_Icc, and_iff_right_iff_imp]
  intro hn
  simpa [isSignal] using SignalSet.isSignal_of_contains hn

private theorem load_le (p : Process β) : p.load ≤ lastSignal + 1 := by
  have hcard := Finset.card_filter_le (Finset.Icc 1 lastSignal) fun n => p.pending.contains n = true
  rw [Nat.card_Icc] at hcard
  unfold load pendingSignals
  split <;> omega

private theorem load_congr {p q : Process β} (hzombie : q.isZombie = p.isZombie) (hpending : q.pending = p.pending) :
    q.load = p.load := by
  unfold load pendingSignals
  rw [hzombie, hpending]

/-- A signal that is delivered was pending. -/
theorem contains_of_nextSignal? {p : Process β} {n : Nat} (h : p.nextSignal? = some n) : p.pending.contains n = true := by
  have hcan := List.find?_some h
  simp only [canDeliver, Bool.and_eq_true] at hcan
  exact hcan.1.1

private theorem load_take_lt {p : Process β} {n : Nat} (hlive : p.isZombie = false) (hn : p.pending.contains n = true) :
    (p.take n).load < p.load := by
  have hsub : (p.take n).pendingSignals ⊂ p.pendingSignals := by
    refine Finset.ssubset_iff_of_subset (fun m hm => ?_) |>.mpr ⟨n, mem_pendingSignals.mpr hn, fun hmem => ?_⟩
    · rw [mem_pendingSignals] at hm ⊢
      simp only [take, SignalSet.contains_diff, Bool.and_eq_true] at hm
      exact hm.1
    · have hself : (SignalSet.single n).contains n = true := by simp [SignalSet.isSignal_of_contains hn]
      rw [mem_pendingSignals, take, SignalSet.contains_diff, hself] at hmem
      simp at hmem
  have hlt := Finset.card_lt_card hsub
  unfold load
  rw [show (p.take n).isZombie = p.isZombie from rfl, hlive]
  simpa using hlt

private theorem load_post_le (p : Process β) (n : Nat) : (p.post n).load ≤ p.load + 1 := by
  have hsub : (p.post n).pendingSignals ⊆ insert n p.pendingSignals := fun m hm => by
    rw [mem_pendingSignals, post, SignalSet.contains_union, Bool.or_eq_true] at hm
    rw [Finset.mem_insert, mem_pendingSignals]
    rcases hm with hm | hm
    · exact .inr hm
    · simp only [SignalSet.contains_single, Bool.and_eq_true, decide_eq_true_eq] at hm
      exact .inl hm.2
  have hle := (Finset.card_le_card hsub).trans (Finset.card_insert_le _ _)
  unfold load
  rw [show (p.post n).isZombie = p.isZombie from rfl]
  split <;> omega

private theorem load_notify_le (p : Process β) : p.notify.load ≤ p.load + 1 := by
  have hwake : p.notify.load = (p.post sigChild).load :=
    load_congr (wake_isZombie _) (by unfold notify wake; split <;> rfl)
  exact hwake ▸ p.load_post_le sigChild

/-- A process from which a signal is taken counted for that signal and for itself. -/
private theorem two_le_load {p : Process β} {n : Nat} (hlive : p.isZombie = false) (hn : p.pending.contains n = true) :
    2 ≤ p.load := by
  have hpos : 0 < p.pendingSignals.card := Finset.card_pos.mpr ⟨n, mem_pendingSignals.mpr hn⟩
  simp only [load, hlive, Bool.false_eq_true, if_false]
  omega

end Process

namespace ProcessTable

variable {t u : ProcessTable β}

/-- What the process in a slot counts for. -/
def loadAt (t : ProcessTable β) (s : Slot) : Nat := ((t.get s).map Process.load).getD 0

/-- What all processes count for together. -/
def load (t : ProcessTable β) : Nat := ∑ s, t.loadAt s

private theorem loadAt_of_get {s : Slot} {p : Process β} (hp : t.get s = some p) : t.loadAt s = p.load := by
  simp [loadAt, hp]

private theorem loadAt_put (s s' : Slot) (p : Process β) :
    (t.put s (some p)).loadAt s' = if s' = s then p.load else t.loadAt s' := by
  unfold loadAt
  rw [get_put]
  by_cases hs : s = s'
  · simp [hs]
  · simp [hs, Ne.symm hs]

/-- The load is less than the number of deliveries that are tried. -/
theorem load_lt_signalBound (t : ProcessTable β) : t.load < Kernel.signalBound t := by
  have hoccupied : t.occupied.length = (Finset.univ.filter fun s => (t.get s).isSome).card := by
    have hnodup : t.occupied.Nodup := (List.nodup_finRange _).filter _
    rw [← List.toFinset_card_of_nodup hnodup]
    congr 1
    ext s
    simp [occupied, Slot.mem_all]
  have hle : t.load ≤ ∑ s, if (t.get s).isSome then lastSignal + 1 else 0 :=
    Finset.sum_le_sum fun s _ => by
      unfold loadAt
      cases t.get s with
      | none => simp
      | some p => simpa using p.load_le
  rw [← Finset.sum_filter, Finset.sum_const, Nat.nsmul_eq_mul, ← hoccupied] at hle
  unfold Kernel.signalBound
  rw [Nat.add_mul]
  omega

private theorem Passes.loadAt (h : t.Passes u) (s : Slot) : u.loadAt s = t.loadAt s := by
  obtain ⟨next, hnext, rfl⟩ := h
  obtain ⟨p, hp, hready⟩ := nextReady?_eq_some hnext
  unfold ProcessTable.loadAt
  rw [get_switchTo]
  split
  next hs =>
    subst hs
    rw [hp]
    exact Process.load_congr (by simp [Process.isZombie, hready]) rfl
  · rfl

private theorem load_adopt (s c : Slot) (p : Process β) : (t.adopt s c p).load = p.load := by
  have hdisown : (p.disown s).load = p.load :=
    Process.load_congr (by simp [Process.isZombie]) (by unfold Process.disown; split <;> rfl)
  unfold adopt
  split
  · rw [← hdisown]
    exact Process.load_congr (Process.wake_isZombie _) (by unfold Process.wake; split <;> rfl)
  · exact hdisown

/-- A process that exits no longer counts, and at most its parent counts for more. -/
private theorem loadAt_exited {s : Slot} {z : Process β} (hzombie : z.isZombie = true) (c : Slot) :
    (t.exited s z).loadAt c ≤ (if c = s then 0 else t.loadAt c) + if z.parent = some c then 1 else 0 := by
  unfold loadAt
  rw [get_exited, get_put]
  by_cases hc : c = s
  · subst hc
    have hdead : (t.exitEffect c z c z).isZombie = true := by
      rw [Process.isZombie_iff] at hzombie ⊢
      rcases exitEffect_status (t := t) c z c z with ⟨heq, -⟩ | ⟨hblocked, -⟩
      · rw [heq, hzombie]
      · rw [hzombie] at hblocked
        exact absurd hblocked (by simp)
    simp [Process.load, hdead]
  · rw [if_neg (Ne.symm hc), if_neg hc]
    cases t.get c with
    | none => simp
    | some q =>
      have hadopt := load_adopt (t := t.put s (some z)) s c q
      simp only [Option.map_some, Option.getD_some, exitEffect]
      split
      · exact hadopt ▸ Process.load_notify_le _
      · exact hadopt.le

/-- A delivery after which there may be more to deliver lowers the load. -/
theorem Delivers.load_lt {μ : Type} [MemorySystem μ β] (h : t.Delivers μ true u) (hr : t.Running) :
    u.load < t.load := by
  obtain ⟨p', hp', hlive⟩ := hr.live
  cases h with
  | @drop p n hp hn hdrop =>
    obtain rfl := Option.some.inj (hp'.symm.trans hp)
    have htake := Process.load_take_lt hlive (Process.contains_of_nextSignal? hn)
    refine Finset.sum_lt_sum (fun s _ => ?_) ⟨t.current, Finset.mem_univ _, ?_⟩
    · rw [loadAt_put]
      split
      next hs => exact hs ▸ (loadAt_of_get hp) ▸ htake.le
      · exact le_rfl
    · rw [loadAt_put, if_pos rfl, loadAt_of_get hp]
      exact htake
  | @terminate p n _ hp hn hdefault hfatal hexits =>
    obtain ⟨q, space, hq, hs, hspace, hpass⟩ := hexits
    obtain rfl := Option.some.inj (hp'.symm.trans hp)
    obtain rfl := Option.some.inj (hp.symm.trans hq)
    -- the load of the process that exits was two at least, and its parent, which is sent a signal, gains one at most
    have htwo := Process.two_le_load hlive (Process.contains_of_nextSignal? hn)
    have hle : ∀ c, u.loadAt c + (if c = t.current then 2 else 0) ≤
        t.loadAt c + if p'.parent = some c then 1 else 0 := fun c => by
      have hexited := loadAt_exited (t := t) (s := t.current) (z := p'.remains (Int32.ofInt (-(n : Int))) space) rfl c
      rw [show (p'.remains _ space).parent = p'.parent from rfl] at hexited
      rw [hpass.loadAt]
      by_cases hc : c = t.current
      · subst hc
        rw [if_pos rfl] at hexited ⊢
        rw [loadAt_of_get hp]
        omega
      · rw [if_neg hc] at hexited ⊢
        exact hexited
    have hsum := Finset.sum_le_sum fun c (_ : c ∈ Finset.univ) => hle c
    have hparent : (∑ c, if p'.parent = some c then 1 else 0) ≤ 1 := by
      cases p'.parent with
      | none => simp
      | some s => simp
    rw [Finset.sum_add_distrib, Finset.sum_add_distrib, Finset.sum_ite_eq' Finset.univ t.current] at hsum
    simp only [Finset.mem_univ, if_true] at hsum
    unfold load
    omega

end ProcessTable

end TrapKernel
