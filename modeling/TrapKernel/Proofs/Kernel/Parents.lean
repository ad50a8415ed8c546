import TrapKernel.Proofs.Kernel.History

/-!
# Parents and children

A process is linked to its parent by a slot, and slots are used again. The link is right all the same: it leads to the
process that made the call that created it, and to the first process from the moment on at which that one exits.

* `Kernel.History.Created.parent`: where the link of a process leads.
* `Kernel.History.knowsParents`: what a process is told about its parent, and which children a process has.
-/

namespace TrapKernel

namespace ProcessTable

variable {β : Type} {t : ProcessTable β} {s c : Slot} {p q : Process β}

private theorem parentPid_of_get (hp : t.get s = some p) (hparent : p.parent = some c) (hq : t.get c = some q) :
    t.parentPid s = q.pid := by
  unfold parentPid
  rw [hp, Option.bind_some, hparent, Option.bind_some, hq]

private theorem nodup_children (t : ProcessTable β) (s : Slot) : (t.children s).Nodup :=
  (List.nodup_finRange _).filter _

end ProcessTable

namespace Kernel

open ProcessTable

variable {σ φ : Type} [FileSystem σ] [Firmware φ] {k₀ : Kernel σ φ}

namespace History

/-- What holds of parents and children after `j` traps. The process that created another one is the one that was running
when the trap was made. -/
structure KnowsParents (H : History k₀) (j : Nat) : Prop where
  init : (H.table j).parentPid .init = 0
  /-- All other processes, exited ones included, have been created, and once only. -/
  created : ∀ s p, (H.table j).get s = some p → s ≠ .init →
    ∃ i, H.Created s i j ∧ Forks (H.frame i) (H.state i) p.pid ∧ ∀ i', H.Created s i' j → i' = i
  /-- The parent is the creator, which is still where it was, until it exits. -/
  survives : ∀ s i, H.Created s i j → H.Survives (H.table i).current i j →
    ∃ p q, (H.table i).get (H.table i).current = some p ∧ (H.table j).get (H.table i).current = some q ∧
      q.pid = p.pid ∧ (H.table j).parentPid s = p.pid
  /-- From then on it is the first process, whoever gets the slot of the creator. -/
  exited : ∀ s i, H.Created s i j → ¬H.Survives (H.table i).current i j → (H.table j).parentPid s = 0
  children : ∀ c s, s ∈ (H.table j).children c ↔ ∃ i, H.Created s i j ∧
    ((H.table i).current = c ∧ H.Survives c i j ∨ c = .init ∧ ¬H.Survives (H.table i).current i j)
  nodup : ∀ c, ((H.table j).children c).Nodup
  /-- A process that asks for the number of its parent is answered just that. -/
  answer : ∀ f r k', f.Asks .getParentPid → answerCall f (H.state j) = .ok r k' →
    r = .ok ((H.table j).parentPid (H.table j).current)

section Boot

variable {H : History k₀} {s : Slot} {i j : Nat} {entry stackPointer heapStart : UInt64} {memory : PhysicalMemory}
  {files : σ} {firmware : φ} {logLimit : Option LogLevel}
  (hboot : boot entry stackPointer heapStart memory files firmware logLimit = .ok k₀)

include hboot

/-- The process that makes a trap has not exited. -/
private theorem isLive_current (hi : i ≤ H.length) : (H.table i).isLive (H.table i).current = true :=
  isLive_iff.mpr (H.forest hboot hi).2.live

private theorem parentPid_eq_zero (hj : j ≤ H.length) {q : Process AddressSpace} (hq : (H.table j).get s = some q)
    (hparent : q.parent = some .init) : (H.table j).parentPid s = 0 := by
  obtain ⟨p, hp, hpid, -⟩ := (H.forest hboot hj).1.init
  exact (parentPid_of_get hq hparent hp).trans hpid

/-- The link of a process leads to its creator, and to the first process once that has exited. -/
theorem Created.parent (h : H.Created s i j) (hj : j ≤ H.length) :
    ∃ q, (H.table j).get s = some q ∧
      (H.Survives (H.table i).current i j → q.parent = some (H.table i).current) ∧
      (¬H.Survives (H.table i).current i j → q.parent = some .init) := by
  obtain ⟨hij, hfree, hstays⟩ := h
  induction j, hij using Nat.le_induction with
  | base =>
    obtain ⟨q, hq, -, hparent, -⟩ := Created.exists_forks hboot ⟨i.lt_succ_self, hfree, hstays⟩ hj
    have hlive := isLive_current (H := H) hboot (i := i) (by omega)
    rw [survives_succ_iff (by omega), survives_self_iff]
    refine ⟨q, hq, fun h => ?_, fun h => ?_⟩
    · rw [hparent, heir_of_isLive h.2]
    · rw [hparent, heir_of_not_isLive (by simpa [hlive] using h)]
  | succ j hij ih =>
    obtain ⟨p, hp, hsurvives, hexited⟩ := ih (by omega) (hstays.of_le le_rfl j.le_succ)
    obtain ⟨q, hq⟩ := Option.ne_none_iff_exists'.mp (hstays (j + 1) (by omega) le_rfl)
    have hparent := ((H.fates hboot hj).ages_slot hp hq).parent
    rw [survives_succ_iff (by omega)]
    refine ⟨q, hq, fun h => ?_, fun h => ?_⟩
    · rw [hparent, hsurvives h.1, Option.map_some, heir_of_isLive h.2]
    · by_cases hj' : H.Survives (H.table i).current i j
      · have hdead : (H.table (j + 1)).isLive (H.table i).current = false := by simpa [hj'] using h
        rw [hparent, hsurvives hj', Option.map_some, heir_of_not_isLive hdead]
      · rw [hparent, hexited hj', Option.map_some, heir_init]

private theorem mem_children_iff (hj : j ≤ H.length) (c : Slot) :
    s ∈ (H.table j).children c ↔ ∃ i, H.Created s i j ∧
      ((H.table i).current = c ∧ H.Survives c i j ∨ c = .init ∧ ¬H.Survives (H.table i).current i j) := by
  rw [mem_children]
  constructor
  · rintro ⟨q, hq, hparent⟩
    have hs : s ≠ .init := by
      rintro rfl
      obtain ⟨p, hp, -, hnone, -⟩ := (H.forest hboot hj).1.init
      obtain rfl := Option.some.inj (hp.symm.trans hq)
      exact absurd (hparent.symm.trans hnone) (by simp)
    obtain ⟨i, hcreated⟩ := exists_created hboot hj hq hs
    obtain ⟨q', hq', hsurvives, hexited⟩ := hcreated.parent hboot hj
    obtain rfl := Option.some.inj (hq.symm.trans hq')
    refine ⟨i, hcreated, ?_⟩
    by_cases h : H.Survives (H.table i).current i j
    · obtain rfl := Option.some.inj (hparent.symm.trans (hsurvives h))
      exact .inl ⟨rfl, h⟩
    · exact .inr ⟨Option.some.inj (hparent.symm.trans (hexited h)), h⟩
  · rintro ⟨i, hcreated, h⟩
    obtain ⟨q, hq, hsurvives, hexited⟩ := hcreated.parent hboot hj
    rcases h with ⟨rfl, h⟩ | ⟨rfl, h⟩
    · exact ⟨q, hq, hsurvives h⟩
    · exact ⟨q, hq, hexited h⟩

/-- A process that asks for the number of its parent is answered just that. -/
private theorem answer_getParentPid (hj : j ≤ H.length) {f : TrapFrame} {r : Except Errno UInt64} {k' : Kernel σ φ}
    (hasks : f.Asks .getParentPid) (h : answerCall f (H.state j) = .ok r k') :
    r = .ok ((H.table j).parentPid (H.table j).current) := by
  have hr := (H.forest hboot hj).2
  obtain ⟨p, hp, hlive⟩ := hr.live
  obtain ⟨k₁, henter, hperform⟩ := exists_perform hasks h
  have hanswer : EStateM.Result.ok (.ok (k₁.table.parentPid k₁.table.current)) k₁ = EStateM.Result.ok r k' := hperform
  rw [EStateM.Result.ok.injEq] at hanswer
  have halike : (H.table j).Alike f ((H.table j).put (H.table j).current (some { p with frame := f.advanced })) :=
    hr.alike_put hp rfl rfl hlive Process.sent_self
  rw [← hanswer.1, table_of_enterCall hp henter, current_put, halike.parentPid_eq]

/-- Links between parents and children tell the truth about who created whom. -/
theorem knowsParents (H : History k₀) (hj : j ≤ H.length) : H.KnowsParents j where
  init := by
    obtain ⟨p, hp, -, hparent, -⟩ := (H.forest hboot hj).1.init
    unfold parentPid
    rw [hp, Option.bind_some, hparent, Option.bind_none]
  created s p hp hs := by
    obtain ⟨i, hcreated⟩ := exists_created hboot hj hp hs
    obtain ⟨q, hq, hforks, -⟩ := hcreated.exists_forks hboot hj
    obtain ⟨p', hp', hpid, -⟩ := hcreated.stays.exists_get hboot hcreated.lt hj hq
    obtain rfl := Option.some.inj (hp.symm.trans hp')
    exact ⟨i, hcreated, hpid ▸ hforks, fun _ => hcreated.unique⟩
  survives s i hcreated h := by
    obtain ⟨q, hq, hparent, -⟩ := hcreated.parent hboot hj
    obtain ⟨p, hp⟩ := (H.forest hboot (i := i) (hcreated.lt.le.trans hj)).1.current
    obtain ⟨p', hp', hpid, -⟩ := h.stays.exists_get hboot hcreated.lt.le hj hp
    exact ⟨p, p', hp, hp', hpid, (parentPid_of_get hq (hparent h) hp').trans hpid⟩
  exited s i hcreated h := by
    obtain ⟨q, hq, -, hparent⟩ := hcreated.parent hboot hj
    exact parentPid_eq_zero hboot hj hq (hparent h)
  children c _ := mem_children_iff hboot hj c
  nodup _ := nodup_children _ _
  answer _ _ _ hasks h := answer_getParentPid hboot hj hasks h

end Boot

/-- The first process creates another one, which creates a third one and exits. Its slot is used again, but the third
process belongs to the first one from then on. -/
theorem knowsParents_reused : ∃ k₀ : Kernel EmptyFiles Bench.BenchFirmware, ∃ H : History k₀, benchStart = .ok k₀ ∧
    ((H.table 3).children 1 = [2] ∧ (H.table 3).parentPid 2 = 1) ∧
    ((H.table 7).children 1 = [] ∧ (H.table 7).children .init = [1, 2] ∧ (H.table 7).parentPid 2 = 0) ∧
    7 ≤ H.length ∧ H.KnowsParents 7 := by
  obtain ⟨k₀, H, hk₀, hlength, -, hstate⟩ := exists_benchHistory
    (show benchRun [callFrame .fork 0 0 0, callFrame .yield 0 0 0, callFrame .fork 0 0 0, callFrame .exit 0 0 0,
      callFrame .yield 0 0 0, callFrame .wait 1 0 0, callFrame .fork 0 0 0] (fun _ => true) = true by decide +kernel)
  have hbefore := hstate 3 (by simp) (fun k => k.table.children 1 = [2] ∧ k.table.parentPid 2 = 1) (by decide +kernel)
  have hafter := hstate 7 (by simp) (fun k => k.table.children 1 = [] ∧ k.table.children .init = [1, 2] ∧
    k.table.parentPid 2 = 0) (by decide +kernel)
  exact ⟨k₀, H, hk₀, of_decide_eq_true hbefore, of_decide_eq_true hafter, hlength.ge,
    knowsParents hk₀ H hlength.ge⟩

end History

end Kernel

end TrapKernel
