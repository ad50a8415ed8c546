import TrapKernel.Proofs.Process.Slots

/-!
# Tables in which signals can be delivered

When a signal ends the running process, its parent learns of it and can run, so there is always a process to go on with.
`ProcessTable.Parented` is what this takes: every process but the first one has a parent that has not exited. It asks
less than `ProcessTable.Forest`, and the delivery of signals keeps it.

* `ProcessTable.Parented.nextReady?_exited`: after an exit some process is ready.
* `ProcessTable.Delivers.parented`: a delivery leads from such a table to such a table.
-/

namespace TrapKernel

namespace ProcessTable

variable {β : Type}

/-- Whether the process in the current slot alone is running, and every process but the first one is the child of
another one that has not exited. -/
structure Parented (t : ProcessTable β) : Prop where
  init : ∃ p, t.get .init = some p ∧ p.parent = none ∧ p.isZombie = false
  current : t.Running
  running : ∀ s p, t.get s = some p → p.status = .running → s = t.current
  parent : ∀ s p, t.get s = some p → s ≠ .init →
    ∃ s' p', p.parent = some s' ∧ s' ≠ s ∧ t.get s' = some p' ∧ p'.isZombie = false

variable {μ : Type} [MemorySystem μ β] {t u : ProcessTable β}

theorem Forest.parented (h : t.Forest μ) (hr : t.Running) : t.Parented where
  init := by
    obtain ⟨p, hp, -, hparent, hlive⟩ := h.init
    exact ⟨p, hp, hparent, hlive⟩
  current := hr
  running := h.running
  parent s p hp hs := by
    obtain ⟨s', p', hparent, hp', hlive⟩ := h.parent s p hp hs
    exact ⟨s', p', hparent, h.parent_ne hp hparent, hp', hlive⟩

namespace Parented

theorem parent_ne (h : t.Parented) {s : Slot} {p : Process β} (hp : t.get s = some p) : p.parent ≠ some s := by
  intro hself
  by_cases hs : s = .init
  · obtain ⟨q, hq, hnone, -⟩ := h.init
    rw [hs] at hp
    rw [← Option.some.inj (hq.symm.trans hp), hnone] at hself
    exact absurd hself (by simp)
  · obtain ⟨s', -, hparent, hne, -, -⟩ := h.parent s p hp hs
    exact hne (Option.some.inj (hparent.symm.trans hself))

/-- A process that is changed keeps its place. -/
theorem put (h : t.Parented) {s : Slot} {p q : Process β} (hp : t.get s = some p) (hstatus : q.status = p.status)
    (hparent : q.parent = p.parent) : (t.put s (some q)).Parented := by
  have hzombie : q.isZombie = p.isZombie := by simp [Process.isZombie, hstatus]
  -- whoever is in a slot afterwards has the status and the parent of the one who was there before
  have hback : ∀ {c r}, (t.put s (some q)).get c = some r → ∃ r', t.get c = some r' ∧ r.status = r'.status ∧
      r.parent = r'.parent := fun {c r} hr => by
    rw [get_put] at hr
    split at hr
    next hs => exact ⟨p, hs ▸ hp, Option.some.inj hr ▸ hstatus, Option.some.inj hr ▸ hparent⟩
    · exact ⟨r, hr, rfl, rfl⟩
  have hforth : ∀ {c r}, t.get c = some r → ∃ r', (t.put s (some q)).get c = some r' ∧ r'.status = r.status ∧
      r'.parent = r.parent ∧ r'.isZombie = r.isZombie := fun {c r} hr => by
    rw [get_put]
    split
    next hs =>
      obtain rfl := Option.some.inj ((hs ▸ hp).symm.trans hr)
      exact ⟨q, rfl, hstatus, hparent, hzombie⟩
    · exact ⟨r, hr, rfl, rfl, rfl⟩
  constructor
  case init =>
    obtain ⟨r, hr, hnone, hlive⟩ := h.init
    obtain ⟨r', hr', -, hparent', hzombie'⟩ := hforth hr
    exact ⟨r', hr', hparent'.trans hnone, hzombie'.trans hlive⟩
  case current =>
    obtain ⟨r, hr, hrun⟩ := h.current
    obtain ⟨r', hr', hstatus', -, -⟩ := hforth hr
    exact ⟨r', hr', hstatus'.trans hrun⟩
  case running =>
    intro c r hr hrun
    obtain ⟨r', hr', hstatus', -⟩ := hback hr
    exact h.running c r' hr' (hstatus'.symm.trans hrun)
  case parent =>
    intro c r hr hc
    obtain ⟨r', hr', -, hparent'⟩ := hback hr
    obtain ⟨c', q', hq', hne, hget, hlive⟩ := h.parent c r' hr' hc
    obtain ⟨q'', hget', -, -, hzombie'⟩ := hforth hget
    exact ⟨c', q'', hparent'.trans hq', hne, hget', hzombie'.trans hlive⟩

/-- When a process has exited, its parent is ready. -/
theorem nextReady?_exited (h : t.Parented) {p : Process β} (hp : t.get t.current = some p) (hs : t.current ≠ .init)
    (code : Int32) (space : β) : (t.exited t.current (p.remains code space)).nextReady? ≠ none := by
  obtain ⟨c, q, hparent, hne, hq, hlive⟩ := h.parent _ p hp hs
  refine fun hnone => nextReady?_eq_none.mp hnone c _ (by rw [get_exited_of_ne _ hne, hq]; rfl) ?_
  rcases exitEffect_status (t := t) t.current (p.remains code space) c q with ⟨heq, hblocked⟩ | ⟨-, hready⟩
  · rw [heq]
    cases hstatus : q.status with
    | ready => rfl
    | running => exact absurd (h.running c q hq hstatus) hne
    | blocked => exact absurd hstatus (hblocked hparent)
    | zombie => exact absurd hstatus (Process.isZombie_eq_false_iff.mp hlive)
  · exact hready

end Parented

/-- After an exit the children of the process that exited have the first one as parent. -/
theorem Exits.parented {code : Int32} (hexits : t.Exits μ code u) (h : t.Parented) : u.Parented := by
  -- those who had not exited before have not exited afterwards, apart from the one that exits
  have hlives : ∀ {c q}, c ≠ t.current → t.get c = some q → q.isZombie = false →
      ∃ q', u.get c = some q' ∧ q'.isZombie = false := fun {c q} hc hq hlive => by
    have hslot := hexits.slot hc
    rw [hq] at hslot
    generalize u.get c = after at hslot ⊢
    cases hslot with
    | some hstays => exact ⟨_, rfl, hstays.isZombie.trans hlive⟩
  obtain ⟨p, space, hp, hs, -, next, hnext, rfl⟩ := id hexits
  have hremains : (p.remains code space).parent ≠ some t.current := fun hparent => h.parent_ne hp hparent
  have hback : ∀ {c q}, ((t.exited t.current (p.remains code space)).switchTo next).get c = some q →
      ∃ q', (t.exited t.current (p.remains code space)).get c = some q' ∧ q.parent = q'.parent ∧
        (c ≠ next → q = q') := fun {c q} hq => by
    rw [get_switchTo] at hq
    split at hq
    next hc =>
      obtain ⟨q', hq', rfl⟩ := Option.map_eq_some_iff.mp hq
      exact ⟨q', hq', rfl, fun hne => absurd hc.symm hne⟩
    · exact ⟨q, hq, rfl, fun _ => rfl⟩
  obtain ⟨first, hfirst, hnone, hlive⟩ := h.init
  constructor
  case init =>
    obtain ⟨q, hq, hqlive⟩ := hlives (Ne.symm hs) hfirst hlive
    obtain ⟨q', hq', hparent, -⟩ := hback hq
    refine ⟨q, hq, ?_, hqlive⟩
    rw [get_exited_of_ne _ (Ne.symm hs), hfirst, Option.map_some, Option.some.injEq] at hq'
    rw [hparent, ← hq', exitEffect_parent, if_neg (by simp [hnone]), hnone]
  case current =>
    obtain ⟨q, hq, -⟩ := nextReady?_eq_some hnext
    exact ⟨{ q with status := .running }, by rw [current_switchTo, get_switchTo, if_pos rfl, hq]; rfl, rfl⟩
  case running =>
    intro c q hq hrun
    rw [current_switchTo]
    by_contra hc
    obtain ⟨q', hq', -, heq⟩ := hback hq
    obtain rfl := heq hc
    -- who was running before has exited
    rcases get_exited_eq_some hs hremains hq' with ⟨-, rfl⟩ | ⟨hne, r, hr, rfl⟩
    · exact absurd hrun (by simp [Process.remains])
    · rcases exitEffect_status (t := t) t.current (p.remains code space) c r with ⟨hstatus, -⟩ | ⟨-, hready⟩
      · exact hne (h.running c r hr (hstatus.symm.trans hrun))
      · exact absurd (hready.symm.trans hrun) (by simp)
  case parent =>
    intro c q hq hc
    obtain ⟨q', hq', hparent, -⟩ := hback hq
    rw [hparent]
    rcases get_exited_eq_some hs hremains hq' with ⟨rfl, rfl⟩ | ⟨hne, r, hr, rfl⟩
    · obtain ⟨c', r', hr', hne', hget, hrlive⟩ := h.parent _ p hp hs
      obtain ⟨r'', hget', hlive'⟩ := hlives hne' hget hrlive
      exact ⟨c', r'', hr', hne', hget', hlive'⟩
    · rw [exitEffect_parent]
      split
      · obtain ⟨q'', hget, hlive'⟩ := hlives (Ne.symm hs) hfirst hlive
        exact ⟨.init, q'', rfl, Ne.symm hc, hget, hlive'⟩
      next hnot =>
        obtain ⟨c', r', hr', hne', hget, hrlive⟩ := h.parent c r hr hc
        obtain ⟨r'', hget', hlive'⟩ := hlives (by rintro rfl; exact hnot hr') hget hrlive
        exact ⟨c', r'', hr', hne', hget', hlive'⟩

theorem Delivers.parented {more : Bool} (hdelivers : t.Delivers μ more u) (h : t.Parented) : u.Parented := by
  cases hdelivers with
  | done _ _ => exact h
  | enter hp _ _ => exact h.put hp rfl rfl
  | drop hp _ _ => exact h.put hp rfl rfl
  | terminate _ _ _ _ hexits => exact hexits.parented h

end ProcessTable

end TrapKernel
