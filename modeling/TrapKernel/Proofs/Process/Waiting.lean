import TrapKernel.Proofs.Process.Slots

/-!
# Processes that wait

A blocked process waits for a child that its registers name. `ProcessTable.Patient` says that there is such a child and
that none of them has exited: whoever exits, and whoever leaves an exited child to the first process, wakes the parent
up. It holds after every trap.

* `ProcessTable.Traps.patient`: a trap keeps it.
* `ProcessTable.Traps.blocked`: a process that is blocked after a trap was so before, or it trapped to wait.
-/

namespace TrapKernel

variable {β : Type}

namespace ProcessTable

variable {t u : ProcessTable β} {s : Slot} {target : WaitTarget}

/-- Whether the process in a slot has a child that the target accepts, and no such child has exited. -/
structure Awaits (t : ProcessTable β) (s : Slot) (target : WaitTarget) : Prop where
  some_child : ∃ c q, t.get c = some q ∧ q.parent = some s ∧ target.accepts q = true
  none_exited : ∀ c q, t.get c = some q → q.parent = some s → target.accepts q = true → q.isZombie = false

/-- Whether every blocked process waits for a child as its registers say. -/
def Patient (t : ProcessTable β) : Prop :=
  ∀ s p, t.get s = some p → p.status = .blocked → t.Awaits s (.ofWord p.frame.a0)

private theorem accepts_congr {p q : Process β} (h : q.pid = p.pid) : target.accepts q = target.accepts p := by
  cases target <;> simp [WaitTarget.accepts, h]

theorem mem_waitedFor {c : Slot} :
    c ∈ t.waitedFor s target ↔ ∃ q, t.get c = some q ∧ q.parent = some s ∧ target.accepts q = true := by
  unfold waitedFor
  rw [List.mem_filter, mem_children]
  cases hq : t.get c with
  | none => simp
  | some q => simp

private theorem awaits_of_waitedFor (hsome : t.waitedFor s target ≠ [])
    (hnone : ∀ c ∈ t.waitedFor s target, t.hasStatus c .zombie = false) : t.Awaits s target where
  some_child := by
    obtain ⟨c, hc⟩ := List.exists_mem_of_ne_nil _ hsome
    exact ⟨c, mem_waitedFor.mp hc⟩
  none_exited c q hq hparent haccepts := by
    have hstatus := hnone c (mem_waitedFor.mpr ⟨q, hq, hparent, haccepts⟩)
    rwa [hasStatus, hq] at hstatus

/-- It matters only that the children that have not exited stay, and that no other child is an exited one. -/
private theorem Awaits.of_children (h : t.Awaits s target)
    (hfwd : ∀ c q, t.get c = some q → q.parent = some s → q.isZombie = false →
      ∃ q', u.get c = some q' ∧ q'.pid = q.pid ∧ q'.parent = some s)
    (hback : ∀ c q', u.get c = some q' → q'.parent = some s → q'.isZombie = true →
      ∃ q, t.get c = some q ∧ q.pid = q'.pid ∧ q.parent = some s ∧ q.isZombie = true) : u.Awaits s target where
  some_child := by
    obtain ⟨c, q, hq, hparent, haccepts⟩ := h.some_child
    obtain ⟨q', hq', hpid, hparent'⟩ := hfwd c q hq hparent (h.none_exited c q hq hparent haccepts)
    exact ⟨c, q', hq', hparent', (accepts_congr hpid).trans haccepts⟩
  none_exited c q' hq' hparent haccepts := by
    by_contra hzombie
    obtain ⟨q, hq, hpid, hparent', hz⟩ := hback c q' hq' hparent (by simpa using hzombie)
    have hlive := h.none_exited c q hq hparent' ((accepts_congr hpid).trans haccepts)
    rw [hz] at hlive
    exact absurd hlive (by simp)

/-! ### Single steps -/

/-- The same processes, up to changes that touch neither numbers nor parents nor exits. -/
private theorem Awaits.of_rel (h : t.Awaits s target)
    (hrel : ∀ c, Option.Rel (fun p q => q.pid = p.pid ∧ q.parent = p.parent ∧ q.isZombie = p.isZombie)
      (t.get c) (u.get c)) : u.Awaits s target := by
  refine h.of_children (fun c q hq hparent _ => ?_) fun c q' hq' hparent hzombie => ?_
  · have hc := hrel c
    rw [hq] at hc
    generalize u.get c = after at hc ⊢
    cases hc with
    | some h => exact ⟨_, rfl, h.1, h.2.1.trans hparent⟩
  · have hc := hrel c
    rw [hq'] at hc
    generalize t.get c = before at hc ⊢
    cases hc with
    | some h => exact ⟨_, rfl, h.1.symm, h.2.1.symm.trans hparent, h.2.2.symm.trans hzombie⟩

/-- One process is changed, but not its number or parent, and it does not exit. -/
private theorem Patient.put (h : t.Patient) {p q : Process β} (hp : t.get s = some p) (hpid : q.pid = p.pid)
    (hparent : q.parent = p.parent) (hzombie : q.isZombie = p.isZombie)
    (hblocked : q.status = .blocked → t.Awaits s (.ofWord q.frame.a0)) : (t.put s (some q)).Patient := by
  intro s' q' hq' hb
  have hrel : ∀ c, Option.Rel (fun p q => q.pid = p.pid ∧ q.parent = p.parent ∧ q.isZombie = p.isZombie)
      (t.get c) ((t.put s (some q)).get c) := fun c => by
    rw [get_put]
    split
    next hc =>
      subst hc
      rw [hp]
      exact .some ⟨hpid, hparent, hzombie⟩
    · cases t.get c with
      | none => exact .none
      | some r => exact .some ⟨rfl, rfl, rfl⟩
  refine Awaits.of_rel ?_ hrel
  by_cases hs : s' = s
  · subst hs
    rw [get_put_self, Option.some.injEq] at hq'
    exact hq' ▸ hblocked (hq'.symm ▸ hb)
  · rw [get_put_of_ne _ hs] at hq'
    exact h s' q' hq' hb

/-- A process that has exited is removed, or a slot without a process gets one that is neither blocked nor exited. -/
private theorem Patient.replace (h : t.Patient) {c : Slot} {q : Option (Process β)}
    (hc : ∀ p, t.get c = some p → p.isZombie = true)
    (hq : ∀ p, q = some p → p.status ≠ .blocked ∧ p.isZombie = false) : (t.put c q).Patient := by
  intro s p hp hb
  have hs : s ≠ c := by
    rintro rfl
    rw [get_put_self] at hp
    exact (hq p hp).1 hb
  rw [get_put_of_ne _ hs] at hp
  refine (h s p hp hb).of_children (fun d r hr hparent hlive => ?_) fun d r' hr' hparent hzombie => ?_
  · have hd : d ≠ c := by
      rintro rfl
      rw [hc r hr] at hlive
      exact absurd hlive (by simp)
    exact ⟨r, by rw [get_put_of_ne _ hd, hr], rfl, hparent⟩
  · have hd : d ≠ c := by
      rintro rfl
      rw [get_put_self] at hr'
      rw [(hq r' hr').2] at hzombie
      exact absurd hzombie (by simp)
    exact ⟨r', by rwa [get_put_of_ne _ hd] at hr', rfl, hparent, hzombie⟩

private theorem Patient.congr (h : t.Patient) (hget : ∀ s, u.get s = t.get s) : u.Patient := by
  intro s p hp hb
  rw [hget] at hp
  refine (h s p hp hb).of_children (fun c q hq hparent _ => ?_) fun c q hq hparent hzombie => ?_
  · exact ⟨q, by rw [hget, hq], rfl, hparent⟩
  · exact ⟨q, by rw [← hget, hq], rfl, hparent, hzombie⟩

private theorem Patient.passes (h : t.Patient) (hpass : t.Passes u) : u.Patient := by
  obtain ⟨next, hnext, rfl⟩ := hpass
  obtain ⟨p, hp, hready⟩ := nextReady?_eq_some hnext
  have hput : (t.put next (some { p with status := .running })).Patient :=
    h.put hp rfl rfl (by simp [Process.isZombie, hready]) (by simp)
  rw [switchTo, modifyAt_eq_put hp]
  exact hput.congr fun _ => rfl

private theorem Patient.works (h : t.Patient) (hr : t.Running) (hw : t.Works u) : u.Patient := by
  obtain ⟨p, q, hp, ⟨_, _, _, _, rfl⟩, rfl⟩ := hw
  obtain ⟨p', hp', hrun⟩ := hr
  obtain rfl := Option.some.inj (hp.symm.trans hp')
  exact h.put hp rfl rfl rfl fun hb => absurd (hrun.symm.trans hb) (by simp)

private theorem Patient.suspends (h : t.Patient) (hr : t.Running) (hsuspends : t.Suspends u) : u.Patient := by
  obtain ⟨p, hp, hpass⟩ := hsuspends
  obtain ⟨p', hp', hrun⟩ := hr
  obtain rfl := Option.some.inj (hp.symm.trans hp')
  have hput : (t.put t.current (some { p with status := .ready })).Patient :=
    h.put hp rfl rfl (by simp [Process.isZombie, hrun]) (by simp)
  exact hput.passes hpass

/-- When an exited process has an exited child, the first process is not blocked afterwards. -/
private theorem exitEffect_init_status {z : Process β} (hz : (t.put s (some z)).hasZombieChild s = true)
    (p : Process β) : (t.exitEffect s z .init p).status ≠ .blocked := by
  have hadopt : ((t.put s (some z)).adopt s .init p).status ≠ .blocked := by
    rw [adopt, if_pos ⟨hz, rfl⟩, Process.wake_status]
    split
    · simp
    · assumption
  unfold exitEffect
  split
  · rw [Process.notify_status]
    split
    · simp
    · assumption
  · exact hadopt

variable {μ : Type} [MemorySystem μ β]

/-- Who is still blocked after an exit is not the parent, and if it is the first process no exited child came to it. -/
private theorem Patient.exited (h : t.Patient) (hforest : t.Forest μ) {p : Process β} {code : Int32} {space : β}
    (hp : t.get t.current = some p) (hs : t.current ≠ .init) : (t.exited t.current (p.remains code space)).Patient := by
  have hremains := hforest.remains_parent_ne hp code space
  have hget : ∀ {c q}, c ≠ t.current → t.get c = some q → (t.exited t.current (p.remains code space)).get c =
      some (t.exitEffect t.current (p.remains code space) c q) := fun {c q} hc hq => by
    rw [get_exited_of_ne _ hc, hq, Option.map_some]
  intro s q' hq' hb
  rcases get_exited_eq_some hs hremains hq' with ⟨-, rfl⟩ | ⟨hne, q, hq, rfl⟩
  · exact absurd hb (by simp [Process.remains])
  have hbystander := bystander_exitEffect (t := t) t.current (p.remains code space) s q
  obtain ⟨hb₀, -⟩ := hbystander.blocked hb
  have hnotparent : p.parent ≠ some s := fun hparent => by
    rcases exitEffect_status (t := t) t.current (p.remains code space) s q with ⟨-, hother⟩ | ⟨-, hready⟩
    · exact hother hparent hb₀
    · exact absurd (hready.symm.trans hb) (by simp)
  rw [hbystander.frame]
  refine (h s q hq hb₀).of_children (fun c r hr hparent hlive => ?_) fun c r' hr' hparent hzombie => ?_
  · have hc : c ≠ t.current := by
      rintro rfl
      exact hnotparent (Option.some.inj (hp.symm.trans hr) ▸ hparent)
    refine ⟨_, hget hc hr, exitEffect_pid _ _ _ _, ?_⟩
    rw [exitEffect_parent, if_neg (by rw [hparent]; simpa using hne), hparent]
  · rcases get_exited_eq_some hs hremains hr' with ⟨-, rfl⟩ | ⟨hc, r, hr, rfl⟩
    · exact absurd hparent hnotparent
    have hzombie' : r.isZombie = true := (bystander_exitEffect _ _ _ _).isZombie.symm.trans hzombie
    rw [exitEffect_parent] at hparent
    split at hparent
    next hchild =>
      -- an exited child of the process that exits: the first process gets it and is woken up
      obtain rfl := Option.some.inj hparent
      have hadopted : (t.put t.current (some (p.remains code space))).hasZombieChild t.current = true := by
        have hr'' : (t.put t.current (some (p.remains code space))).get c = some r := by rw [get_put_of_ne _ hc, hr]
        exact List.any_eq_true.mpr ⟨c, mem_children.mpr ⟨r, hr'', hchild⟩,
          hasStatus_iff.mpr ⟨r, hr'', Process.isZombie_iff.mp hzombie'⟩⟩
      exact absurd hb (exitEffect_init_status hadopted q)
    · exact ⟨r, hr, (exitEffect_pid _ _ _ _).symm, hparent, hzombie'⟩

private theorem Patient.exits (h : t.Patient) (hforest : t.Forest μ) {code : Int32} (hexits : t.Exits μ code u) :
    u.Patient := by
  obtain ⟨p, space, hp, hs, -, hpass⟩ := hexits
  exact (h.exited hforest hp hs).passes hpass

/-! ### A whole trap -/

private theorem CallEffect.patient {call : Option SystemCall} {r : Except Errno UInt64} {p : Process β}
    (heffect : t.CallEffect μ p.frame call r u) (h : t.Patient) (hforest : t.Forest μ)
    (hp : t.get t.current = some p) (hrun : p.status = .running) : u.Patient := by
  have hr : t.Running := ⟨p, hp, hrun⟩
  cases heffect with
  | unassigned | forkFull _ | killFails | signalReturnFails _ _ | noChild _ => exact h
  | works _ hworks => exact h.works hr hworks
  | forkFails _ => exact h.congr fun _ => rfl
  | @fork c p' space hfree hp' =>
    have halloc : t.allocPid.2.Patient := h.congr fun _ => rfl
    refine halloc.replace (fun q hq => ?_) fun q hq => ?_
    · rw [get_allocPid, firstFree?_eq_some hfree] at hq
      exact absurd hq (by simp)
    · obtain rfl := Option.some.inj hq
      exact ⟨by simp [Process.child], by simp [Process.child, Process.isZombie]⟩
  | @kill c q _ hq hlive _ =>
    refine h.put hq (by simp [Process.post]) (by simp [Process.post]) (Process.wake_isZombie _) fun hb => ?_
    -- who is sent a signal is not blocked any longer
    exact absurd hb (by rw [Process.wake_status]; split <;> simp_all)
  | exit hexits => exact h.exits hforest hexits
  | signalReturn hp' _ =>
    obtain rfl := Option.some.inj (hp.symm.trans hp')
    exact h.put hp rfl rfl rfl fun hb => absurd (hrun.symm.trans hb) (by simp)
  | @collect c z _ _ _ hz hzombie _ hworks =>
    have hc : t.current ≠ c := by
      rintro rfl
      rw [← Option.some.inj (hp.symm.trans hz), Process.isZombie_iff, hrun] at hzombie
      exact absurd hzombie (by simp)
    have hreap : (t.put c none).Patient :=
      h.replace (fun q hq => by rwa [← Option.some.inj (hz.symm.trans hq)]) fun q hq => absurd hq (by simp)
    exact hreap.works ⟨p, by rw [current_put, get_put_of_ne _ hc, hp], hrun⟩ hworks
  | wait hsome hnone hp' _ hpass =>
    obtain rfl := Option.some.inj (hp.symm.trans hp')
    have hblock : (t.put t.current (some { p with frame := p.frame.rewound, status := .blocked })).Patient :=
      h.put hp rfl rfl (by simp [Process.isZombie, hrun]) fun _ => awaits_of_waitedFor hsome hnone
    exact hblock.passes hpass
  | yield hsuspends => exact h.suspends hr hsuspends

/-- The result of a call is left in the registers of a process that goes on; one that waits has it there already. -/
private theorem CauseEffect.patient (heffect : t.CauseEffect μ u) (h : t.Patient) (hforest : t.Forest μ)
    (hr : t.Running) : u.Patient := by
  obtain ⟨p, hp, hrun⟩ := id hr
  have hlive : p.isZombie = false := Process.isZombie_eq_false_iff.mpr (by simp [hrun])
  cases heffect with
  | @call _ r u hp' _ _ hcall =>
    obtain rfl := Option.some.inj (hp.symm.trans hp')
    have hframe : (t.put t.current (some { p with frame := p.frame.advanced })).Patient :=
      h.put hp rfl rfl rfl fun hb => absurd (hrun.symm.trans hb) (by simp)
    obtain ⟨hforest', -⟩ := (move_of_frame (μ := μ) hp hlive p.frame.advanced).forest hforest hr
    have hu : u.Patient := hcall.patient hframe hforest' (get_put_self _ _ _) hrun
    obtain ⟨q, hcalled, hq⟩ := hcall.self hforest' (get_put_self _ _ _) hrun
    rw [current_put] at hq
    rw [modifyAt_eq_put hq]
    refine hu.put hq (by simp) (by simp) (by simp [Process.isZombie]) fun hb => ?_
    rw [Process.withResult_status] at hb
    rw [hcalled.withResult_eq hrun hb]
    exact hu _ q hq hb
  | timer _ _ hsuspends => exact h.suspends hr hsuspends
  | fault _ _ hworks => exact h.works hr hworks
  | fatal _ _ _ _ hworks hexits =>
    exact (h.works hr hworks).exits ((hworks.move hr).forest hforest hr).1 hexits

private theorem Delivers.patient {more : Bool} (hdelivers : t.Delivers μ more u) (h : t.Patient) (hforest : t.Forest μ)
    (hr : t.Running) : u.Patient := by
  obtain ⟨p, hp, hrun⟩ := hr
  cases hdelivers with
  | done _ _ => exact h
  | enter hp' _ _ =>
    obtain rfl := Option.some.inj (hp.symm.trans hp')
    exact h.put hp rfl rfl rfl fun hb => absurd (hrun.symm.trans hb) (by simp)
  | drop hp' _ _ =>
    obtain rfl := Option.some.inj (hp.symm.trans hp')
    exact h.put hp rfl rfl rfl fun hb => absurd (hrun.symm.trans hb) (by simp)
  | terminate _ _ _ _ hexits => exact h.exits hforest hexits

private theorem Settles.patient (hsettles : t.Settles μ u) (h : t.Patient) (hforest : t.Forest μ) (hr : t.Running) :
    u.Patient := by
  induction hsettles with
  | stop hdelivers => exact hdelivers.patient h hforest hr
  | more hdelivers _ ih =>
    obtain ⟨hforest', hr'⟩ := forest_of_moves (hdelivers.moves hr) hforest hr
    exact ih (hdelivers.patient h hforest hr) hforest' hr'

/-- After a trap every blocked process waits as its registers say, if that was so before. -/
theorem Traps.patient {f : TrapFrame} (htraps : t.Traps μ f u) (h : t.Patient) (hforest : t.Forest μ)
    (hr : t.Running) : u.Patient := by
  obtain ⟨p, t₁, t₂, hp, hrun, -, rfl, hforest₁, hr₁, hcause, hforest₂, hr₂, hsettles⟩ := htraps.stages hforest hr
  have hframe : (t.put t.current (some { p with frame := f })).Patient :=
    h.put hp rfl rfl rfl fun hb => absurd (hrun.symm.trans hb) (by simp)
  exact hsettles.patient (hcause.patient hframe hforest₁ hr₁) hforest₂ hr₂

/-! ### Where a blocked process comes from -/

/-- A process that is blocked after a trap was so before, or it is the one that trapped, to wait. Besides its status
and its registers, at most its parent has changed. -/
theorem Traps.blocked {f : TrapFrame} (htraps : t.Traps μ f u) (hforest : t.Forest μ) (hr : t.Running)
    {q : Process β} (hq : u.get s = some q) (hb : q.status = .blocked) :
    ∃ p, t.get s = some p ∧ (p.status = .blocked ∧ q = { p with parent := q.parent } ∨
      s = t.current ∧ f.Asks .wait ∧ q = { p with frame := f, status := .blocked, parent := q.parent }) := by
  by_cases hs : s = t.current
  · subst hs
    obtain ⟨p, hp, hrun⟩ := id hr
    obtain ⟨r, q', hserved, hsettled, hq'⟩ := htraps.self hforest hr hp
    obtain rfl := Option.some.inj (hq.symm.trans hq')
    obtain ⟨hrb, hrq⟩ := hsettled.blocked hb
    obtain ⟨hasks, rfl⟩ := hserved.blocked hrun hrb
    exact ⟨p, hp, .inr ⟨rfl, hasks, hrq⟩⟩
  · rcases htraps.origin hforest hr hs hq with ⟨p, hp, hsettled⟩ | ⟨_, _, _, _, -, hsettled⟩
    · exact ⟨p, hp, .inl (hsettled.blocked hb)⟩
    · exact absurd (hsettled.blocked hb).1 (by simp [Process.child])

end ProcessTable

end TrapKernel
