import TrapKernel.Proofs.Kernel.Calls
import TrapKernel.Proofs.Kernel.Handlers
import TrapKernel.Proofs.Process.Fates

/-!
# What becomes of the processes at a trap

A trap creates a process if it asks for that and is answered the number of the new process. It removes one if it waits
for it and collects its exit code. There is no third way in which processes come and go.

* `Kernel.trapWith_fates`: what a trap does to all slots.
* `Kernel.Fates.ages_slot`, `Kernel.Fates.forks_of_filled`, `Kernel.Fates.collects_of_emptied`: what it does to one.
-/

namespace TrapKernel

namespace Kernel

open ProcessTable

variable {μ β σ φ : Type} [MemorySystem μ β] [FileSystem σ] [Firmware φ] {k k' : KernelState μ β σ φ} {f : TrapFrame}
  {u : ProcessTable β} {s : Slot} {p q : Process β} {pid : UInt64} {code : Int32}

/-- A trap with the registers `f` makes a system call that creates a process and answers its number. -/
def Forks (f : TrapFrame) (k : KernelState μ β σ φ) (pid : UInt64) : Prop :=
  f.Asks .fork ∧ ∃ k', answerCall f k = .ok (.ok pid) k'

/-- A trap with the registers `f` makes a system call that waits and collects the number and exit code of a process. -/
def Collects (f : TrapFrame) (k : KernelState μ β σ φ) (pid : UInt64) (code : Int32) : Prop :=
  f.Asks .wait ∧ ∃ k₁ k₂, enterCall .wait f k = .ok () k₁ ∧
    (collect (.ofWord f.a0)).run k₁ = .ok (.ok (some (pid, code))) k₂

instance (f : TrapFrame) (k : KernelState μ β σ φ) (pid : UInt64) : Decidable (Forks f k pid) :=
  match hanswer : answerCall f k with
  | .ok (.ok answer) _ => decidable_of_iff (f.Asks .fork ∧ answer = pid) (by simp [Forks, hanswer])
  | .ok (.error _) _ | .error _ _ => isFalse (by simp [Forks, hanswer])

instance (f : TrapFrame) (k : KernelState μ β σ φ) (pid : UInt64) (code : Int32) : Decidable (Collects f k pid code) :=
  match henter : enterCall .wait f k with
  | .error _ _ => isFalse (by simp [Collects, henter])
  | .ok () k₁ =>
    match hcollect : (collect (.ofWord f.a0)).run k₁ with
    | .ok (.ok (some found)) _ =>
      decidable_of_iff (f.Asks .wait ∧ found = (pid, code)) (by simp [Collects, henter, hcollect])
    | .ok (.ok none) _ | .ok (.error _) _ | .error _ _ => isFalse (by simp [Collects, henter, hcollect])

/-- What becomes of the processes at a trap with the registers `f`. -/
inductive Fates (f : TrapFrame) (k : KernelState μ β σ φ) (u : ProcessTable β) : Prop
  | ages {v : ProcessTable β} (hv : v = k.table ∨ v = k.table.allocPid.2) (h : v.Ages f k.table.current u)
      (hforks : ∀ pid, ¬Forks f k pid) (hcollects : ∀ pid code, ¬Collects f k pid code)
  | born {s : Slot} {q : Process β} (hforks : Forks f k q.pid) (hs : k.table.get s = none)
      (hpid : q.pid = k.table.allocPid.1) (hparent : q.parent = some k.table.current) (hlive : q.isZombie = false)
      (hpending : q.pending = .empty) (h : (k.table.allocPid.2.put s (some q)).Ages f k.table.current u)
  | removed {c : Slot} {z : Process β} (hcollects : Collects f k z.pid z.exitCode) (hz : k.table.get c = some z)
      (hzombie : z.isZombie = true) (hparent : z.parent = some k.table.current)
      (haccepts : (WaitTarget.ofWord f.a0).accepts z = true) (h : (k.table.put c none).Ages f k.table.current u)

/-! ### Creations and removals -/

private theorem Forks.unique {pid' : UInt64} (h : Forks f k pid) (h' : Forks f k pid') : pid' = pid := by
  obtain ⟨-, k₁, hanswer⟩ := h
  obtain ⟨-, k₂, hanswer'⟩ := h'
  have heq := hanswer.symm.trans hanswer'
  simp only [EStateM.Result.ok.injEq, Except.ok.injEq] at heq
  exact heq.1.symm

omit [FileSystem σ] [Firmware φ] in
private theorem Collects.unique {pid' : UInt64} {code' : Int32} (h : Collects f k pid code)
    (h' : Collects f k pid' code') : pid' = pid ∧ code' = code := by
  obtain ⟨-, k₁, k₂, henter, hcollect⟩ := h
  obtain ⟨-, k₁', k₂', henter', hcollect'⟩ := h'
  have heq := henter.symm.trans henter'
  simp only [EStateM.Result.ok.injEq, true_and] at heq
  subst heq
  have heq := hcollect.symm.trans hcollect'
  simp only [EStateM.Result.ok.injEq, Except.ok.injEq, Option.some.injEq, Prod.mk.injEq] at heq
  exact ⟨heq.1.1.symm, heq.1.2.symm⟩

theorem Forks.not_collects (h : Forks f k pid) (pid' : UInt64) (code : Int32) : ¬Collects f k pid' code := fun h' =>
  absurd (h.1.2.symm.trans h'.1.2) (by simp)

omit [MemorySystem μ β] [FileSystem σ] [Firmware φ] in
/-- An exited process is not the one that makes a call, so it is in its slot before the call is entered. -/
private theorem get_of_zombie {t : ProcessTable β} {c : Slot} {z : Process β} (hlive : q.isZombie = false)
    (hz : (t.put c (some q)).get s = some z) (hzombie : z.isZombie = true) : t.get s = some z := by
  have hs : s ≠ c := by
    rintro rfl
    obtain rfl := Option.some.inj ((get_put_self _ _ _).symm.trans hz)
    exact absurd (hzombie.symm.trans hlive) (by simp)
  rwa [get_put_of_ne _ hs] at hz

section Stages

variable (hμ : MemorySystem.NeverIdle μ)

omit [MemorySystem μ β] [FileSystem σ] [Firmware φ] in
/-- When a call is performed, its caller has been set behind the instruction that made the call. -/
theorem table_of_enterCall {k₁ : KernelState μ β σ φ} {call : SystemCall} (hp : k.table.get k.table.current = some p)
    (h : enterCall call f k = .ok () k₁) :
    k₁.table = k.table.put k.table.current (some { p with frame := f.advanced }) :=
  ((enterCall_spec call hp).of_ok h).2.1

include hμ in
omit [FileSystem σ] [Firmware φ] in
/-- A call that collects removes the first exited child that the target accepts. -/
private theorem Collects.find? (hp : k.table.get k.table.current = some p) (h : Collects f k pid code) :
    ∃ t c z, t = k.table.put k.table.current (some { p with frame := f.advanced }) ∧
      (t.waitedFor k.table.current (.ofWord f.a0)).find? (fun c => t.hasStatus c .zombie) = some c ∧ t.get c = some z ∧
      pid = z.pid ∧ code = z.exitCode := by
  obtain ⟨-, k₁, k₂, henter, hcollect⟩ := h
  obtain ⟨c, z, hfind, hz, -, hpid, hcode, -⟩ := Run.Ensures.of_ok (collect_effect hμ (.ofWord f.a0)) hcollect
  have htable := table_of_enterCall hp henter
  have hcurrent : k₁.table.current = k.table.current := by rw [htable, current_put]
  rw [hcurrent] at hfind
  exact ⟨k₁.table, c, z, htable, hfind, hz, hpid, hcode⟩

include hμ in
/-- A wait that is answered while there is an exited child has collected the first one. -/
private theorem collects_of_find? {r : Except Errno UInt64} {c : Slot} {z : Process β} (hasks : f.Asks .wait)
    (hanswer : answerCall f k = .ok r k') (hp : k.table.get k.table.current = some p) {t : ProcessTable β}
    (ht : t = k.table.put k.table.current (some { p with frame := f.advanced }))
    (hfind : (t.waitedFor k.table.current (.ofWord f.a0)).find? (fun c => t.hasStatus c .zombie) = some c)
    (hz : t.get c = some z) : Collects f k z.pid z.exitCode := by
  obtain ⟨k₁, henter, hperform⟩ := exists_perform hasks hanswer
  obtain rfl : k₁.table = t := (table_of_enterCall hp henter).trans ht.symm
  have hcurrent : k₁.table.current = k.table.current := by rw [ht, current_put]
  rw [← hcurrent] at hfind
  have hwait : (callWait f.advanced).run k₁ = .ok r k' := hperform
  unfold callWait at hwait
  rw [ExceptT.run_bind] at hwait
  obtain ⟨found, k₂, hcollect, -⟩ := Run.bind_eq_ok.mp hwait
  have hcollect' : (collect (.ofWord f.a0)).run k₁ = .ok found k₂ := hcollect
  have heffect := Run.Ensures.of_ok (collect_effect hμ (.ofWord f.a0)) hcollect'
  have hexited := List.find?_some hfind
  have hwaited := List.mem_of_find?_eq_some hfind
  match found with
  | .ok (some (pid, code)) =>
    obtain ⟨c', z', hfind', hz', -, rfl, rfl, -⟩ := heffect
    obtain rfl := Option.some.inj (hfind.symm.trans hfind')
    obtain rfl := Option.some.inj (hz.symm.trans hz')
    exact ⟨hasks, k₁, k₂, henter, hcollect'⟩
  | .ok none => exact absurd (heffect.2.2 c hwaited) (by simp [hexited])
  | .error e =>
    rw [heffect.2.2] at hwaited
    exact absurd hwaited (by simp)

/-- A wait that has collected answers the number of the process, unless the exit code cannot be written. -/
theorem Collects.answer {r : Except Errno UInt64} (h : Collects f k pid code) (hanswer : answerCall f k = .ok r k') :
    r = .ok pid ∨ f.a1 ≠ 0 ∧ ∃ e, r = .error e := by
  obtain ⟨hasks, k₁, k₂, henter, hcollect⟩ := h
  obtain ⟨k₁', henter', hperform⟩ := exists_perform hasks hanswer
  have heq := henter.symm.trans henter'
  simp only [EStateM.Result.ok.injEq, true_and] at heq
  subst heq
  have hwait : (callWait f.advanced).Ensures k₁ (fun r _ => r = .ok pid ∨ f.a1 ≠ 0 ∧ ∃ e, r = .error e)
      fun _ _ => True := by
    unfold callWait
    rw [Attempt.ensures_bind]
    refine Run.ensures_of_eq_ok hcollect ?_
    show Attempt.Ensures (if f.a1 = 0 then _ else _) k₂ _ _
    split
    · exact .inl rfl
    next ha1 =>
      rw [Attempt.ensures_bind]
      refine Run.ensures_iff.mpr ⟨fun written k₃ _ => ?_, fun _ _ _ => trivial⟩
      cases written with
      | ok _ => exact .inl rfl
      | error e => exact .inr ⟨ha1, e, rfl⟩
  have hdone := Run.Ensures.of_ok hwait hperform
  exact hdone

/-- What comes after does not matter, if no process is created or removed any more. -/
private theorem Fates.trans {v : ProcessTable β} (h : Fates f k u) (h' : u.Ages f k.table.current v) : Fates f k v := by
  cases h with
  | ages hv h hforks hcollects => exact .ages hv (h.trans h') hforks hcollects
  | born hforks hs hpid hparent hlive hpending h => exact .born hforks hs hpid hparent hlive hpending (h.trans h')
  | removed hcollects hz hzombie hparent haccepts h =>
    exact .removed hcollects hz hzombie hparent haccepts (h.trans h')

variable (hforest : k.table.Forest μ) (hr : k.table.Running)

include hμ hforest hr

omit [FileSystem σ] [Firmware φ] hforest in
/-- Only an exited process is collected. -/
theorem Collects.exists_zombie (h : Collects f k pid code) :
    ∃ s z, k.table.get s = some z ∧ z.isZombie = true ∧ z.pid = pid ∧ z.exitCode = code := by
  obtain ⟨p, hp, hlive⟩ := hr.live
  obtain ⟨t, c, z, rfl, hfind, hz, rfl, rfl⟩ := h.find? hμ hp
  have hzombie : z.isZombie = true := by simpa [hasStatus, hz, Process.isZombie] using List.find?_some hfind
  exact ⟨c, z, get_of_zombie (q := { p with frame := f.advanced }) hlive hz hzombie, hzombie, rfl, rfl⟩

/-- A trap without a system call neither creates nor removes a process. -/
private theorem serve_ages (hk : serve f k = .ok () k') (hcause : TrapCause.ofWord f.scause ≠ .systemCall) :
    k.table.Ages f k.table.current k'.table := by
  obtain ⟨p, hp, heffect, hforest₁, hr₁, -⟩ := serve_stages hμ hforest hr hk
  have hlive := hr.isZombie_eq_false hp
  have hframe : k.table.Alike f (k.table.put k.table.current (some { p with frame := f })) :=
    hr.alike_put hp rfl rfl hlive Process.sent_self
  exact (hframe.ages hforest).trans (heffect.ages hforest₁ hr₁ (get_put_self _ _ _) hcause)

private theorem serve_fates (hk : serve f k = .ok () k') : Fates f k k'.table := by
  by_cases hcause : TrapCause.ofWord f.scause = .systemCall
  case neg =>
    exact .ages (.inl rfl) (serve_ages hμ hforest hr hk hcause) (fun _ h => hcause h.1.1) fun _ _ h => hcause h.1.1
  obtain ⟨p, hp, hlive⟩ := hr.live
  obtain ⟨r, k₂, hanswer, hsepc, heffect, hk'⟩ := exists_answerCall hμ hp hforest hr hcause hk
  obtain ⟨hforest₁, hr₁⟩ := (move_of_frame (μ := μ) hp hlive f.advanced).forest hforest hr
  obtain ⟨hforest₂, -⟩ := forest_of_moves (heffect.moves hforest₁ hr₁) hforest₁ hr₁
  have hfates := heffect.fates hforest₁ hr₁ hcause rfl
  -- the caller has been set behind the instruction first, and the result is left in its registers last
  have hadvanced : k.table.Alike f (k.table.put k.table.current (some { p with frame := f.advanced })) :=
    hr.alike_put hp rfl rfl hlive Process.sent_self
  have hresult : k₂.table.Ages f k.table.current k'.table :=
    hk' ▸ (alike_modifyAt _ fun q => q.alike_withResult _).ages hforest₂
  have hcall : ∀ {v : ProcessTable β}, v.Ages f.advanced k.table.current k₂.table →
      v.Ages f k.table.current k'.table := fun h => h.of_advanced.trans hresult
  cases hfates with
  | ages hv h hfork hwait =>
    have hforks : ∀ pid, ¬Forks f k pid := by
      rintro pid ⟨hasks, k₃, hanswer'⟩
      obtain ⟨e, rfl⟩ := hfork hasks.2
      exact absurd (hanswer.symm.trans hanswer') (by simp)
    have hcollects : ∀ pid code, ¬Collects f k pid code := by
      intro pid code hcollects
      obtain ⟨t, c, z, rfl, hfind, -⟩ := hcollects.find? hμ hp
      exact absurd (hwait hcollects.1.2 c (List.mem_of_find?_eq_some hfind)) (by simpa using List.find?_some hfind)
    rcases hv with rfl | rfl
    · exact .ages (.inl rfl) ((hadvanced.ages hforest).trans (hcall h)) hforks hcollects
    · obtain ⟨hforest', -⟩ := (Move.countPid (μ := μ) (t := k.table)).forest hforest hr
      exact .ages (.inr rfl) ((hadvanced.allocPid.2.ages hforest').trans (hcall h)) hforks hcollects
  | @born s q space hfork hanswered hs hq h =>
    obtain rfl := Option.some.inj ((get_put_self _ _ _).symm.trans hq)
    obtain ⟨hpid, halloc⟩ := hadvanced.allocPid
    have hfree := hadvanced.none_of_get hs
    have hmove : Move μ k.table (k.table.allocPid.2.put s (some (p.child k.table.allocPid.1 k.table.current space))) :=
      .fork hfree hp
    obtain ⟨hforest', -⟩ := hmove.forest hforest hr
    have hforks : Forks f k k.table.allocPid.1 := ⟨⟨hcause, hfork⟩, k₂, by rw [hanswer, hanswered, hpid]⟩
    refine .born (q := p.child k.table.allocPid.1 k.table.current space) hforks hfree rfl rfl rfl rfl ?_
    refine Ages.trans (Alike.ages (halloc.put s (.some ?_)) hforest') (hcall h)
    exact ⟨hpid, rfl, rfl, fun _ => .inl, fun _ => ⟨rfl, rfl⟩⟩
  | @removed c z hwait hfind hz hzombie h =>
    have hcollects := collects_of_find? hμ ⟨hcause, hwait⟩ hanswer hp rfl hfind hz
    obtain ⟨z', hz', hparent, haccepts⟩ := mem_waitedFor.mp (List.mem_of_find?_eq_some hfind)
    obtain rfl := Option.some.inj (hz.symm.trans hz')
    have hbefore := get_of_zombie (q := { p with frame := f.advanced }) hlive hz hzombie
    obtain ⟨hforest', -⟩ := (Move.reap (μ := μ) hbefore hzombie hparent).forest hforest hr
    have hremoved := ((hadvanced.put c .none).ages hforest').trans (hcall h)
    exact .removed hcollects hbefore hzombie hparent haccepts hremoved

/-- What becomes of the processes at a whole trap. -/
theorem trapWith_fates (hk : trapWith f k = .ok () k') : Fates f k k'.table := by
  rw [trapWith_eq f hr] at hk
  obtain ⟨_, k₁, hserve, hsignals⟩ := Run.bind_eq_ok.mp hk
  obtain ⟨-, -, -, -, -, hforest₁, hr₁⟩ := serve_stages hμ hforest hr hserve
  have hsettles := (handleSignals_settles hμ (hforest₁.parented hr₁)).of_ok hsignals
  exact (serve_fates hμ hforest hr hserve).trans (hsettles.ages hforest₁ hr₁)

end Stages

/-! ### What becomes of a slot -/

namespace Fates

omit [MemorySystem μ β] [FileSystem σ] [Firmware φ] in
private theorem ages_of_get {t : ProcessTable β} {c : Slot} (h : t.Ages f c u) (hp : t.get s = some p)
    (hq : u.get s = some q) : p.Ages f c s u.heir q := by
  obtain ⟨q', hq', hages⟩ := h.get_some hp
  exact Option.some.inj (hq'.symm.trans hq) ▸ hages

omit [MemorySystem μ β] [FileSystem σ] [Firmware φ] in
private theorem ne_of_get {t : ProcessTable β} {c : Slot} (hc : t.get c = none) (hp : t.get s = some p) : s ≠ c := by
  rintro rfl
  exact absurd (hc.symm.trans hp) (by simp)

/-- A slot with a process before and after a trap holds the same process, which has aged. -/
theorem ages_slot (h : Fates f k u) (hp : k.table.get s = some p) (hq : u.get s = some q) :
    p.Ages f k.table.current s u.heir q := by
  cases h with
  | ages hv h _ _ =>
    refine ages_of_get h ?_ hq
    rcases hv with rfl | rfl
    · exact hp
    · rwa [get_allocPid]
  | @born s' _ _ hs _ _ _ _ h =>
    exact ages_of_get h (by rwa [get_put_of_ne _ (ne_of_get hs hp), get_allocPid]) hq
  | @removed c _ _ _ _ _ _ h =>
    have hne : s ≠ c := ne_of_get (h.get_none (get_put_self _ _ _)) hq
    exact ages_of_get h (by rwa [get_put_of_ne _ hne]) hq

/-- A slot is emptied when the parent of its process, which has exited, collects the exit code. -/
theorem collects_of_emptied (h : Fates f k u) (hp : k.table.get s = some p) (hu : u.get s = none) :
    Collects f k p.pid p.exitCode ∧ p.isZombie = true ∧ p.parent = some k.table.current ∧
      (WaitTarget.ofWord f.a0).accepts p = true := by
  have hstays : ∀ {t : ProcessTable β}, t.Ages f k.table.current u → t.get s ≠ some p := fun h hget => by
    obtain ⟨q, hq, -⟩ := h.get_some hget
    exact absurd (hu.symm.trans hq) (by simp)
  cases h with
  | ages hv h _ _ =>
    rcases hv with rfl | rfl
    · exact absurd hp (hstays h)
    · exact absurd ((get_allocPid _ _).trans hp) (hstays h)
  | @born s' _ _ hs _ _ _ _ h =>
    exact absurd (by rwa [get_put_of_ne _ (ne_of_get hs hp)]) (hstays h)
  | @removed c z hcollects hz hzombie hparent haccepts h =>
    by_cases hne : s = c
    · subst hne
      obtain rfl := Option.some.inj (hz.symm.trans hp)
      exact ⟨hcollects, hzombie, hparent, haccepts⟩
    · exact absurd (by rwa [get_put_of_ne _ hne]) (hstays h)

/-- A process that is created does not die in the trap that creates it. -/
private theorem not_dies_born (hs : s ≠ k.table.current) (hforks : Forks f k pid) (hpending : p.pending = .empty) :
    ¬p.Dies f k.table.current s q := by
  intro h
  cases h with
  | exit hs' | exception hs' => exact hs hs'
  | signal n hn hsent _ hfatal _ =>
    rcases hsent with hsent | rfl | ⟨hasks, -⟩
    · simp [hpending] at hsent
    · exact absurd hfatal (by decide)
    · exact absurd (hforks.1.2.symm.trans hasks.2) (by simp)

/-- A slot is filled when a process is created in it. -/
theorem forks_of_filled (h : Fates f k u) (hcurrent : ∃ p, k.table.get k.table.current = some p)
    (hs : k.table.get s = none) (hq : u.get s = some q) :
    Forks f k q.pid ∧ q.pid = k.table.allocPid.1 ∧ q.parent = some (u.heir k.table.current) ∧ q.isZombie = false := by
  have hempty : ∀ {t : ProcessTable β}, t.Ages f k.table.current u → t.get s ≠ none := fun h hget =>
    absurd (hq.symm.trans (h.get_none hget)) (by simp)
  cases h with
  | ages hv h _ _ =>
    rcases hv with rfl | rfl
    · exact absurd hs (hempty h)
    · exact absurd ((get_allocPid _ _).trans hs) (hempty h)
  | @born s' q' hforks _ hpid hparent hlive hpending h =>
    by_cases hne : s = s'
    · subst hne
      have hages := ages_of_get h (get_put_self _ _ _) hq
      obtain ⟨p, hp⟩ := hcurrent
      have hs' : s ≠ k.table.current := (ne_of_get hs hp).symm
      refine ⟨hages.pid ▸ hforks, hages.pid.trans hpid, by rw [hages.parent, hparent, Option.map_some], ?_⟩
      exact Bool.eq_false_iff.mpr fun hz => not_dies_born hs' hforks hpending (hages.dies hlive hz)
    · exact absurd (by rwa [get_put_of_ne _ hne]) (hempty h)
  | @removed c _ _ _ _ _ _ h =>
    refine absurd ?_ (hempty h)
    rw [get_put]
    split
    · rfl
    · exact hs

/-- A number that is answered belongs to a process that was created. -/
theorem exists_born (h : Fates f k u) (hforks : Forks f k pid) :
    pid = k.table.allocPid.1 ∧ u.nextPid = k.table.allocPid.2.nextPid ∧
      ∃ s q, k.table.get s = none ∧ u.get s = some q ∧ q.pid = pid := by
  cases h with
  | ages _ _ hnone _ => exact absurd hforks (hnone pid)
  | @born s q hforks' hs hpid _ _ _ h =>
    obtain ⟨q', hq', hages⟩ := h.get_some (get_put_self _ _ _)
    have heq : q.pid = pid := hforks.unique hforks'
    exact ⟨heq ▸ hpid, h.nextPid, s, q', hs, hq', hages.pid.trans heq⟩
  | removed hcollects => exact absurd hcollects (hforks.not_collects _ _)

/-- What is collected belongs to a process that had exited and that was removed. -/
theorem exists_removed (h : Fates f k u) (hcollects : Collects f k pid code) :
    ∃ s z, k.table.get s = some z ∧ z.isZombie = true ∧ z.pid = pid ∧ z.exitCode = code ∧ u.get s = none := by
  cases h with
  | ages _ _ _ hnone => exact absurd hcollects (hnone pid code)
  | born hforks => exact absurd hcollects (hforks.not_collects _ _)
  | @removed c z hcollects' hz hzombie _ _ h =>
    obtain ⟨hpid, hcode⟩ := hcollects.unique hcollects'
    exact ⟨c, z, hz, hzombie, hpid, hcode, h.get_none (get_put_self _ _ _)⟩

end Fates

end Kernel

end TrapKernel
