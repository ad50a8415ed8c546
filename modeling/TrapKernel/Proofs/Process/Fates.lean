import TrapKernel.Proofs.Process.Delivery
import TrapKernel.Proofs.Process.Waiting

/-!
# How processes age

A trap creates at most one process and removes at most one. Apart from that it leaves every process in its slot, with
its number. A process may die, and its children go to the first process then; what has died stays dead and keeps its
exit code. `ProcessTable.Ages` says so for all slots at once, and it can be chained, so a trap that is made of many
steps is no worse than one of them.

* `ProcessTable.CallEffect.fates`: a system call creates a process, removes one, or does neither.
* `ProcessTable.Settles.ages`: the delivery of signals.
-/

namespace TrapKernel

variable {β : Type}

namespace Process

/-- Whether a signal is pending for a process before a trap with the registers `f` or is sent to it in the course of
it, by the call that the trap makes or because a child exits. -/
def Sent (f : TrapFrame) (p : Process β) (n : Nat) : Prop :=
  p.pending.contains n = true ∨ n = sigChild ∨ f.Asks .kill ∧ f.a0 = p.pid ∧ f.a1.toNat = n

/-- The ways in which the process `p` in the slot `s` can die while the process in the slot `current` traps with the
registers `f`: it asks for its exit, it raises an exception that cannot be answered, or a signal that it was sent kills
it. What is left of it is `q`. -/
inductive Dies (f : TrapFrame) (current s : Slot) (p q : Process β) : Prop
  | exit (hs : s = current) (hasks : f.Asks .exit) (hcode : q.exitCode = f.a0.toUInt32.toInt32)
  | exception (hs : s = current) (hcall : TrapCause.ofWord f.scause ≠ .systemCall)
      (htimer : TrapCause.ofWord f.scause ≠ .timer)
      (hcode : q.exitCode = if TrapCause.ofWord f.scause = .illegalInstruction then -3 else -2)
  | signal (n : Nat) (hn : isSignal n = true) (hsent : p.Sent f n) (hdefault : (q.actions.action n).handler = .default)
      (hfatal : defaultAction n = .terminate) (hcode : q.exitCode = Int32.ofInt (-(n : Int)))

/-- Whether a process is the same after a part of a trap with the registers `f`, up to what it works on and the signals
that it is sent. -/
structure Alike (f : TrapFrame) (p q : Process β) : Prop where
  pid : q.pid = p.pid
  parent : q.parent = p.parent
  isZombie : q.isZombie = p.isZombie
  sent : ∀ n, q.pending.contains n = true → p.Sent f n
  remains : p.isZombie = true → q.exitCode = p.exitCode ∧ q.actions = p.actions

/-- How the process in the slot `s` ages while the one in the slot `current` traps with the registers `f`: it may die,
and its parent may be replaced by an heir. -/
structure Ages (f : TrapFrame) (current s : Slot) (heir : Slot → Slot) (p q : Process β) : Prop where
  pid : q.pid = p.pid
  parent : q.parent = p.parent.map heir
  sent : ∀ n, q.pending.contains n = true → p.Sent f n
  remains : p.isZombie = true → q.isZombie = true ∧ q.exitCode = p.exitCode ∧ q.actions = p.actions
  dies : p.isZombie = false → q.isZombie = true → p.Dies f current s q

variable {f : TrapFrame} {current s : Slot} {p q r : Process β}

theorem sent_self (n : Nat) (hn : p.pending.contains n = true) : p.Sent f n := .inl hn

/-- What has been sent to a process after a part of a trap has been sent to it after the whole. -/
private theorem Sent.of_le {n : Nat} (h : q.Sent f n) (hpid : q.pid = p.pid)
    (hsent : ∀ n, q.pending.contains n = true → p.Sent f n) : p.Sent f n := by
  rcases h with hn | rfl | ⟨hasks, ha0, ha1⟩
  · exact hsent n hn
  · exact .inr (.inl rfl)
  · exact .inr (.inr ⟨hasks, ha0.trans hpid, ha1⟩)

/-- It does not matter what has happened to the process before it dies. -/
private theorem Dies.of_le (h : q.Dies f current s r) (hpid : q.pid = p.pid)
    (hsent : ∀ n, q.pending.contains n = true → p.Sent f n) : p.Dies f current s r := by
  cases h with
  | exit hs hasks hcode => exact .exit hs hasks hcode
  | exception hs hcall htimer hcode => exact .exception hs hcall htimer hcode
  | signal n hn h hdefault hfatal hcode => exact .signal n hn (h.of_le hpid hsent) hdefault hfatal hcode

/-- It does not matter what happens to the remains. -/
private theorem Dies.congr (h : p.Dies f current s q) (hcode : r.exitCode = q.exitCode)
    (hactions : r.actions = q.actions) : p.Dies f current s r := by
  cases h with
  | exit hs hasks h => exact .exit hs hasks (hcode.trans h)
  | exception hs hcall htimer h => exact .exception hs hcall htimer (hcode.trans h)
  | signal n hn hsent hdefault hfatal h => exact .signal n hn hsent (hactions ▸ hdefault) hfatal (hcode.trans h)

private theorem Alike.refl (p : Process β) : p.Alike f p := ⟨rfl, rfl, rfl, sent_self, fun _ => ⟨rfl, rfl⟩⟩

private theorem Alike.trans (h : p.Alike f q) (h' : q.Alike f r) : p.Alike f r where
  pid := h'.pid.trans h.pid
  parent := h'.parent.trans h.parent
  isZombie := h'.isZombie.trans h.isZombie
  sent n hn := (h'.sent n hn).of_le h.pid h.sent
  remains hz := by
    obtain ⟨hcode, hactions⟩ := h.remains hz
    obtain ⟨hcode', hactions'⟩ := h'.remains (h.isZombie.trans hz)
    exact ⟨hcode'.trans hcode, hactions'.trans hactions⟩

private theorem Ages.trans {heir heir' : Slot → Slot} (h : p.Ages f current s heir q) (h' : q.Ages f current s heir' r)
    (hheir : ∀ c, heir' (heir c) = heir' c) : p.Ages f current s heir' r where
  pid := h'.pid.trans h.pid
  parent := by
    rw [h'.parent, h.parent, Option.map_map]
    exact congrFun (congrArg Option.map (funext hheir)) _
  sent n hn := (h'.sent n hn).of_le h.pid h.sent
  remains hz := by
    obtain ⟨hqz, hcode, hactions⟩ := h.remains hz
    obtain ⟨hrz, hcode', hactions'⟩ := h'.remains hqz
    exact ⟨hrz, hcode'.trans hcode, hactions'.trans hactions⟩
  dies hlive hrz := by
    -- it dies in one of the two parts, and nothing happens to the remains in the second
    cases hqz : q.isZombie with
    | false => exact (h'.dies hqz hrz).of_le h.pid h.sent
    | true =>
      obtain ⟨-, hcode, hactions⟩ := h'.remains hqz
      exact (h.dies hlive hqz).congr hcode hactions

/-- It does not matter that the process has been set behind the instruction that made the call. -/
private theorem Ages.of_advanced {heir : Slot → Slot} (h : p.Ages f.advanced current s heir q) :
    p.Ages f current s heir q := by
  refine ⟨h.pid, h.parent, h.sent, h.remains, fun hlive hz => ?_⟩
  cases h.dies hlive hz with
  | exit hs hasks hcode => exact .exit hs hasks hcode
  | exception hs hcall htimer hcode => exact .exception hs hcall htimer hcode
  | signal n hn hsent hdefault hfatal hcode => exact .signal n hn hsent hdefault hfatal hcode

private theorem Bystander.alike (h : p.Bystander q) (hparent : q.parent = p.parent)
    (hsent : ∀ n, q.pending.contains n = true → p.Sent f n) : p.Alike f q :=
  ⟨h.pid, hparent, h.isZombie, hsent, fun _ => by rw [h.eq]; exact ⟨rfl, rfl⟩⟩

private theorem Works.alike (h : p.Works q) (hlive : p.isZombie = false) : p.Alike f q := by
  obtain ⟨_, _, _, _, rfl⟩ := h
  exact ⟨rfl, rfl, rfl, sent_self, fun hz => absurd (hz.symm.trans hlive) (by simp)⟩

theorem alike_withResult (p : Process β) (w : UInt64) : p.Alike f (p.withResult w) := by
  unfold withResult
  split <;> exact ⟨rfl, rfl, rfl, sent_self, fun _ => ⟨rfl, rfl⟩⟩

/-- After a signal is posted, no other one is pending that was not. -/
private theorem contains_of_post {n m : Nat} (h : (p.post n).pending.contains m = true) :
    p.pending.contains m = true ∨ m = n := by
  rw [post, SignalSet.contains_union, Bool.or_eq_true, SignalSet.contains_single, Bool.and_eq_true,
    decide_eq_true_eq] at h
  exact h.imp_right And.right

/-- A signal that is posted by the call that the trap makes. -/
private theorem alike_post_wake (hasks : f.Asks .kill) (hpid : f.a0 = p.pid) :
    p.Alike f (p.post f.a1.toNat).wake := by
  have hparent : (p.post f.a1.toNat).wake.parent = p.parent := by simp [post]
  refine (Bystander.post_wake p _).alike hparent fun n hn => ?_
  rw [wake_pending] at hn
  exact (contains_of_post hn).imp_right fun h => .inr ⟨hasks, hpid, h.symm⟩

end Process

namespace ProcessTable

variable {f : TrapFrame} {t u v : ProcessTable β} {c s : Slot}

/-- Whether there is a process in a slot that has not exited. -/
def isLive (t : ProcessTable β) (s : Slot) : Bool :=
  match t.get s with
  | some p => !p.isZombie
  | none => false

/-- Who looks after the children of the process in a slot: itself, or the first process if it has exited. -/
def heir (t : ProcessTable β) (s : Slot) : Slot := if t.isLive s then s else .init

/-- Whether the processes are the same after a part of a trap with the registers `f`, up to what they work on and the
signals that they are sent. -/
structure Alike (f : TrapFrame) (t u : ProcessTable β) : Prop where
  nextPid : u.nextPid = t.nextPid
  slot : ∀ s, Option.Rel (Process.Alike f) (t.get s) (u.get s)

/-- Whether no process is created or removed in a part of a trap with the registers `f` of the process in the slot
`c`. -/
structure Ages (f : TrapFrame) (c : Slot) (t u : ProcessTable β) : Prop where
  nextPid : u.nextPid = t.nextPid
  slot : ∀ s, Option.Rel (Process.Ages f c s u.heir) (t.get s) (u.get s)

theorem isLive_iff : t.isLive s = true ↔ ∃ p, t.get s = some p ∧ p.isZombie = false := by
  unfold isLive
  cases t.get s <;> simp

theorem isLive_eq_false (hp : t.get s = none ∨ ∃ p, t.get s = some p ∧ p.isZombie = true) : t.isLive s = false := by
  unfold isLive
  rcases hp with hp | ⟨p, hp, hzombie⟩ <;> simp [*]

private theorem isLive_of_get {p : Process β} (hp : t.get s = some p) : t.isLive s = !p.isZombie := by
  unfold isLive
  rw [hp]

@[simp] theorem heir_init (t : ProcessTable β) : t.heir .init = .init := by
  unfold heir
  split <;> rfl

theorem heir_of_isLive (h : t.isLive s = true) : t.heir s = s := by rw [heir, h, if_pos rfl]

theorem heir_of_not_isLive (h : t.isLive s = false) : t.heir s = .init := by rw [heir, h, if_neg (by simp)]

/-! ### Tables that are alike -/

section Rel

variable {r : Process β → Process β → Prop} {p : Process β} {q : Option (Process β)}

private theorem exists_of_rel_some (h : Option.Rel r (some p) q) : ∃ q', q = some q' ∧ r p q' := by
  cases h with
  | some h => exact ⟨_, rfl, h⟩

private theorem eq_none_of_rel_none (h : Option.Rel r none q) : q = none := by
  cases h
  rfl

end Rel

private theorem Alike.refl (t : ProcessTable β) : t.Alike f t :=
  ⟨rfl, fun s => by cases t.get s with | none => exact .none | some p => exact .some (.refl p)⟩

private theorem Alike.trans (h : t.Alike f u) (h' : u.Alike f v) : t.Alike f v where
  nextPid := h'.nextPid.trans h.nextPid
  slot s := by
    cases hp : t.get s with
    | none =>
      have hq : u.get s = none := eq_none_of_rel_none (hp ▸ h.slot s)
      have hr : v.get s = none := eq_none_of_rel_none (hq ▸ h'.slot s)
      rw [hr]
      exact .none
    | some p =>
      obtain ⟨q, hq, hpq⟩ := exists_of_rel_some (hp ▸ h.slot s)
      obtain ⟨r, hr, hqr⟩ := exists_of_rel_some (hq ▸ h'.slot s)
      rw [hr]
      exact .some (hpq.trans hqr)

private theorem alike_of_get (hnext : u.nextPid = t.nextPid) (hget : ∀ s, u.get s = t.get s) : t.Alike f u :=
  ⟨hnext, fun s => (hget s).symm ▸ (Alike.refl t).slot s⟩

private theorem alike_put {p q : Process β} (hp : t.get s = some p) (h : p.Alike f q) :
    t.Alike f (t.put s (some q)) := by
  refine ⟨rfl, fun s' => ?_⟩
  rw [get_put]
  split
  next hs =>
    subst hs
    rw [hp]
    exact .some h
  · exact (Alike.refl t).slot s'

theorem alike_modifyAt (s : Slot) {g : Process β → Process β} (hg : ∀ p, Process.Alike f p (g p)) :
    t.Alike f (t.modifyAt s g) := by
  cases hp : t.get s with
  | none => exact alike_of_get rfl fun s' => by rw [modifyAt, hp, Option.map_none, ← hp, put_get]
  | some p => exact modifyAt_eq_put hp g ▸ alike_put hp (hg p)

private theorem Alike.get_some {p : Process β} (h : t.Alike f u) (hp : t.get s = some p) :
    ∃ q, u.get s = some q ∧ p.Alike f q :=
  exists_of_rel_some (hp ▸ h.slot s)

private theorem Alike.get_none (h : t.Alike f u) (hp : t.get s = none) : u.get s = none :=
  eq_none_of_rel_none (hp ▸ h.slot s)

theorem Alike.none_of_get (h : t.Alike f u) (hq : u.get s = none) : t.get s = none := by
  cases hp : t.get s with
  | none => rfl
  | some p =>
    obtain ⟨q, hq', -⟩ := h.get_some hp
    exact absurd (hq.symm.trans hq') (by simp)

theorem Alike.put (h : t.Alike f u) (s : Slot) {p q : Option (Process β)} (hpq : Option.Rel (Process.Alike f) p q) :
    (t.put s p).Alike f (u.put s q) where
  nextPid := h.nextPid
  slot s' := by
    rw [get_put, get_put]
    split
    · exact hpq
    · exact h.slot s'

private theorem Alike.findPid?_eq_none_iff (h : t.Alike f u) (pid : UInt64) :
    u.findPid? pid = none ↔ t.findPid? pid = none := by
  simp only [findPid?_eq_none]
  constructor
  · intro hnone s p hp
    obtain ⟨q, hq, hpq⟩ := h.get_some hp
    exact hpq.pid ▸ hnone s q hq
  · intro hnone s q hq
    cases hp : t.get s with
    | none => exact absurd (hq.symm.trans (h.get_none hp)) (by simp)
    | some p =>
      obtain ⟨q', hq', hpq⟩ := h.get_some hp
      obtain rfl := Option.some.inj (hq.symm.trans hq')
      exact hpq.pid ▸ hnone s p hp

/-- The process number that is handed out next depends on the numbers of the processes only. -/
theorem Alike.allocPid (h : t.Alike f u) : u.allocPid.1 = t.allocPid.1 ∧ t.allocPid.2.Alike f u.allocPid.2 := by
  have hsearch : ∀ n pid, u.searchPid n pid = t.searchPid n pid := by
    intro n
    induction n with
    | zero => exact fun _ => rfl
    | succ n ih =>
      intro pid
      simp only [searchPid, ih, Option.isNone_iff_eq_none, h.findPid?_eq_none_iff]
  have halloc : u.searchPid slotCount u.nextPid = t.searchPid slotCount t.nextPid := by rw [hsearch, h.nextPid]
  unfold ProcessTable.allocPid
  rw [halloc]
  exact ⟨rfl, rfl, h.slot⟩

private theorem Alike.isLive_eq (h : t.Alike f u) (s : Slot) : u.isLive s = t.isLive s := by
  cases hp : t.get s with
  | none => rw [isLive_eq_false (.inl hp), isLive_eq_false (.inl (h.get_none hp))]
  | some p =>
    obtain ⟨q, hq, hpq⟩ := h.get_some hp
    rw [isLive_of_get hp, isLive_of_get hq, hpq.isZombie]

theorem Alike.parentPid_eq (h : t.Alike f u) (s : Slot) : u.parentPid s = t.parentPid s := by
  unfold parentPid
  cases hp : t.get s with
  | none => simp [h.get_none hp]
  | some p =>
    obtain ⟨q, hq, hpq⟩ := h.get_some hp
    rw [hq, Option.bind_some, Option.bind_some, hpq.parent]
    cases hparent : p.parent with
    | none => rfl
    | some c =>
      rw [Option.bind_some, Option.bind_some]
      cases hp' : t.get c with
      | none => simp [h.get_none hp']
      | some p' =>
        obtain ⟨q', hq', hpq'⟩ := h.get_some hp'
        rw [hq']
        exact hpq'.pid

variable {μ : Type} [MemorySystem μ β]

/-- All parents have not exited, so they are their own heirs for as long as this is so. -/
private theorem Forest.map_heir (h : t.Forest μ) {p : Process β} (hp : t.get s = some p)
    (hlive : ∀ c, t.isLive c = true → p.parent = some c → u.isLive c = true) : p.parent.map u.heir = p.parent := by
  cases hparent : p.parent with
  | none => rfl
  | some c =>
    have hc := hlive c (isLive_iff.mpr (h.parent_live hp hparent)) hparent
    rw [Option.map_some, heir_of_isLive hc]

theorem Alike.ages (h : t.Alike f u) (hforest : t.Forest μ) : t.Ages f c u where
  nextPid := h.nextPid
  slot s := by
    cases hp : t.get s with
    | none =>
      rw [h.get_none hp]
      exact .none
    | some p =>
      obtain ⟨q, hq, hpq⟩ := h.get_some hp
      have hheir := hforest.map_heir (u := u) hp fun c hc _ => (h.isLive_eq c).trans hc
      rw [hq]
      refine .some ⟨hpq.pid, hpq.parent.trans hheir.symm, hpq.sent, fun hz => ?remains, fun hlive hz => ?dies⟩
      case remains => exact ⟨hpq.isZombie.trans hz, hpq.remains hz⟩
      case dies => exact absurd (hlive.symm.trans (hpq.isZombie.symm.trans hz)) (by simp)

/-! ### Time passes -/

theorem Ages.get_none (h : t.Ages f c u) (hp : t.get s = none) : u.get s = none := eq_none_of_rel_none (hp ▸ h.slot s)

theorem Ages.get_some {p : Process β} (h : t.Ages f c u) (hp : t.get s = some p) :
    ∃ q, u.get s = some q ∧ p.Ages f c s u.heir q :=
  exists_of_rel_some (hp ▸ h.slot s)

theorem Ages.of_advanced (h : t.Ages f.advanced c u) : t.Ages f c u where
  nextPid := h.nextPid
  slot s := by
    cases hp : t.get s with
    | none =>
      rw [h.get_none hp]
      exact .none
    | some p =>
      obtain ⟨q, hq, hpq⟩ := h.get_some hp
      rw [hq]
      exact .some hpq.of_advanced

/-- A slot without a live process does not get one. -/
private theorem Ages.isLive_eq_false (h : t.Ages f c u) (hdead : t.isLive s = false) : u.isLive s = false := by
  cases hp : t.get s with
  | none => exact ProcessTable.isLive_eq_false (.inl (h.get_none hp))
  | some p =>
    obtain ⟨q, hq, hpq⟩ := h.get_some hp
    rw [isLive_of_get hp, Bool.not_eq_false'] at hdead
    exact ProcessTable.isLive_eq_false (.inr ⟨q, hq, (hpq.remains hdead).1⟩)

private theorem Ages.heir_heir (h : t.Ages f c u) (s : Slot) : u.heir (t.heir s) = u.heir s := by
  cases hs : t.isLive s with
  | true => rw [heir_of_isLive hs]
  | false => rw [heir_of_not_isLive hs, heir_init, heir_of_not_isLive (h.isLive_eq_false hs)]

theorem Ages.trans (h : t.Ages f c u) (h' : u.Ages f c v) : t.Ages f c v where
  nextPid := h'.nextPid.trans h.nextPid
  slot s := by
    cases hp : t.get s with
    | none =>
      rw [h'.get_none (h.get_none hp)]
      exact .none
    | some p =>
      obtain ⟨q, hq, hpq⟩ := h.get_some hp
      obtain ⟨r, hr, hqr⟩ := h'.get_some hq
      rw [hr]
      exact .some (hpq.trans hqr h'.heir_heir)

/-! ### The steps of a trap -/

private theorem Passes.alike (h : t.Passes u) : t.Alike f u := by
  obtain ⟨next, hnext, rfl⟩ := h
  obtain ⟨p, hp, hready⟩ := nextReady?_eq_some hnext
  have hput : t.Alike f (t.put next (some { p with status := .running })) :=
    alike_put hp ((Process.Bystander.run hready).alike rfl Process.sent_self)
  refine hput.trans (alike_of_get rfl fun s => ?_)
  rw [← modifyAt_eq_put hp fun p => { p with status := .running }]
  rfl

/-- The running process, which has not exited, is changed in what it works on or in how it goes on. -/
theorem Running.alike_put (hr : t.Running) {p q : Process β} (hp : t.get t.current = some p) (hpid : q.pid = p.pid)
    (hparent : q.parent = p.parent) (hlive : q.isZombie = false)
    (hsent : ∀ n, q.pending.contains n = true → p.Sent f n) : t.Alike f (t.put t.current (some q)) := by
  have hlive' := hr.isZombie_eq_false hp
  exact ProcessTable.alike_put hp
    ⟨hpid, hparent, hlive.trans hlive'.symm, hsent, fun hz => absurd (hz.symm.trans hlive') (by simp)⟩

private theorem Works.alike (h : t.Works u) (hr : t.Running) : t.Alike f u := by
  obtain ⟨p, q, hp, hworks, rfl⟩ := h
  have hlive := hr.isZombie_eq_false hp
  exact ProcessTable.alike_put hp (hworks.alike hlive)

private theorem Suspends.alike (h : t.Suspends u) (hr : t.Running) : t.Alike f u := by
  obtain ⟨p, hp, hpass⟩ := h
  have hready : t.Alike f (t.put t.current (some { p with status := .ready })) :=
    hr.alike_put hp rfl rfl rfl Process.sent_self
  exact hready.trans hpass.alike

/-- The exit of another process sends a process no other signal than the one about a child. -/
private theorem sent_exitEffect (z : Process β) (c : Slot) (p : Process β) (n : Nat)
    (hn : (t.exitEffect s z c p).pending.contains n = true) : p.Sent f n := by
  rw [exitEffect_pending] at hn
  split at hn
  · exact (Process.contains_of_post hn).imp_right .inl
  · exact .inl hn

/-- The exit of the running process: it dies, its children get an heir, and nothing else changes. -/
private theorem Exits.ages {code : Int32} (h : t.Exits μ code u) (hforest : t.Forest μ) (hr : t.Running)
    (hdies : ∀ p q : Process β, t.get t.current = some p → q.exitCode = code → q.actions = p.actions →
      p.Dies f c t.current q) : t.Ages f c u := by
  obtain ⟨p, space, hp, hs, hspace, hpass⟩ := h
  have hlive := hr.isZombie_eq_false hp
  have hforest' : (t.exited t.current (p.remains code space)).Forest μ :=
    ((Yields.exit hp hs hspace).forest hforest hr).1
  refine Ages.trans ⟨nextPid_exited _ _, fun s => ?_⟩ (hpass.alike.ages hforest')
  have hself := get_exited_self (t := t) hs (hforest.remains_parent_ne hp code space)
  have hdead : (t.exited t.current (p.remains code space)).isLive t.current = false :=
    isLive_eq_false (.inr ⟨_, hself, rfl⟩)
  -- those that had not exited, apart from the one that exits, have not done so afterwards
  have hlives : ∀ c, c ≠ t.current → t.isLive c = true →
      (t.exited t.current (p.remains code space)).isLive c = true := fun c hc hclive => by
    obtain ⟨q, hq, hqlive⟩ := isLive_iff.mp hclive
    refine isLive_iff.mpr ⟨_, by rw [get_exited_of_ne _ hc, hq, Option.map_some], ?_⟩
    rw [(bystander_exitEffect _ _ _ _).isZombie, hqlive]
  by_cases hsc : s = t.current
  · subst hsc
    rw [hself, hp]
    refine .some ⟨rfl, ?parent, fun n hn => ?sent, fun hz => absurd (hz.symm.trans hlive) (by simp), fun _ _ => ?dies⟩
    case parent =>
      exact (hforest.map_heir hp fun c hc hparent => hlives c (hforest.parent_ne hp hparent) hc).symm
    case sent => exact absurd hn (by simp [Process.remains])
    case dies => exact hdies p _ hp rfl rfl
  · rw [get_exited_of_ne _ hsc]
    cases hq : t.get s with
    | none => exact .none
    | some q =>
      have hstays := bystander_exitEffect (t := t) t.current (p.remains code space) s q
      refine .some ⟨hstays.pid, ?parent, sent_exitEffect _ _ _, fun hz => ?remains, fun hqlive hz => ?dies⟩
      case remains => exact ⟨hstays.isZombie.trans hz, by rw [hstays.eq], by rw [hstays.eq]⟩
      case dies => exact absurd (hz.symm.trans (hstays.isZombie.trans hqlive)) (by simp)
      case parent =>
        rw [exitEffect_parent]
        split
        next hparent => rw [hparent, Option.map_some, heir_of_not_isLive hdead]
        next hparent =>
          refine (hforest.map_heir hq fun c hc hqc => hlives c ?_ hc).symm
          rintro rfl
          exact hparent hqc

/-- A process from which a signal is taken has no more signals than before. -/
private theorem sent_take {p : Process β} {n m : Nat} (hm : (p.take n).pending.contains m = true) : p.Sent f m := by
  rw [Process.take, SignalSet.contains_diff, Bool.and_eq_true] at hm
  exact .inl hm.1

private theorem Delivers.ages {more : Bool} (h : t.Delivers μ more u) (hforest : t.Forest μ) (hr : t.Running) :
    t.Ages f c u := by
  cases h with
  | done _ _ => exact (Alike.refl t).ages hforest
  | enter hp _ _ | drop hp _ _ =>
    have hlive := hr.isZombie_eq_false hp
    exact Alike.ages (hr.alike_put hp rfl rfl hlive fun _ => sent_take) hforest
  | @terminate p n _ hp hn hdefault hfatal h =>
    refine h.ages hforest hr fun q r hq hcode hactions => ?_
    obtain rfl := Option.some.inj (hp.symm.trans hq)
    exact .signal n (Process.isSignal_of_nextSignal? hn) (.inl (Process.contains_of_nextSignal? hn))
      (hactions ▸ hdefault) hfatal hcode

/-- The delivery of signals may kill processes. -/
theorem Settles.ages (h : t.Settles μ u) (hforest : t.Forest μ) (hr : t.Running) : t.Ages f c u := by
  induction h with
  | stop h => exact h.ages hforest hr
  | more h _ ih =>
    obtain ⟨hforest', hr'⟩ := forest_of_moves (h.moves hr) hforest hr
    exact (h.ages hforest hr).trans (ih hforest' hr')

/-- Without a system call no process is created or removed. -/
theorem CauseEffect.ages {p : Process β} (h : t.CauseEffect μ u) (hforest : t.Forest μ) (hr : t.Running)
    (hp : t.get t.current = some p) (hcause : TrapCause.ofWord p.frame.scause ≠ .systemCall) :
    t.Ages p.frame t.current u := by
  cases h with
  | call hp' hcall _ _ =>
    obtain rfl := Option.some.inj (hp.symm.trans hp')
    exact absurd hcall hcause
  | timer _ _ h => exact (h.alike hr).ages hforest
  | fault _ _ h => exact (h.alike hr).ages hforest
  | fatal hp' hcall htimer hcode hworks h =>
    obtain rfl := Option.some.inj (hp.symm.trans hp')
    obtain ⟨hforest', hr'⟩ := (hworks.move (μ := μ) hr).forest hforest hr
    refine ((hworks.alike hr).ages hforest).trans (h.ages hforest' hr' fun _ _ _ hcode' _ => ?_)
    exact .exception hworks.current_eq hcall htimer (hcode'.trans hcode)

/-! ### System calls -/

/-- What becomes of the processes when a system call is made with the registers `f`, depending on the call and its
result: a process is created, one is removed, or neither happens. -/
inductive CallFates (f : TrapFrame) (t : ProcessTable β) (call : Option SystemCall) (r : Except Errno UInt64)
    (u : ProcessTable β) : Prop
  | ages {v : ProcessTable β} (hv : v = t ∨ v = t.allocPid.2) (h : v.Ages f t.current u)
      (hfork : call = some .fork → ∃ e, r = .error e)
      (hwait : call = some .wait → ∀ c ∈ t.waitedFor t.current (.ofWord f.a0), t.hasStatus c .zombie = false)
  | born {s : Slot} {p : Process β} {space : β} (hcall : call = some .fork) (hr : r = .ok t.allocPid.1)
      (hs : t.get s = none) (hp : t.get t.current = some p)
      (h : (t.allocPid.2.put s (some (p.child t.allocPid.1 t.current space))).Ages f t.current u)
  | removed {c : Slot} {z : Process β} (hcall : call = some .wait)
      (hfind : (t.waitedFor t.current (.ofWord f.a0)).find? (fun c => t.hasStatus c .zombie) = some c)
      (hz : t.get c = some z) (hzombie : z.isZombie = true) (h : (t.put c none).Ages f t.current u)

theorem CallEffect.fates {call : Option SystemCall} {r : Except Errno UInt64} (h : t.CallEffect μ f call r u)
    (hforest : t.Forest μ) (hr : t.Running) (hcause : TrapCause.ofWord f.scause = .systemCall)
    (hcall : SystemCall.ofNumber? f.callNumber.toNat = call) : t.CallFates f call r u := by
  have hages : ∀ {call r u}, t.Alike f u → call ≠ some .fork → call ≠ some .wait → t.CallFates f call r u :=
    fun halike hfork hwait => .ages (.inl rfl) (halike.ages hforest) (fun h => absurd h hfork) fun h => absurd h hwait
  cases h with
  | unassigned | killFails | signalReturnFails _ _ => exact hages (.refl t) (by simp) (by simp)
  | @works call _ _ hlocal h =>
    refine hages (h.alike hr) ?_ ?_ <;> rintro ⟨⟩ <;> exact absurd hlocal (by decide)
  | forkFull _ => exact .ages (.inl rfl) ((Alike.refl t).ages hforest) (fun _ => ⟨_, rfl⟩) (by simp)
  | forkFails _ =>
    obtain ⟨hforest', -⟩ := (Move.countPid (μ := μ) (t := t)).forest hforest hr
    exact .ages (.inr rfl) ((Alike.refl _).ages hforest') (fun _ => ⟨_, rfl⟩) (by simp)
  | fork hfree hp =>
    have hs := firstFree?_eq_some hfree
    obtain ⟨hforest', -⟩ := (Move.fork (μ := μ) hs hp).forest hforest hr
    exact .born rfl rfl hs hp ((Alike.refl _).ages hforest')
  | @kill s q hfind hq hlive hn =>
    obtain ⟨q', hq', hpid⟩ := findPid?_eq_some hfind
    obtain rfl := Option.some.inj (hq.symm.trans hq')
    exact hages (alike_put hq (Process.alike_post_wake ⟨hcause, hcall⟩ hpid.symm)) (by simp) (by simp)
  | exit h =>
    refine .ages (.inl rfl) (h.ages hforest hr fun _ _ _ hcode _ => ?_) (by simp) (by simp)
    exact .exit rfl ⟨hcause, hcall⟩ hcode
  | signalReturn hp _ =>
    have hlive := hr.isZombie_eq_false hp
    exact hages (hr.alike_put hp rfl rfl hlive Process.sent_self) (by simp) (by simp)
  | noChild hnone =>
    refine .ages (.inl rfl) ((Alike.refl t).ages hforest) (by simp) fun _ c hc => ?_
    rw [hnone] at hc
    exact absurd hc (by simp)
  | @collect c z _ _ hfind hz hzombie _ h =>
    obtain ⟨q, hq, hparent, -⟩ := mem_waitedFor.mp (List.mem_of_find?_eq_some hfind)
    obtain rfl := Option.some.inj (hz.symm.trans hq)
    obtain ⟨hforest', hr'⟩ := (Move.reap (μ := μ) hz hzombie hparent).forest hforest hr
    exact .removed rfl hfind hz hzombie ((h.alike hr').ages hforest')
  | @wait p _ _ hnone hp _ h =>
    have hblock : t.Alike f (t.put t.current (some { p with frame := p.frame.rewound, status := .blocked })) :=
      hr.alike_put hp rfl rfl rfl Process.sent_self
    exact .ages (.inl rfl) ((hblock.trans h.alike).ages hforest) (by simp) fun _ => hnone
  | yield h => exact hages (h.alike hr) (by simp) (by simp)

end ProcessTable

end TrapKernel
