import TrapKernel.Proofs.Process.Moves
import Mathlib.Data.Finset.Max

/-!
# The process forest

The processes form a tree below the first one, which never exits. `ProcessTable.Forest` is the invariant that all
moves keep; between two traps also `ProcessTable.Running` holds.

* `ProcessTable.Forest.nextReady?_isSome`: when the running process leaves the hart, some process is ready. A process
  that waits has a child that has not exited, so below it, where the tree ends, there is one that does not wait.
* `ProcessTable.Move.forest`: a move leads from a forest with a running process to another one.
-/

namespace TrapKernel

variable {β : Type} (μ : Type) [MemorySystem μ β]

/-- Whether a process has given up everything but its place in the process table. -/
structure Process.Clean (p : Process β) : Prop where
  descriptors : p.descriptors = .empty
  pages : MemorySystem.Dropped μ p.memory.space
  pending : p.pending = .empty
  interrupted : p.interrupted = none

namespace ProcessTable

/-- Whether the current slot holds a process that is running. -/
def Running (t : ProcessTable β) : Prop := ∃ p, t.get t.current = some p ∧ p.status = .running

/-- The processes form a tree below the first one, whose inner nodes have not exited, and every process that waits
has a child that has not exited. -/
structure Forest (t : ProcessTable β) : Prop where
  init : ∃ p, t.get .init = some p ∧ p.pid = 0 ∧ p.parent = none ∧ p.isZombie = false
  nextPid : t.nextPid ≠ 0
  current : ∃ p, t.get t.current = some p
  pid_injective : ∀ s s' p p', t.get s = some p → t.get s' = some p' → p.pid = p'.pid → s = s'
  parent : ∀ s p, t.get s = some p → s ≠ .init →
    ∃ s' p', p.parent = some s' ∧ t.get s' = some p' ∧ p'.isZombie = false
  rank : ∃ rank : Slot → Nat, ∀ s p s', t.get s = some p → p.parent = some s' → rank s' < rank s
  running : ∀ s p, t.get s = some p → p.status = .running → s = t.current
  blocked : ∀ s p, t.get s = some p → p.status = .blocked →
    ∃ c q, t.get c = some q ∧ q.parent = some s ∧ q.isZombie = false
  clean : ∀ s p, t.get s = some p → p.isZombie = true → p.Clean μ

variable {μ} {t u : ProcessTable β}

namespace Forest

/-! ### Ranks -/

/-- The first process has the least rank. -/
private theorem rank_init_lt (h : t.Forest μ) {rank : Slot → Nat}
    (hrank : ∀ s p s', t.get s = some p → p.parent = some s' → rank s' < rank s) {s : Slot} {p : Process β}
    (hp : t.get s = some p) (hs : s ≠ .init) : rank .init < rank s := by
  induction hn : rank s using Nat.strong_induction_on generalizing s p with
  | _ n ih =>
    obtain ⟨s', p', hparent, hp', -⟩ := h.parent s p hp hs
    have hlt := hrank s p s' hp hparent
    by_cases hs' : s' = .init
    · rw [← hs']; omega
    · have := ih (rank s') (by omega) hp' hs' rfl
      omega

theorem parent_ne (h : t.Forest μ) {s s' : Slot} {p : Process β} (hp : t.get s = some p)
    (hparent : p.parent = some s') : s' ≠ s := by
  obtain ⟨rank, hrank⟩ := h.rank
  rintro rfl
  exact lt_irrefl _ (hrank _ _ _ hp hparent)

/-- No process is its own parent, and that stays so when it exits. -/
theorem remains_parent_ne (h : t.Forest μ) {s : Slot} {p : Process β} (hp : t.get s = some p) (code : Int32) (space : β) :
    (p.remains code space).parent ≠ some s :=
  fun hparent => h.parent_ne hp hparent rfl

theorem parent_live (h : t.Forest μ) {s s' : Slot} {p : Process β} (hp : t.get s = some p)
    (hparent : p.parent = some s') : ∃ p', t.get s' = some p' ∧ p'.isZombie = false := by
  by_cases hs : s = .init
  · obtain ⟨q, hq, -, hnone, -⟩ := h.init
    rw [hs, hq] at hp
    rw [← Option.some.inj hp, hnone] at hparent
    exact absurd hparent (by simp)
  · obtain ⟨s'', p', hparent', hp', hlive⟩ := h.parent s p hp hs
    rw [hparent, Option.some.injEq] at hparent'
    subst hparent'
    exact ⟨p', hp', hlive⟩

/-! ### Progress -/

/-- Among the processes that have not exited the one of greatest rank has no child that has not exited. -/
private theorem exists_leaf (h : t.Forest μ) : ∃ s p, t.get s = some p ∧ p.isZombie = false ∧
    ∀ c q, t.get c = some q → q.parent = some s → q.isZombie = true := by
  classical
  obtain ⟨rank, hrank⟩ := h.rank
  obtain ⟨init, hinit, -, -, hlive⟩ := h.init
  let live : Finset Slot := Finset.univ.filter fun s => ∃ p, t.get s = some p ∧ p.isZombie = false
  have hne : live.Nonempty := ⟨.init, by simpa [live] using ⟨init, hinit, hlive⟩⟩
  obtain ⟨s, hs, hmax⟩ := live.exists_max_image rank hne
  obtain ⟨p, hp, hplive⟩ := (Finset.mem_filter.mp hs).2
  refine ⟨s, p, hp, hplive, fun c q hq hparent => ?_⟩
  by_contra hqlive
  have hc : c ∈ live := by simpa [live] using ⟨q, hq, by simpa using hqlive⟩
  have hle := hmax c hc
  have hlt := hrank c q s hq hparent
  omega

/-- If no process is running, some process is ready. -/
theorem nextReady?_isSome (h : t.Forest μ) (hrunning : ∀ s p, t.get s = some p → p.status ≠ .running) :
    ∃ next, t.nextReady? = some next := by
  rw [← Option.ne_none_iff_exists']
  intro hnone
  obtain ⟨s, p, hp, hlive, hleaf⟩ := h.exists_leaf
  cases hstatus : p.status with
  | ready => exact nextReady?_eq_none.mp hnone s p hp hstatus
  | running => exact hrunning s p hp hstatus
  | blocked =>
    obtain ⟨c, q, hq, hparent, hqlive⟩ := h.blocked s p hp hstatus
    rw [hleaf c q hq hparent] at hqlive
    exact absurd hqlive (by simp)
  | zombie => exact Process.isZombie_eq_false_iff.mp hlive hstatus

/-! ### Moves keep the forest -/

/-- Changes within the slots that touch neither numbers nor parents nor exited processes. -/
private theorem of_map (h : t.Forest μ) (f : Slot → Process β → Process β) (hget : ∀ s, u.get s = (t.get s).map (f s))
    (hnext : u.nextPid ≠ 0) (hcurrent : ∃ p, t.get u.current = some p)
    (hpid : ∀ s p, t.get s = some p → (f s p).pid = p.pid)
    (hparent : ∀ s p, t.get s = some p → (f s p).parent = p.parent)
    (hlive : ∀ s p, t.get s = some p → p.isZombie = false → (f s p).isZombie = false)
    (hzombie : ∀ s p, t.get s = some p → p.isZombie = true → f s p = p)
    (hrunning : ∀ s p, t.get s = some p → (f s p).status = .running → s = u.current)
    (hblocked : ∀ s p, t.get s = some p → (f s p).status = .blocked → p.status ≠ .blocked →
      ∃ c q, t.get c = some q ∧ q.parent = some s ∧ q.isZombie = false) : u.Forest μ := by
  have hinv : ∀ {s p'}, u.get s = some p' → ∃ p, t.get s = some p ∧ f s p = p' := fun {s p'} hp' => by
    rwa [hget, Option.map_eq_some_iff] at hp'
  have hfwd : ∀ {s p}, t.get s = some p → u.get s = some (f s p) := fun {s p} hp => by rw [hget, hp]; rfl
  constructor
  case init =>
    obtain ⟨p, hp, hp0, hpp, hpl⟩ := h.init
    exact ⟨_, hfwd hp, (hpid _ p hp).trans hp0, (hparent _ p hp).trans hpp, hlive _ p hp hpl⟩
  case nextPid =>
    exact hnext
  case current =>
    obtain ⟨p, hp⟩ := hcurrent
    exact ⟨_, hfwd hp⟩
  case pid_injective =>
    intro s s' p p' hp hp' heq
    obtain ⟨q, hq, rfl⟩ := hinv hp
    obtain ⟨q', hq', rfl⟩ := hinv hp'
    rw [hpid s q hq, hpid s' q' hq'] at heq
    exact h.pid_injective s s' q q' hq hq' heq
  case parent =>
    intro s p hp hs
    obtain ⟨q, hq, rfl⟩ := hinv hp
    obtain ⟨s', p', hqp, hp', hl⟩ := h.parent s q hq hs
    exact ⟨s', _, (hparent s q hq).trans hqp, hfwd hp', hlive s' p' hp' hl⟩
  case rank =>
    obtain ⟨rank, hrank⟩ := h.rank
    refine ⟨rank, fun s p s' hp hs' => ?_⟩
    obtain ⟨q, hq, rfl⟩ := hinv hp
    exact hrank s q s' hq ((hparent s q hq).symm.trans hs')
  case running =>
    intro s p hp hrun
    obtain ⟨q, hq, rfl⟩ := hinv hp
    exact hrunning s q hq hrun
  case blocked =>
    intro s p hp hblock
    obtain ⟨q, hq, rfl⟩ := hinv hp
    have hchild : ∃ c q', t.get c = some q' ∧ q'.parent = some s ∧ q'.isZombie = false := by
      by_cases hb : q.status = .blocked
      · exact h.blocked s q hq hb
      · exact hblocked s q hq hblock hb
    obtain ⟨c, q', hq', hqp, hql⟩ := hchild
    exact ⟨c, _, hfwd hq', (hparent c q' hq').trans hqp, hlive c q' hq' hql⟩
  case clean =>
    intro s p hp hz
    obtain ⟨q, hq, rfl⟩ := hinv hp
    cases hqz : q.isZombie with
    | false => exact absurd hz (by simp [hlive s q hq hqz])
    | true =>
      rw [hzombie s q hq hqz]
      exact h.clean s q hq hqz

/-- One process that has not exited is changed. -/
private theorem put (h : t.Forest μ) {s : Slot} {p q : Process β} (hp : t.get s = some p) (hlive : p.isZombie = false)
    (hpid : q.pid = p.pid) (hparent : q.parent = p.parent) (hqlive : q.isZombie = false)
    (hrunning : q.status = .running → s = t.current)
    (hblocked : q.status = .blocked → p.status ≠ .blocked →
      ∃ c q', t.get c = some q' ∧ q'.parent = some s ∧ q'.isZombie = false) : (t.put s (some q)).Forest μ := by
  have hcases : ∀ {C : Process β → Process β → Prop} {s' : Slot} {p' : Process β}, t.get s' = some p' →
      (s' = s → C p q) → (s' ≠ s → C p' p') → C p' (if s' = s then q else p') := by
    intro C s' p' hp' hself hother
    by_cases hs : s' = s
    · rw [if_pos hs]
      rw [hs, hp] at hp'
      exact Option.some.inj hp' ▸ hself hs
    · rw [if_neg hs]
      exact hother hs
  refine h.of_map (fun s' p' => if s' = s then q else p') ?_ h.nextPid h.current ?_ ?_ ?_ ?_ ?_ ?_
  · intro s'
    by_cases hs : s' = s
    · subst hs; simp [hp]
    · rw [get_put_of_ne _ hs]
      cases t.get s' <;> simp [hs]
  · exact fun s' p' hp' => hcases (C := fun p q => q.pid = p.pid) hp' (fun _ => hpid) fun _ => rfl
  · exact fun s' p' hp' => hcases (C := fun p q => q.parent = p.parent) hp' (fun _ => hparent) fun _ => rfl
  · exact fun s' p' hp' => hcases (C := fun p q => p.isZombie = false → q.isZombie = false) hp'
      (fun _ _ => hqlive) fun _ hl => hl
  · exact fun s' p' hp' => hcases (C := fun p q => p.isZombie = true → q = p) hp'
      (fun _ hz => absurd hz (by simp [hlive])) fun _ _ => rfl
  · intro s' p' hp'
    exact hcases (C := fun _ q => q.status = .running → s' = t.current) hp'
      (fun hs => hs ▸ hrunning) fun _ => h.running s' p' hp'
  · intro s' p' hp'
    exact hcases (C := fun p q => q.status = .blocked → p.status ≠ .blocked →
      ∃ c q', t.get c = some q' ∧ q'.parent = some s' ∧ q'.isZombie = false) hp'
      (fun hs => hs ▸ hblocked) fun _ hb hnb => absurd hb hnb

private theorem wake (h : t.Forest μ) (s : Slot) : (t.wake s).Forest μ := by
  by_cases hblocked : ∃ p, t.get s = some p ∧ p.status = .blocked
  · obtain ⟨p, hp, hstatus⟩ := hblocked
    have hready : p.wake.status = .ready := by rw [Process.wake_status, if_pos hstatus]
    rw [ProcessTable.wake, modifyAt_eq_put hp]
    exact h.put hp (Process.isZombie_eq_false_iff.mpr (by simp [hstatus])) (by simp) (by simp)
      (Process.isZombie_eq_false_iff.mpr (by simp [hready])) (by simp [hready]) (by simp [hready])
  · have hsame : t.wake s = t := modifyAt_of_eq fun p hp =>
      Process.wake_of_not_blocked fun hstatus => hblocked ⟨p, hp, hstatus⟩
    rwa [hsame]

private theorem allocPid (h : t.Forest μ) : t.allocPid.2.Forest μ :=
  h.of_map (fun _ p => p) (fun s => by simp) (t.allocPid_fresh h.nextPid).2.2 h.current (fun _ _ _ => rfl)
    (fun _ _ _ => rfl) (fun _ _ _ hl => hl) (fun _ _ _ _ => rfl) h.running fun _ _ _ hb hnb => absurd hb hnb

private theorem fork (h : t.Forest μ) {s : Slot} {p : Process β} {space : β} (hs : t.get s = none)
    (hp : t.get t.current = some p) (hlive : p.isZombie = false) :
    (t.allocPid.2.put s (some (p.child t.allocPid.1 t.current space))).Forest μ := by
  obtain ⟨-, hfresh, -⟩ := t.allocPid_fresh h.nextPid
  have hold : ∀ {c q}, t.get c = some q → (t.allocPid.2.put s (some (p.child t.allocPid.1 t.current space))).get c =
      some q := fun {c q} hq => by
    have hc : c ≠ s := by rintro rfl; simp [hs] at hq
    rw [get_put_of_ne _ hc]; exact hq
  have hcases : ∀ {c q}, (t.allocPid.2.put s (some (p.child t.allocPid.1 t.current space))).get c = some q →
      c = s ∧ q = p.child t.allocPid.1 t.current space ∨ c ≠ s ∧ t.get c = some q := fun {c q} hq => by
    by_cases hc : c = s
    · subst hc
      exact .inl ⟨rfl, by simpa using hq.symm⟩
    · rw [get_put_of_ne _ hc] at hq
      exact .inr ⟨hc, hq⟩
  constructor
  case init =>
    obtain ⟨q, hq, hrest⟩ := h.init
    exact ⟨q, hold hq, hrest⟩
  case nextPid =>
    exact (t.allocPid_fresh h.nextPid).2.2
  case current =>
    exact ⟨p, hold hp⟩
  case pid_injective =>
    intro c c' q q' hq hq' heq
    rcases hcases hq with ⟨hc, hchild⟩ | ⟨-, hold⟩ <;> rcases hcases hq' with ⟨hc', hchild'⟩ | ⟨-, hold'⟩
    · rw [hc, hc']
    · rw [hchild] at heq
      exact absurd heq.symm (findPid?_eq_none.mp hfresh c' q' hold')
    · rw [hchild'] at heq
      exact absurd heq (findPid?_eq_none.mp hfresh c q hold)
    · exact h.pid_injective c c' q q' hold hold' heq
  case parent =>
    intro c q hq hc
    rcases hcases hq with ⟨rfl, rfl⟩ | ⟨-, hq⟩
    · exact ⟨t.current, p, rfl, hold hp, hlive⟩
    · obtain ⟨s', p', hparent, hp', hl⟩ := h.parent c q hq hc
      exact ⟨s', p', hparent, hold hp', hl⟩
  case rank =>
    obtain ⟨rank, hrank⟩ := h.rank
    -- the child takes a rank above its parent's; no process has the child for its parent
    refine ⟨fun c => if c = s then rank t.current + 1 else rank c, fun c q c' hq hc' => ?_⟩
    rcases hcases hq with ⟨rfl, rfl⟩ | ⟨hc, hq⟩
    · have hcurrent : t.current ≠ c := by rintro heq; rw [heq, hs] at hp; exact absurd hp (by simp)
      obtain rfl : t.current = c' := by simpa [Process.child] using hc'
      simp [hcurrent]
    · obtain ⟨p', hp', -⟩ := h.parent_live hq hc'
      have hne : c' ≠ s := by rintro rfl; simp [hs] at hp'
      simpa [hc, hne] using hrank c q c' hq hc'
  case running =>
    intro c q hq hrun
    rcases hcases hq with ⟨rfl, rfl⟩ | ⟨-, hq⟩
    · simp [Process.child] at hrun
    · exact h.running c q hq hrun
  case blocked =>
    intro c q hq hb
    rcases hcases hq with ⟨rfl, rfl⟩ | ⟨-, hq⟩
    · simp [Process.child] at hb
    · obtain ⟨d, r, hr, hparent, hl⟩ := h.blocked c q hq hb
      exact ⟨d, r, hold hr, hparent, hl⟩
  case clean =>
    intro c q hq hz
    rcases hcases hq with ⟨rfl, rfl⟩ | ⟨-, hq⟩
    · simp [Process.child, Process.isZombie] at hz
    · exact h.clean c q hq hz

private theorem reap (h : t.Forest μ) {c : Slot} {p : Process β} (hp : t.get c = some p) (hzombie : p.isZombie = true)
    (hcurrent : c ≠ t.current) : (t.put c none).Forest μ := by
  have hinv : ∀ {s q}, (t.put c none).get s = some q → s ≠ c ∧ t.get s = some q := fun {s q} hq => by
    by_cases hs : s = c
    · subst hs; simp at hq
    · exact ⟨hs, by rwa [get_put_of_ne _ hs] at hq⟩
  have hlive : ∀ {s q}, t.get s = some q → q.isZombie = false → (t.put c none).get s = some q := fun {s q} hq hl => by
    have hs : s ≠ c := by rintro rfl; rw [hp] at hq; simp [← Option.some.inj hq, hzombie] at hl
    rwa [get_put_of_ne _ hs]
  constructor
  case init =>
    obtain ⟨q, hq, hq0, hqp, hl⟩ := h.init
    exact ⟨q, hlive hq hl, hq0, hqp, hl⟩
  case nextPid =>
    exact h.nextPid
  case current =>
    obtain ⟨q, hq⟩ := h.current
    exact ⟨q, by rw [current_put, get_put_of_ne _ (Ne.symm hcurrent), hq]⟩
  case pid_injective =>
    exact fun s s' q q' hq hq' => h.pid_injective s s' q q' (hinv hq).2 (hinv hq').2
  case parent =>
    intro s q hq hs
    obtain ⟨s', p', hparent, hp', hl⟩ := h.parent s q (hinv hq).2 hs
    exact ⟨s', p', hparent, hlive hp' hl, hl⟩
  case rank =>
    obtain ⟨rank, hrank⟩ := h.rank
    exact ⟨rank, fun s q s' hq => hrank s q s' (hinv hq).2⟩
  case running =>
    exact fun s q hq => h.running s q (hinv hq).2
  case blocked =>
    intro s q hq hb
    obtain ⟨d, r, hr, hparent, hl⟩ := h.blocked s q (hinv hq).2 hb
    exact ⟨d, r, hlive hr hl, hparent, hl⟩
  case clean =>
    exact fun s q hq => h.clean s q (hinv hq).2

/-! ### The running process leaves the hart -/

/-- What is known of a process after an exit: it was there before, with the same number, and with the same parent unless
that is the process that exited. -/
private theorem origin_exited (h : t.Forest μ) {p : Process β} {code : Int32} {space : β}
    (hp : t.get t.current = some p) (hs : t.current ≠ .init) {c : Slot} {q : Process β}
    (hq : (t.exited t.current (p.remains code space)).get c = some q) :
    ∃ q', t.get c = some q' ∧ q.pid = q'.pid ∧
      q.parent = if q'.parent = some t.current then some .init else q'.parent := by
  have hremains := h.remains_parent_ne hp code space
  rcases get_exited_eq_some hs hremains hq with ⟨rfl, rfl⟩ | ⟨-, q', hq', rfl⟩
  · exact ⟨p, hp, rfl, (if_neg hremains).symm⟩
  · exact ⟨q', hq', exitEffect_pid _ _ _ _, exitEffect_parent _ _ _ _⟩

private theorem exited_clean (h : t.Forest μ) {p : Process β} (hp : t.get t.current = some p) (code : Int32) (space : β)
    {c : Slot} {r : Process β} (hr : t.get c = some r) (hzombie : r.isZombie = true) :
    (t.exitEffect t.current (p.remains code space) c r).Clean μ := by
  have hc : c ≠ .init := by
    rintro rfl
    obtain ⟨first, hfirst, -, -, hlive⟩ := h.init
    rw [hfirst, Option.some.injEq] at hr
    exact absurd hzombie (by simp [← hr, hlive])
  have hother : (p.remains code space).parent ≠ some c := fun hparent => by
    obtain ⟨p', hp', hlive⟩ := h.parent_live hp hparent
    rw [hr, Option.some.injEq] at hp'
    exact absurd hzombie (by simp [hp', hlive])
  have hclean := h.clean c r hr hzombie
  rw [exitEffect_of_ne hc hother]
  unfold Process.disown
  split
  · exact ⟨hclean.descriptors, hclean.pages, hclean.pending, hclean.interrupted⟩
  · exact hclean

private theorem exited (h : t.Forest μ) {p : Process β} {code : Int32} {space : β} (hp : t.get t.current = some p)
    (hs : t.current ≠ .init) (hspace : MemorySystem.Dropped μ space) :
    (t.exited t.current (p.remains code space)).Forest μ := by
  have hremains := h.remains_parent_ne hp code space
  have hfwd : ∀ {c q}, c ≠ t.current → t.get c = some q → (t.exited t.current (p.remains code space)).get c =
      some (t.exitEffect t.current (p.remains code space) c q) := fun {c q} hc hq => by
    rw [get_exited_of_ne _ hc, hq, Option.map_some]
  have hlive : ∀ {c q}, q.isZombie = false →
      (t.exitEffect t.current (p.remains code space) c q).isZombie = false := fun {c q} hq => by
    rw [Process.isZombie_eq_false_iff] at hq ⊢
    rcases exitEffect_status (t := t) t.current (p.remains code space) c q with ⟨heq, -⟩ | ⟨-, heq⟩ <;> simp [heq, hq]
  obtain ⟨first, hfirst, hfirst0, hfirstparent, hfirstlive⟩ := h.init
  have hfirst' := hfwd (Ne.symm hs) hfirst
  constructor
  case init =>
    exact ⟨_, hfirst', (exitEffect_pid _ _ _ _).trans hfirst0, by simp [exitEffect_parent, hfirstparent],
      hlive hfirstlive⟩
  case nextPid =>
    rw [nextPid_exited]
    exact h.nextPid
  case current =>
    rw [current_exited, get_exited_self hs hremains]
    exact ⟨_, rfl⟩
  case pid_injective =>
    intro c c' q q' hq hq' heq
    obtain ⟨r, hr, hpid, -⟩ := h.origin_exited hp hs hq
    obtain ⟨r', hr', hpid', -⟩ := h.origin_exited hp hs hq'
    exact h.pid_injective c c' r r' hr hr' (by rw [← hpid, ← hpid', heq])
  case parent =>
    intro c q hq hc
    obtain ⟨r, hr, -, hparent⟩ := h.origin_exited hp hs hq
    by_cases hchild : r.parent = some t.current
    · exact ⟨.init, _, by rw [hparent, if_pos hchild], hfirst', hlive hfirstlive⟩
    · obtain ⟨s', p', hrparent, hp', hl⟩ := h.parent c r hr hc
      have hs' : s' ≠ t.current := by rintro rfl; exact hchild hrparent
      exact ⟨s', _, by rw [hparent, if_neg hchild, hrparent], hfwd hs' hp', hlive hl⟩
  case rank =>
    -- the ranks stay, since the first process, which has the least one, is above all that are adopted
    obtain ⟨rank, hrank⟩ := h.rank
    refine ⟨rank, fun c q c' hq hc' => ?_⟩
    obtain ⟨r, hr, -, hparent⟩ := h.origin_exited hp hs hq
    rw [hparent] at hc'
    by_cases hchild : r.parent = some t.current
    · obtain rfl : Slot.init = c' := by simpa [hchild] using hc'
      have hc : c ≠ .init := by
        rintro rfl
        rw [hfirst, Option.some.injEq] at hr
        rw [← hr, hfirstparent] at hchild
        exact absurd hchild (by simp)
      exact h.rank_init_lt hrank hr hc
    · rw [if_neg hchild] at hc'
      exact hrank c r c' hr hc'
  case running =>
    intro c q hq hrun
    rw [current_exited]
    rcases get_exited_eq_some hs hremains hq with ⟨rfl, -⟩ | ⟨-, r, hr, rfl⟩
    · rfl
    · rcases exitEffect_status (t := t) t.current (p.remains code space) c r with ⟨heq, -⟩ | ⟨-, heq⟩
      · exact h.running c r hr (heq.symm.trans hrun)
      · exact absurd (heq.symm.trans hrun) (by simp)
  case blocked =>
    intro c q hq hblocked
    rcases get_exited_eq_some hs hremains hq with ⟨-, rfl⟩ | ⟨hc, r, hr, rfl⟩
    · exact absurd hblocked (by simp [Process.remains])
    rcases exitEffect_status (t := t) t.current (p.remains code space) c r with ⟨heq, hother⟩ | ⟨-, heq⟩
    · obtain ⟨d, q', hq', hparent, hl⟩ := h.blocked c r hr (heq.symm.trans hblocked)
      have hd : d ≠ t.current := by
        rintro rfl
        rw [hp, Option.some.injEq] at hq'
        exact hother (by rw [← hparent, ← hq']; rfl) (heq.symm.trans hblocked)
      have hnot : q'.parent ≠ some t.current := by simpa [hparent] using hc
      exact ⟨d, _, hfwd hd hq', by rw [exitEffect_parent, if_neg hnot, hparent], hlive hl⟩
    · exact absurd (heq.symm.trans hblocked) (by simp)
  case clean =>
    intro c q hq hz
    rcases get_exited_eq_some hs hremains hq with ⟨-, rfl⟩ | ⟨-, r, hr, rfl⟩
    · exact ⟨rfl, hspace, rfl, rfl⟩
    · refine h.exited_clean hp code space hr ?_
      by_contra hl
      rw [Bool.not_eq_true] at hl
      exact absurd hz (by simp [hlive hl])

end Forest

theorem Running.live (hr : t.Running) : ∃ p, t.get t.current = some p ∧ p.isZombie = false := by
  obtain ⟨p, hp, hstatus⟩ := hr
  exact ⟨p, hp, Process.isZombie_eq_false_iff.mpr (by simp [hstatus])⟩

theorem Running.isZombie_eq_false (hr : t.Running) {p : Process β} (hp : t.get t.current = some p) :
    p.isZombie = false := by
  obtain ⟨p', hp', hlive⟩ := hr.live
  exact Option.some.inj (hp'.symm.trans hp) ▸ hlive

/-- When the running process has left the hart, the processes are still a forest and none of them is running. -/
theorem Yields.forest (hu : t.Yields μ u) (h : t.Forest μ) (hr : t.Running) :
    u.Forest μ ∧ ∀ s p, u.get s = some p → p.status ≠ .running := by
  have hother : ∀ {p q : Process β} {s : Slot}, (t.put t.current (some p)).get s = some q → p.status ≠ .running →
      q.status ≠ .running := fun {p q s} hq hstatus => by
    by_cases hs : s = t.current
    · subst hs
      rw [get_put_self, Option.some.injEq] at hq
      rwa [← hq]
    · rw [get_put_of_ne _ hs] at hq
      exact fun hrun => hs (h.running s q hq hrun)
  obtain ⟨p', hp', hlive⟩ := hr.live
  cases hu with
  | @suspend p hp =>
    obtain rfl : p = p' := Option.some.inj (hp.symm.trans hp')
    exact ⟨h.put hp hlive rfl rfl (by simp [Process.isZombie]) (by simp) (by simp),
      fun s q hq => hother hq (by simp)⟩
  | @block p q c hp hc hparent hqlive =>
    obtain rfl : p = p' := Option.some.inj (hp.symm.trans hp')
    exact ⟨h.put hp hlive rfl rfl (by simp [Process.isZombie]) (by simp) fun _ _ => ⟨c, q, hc, hparent, hqlive⟩,
      fun s q hq => hother hq (by simp)⟩
  | @exit p code space hp hs hspace =>
    have hforest : (t.exited t.current (p.remains code space)).Forest μ := h.exited hp hs hspace
    refine ⟨hforest, fun c q hq hrun => ?_⟩
    rcases get_exited_eq_some hs (h.remains_parent_ne hp code space) hq with ⟨-, rfl⟩ | ⟨hc, -⟩
    · exact absurd hrun (by simp [Process.remains])
    · exact hc ((hforest.running c q hq hrun).trans (current_exited _ _))

/-- The running process never leaves the hart without a process that can take it. -/
theorem Forest.not_stuck (h : t.Forest μ) (hr : t.Running) : ¬t.Stuck μ := by
  rintro ⟨u, hu, hnone⟩
  obtain ⟨hforest, hrunning⟩ := hu.forest h hr
  obtain ⟨next, hnext⟩ := hforest.nextReady?_isSome hrunning
  rw [hnone] at hnext
  exact absurd hnext (by simp)

private theorem Forest.switchTo (h : t.Forest μ) (hnone : ∀ s p, t.get s = some p → p.status ≠ .running) {next : Slot}
    {p : Process β} (hp : t.get next = some p) (hready : p.status = .ready) : (t.switchTo next).Forest μ := by
  have hmoved : ({ t with current := next } : ProcessTable β).Forest μ :=
    h.of_map (fun _ q => q) (fun s => by simp [get]) h.nextPid ⟨p, hp⟩ (fun _ _ _ => rfl) (fun _ _ _ => rfl)
      (fun _ _ _ hl => hl) (fun _ _ _ _ => rfl) (fun s q hq hrun => absurd hrun (hnone s q hq))
      fun _ _ _ hb hnb => absurd hb hnb
  have hput : t.switchTo next =
      ({ t with current := next } : ProcessTable β).put next (some { p with status := .running }) := by
    unfold ProcessTable.switchTo
    rw [modifyAt_eq_put hp]
    rfl
  rw [hput]
  exact hmoved.put hp (Process.isZombie_eq_false_iff.mpr (by simp [hready])) rfl rfl (by simp [Process.isZombie])
    (fun _ => rfl) (by simp)

/-- A move leads from a forest with a running process to another one. -/
theorem Move.forest {t t' : ProcessTable β} (hmove : Move μ t t') (h : t.Forest μ) (hr : t.Running) :
    t'.Forest μ ∧ t'.Running := by
  obtain ⟨p, hp, hstatus⟩ := hr
  have hlive : p.isZombie = false := Process.isZombie_eq_false_iff.mpr (by simp [hstatus])
  cases hmove with
  | @edit s q q' hq hqlive hpid hstatus' hparent =>
    have hqlive' : q'.isZombie = false := by rwa [Process.isZombie, hstatus']
    refine ⟨h.put hq hqlive hpid hparent hqlive' (fun hrun => h.running s q hq (hstatus'.symm.trans hrun))
      fun hb hnb => absurd (hstatus'.symm.trans hb) hnb, ?_⟩
    by_cases hs : t.current = s
    · refine ⟨q', by rw [current_put, hs, get_put_self], ?_⟩
      rw [← hs, hp, Option.some.injEq] at hq
      rw [hstatus', ← hq, hstatus]
    · exact ⟨p, by rw [current_put, get_put_of_ne _ hs, hp], hstatus⟩
  | countPid => exact ⟨h.allocPid, p, hp, hstatus⟩
  | @fork s p' space hs hp' =>
    obtain rfl : p = p' := Option.some.inj (hp.symm.trans hp')
    have hne : t.current ≠ s := by rintro rfl; simp [hs] at hp
    exact ⟨h.fork hs hp hlive, p, by rw [current_put, current_allocPid, get_put_of_ne _ hne, get_allocPid, hp], hstatus⟩
  | @reap c q hq hzombie hparent =>
    have hne : t.current ≠ c := h.parent_ne hq hparent
    exact ⟨h.reap hq hzombie (Ne.symm hne), p, by rw [current_put, get_put_of_ne _ hne, hp], hstatus⟩
  | @wake s =>
    refine ⟨h.wake s, ?_⟩
    by_cases hs : s = t.current
    · refine ⟨p.wake, by rw [current_wake, get_wake, if_pos hs, hp]; rfl, ?_⟩
      rw [Process.wake_of_not_blocked (by simp [hstatus]), hstatus]
    · exact ⟨p, by rw [current_wake, get_wake, if_neg hs, hp], hstatus⟩
  | @switch u next hu hnext =>
    obtain ⟨hforest, hnone⟩ := hu.forest h ⟨p, hp, hstatus⟩
    obtain ⟨q, hq, hready⟩ := nextReady?_eq_some hnext
    exact ⟨hforest.switchTo hnone hq hready, { q with status := .running }, by
      rw [current_switchTo, get_switchTo, if_pos rfl, hq]; rfl, rfl⟩

/-- Any number of moves lead from a forest with a running process to another one. -/
theorem forest_of_moves {t t' : ProcessTable β} (hmoves : Relation.ReflTransGen (Move μ) t t') (h : t.Forest μ)
    (hr : t.Running) : t'.Forest μ ∧ t'.Running := by
  induction hmoves with
  | refl => exact ⟨h, hr⟩
  | tail _ hmove ih => exact hmove.forest ih.1 ih.2

/-- The table with the first process only is a forest, and the first process is running. -/
theorem forest_initial (entry stackPointer heapStart : UInt64) (space : β) :
    (ProcessTable.initial (.initial entry stackPointer heapStart space)).Forest μ ∧
      (ProcessTable.initial (.initial entry stackPointer heapStart space)).Running := by
  have hget : ∀ s p, (ProcessTable.initial (.initial entry stackPointer heapStart space)).get s = some p →
      s = .init ∧ p = .initial entry stackPointer heapStart space := fun _ _ => get_initial_eq_some
  have hinit : (ProcessTable.initial (.initial entry stackPointer heapStart space)).get .init =
      some (.initial entry stackPointer heapStart space) := by
    rw [get_initial, if_pos rfl]
  refine ⟨?_, _, hinit, rfl⟩
  constructor
  case init =>
    exact ⟨_, hinit, rfl, rfl, rfl⟩
  case nextPid =>
    simp [ProcessTable.initial]
  case current =>
    exact ⟨_, hinit⟩
  case pid_injective =>
    exact fun s s' p p' hp hp' _ => (hget s p hp).1.trans (hget s' p' hp').1.symm
  case parent =>
    exact fun s p hp hs => absurd (hget s p hp).1 hs
  case rank =>
    refine ⟨fun _ => 0, fun s p s' hp hparent => ?_⟩
    rw [(hget s p hp).2] at hparent
    exact absurd hparent (by simp [Process.initial])
  case running =>
    exact fun s p hp _ => (hget s p hp).1
  case blocked =>
    intro s p hp hb
    rw [(hget s p hp).2] at hb
    exact absurd hb (by simp [Process.initial])
  case clean =>
    intro s p hp hz
    rw [(hget s p hp).2] at hz
    exact absurd hz (by simp [Process.initial, Process.isZombie])

end ProcessTable

end TrapKernel
