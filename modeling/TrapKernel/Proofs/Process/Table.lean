import TrapKernel.Process.Table

/-!
# The process table under change

What each change of the table does to a slot, and what the searches of the table find.

* `ProcessTable.get_reparent`: the children of an exited process go to the first one.
* `ProcessTable.nextReady?_eq_none`: the scheduler finds no one only if no process is ready.
-/

namespace TrapKernel

variable {β : Type}

namespace Process

@[simp] theorem wake_pid (p : Process β) : p.wake.pid = p.pid := by unfold wake; split <;> rfl

@[simp] theorem wake_parent (p : Process β) : p.wake.parent = p.parent := by unfold wake; split <;> rfl

@[simp] theorem wake_memory (p : Process β) : p.wake.memory = p.memory := by unfold wake; split <;> rfl

@[simp] theorem wake_pending (p : Process β) : p.wake.pending = p.pending := by unfold wake; split <;> rfl

theorem wake_status (p : Process β) : p.wake.status = if p.status = .blocked then .ready else p.status := by
  unfold wake; split <;> rfl

theorem wake_of_not_blocked {p : Process β} (h : p.status ≠ .blocked) : p.wake = p := by
  unfold wake; rw [if_neg h]

@[simp] theorem disown_pid (s : Slot) (p : Process β) : (p.disown s).pid = p.pid := by unfold disown; split <;> rfl

@[simp] theorem disown_status (s : Slot) (p : Process β) : (p.disown s).status = p.status := by
  unfold disown; split <;> rfl

@[simp] theorem disown_memory (s : Slot) (p : Process β) : (p.disown s).memory = p.memory := by
  unfold disown; split <;> rfl

@[simp] theorem disown_pending (s : Slot) (p : Process β) : (p.disown s).pending = p.pending := by
  unfold disown; split <;> rfl

theorem disown_parent (s : Slot) (p : Process β) :
    (p.disown s).parent = if p.parent = some s then some .init else p.parent := by
  unfold disown; split <;> rfl

theorem isZombie_iff {p : Process β} : p.isZombie = true ↔ p.status = .zombie := by simp [isZombie]

theorem isZombie_eq_false_iff {p : Process β} : p.isZombie = false ↔ p.status ≠ .zombie := by simp [isZombie]

@[simp] theorem wake_isZombie (p : Process β) : p.wake.isZombie = p.isZombie := by
  unfold isZombie
  rw [wake_status]
  by_cases h : p.status = .blocked <;> simp [h]

end Process

namespace ProcessTable

variable (t : ProcessTable β)

/-! ### One slot -/

theorem get_initial (p : Process β) (s : Slot) : (initial p).get s = if s = .init then some p else none := by
  by_cases hs : s = .init
  · subst hs
    simp [initial, get]
  · have hne : (0 : Nat) ≠ s.val := fun heq => hs (Fin.ext heq.symm)
    simp [initial, get, Vector.getElem_set_ne _ _ hne, hs]

theorem get_initial_eq_some {p q : Process β} {s : Slot} (h : (initial p).get s = some q) : s = .init ∧ q = p := by
  rw [get_initial] at h
  split at h
  next hs => exact ⟨hs, (Option.some.inj h).symm⟩
  · exact absurd h (by simp)

@[simp] theorem get_put_self (s : Slot) (p : Option (Process β)) : (t.put s p).get s = p := by
  rw [get_put, if_pos rfl]

theorem get_put_of_ne {s s' : Slot} (h : s' ≠ s) (p : Option (Process β)) : (t.put s p).get s' = t.get s' := by
  rw [get_put, if_neg (Ne.symm h)]

theorem put_get (s : Slot) : t.put s (t.get s) = t := by
  simp [put, get]

@[simp] theorem current_put (s : Slot) (p : Option (Process β)) : (t.put s p).current = t.current := rfl

@[simp] theorem nextPid_put (s : Slot) (p : Option (Process β)) : (t.put s p).nextPid = t.nextPid := rfl

theorem get_modifyAt (s s' : Slot) (f : Process β → Process β) :
    (t.modifyAt s f).get s' = if s = s' then (t.get s').map f else t.get s' := by
  unfold modifyAt
  rw [get_put]
  by_cases h : s = s'
  · subst h; rfl
  · rw [if_neg h, if_neg h]

@[simp] theorem current_modifyAt (s : Slot) (f : Process β → Process β) :
    (t.modifyAt s f).current = t.current := rfl

@[simp] theorem current_wake (s : Slot) : (t.wake s).current = t.current := rfl

@[simp] theorem nextPid_wake (s : Slot) : (t.wake s).nextPid = t.nextPid := rfl

theorem get_wake (s s' : Slot) :
    (t.wake s).get s' = if s = s' then (t.get s').map Process.wake else t.get s' :=
  t.get_modifyAt s s' Process.wake

variable {t}

theorem hasStatus_iff {s : Slot} {status : Status} :
    t.hasStatus s status = true ↔ ∃ p, t.get s = some p ∧ p.status = status := by
  unfold hasStatus
  cases t.get s <;> simp

theorem modifyAt_eq_put {s : Slot} {p : Process β} (h : t.get s = some p) (f : Process β → Process β) :
    t.modifyAt s f = t.put s (some (f p)) := by
  unfold modifyAt; rw [h]; rfl

theorem modifyAt_of_eq {s : Slot} {f : Process β → Process β} (h : ∀ p, t.get s = some p → f p = p) :
    t.modifyAt s f = t := by
  have hmap : (t.get s).map f = t.get s := by
    cases hp : t.get s with
    | none => rfl
    | some p => rw [Option.map_some, h p hp]
  rw [modifyAt, hmap, put_get]

/-! ### All slots -/

theorem mem_children {s c : Slot} : c ∈ t.children s ↔ ∃ p, t.get c = some p ∧ p.parent = some s := by
  unfold children
  rw [List.mem_filter]
  cases t.get c <;> simp [Slot.mem_all]

theorem findPid?_eq_none {pid : UInt64} :
    t.findPid? pid = none ↔ ∀ s p, t.get s = some p → p.pid ≠ pid := by
  unfold findPid?
  rw [List.find?_eq_none]
  refine ⟨fun h s p hp => ?_, fun h s _ => ?_⟩
  · have := h s (Slot.mem_all s)
    simpa [hp] using this
  · cases hp : t.get s with
    | none => simp
    | some p => simpa using h s p hp

theorem findPid?_eq_some {pid : UInt64} {s : Slot} (h : t.findPid? pid = some s) :
    ∃ p, t.get s = some p ∧ p.pid = pid := by
  have := List.find?_some h
  cases hp : t.get s with
  | none => simp [hp] at this
  | some p => exact ⟨p, rfl, by simpa [hp] using this⟩

theorem firstFree?_eq_some {s : Slot} (h : t.firstFree? = some s) : t.get s = none := by
  simpa using List.find?_some h

/-- The first slot without a process is the lowest one. -/
theorem firstFree?_le {s s' : Slot} (h : t.firstFree? = some s) (hs' : t.get s' = none) : s ≤ s' := by
  obtain ⟨-, before, after, hall, hbefore⟩ := List.find?_eq_some_iff_append.mp h
  have hmem : s' ∈ s :: after := by
    refine (List.mem_append.mp (hall ▸ Slot.mem_all s' : s' ∈ before ++ s :: after)).resolve_left fun hmem => ?_
    simpa [hs'] using hbefore s' hmem
  have hsorted : (before ++ s :: after).Pairwise (· < ·) := hall ▸ List.pairwise_lt_finRange slotCount
  rcases List.mem_cons.mp hmem with rfl | hafter
  · exact Fin.le_refl _
  · exact Fin.le_of_lt ((List.pairwise_cons.mp (List.pairwise_append.mp hsorted).2.1).1 s' hafter)

theorem firstFree?_eq_none : t.firstFree? = none ↔ ∀ s, (t.get s).isSome := by
  simp [firstFree?, Slot.mem_all, Option.isSome_iff_ne_none]

theorem mem_scheduleOrder (s : Slot) : s ∈ t.scheduleOrder := by
  unfold scheduleOrder
  rw [List.mem_map]
  refine ⟨(s.val + slotCount - (t.current.val + 1)) % slotCount, List.mem_range.mpr (Nat.mod_lt _ (by decide)), ?_⟩
  apply Fin.ext
  have hs := s.isLt
  have hc := t.current.isLt
  simp only [Slot.ofNat, Fin.ofNat, slotCount] at hs hc ⊢
  omega

theorem nextReady?_eq_some {s : Slot} (h : t.nextReady? = some s) : ∃ p, t.get s = some p ∧ p.status = .ready := by
  have hs := List.find?_some h
  exact hasStatus_iff.mp hs

theorem nextReady?_eq_none : t.nextReady? = none ↔ ∀ s p, t.get s = some p → p.status ≠ .ready := by
  unfold nextReady?
  rw [List.find?_eq_none]
  refine ⟨fun h s p hp hready => h s (mem_scheduleOrder s) (hasStatus_iff.mpr ⟨p, hp, hready⟩), fun h s _ hs => ?_⟩
  obtain ⟨p, hp, hready⟩ := hasStatus_iff.mp hs
  exact h s p hp hready

/-! ### The children of an exited process -/

/-- Whether one of the children of the process in a slot has exited. -/
def hasZombieChild (t : ProcessTable β) (s : Slot) : Bool := (t.children s).any fun c => t.hasStatus c .zombie

/-- What happens to the process in slot `c` when the children of the one in slot `s` go to the first process. -/
def adopt (t : ProcessTable β) (s c : Slot) (p : Process β) : Process β :=
  if t.hasZombieChild s ∧ c = .init then (p.disown s).wake else p.disown s

theorem get_reparent (t : ProcessTable β) (s c : Slot) : (t.reparent s).get c = (t.get c).map (t.adopt s c) := by
  let adopted : ProcessTable β := { t with slots := t.slots.map fun p => p.map (Process.disown s) }
  have hget : adopted.get c = (t.get c).map (Process.disown s) := by simp [adopted, get]
  show (if t.hasZombieChild s then adopted.wake .init else adopted).get c = _
  by_cases hz : t.hasZombieChild s = true
  · rw [if_pos hz, get_wake, hget]
    by_cases hc : c = .init
    · subst hc
      rw [if_pos rfl]
      cases t.get Slot.init <;> simp [adopt, hz]
    · rw [if_neg (Ne.symm hc)]
      cases t.get c <;> simp [adopt, hc]
  · rw [if_neg hz, hget]
    cases t.get c <;> simp [adopt, hz]

@[simp] theorem current_reparent (s : Slot) : (t.reparent s).current = t.current := by
  unfold reparent; split <;> rfl

@[simp] theorem nextPid_reparent (s : Slot) : (t.reparent s).nextPid = t.nextPid := by
  unfold reparent; split <;> rfl

end ProcessTable

end TrapKernel
