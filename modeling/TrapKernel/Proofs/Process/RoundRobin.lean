import TrapKernel.Proofs.Process.Table
import Mathlib.Data.List.Chain
import Mathlib.Data.List.Nodup
import Mathlib.Data.List.Perm.Subperm

/-!
# Round robin

The scheduler looks at the slots in a circle, from the one behind the current slot on, and the slot that it chooses
becomes the current one. So whoever is ready and is not chosen comes nearer with every choice.

* `ProcessTable.distance_nextReady?_lt`: a choice goes forward towards every slot that was ready and was not chosen.
* `ProcessTable.nodup_nextReady?`, `ProcessTable.length_lt_of_passesOver`: while a process is passed over, no slot is
  chosen twice, and so it is passed over by all other slots at most.
-/

namespace TrapKernel

namespace Slot

/-- How far it is forward in the circle of slots from the slot `c` to the slot `s`. To come back to the same slot takes
a whole round. -/
def distance (c s : Slot) : Nat := if s = c then slotCount else (s - c).val

private theorem distance_eq (c s : Slot) : c.distance s = (s.val + slotCount - 1 - c.val) % slotCount + 1 := by
  unfold distance
  split
  next heq => subst heq; simp only [slotCount]; omega
  next hne =>
    have hval : s.val ≠ c.val := fun h => hne (Fin.ext h)
    rw [Fin.sub_def]
    simp only [slotCount] at s c ⊢
    omega

private theorem distance_pos (c s : Slot) : 0 < c.distance s := by rw [distance_eq]; omega

private theorem distance_le (c s : Slot) : c.distance s ≤ slotCount := by
  rw [distance_eq]
  exact Nat.mod_lt _ (by decide)

/-- Whoever goes forward to a slot on the way has the rest of the way left. -/
private theorem distance_add_distance {c n s : Slot} (h : c.distance n < c.distance s) :
    c.distance n + n.distance s = c.distance s := by
  simp only [distance_eq, slotCount] at c n s h ⊢
  omega

end Slot

namespace ProcessTable

variable {β : Type} {t : ProcessTable β} {s next : Slot}

private theorem length_scheduleOrder (t : ProcessTable β) : t.scheduleOrder.length = slotCount := by
  unfold scheduleOrder
  rw [List.length_map, List.length_range]

private theorem getElem_scheduleOrder (t : ProcessTable β) {i : Nat} (hi : i < t.scheduleOrder.length) :
    (t.scheduleOrder[i]).val = (t.current.val + 1 + i) % slotCount := by
  simp [scheduleOrder, Slot.ofNat]

/-- The place of a slot in the order in which the scheduler looks at them. -/
private theorem getElem_scheduleOrder_eq_iff (t : ProcessTable β) {i : Nat} (hi : i < t.scheduleOrder.length) :
    t.scheduleOrder[i] = s ↔ t.current.distance s = i + 1 := by
  have hlt := length_scheduleOrder t ▸ hi
  rw [Fin.ext_iff, getElem_scheduleOrder, Slot.distance_eq]
  simp only [slotCount] at s hlt ⊢
  omega

/-- A choice goes forward, but not as far as to a slot that is ready and is not chosen. -/
theorem distance_nextReady?_lt (hnext : t.nextReady? = some next) (hs : t.hasStatus s .ready = true) (hne : next ≠ s) :
    next.distance s < t.current.distance s := by
  unfold nextReady? at hnext
  obtain ⟨-, i, hi, hget, hbefore⟩ := List.find?_eq_some_iff_getElem.mp hnext
  obtain ⟨j, hj, hplace⟩ := List.mem_iff_getElem.mp (mem_scheduleOrder (t := t) s)
  have hlt : i < j := by
    have hle : ¬ j < i := fun hji => by simpa [hplace, hs] using hbefore j hji
    have hij : i ≠ j := fun heq => hne (by rw [← hget, ← hplace]; simp only [heq])
    omega
  rw [getElem_scheduleOrder_eq_iff] at hget hplace
  have hadd := Slot.distance_add_distance (c := t.current) (n := next) (s := s) (by omega)
  have hpos := Slot.distance_pos t.current next
  omega

/-- The tables at some choices of the scheduler in a row, where each slot that is chosen is the current one at the next
choice. -/
def ChoicesInARow (choices : List (ProcessTable β)) : Prop :=
  choices.IsChain fun t u => ∀ next, t.nextReady? = some next → u.current = next

/-- Whether the process in a slot is ready and is not chosen. -/
def PassesOver (t : ProcessTable β) (s : Slot) : Prop := t.hasStatus s .ready = true ∧ t.nextReady? ≠ some s

instance (t : ProcessTable β) (s : Slot) : Decidable (t.PassesOver s) := inferInstanceAs (Decidable (_ ∧ _))

variable {choices : List (ProcessTable β)}

theorem PassesOver.exists_nextReady? (h : t.PassesOver s) :
    ∃ next, t.nextReady? = some next ∧ next.distance s < t.current.distance s := by
  cases hnext : t.nextReady? with
  | none =>
    obtain ⟨p, hp, hready⟩ := hasStatus_iff.mp h.1
    exact absurd hready (nextReady?_eq_none.mp hnext s p hp)
  | some next =>
    have hne : next ≠ s := fun heq => h.2 (hnext.trans (congrArg some heq))
    exact ⟨next, rfl, distance_nextReady?_lt hnext h.1 hne⟩

/-- How far it is from the slot that is chosen to the slot `s`. -/
def remaining (t : ProcessTable β) (s : Slot) : Nat := t.nextReady?.elim 0 fun next => next.distance s

private theorem remaining_eq (hnext : t.nextReady? = some next) : t.remaining s = next.distance s := by
  unfold remaining
  rw [hnext]
  rfl

/-- While a process is passed over, every choice goes further towards it. -/
private theorem pairwise_remaining (hrow : ChoicesInARow choices) (hover : ∀ t ∈ choices, t.PassesOver s) :
    (choices.map (remaining · s)).Pairwise (· > ·) := by
  have hchain : choices.IsChain fun t u => t.remaining s > u.remaining s := by
    refine List.IsChain.imp_of_mem_imp (fun t u ht hu hcurrent => ?_) hrow
    obtain ⟨next, hnext, -⟩ := (hover t ht).exists_nextReady?
    obtain ⟨next', hnext', hlt⟩ := (hover u hu).exists_nextReady?
    rw [remaining_eq hnext, remaining_eq hnext', ← hcurrent next hnext]
    exact hlt
  exact List.isChain_iff_pairwise.mp ((List.isChain_map _).mpr hchain)

/-- While a process is passed over, no slot is chosen twice. -/
theorem nodup_nextReady? (hrow : ChoicesInARow choices) (hover : ∀ t ∈ choices, t.PassesOver s) :
    (choices.map nextReady?).Nodup := by
  refine List.Nodup.of_map (fun chosen => chosen.elim 0 fun next => next.distance s) ?_
  rw [List.map_map]
  exact (pairwise_remaining hrow hover).nodup

/-- A process is passed over by all other slots at most. -/
theorem length_lt_of_passesOver (hrow : ChoicesInARow choices) (hover : ∀ t ∈ choices, t.PassesOver s) :
    choices.length < slotCount := by
  have hsub : choices.map (remaining · s) ⊆ List.range' 1 (slotCount - 1) := by
    intro n hn
    obtain ⟨t, ht, rfl⟩ := List.mem_map.mp hn
    obtain ⟨next, hnext, hlt⟩ := (hover t ht).exists_nextReady?
    have hpos := Slot.distance_pos next s
    have hle := Slot.distance_le t.current s
    rw [remaining_eq hnext, List.mem_range'_1]
    omega
  have hle := ((pairwise_remaining hrow hover).nodup.subperm hsub).length_le
  rw [List.length_map, List.length_range'] at hle
  exact Nat.lt_of_le_of_lt hle (by decide)

end ProcessTable

end TrapKernel
