import TrapKernel.Proofs.Memory.Spans

/-!
# Checks of ranges

A range of addresses is checked page by page, at the first address of the range in each page. That are the start of the
range and the starts of its other pages, which is where a copy of the whole range asks for pages too.

* `UserMemory.checkRange_eq_ok_iff`: when a range passes the check.
* `UserMemory.scans_iff`: a loop over the pages ends, and with the outcome of the check.
-/

namespace TrapKernel

namespace UserMemory

variable {μ β : Type} [MemorySystem μ β] {u : UserMemory β} {m : μ} {address length : Nat}

/-- Whether every page of a range of addresses is usable at its first address in the range. -/
def Covers (u : UserMemory β) (m : μ) (address length : Nat) : Prop :=
  ∀ x, address ≤ x → x < address + length → (x = address ∨ pageOffset x = 0) → u.isUsable m x = true

theorem Covers.mono (h : u.Covers m address length) {length' : Nat} (hle : length' ≤ length) :
    u.Covers m address length' :=
  fun x hx hlt => h x hx (by omega)

private theorem pagesUsable_iff {n : Nat} :
    u.pagesUsable m address n = true ↔
      ∀ x, address ≤ x → pageOf x < pageOf address + n → (x = address ∨ pageOffset x = 0) → u.isUsable m x = true := by
  induction n generalizing address with
  | zero =>
    refine iff_of_true rfl fun x hx hlt => ?_
    exact absurd (Nat.div_le_div_right hx) (Nat.not_le.mpr hlt)
  | succ n ih =>
    have hpage : pageOf ((pageOf address + 1) * pageSize) = pageOf address + 1 := by simp [pageOf, pageSize]
    rw [pagesUsable, Bool.and_eq_true, ih, hpage]
    constructor
    · rintro ⟨hfirst, hrest⟩ x hx hlt hstart
      by_cases heq : x = address
      · rw [heq]
        exact hfirst
      · have hoffset := hstart.resolve_left heq
        refine hrest x ?_ (by omega) (.inr hoffset)
        simp only [pageOf, pageOffset, pageSize] at hoffset ⊢
        omega
    · intro h
      refine ⟨h address (Nat.le_refl _) (by omega) (.inl rfl), fun x hx hlt hstart => h x ?_ (by omega) (.inr ?_)⟩
      · simp only [pageOf, pageSize] at hx ⊢
        omega
      · rcases hstart with rfl | hoffset
        · simp [pageOffset, pageSize]
        · exact hoffset

/-- A range passes the check if it is empty, or if it ends below the stack and covers usable pages only. -/
theorem checkRange_eq_ok_iff :
    u.checkRange m address length = .ok () ↔ length = 0 ∨ address + length ≤ stackTop ∧ u.Covers m address length := by
  unfold checkRange
  by_cases hzero : length = 0
  · rw [if_pos hzero]
    exact iff_of_true rfl (.inl hzero)
  rw [if_neg hzero]
  by_cases hlong : stackTop < address + length
  · rw [if_pos hlong]
    refine iff_of_false (by simp) ?_
    rintro (hlength | ⟨hle, -⟩)
    · exact hzero hlength
    · exact Nat.not_lt.mpr hle hlong
  rw [if_neg hlong]
  have hcovers : u.pagesUsable m address (pageOf (address + length - 1) - pageOf address + 1) = true ↔
      u.Covers m address length := by
    rw [pagesUsable_iff]
    refine forall_congr' fun x => forall_congr' fun hx => ?_
    have hlast : (x = address ∨ pageOffset x = 0) →
        (pageOf x < pageOf address + (pageOf (address + length - 1) - pageOf address + 1) ↔ x < address + length) := by
      intro hstart
      simp only [pageOf, pageOffset, pageSize] at hstart ⊢
      omega
    exact ⟨fun h hlt hstart => h ((hlast hstart).mpr hlt) hstart, fun h hlt hstart => h ((hlast hstart).mp hlt) hstart⟩
  split
  next husable => exact iff_of_true rfl (.inr ⟨Nat.le_of_not_lt hlong, hcovers.mp husable⟩)
  next husable =>
    refine iff_of_false (by simp) ?_
    rintro (hlength | ⟨-, h⟩)
    · exact hzero hlength
    · exact husable (hcovers.mpr h)

/-- A range that does not pass the check is a bad address. -/
theorem checkRange_eq_error (h : u.checkRange m address length ≠ .ok ()) :
    u.checkRange m address length = .error .badAddress := by
  unfold checkRange at h ⊢
  split at h
  · exact absurd rfl h
  next hzero =>
    rw [if_neg hzero]
    split at h
    next hlong => rw [if_pos hlong]
    next hlong =>
      rw [if_neg hlong]
      split at h
      · exact absurd rfl h
      next husable => rw [if_neg husable]

/-- Whether a page can be used at its first address in a range that starts at `address`. -/
def probe (u : UserMemory β) (m : μ) (address page : Nat) : Bool :=
  MemorySystem.isMapped u.space m page || u.isDemandZero (max address (page * pageSize))

private theorem probe_eq {page : Nat} (h : pageOf address ≤ page) :
    u.probe m address page = u.isUsable m (max address (page * pageSize)) := by
  rw [probe, isUsable, pageOf_max h]

/-- The ways in which a loop over pages can end that has come to some page: it looks whether the page can be used, and
goes on to the next one unless this was the last. -/
inductive Scans (u : UserMemory β) (m : μ) (address last : Nat) : Nat → Except Errno Unit → Prop
  | bad {page : Nat} (h : u.probe m address page = false) : Scans u m address last page (.error .badAddress)
  | last (h : u.probe m address last = true) : Scans u m address last last (.ok ())
  | next {page : Nat} {r : Except Errno Unit} (h : u.probe m address page = true) (hne : page ≠ last)
      (hrest : Scans u m address last (page + 1) r) : Scans u m address last page r

/-- What a round of the loop leads to. -/
private theorem scans_iff_step {last page : Nat} {r : Except Errno Unit} :
    Scans u m address last page r ↔
      if u.probe m address page then if page = last then r = .ok () else Scans u m address last (page + 1) r
      else r = .error .badAddress := by
  constructor
  · intro h
    cases h with
    | bad h => rw [if_neg (by simp [h])]
    | last h => rw [if_pos h, if_pos rfl]
    | next h hne hrest => rwa [if_pos h, if_neg hne]
  · intro h
    split at h
    next hprobe =>
      split at h
      next heq =>
        subst heq h
        exact .last hprobe
      next hne => exact .next hprobe hne h
    next hprobe =>
      subst h
      exact .bad (Bool.eq_false_iff.mpr hprobe)

private theorem scans_iff_pagesUsable {n page : Nat} (hpage : pageOf address ≤ page) {r : Except Errno Unit} :
    Scans u m address (page + n) page r ↔
      r = if u.pagesUsable m (max address (page * pageSize)) (n + 1) then .ok () else .error .badAddress := by
  induction n generalizing page with
  | zero =>
    rw [scans_iff_step, probe_eq hpage, pagesUsable, pagesUsable, Bool.and_true, Nat.add_zero, if_pos rfl]
    split <;> rfl
  | succ n ih =>
    have hnext : (pageOf (max address (page * pageSize)) + 1) * pageSize = max address ((page + 1) * pageSize) := by
      rw [pageOf_max hpage]
      simp only [pageOf, pageSize] at hpage ⊢
      omega
    have hlast : page + (n + 1) = page + 1 + n := by omega
    rw [scans_iff_step, probe_eq hpage, pagesUsable, hnext, if_neg (by omega : page ≠ page + (n + 1)), hlast,
      ih (Nat.le_succ_of_le hpage)]
    cases u.isUsable m (max address (page * pageSize)) with
    | false => rfl
    | true => rw [if_pos rfl, Bool.true_and]

/-- A loop over the pages of a range ends, and with the outcome of the check. -/
theorem scans_iff (hlength : length ≠ 0) (hle : address + length ≤ stackTop) {r : Except Errno Unit} :
    Scans u m address (pageOf (address + length - 1)) (pageOf address) r ↔ r = u.checkRange m address length := by
  have hlast : pageOf (address + length - 1) = pageOf address + (pageOf (address + length - 1) - pageOf address) := by
    simp only [pageOf]
    have := Nat.div_le_div_right (c := pageSize) (show address ≤ address + length - 1 by omega)
    omega
  have hstart : max address (pageOf address * pageSize) = address := by
    simp only [pageOf, pageSize]
    omega
  rw [hlast, scans_iff_pagesUsable (Nat.le_refl _), hstart, checkRange, if_neg hlength, if_neg (Nat.not_lt.mpr hle)]

end UserMemory

/-! ### Spans -/

/-- The spans of a range start where it does, and at the starts of its other pages. -/
theorem forall_mem_pageSpans_iff {address length : Nat} {P : Nat → Prop} :
    (∀ s ∈ pageSpans address length, P s.address) ↔
      ∀ x, address ≤ x → x < address + length → (x = address ∨ pageOffset x = 0) → P x := by
  by_cases hzero : length = 0
  · subst hzero
    refine iff_of_true (by simp [pageSpans]) fun x hx hlt => ?_
    omega
  rw [pageSpans, if_neg hzero, List.forall_mem_map]
  simp only [List.mem_range'_1]
  constructor
  · intro h x hx hlt hstart
    have hmax : max address (pageOf x * pageSize) = x := by
      simp only [pageOf, pageOffset, pageSize] at hstart ⊢
      omega
    rw [← hmax]
    refine h (pageOf x) ⟨?_, ?_⟩
    · exact Nat.div_le_div_right hx
    · have hle : pageOf x ≤ pageOf (address + length - 1) := Nat.div_le_div_right (by omega)
      omega
  · rintro h page ⟨hle, hlt⟩
    refine h _ (Nat.le_max_left _ _) ?_ ?_
    · simp only [pageOf, pageSize] at hle hlt ⊢
      omega
    · simp only [pageOf, pageOffset, pageSize] at hle ⊢
      omega

/-- The spans of a range lie on different pages. -/
theorem pairwise_pageSpans (address length : Nat) :
    (pageSpans address length).Pairwise fun s s' => pageOf s'.address ≠ pageOf s.address := by
  unfold pageSpans
  split
  · exact .nil
  refine List.pairwise_map.mpr (List.Pairwise.imp_of_mem (fun {page page'} hpage hpage' hlt => ?_) List.pairwise_lt_range')
  rw [pageOf_max (List.mem_range'_1.mp hpage).1, pageOf_max (List.mem_range'_1.mp hpage').1]
  exact Nat.ne_of_gt hlt

end TrapKernel
