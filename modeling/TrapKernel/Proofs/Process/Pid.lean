import TrapKernel.Proofs.Process.Table
import Mathlib.Data.Fintype.Pigeonhole

/-!
# Process numbers

The numbers that are tried one after the other run through all words but zero before one comes again. There are
fewer slots than that, so among `slotCount + 1` numbers in a row one belongs to no process.

* `ProcessTable.allocPid_fresh`: a number that is handed out is not zero and belongs to no process.
* `ProcessTable.Searches`: the search that goes on until it finds such a number.
* `ProcessTable.allocPid_ends`: it ends, wherever it starts, and hands out what the search with a limit does.
-/

namespace TrapKernel.ProcessTable

variable {β : Type} {t : ProcessTable β}

private theorem pidAfter_ne_zero (pid : UInt64) : pidAfter pid ≠ 0 := by
  unfold pidAfter
  split
  · decide
  · assumption

private theorem toNat_pidAfter {pid : UInt64} (h : pid ≠ 0) :
    (pidAfter pid).toNat = pid.toNat % (wordLimit - 1) + 1 := by
  have hlt := pid.toNat_lt
  have hpos : pid.toNat ≠ 0 := fun h0 => h (UInt64.toNat_inj.mp h0)
  have hadd : (pid + 1).toNat = (pid.toNat + 1) % wordLimit := by rw [UInt64.toNat_add]; rfl
  unfold pidAfter
  split
  · next h1 =>
    have h0 : (pid + 1).toNat = 0 := by rw [h1]; rfl
    have h1 : (1 : UInt64).toNat = 1 := rfl
    simp only [wordLimit] at hadd ⊢
    omega
  · next h1 =>
    have h0 : (pid + 1).toNat ≠ 0 := fun h0 => h1 (UInt64.toNat_inj.mp h0)
    simp only [wordLimit] at hadd ⊢
    omega

private theorem iterate_pidAfter_ne_zero {pid : UInt64} (h : pid ≠ 0) (n : Nat) : pidAfter^[n] pid ≠ 0 := by
  cases n with
  | zero => exact h
  | succ n =>
    rw [Function.iterate_succ_apply']
    exact pidAfter_ne_zero _

private theorem toNat_iterate_pidAfter {pid : UInt64} (h : pid ≠ 0) (n : Nat) :
    (pidAfter^[n] pid).toNat = (pid.toNat - 1 + n) % (wordLimit - 1) + 1 := by
  have hlt := pid.toNat_lt
  have hpos : pid.toNat ≠ 0 := fun h0 => h (UInt64.toNat_inj.mp h0)
  induction n with
  | zero =>
    simp only [Function.iterate_zero, id_eq, wordLimit] at hlt ⊢
    omega
  | succ n ih =>
    rw [Function.iterate_succ_apply', toNat_pidAfter (iterate_pidAfter_ne_zero h n), ih]
    simp only [wordLimit]
    omega

/-- Numbers that are tried less than `wordLimit - 1` steps apart differ. -/
private theorem iterate_pidAfter_injective {pid : UInt64} (h : pid ≠ 0) {i j : Nat} (hi : i ≤ slotCount)
    (hj : j ≤ slotCount) (hij : pidAfter^[i] pid = pidAfter^[j] pid) : i = j := by
  have hnat := congrArg UInt64.toNat hij
  rw [toNat_iterate_pidAfter h, toNat_iterate_pidAfter h] at hnat
  have hlt := pid.toNat_lt
  simp only [wordLimit, slotCount] at hnat hi hj
  omega

/-- The search ends with the first number that belongs to no process, or else with the last number. -/
private theorem searchPid_eq (t : ProcessTable β) (n : Nat) (pid : UInt64) :
    ∃ k ≤ n, t.searchPid n pid = (pidAfter^[k] pid, pidAfter^[k + 1] pid) ∧
      (∀ i < k, (t.findPid? (pidAfter^[i] pid)).isSome) ∧ (k < n → t.findPid? (pidAfter^[k] pid) = none) := by
  induction n generalizing pid with
  | zero => exact ⟨0, le_rfl, rfl, by simp, by simp⟩
  | succ n ih =>
    unfold searchPid
    by_cases hfree : t.findPid? pid = none
    · refine ⟨0, Nat.zero_le _, ?_, by simp, fun _ => hfree⟩
      rw [if_pos (by simp [hfree])]
      rfl
    · obtain ⟨k, hk, heq, hused, hlast⟩ := ih (pidAfter pid)
      refine ⟨k + 1, by omega, ?_, ?_, fun h => hlast (by omega)⟩
      · rw [if_neg (by simpa using hfree), heq]
        rfl
      · intro i hi
        cases i with
        | zero => exact Option.isSome_iff_ne_none.mpr hfree
        | succ i => exact hused i (by omega)

/-- Not all of `slotCount + 1` numbers in a row belong to processes. -/
private theorem exists_unused (t : ProcessTable β) {pid : UInt64} (h : pid ≠ 0) :
    ∃ i ≤ slotCount, t.findPid? (pidAfter^[i] pid) = none := by
  by_contra hall
  push Not at hall
  have hsome : ∀ i : Fin (slotCount + 1), ∃ s, t.findPid? (pidAfter^[i.val] pid) = some s := fun i =>
    Option.ne_none_iff_exists'.mp (hall i (by omega))
  choose slot hslot using hsome
  obtain ⟨i, j, hne, heq⟩ := Fintype.exists_ne_map_eq_of_card_lt slot (by simp)
  obtain ⟨p, hp, hpi⟩ := findPid?_eq_some (hslot i)
  obtain ⟨q, hq, hqj⟩ := findPid?_eq_some (hslot j)
  rw [heq, hq] at hp
  have hpq : pidAfter^[i.val] pid = pidAfter^[j.val] pid := by rw [← hpi, ← hqj, ← Option.some.inj hp]
  exact hne (Fin.ext (iterate_pidAfter_injective h (by omega) (by omega) hpq))

/-- The number that is handed out is the first one, of those tried one after the other, that belongs to no process. -/
private theorem allocPid_eq (t : ProcessTable β) (h : t.nextPid ≠ 0) :
    ∃ k ≤ slotCount, t.allocPid = (pidAfter^[k] t.nextPid, { t with nextPid := pidAfter^[k + 1] t.nextPid }) ∧
      (∀ i < k, (t.findPid? (pidAfter^[i] t.nextPid)).isSome) ∧ t.findPid? (pidAfter^[k] t.nextPid) = none := by
  obtain ⟨k, hk, heq, hused, hlast⟩ := t.searchPid_eq slotCount t.nextPid
  have halloc : t.allocPid = (pidAfter^[k] t.nextPid, { t with nextPid := pidAfter^[k + 1] t.nextPid }) := by
    unfold allocPid
    rw [heq]
  refine ⟨k, hk, halloc, hused, ?_⟩
  obtain ⟨i, hi, hunused⟩ := t.exists_unused h
  rcases Nat.lt_or_ge k slotCount with hlt | hge
  · exact hlast hlt
  · rcases Nat.lt_or_ge i k with hik | hik
    · exact absurd hunused (Option.isSome_iff_ne_none.mp (hused i hik))
    · rwa [show k = i by omega]

/-- A process number that is handed out is not zero and belongs to no process, and the next one to try is not zero. -/
theorem allocPid_fresh (t : ProcessTable β) (h : t.nextPid ≠ 0) :
    t.allocPid.1 ≠ 0 ∧ t.findPid? t.allocPid.1 = none ∧ t.allocPid.2.nextPid ≠ 0 := by
  obtain ⟨k, -, halloc, -, hfree⟩ := t.allocPid_eq h
  rw [halloc]
  exact ⟨iterate_pidAfter_ne_zero h k, hfree, iterate_pidAfter_ne_zero h (k + 1)⟩

/-- As long as the counter does not start over, a number that is handed out lies between its old and its new value. -/
theorem allocPid_between (t : ProcessTable β) (h : t.nextPid ≠ 0) (hle : t.nextPid ≤ t.allocPid.2.nextPid) :
    t.nextPid ≤ t.allocPid.1 ∧ t.allocPid.1 < t.allocPid.2.nextPid := by
  obtain ⟨k, hk, halloc, -⟩ := t.allocPid_eq h
  rw [halloc] at hle ⊢
  have hlt := t.nextPid.toNat_lt
  have hpos : t.nextPid.toNat ≠ 0 := fun h0 => h (UInt64.toNat_inj.mp h0)
  simp only [UInt64.le_iff_toNat_le, UInt64.lt_iff_toNat_lt, toNat_iterate_pidAfter h] at hle ⊢
  -- so few numbers are tried that the counter is at most where it was when it starts over
  simp only [wordLimit, slotCount] at hle hk ⊢
  omega

@[simp] theorem get_allocPid (t : ProcessTable β) (s : Slot) : t.allocPid.2.get s = t.get s := rfl

@[simp] theorem current_allocPid (t : ProcessTable β) : t.allocPid.2.current = t.current := rfl

/-! ### The search without a limit -/

/-- How the search goes that has no limit: from a number on it tries one number after the other, `n` of them in all, until
one belongs to no process. That one is the answer, with the number to try next. -/
inductive Searches (t : ProcessTable β) : UInt64 → Nat → UInt64 × UInt64 → Prop
  | found {pid : UInt64} (h : t.findPid? pid = none) : Searches t pid 1 (pid, pidAfter pid)
  | next {pid : UInt64} {n : Nat} {answer : UInt64 × UInt64} (h : (t.findPid? pid).isSome)
      (hrest : Searches t (pidAfter pid) n answer) : Searches t pid (n + 1) answer

/-- There is only one way for the search to go. -/
private theorem Searches.unique {pid : UInt64} {n n' : Nat} {answer answer' : UInt64 × UInt64}
    (h : t.Searches pid n answer) (h' : t.Searches pid n' answer') : n' = n ∧ answer' = answer := by
  induction h generalizing n' with
  | found hfree =>
    cases h' with
    | found => exact ⟨rfl, rfl⟩
    | next hused => simp [hfree] at hused
  | next hused _ ih =>
    cases h' with
    | found hfree => simp [hfree] at hused
    | next _ hrest' =>
      obtain ⟨rfl, rfl⟩ := ih hrest'
      exact ⟨rfl, rfl⟩

/-- After numbers that are all used the search goes on from the one that follows. -/
private theorem Searches.after {pid : UInt64} {k n : Nat} {answer : UInt64 × UInt64}
    (hused : ∀ i < k, (t.findPid? (pidAfter^[i] pid)).isSome) (h : t.Searches (pidAfter^[k] pid) n answer) :
    t.Searches pid (n + k) answer := by
  induction k generalizing pid with
  | zero => exact h
  | succ k ih =>
    have hlater : ∀ i < k, (t.findPid? (pidAfter^[i] (pidAfter pid))).isSome := fun i hi => hused (i + 1) (by omega)
    exact .next (hused 0 (Nat.succ_pos k)) (ih hlater h)

/-- The search without a limit comes to an end, with the answer of the one that has a limit. -/
private theorem searches_allocPid (t : ProcessTable β) (h : t.nextPid ≠ 0) :
    ∃ n ≤ slotCount + 1, t.Searches t.nextPid n (t.allocPid.1, t.allocPid.2.nextPid) := by
  obtain ⟨k, hk, halloc, hused, hfree⟩ := t.allocPid_eq h
  refine ⟨1 + k, by omega, ?_⟩
  rw [halloc]
  show t.Searches t.nextPid (1 + k) (pidAfter^[k] t.nextPid, pidAfter^[k + 1] t.nextPid)
  rw [Function.iterate_succ_apply']
  exact .after hused (.found hfree)

/-- Whatever numbers the processes have, the search for another one ends after at most one number more than there are slots.
Its answer is not zero and belongs to no process, and the number that is left to try next is not zero either. -/
theorem allocPid_ends (t : ProcessTable β) (h : t.nextPid ≠ 0) :
    ∃ n ≤ slotCount + 1, t.Searches t.nextPid n (t.allocPid.1, t.allocPid.2.nextPid) ∧
      (∀ n' answer, t.Searches t.nextPid n' answer → n' = n ∧ answer = (t.allocPid.1, t.allocPid.2.nextPid)) ∧
      t.allocPid.1 ≠ 0 ∧ (∀ s p, t.get s = some p → p.pid ≠ t.allocPid.1) ∧ t.allocPid.2.nextPid ≠ 0 ∧
      ∀ s, t.allocPid.2.get s = t.get s := by
  obtain ⟨n, hn, hsearch⟩ := t.searches_allocPid h
  obtain ⟨hpid, hunused, hnext⟩ := t.allocPid_fresh h
  exact ⟨n, hn, hsearch, fun n' answer h' => hsearch.unique h', hpid, findPid?_eq_none.mp hunused, hnext, fun _ => rfl⟩

/-- Three processes, of which two have the number that is tried first, the largest one, and the number after it. -/
def crowded : ProcessTable Unit :=
  let p : Process Unit := .initial 0 0 0 ()
  let t := (initial p).put (.ofNat 1) (some { p with pid := 0xffffffffffffffff })
  { t.put (.ofNat 2) (some { p with pid := 1 }) with nextPid := 0xffffffffffffffff }

/-- The third number that is tried is free. It is found past the place where the numbers start over. -/
theorem allocPid_ends_crowded : crowded.nextPid ≠ 0 ∧ crowded.Searches crowded.nextPid 3 (2, 3) ∧
    crowded.allocPid.1 = 2 ∧ crowded.allocPid.2.nextPid = 3 ∧ ∀ s p, crowded.get s = some p → p.pid ≠ 2 := by
  have hpid : crowded.nextPid ≠ 0 := by decide
  have hsearch : crowded.Searches crowded.nextPid 3 (2, 3) := .next (by decide) (.next (by decide) (.found (by decide)))
  obtain ⟨n, -, -, hunique, -, hunused, -⟩ := crowded.allocPid_ends hpid
  obtain ⟨-, hanswer⟩ := hunique 3 (2, 3) hsearch
  obtain ⟨hpid', hnext⟩ := Prod.mk.inj hanswer
  rw [← hpid'] at hunused
  exact ⟨hpid, hsearch, hpid'.symm, hnext.symm, hunused⟩

end TrapKernel.ProcessTable
