import TrapKernel.Files.Descriptors
import TrapKernel.Proofs.Respects
import Mathlib.Data.List.ReduceOption
import Mathlib.Data.Vector.Basic

/-!
# References to files

The books of a file system in use: how often a reference to a file was taken and how often one was given back, read off
the calls that were made to it. They are balanced if the difference is what is held.

* `Volume.Balanced`: the books of a volume, and `Volume.Covered`: no reference was given back that was not held.
* `Descriptors.openPath_balanced`, `Descriptors.close_balanced`, `Descriptors.closeAll_balanced`: whoever opens and
  closes descriptors holds one reference for each bound slot.
-/

namespace TrapKernel

/-- Whether a call takes a reference to a file or gives one back. -/
def FileCall.isReference : FileCall → Bool
  | ref _ | free _ => true
  | lookup _ | stat _ | request .. => false

/-- How many descriptors are bound to a file. -/
def Descriptors.bindings (d : Descriptors) (i : Inode) : Nat := d.slots.count (some i)

namespace Volume

variable {σ : Type} {v w : Volume σ} {held held' : Inode → Nat} {i : Inode}

/-- How often a reference to a file has been taken. -/
def refCount (v : Volume σ) (i : Inode) : Nat := v.calls.toList.count (.ref i)

/-- How often a reference to a file has been given back. -/
def freeCount (v : Volume σ) (i : Inode) : Nat := v.calls.toList.count (.free i)

/-- Whether at no time more references to a file had been given back than taken. -/
def Covered (v : Volume σ) : Prop :=
  ∀ calls, calls <+: v.calls.toList → ∀ i, calls.count (.free i) ≤ calls.count (.ref i)

/-- Whether the books of a volume are balanced, if `held` tells how many references to each file are held. -/
structure Balanced (v : Volume σ) (held : Inode → Nat) : Prop where
  covered : v.Covered
  refCount_eq : ∀ i, v.refCount i = v.freeCount i + held i

/-- Whether what was asked of a volume meanwhile has to do with no references. -/
def Quiet (v w : Volume σ) : Prop :=
  ∃ calls, (∀ c ∈ calls, c.isReference = false) ∧ w.calls.toList = v.calls.toList ++ calls

private theorem refCount_push (v : Volume σ) (state : σ) (c : FileCall) (i : Inode) :
    (Volume.mk state (v.calls.push c)).refCount i = v.refCount i + if c = .ref i then 1 else 0 := by
  simp [refCount, List.count_append, List.count_singleton]

private theorem freeCount_push (v : Volume σ) (state : σ) (c : FileCall) (i : Inode) :
    (Volume.mk state (v.calls.push c)).freeCount i = v.freeCount i + if c = .free i then 1 else 0 := by
  simp [freeCount, List.count_append, List.count_singleton]

/-! ### Quiet calls -/

instance : IsPreorder (Volume σ) Quiet where
  refl v := ⟨[], by simp, by simp⟩
  trans v w x := by
    rintro ⟨calls, hcalls, hw⟩ ⟨calls', hcalls', hx⟩
    refine ⟨calls ++ calls', fun c hc => ?_, by rw [hx, hw, List.append_assoc]⟩
    exact (List.mem_append.mp hc).elim (hcalls c) (hcalls' c)

private theorem quiet_push (v : Volume σ) (state : σ) {c : FileCall} (hc : c.isReference = false) :
    v.Quiet ⟨state, v.calls.push c⟩ :=
  ⟨[c], by simpa using hc, by simp⟩

private theorem count_eq_zero {calls : List FileCall} {c : FileCall} (h : ∀ c ∈ calls, c.isReference = false)
    (hc : c.isReference = true) : calls.count c = 0 :=
  List.count_eq_zero.mpr fun hmem => by simp [h c hmem] at hc

private theorem Quiet.refCount_eq (h : v.Quiet w) (i : Inode) : w.refCount i = v.refCount i := by
  obtain ⟨calls, hcalls, hw⟩ := h
  unfold refCount
  rw [hw, List.count_append, count_eq_zero hcalls rfl, Nat.add_zero]

private theorem Quiet.freeCount_eq (h : v.Quiet w) (i : Inode) : w.freeCount i = v.freeCount i := by
  obtain ⟨calls, hcalls, hw⟩ := h
  unfold freeCount
  rw [hw, List.count_append, count_eq_zero hcalls rfl, Nat.add_zero]

theorem Quiet.covered (h : v.Quiet w) (hv : v.Covered) : w.Covered := by
  obtain ⟨calls, hcalls, hw⟩ := h
  intro l hl i
  rw [hw] at hl
  rcases List.prefix_or_prefix_of_prefix hl (List.prefix_append v.calls.toList calls) with hl' | ⟨rest, rfl⟩
  · exact hv l hl' i
  · -- what comes after the calls of `v` has to do with no references
    have hrest : ∀ c ∈ rest, c.isReference = false := fun c hc =>
      hcalls c (((List.prefix_append_right_inj _).mp hl).subset hc)
    simp only [List.count_append, count_eq_zero hrest (show (FileCall.free i).isReference = true from rfl),
      count_eq_zero hrest (show (FileCall.ref i).isReference = true from rfl), Nat.add_zero]
    exact hv _ (List.prefix_refl _) i

theorem Quiet.balanced (h : v.Quiet w) (hv : v.Balanced held) : w.Balanced held where
  covered := h.covered hv.covered
  refCount_eq i := by rw [h.refCount_eq, h.freeCount_eq, hv.refCount_eq]

/-! ### The services of a file system -/

theorem Balanced.congr (h : v.Balanced held) (heq : ∀ i, held' i = held i) : v.Balanced held' where
  covered := h.covered
  refCount_eq i := by rw [heq, h.refCount_eq]

theorem balanced_start (state : σ) : (Volume.mk state #[]).Balanced fun _ => 0 where
  covered calls hcalls i := by
    rw [List.prefix_nil.mp hcalls]
    exact Nat.le_refl _
  refCount_eq _ := rfl

private theorem covered_push {state : σ} {c : FileCall} (hv : v.Covered)
    (hc : ∀ i, c = .free i → v.freeCount i < v.refCount i) : (Volume.mk state (v.calls.push c)).Covered := by
  intro calls hcalls i
  rw [Array.toList_push, List.prefix_concat_iff] at hcalls
  rcases hcalls with rfl | hcalls
  case inr => exact hv calls hcalls i
  have hle : v.freeCount i ≤ v.refCount i := hv _ (List.prefix_refl _) i
  unfold freeCount refCount at hc hle
  rw [List.count_append, List.count_append, List.count_singleton]
  split
  next hfree =>
    have := hc i (eq_of_beq hfree)
    omega
  · omega

variable [FileSystem σ]

private theorem lookup_quiet (path : String) : (lookup path : Run (Volume σ) (Option Inode)).Respects Quiet :=
  ⟨fun v => quiet_push v _ rfl⟩

theorem stat_quiet (inode : Inode) : (stat inode : Run (Volume σ) FileStat).Respects Quiet :=
  ⟨fun v => quiet_push v _ rfl⟩

theorem request_quiet (inode : Inode) (buffer : List UInt8) (offset : Nat) (direction : Direction) :
    (request inode buffer offset direction : Attempt (Volume σ) (List UInt8)).Respects Quiet := by
  refine ⟨fun v => ?_⟩
  unfold request
  simp only [Attempt.ensures_bind, Attempt.ensures_get, Attempt.ensures_ofExcept]
  exact quiet_push v _ rfl

private theorem ref_balanced (hv : v.Balanced held) (hheld : ∀ j, held' j = held j + if i = j then 1 else 0) :
    (ref i : Run (Volume σ) Unit).Ensures v (fun _ w => w.Balanced held') fun _ w => w.Covered := by
  refine ⟨covered_push hv.covered (by simp), fun j => ?_⟩
  simp only [refCount_push, freeCount_push, FileCall.ref.injEq, reduceCtorEq, if_false, hv.refCount_eq, hheld]
  omega

private theorem free_balanced (hv : v.Balanced held) (hheld : ∀ j, held j = held' j + if i = j then 1 else 0) :
    (free i : Run (Volume σ) Unit).Ensures v (fun _ w => w.Balanced held') fun _ w => w.Covered := by
  have hpush : ∀ state : σ, (Volume.mk state (v.calls.push (.free i))).Balanced held' := by
    refine fun state => ⟨covered_push hv.covered fun j hj => ?_, fun j => ?_⟩
    · obtain rfl := FileCall.free.inj hj
      rw [hv.refCount_eq i, hheld i, if_pos rfl]
      omega
    · simp only [refCount_push, freeCount_push, FileCall.free.injEq, reduceCtorEq, if_false, hv.refCount_eq, hheld]
      omega
  unfold free
  simp only [Run.ensures_bind, Run.ensures_get, Run.ensures_set]
  split
  · exact hpush _
  · exact (hpush v.state).covered

end Volume

/-! ### Descriptors -/

namespace Descriptors

variable {σ : Type} [FileSystem σ] {d : Descriptors} {v : Volume σ} {others : Inode → Nat} {i : Inode}

@[simp] theorem bindings_empty (i : Inode) : empty.bindings i = 0 := by
  simp [bindings, empty, Vector.count_replicate]

/-- A slot that is bound to a file instead of none is one binding more. -/
private theorem bindings_set_some {fd : Nat} (hfd : fd < descriptorCount) (hfree : d.slots[fd] = none) (i j : Inode) :
    (Descriptors.mk (d.slots.set fd (some i))).bindings j = d.bindings j + if i = j then 1 else 0 := by
  unfold bindings
  rw [Vector.count_set, hfree]
  simp

/-- A slot that is bound to none instead of a file is one binding less. -/
private theorem bindings_set_none {fd : Nat} (hfd : fd < descriptorCount) (hbound : d.slots[fd] = some i) (j : Inode) :
    d.bindings j = (Descriptors.mk (d.slots.set fd none)).bindings j + if i = j then 1 else 0 := by
  have hpos : 0 < d.slots.count (some i) := Vector.count_pos_iff.mpr (hbound ▸ Vector.getElem_mem hfd)
  unfold bindings
  rw [Vector.count_set, hbound]
  by_cases hij : i = j
  · subst hij
    simp
    omega
  · simp [hij]

private theorem freeSlots_balanced {l : List (Option Inode)} (hv : v.Balanced fun i => l.count (some i) + others i) :
    (freeSlots l : Run (Volume σ) Unit).Ensures v (fun _ w => w.Balanced others) fun _ w => w.Covered := by
  induction l generalizing v with
  | nil => exact hv.congr fun i => by simp
  | cons slot rest ih =>
    cases slot with
    | none => exact ih (hv.congr fun i => by simp)
    | some inode =>
      unfold freeSlots
      rw [Run.ensures_bind]
      refine (Volume.free_balanced hv fun j => ?_).mono fun _ w hw => ih hw
      simp only [List.count_cons, beq_iff_eq, Option.some.injEq]
      omega

/-- To close all descriptors gives back a reference for each bound one. -/
theorem closeAll_balanced (hv : v.Balanced fun i => d.bindings i + others i) :
    (d.closeAll : Run (Volume σ) Descriptors).Ensures v (fun d' w => d' = empty ∧ w.Balanced others)
      fun _ w => w.Covered := by
  unfold closeAll
  rw [Run.ensures_bind]
  refine (freeSlots_balanced (hv.congr fun i => ?_)).mono fun _ w hw => ⟨rfl, hw⟩
  rw [bindings, ← Vector.count_toList]

/-- The files that descriptors are bound to, in the order of the descriptors. -/
def files (d : Descriptors) : List Inode := d.slots.toList.reduceOption

/-- The references of bound slots are given back one after the other, until the file system breaks down over one. -/
private theorem freeSlots_spec (l : List (Option Inode)) (v : Volume σ) :
    (freeSlots l : Run (Volume σ) Unit).Ensures v
      (fun _ w => l.reduceOption.foldlM FileSystem.free v.state = .ok w.state ∧
        w.calls = v.calls ++ (l.reduceOption.map FileCall.free).toArray)
      fun q _ => ∃ message, l.reduceOption.foldlM FileSystem.free v.state = .error message ∧ q = .collaborator message := by
  induction l generalizing v with
  | nil => exact ⟨rfl, by simp⟩
  | cons slot rest ih =>
    cases slot with
    | none => exact ih v
    | some inode =>
      rw [List.reduceOption_cons_of_some, List.foldlM_cons]
      unfold freeSlots Volume.free
      simp only [Run.ensures_bind, Run.ensures_get, Run.ensures_set]
      cases hfree : FileSystem.free v.state inode with
      | error message => exact ⟨message, rfl, rfl⟩
      | ok state =>
        refine (ih ⟨state, v.calls.push (.free inode)⟩).imp (fun _ w hw => ⟨hw.1, ?_⟩) fun q w hq => hq
        rw [hw.2]
        simp

/-- To close all descriptors gives back one reference for each bound slot, in the order of the slots. -/
theorem closeAll_spec (d : Descriptors) (v : Volume σ) :
    (d.closeAll : Run (Volume σ) Descriptors).Ensures v
      (fun d' w => d' = empty ∧ d.files.foldlM FileSystem.free v.state = .ok w.state ∧
        w.calls = v.calls ++ (d.files.map FileCall.free).toArray)
      fun q _ => ∃ message, d.files.foldlM FileSystem.free v.state = .error message ∧ q = .collaborator message := by
  unfold closeAll
  rw [Run.ensures_bind]
  exact (freeSlots_spec _ v).mono fun _ w hw => ⟨rfl, hw⟩

/-- To open a file takes one reference and binds one descriptor more. To fail at it takes none. -/
theorem openPath_balanced (path : String) (hv : v.Balanced fun i => d.bindings i + others i) :
    (d.openPath path : Attempt (Volume σ) (Fin descriptorCount × Descriptors)).Ensures v
      (fun r w => match r with
        | .ok (_, d') => w.Balanced fun i => d'.bindings i + others i
        | .error _ => v.Quiet w) fun _ w => w.Covered := by
  unfold openPath
  split
  · exact refl_of Volume.Quiet v
  next fd hfd =>
    have hfree : d.slots[fd.val] = none := by simpa using List.find?_some hfd
    rw [Attempt.ensures_bind, Attempt.ensures_ofRun]
    refine ((Volume.lookup_quiet path).ensures v).imp (fun inode w hw => ?_) fun _ w hw => hw.covered hv.covered
    cases inode with
    | none => exact hw
    | some i =>
      simp only [Attempt.ensures_bind, Attempt.ensures_ofRun]
      refine Volume.ref_balanced (hw.balanced hv) fun j => ?_
      have hset := bindings_set_some fd.isLt hfree i j
      simp only [hset]
      omega

/-- To close a bound descriptor gives one reference back. It fails only outside the table, and gives back none then. -/
theorem close_balanced (fd : Nat) (hv : v.Balanced fun i => d.bindings i + others i) :
    (d.close fd : Attempt (Volume σ) Descriptors).Ensures v
      (fun r w => match r with
        | .ok d' => (w.Balanced fun i => d'.bindings i + others i) ∧ fd < descriptorCount
        | .error e => e = .invalid ∧ descriptorCount ≤ fd ∧ w = v) fun _ w => w.Covered := by
  unfold close
  split
  case isFalse hfd => exact ⟨rfl, Nat.le_of_not_lt hfd, rfl⟩
  next hfd =>
  split
  · exact ⟨hv, hfd⟩
  next i hbound =>
    simp only [Attempt.ensures_bind, Attempt.ensures_ofRun]
    refine (Volume.free_balanced hv fun j => ?_).mono fun _ w hw => ⟨hw, hfd⟩
    have hset := bindings_set_none hfd hbound j
    simp only [hset]
    omega

end Descriptors

end TrapKernel
