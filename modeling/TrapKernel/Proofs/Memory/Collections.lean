import TrapKernel.Proofs.Memory.Faults
import TrapKernel.Proofs.Memory.Fork
import Mathlib.Data.List.Perm.Basic

/-!
# Collections of address spaces

Address spaces are created, filled, shared, made private and given up in any order, as far as the frames last. At all
times the page table of each of them and the data frames that it holds say the same, and a frame that two of them hold
is writable in neither.

* `SpaceOp.Built`: the collections that come about in this way.
* `Represented`: the tables and the frames say the same.
* `SpaceOp.Built.represented`: so they do in all of these collections, and which operations stop.
-/

namespace TrapKernel

open PhysicalMemory AddressSpace

/-- What can be done to a collection of address spaces, which are referred to by their places in a list. -/
inductive SpaceOp where
  | create
  | mapZeroed (i page : Nat) (flags : EntryFlags)
  | unmapRange (i : Nat) (range : PageRange)
  | unmapAll (i : Nat)
  | fork (i : Nat)
  | resolveCow (i page : Nat)
  | release (i : Nat)

namespace SpaceOp

/-- Does something with the address space at a place. Where there is none, nothing happens. -/
def withSpace (l : List AddressSpace) (i : Nat) (f : AddressSpace → Run PhysicalMemory (List AddressSpace)) :
    Run PhysicalMemory (List AddressSpace) :=
  match l[i]? with
  | none => return l
  | some s => f s

/-- Performs an operation. One that fails for want of frames leaves the collection as it is, apart from what it has
done before. -/
def run (l : List AddressSpace) : SpaceOp → Run PhysicalMemory (List AddressSpace)
  | create => do
    match ← AddressSpace.create with
    | none => return l
    | some s => return l ++ [s]
  | mapZeroed i page flags => withSpace l i fun s => do return l.set i (← s.mapZeroed page flags).1
  | unmapRange i range => withSpace l i fun s => do return l.set i (← s.unmapRange range)
  | unmapAll i => withSpace l i fun s => do return l.set i (← s.unmapAll)
  | fork i => withSpace l i fun s => do
    match ← s.fork with
    | none => return l
    | some child => return l ++ [child]
  | resolveCow i page => withSpace l i fun s => do
    match ← (s.resolveCow page).run with
    | .ok (some s') => return l.set i s'
    | _ => return l
  | release i => withSpace l i fun s => do
    s.release
    return l.eraseIdx i

/-- Whether an operation keeps to what is asked of its caller: only a page number that the page table can tell from
others and that is not mapped is mapped. -/
def Allowed (l : List AddressSpace) : SpaceOp → Prop
  | mapZeroed i page _ => page < pageLimit ∧ ∀ s ∈ l[i]?, s.pages[page]? = none
  | _ => True

instance (l : List AddressSpace) (op : SpaceOp) : Decidable (op.Allowed l) :=
  match op with
  | mapZeroed i page _ => inferInstanceAs (Decidable (page < pageLimit ∧ ∀ s ∈ l[i]?, s.pages[page]? = none))
  | create | unmapRange _ _ | unmapAll _ | fork _ | resolveCow _ _ | release _ => inferInstanceAs (Decidable True)

/-- The collections of address spaces that can be built in some memory, from none at all. -/
inductive Built (m₀ : PhysicalMemory) : PhysicalMemory → List AddressSpace → Prop
  | start : Built m₀ m₀ []
  | step {m m' : PhysicalMemory} {l l' : List AddressSpace} (h : Built m₀ m l) (op : SpaceOp) (hallowed : op.Allowed l)
      (hop : op.run l m = .ok l' m') : Built m₀ m' l'

/-- Whether an operation asks for a page number that is too large for the page table, and the page that the table takes
it for is copy-on-write. -/
def HitsAlias (l : List AddressSpace) (m : PhysicalMemory) (op : SpaceOp) : Prop :=
  ∃ i page s e, op = .resolveCow i page ∧ l[i]? = some s ∧ pageLimit ≤ page ∧ s.translate m page = some e ∧
    e.isCow = true

end SpaceOp

/-! ### Aligned frames -/

namespace AddressSpace

/-- Whether no frame is at two page numbers, be it of one address space or of two. -/
def Aligned (l : List AddressSpace) : Prop :=
  ∀ s ∈ l, ∀ s' ∈ l, ∀ page page' p : Nat, s.pages[page]? = some p → s'.pages[page']? = some p → page' = page

/-- Whether an address space has become another one in which all frames are at their old page numbers, or else at one
page number only and not held by others. -/
def Renews (s s' : AddressSpace) (held : List Nat) : Prop :=
  ∀ page p : Nat, s'.pages[page]? = some p →
    s.pages[page]? = some p ∨ p ∉ held ∧ ∀ page' : Nat, s'.pages[page']? = some p → page' = page

variable {m m' : PhysicalMemory} {foreign : Surroundings} {owned held : List Nat} {s s' : AddressSpace}
  {l l' rest : List AddressSpace}

/-- The nodes of the page tables of some address spaces. -/
abbrev nodesOf (l : List AddressSpace) : List Nat := (l.map region).flatMap fun x => x.table.nodes

/-- The frames that some address spaces hold, once for each page. -/
abbrev framesOf (l : List AddressSpace) : List Nat := (l.map region).flatMap Region.frames

private theorem mem_framesOf {p : Nat} : p ∈ framesOf l ↔ ∃ s ∈ l, ∃ page : Nat, s.pages[page]? = some p := by
  simp only [framesOf, List.mem_flatMap, List.mem_map, exists_exists_and_eq_and, mem_frames_iff]

private theorem Aligned.perm (h : Aligned l) (hperm : l.Perm l') : Aligned l' := fun s hs s' hs' =>
  h s (hperm.mem_iff.mpr hs) s' (hperm.mem_iff.mpr hs')

private theorem Aligned.of_subset (h : Aligned l) (hsub : ∀ s ∈ l', ∀ page p : Nat, s.pages[page]? = some p →
    ∃ s₀ ∈ l, s₀.pages[page]? = some p) : Aligned l' := by
  intro s hs s' hs' page page' p hp hp'
  obtain ⟨s₀, hs₀, hp₀⟩ := hsub s hs page p hp
  obtain ⟨s₀', hs₀', hp₀'⟩ := hsub s' hs' page' p hp'
  exact h s₀ hs₀ s₀' hs₀' page page' p hp₀ hp₀'

private theorem Aligned.renew (h : Aligned (s :: rest)) (hrenews : s.Renews s' (framesOf rest)) :
    Aligned (s' :: rest) := by
  have hcross : ∀ y ∈ rest, ∀ page page' p : Nat, s'.pages[page]? = some p → y.pages[page']? = some p → page' = page := by
    intro y hy page page' p hp hp'
    rcases hrenews page p hp with hold | ⟨hfresh, -⟩
    · exact h s List.mem_cons_self y (List.mem_cons_of_mem s hy) page page' p hold hp'
    · exact absurd (mem_framesOf.mpr ⟨y, hy, page', hp'⟩) hfresh
  have hself : ∀ page page' p : Nat, s'.pages[page]? = some p → s'.pages[page']? = some p → page' = page := by
    intro page page' p hp hp'
    rcases hrenews page p hp with hold | ⟨-, hone⟩
    · rcases hrenews page' p hp' with hold' | ⟨-, hone'⟩
      · exact h s List.mem_cons_self s List.mem_cons_self page page' p hold hold'
      · exact (hone' page hp).symm
    · exact hone page' hp'
  intro x hx y hy page page' p hp hp'
  rcases List.mem_cons.mp hx with rfl | hxrest <;> rcases List.mem_cons.mp hy with rfl | hyrest
  · exact hself page page' p hp hp'
  · exact hcross y hyrest page page' p hp hp'
  · exact (hcross x hxrest page' page p hp' hp).symm
  · exact h x (List.mem_cons_of_mem s hxrest) y (List.mem_cons_of_mem s hyrest) page page' p hp hp'

/-! ### Coherent collections -/

/-- Whether some address spaces are all the system has, and all of them are sound and aligned. -/
structure Coherent (m : PhysicalMemory) (foreign : Surroundings) (l : List AddressSpace) : Prop where
  sound : Sound m foreign (l.map region)
  aligned : Aligned l

private theorem Coherent.perm (h : Coherent m foreign l) (hperm : l.Perm l') : Coherent m foreign l' :=
  ⟨h.sound.perm (hperm.map _), h.aligned.perm hperm⟩

/-- The address space at a place comes first when the others are set apart. -/
private theorem Coherent.focus {i : Nat} (h : Coherent m foreign l) (hs : l[i]? = some s) :
    Coherent m foreign (s :: l.eraseIdx i) := by
  obtain ⟨hi, rfl⟩ := List.getElem?_eq_some_iff.mp hs
  exact h.perm (List.getElem_cons_eraseIdx_perm hi).symm

/-- An address space of the collection has become another one. -/
private theorem Coherent.renew (h : Coherent m foreign (s :: rest))
    (hs' : s'.region.Sound m' foreign (nodesOf rest) (framesOf rest))
    (hspares : Region.Spares m m' (nodesOf rest) (framesOf rest)) (hrenews : s.Renews s' (framesOf rest)) :
    Coherent m' foreign (s' :: rest) :=
  ⟨h.sound.step hs' hspares, h.aligned.renew hrenews⟩

private theorem Renews.of_subset (h : ∀ page p : Nat, s'.pages[page]? = some p → s.pages[page]? = some p) :
    s.Renews s' held := fun page p hp => .inl (h page p hp)

private theorem Renews.of_insert {page p : Nat} (hpages : s'.pages = s.pages.insert page p)
    (hfresh : p ∉ s.region.frames ++ held) : s.Renews s' held := by
  rw [List.mem_append, not_or] at hfresh
  have hget : ∀ page' q : Nat, s'.pages[page']? = some q → page = page' ∧ q = p ∨ s.pages[page']? = some q := by
    intro page' q hq
    rw [hpages, Std.TreeMap.getElem?_insert] at hq
    split at hq
    next heq => exact .inl ⟨Nat.compare_eq_eq.mp heq, (Option.some.inj hq).symm⟩
    · exact .inr hq
  intro page' q hq
  rcases hget page' q hq with ⟨rfl, rfl⟩ | hold
  · refine .inr ⟨hfresh.2, fun page' hq' => ?_⟩
    rcases hget page' q hq' with ⟨rfl, -⟩ | hold
    · rfl
    · exact absurd (mem_frames_iff.mpr ⟨page', hold⟩) hfresh.1
  · exact .inl hold

/-- A page that has become writable is alone on its frame, and the other pages are where they were. -/
private theorem Unshares.renews {page : Nat} {e : Entry} (h : s.region.Valid m) (hlt : page < pageLimit)
    (hunshares : Unshares foreign owned held s m page e s' m') : s.Renews s' held := by
  obtain ⟨copy, htranslate⟩ := hunshares.translate
  have hvalid := hunshares.sound.valid
  intro page' p hp
  have hlt' := lt_of_getElem? hvalid hp
  by_cases hpage : page' = page
  · subst hpage
    have hentry := htranslate page'
    rw [if_pos (Nat.mod_eq_of_lt hlt)] at hentry
    have hframe := map_frame_translate hvalid hlt
    rw [hentry, hp, Option.map_some, Option.some.injEq] at hframe
    have hone := hunshares.sound.exclusive page' _ hentry (by
      rw [Entry.isWritable, Entry.flags_make]
      exact EntryFlags.unshared_writable _)
    rw [hframe] at hone
    have hmem := Std.TreeMap.mem_toList_iff_getElem?_eq_some.mpr hp
    refine .inr ⟨hunshares.sound.not_held (mem_frames hp) hone, fun page'' hp'' => ?_⟩
    exact hunshares.sound.page_eq hone hmem (Std.TreeMap.mem_toList_iff_getElem?_eq_some.mpr hp'')
  · refine .inl ?_
    rw [← map_frame_translate h hlt', ← hp, ← map_frame_translate hvalid hlt', htranslate,
      if_neg (by rwa [Nat.mod_eq_of_lt hlt'])]

/-- The address space at a place has become another one. -/
private theorem Coherent.set {i : Nat} (h : Coherent m foreign l) (hs : l[i]? = some s)
    (hs' : s'.region.Sound m' foreign (nodesOf (l.eraseIdx i)) (framesOf (l.eraseIdx i)))
    (hspares : Region.Spares m m' (nodesOf (l.eraseIdx i)) (framesOf (l.eraseIdx i)))
    (hrenews : s.Renews s' (framesOf (l.eraseIdx i))) : Coherent m' foreign (l.set i s') := by
  obtain ⟨hi, -⟩ := List.getElem?_eq_some_iff.mp hs
  exact ((h.focus hs).renew hs' hspares hrenews).perm (List.set_perm_cons_eraseIdx hi s').symm

private theorem Coherent.create (h : Coherent m foreign l) (hpages : s.pages = ∅)
    (hs : s.region.Sound m' foreign (nodesOf l) (framesOf l)) (hspares : Region.Spares m m' (nodesOf l) (framesOf l)) :
    Coherent m' foreign (l ++ [s]) := by
  have hcons : Coherent m' foreign (s :: l) := by
    refine ⟨h.sound.add hs hspares, h.aligned.of_subset fun y hy page p hp => ?_⟩
    rcases List.mem_cons.mp hy with rfl | hy
    · rw [getElem?_of_pages_eq_empty hpages] at hp
      exact absurd hp (by simp)
    · exact ⟨y, hy, hp⟩
  exact hcons.perm (List.perm_append_singleton s l).symm

/-- A frame that is shared is at the same page number on both sides. -/
private theorem Coherent.fork {i : Nat} {child : AddressSpace} (h : Coherent m foreign l) (hs : l[i]? = some s)
    (hparent : s.region.Sound m' foreign (child.table.nodes ++ nodesOf (l.eraseIdx i))
      (child.region.frames ++ framesOf (l.eraseIdx i)))
    (hchild : child.region.Sound m' foreign (s.table.nodes ++ nodesOf (l.eraseIdx i))
      (s.region.frames ++ framesOf (l.eraseIdx i)))
    (hspares : Region.Spares m m' (nodesOf (l.eraseIdx i)) (framesOf (l.eraseIdx i)))
    (hmirror : ∀ page e, child.translate m' page = some e →
      ∃ e', s.translate m' page = some e' ∧ e.frame = e'.frame ∧ e.flags = e'.flags) :
    Coherent m' foreign (l ++ [child]) := by
  have hfocus := h.focus hs
  have hcons : Coherent m' foreign (child :: s :: l.eraseIdx i) := by
    refine ⟨hfocus.sound.split hparent hchild hspares, hfocus.aligned.of_subset fun y hy page p hp => ?_⟩
    rcases List.mem_cons.mp hy with rfl | hy
    · have hlt := lt_of_getElem? hchild.valid hp
      rw [← map_frame_translate hchild.valid hlt, Option.map_eq_some_iff] at hp
      obtain ⟨e, he, rfl⟩ := hp
      obtain ⟨e', he', hframe, -⟩ := hmirror page e he
      exact ⟨s, List.mem_cons_self, by rw [← map_frame_translate hparent.valid hlt, he', hframe, Option.map_some]⟩
    · exact ⟨y, hy, hp⟩
  obtain ⟨hi, rfl⟩ := List.getElem?_eq_some_iff.mp hs
  refine hcons.perm (.trans (.cons child (List.getElem_cons_eraseIdx_perm hi)) ?_)
  exact (List.perm_append_singleton child l).symm

/-- The address space at a place has been given up. -/
private theorem Coherent.release {i : Nat} (h : Coherent m foreign l) (hs : l[i]? = some s)
    (hacc : m'.Accounts foreign (nodesOf (l.eraseIdx i)) (framesOf (l.eraseIdx i)))
    (hspares : Region.Spares m m' (nodesOf (l.eraseIdx i)) (framesOf (l.eraseIdx i))) :
    Coherent m' foreign (l.eraseIdx i) where
  sound := (h.focus hs).sound.drop hacc hspares
  aligned := (h.focus hs).aligned.of_subset fun y hy _ _ hp => ⟨y, List.mem_cons_of_mem s hy, hp⟩

end AddressSpace

namespace SpaceOp

variable {m m' m₀ : PhysicalMemory} {foreign : Surroundings} {l l' : List AddressSpace}

private theorem ensures_withSpace {i : Nat} {f : AddressSpace → Run PhysicalMemory (List AddressSpace)}
    {Q : List AddressSpace → PhysicalMemory → Prop} {E : Panic → PhysicalMemory → Prop} (hnone : Q l m)
    (hsome : ∀ s, l[i]? = some s → (f s).Ensures m Q E) : (withSpace l i f).Ensures m Q E := by
  unfold withSpace
  cases hs : l[i]? with
  | none => exact hnone
  | some s => exact hsome s hs

/-- Making a page writable keeps a collection coherent. A page number that is too large changes nothing, and stops if the
page that the table takes it for is copy-on-write. -/
private theorem run_resolveCow_coherent (h : Coherent m foreign l) (i page : Nat) :
    ((resolveCow i page).run l).Ensures m (fun l' m' => Coherent m' foreign l') fun p m' =>
      p = .cowFrameMissing ∧ m' = m ∧ (resolveCow i page).HitsAlias l m := by
  refine ensures_withSpace h fun s hs => ?_
  have hregion := (h.focus hs).sound.head
  rw [Run.ensures_bind]
  by_cases hlt : page < pageLimit
  · refine Run.Ensures.imp (resolveCow_spec hregion hlt) (fun r m' hr => ?_) fun _ _ => False.elim
    match r, hr with
    | .error _, hr => exact hr.2.1 ▸ h
    | .ok none, hr => exact hr.1 ▸ h
    | .ok (some s'), ⟨e, _, hunshares⟩ =>
      exact h.set hs hunshares.sound hunshares.spares (hunshares.renews hregion.valid hlt)
  · have hle := Nat.le_of_not_lt hlt
    unfold Run.Ensures
    rw [resolveCow_eq_of_le hregion.valid hle]
    cases htranslate : s.translate m page with
    | none => exact h
    | some e =>
      cases hcow : e.isCow with
      | false =>
        rw [Option.any_some, hcow]
        exact h
      | true =>
        rw [Option.any_some, hcow]
        exact ⟨rfl, rfl, i, page, s, e, rfl, hs, hle, htranslate, hcow⟩

/-- A coherent collection stays so whatever is done to it. An operation stops only if it asks for a page number that is
too large, and the page that the table takes it for is copy-on-write. -/
private theorem run_coherent (h : Coherent m foreign l) (op : SpaceOp) (hallowed : op.Allowed l) :
    (op.run l).Ensures m (fun l' m' => Coherent m' foreign l') fun p m' =>
      p = .cowFrameMissing ∧ m' = m ∧ op.HitsAlias l m := by
  cases op with
  | create =>
    unfold run
    rw [Run.ensures_bind]
    refine Run.Ensures.imp (create_spec h.sound.accounts) (fun r m' hr => ?_) fun _ _ => False.elim
    cases r with
    | none => exact hr.1 ▸ h
    | some s =>
      obtain ⟨hpages, hsound, hspares, -, -⟩ := hr
      exact h.create hpages hsound hspares
  | mapZeroed i page flags =>
    refine ensures_withSpace h fun s hs => ?_
    have hregion := (h.focus hs).sound.head
    have hnone : s.translate m page = none := by
      have hpages := hallowed.2 s hs
      rw [← map_frame_translate hregion.valid hallowed.1, Option.map_eq_none_iff] at hpages
      exact hpages
    rw [Run.ensures_bind]
    refine Run.Ensures.imp (mapZeroed_spec hregion hallowed.1 hnone flags) (fun r m' hr => ?_) fun _ _ => False.elim
    obtain ⟨hsound, hspares, -, hr⟩ := hr
    refine h.set hs hsound hspares ?_
    split at hr
    · obtain ⟨p, hpages, hfresh, -, -⟩ := hr
      exact .of_insert hpages hfresh
    · exact .of_subset fun _ _ hp => hr.1 ▸ hp
  | unmapRange i range =>
    refine ensures_withSpace h fun s hs => ?_
    rw [Run.ensures_bind]
    refine Run.Ensures.imp (unmapRange_spec (h.focus hs).sound.head range) (fun s' m' hr => ?_) fun _ _ => False.elim
    obtain ⟨hsound, hspares, -, -, htranslate⟩ := hr
    refine h.set hs hsound hspares (.of_subset fun page p hp => ?_)
    have hlt := lt_of_getElem? hsound.valid hp
    rw [← map_frame_translate (h.focus hs).sound.head.valid hlt, ← htranslate page p hp,
      map_frame_translate hsound.valid hlt, hp]
  | unmapAll i =>
    refine ensures_withSpace h fun s hs => ?_
    rw [Run.ensures_bind]
    refine Run.Ensures.imp (unmapAll_spec (h.focus hs).sound.head) (fun s' m' hr => ?_) fun _ _ => False.elim
    obtain ⟨hsound, hspares, -, hpages⟩ := hr
    refine h.set hs hsound hspares (.of_subset fun page p hp => ?_)
    rw [getElem?_of_pages_eq_empty hpages] at hp
    exact absurd hp (by simp)
  | fork i =>
    refine ensures_withSpace h fun s hs => ?_
    rw [Run.ensures_bind]
    refine Run.Ensures.imp (fork_spec (h.focus hs).sound.head) (fun r m' hr => ?_) fun _ _ => False.elim
    obtain ⟨-, -, hspares, hr⟩ := hr
    cases r with
    | none =>
      have hset := h.set hs hr hspares (.of_subset fun _ _ hp => hp)
      obtain ⟨hi, rfl⟩ := List.getElem?_eq_some_iff.mp hs
      rwa [List.set_getElem_self] at hset
    | some child =>
      obtain ⟨hparent, hchild, -, hmirror, -⟩ := hr
      exact h.fork hs hparent hchild hspares hmirror
  | resolveCow i page => exact run_resolveCow_coherent h i page
  | release i =>
    refine ensures_withSpace h fun s hs => ?_
    rw [Run.ensures_bind]
    refine Run.Ensures.imp (release_spec (h.focus hs).sound.head) (fun _ m' hr => ?_) fun _ _ => False.elim
    exact h.release hs hr.1 hr.2.1

/-- A collection that has been built is coherent. -/
private theorem Built.coherent (hmemory : m₀.Accounts foreign [] []) (h : Built m₀ m l) : Coherent m foreign l := by
  induction h with
  | start => exact ⟨⟨hmemory, by simp, by simp⟩, fun _ hs => absurd hs List.not_mem_nil⟩
  | step _ op hallowed hop ih => exact (run_coherent ih op hallowed).of_ok hop

end SpaceOp

/-! ### Representation -/

/-- Whether the page tables of some address spaces and the data frames that they hold represent each other. -/
structure Represented (m : PhysicalMemory) (l : List AddressSpace) : Prop where
  page_lt : ∀ s ∈ l, ∀ page p : Nat, s.pages[page]? = some p → page < pageLimit
  /-- A page number has a valid entry exactly if a frame is held for it, and the entry leads to that frame. -/
  translate : ∀ s ∈ l, ∀ page < pageLimit, (s.translate m page).map Entry.frame = s.pages[page]?
  page_eq : ∀ s ∈ l, ∀ s' ∈ l, ∀ page page' p : Nat, s.pages[page]? = some p → s'.pages[page']? = some p → page' = page
  /-- The holders that are counted are the pages that the frame is held for. -/
  holderCount : ∀ s ∈ l, ∀ page p : Nat, s.pages[page]? = some p → m.holderCount p = (framesOf l).count p
  exclusive : ∀ s ∈ l, ∀ page e, s.translate m page = some e → e.isWritable = true → m.holderCount e.frame = 1
  /-- A frame that two address spaces hold is writable in neither. -/
  readonly : ∀ (i j : Nat) s s' (page page' p : Nat) e, i ≠ j → l[i]? = some s → l[j]? = some s' →
    s.pages[page]? = some p → s'.pages[page']? = some p → s.translate m page = some e → e.isWritable = false

namespace AddressSpace

variable {m : PhysicalMemory} {foreign : Surroundings} {l : List AddressSpace}

/-- A frame that two address spaces of a coherent collection hold is writable in neither. -/
private theorem Coherent.isWritable_eq_false (h : Coherent m foreign l) {i j : Nat} (hij : i ≠ j) {s s' : AddressSpace}
    (hs : l[i]? = some s) (hs' : l[j]? = some s') {page page' p : Nat} (hp : s.pages[page]? = some p)
    (hp' : s'.pages[page']? = some p) {e : Entry} (he : s.translate m page = some e) : e.isWritable = false := by
  have hregion := (h.focus hs).sound.head
  have hother : s' ∈ l.eraseIdx i := List.mem_eraseIdx_iff_getElem?.mpr ⟨j, hij.symm, hs'⟩
  have hframe := map_frame_translate hregion.valid (lt_of_getElem? hregion.valid hp)
  rw [he, hp, Option.map_some, Option.some.injEq] at hframe
  by_contra hw
  have hone := hregion.exclusive page e he (Bool.of_not_eq_false hw)
  rw [hframe] at hone
  exact hregion.not_held (mem_frames hp) hone (mem_framesOf.mpr ⟨s', hother, page', hp'⟩)

private theorem Coherent.toRepresented (h : Coherent m foreign l) : Represented m l where
  page_lt _ hs _ _ hp := lt_of_getElem? (h.sound.valid _ (List.mem_map_of_mem hs)) hp
  translate _ hs _ hlt := map_frame_translate (h.sound.valid _ (List.mem_map_of_mem hs)) hlt
  page_eq := h.aligned
  holderCount s hs page _ hp := h.sound.accounts.holderCount_eq (mem_framesOf.mpr ⟨s, hs, page, hp⟩)
  exclusive _ hs page e := h.sound.exclusive _ (List.mem_map_of_mem hs) page e
  readonly _ _ _ _ _ _ _ _ hij hs hs' hp hp' he := h.isWritable_eq_false hij hs hs' hp hp' he

end AddressSpace

namespace SpaceOp

variable {m m₀ : PhysicalMemory} {l : List AddressSpace}

private theorem HitsAlias.run_eq {foreign : Surroundings} (h : Coherent m foreign l) {op : SpaceOp}
    (halias : op.HitsAlias l m) : op.run l m = .error .cowFrameMissing m := by
  obtain ⟨i, page, s, e, rfl, hs, hle, he, hcow⟩ := halias
  have hresolve := resolveCow_eq_of_le (h.focus hs).sound.head.valid hle
  rw [he, Option.any_some, hcow] at hresolve
  show withSpace l i _ m = _
  unfold withSpace
  rw [hs]
  exact Run.bind_of_error hresolve _

/-- In all collections of address spaces that can be built, the page tables and the data frames that are held represent
each other. No operation stops, but for one that makes a page writable whose number is too large for the page table, if
the table takes it for a page that is copy-on-write. -/
theorem Built.represented (hmemory : m₀.Consistent) (h : Built m₀ m l) :
    Represented m l ∧ ∀ op : SpaceOp, op.Allowed l →
      ((∃ p m', op.run l m = .error p m') ↔ op.HitsAlias l m) ∧
        ∀ p m', op.run l m = .error p m' → p = .cowFrameMissing ∧ m' = m := by
  obtain ⟨foreign, hmemory⟩ := hmemory
  have hcoherent := h.coherent hmemory
  refine ⟨hcoherent.toRepresented, fun op hallowed => ?_⟩
  have hstops : ∀ p m', op.run l m = .error p m' → p = .cowFrameMissing ∧ m' = m ∧ op.HitsAlias l m := fun p m' =>
    (run_coherent hcoherent op hallowed).of_error
  refine ⟨⟨fun ⟨p, m', hop⟩ => (hstops p m' hop).2.2, fun halias => ⟨_, _, halias.run_eq hcoherent⟩⟩, fun p m' hop => ?_⟩
  exact ⟨(hstops p m' hop).1, (hstops p m' hop).2.1⟩

/-! ### Collections on fixed inputs -/

/-- Whether some operations, all of them allowed, lead to a collection that passes a test. -/
def builds (test : List AddressSpace → PhysicalMemory → Bool) :
    List SpaceOp → List AddressSpace → PhysicalMemory → Bool
  | [], l, m => test l m
  | op :: ops, l, m =>
    decide (op.Allowed l) &&
      match op.run l m with
      | .ok l' m' => builds test ops l' m'
      | .error _ _ => false

private theorem exists_of_builds (test : List AddressSpace → PhysicalMemory → Bool) {ops : List SpaceOp}
    (h : Built m₀ m l) (hops : builds test ops l m = true) : ∃ m' l', Built m₀ m' l' ∧ test l' m' = true := by
  induction ops generalizing m l with
  | nil => exact ⟨m, l, h, hops⟩
  | cons op ops ih =>
    unfold builds at hops
    rw [Bool.and_eq_true, decide_eq_true_eq] at hops
    obtain ⟨hallowed, hops⟩ := hops
    split at hops
    next l' m' hop => exact ih (h.step op hallowed hop) hops
    · exact absurd hops (by simp)

/-- An address space with one page that is shared with another one. -/
def sharePage : List SpaceOp := [.create, .mapZeroed 0 5 .userData, .fork 0]

/-- Neither of the two stops when it makes the page writable. -/
theorem represented_sharePage : ∃ m l, Built (.ofPages 0x80600 0x80640) m l ∧
    l.map (fun s => s.pages[5]?) = [some 0x80601, some 0x80601] ∧ Represented m l ∧
      ∀ i p m', (resolveCow i 5).run l m ≠ .error p m' := by
  obtain ⟨m, l, hbuilt, hpages⟩ := exists_of_builds
    (fun l _ => l.map (fun s => s.pages[5]?) = [some 0x80601, some 0x80601]) .start
    (show builds _ sharePage [] (.ofPages 0x80600 0x80640) = true by decide +kernel)
  have hmemory : (PhysicalMemory.ofPages 0x80600 0x80640).Consistent :=
    PhysicalMemory.consistent_ofPages (by decide) (by decide) ∅
  obtain ⟨hrepresented, hops⟩ := Built.represented hmemory hbuilt
  refine ⟨m, l, hbuilt, of_decide_eq_true hpages, hrepresented, fun i p m' hop => ?_⟩
  obtain ⟨_, _, _, _, hop, -, hle, -⟩ := (hops (.resolveCow i 5) trivial).1.mp ⟨p, m', hop⟩
  cases hop
  exact absurd hle (by decide)

/-- Whether an address space stops when it makes a page writable. -/
def stopsAt (i page : Nat) (l : List AddressSpace) (m : PhysicalMemory) : Bool :=
  match (resolveCow i page).run l m with
  | .error .cowFrameMissing _ => true
  | _ => false

/-- The first of them stops at the page number with the same lower 27 bits and the next one set, which neither has a
page for. -/
theorem run_resolveCow_pageAlias : ∃ m m' l, Built (.ofPages 0x80600 0x80640) m l ∧
    (resolveCow 0 0x8000005).Allowed l ∧ l.map (fun s => s.pages[0x8000005]?) = [none, none] ∧
      (resolveCow 0 0x8000005).run l m = .error .cowFrameMissing m' := by
  obtain ⟨m, l, hbuilt, htest⟩ := exists_of_builds
    (fun l m => decide (l.map (fun s => s.pages[0x8000005]?) = [none, none]) && stopsAt 0 0x8000005 l m) .start
    (show builds _ sharePage [] (.ofPages 0x80600 0x80640) = true by decide +kernel)
  rw [Bool.and_eq_true, decide_eq_true_eq] at htest
  obtain ⟨hpages, hstops⟩ := htest
  unfold stopsAt at hstops
  split at hstops
  next m' hop => exact ⟨m, m', l, hbuilt, trivial, hpages, hop⟩
  · exact absurd hstops (by simp)

end SpaceOp

end TrapKernel
