import TrapKernel.Proofs.Memory.FrameNeeds

/-!
# What becomes of a page table

However often pages are mapped, mapped anew and unmapped, and whatever others do with memory in between, a page table
answers as a finite map would: at every page number there is what the last operation on it has left. An operation that
the map has no room for, since there are not frames enough for the nodes, leaves the map as it was.

* `TableOp.lookup`: the finite map.
* `PageTable.History`: the page tables that come about.
* `PageTable.History.finiteMap`: how they answer, when the operations stop, and what a table owns.
-/

namespace TrapKernel

open PhysicalMemory

/-- What can be done to a page table. -/
inductive TableOp where
  | map (page frame : Nat) (flags : EntryFlags)
  | remap (page frame : Nat) (flags : EntryFlags)
  | unmap (page : Nat)
  deriving DecidableEq

namespace TableOp

/-- Performs an operation. The answer is the table and whether there were frames enough. -/
def run (t : PageTable) : TableOp → Run PhysicalMemory (PageTable × Bool)
  | map page frame flags => t.map page frame flags
  | remap page frame flags => do
    t.remap page frame flags
    return (t, true)
  | unmap page => do
    t.unmap page
    return (t, true)

/-- Whether an operation is about a page number that the page table can tell from others, and about a frame whose number
fits into an entry. -/
def Allowed : TableOp → Prop
  | map page frame _ | remap page frame _ => page < pageLimit ∧ frame < Entry.frameLimit
  | unmap page => page < pageLimit

instance (op : TableOp) : Decidable op.Allowed :=
  match op with
  | map page frame _ | remap page frame _ => inferInstanceAs (Decidable (page < pageLimit ∧ frame < Entry.frameLimit))
  | unmap page => inferInstanceAs (Decidable (page < pageLimit))

/-- The frame and the flags at a page number when some operations have succeeded, the latest of them first. -/
def lookup (v : Nat) : List TableOp → Option (Nat × EntryFlags)
  | [] => none
  | map page frame flags :: earlier | remap page frame flags :: earlier =>
    if page = v then some (frame, flags ||| .valid) else lookup v earlier
  | unmap page :: earlier => if page = v then none else lookup v earlier

/-- Whether an operation maps a page number that is mapped, or else is about one that is not. -/
def Misplaced (done : List TableOp) : TableOp → Prop
  | map page _ _ => (lookup page done).isSome
  | remap page _ _ | unmap page => lookup page done = none

end TableOp

namespace PageTable

open TableOp

variable {t t' : PageTable} {m m' : PhysicalMemory} {foreign : Surroundings} {owned held : List Nat}
  {done done' : List TableOp}

/-- Whether the books of memory are in order, in which the nodes of a table have that table for their owner. -/
def Booked (t : PageTable) (m : PhysicalMemory) : Prop :=
  ∃ foreign owned held, m.Accounts foreign (t.nodes ++ owned) held

/-- The page tables that come about, each with the memory that it is in and the operations that have succeeded on it, the
latest first. In between, others may do anything to memory that leaves the nodes of the table alone and the books in
order. -/
inductive History : PageTable → PhysicalMemory → List TableOp → Prop
  | create {m₀ m : PhysicalMemory} {t : PageTable} {foreign : Surroundings} {owned held : List Nat}
      (hbooks : m₀.Accounts foreign owned held) (hcreate : PageTable.create m₀ = .ok (some t) m) : History t m []
  | step {t t' : PageTable} {m m' : PhysicalMemory} {done : List TableOp} {enough : Bool} (h : History t m done)
      (op : TableOp) (hallowed : op.Allowed) (hrun : op.run t m = .ok (t', enough) m') :
      History t' m' (if enough then op :: done else done)
  | elsewhere {t : PageTable} {m m' : PhysicalMemory} {done : List TableOp} (h : History t m done)
      (hnodes : ∀ p ∈ t.nodes, m'.frame p = m.frame p) (hbooks : t.Booked m') : History t m' done

/-- Whether a page table is the finite map that some operations have left, the latest of them first. -/
structure Represents (t : PageTable) (m : PhysicalMemory) (done : List TableOp) : Prop where
  tree : t.Tree m
  booked : t.Booked m
  lookup : ∀ page < pageLimit, (t.translate m page).map (fun e => (e.frame, e.flags)) = TableOp.lookup page done

private theorem Represents.lookup_eq_none (h : t.Represents m done) {page : Nat} (hpage : page < pageLimit) :
    TableOp.lookup page done = none ↔ t.translate m page = none := by
  rw [← h.lookup page hpage, Option.map_eq_none_iff]

/-- An entry that is written reads back. -/
private theorem map_make {frame : Nat} (hframe : frame < Entry.frameLimit) (flags : EntryFlags) :
    (some (Entry.make frame flags)).map (fun e => (e.frame, e.flags)) = some (frame, flags) := by
  rw [Option.map_some, Entry.frame_make hframe, Entry.flags_make]

/-! ### Operations that stop -/

/-- Where all nodes are there, none is added. -/
private theorem descendCreating_of_descend {node leaf : Nat} {path : List (Fin 512)} (nodes : List Nat)
    (h : m.descend node path = some leaf) : descendCreating node path nodes m = .ok (some leaf, nodes) m := by
  induction path generalizing node with
  | nil =>
    rw [descend] at h
    rw [Option.some.inj h]
    rfl
  | cons i rest ih =>
    rw [descend] at h
    split at h
    next hvalid =>
      refine Run.Ensures.eq_ok ?_
      unfold descendCreating
      simp only [Run.ensures_bind, Run.ensures_get, if_pos hvalid]
      exact Run.ensures_of_eq_ok (ih h) ⟨rfl, rfl⟩
    · exact absurd h (by simp)

private theorem map_of_translate {page : Nat} {e : Entry} (h : t.translate m page = some e) (frame : Nat)
    (flags : EntryFlags) :
    (t.map page frame flags).Ensures m (fun _ _ => False) fun p m' => p = .alreadyMapped page ∧ m' = m := by
  obtain ⟨leaf, hleaf, rfl, hvalid⟩ := translate_eq_some.mp h
  unfold map
  rw [Run.ensures_bind]
  refine Run.ensures_of_eq_ok (descendCreating_of_descend t.nodes hleaf) ?_
  simp only [Run.ensures_bind, Run.ensures_get, if_pos hvalid, Run.ensures_crash, and_self]

private theorem unmap_of_translate_eq_none {page : Nat} (h : t.translate m page = none) :
    (t.unmap page).Ensures m (fun _ _ => False)
      fun p m' => (p = .unmapWithoutTable ∨ p = .unmapInvalid page) ∧ m' = m := by
  unfold unmap
  simp only [Run.ensures_bind, Run.ensures_get]
  obtain hleaf | ⟨node, hleaf, hinvalid⟩ := translate_eq_none.mp h
  · rw [hleaf]
    exact ⟨.inl rfl, rfl⟩
  · rw [hleaf]
    dsimp only
    rw [if_neg hinvalid]
    exact ⟨.inr rfl, rfl⟩

private theorem remap_of_translate_eq_none {page : Nat} (h : t.translate m page = none) (frame : Nat)
    (flags : EntryFlags) :
    (t.remap page frame flags).Ensures m (fun _ _ => False)
      fun p m' => (p = .remapWithoutTable ∨ p = .remapInvalid page) ∧ m' = m := by
  unfold remap
  simp only [Run.ensures_bind, Run.ensures_get]
  obtain hleaf | ⟨node, hleaf, hinvalid⟩ := translate_eq_none.mp h
  · rw [hleaf]
    exact ⟨.inl rfl, rfl⟩
  · rw [hleaf]
    dsimp only
    rw [if_neg hinvalid]
    exact ⟨.inr rfl, rfl⟩

namespace Represents

/-- An operation that is misplaced stops. -/
private theorem run_misplaced (h : t.Represents m done) {op : TableOp} (hallowed : op.Allowed)
    (hop : op.Misplaced done) : (op.run t).Ensures m (fun _ _ => False) fun _ m' => m' = m := by
  cases op with
  | map page frame flags =>
    have hsome : t.translate m page ≠ none := fun hnone => by
      have hlookup : (TableOp.lookup page done).isSome := hop
      rw [(h.lookup_eq_none hallowed.1).mpr hnone] at hlookup
      exact absurd hlookup (by simp)
    obtain ⟨e, he⟩ := Option.ne_none_iff_exists'.mp hsome
    exact (map_of_translate he frame flags).imp (fun _ _ => False.elim) fun _ _ hstop => hstop.2
  | remap page frame flags =>
    have hnone := (h.lookup_eq_none hallowed.1).mp hop
    unfold TableOp.run
    rw [Run.ensures_bind]
    exact (remap_of_translate_eq_none hnone frame flags).imp (fun _ _ => False.elim) fun _ _ hstop => hstop.2
  | unmap page =>
    have hnone := (h.lookup_eq_none hallowed).mp hop
    unfold TableOp.run
    rw [Run.ensures_bind]
    exact (unmap_of_translate_eq_none hnone).imp (fun _ _ => False.elim) fun _ _ hstop => hstop.2

/-! ### Operations that do not stop -/

/-- The entry of a page number has been replaced in a table whose nodes are the same. -/
private theorem of_setLeaf (h : t.Represents m done) (hext : Extends t t m m') (halloc : m'.allocator = m.allocator)
    {op : TableOp} {page : Nat} {entry : Option Entry}
    (htranslate : ∀ page', t.translate m' page' =
      if page' % pageLimit = page % pageLimit then entry else t.translate m page') (hpage : page < pageLimit)
    (hlookup : ∀ v, TableOp.lookup v (op :: done) =
      if page = v then entry.map (fun e => (e.frame, e.flags)) else TableOp.lookup v done) :
    t.Represents m' (op :: done) where
  tree := hext.tree
  booked := by
    obtain ⟨foreign, owned, held, hacc⟩ := h.booked
    exact ⟨foreign, owned, held, hacc.congr halloc hext.holders⟩
  lookup v hv := by
    rw [htranslate, hlookup, Nat.mod_eq_of_lt hv, Nat.mod_eq_of_lt hpage]
    by_cases heq : page = v
    · rw [if_pos heq.symm, if_pos heq]
    · rw [if_neg (Ne.symm heq), if_neg heq, h.lookup v hv]

/-- To map a page number that is not mapped leads from one finite map to the next, or to the same one. -/
private theorem map_step (h : t.Represents m done) {page frame : Nat} {flags : EntryFlags} (hpage : page < pageLimit)
    (hframe : frame < Entry.frameLimit) (hnone : t.translate m page = none) :
    (t.map page frame flags).Ensures m
      (fun r m' => r.1.Represents m' (if r.2 then .map page frame flags :: done else done) ∧
        (if r.2 then t.missing m page ≤ m.freeCount
          else m.freeCount < t.missing m page ∧ ∀ page', r.1.translate m' page' = t.translate m page'))
      fun _ _ => False := by
  obtain ⟨foreign, owned, held, hacc⟩ := h.booked
  refine ((map_spec h.tree hacc hnone flags).and (map_freeCount h.tree hacc page frame flags)).imp ?_ fun _ _ h => h.1
  rintro ⟨t', enough⟩ m' ⟨⟨hext, hacc', htranslate, -, -⟩, hcount⟩
  cases enough with
  | true =>
    refine ⟨⟨hext.tree, ⟨foreign, owned, held, hacc'⟩, fun v hv => ?_⟩, Nat.le.intro ((Nat.add_comm _ _).trans hcount)⟩
    show (t'.translate m' v).map _ = if page = v then _ else TableOp.lookup v done
    rw [htranslate, Nat.mod_eq_of_lt hv, Nat.mod_eq_of_lt hpage]
    by_cases heq : page = v
    · rw [if_pos ⟨rfl, heq.symm⟩, if_pos heq, map_make hframe]
    · rw [if_neg fun hv => heq hv.2.symm, if_neg heq, h.lookup v hv]
  | false =>
    have hsame : ∀ page', t'.translate m' page' = t.translate m page' := fun page' =>
      (htranslate page').trans (if_neg (by simp))
    exact ⟨⟨hext.tree, ⟨foreign, owned, held, hacc'⟩, fun v hv => by rw [hsame]; exact h.lookup v hv⟩, hcount, hsame⟩

/-- An operation that is not misplaced leads from one finite map to the next. Only to map a page number may fail for want
of frames, and then the map stays the same. -/
private theorem run_step (h : t.Represents m done) {op : TableOp} (hallowed : op.Allowed) (hop : ¬op.Misplaced done) :
    (op.run t).Ensures m
      (fun r m' => r.1.Represents m' (if r.2 then op :: done else done) ∧
        (r.2 = false ↔ ∃ page frame flags, op = .map page frame flags ∧ m.freeCount < t.missing m page) ∧
        (r.2 = false → ∀ page, r.1.translate m' page = t.translate m page))
      fun _ _ => False := by
  cases op with
  | map page frame flags =>
    have hnone : t.translate m page = none := by
      rw [← h.lookup_eq_none hallowed.1]
      exact Option.not_isSome_iff_eq_none.mp hop
    refine (map_step h hallowed.1 hallowed.2 hnone).mono ?_
    rintro ⟨t', enough⟩ m' ⟨hrepresents, hroom⟩
    cases enough with
    | true =>
      refine ⟨hrepresents, iff_of_false (by simp) ?_, by simp⟩
      rintro ⟨_, _, _, heq, hfew⟩
      obtain ⟨rfl, -, -⟩ := TableOp.map.inj heq
      exact absurd hfew (Nat.not_lt.mpr hroom)
    | false => exact ⟨hrepresents, iff_of_true rfl ⟨page, frame, flags, rfl, hroom.1⟩, fun _ => hroom.2⟩
  | remap page frame flags =>
    have hsome : (t.translate m page).isSome := by
      rw [Option.isSome_iff_ne_none]
      exact fun hnone => hop ((h.lookup_eq_none hallowed.1).mpr hnone)
    unfold TableOp.run
    rw [Run.ensures_bind]
    refine (remap_spec h.tree hsome frame flags).mono ?_
    rintro _ m' ⟨hext, halloc, htranslate⟩
    refine ⟨h.of_setLeaf hext halloc htranslate hallowed.1 fun v => ?_, by simp, by simp⟩
    rw [map_make hallowed.2]
    rfl
  | unmap page =>
    have hsome : (t.translate m page).isSome := by
      rw [Option.isSome_iff_ne_none]
      exact fun hnone => hop ((h.lookup_eq_none hallowed).mpr hnone)
    unfold TableOp.run
    rw [Run.ensures_bind]
    refine (unmap_spec h.tree hsome).mono ?_
    rintro _ m' ⟨hext, halloc, htranslate⟩
    exact ⟨h.of_setLeaf hext halloc htranslate hallowed fun v => rfl, by simp, by simp⟩

end Represents

/-! ### All operations -/

/-- Whatever is done to a page table, it is the finite map that the operations have left. -/
private theorem History.represents (h : History t m done) : t.Represents m done := by
  induction h with
  | create hbooks hcreate =>
    obtain ⟨htree, hacc, hnone, -⟩ := (create_spec hbooks).of_ok hcreate
    exact ⟨htree, ⟨_, _, _, hacc⟩, fun page _ => by rw [hnone]; rfl⟩
  | @step t t' m m' done enough h op hallowed hrun ih =>
    by_cases hop : op.Misplaced done
    · exact ((ih.run_misplaced hallowed hop).of_ok hrun).elim
    · exact ((ih.run_step hallowed hop).of_ok hrun).1
  | elsewhere h hnodes hbooks ih =>
    exact ⟨ih.tree.congr hnodes, hbooks, fun page hpage => by
      rw [ih.tree.translate_congr hnodes]
      exact ih.lookup page hpage⟩

/-- What there is to say of a page table on which some operations have succeeded, the latest of them first. -/
structure FiniteMap (t : PageTable) (m : PhysicalMemory) (done : List TableOp) : Prop where
  /-- At every page number there are the frame and the flags that the last operation on it has left. -/
  lookup : ∀ page < pageLimit, (t.translate m page).map (fun e => (e.frame, e.flags)) = TableOp.lookup page done
  /-- To map a page number stops exactly if it is mapped, and the other operations exactly if it is not. -/
  stops : ∀ op : TableOp, op.Allowed → ((∃ p m', op.run t m = .error p m') ↔ op.Misplaced done)
  /-- To map a page number fails exactly if there are fewer frames than nodes are missing on the way to it. -/
  fails : ∀ op : TableOp, op.Allowed → ¬op.Misplaced done → ((∃ t' m', op.run t m = .ok (t', false) m') ↔
    ∃ page frame flags, op = .map page frame flags ∧ m.freeCount < t.missing m page)
  /-- An operation that fails changes the entry of no page number. -/
  unchanged : ∀ op : TableOp, op.Allowed → ∀ t' m', op.run t m = .ok (t', false) m' →
    ∀ page, t'.translate m' page = t.translate m page
  /-- The nodes of the table are the frames that are reached from its root through valid entries of the upper levels. -/
  nodes : ∀ node, node ∈ t.nodes ↔ ∃ path, path.length ≤ 2 ∧ m.descend t.root path = some node
  /-- No node is reached along two paths. -/
  unique : ∀ path path' node, path.length ≤ 2 → path'.length ≤ 2 → m.descend t.root path = some node →
    m.descend t.root path' = some node → path = path'
  /-- No node is listed twice. -/
  nodup : t.nodes.Nodup
  /-- To release the table gives each node back once. -/
  release : t.release m =
    .ok () { m with allocator := { m.allocator with recycled := t.nodes.reverse ++ m.allocator.recycled } }

/-- Whatever is done to a page table, it is a finite map. -/
theorem History.finiteMap (h : History t m done) : FiniteMap t m done := by
  have hrep := h.represents
  obtain ⟨foreign, owned, held, hacc⟩ := hrep.booked
  refine ⟨hrep.lookup, fun op hallowed => ⟨?stops, ?stopped⟩, fun op hallowed hop => ⟨?fails, ?failed⟩,
    fun op hallowed t' m' hrun => ?unchanged, hrep.tree.mem_iff, fun _ _ _ => hrep.tree.unique,
    (List.nodup_append.mp hacc.nodup_owned).1, giveFrames_eq hacc⟩
  case stops =>
    rintro ⟨p, m', hstop⟩
    by_contra hop
    exact (hrep.run_step hallowed hop).of_error hstop
  case stopped =>
    intro hop
    cases hrun : op.run t m with
    | ok r m' => exact ((hrep.run_misplaced hallowed hop).of_ok hrun).elim
    | error p m' => exact ⟨p, m', rfl⟩
  case fails =>
    rintro ⟨t', m', hrun⟩
    obtain ⟨-, hfails, -⟩ := (hrep.run_step hallowed hop).of_ok hrun
    exact hfails.mp rfl
  case failed =>
    intro hfew
    cases hrun : op.run t m with
    | error p m' => exact ((hrep.run_step hallowed hop).of_error hrun).elim
    | ok r m' =>
      obtain ⟨-, hfails, -⟩ := (hrep.run_step hallowed hop).of_ok hrun
      have hr : r = (r.1, false) := Prod.ext rfl (hfails.mpr hfew)
      exact ⟨r.1, m', by rw [← hr]⟩
  case unchanged =>
    by_cases hop : op.Misplaced done
    · exact ((hrep.run_misplaced hallowed hop).of_ok hrun).elim
    · obtain ⟨-, -, hsame⟩ := (hrep.run_step hallowed hop).of_ok hrun
      exact hsame rfl

/-- Performs operations one after the other, unless one of them stops. The answer is what they lead to, and `done` is what
has succeeded before. -/
def perform (t : PageTable) (m : PhysicalMemory) (done : List TableOp) :
    List TableOp → Option (PageTable × PhysicalMemory × List TableOp)
  | [] => some (t, m, done)
  | op :: rest =>
    match op.run t m with
    | .ok (t', enough) m' => perform t' m' (if enough then op :: done else done) rest
    | .error _ _ => none

private theorem History.perform (h : History t m done) {ops : List TableOp} (hallowed : ∀ op ∈ ops, op.Allowed)
    (hrun : t.perform m done ops = some (t', m', done')) : History t' m' done' := by
  induction ops generalizing t m done with
  | nil =>
    obtain ⟨rfl, rfl, rfl⟩ : t = t' ∧ m = m' ∧ done = done' := by simpa [PageTable.perform] using hrun
    exact h
  | cons op rest ih =>
    obtain ⟨hop, hrest⟩ := List.forall_mem_cons.mp hallowed
    rw [PageTable.perform] at hrun
    split at hrun
    next t₁ enough m₁ hstep => exact ih (h.step op hop hstep) hrest hrun
    · exact absurd hrun (by simp)

/-- Performs operations on a new table in memory of `n` frames. -/
def performNew (n : Nat) (ops : List TableOp) : Option (PageTable × PhysicalMemory × List TableOp) :=
  match PageTable.create (.ofPages 0x80600 (0x80600 + n)) with
  | .ok (some t) m => t.perform m [] ops
  | _ => none

private theorem History.of_performNew {n : Nat} {ops : List TableOp} (hle : 0x80600 + n ≤ Entry.frameLimit)
    (hallowed : ∀ op ∈ ops, op.Allowed) (hrun : performNew n ops = some (t, m, done)) : History t m done := by
  unfold performNew at hrun
  split at hrun
  next t₀ m₀ hcreate =>
    have hbooks := accounts_ofPages (Nat.le_add_right 0x80600 n) hle ∅
    exact (History.create hbooks hcreate).perform hallowed hrun
  · exact absurd hrun (by simp)

/-- Of four frames one is left when the first page number is mapped. It becomes the middle node on the way to the second
one, and for the leaf there is none. -/
theorem finiteMap_fourFrames : ∃ t m,
    History t m [.remap 5 0x80701 .readable, .map 5 0x80700 .userData] ∧ t.nodes.length = 4 ∧
      FiniteMap t m [.remap 5 0x80701 .readable, .map 5 0x80700 .userData] := by
  have hrun : (performNew 4
      [.map 5 0x80700 .userData, .map 0x40005 0x80702 .userData, .remap 5 0x80701 .readable]).any (fun x =>
        x.1.nodes.length = 4 ∧ x.2.2 = [.remap 5 0x80701 .readable, .map 5 0x80700 .userData]) = true := by
    decide +kernel
  obtain ⟨⟨t, m, done⟩, hx, hchecks⟩ := (Option.any_eq_true _ _).mp hrun
  obtain ⟨hlength, rfl⟩ := of_decide_eq_true hchecks
  have h := History.of_performNew (by decide) (by decide) hx
  exact ⟨t, m, h, hlength, h.finiteMap⟩

end PageTable

end TrapKernel
