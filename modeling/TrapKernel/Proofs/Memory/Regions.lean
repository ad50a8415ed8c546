import TrapKernel.Memory.AddressSpace
import TrapKernel.Proofs.Memory.PageTable
import Mathlib.Data.List.Nodup

/-!
# Regions

A region is a page table with a list of the pages that are entered in it. Regions share data frames, but a frame to
which an entry gives write permission has one holder only. `Region.Sound` says so of one region among others, of which
only the frames matter, and `Sound` of all regions of a system.

* `Sound.step`: what is done to one region leaves the others sound and does not change what they see.
-/

namespace TrapKernel

open PhysicalMemory

/-- A page table and the pages that are entered in it, by page number. -/
structure Region where
  table : PageTable
  pages : List (Nat × Nat)

/-- An address space as a region. -/
def AddressSpace.region (s : AddressSpace) : Region := ⟨s.table, s.pages.toList⟩

namespace Region

variable {x x' : Region} {m m' : PhysicalMemory} {foreign : Surroundings} {owned held : List Nat}

/-- The data frames of a region. -/
def frames (x : Region) : List Nat := x.pages.map Prod.snd

/-- Whether the page table leads to the pages of the region and to nothing else. -/
structure Valid (x : Region) (m : PhysicalMemory) : Prop where
  tree : x.table.Tree m
  nodup : (x.pages.map Prod.fst).Nodup
  lt_limit : ∀ page p, (page, p) ∈ x.pages → page < pageLimit
  mem_iff : ∀ page p, page < pageLimit →
    ((page, p) ∈ x.pages ↔ ∃ e, x.table.translate m page = some e ∧ e.frame = p)

/-- Whether a region is sound in memory where other frames are owned and held besides its own. -/
structure Sound (x : Region) (m : PhysicalMemory) (foreign : Surroundings) (owned held : List Nat) : Prop where
  accounts : m.Accounts foreign (x.table.nodes ++ owned) (x.frames ++ held)
  valid : x.Valid m
  exclusive : ∀ page e, x.table.translate m page = some e → e.isWritable = true → m.holderCount e.frame = 1

/-- Whether nothing has happened to frames that are owned or held by others. -/
structure Spares (m m' : PhysicalMemory) (owned held : List Nat) : Prop where
  frame : ∀ p, p ∈ owned ∨ p ∈ held → m'.frame p = m.frame p
  single : ∀ p ∈ held, m.holderCount p = 1 → m'.holderCount p = 1

theorem Spares.refl (m : PhysicalMemory) (owned held : List Nat) : Spares m m owned held :=
  ⟨fun _ _ => rfl, fun _ _ h => h⟩

theorem Spares.trans {m'' : PhysicalMemory} (h : Spares m m' owned held) (h' : Spares m' m'' owned held) :
    Spares m m'' owned held where
  frame p hp := (h'.frame p hp).trans (h.frame p hp)
  single p hp hone := h'.single p hp (h.single p hp hone)

theorem mem_frames {p : Nat} : p ∈ x.frames ↔ ∃ page, (page, p) ∈ x.pages := by
  simp [frames]

theorem Valid.perm {pages : List (Nat × Nat)} (h : x.Valid m) (hperm : x.pages.Perm pages) :
    Valid { x with pages } m where
  tree := h.tree
  nodup := (hperm.map Prod.fst).nodup h.nodup
  lt_limit page p hp := h.lt_limit page p (hperm.mem_iff.mpr hp)
  mem_iff page p hlt := hperm.mem_iff.symm.trans (h.mem_iff page p hlt)

theorem Sound.perm {pages : List (Nat × Nat)} (h : x.Sound m foreign owned held) (hperm : x.pages.Perm pages) :
    Sound { x with pages } m foreign owned held where
  accounts := h.accounts.perm (.refl _) ((hperm.map Prod.snd).append_right held)
  valid := h.valid.perm hperm
  exclusive := h.exclusive

/-- The page number under which the walk sees a page. -/
theorem Valid.mem_of_translate (h : x.Valid m) {page : Nat} {e : Entry} (he : x.table.translate m page = some e) :
    (page % pageLimit, e.frame) ∈ x.pages := by
  rw [h.mem_iff _ _ (Nat.mod_lt _ (by decide)), ← PageTable.translate_mod (Nat.mod_mod _ _).symm]
  exact ⟨e, he, rfl⟩

theorem Valid.translate_of_mem (h : x.Valid m) {page p : Nat} (hp : (page, p) ∈ x.pages) :
    ∃ e, x.table.translate m page = some e ∧ e.frame = p :=
  (h.mem_iff page p (h.lt_limit page p hp)).mp hp

theorem Valid.congr (h : x.Valid m) (hframe : ∀ p ∈ x.table.nodes, m'.frame p = m.frame p) : x.Valid m' where
  tree := h.tree.congr hframe
  nodup := h.nodup
  lt_limit := h.lt_limit
  mem_iff page p hlt := by rw [h.mem_iff page p hlt, h.tree.translate_congr hframe]

/-- A frame of the region that has a single holder is not held by others. -/
theorem Sound.not_held (h : x.Sound m foreign owned held) {p : Nat} (hp : p ∈ x.frames) (hone : m.holderCount p = 1) :
    p ∉ held := by
  have hcount := h.accounts.holderCount_eq (List.mem_append_left held hp)
  rw [hone, List.count_append] at hcount
  have hpos := List.count_pos_iff.mpr hp
  exact List.count_eq_zero.mp (by omega)

/-- A frame of the region that has a single holder is that of a single page. -/
theorem Sound.page_eq (h : x.Sound m foreign owned held) {page page' p : Nat} (hone : m.holderCount p = 1)
    (hp : (page, p) ∈ x.pages) (hp' : (page', p) ∈ x.pages) : page' = page := by
  by_contra hne
  have hmem : p ∈ x.frames := List.mem_map_of_mem (f := Prod.snd) hp
  have hcount := h.accounts.holderCount_eq (List.mem_append_left held hmem)
  have hrest : (page', p) ∈ x.pages.erase (page, p) := (List.mem_erase_of_ne (by simpa using hne)).mpr hp'
  have hpos : 0 < ((x.pages.erase (page, p)).map Prod.snd).count p :=
    List.count_pos_iff.mpr (List.mem_map_of_mem (f := Prod.snd) hrest)
  rw [hone, List.count_append, frames, ((List.perm_cons_erase hp).map Prod.snd).count_eq, List.map_cons,
    List.count_cons_self] at hcount
  omega

/-- Frames that get new holders in the region have had some there before, or else no one holds them. -/
theorem single_of_accounts {o o' f f' : List Nat} (h : m.Accounts foreign o (f ++ held))
    (h' : m'.Accounts foreign o' (f' ++ held)) (hsub : ∀ p ∈ f', p ∈ f ∨ p ∉ held) :
    ∀ p ∈ held, m.holderCount p = 1 → m'.holderCount p = 1 := by
  intro p hp hone
  have hcount := h.holderCount_eq (List.mem_append_right f hp)
  rw [hone, List.count_append] at hcount
  have hpos := List.count_pos_iff.mpr hp
  have hnew : p ∉ f' := fun hmem => by
    rcases hsub p hmem with hf | hheld
    · have := List.count_pos_iff.mpr hf
      omega
    · exact hheld hp
  rw [h'.holderCount_eq (List.mem_append_right f' hp), List.count_append, List.count_eq_zero.mpr hnew]
  omega

end Region

/-! ### Systems of regions -/

/-- Whether some regions are all the system has, and all of them are sound. -/
structure Sound (m : PhysicalMemory) (foreign : Surroundings) (regions : List Region) : Prop where
  accounts : m.Accounts foreign (regions.flatMap fun x => x.table.nodes) (regions.flatMap Region.frames)
  valid : ∀ x ∈ regions, x.Valid m
  exclusive : ∀ x ∈ regions, ∀ page e, x.table.translate m page = some e → e.isWritable = true →
    m.holderCount e.frame = 1

namespace Sound

variable {m m' : PhysicalMemory} {foreign : Surroundings} {regions regions' rest : List Region} {x x' : Region}

theorem perm (h : Sound m foreign regions) (hperm : regions.Perm regions') : Sound m foreign regions' where
  accounts := h.accounts.perm (hperm.flatMap_right _) (hperm.flatMap_right _)
  valid x hx := h.valid x (hperm.mem_iff.mpr hx)
  exclusive x hx := h.exclusive x (hperm.mem_iff.mpr hx)

theorem head (h : Sound m foreign (x :: rest)) :
    x.Sound m foreign (rest.flatMap fun x => x.table.nodes) (rest.flatMap Region.frames) where
  accounts := h.accounts
  valid := h.valid x List.mem_cons_self
  exclusive := h.exclusive x List.mem_cons_self

private theorem node_mem {y : Region} (hy : y ∈ rest) {p : Nat} (hp : p ∈ y.table.nodes) :
    p ∈ rest.flatMap fun x => x.table.nodes :=
  List.mem_flatMap.mpr ⟨y, hy, hp⟩

private theorem frame_mem {y : Region} (hy : y ∈ rest) {p : Nat} (hp : p ∈ y.frames) : p ∈ rest.flatMap Region.frames :=
  List.mem_flatMap.mpr ⟨y, hy, hp⟩

/-- What other regions see of memory has not changed. -/
structure Unchanged (m m' : PhysicalMemory) (rest : List Region) : Prop where
  translate : ∀ y ∈ rest, ∀ page, y.table.translate m' page = y.table.translate m page
  frame : ∀ y ∈ rest, ∀ p ∈ y.frames, m'.frame p = m.frame p

theorem unchanged (h : ∀ y ∈ rest, y.Valid m)
    (hs : Region.Spares m m' (rest.flatMap fun x => x.table.nodes) (rest.flatMap Region.frames)) :
    Unchanged m m' rest where
  translate y hy page := (h y hy).tree.translate_congr (fun p hp => hs.frame p (.inl (node_mem hy hp))) page
  frame _ hy p hp := hs.frame p (.inr (frame_mem hy hp))

/-- The other regions stay sound. -/
theorem rest_of_spares (hvalid : ∀ y ∈ rest, y.Valid m)
    (hexclusive : ∀ y ∈ rest, ∀ page e, y.table.translate m page = some e → e.isWritable = true →
      m.holderCount e.frame = 1)
    (hs : Region.Spares m m' (rest.flatMap fun x => x.table.nodes) (rest.flatMap Region.frames)) :
    (∀ y ∈ rest, y.Valid m') ∧ ∀ y ∈ rest, ∀ page e, y.table.translate m' page = some e → e.isWritable = true →
      m'.holderCount e.frame = 1 := by
  refine ⟨fun y hy => (hvalid y hy).congr fun p hp => hs.frame p (.inl (node_mem hy hp)), fun y hy page e he hw => ?_⟩
  rw [(unchanged hvalid hs).translate y hy] at he
  refine hs.single _ (frame_mem hy ?_) (hexclusive y hy page e he hw)
  exact Region.mem_frames.mpr ⟨_, (hvalid y hy).mem_of_translate he⟩

/-- If a region is sound and the others have been spared, the system is sound with it. -/
private theorem cons_of_spares (hvalid : ∀ y ∈ rest, y.Valid m)
    (hexclusive : ∀ y ∈ rest, ∀ page e, y.table.translate m page = some e → e.isWritable = true →
      m.holderCount e.frame = 1)
    (hx : x.Sound m' foreign (rest.flatMap fun x => x.table.nodes) (rest.flatMap Region.frames))
    (hs : Region.Spares m m' (rest.flatMap fun x => x.table.nodes) (rest.flatMap Region.frames)) :
    Sound m' foreign (x :: rest) := by
  obtain ⟨hvalid, hexclusive⟩ := rest_of_spares hvalid hexclusive hs
  exact ⟨hx.accounts, List.forall_mem_cons.mpr ⟨hx.valid, hvalid⟩, List.forall_mem_cons.mpr ⟨hx.exclusive, hexclusive⟩⟩

/-- If a region stays sound and spares the others, the system stays sound. -/
theorem step (h : Sound m foreign (x :: rest))
    (hx : x'.Sound m' foreign (rest.flatMap fun x => x.table.nodes) (rest.flatMap Region.frames))
    (hs : Region.Spares m m' (rest.flatMap fun x => x.table.nodes) (rest.flatMap Region.frames)) :
    Sound m' foreign (x' :: rest) :=
  cons_of_spares (fun y hy => h.valid y (List.mem_cons_of_mem x hy))
    (fun y hy => h.exclusive y (List.mem_cons_of_mem x hy)) hx hs

/-- If a region is added and spares the others, the system stays sound. -/
theorem add (h : Sound m foreign rest)
    (hx : x.Sound m' foreign (rest.flatMap fun x => x.table.nodes) (rest.flatMap Region.frames))
    (hs : Region.Spares m m' (rest.flatMap fun x => x.table.nodes) (rest.flatMap Region.frames)) :
    Sound m' foreign (x :: rest) :=
  cons_of_spares h.valid h.exclusive hx hs

/-- If all that a region owned and held has been given back, the rest of the system is sound. -/
theorem drop (h : Sound m foreign (x :: rest))
    (hacc : m'.Accounts foreign (rest.flatMap fun x => x.table.nodes) (rest.flatMap Region.frames))
    (hs : Region.Spares m m' (rest.flatMap fun x => x.table.nodes) (rest.flatMap Region.frames)) :
    Sound m' foreign rest := by
  obtain ⟨hvalid, hexclusive⟩ := rest_of_spares (fun y hy => h.valid y (List.mem_cons_of_mem x hy))
    (fun y hy => h.exclusive y (List.mem_cons_of_mem x hy)) hs
  exact ⟨hacc, hvalid, hexclusive⟩

/-- A region has been split from another one, and the other regions have been spared. -/
theorem split {y : Region} (h : Sound m foreign (x :: rest))
    (hx : x'.Sound m' foreign (y.table.nodes ++ rest.flatMap fun x => x.table.nodes)
      (y.frames ++ rest.flatMap Region.frames))
    (hy : y.Sound m' foreign (x'.table.nodes ++ rest.flatMap fun x => x.table.nodes)
      (x'.frames ++ rest.flatMap Region.frames))
    (hs : Region.Spares m m' (rest.flatMap fun x => x.table.nodes) (rest.flatMap Region.frames)) :
    Sound m' foreign (y :: x' :: rest) := by
  obtain ⟨hvalid, hexclusive⟩ := rest_of_spares (fun y hy => h.valid y (List.mem_cons_of_mem x hy))
    (fun y hy => h.exclusive y (List.mem_cons_of_mem x hy)) hs
  exact ⟨hy.accounts, List.forall_mem_cons.mpr ⟨hy.valid, List.forall_mem_cons.mpr ⟨hx.valid, hvalid⟩⟩,
    List.forall_mem_cons.mpr ⟨hy.exclusive, List.forall_mem_cons.mpr ⟨hx.exclusive, hexclusive⟩⟩⟩

end Sound

end TrapKernel
