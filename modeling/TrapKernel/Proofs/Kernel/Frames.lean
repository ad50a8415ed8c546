import TrapKernel.Proofs.Kernel.Start
import Mathlib.Data.List.Dedup
import Mathlib.Data.Set.Card

/-!
# The frames of a running kernel

If nothing but the kernel uses memory, every frame is always one of three kinds: it is free, it is a node of the page table
of one process, or it holds the data of a page. What the processes need of the books of memory becomes a statement about
all the frames here.

* `PhysicalMemory.Accounts.conserves`: the frames of the allocator are those of the three kinds.
* `Kernel.Reachable.conserved`: in reachable states none is lost and none has two uses.
-/

namespace TrapKernel

/-- Whether a frame can still be handed out. -/
def FrameAllocator.IsFree (a : FrameAllocator) (p : Nat) : Prop := p ∈ a.recycled ∨ a.next ≤ p ∧ p < a.limit

namespace PhysicalMemory

/-- Whether the `n` frames from `start` on are those that are free, those of the list `nodes`, which has each of them
once, and those of the list `data`, which has a frame once for each of its holders. -/
structure Conserves (m : PhysicalMemory) (start n : Nat) (nodes data : List Nat) : Prop where
  total : ∃ free, m.allocator.available = .ok free ∧ free + nodes.length + data.dedup.length = n
  kinds : ∀ p, start ≤ p → p < start + n →
    m.allocator.IsFree p ∧ p ∉ nodes ∧ p ∉ data ∨ ¬m.allocator.IsFree p ∧ nodes.count p = 1 ∧ p ∉ data ∨
      ¬m.allocator.IsFree p ∧ p ∉ nodes ∧ p ∈ data
  within : ∀ p, m.allocator.IsFree p ∨ p ∈ nodes ∨ p ∈ data → start ≤ p ∧ p < start + n
  holders : ∀ p, start ≤ p → m.holderCount p = data.count p

variable {m : PhysicalMemory} {foreign : Surroundings} {nodes data : List Nat} {start n p : Nat}

/-- The frames that were ever handed out, one after the other. -/
private theorem Accounts.perm_range (h : m.Accounts foreign nodes data) :
    (m.allocator.recycled ++ (foreign.frames ++ (nodes ++ data.dedup))).Perm (List.range m.allocator.next) := by
  refine List.perm_iff_count.mpr fun p => ?_
  have honce := h.once p
  have hdedup : data.dedup.count p = min 1 (data.count p) := by
    rw [List.count_dedup]
    split
    next hp => have := List.count_pos_iff.mpr hp; omega
    next hp => rw [List.count_eq_zero.mpr hp]; rfl
  simp only [List.count_append, hdedup, List.nodup_range.count, List.mem_range]
  omega

/-- The number of frames that can still be taken. -/
theorem Accounts.available (h : m.Accounts foreign nodes data) :
    ∃ free, m.allocator.available = .ok free ∧
      free + foreign.frames.length + nodes.length + data.dedup.length = foreign.limit := by
  have hlength := h.perm_range.length_eq
  simp only [List.length_append, List.length_range] at hlength
  have hnext := h.next_le
  have hlimit := h.limit_eq
  exact ⟨_, if_pos hnext, by omega⟩

/-- A frame is free if it is in none of the lists. -/
theorem Accounts.isFree_iff (h : m.Accounts foreign nodes data) :
    m.allocator.IsFree p ↔ p < foreign.limit ∧ p ∉ foreign.frames ∧ p ∉ nodes ∧ p ∉ data := by
  have honce := h.once p
  have hnext := h.next_le
  have hlimit := h.limit_eq
  simp only [FrameAllocator.IsFree, ← List.count_pos_iff]
  split_ifs at honce <;> omega

/-- If all frames below `start` are used outside and none from there on, the frames of the allocator are conserved. -/
theorem Accounts.conserves (h : m.Accounts ⟨List.range start, start + n⟩ nodes data) :
    m.Conserves start n nodes data := by
  have hlimit : m.allocator.limit = start + n := h.limit_eq
  have hnext := h.next_le
  have hcount : ∀ p, m.allocator.recycled.count p + (if p < start then 1 else 0) + nodes.count p +
      min 1 (data.count p) = if p < m.allocator.next then 1 else 0 := fun p => by
    simpa only [List.nodup_range.count, List.mem_range] using h.once p
  obtain ⟨free, hfree, htotal⟩ := h.available
  simp only [List.length_range] at htotal
  -- a frame is in a list if its count is positive
  refine ⟨⟨free, hfree, by omega⟩, fun p hle hlt => ?_, fun p hp => ?_, fun p hle => ?_⟩
  · have hp := hcount p
    simp only [FrameAllocator.IsFree, ← List.count_pos_iff, hlimit]
    split_ifs at hp <;> omega
  · have hcount := hcount p
    simp only [FrameAllocator.IsFree, ← List.count_pos_iff, hlimit] at hp
    split_ifs at hcount <;> omega
  · exact h.holders p fun hmem => by have := List.mem_range.mp hmem; omega

end PhysicalMemory

namespace ProcessTable

variable {t : ProcessTable} {s : Slot} {page p : Nat}

/-- The frames of the nodes of all page tables. -/
def nodes (t : ProcessTable) : List Nat := t.regions.flatMap fun x => x.table.nodes

/-- The pages that the process in a slot holds: the slot, the page number and the frame. -/
def entriesAt (t : ProcessTable) (s : Slot) : List (Slot × Nat × Nat) :=
  match t.get s with
  | none => []
  | some q => q.memory.space.pages.toList.map fun x => (s, x)

/-- The pages that the processes hold. -/
def entries (t : ProcessTable) : List (Slot × Nat × Nat) := Slot.all.flatMap t.entriesAt

/-- The frames of the pages that the processes hold, each once for every page. -/
def dataFrames (t : ProcessTable) : List Nat := t.entries.map fun e => e.2.2

private theorem mem_nodes : p ∈ t.nodes ↔ ∃ s q, t.get s = some q ∧ p ∈ q.memory.space.table.nodes := by
  simp only [nodes, regions, List.mem_flatMap, mem_regionsAt]
  constructor
  · rintro ⟨_, ⟨s, -, q, hq, rfl⟩, hp⟩
    exact ⟨s, q, hq, hp⟩
  · rintro ⟨s, q, hq, hp⟩
    exact ⟨_, ⟨s, Slot.mem_all s, q, hq, rfl⟩, hp⟩

private theorem mem_entriesAt {r : Slot} :
    (r, page, p) ∈ t.entriesAt s ↔ r = s ∧ ∃ q, t.get s = some q ∧ q.memory.space.pages[page]? = some p := by
  unfold entriesAt
  cases t.get s with
  | none => simp
  | some q =>
    simp only [List.mem_map, Prod.mk.injEq, Option.some.injEq, exists_eq_left', ← Std.TreeMap.mem_toList_iff_getElem?_eq_some]
    constructor
    · rintro ⟨x, hx, rfl, rfl⟩
      exact ⟨rfl, hx⟩
    · rintro ⟨rfl, hx⟩
      exact ⟨_, hx, rfl, rfl⟩

private theorem mem_entries :
    (s, page, p) ∈ t.entries ↔ ∃ q, t.get s = some q ∧ q.memory.space.pages[page]? = some p := by
  simp only [entries, List.mem_flatMap, mem_entriesAt]
  exact ⟨fun ⟨_, _, rfl, h⟩ => h, fun h => ⟨s, Slot.mem_all s, rfl, h⟩⟩

/-- No page is among the entries twice. -/
private theorem nodup_entries (t : ProcessTable) : t.entries.Nodup := by
  refine List.nodup_flatMap.mpr ⟨fun s _ => ?_, ?_⟩
  · unfold entriesAt
    split
    · exact List.nodup_nil
    next q _ =>
      have hpages : q.memory.space.pages.toList.Nodup := Std.TreeMap.distinct_keys_toList.imp fun hne heq =>
        hne (by rw [heq]; exact Std.ReflCmp.compare_self)
      exact hpages.map fun x y hxy => (Prod.mk.inj hxy).2
  · refine (List.nodup_finRange _).imp fun {s s'} hne => ?_
    rintro ⟨r, page, p⟩ hs hs'
    exact hne ((mem_entriesAt.mp hs).1.symm.trans (mem_entriesAt.mp hs').1)

private theorem mem_dataFrames :
    p ∈ t.dataFrames ↔ ∃ s q, ∃ page : Nat, t.get s = some q ∧ q.memory.space.pages[page]? = some p := by
  rw [dataFrames, List.mem_map]
  constructor
  · rintro ⟨⟨s, page, p⟩, he, rfl⟩
    obtain ⟨q, hq, hp⟩ := mem_entries.mp he
    exact ⟨s, q, page, hq, hp⟩
  · rintro ⟨s, q, page, hq, hp⟩
    exact ⟨(s, page, p), mem_entries.mpr ⟨q, hq, hp⟩, rfl⟩

private theorem dataFrames_eq (t : ProcessTable) : t.dataFrames = t.regions.flatMap Region.frames := by
  rw [dataFrames, entries, regions, regionsAt, List.map_flatMap]
  induction Slot.all with
  | nil => rfl
  | cons s rest ih =>
    rw [List.flatMap_cons, List.filterMap_cons, ih, entriesAt]
    cases t.get s with
    | none => rfl
    | some q =>
      dsimp only
      rw [List.map_map]
      rfl

/-- The pages that hold a frame, each with the slot of its process. -/
def holdersOf (t : ProcessTable) (p : Nat) : Set (Slot × Nat) :=
  {x | ∃ q, t.get x.1 = some q ∧ q.memory.space.pages[x.2]? = some p}

/-- A frame is among the data frames once for every page that holds it. -/
private theorem count_dataFrames (t : ProcessTable) (p : Nat) : t.dataFrames.count p = (t.holdersOf p).ncard := by
  have hnodup : ((t.entries.filter fun e => e.2.2 = p).map fun e => (e.1, e.2.1)).Nodup := by
    refine (t.nodup_entries.filter _).map_on fun x hx y hy hxy => ?_
    have hp : x.2.2 = y.2.2 := by simp_all
    obtain ⟨hslot, hpage⟩ := Prod.mk.inj hxy
    exact Prod.ext hslot (Prod.ext hpage hp)
  have hset : t.holdersOf p = ↑((t.entries.filter fun e => e.2.2 = p).map fun e => (e.1, e.2.1)).toFinset := by
    ext ⟨s, page⟩
    simp only [holdersOf, Set.mem_ofPred_eq, ← mem_entries]
    simp
  rw [hset, Set.ncard_coe_finset, List.toFinset_card_of_nodup hnodup, List.length_map, dataFrames, List.count_eq_countP,
    List.countP_map, List.countP_eq_length_filter]
  rfl

end ProcessTable

namespace Kernel

open ProcessTable

/-- Whether no frame of the `n` ones from `start` on is lost, and none has two uses. -/
structure Conserved {σ φ : Type} [FileSystem σ] [Firmware φ] (start n : Nat) (k : Kernel σ φ) : Prop where
  /-- The free frames, the nodes of all page tables and the data frames are all frames, and no frame is two of these. -/
  frames : k.memory.Conserves start n k.table.nodes k.table.dataFrames
  /-- A data frame has as many holders as there are pages with it. -/
  holders : ∀ p ∈ k.table.dataFrames, k.memory.holderCount p = (k.table.holdersOf p).ncard
  /-- No trap stops the kernel because a frame is given back that is not handed out. -/
  given : ∀ f p k', trapWith f k ≠ .error (.frameNotAllocated p) k'
  /-- When the first process is alone, all frames but its own are free. -/
  alone : (∀ s, s ≠ .init → k.table.get s = none) → ∃ q, k.table.get .init = some q ∧
    ∀ p, start ≤ p → p < start + n →
      (k.memory.allocator.IsFree p ↔ p ∉ q.memory.space.table.nodes ∧ ∀ page : Nat, q.memory.space.pages[page]? ≠ some p)

variable {σ φ : Type} [FileSystem σ] [Firmware φ] {entry stackPointer heapStart : UInt64} {memory : PhysicalMemory}
  {files : σ} {firmware : φ} {logLimit : Option LogLevel} {k₀ k : Kernel σ φ} {start n : Nat}

omit [FileSystem σ] [Firmware φ] in
/-- If all frames are of the three kinds and one process is alone, the frames that are not its own are free. -/
private theorem isFree_of_alone (hframes : k.memory.Conserves start n k.table.nodes k.table.dataFrames) {s : Slot}
    {q : Process AddressSpace} (hq : k.table.get s = some q) (halone : ∀ s', s' ≠ s → k.table.get s' = none) {p : Nat}
    (hle : start ≤ p) (hlt : p < start + n) : k.memory.allocator.IsFree p ↔
      p ∉ q.memory.space.table.nodes ∧ ∀ page : Nat, q.memory.space.pages[page]? ≠ some p := by
  have honly : ∀ s' r, k.table.get s' = some r → r = q := by
    intro s' r hr
    by_cases hs : s' = s
    · subst hs
      exact Option.some.inj (hr.symm.trans hq)
    · exact absurd (hr.symm.trans (halone s' hs)) (by simp)
  have hnodes : p ∈ k.table.nodes ↔ p ∈ q.memory.space.table.nodes := by
    rw [mem_nodes]
    constructor
    · rintro ⟨s', r, hr, hp⟩
      exact honly s' r hr ▸ hp
    · exact fun hp => ⟨s, q, hq, hp⟩
  have hdata : p ∈ k.table.dataFrames ↔ ∃ page : Nat, q.memory.space.pages[page]? = some p := by
    rw [mem_dataFrames]
    constructor
    · rintro ⟨s', r, page, hr, hp⟩
      exact ⟨page, honly s' r hr ▸ hp⟩
    · rintro ⟨page, hp⟩
      exact ⟨s, q, page, hq, hp⟩
  rw [← hnodes, ← not_exists, ← hdata]
  rcases hframes.kinds p hle hlt with ⟨hfree, hp, hp'⟩ | ⟨hused, hp, -⟩ | ⟨hused, -, hp⟩
  · exact iff_of_true hfree ⟨hp, hp'⟩
  · exact iff_of_false hused fun h => h.1 (List.count_pos_iff.mp (by omega))
  · exact iff_of_false hused fun h => h.2 hp

/-- If the allocator has `n` free frames at the start and no frame is held, none of them is ever lost, and none has two
uses. The numbers of frames have 44 bits, as many as an entry of a page table has room for. -/
theorem Reachable.conserved (hbits : start + n ≤ Entry.frameLimit) (hfree : memory.allocator = .ofPages start (start + n))
    (hholders : memory.holders = ∅)
    (hboot : boot entry stackPointer heapStart memory files firmware logLimit = .ok k₀) (h : Reachable k₀ k) :
    Conserved start n k := by
  -- the frames below `start` are in use for good, and all others are free
  have hmemory : memory.Accounts ⟨List.range start, start + n⟩ [] [] := by
    obtain ⟨allocator, contents, holders⟩ := memory
    subst hfree hholders
    exact PhysicalMemory.accounts_ofPages (Nat.le_add_right _ _) hbits contents
  have hsound := h.sound (boot_spec hmemory hboot).1
  have haccounts := hsound.regions.accounts
  rw [← dataFrames_eq] at haccounts
  have hframes : k.memory.Conserves start n k.table.nodes k.table.dataFrames := haccounts.conserves
  refine ⟨hframes, fun p hp => ?holders, fun f p k' hk => ?given, fun halone => ?alone⟩
  case holders =>
    rw [← count_dataFrames]
    exact hframes.holders p (hframes.within p (.inr (.inr hp))).1
  case given => exact ((trapWith_agrees hsound f False.elim).of_error hk) ⟨p, rfl⟩
  case alone =>
    obtain ⟨q, hq, -⟩ := (h.table_forest hboot).1.init
    exact ⟨q, hq, fun p hle hlt => isFree_of_alone hframes hq halone hle hlt⟩

/-- The first process has forked a second one. -/
theorem conserved_fork : ∃ k₀ k : Kernel EmptyFiles Bench.BenchFirmware,
    benchStart = .ok k₀ ∧ Reachable k₀ k ∧ k.table.children .init = [1] ∧ Conserved 0x80600 256 k := by
  obtain ⟨k₀, k, hk₀, hk, hchildren⟩ := exists_of_benchRun
    (show benchRun [callFrame .fork 0 0 0] (fun k => k.table.children .init = [1]) = true by decide +kernel)
  exact ⟨k₀, k, hk₀, hk, by simpa using hchildren, hk.conserved (by decide) rfl rfl hk₀⟩

end Kernel

end TrapKernel
