import TrapKernel.Proofs.Memory.PageTable
import Mathlib.Data.Set.Card

/-!
# The size of a page table

A table that has been filled page by page has no nodes but its root and those on the way to its pages. Then the number
of nodes depends on the pages only: pages with the same upper nine bits have the same middle node, and pages with the
same upper eighteen bits the same leaf.

* `PageTable.LeadsTo`: all nodes are on the way to some pages.
* `PageTable.Tree.length_nodes`: the number of nodes of a table that leads to its own pages only.
-/

namespace TrapKernel

namespace PageTable

open PhysicalMemory

variable {t t' : PageTable} {m m' : PhysicalMemory} {pages pages' : Set Nat}

/-- Whether all nodes of a table but the root are on the way to some pages. -/
def LeadsTo (t : PageTable) (m : PhysicalMemory) (pages : Set Nat) : Prop :=
  ∀ path, path ≠ [] → path.length ≤ 2 → (m.descend t.root path).isSome → ∃ page ∈ pages, path <+: upperPath page

/-- The page numbers that a table leads to, of those that it can tell apart. -/
def mapped (t : PageTable) (m : PhysicalMemory) : Set Nat := {page | page < pageLimit ∧ (t.translate m page).isSome}

theorem LeadsTo.congr (h : t.LeadsTo m pages) (htree : t.Tree m) (hframe : ∀ p ∈ t.nodes, m'.frame p = m.frame p) :
    t.LeadsTo m' pages := fun path hne hlen hsome => by
  rw [htree.descend_eq hframe hlen] at hsome
  exact h path hne hlen hsome

theorem LeadsTo.mono (h : t.LeadsTo m pages) (hsub : pages ⊆ pages') : t.LeadsTo m pages' :=
  fun path hne hlen hsome => (h path hne hlen hsome).imp fun _ hpage => ⟨hsub hpage.1, hpage.2⟩

/-- Nodes have been added on the way to one of the pages. -/
theorem LeadsTo.grow (h : t.LeadsTo m pages) {page : Nat} (hpage : page ∈ pages)
    (hpaths : ∀ path, path.length ≤ 2 → (m'.descend t'.root path).isSome →
      (m.descend t.root path).isSome ∨ path <+: upperPath page) : t'.LeadsTo m' pages :=
  fun path hne hlen hsome => (hpaths path hlen hsome).elim (h path hne hlen) fun hway => ⟨page, hpage, hway⟩

namespace Tree

/-- The paths along which the nodes of a table are reached. -/
private def paths (t : PageTable) (m : PhysicalMemory) : Set (List (Fin 512)) :=
  {path | path.length ≤ 2 ∧ (m.descend t.root path).isSome}

/-- There are as many nodes as paths to them. -/
private theorem length_nodes_eq_ncard (h : t.Tree m) (hnodup : t.nodes.Nodup) : t.nodes.length = (paths t m).ncard := by
  have himage : (fun path => (m.descend t.root path).getD 0) '' paths t m = ↑t.nodes.toFinset := by
    ext node
    rw [List.coe_toFinset]
    refine Iff.trans ?_ (h.mem_iff node).symm
    constructor
    · rintro ⟨path, ⟨hlen, hsome⟩, rfl⟩
      obtain ⟨node, hnode⟩ := Option.isSome_iff_exists.mp hsome
      exact ⟨path, hlen, by simp only [hnode, Option.getD_some]⟩
    · rintro ⟨path, hlen, hnode⟩
      exact ⟨path, ⟨hlen, by rw [hnode, Option.isSome_some]⟩, by simp only [hnode, Option.getD_some]⟩
  have hinj : Set.InjOn (fun path => (m.descend t.root path).getD 0) (paths t m) := by
    rintro path ⟨hlen, hsome⟩ path' ⟨hlen', hsome'⟩ heq
    obtain ⟨node, hnode⟩ := Option.isSome_iff_exists.mp hsome
    obtain ⟨node', hnode'⟩ := Option.isSome_iff_exists.mp hsome'
    simp only [hnode, hnode', Option.getD_some] at heq
    exact h.unique hlen hlen' hnode (heq ▸ hnode')
  rw [← List.toFinset_card_of_nodup hnodup, ← Set.ncard_coe_finset, ← himage, hinj.ncard_image]

/-- The paths are the empty one and those to the middle nodes and to the leaves of the pages. -/
private theorem paths_eq (hleads : t.LeadsTo m (t.mapped m)) :
    paths t m = {[]} ∪ ((fun page => [rootIndex page]) '' t.mapped m ∪ upperPath '' t.mapped m) := by
  have hleaf : ∀ page ∈ t.mapped m, (m.descend t.root (upperPath page)).isSome := by
    rintro page ⟨-, hsome⟩
    obtain ⟨e, he⟩ := Option.isSome_iff_exists.mp hsome
    obtain ⟨node, hnode, -⟩ := translate_eq_some.mp he
    exact Option.isSome_iff_exists.mpr ⟨node, hnode⟩
  have hmiddle : ∀ page ∈ t.mapped m, (m.descend t.root [rootIndex page]).isSome := by
    intro page hpage
    have hsome := hleaf page hpage
    rw [show upperPath page = [rootIndex page] ++ [middleIndex page] from rfl, descend_append] at hsome
    exact Option.isSome_of_isSome_bind hsome
  ext path
  constructor
  · rintro ⟨hlen, hsome⟩
    by_cases hne : path = []
    · exact .inl hne
    obtain ⟨page, hpage, hway⟩ := hleads path hne hlen hsome
    refine .inr ?_
    match path, hne, hlen, hway with
    | [i], _, _, hway =>
      rw [upperPath, List.cons_prefix_cons] at hway
      exact .inl ⟨page, hpage, by rw [hway.1]⟩
    | [i, j], _, _, hway => exact .inr ⟨page, hpage, (hway.eq_of_length rfl).symm⟩
  · rintro (rfl | ⟨page, hpage, rfl⟩ | ⟨page, hpage, rfl⟩)
    · exact ⟨Nat.zero_le 2, rfl⟩
    · exact ⟨by simp, hmiddle page hpage⟩
    · exact ⟨length_upperPath_le page, hleaf page hpage⟩

private theorem ncard_middle :
    ((fun page => [rootIndex page]) '' t.mapped m).ncard = ((· / 2 ^ 18) '' t.mapped m).ncard := by
  have himage : (fun page => [rootIndex page]) '' t.mapped m = (fun i => [Fin.ofNat 512 i]) '' ((· / 2 ^ 18) '' t.mapped m) := by
    rw [Set.image_image]
    rfl
  rw [himage]
  refine Set.InjOn.ncard_image ?_
  rintro _ ⟨page, ⟨hlt, -⟩, rfl⟩ _ ⟨page', ⟨hlt', -⟩, rfl⟩ heq
  simp only [List.cons.injEq, and_true, Fin.ext_iff, Fin.ofNat, pageLimit] at heq hlt hlt' ⊢
  omega

private theorem ncard_leaves : (upperPath '' t.mapped m).ncard = ((· / 2 ^ 9) '' t.mapped m).ncard := by
  have himage : upperPath '' t.mapped m =
      (fun i => [Fin.ofNat 512 (i / 512), Fin.ofNat 512 i]) '' ((· / 2 ^ 9) '' t.mapped m) := by
    rw [Set.image_image]
    refine Set.image_congr fun page _ => ?_
    simp only [upperPath, rootIndex, middleIndex, Nat.div_div_eq_div_mul, Nat.reducePow, Nat.reduceMul]
  rw [himage]
  refine Set.InjOn.ncard_image ?_
  rintro _ ⟨page, ⟨hlt, -⟩, rfl⟩ _ ⟨page', ⟨hlt', -⟩, rfl⟩ heq
  simp only [List.cons.injEq, and_true, Fin.ext_iff, Fin.ofNat, pageLimit] at heq hlt hlt' ⊢
  omega

/-- A table that leads to its own pages only has a root, a middle node for each nine upper bits of its page numbers, and a
leaf for each eighteen. -/
theorem length_nodes (h : t.Tree m) (hnodup : t.nodes.Nodup) (hleads : t.LeadsTo m (t.mapped m)) :
    t.nodes.length = 1 + ((· / 2 ^ 18) '' t.mapped m).ncard + ((· / 2 ^ 9) '' t.mapped m).ncard := by
  have hfinite : (t.mapped m).Finite := (Finset.range pageLimit).finite_toSet.subset fun _ hpage =>
    Finset.mem_coe.mpr (Finset.mem_range.mpr hpage.1)
  have hempty : Disjoint {[]} ((fun page => [rootIndex page]) '' t.mapped m ∪ upperPath '' t.mapped m) := by
    rw [Set.disjoint_singleton_left]
    rintro (⟨page, -, hpath⟩ | ⟨page, -, hpath⟩) <;> exact absurd hpath (by simp [upperPath])
  have hlevels : Disjoint ((fun page => [rootIndex page]) '' t.mapped m) (upperPath '' t.mapped m) := by
    rw [Set.disjoint_left]
    rintro _ ⟨page, -, rfl⟩ ⟨page', -, hpath⟩
    exact absurd hpath (by simp [upperPath])
  rw [length_nodes_eq_ncard h hnodup, paths_eq hleads,
    Set.ncard_union_eq hempty (Set.finite_singleton _) ((hfinite.image _).union (hfinite.image _)), Set.ncard_singleton,
    Set.ncard_union_eq hlevels (hfinite.image _) (hfinite.image _), ncard_middle, ncard_leaves, Nat.add_assoc]

end Tree

end PageTable

end TrapKernel
