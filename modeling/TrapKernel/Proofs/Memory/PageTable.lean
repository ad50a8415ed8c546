import TrapKernel.Memory.PageTable
import TrapKernel.Proofs.Memory.Accounts

/-!
# Page tables as finite maps

The nodes of a page table form a tree: each of them is reached from the root along exactly one path. While that is so,
a table is a map from page numbers to entries, of which the walk reads the lower 27 bits.

* `PageTable.Tree`: the invariant.
* `PageTable.map_spec`, `PageTable.unmap_spec`, `PageTable.remap_spec`: what the operations do to the map. They change
  no frame but the nodes of the table.
-/

namespace TrapKernel

/-- The walk does not tell page numbers apart whose difference is a multiple of this number. -/
abbrev pageLimit : Nat := 0x8000000

private theorem path_eq_iff {page page' : Nat} :
    upperPath page = upperPath page' ∧ leafIndex page = leafIndex page' ↔ page % pageLimit = page' % pageLimit := by
  simp only [upperPath, List.cons.injEq, and_true, rootIndex, middleIndex, leafIndex, Fin.ext_iff, Fin.ofNat,
    pageLimit]
  omega

namespace EntryFlags

private theorem has_valid (f : EntryFlags) : (f ||| valid).has valid = true := by
  revert f
  decide +kernel

end EntryFlags

namespace Entry

theorem isValid_make (p : Nat) (f : EntryFlags) : (make p (f ||| .valid)).isValid = true := by
  rw [isValid, flags_make, EntryFlags.has_valid]

private theorem isValid_make_valid (p : Nat) : (make p .valid).isValid = true := by
  rw [isValid, flags_make]
  decide

private theorem isValid_empty : empty.isValid = false := by decide

end Entry

namespace PhysicalMemory

variable {m m' : PhysicalMemory}

/-! ### Paths -/

theorem entry_congr {p : Nat} (h : m'.frame p = m.frame p) (i : Fin 512) : m'.entry p i = m.entry p i := by
  rw [entry, entry, h]

theorem frame_setEntry_of_ne {node p : Nat} (h : node ≠ p) (i : Fin 512) (e : Entry) :
    (m.setEntry node i e).frame p = m.frame p := by
  rw [setEntry, frame_setFrame, if_neg h]

theorem isValid_of_zero {p : Nat} (h : m.frame p = .zero) (i : Fin 512) : (m.entry p i).isValid = false := by
  rw [entry, h, Frame.word_zero]
  decide

theorem descend_append (node : Nat) (path path' : List (Fin 512)) :
    m.descend node (path ++ path') = (m.descend node path).bind fun n => m.descend n path' := by
  induction path generalizing node with
  | nil => rfl
  | cons i rest ih =>
    rw [List.cons_append, descend, descend]
    split
    · exact ih _
    · rfl

private theorem descend_snoc (node : Nat) (path : List (Fin 512)) (i : Fin 512) :
    m.descend node (path ++ [i]) =
      (m.descend node path).bind fun n => if (m.entry n i).isValid then some (m.entry n i).frame else none := by
  rw [descend_append]
  rfl

/-- The nodes on the way are reached as before if the entries that lead on have not changed. -/
private theorem descend_congr {node : Nat} {path : List (Fin 512)}
    (h : ∀ before i after n, path = before ++ i :: after → m.descend node before = some n →
      m'.entry n i = m.entry n i) : m'.descend node path = m.descend node path := by
  induction path generalizing node with
  | nil => rfl
  | cons i rest ih =>
    have hentry := h [] i rest node rfl rfl
    rw [descend, descend, hentry]
    split
    next hvalid =>
      refine ih fun before j after n hpath hn => ?_
      refine h (i :: before) j after n (by rw [hpath]; rfl) ?_
      rw [descend, if_pos hvalid, hn]
    · rfl

end PhysicalMemory

namespace PageTable

open PhysicalMemory

variable {t t' t'' : PageTable} {m m' m'' : PhysicalMemory} {foreign : Surroundings} {owned held : List Nat}

/-- Whether the nodes of a table are those that are reached from its root, each along one path. -/
structure Tree (t : PageTable) (m : PhysicalMemory) : Prop where
  mem_iff : ∀ node, node ∈ t.nodes ↔ ∃ path, path.length ≤ 2 ∧ m.descend t.root path = some node
  unique : ∀ {path path' : List (Fin 512)} {node : Nat}, path.length ≤ 2 → path'.length ≤ 2 →
    m.descend t.root path = some node → m.descend t.root path' = some node → path = path'

private theorem length_upperPath (page : Nat) : (upperPath page).length = 2 := rfl

theorem length_upperPath_le (page : Nat) : (upperPath page).length ≤ 2 := Nat.le_refl 2

theorem translate_eq_some {page : Nat} {e : Entry} :
    t.translate m page = some e ↔
      ∃ node, t.leaf m page = some node ∧ m.entry node (leafIndex page) = e ∧ e.isValid = true := by
  unfold translate
  cases t.leaf m page with
  | none => simp
  | some node =>
    by_cases hvalid : (m.entry node (leafIndex page)).isValid = true
    · simp only [hvalid, if_true, Option.some.injEq, exists_eq_left']
      exact ⟨fun h => ⟨h, h ▸ hvalid⟩, fun h => h.1⟩
    · simp only [hvalid, Bool.false_eq_true, if_false, reduceCtorEq, Option.some.injEq, exists_eq_left', false_iff]
      rintro ⟨rfl, h⟩
      exact hvalid h

/-- A page number is unmapped when there is no leaf table for it, or an entry in the leaf table that is not valid. -/
theorem translate_eq_none {page : Nat} :
    t.translate m page = none ↔
      t.leaf m page = none ∨ ∃ node, t.leaf m page = some node ∧ ¬(m.entry node (leafIndex page)).isValid = true := by
  unfold translate
  cases t.leaf m page with
  | none => simp
  | some node => simp

/-- Page numbers with the same lower 27 bits have the same entry. -/
theorem translate_mod {page page' : Nat} (h : page % pageLimit = page' % pageLimit) :
    t.translate m page = t.translate m page' := by
  obtain ⟨hpath, hindex⟩ := path_eq_iff.mpr h
  rw [translate, translate, leaf, leaf, hpath, hindex]

namespace Tree

theorem node_mem (h : t.Tree m) {path : List (Fin 512)} {node : Nat} (hlen : path.length ≤ 2)
    (hnode : m.descend t.root path = some node) : node ∈ t.nodes :=
  (h.mem_iff node).mpr ⟨path, hlen, hnode⟩

/-! ### The table in other memory -/

theorem descend_eq (h : t.Tree m) (hframe : ∀ p ∈ t.nodes, m'.frame p = m.frame p) {path : List (Fin 512)}
    (hlen : path.length ≤ 2) : m'.descend t.root path = m.descend t.root path := by
  refine descend_congr fun before i after n hpath hn => entry_congr (hframe n (h.node_mem ?_ hn)) i
  rw [hpath] at hlen
  simp only [List.length_append, List.length_cons] at hlen
  omega

theorem congr (h : t.Tree m) (hframe : ∀ p ∈ t.nodes, m'.frame p = m.frame p) : t.Tree m' where
  mem_iff node := by
    rw [h.mem_iff]
    refine exists_congr fun path => and_congr_right fun hlen => ?_
    rw [h.descend_eq hframe hlen]
  unique hlen hlen' hnode hnode' := by
    rw [h.descend_eq hframe hlen] at hnode
    rw [h.descend_eq hframe hlen'] at hnode'
    exact h.unique hlen hlen' hnode hnode'

theorem translate_congr (h : t.Tree m) (hframe : ∀ p ∈ t.nodes, m'.frame p = m.frame p) (page : Nat) :
    t.translate m' page = t.translate m page := by
  have hleaf : t.leaf m' page = t.leaf m page := h.descend_eq hframe (length_upperPath_le page)
  unfold translate
  rw [hleaf]
  cases hnode : t.leaf m page with
  | none => rfl
  | some node =>
    have hmem := h.node_mem (length_upperPath_le page) hnode
    simp only [entry_congr (hframe node hmem)]

/-! ### One more node -/

section AddNode

variable {path : List (Fin 512)} {node p : Nat} {i : Fin 512}

private theorem descend_addNode (h : t.Tree m) (hlen : path.length ≤ 1) (hnode : m.descend t.root path = some node)
    (hinvalid : (m.entry node i).isValid = false) (hp : p < Entry.frameLimit) (hnew : p ∉ t.nodes)
    (hzero : m.frame p = .zero) {path' : List (Fin 512)} (hlen' : path'.length ≤ 2) :
    (m.setEntry node i (.make p .valid)).descend t.root path' =
      if path' = path ++ [i] then some p else m.descend t.root path' := by
  -- on a way that does not lead through the new entry nothing changes
  have hother : ∀ {q : List (Fin 512)}, q.length ≤ 2 → ¬path ++ [i] <+: q →
      (m.setEntry node i (.make p .valid)).descend t.root q = m.descend t.root q := by
    intro q hq hprefix
    refine descend_congr fun before j after n hsplit hn => ?_
    rw [entry_setEntry, if_neg]
    rintro ⟨rfl, rfl⟩
    have hbefore : before = path := h.unique (by
      rw [hsplit] at hq
      simp only [List.length_append, List.length_cons] at hq
      omega) (by omega) hn hnode
    exact hprefix ⟨after, by rw [hsplit, hbefore, List.append_assoc]; rfl⟩
  have hpath : (m.setEntry node i (.make p .valid)).descend t.root path = some node := by
    rw [hother (by omega) fun hprefix => ?_, hnode]
    have := hprefix.length_le
    rw [List.length_append, List.length_singleton] at this
    omega
  have hsnoc : (m.setEntry node i (.make p .valid)).descend t.root (path ++ [i]) = some p := by
    have hentry : (m.setEntry node i (.make p .valid)).entry node i = .make p .valid := by
      rw [entry_setEntry, if_pos ⟨rfl, rfl⟩]
    rw [descend_snoc, hpath, Option.bind_some, hentry, if_pos (Entry.isValid_make_valid p), Entry.frame_make hp]
  by_cases hprefix : path ++ [i] <+: path'
  · obtain ⟨after, rfl⟩ := hprefix
    cases after with
    | nil => rw [List.append_nil, if_pos rfl, hsnoc]
    | cons j after =>
      -- the new node leads nowhere, and before there was no way to where it stands
      have hne : path ++ [i] ++ j :: after ≠ path ++ [i] := by simp
      have hp' : node ≠ p := by rintro rfl; exact hnew (h.node_mem (by omega) hnode)
      have hzero' : ((m.setEntry node i (.make p .valid)).entry p j).isValid = false :=
        isValid_of_zero (by rw [frame_setEntry_of_ne hp', hzero]) j
      rw [if_neg hne, descend_append, hsnoc, Option.bind_some, descend, hzero', descend_append, descend_snoc, hnode,
        Option.bind_some, hinvalid]
      rfl
  · have hne : path' ≠ path ++ [i] := by rintro rfl; exact hprefix List.prefix_rfl
    rw [if_neg hne, hother hlen' hprefix]

private theorem addNode (h : t.Tree m) (hlen : path.length ≤ 1) (hnode : m.descend t.root path = some node)
    (hinvalid : (m.entry node i).isValid = false) (hp : p < Entry.frameLimit) (hnew : p ∉ t.nodes)
    (hzero : m.frame p = .zero) :
    ({ t with nodes := t.nodes ++ [p] } : PageTable).Tree (m.setEntry node i (.make p .valid)) := by
  have hdescend := fun {q : List (Fin 512)} (hq : q.length ≤ 2) =>
    h.descend_addNode hlen hnode hinvalid hp hnew hzero hq
  have hbefore : m.descend t.root (path ++ [i]) = none := by
    rw [descend_snoc, hnode, Option.bind_some, hinvalid]
    rfl
  have hlenp : (path ++ [i]).length ≤ 2 := by simpa using hlen
  constructor
  · intro n
    rw [List.mem_append, List.mem_singleton, h.mem_iff]
    constructor
    · rintro (⟨q, hq, hn⟩ | rfl)
      · refine ⟨q, hq, (hdescend hq).trans ?_⟩
        rw [if_neg, hn]
        rintro rfl
        rw [hbefore] at hn
        exact absurd hn (by simp)
      · exact ⟨path ++ [i], hlenp, (hdescend hlenp).trans (if_pos rfl)⟩
    · rintro ⟨q, hq, hn⟩
      have hn := (hdescend hq).symm.trans hn
      split at hn
      · exact .inr (Option.some.inj hn).symm
      · exact .inl ⟨q, hq, hn⟩
  · intro q q' n hq hq' hn hn'
    have hn := (hdescend hq).symm.trans hn
    have hn' := (hdescend hq').symm.trans hn'
    split at hn <;> split at hn'
    · next hqp hqp' => rw [hqp, hqp']
    · obtain rfl := Option.some.inj hn
      exact absurd (h.node_mem hq' hn') hnew
    · obtain rfl := Option.some.inj hn'
      exact absurd (h.node_mem hq hn) hnew
    · exact h.unique hq hq' hn hn'

private theorem translate_addNode (h : t.Tree m) (hlen : path.length ≤ 1) (hnode : m.descend t.root path = some node)
    (hinvalid : (m.entry node i).isValid = false) (hp : p < Entry.frameLimit) (hnew : p ∉ t.nodes)
    (hzero : m.frame p = .zero) (page : Nat) :
    t.translate (m.setEntry node i (.make p .valid)) page = t.translate m page := by
  have hdescend := h.descend_addNode hlen hnode hinvalid hp hnew hzero (length_upperPath_le page)
  have hp' : node ≠ p := by rintro rfl; exact hnew (h.node_mem (by omega) hnode)
  unfold translate leaf
  rw [hdescend]
  by_cases hpath : upperPath page = path ++ [i]
  · have hnone : m.descend t.root (upperPath page) = none := by
      rw [hpath, descend_snoc, hnode, Option.bind_some, hinvalid]
      rfl
    simp only [hpath, if_true]
    rw [← hpath, hnone, isValid_of_zero (by rw [frame_setEntry_of_ne hp', hzero])]
    rfl
  · rw [if_neg hpath]
    cases hleaf : m.descend t.root (upperPath page) with
    | none => rfl
    | some leaf =>
      have hne : node ≠ leaf := by
        rintro rfl
        have := h.unique (length_upperPath_le page) (by omega) hleaf hnode
        rw [← this, length_upperPath] at hlen
        omega
      simp only [entry_congr (frame_setEntry_of_ne hne i (.make p .valid))]

end AddNode

/-! ### One entry of a leaf -/

section SetLeaf

variable {page leaf : Nat}

private theorem descend_setLeaf (h : t.Tree m) (hleaf : t.leaf m page = some leaf) (i : Fin 512) (e : Entry)
    {path : List (Fin 512)} (hlen : path.length ≤ 2) :
    (m.setEntry leaf i e).descend t.root path = m.descend t.root path := by
  refine descend_congr fun before j after n hpath hn => entry_congr (frame_setEntry_of_ne ?_ i e) j
  -- a leaf is further down than any node that is passed on the way
  rintro rfl
  rw [hpath] at hlen
  simp only [List.length_append, List.length_cons] at hlen
  have heq := h.unique (length_upperPath_le page) (by omega) hleaf hn
  rw [← heq, length_upperPath] at hlen
  omega

private theorem setLeaf (h : t.Tree m) (hleaf : t.leaf m page = some leaf) (i : Fin 512) (e : Entry) :
    t.Tree (m.setEntry leaf i e) where
  mem_iff node := by
    rw [h.mem_iff]
    refine exists_congr fun path => and_congr_right fun hlen => ?_
    rw [h.descend_setLeaf hleaf i e hlen]
  unique hlen hlen' hnode hnode' := by
    rw [h.descend_setLeaf hleaf i e hlen] at hnode
    rw [h.descend_setLeaf hleaf i e hlen'] at hnode'
    exact h.unique hlen hlen' hnode hnode'

private theorem translate_setLeaf (h : t.Tree m) (hleaf : t.leaf m page = some leaf) (e : Entry) (page' : Nat) :
    t.translate (m.setEntry leaf (leafIndex page) e) page' =
      if page' % pageLimit = page % pageLimit then if e.isValid then some e else none else t.translate m page' := by
  have hleaf' : t.leaf (m.setEntry leaf (leafIndex page) e) page' = t.leaf m page' :=
    h.descend_setLeaf hleaf _ e (length_upperPath_le page')
  unfold translate
  rw [hleaf']
  by_cases hkey : page' % pageLimit = page % pageLimit
  · obtain ⟨hpath, hindex⟩ := path_eq_iff.mpr hkey
    have hsame : t.leaf m page' = some leaf := by rw [PageTable.leaf, hpath]; exact hleaf
    simp only [hsame, if_pos hkey, hindex, entry_setEntry, and_self, if_true]
  · rw [if_neg hkey]
    cases hnode : t.leaf m page' with
    | none => rfl
    | some node =>
      have hne : ¬(leaf = node ∧ leafIndex page = leafIndex page') := by
        rintro ⟨rfl, hindex⟩
        have hpath := h.unique (length_upperPath_le page) (length_upperPath_le page') hleaf hnode
        exact hkey (path_eq_iff.mp ⟨hpath, hindex⟩).symm
      simp only [entry_setEntry, if_neg hne]

end SetLeaf

end Tree

/-! ### The operations -/

/-- Whether the table `t` has grown to `t'`, where no frame has changed but the nodes. -/
structure Extends (t t' : PageTable) (m m' : PhysicalMemory) : Prop where
  root : t'.root = t.root
  tree : t'.Tree m'
  subset : t.nodes ⊆ t'.nodes
  frame : ∀ p, p ∉ t'.nodes → m'.frame p = m.frame p
  holders : m'.holders = m.holders

private theorem Extends.refl (h : t.Tree m) : Extends t t m m := ⟨rfl, h, fun _ hp => hp, fun _ _ => rfl, rfl⟩

private theorem Extends.trans (h : Extends t t' m m') (h' : Extends t' t'' m' m'') : Extends t t'' m m'' where
  root := h'.root.trans h.root
  tree := h'.tree
  subset _ hp := h'.subset (h.subset hp)
  frame p hp := (h'.frame p hp).trans (h.frame p fun hmem => hp (h'.subset hmem))
  holders := h'.holders.trans h.holders

private theorem extends_addNode (h : t.Tree m) {path : List (Fin 512)} {node p : Nat} {i : Fin 512}
    (hlen : path.length ≤ 1) (hnode : m.descend t.root path = some node) (hinvalid : (m.entry node i).isValid = false)
    (hacc' : m'.Accounts foreign (p :: (t.nodes ++ owned)) held)
    (hframe : ∀ q, m'.frame q = if p = q then .zero else m.frame q) (hholders : m'.holders = m.holders) :
    Extends t { t with nodes := t.nodes ++ [p] } m (m'.setEntry node i (.make p .valid)) ∧
      (∀ page, t.translate (m'.setEntry node i (.make p .valid)) page = t.translate m page) ∧
      ∀ path', path'.length ≤ 2 → (m'.setEntry node i (.make p .valid)).descend t.root path' =
        if path' = path ++ [i] then some p else m.descend t.root path' := by
  have hnew : p ∉ t.nodes := fun hmem => hacc'.of_owned.2.1 (List.mem_append_left _ hmem)
  have hlimit : p < Entry.frameLimit := hacc'.lt_frameLimit (.inl List.mem_cons_self)
  have hsame : ∀ q ∈ t.nodes, m'.frame q = m.frame q := fun q hq => by
    rw [hframe, if_neg]
    rintro rfl
    exact hnew hq
  have hzero : m'.frame p = .zero := by rw [hframe, if_pos rfl]
  have hmem : node ∈ t.nodes := h.node_mem (by omega) hnode
  have htree := h.congr hsame
  have hnode' : m'.descend t.root path = some node := by rw [h.descend_eq hsame (by omega), hnode]
  have hinvalid' : (m'.entry node i).isValid = false := by rw [entry_congr (hsame node hmem), hinvalid]
  refine ⟨⟨rfl, htree.addNode hlen hnode' hinvalid' hlimit hnew hzero, List.subset_append_left _ _, fun q hq => ?_,
    hholders⟩, fun page => ?_, fun path' hlen' => ?_⟩
  · simp only [List.mem_append, List.mem_singleton, not_or] at hq
    have hne : node ≠ q := by rintro rfl; exact hq.1 hmem
    rw [frame_setEntry_of_ne hne, hframe, if_neg (Ne.symm hq.2)]
  · rw [htree.translate_addNode hlen hnode' hinvalid' hlimit hnew hzero, h.translate_congr hsame]
  · rw [htree.descend_addNode hlen hnode' hinvalid' hlimit hnew hzero hlen', h.descend_eq hsame hlen']

private theorem descendCreating_spec {root node : Nat} {before path : List (Fin 512)} {nodes : List Nat}
    (h : (⟨root, nodes⟩ : PageTable).Tree m) (hacc : m.Accounts foreign (nodes ++ owned) held)
    (hnode : m.descend root before = some node) (hlen : before.length + path.length ≤ 2) :
    (descendCreating node path nodes).Ensures m
      (fun r m' => Extends ⟨root, nodes⟩ ⟨root, r.2⟩ m m' ∧ m'.Accounts foreign (r.2 ++ owned) held ∧
        (∀ page, (⟨root, r.2⟩ : PageTable).translate m' page = (⟨root, nodes⟩ : PageTable).translate m page) ∧
        (∀ path', path'.length ≤ 2 → (m'.descend root path').isSome →
          (m.descend root path').isSome ∨ path' <+: before ++ path) ∧
        match r.1 with
        | some leaf => m'.descend root (before ++ path) = some leaf
        | none => m'.allocator.alloc = none)
      fun _ _ => False := by
  induction path generalizing before node nodes m with
  | nil =>
    rw [List.append_nil]
    exact ⟨.refl h, hacc, fun _ => rfl, fun _ _ => .inl, hnode⟩
  | cons i rest ih =>
    rw [List.length_cons] at hlen
    have hlen' : (before ++ [i]).length + rest.length ≤ 2 := by
      rw [List.length_append, List.length_singleton]
      omega
    have happend : before ++ i :: rest = before ++ [i] ++ rest := by simp
    unfold descendCreating
    simp only [Run.ensures_bind, Run.ensures_get]
    by_cases hvalid : (m.entry node i).isValid = true
    · rw [if_pos hvalid, happend]
      refine ih h hacc ?_ hlen'
      rw [descend_snoc, hnode, Option.bind_some, if_pos hvalid]
    · rw [if_neg hvalid]
      simp only [Run.ensures_bind]
      refine (takeFrame_accounts hacc).mono fun r m₁ hr => ?_
      cases r with
      | none =>
        obtain ⟨rfl, halloc⟩ := hr
        exact ⟨.refl h, hacc, fun _ => rfl, fun _ _ => .inl, halloc⟩
      | some p =>
        obtain ⟨hacc₁, hframe, hholders⟩ := hr
        simp only [Run.ensures_bind, Run.ensures_modify]
        rw [Bool.not_eq_true] at hvalid
        obtain ⟨hext, htranslate, hdescend⟩ :=
          extends_addNode h (by omega) hnode hvalid hacc₁ hframe hholders
        have hnew : (m₁.setEntry node i (.make p .valid)).descend root (before ++ [i]) = some p :=
          (hdescend (before ++ [i]) (by omega)).trans (if_pos rfl)
        have hlimit : p < Entry.frameLimit := hacc₁.lt_frameLimit (.inl List.mem_cons_self)
        have hacc₂ : (m₁.setEntry node i (.make p .valid)).Accounts foreign (nodes ++ [p] ++ owned) held :=
          (hacc₁.setFrame _ _).perm (by rw [List.append_assoc]; exact List.perm_middle.symm) (.refl _)
        rw [Entry.frame_make hlimit, happend]
        refine (ih hext.tree hacc₂ hnew hlen').mono ?_
        rintro r m₂ ⟨hext', hacc', htranslate', hpaths, hlast⟩
        refine ⟨hext.trans hext', hacc', fun page => (htranslate' page).trans (htranslate page), fun path' hpath hsome => ?_,
          hlast⟩
        refine (hpaths path' hpath hsome).elim (fun hsome => ?_) .inr
        rw [hdescend path' hpath] at hsome
        split at hsome
        next heq => exact .inr (heq ▸ List.prefix_append _ _)
        · exact .inl hsome

/-- To map a page number succeeds if there are frames enough, and changes no other page number. The only nodes that are
added are those on the way to its leaf. -/
theorem map_spec {page frame : Nat} (h : t.Tree m) (hacc : m.Accounts foreign (t.nodes ++ owned) held)
    (hnone : t.translate m page = none) (flags : EntryFlags) :
    (t.map page frame flags).Ensures m
      (fun r m' => Extends t r.1 m m' ∧ m'.Accounts foreign (r.1.nodes ++ owned) held ∧
        (∀ page', r.1.translate m' page' =
          if r.2 = true ∧ page' % pageLimit = page % pageLimit then some (.make frame (flags ||| .valid))
          else t.translate m page') ∧
        (r.2 = false → m'.allocator.alloc = none) ∧
        ∀ path, path.length ≤ 2 → (m'.descend r.1.root path).isSome →
          (m.descend t.root path).isSome ∨ path <+: upperPath page)
      fun _ _ => False := by
  have hlen : ([] : List (Fin 512)).length + (upperPath page).length ≤ 2 := by simp [upperPath]
  unfold map
  rw [Run.ensures_bind]
  refine (descendCreating_spec h hacc rfl hlen).mono ?_
  rintro ⟨leaf, nodes⟩ m' ⟨hext, hacc', htr, hpaths, hl⟩
  cases leaf with
  | none => exact ⟨hext, hacc', fun page' => by rw [if_neg (by simp)]; exact htr page', fun _ => hl, hpaths⟩
  | some leaf =>
    have hleaf : (⟨t.root, nodes⟩ : PageTable).leaf m' page = some leaf := hl
    have hfree : ¬(m'.entry leaf (leafIndex page)).isValid = true := fun hvalid => by
      have hsome := (translate_eq_some (t := ⟨t.root, nodes⟩)).mpr ⟨leaf, hleaf, rfl, hvalid⟩
      rw [htr page] at hsome
      exact absurd (hnone.symm.trans hsome) (by simp)
    simp only [Run.ensures_bind, Run.ensures_get]
    rw [if_neg hfree]
    simp only [Run.ensures_bind, Run.ensures_modify, Run.ensures_pure]
    refine ⟨⟨hext.root, hext.tree.setLeaf hleaf _ _, hext.subset, fun p hp => ?_, hext.holders⟩, hacc'.setFrame _ _,
      fun page' => ?_, by simp, fun path hpath hsome => hpaths path hpath ?_⟩
    · have hne : leaf ≠ p := by
        rintro rfl
        exact hp (hext.tree.node_mem (length_upperPath_le page) hl)
      rw [frame_setEntry_of_ne hne, hext.frame p hp]
    · have htranslate := hext.tree.translate_setLeaf hleaf (.make frame (flags ||| .valid)) page'
      rw [Entry.isValid_make, if_pos rfl, htr page'] at htranslate
      simpa using htranslate
    · rwa [← hext.tree.descend_setLeaf hleaf _ _ hpath]

/-- What happens when the entry of a page number that is mapped is replaced. -/
private theorem setLeaf_spec {page leaf : Nat} (h : t.Tree m) (hleaf : t.leaf m page = some leaf) (e : Entry) :
    Extends t t m (m.setEntry leaf (leafIndex page) e) ∧
      ∀ page', t.translate (m.setEntry leaf (leafIndex page) e) page' =
        if page' % pageLimit = page % pageLimit then if e.isValid then some e else none else t.translate m page' := by
  refine ⟨⟨rfl, h.setLeaf hleaf _ _, fun _ hp => hp, fun p hp => frame_setEntry_of_ne ?_ _ _, rfl⟩,
    h.translate_setLeaf hleaf e⟩
  rintro rfl
  exact hp (h.node_mem (length_upperPath_le page) hleaf)

/-- To unmap a page number that is mapped succeeds, and changes no other page number. -/
theorem unmap_spec {page : Nat} (h : t.Tree m) (hsome : (t.translate m page).isSome) :
    (t.unmap page).Ensures m
      (fun _ m' => Extends t t m m' ∧ m'.allocator = m.allocator ∧
        ∀ page', t.translate m' page' = if page' % pageLimit = page % pageLimit then none else t.translate m page')
      fun _ _ => False := by
  obtain ⟨e, he⟩ := Option.isSome_iff_exists.mp hsome
  obtain ⟨leaf, hleaf, rfl, hvalid⟩ := translate_eq_some.mp he
  obtain ⟨hext, htranslate⟩ := setLeaf_spec h hleaf .empty
  unfold unmap
  simp only [Run.ensures_bind, Run.ensures_get, hleaf, hvalid, if_true, Run.ensures_set]
  refine ⟨hext, rfl, fun page' => ?_⟩
  rw [htranslate, Entry.isValid_empty]
  rfl

/-- To remap a page number that is mapped succeeds, and changes no other page number. -/
theorem remap_spec {page : Nat} (h : t.Tree m) (hsome : (t.translate m page).isSome) (frame : Nat)
    (flags : EntryFlags) :
    (t.remap page frame flags).Ensures m
      (fun _ m' => Extends t t m m' ∧ m'.allocator = m.allocator ∧
        ∀ page', t.translate m' page' =
          if page' % pageLimit = page % pageLimit then some (.make frame (flags ||| .valid)) else t.translate m page')
      fun _ _ => False := by
  obtain ⟨e, he⟩ := Option.isSome_iff_exists.mp hsome
  obtain ⟨leaf, hleaf, rfl, hvalid⟩ := translate_eq_some.mp he
  obtain ⟨hext, htranslate⟩ := setLeaf_spec h hleaf (.make frame (flags ||| .valid))
  unfold remap
  simp only [Run.ensures_bind, Run.ensures_get, hleaf, hvalid, if_true, Run.ensures_set]
  refine ⟨hext, rfl, fun page' => ?_⟩
  rw [htranslate, Entry.isValid_make]
  rfl

/-- A new table has a root node only and maps nothing. -/
theorem create_spec (hacc : m.Accounts foreign owned held) :
    create.Ensures m
      (fun r m' => match r with
        | none => m' = m ∧ m.allocator.alloc = none
        | some t => t.Tree m' ∧ m'.Accounts foreign (t.nodes ++ owned) held ∧ (∀ page, t.translate m' page = none) ∧
            (∀ p, p ∉ t.nodes → m'.frame p = m.frame p) ∧ m'.holders = m.holders ∧
            ∀ path, (m'.descend t.root path).isSome → path = [])
      fun _ _ => False := by
  unfold create
  rw [Run.ensures_bind]
  refine (takeFrame_accounts hacc).mono fun r m' hr => ?_
  cases r with
  | none => exact hr
  | some p =>
    obtain ⟨hacc', hframe, hholders⟩ := hr
    have hzero : m'.frame p = .zero := by rw [hframe, if_pos rfl]
    have hdescend : ∀ {path : List (Fin 512)} {node : Nat}, m'.descend p path = some node → path = [] ∧ node = p := by
      intro path node hnode
      cases path with
      | nil => exact ⟨rfl, (Option.some.inj hnode).symm⟩
      | cons i rest =>
        rw [descend, isValid_of_zero hzero] at hnode
        exact absurd hnode (by simp)
    refine ⟨⟨fun node => ?_, fun _ _ hnode hnode' => ?_⟩, hacc', fun page => ?_, fun q hq => ?_, hholders,
      fun path hsome => ?_⟩
    · rw [List.mem_singleton]
      refine ⟨?_, fun ⟨_, _, hnode⟩ => (hdescend hnode).2⟩
      rintro rfl
      exact ⟨[], by simp, rfl⟩
    · rw [(hdescend hnode).1, (hdescend hnode').1]
    · cases htranslate : (⟨p, [p]⟩ : PageTable).translate m' page with
      | none => rfl
      | some e =>
        obtain ⟨node, hleaf, -⟩ := translate_eq_some.mp htranslate
        exact absurd (hdescend hleaf).1 (by simp [upperPath])
    · rw [hframe, if_neg]
      rintro rfl
      exact hq List.mem_cons_self
    · obtain ⟨node, hnode⟩ := Option.isSome_iff_exists.mp hsome
      exact (hdescend hnode).1

end PageTable

end TrapKernel
