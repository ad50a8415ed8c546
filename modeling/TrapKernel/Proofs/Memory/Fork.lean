import TrapKernel.Proofs.Memory.AddressSpace
import TrapKernel.Proofs.Memory.TableSize

/-!
# Sharing an address space

A second address space with the same pages holds the same frames, and no entry of either gives write permission. Its
page table has no nodes but those that it needs for its pages.

* `AddressSpace.sharePages_spec`: what has been shared when the frames run out, or at the end.
* `AddressSpace.fork_spec`: both address spaces have the pages that one had before.
-/

namespace TrapKernel

open PhysicalMemory

variable {m m' : PhysicalMemory} {foreign : Surroundings} {owned held : List Nat}

namespace EntryFlags

private theorem shared_not_writable (f : EntryFlags) : (f.shared ||| valid).has writable = false := by
  revert f
  decide +kernel

private theorem shared_of_not_writable (f : EntryFlags) (hf : f.has valid = true)
    (hw : (f.without valid).has writable = false) : (f.without valid).shared ||| valid = f := by
  revert f
  decide +kernel

private theorem has_writable_without_valid (f : EntryFlags) : (f.without valid).has writable = f.has writable := by
  revert f
  decide +kernel

end EntryFlags

namespace Entry

/-- The entry for a page that is shared from now on. -/
def shared (e : Entry) : Entry := make e.frame ((e.flags.without .valid).shared ||| .valid)

private theorem frame_lt (e : Entry) : e.frame < frameLimit := Nat.mod_lt _ (by decide)

@[simp] theorem frame_shared (e : Entry) : e.shared.frame = e.frame := frame_make e.frame_lt _

@[simp] theorem flags_shared (e : Entry) : e.shared.flags = ((e.flags.without .valid).shared ||| .valid) :=
  flags_make _ _

@[simp] theorem isWritable_shared (e : Entry) : e.shared.isWritable = false := by
  rw [isWritable, flags_shared, EntryFlags.shared_not_writable]

private theorem flags_shared_of_not_writable {e : Entry} (hvalid : e.isValid = true) (hw : e.isWritable = false) :
    e.shared.flags = e.flags := by
  rw [flags_shared]
  refine EntryFlags.shared_of_not_writable e.flags hvalid ?_
  rwa [EntryFlags.has_writable_without_valid]

private theorem isValid_shared (e : Entry) : e.shared.isValid = true := isValid_make _ _

private theorem shared_shared (e : Entry) : e.shared.shared = e.shared := by
  have hflags := flags_shared_of_not_writable e.isValid_shared e.isWritable_shared
  rw [flags_shared] at hflags
  rw [shared, hflags, frame_shared, flags_shared]
  rfl

end Entry

namespace AddressSpace

/-- Whether the address space `child` shares frames with the table `parent`, which leads to the pages `all`. -/
structure Shares (parent : PageTable) (all : List (Nat × Nat)) (child : AddressSpace) (m : PhysicalMemory)
    (foreign : Surroundings) (owned held : List Nat) : Prop where
  sound : Region.Sound ⟨parent, all⟩ m foreign (child.table.nodes ++ owned) (child.region.frames ++ held)
  valid : child.region.Valid m
  readonly : ∀ page e, child.translate m page = some e → e.isWritable = false
  subset : ∀ y ∈ child.pages.toList, y ∈ all
  mirror : ∀ page e, child.translate m page = some e →
    ∃ e', parent.translate m page = some e' ∧ e.frame = e'.frame ∧ e.flags = e'.flags
  leads : child.table.LeadsTo m {page | page ∈ all.map Prod.fst}

/-- Whether some entries of a table have been marked as shared and the others are as they were. -/
def Marked (parent : PageTable) (m m' : PhysicalMemory) : Prop :=
  ∀ page, parent.translate m' page = parent.translate m page ∨
    ∃ e, parent.translate m page = some e ∧ parent.translate m' page = some e.shared

private theorem Marked.trans {parent : PageTable} {m'' : PhysicalMemory} (h : Marked parent m m')
    (h' : Marked parent m' m'') : Marked parent m m'' := fun page => by
  rcases h page with heq | ⟨e, he, hs⟩
  · rw [← heq]
    exact h' page
  · refine .inr ⟨e, he, ?_⟩
    rcases h' page with heq | ⟨e', he', hs'⟩
    · rw [heq, hs]
    · rw [hs, Option.some.injEq] at he'
      rw [hs', ← he', Entry.shared_shared]

/-- An entry that gives write permission is replaced by one that does not. -/
private theorem remap_shared {parent : PageTable} {all : List (Nat × Nat)} {child : AddressSpace} {page : Nat}
    {e : Entry} (h : Shares parent all child m foreign owned held) (hlt : page < pageLimit)
    (he : parent.translate m page = some e) (hnone : child.translate m page = none) :
    (parent.remap page e.frame (e.flags.without .valid).shared).Ensures m
      (fun _ m' => Shares parent all child m' foreign owned held ∧ m'.allocator = m.allocator ∧
        m'.holders = m.holders ∧
        (∀ p, p ∈ owned ∨ p ∈ all.map Prod.snd ++ held → m'.frame p = m.frame p) ∧
        (∀ page', child.translate m' page' = child.translate m page') ∧
        ∀ page', parent.translate m' page' =
          if page' % pageLimit = page then some e.shared else parent.translate m page')
      fun _ _ => False := by
  have hsome : (parent.translate m page).isSome := Option.isSome_iff_exists.mpr ⟨e, he⟩
  refine (PageTable.remap_spec h.sound.valid.tree hsome e.frame _).mono ?_
  rintro _ m' ⟨hext, halloc, htr⟩
  have hacc : m'.Accounts foreign (parent.nodes ++ (child.table.nodes ++ owned))
      (all.map Prod.snd ++ (child.region.frames ++ held)) := h.sound.accounts.congr halloc hext.holders
  have hchild : ∀ p ∈ child.table.nodes, m'.frame p = m.frame p := fun p hp =>
    Region.frame_of_extends hext hacc (.inl (List.mem_append_left _ hp))
  have htr' : ∀ page', parent.translate m' page' =
      if page' % pageLimit = page then some e.shared else parent.translate m page' := fun page' => by
    rw [htr, Nat.mod_eq_of_lt hlt]
    rfl
  have htrc : ∀ page', child.translate m' page' = child.translate m page' := h.valid.tree.translate_congr hchild
  refine ⟨⟨⟨hacc, ⟨hext.tree, h.sound.valid.nodup, h.sound.valid.lt_limit, fun page' p hlt' => ?_⟩,
    fun page' e' he' hw => ?_⟩, h.valid.congr hchild, fun page' e' he' => h.readonly page' e' (by rw [← htrc]; exact he'),
    h.subset, fun page' e' he' => ?_, h.leads.congr h.valid.tree hchild⟩, halloc, hext.holders, fun p hp => ?_, htrc, htr'⟩
  · have hmem := h.sound.valid.mem_iff page' p hlt'
    rw [htr', Nat.mod_eq_of_lt hlt', hmem]
    by_cases hpage : page' = page
    · subst hpage
      simp [he]
    · rw [if_neg hpage]
  · rw [htr'] at he'
    rw [holderCount_congr hext.holders]
    split at he'
    · rw [← Option.some.inj he', Entry.isWritable_shared] at hw
      exact absurd hw (by simp)
    · exact h.sound.exclusive page' e' he' hw
  · have hother : page' % pageLimit ≠ page := by
      rintro rfl
      rw [htrc, translate, PageTable.translate_mod (Nat.mod_mod page' pageLimit).symm] at he'
      exact absurd (hnone.symm.trans he') (by simp)
    rw [htrc] at he'
    rw [htr', if_neg hother]
    exact h.mirror page' e' he'
  · refine Region.frame_of_extends hext hacc ?_
    rcases hp with hp | hp
    · exact .inl (List.mem_append_right _ hp)
    · rcases List.mem_append.mp hp with hp | hp
      · exact .inr (List.mem_append_left _ hp)
      · exact .inr (List.mem_append_right _ (List.mem_append_right _ hp))

/-- The table of the child has grown, and nothing has been entered in it. -/
private theorem shares_extends {parent t' : PageTable} {all : List (Nat × Nat)} {child : AddressSpace}
    (h : Shares parent all child m foreign owned held) (hext : PageTable.Extends child.table t' m m')
    (hacc : m'.Accounts foreign (t'.nodes ++ (parent.nodes ++ owned))
      (all.map Prod.snd ++ (child.region.frames ++ held)))
    (htr : ∀ page, t'.translate m' page = child.translate m page)
    (hleads : t'.LeadsTo m' {page | page ∈ all.map Prod.fst}) :
    Shares parent all { child with table := t' } m' foreign owned held := by
  have hparent : ∀ p ∈ parent.nodes, m'.frame p = m.frame p := fun p hp =>
    Region.frame_of_extends hext hacc (.inl (List.mem_append_left _ hp))
  have hacc' : m'.Accounts foreign (parent.nodes ++ (t'.nodes ++ owned))
      (all.map Prod.snd ++ (child.region.frames ++ held)) :=
    hacc.perm (by rw [← List.append_assoc, ← List.append_assoc]; exact List.perm_append_comm.append_right _) (.refl _)
  refine ⟨⟨hacc', h.sound.valid.congr hparent, fun page e he hw => ?_⟩,
    ⟨hext.tree, h.valid.nodup, h.valid.lt_limit, fun page p hlt => ?_⟩, fun page e he => ?_, h.subset,
    fun page e he => ?_, hleads⟩
  · rw [h.sound.valid.tree.translate_congr hparent] at he
    rw [holderCount_congr hext.holders]
    exact h.sound.exclusive page e he hw
  · show (page, p) ∈ child.region.pages ↔ ∃ e, t'.translate m' page = some e ∧ e.frame = p
    rw [htr]
    exact h.valid.mem_iff page p hlt
  · exact h.readonly page e ((htr page).symm.trans he)
  · rw [h.sound.valid.tree.translate_congr hparent]
    exact h.mirror page e ((htr page).symm.trans he)

/-- A page of the parent has been entered in the table of the child without write permission, and the child becomes a
holder of its frame. -/
private theorem shares_insert {parent t' : PageTable} {all : List (Nat × Nat)} {child : AddressSpace} {page p : Nat}
    {e : Entry} (h : Shares parent all child m foreign owned held) (hext : PageTable.Extends child.table t' m m')
    (hacc : m'.Accounts foreign (t'.nodes ++ (parent.nodes ++ owned))
      (all.map Prod.snd ++ (child.region.frames ++ held)))
    (hp : (page, p) ∈ all) (hnone : child.translate m page = none) (he : e.frame = p) (hw : e.isWritable = false)
    {e₀ : Entry} (he₀ : parent.translate m page = some e₀) (hw₀ : e₀.isWritable = false) (hflags : e.flags = e₀.flags)
    (htr : ∀ page', t'.translate m' page' = if page' % pageLimit = page then some e else child.translate m page')
    (hleads : t'.LeadsTo m' {page | page ∈ all.map Prod.fst}) :
    Shares parent all ⟨t', child.pages.insert page p⟩ (m'.setHolderCount p (m'.holderCount p + 1)) foreign owned held := by
  have hlt : page < pageLimit := h.sound.valid.lt_limit page p hp
  have hperm := toList_insert_perm p (not_mem_pages h.valid hnone)
  have hnodes : ∀ q ∈ parent.nodes, m'.frame q = m.frame q := fun q hq =>
    Region.frame_of_extends hext hacc (.inl (List.mem_append_left _ hq))
  have hmem : p ∈ all.map Prod.snd := List.mem_map_of_mem hp
  have hheld : (p :: (all.map Prod.snd ++ (child.region.frames ++ held))).Perm
      (all.map Prod.snd ++ ((⟨t', child.pages.insert page p⟩ : AddressSpace).region.frames ++ held)) :=
    List.perm_middle.symm.trans (.append_left _ (((hperm.map Prod.snd).append_right held).symm))
  have howned : (t'.nodes ++ (parent.nodes ++ owned)).Perm (parent.nodes ++ (t'.nodes ++ owned)) := by
    rw [← List.append_assoc, ← List.append_assoc]
    exact List.perm_append_comm.append_right _
  have hacc' := (hacc.hold_held (List.mem_append_left _ hmem)).perm howned hheld
  have hvalid : Region.Valid ⟨t', (page, p) :: child.pages.toList⟩ (m'.setHolderCount p (m'.holderCount p + 1)) :=
    valid_insert h.valid (hext.tree.congr fun _ _ => rfl) hlt hnone he htr
  refine ⟨⟨hacc', h.sound.valid.congr hnodes, fun page' e' he' hw' => ?_⟩, hvalid.perm hperm.symm,
    fun page' e' he' => ?_, fun y hy => ?_, fun page' e' he' => ?_, hleads.congr hext.tree fun _ _ => rfl⟩
  · have he' : parent.translate m page' = some e' := (h.sound.valid.tree.translate_congr hnodes page').symm.trans he'
    have hone := h.sound.exclusive page' e' he' hw'
    rw [holderCount_setHolderCount, if_neg, holderCount_congr hext.holders, hone]
    -- otherwise two pages of the parent have the same frame, which then has two holders
    intro heq
    have hmem' : (page' % pageLimit, p) ∈ all := by
      rw [heq]
      exact h.sound.valid.mem_of_translate he'
    have hne : page' % pageLimit ≠ page := by
      rintro rfl
      rw [PageTable.translate_mod (Nat.mod_mod page' pageLimit).symm] at he'
      rw [he₀, Option.some.injEq] at he'
      rw [← he', hw₀] at hw'
      exact absurd hw' (by simp)
    rw [← heq] at hone
    exact hne (h.sound.page_eq hone hp hmem')
  · have he' := (htr page').symm.trans he'
    split at he'
    · rw [← Option.some.inj he', hw]
    · exact h.readonly page' e' he'
  · rcases List.mem_cons.mp (hperm.mem_iff.mp hy) with rfl | hy
    · exact hp
    · exact h.subset y hy
  · have he' := (htr page').symm.trans he'
    have hsame : parent.translate (m'.setHolderCount p (m'.holderCount p + 1)) page' = parent.translate m page' :=
      h.sound.valid.tree.translate_congr hnodes page'
    rw [hsame]
    split at he'
    next hkey =>
      obtain rfl := Option.some.inj he'
      have hframe : e₀.frame = p := by
        have hmem := h.sound.valid.mem_of_translate he₀
        rw [Nat.mod_eq_of_lt hlt] at hmem
        exact Region.eq_of_mem h.sound.valid hmem hp
      refine ⟨e₀, ?_, he.trans hframe.symm, hflags⟩
      rw [← he₀, ← hkey]
      exact PageTable.translate_mod (Nat.mod_mod page' pageLimit).symm
    · exact h.mirror page' e' he'

/-- A page of the parent is entered in the table of the child without write permission, if there are frames enough. -/
private theorem mapShared_spec {parent : PageTable} {all : List (Nat × Nat)} {child : AddressSpace} {page : Nat}
    {e e₀ : Entry} (h : Shares parent all child m foreign owned held) (hp : (page, e.frame) ∈ all)
    (hnone : child.translate m page = none) (he₀ : parent.translate m page = some e₀) (hw₀ : e₀.isWritable = false)
    (hflags : e.shared.flags = e₀.flags) :
    (child.table.map page e.frame (e.flags.without .valid).shared).Ensures m
      (fun r m' => (∀ page', parent.translate m' page' = parent.translate m page') ∧
        (∀ q, q ∈ owned ∨ q ∈ all.map Prod.snd ++ held → m'.frame q = m.frame q) ∧
        if r.2 then
          Shares parent all ⟨r.1, child.pages.insert page e.frame⟩
              (m'.setHolderCount e.frame (m'.holderCount e.frame + 1)) foreign owned held ∧
            ∀ page', r.1.translate m' page' =
              if page' % pageLimit = page then some e.shared else child.translate m page'
        else Shares parent all { child with table := r.1 } m' foreign owned held)
      fun _ _ => False := by
  have hlt : page < pageLimit := h.sound.valid.lt_limit page _ hp
  have hacc : m.Accounts foreign (child.table.nodes ++ (parent.nodes ++ owned))
      (all.map Prod.snd ++ (child.region.frames ++ held)) :=
    h.sound.accounts.perm (by
      rw [← List.append_assoc, ← List.append_assoc]
      exact List.perm_append_comm.append_right _) (.refl _)
  refine (PageTable.map_spec h.valid.tree hacc hnone _).mono ?_
  rintro ⟨t', mapped⟩ m' ⟨hext, hacc', htr, _, hpaths⟩
  have hleads : t'.LeadsTo m' {page | page ∈ all.map Prod.fst} := h.leads.grow (List.mem_map_of_mem hp) hpaths
  have htr : ∀ page', t'.translate m' page' =
      if mapped = true ∧ page' % pageLimit = page % pageLimit then some e.shared else child.translate m page' := htr
  have hnodes : ∀ q ∈ parent.nodes, m'.frame q = m.frame q := fun q hq =>
    Region.frame_of_extends hext hacc' (.inl (List.mem_append_left _ hq))
  refine ⟨h.sound.valid.tree.translate_congr hnodes, fun q hq => ?_, ?_⟩
  · refine Region.frame_of_extends hext hacc' ?_
    rcases hq with hq | hq
    · exact .inl (List.mem_append_right _ hq)
    · rcases List.mem_append.mp hq with hq | hq
      · exact .inr (List.mem_append_left _ hq)
      · exact .inr (List.mem_append_right _ (List.mem_append_right _ hq))
  · cases mapped with
    | false => exact shares_extends h hext hacc' (fun page' => by simpa using htr page') hleads
    | true =>
      have htr' : ∀ page', t'.translate m' page' =
          if page' % pageLimit = page then some e.shared else child.translate m page' := fun page' => by
        rw [← Nat.mod_eq_of_lt hlt]
        simpa using htr page'
      exact ⟨shares_insert h hext hacc' hp hnone e.frame_shared e.isWritable_shared he₀ hw₀ hflags htr' hleads, htr'⟩

private theorem getElem?_insert_iff {pages : Std.TreeMap Nat Nat} {page p : Nat} (hnew : pages[page]? = none)
    (rest : List (Nat × Nat)) (page' q : Nat) :
    (page', q) ∈ rest ∨ (pages.insert page p)[page']? = some q ↔ (page', q) ∈ (page, p) :: rest ∨ pages[page']? = some q := by
  rw [List.mem_cons, Prod.mk.injEq]
  simp only [Std.TreeMap.getElem?_insert, Nat.compare_eq_eq]
  by_cases hpage : page = page'
  · subst hpage
    rw [if_pos rfl, hnew]
    simp only [Option.some.injEq, true_and, reduceCtorEq, or_false]
    rw [or_comm]
    exact or_congr_left eq_comm
  · rw [if_neg hpage]
    simp [Ne.symm hpage]

/-- What has become of memory when some pages have been shared, those of a list `l` or as many of them as there were
frames for. -/
structure Shared (foreign : Surroundings) (owned held : List Nat) (parent : PageTable) (all l : List (Nat × Nat))
    (child : AddressSpace) (m : PhysicalMemory) (r : AddressSpace × Bool) (m' : PhysicalMemory) : Prop where
  shares : Shares parent all r.1 m' foreign owned held
  marked : Marked parent m m'
  frame : ∀ p, p ∈ owned ∨ p ∈ all.map Prod.snd ++ held → m'.frame p = m.frame p
  pages : r.2 = true → ∀ page p, r.1.pages[page]? = some p ↔ (page, p) ∈ l ∨ child.pages[page]? = some p

private theorem Shared.of_marked {parent : PageTable} {all l : List (Nat × Nat)} {child : AddressSpace}
    {m₁ : PhysicalMemory}
    {r : AddressSpace × Bool} (h : Shared foreign owned held parent all l child m₁ r m') (hmarked : Marked parent m m₁)
    (hframe : ∀ p, p ∈ owned ∨ p ∈ all.map Prod.snd ++ held → m₁.frame p = m.frame p) :
    Shared foreign owned held parent all l child m r m' where
  shares := h.shares
  marked := hmarked.trans h.marked
  frame p hp := (h.frame p hp).trans (hframe p hp)
  pages := h.pages

/-- A page is shared whose entry in the table of the parent does not give write permission, and then the other ones. -/
private theorem sharePage_spec {parent : PageTable} {all rest : List (Nat × Nat)} {child : AddressSpace} {page : Nat}
    {e e₀ : Entry} (h : Shares parent all child m foreign owned held) (hp : (page, e.frame) ∈ all)
    (hother : ∀ y ∈ rest, y.1 % pageLimit ≠ page)
    (hnone : ∀ y ∈ (page, e.frame) :: rest, child.translate m y.1 = none) (he₀ : parent.translate m page = some e₀)
    (hw₀ : e₀.isWritable = false) (hflags : e.shared.flags = e₀.flags)
    (hrest : ∀ {child' m₁}, Shares parent all child' m₁ foreign owned held →
      (∀ y ∈ rest, child'.translate m₁ y.1 = none) →
      (sharePages parent rest child').Ensures m₁ (Shared foreign owned held parent all rest child' m₁)
        fun _ _ => False) :
    Run.Ensures (do
      let y ← child.table.map page e.frame (e.flags.without .valid).shared
      if y.2 then
        hold e.frame
        sharePages parent rest { table := y.1, pages := child.pages.insert page e.frame }
      else return ({ child with table := y.1 }, false)) m
      (Shared foreign owned held parent all ((page, e.frame) :: rest) child m) fun _ _ => False := by
  have hnone' : child.translate m page = none := hnone (page, e.frame) List.mem_cons_self
  rw [Run.ensures_bind]
  refine (mapShared_spec h hp hnone' he₀ hw₀ hflags).mono ?_
  rintro ⟨t', mapped⟩ m₁ ⟨htrp, hframe, hr⟩
  have hmarked : Marked parent m m₁ := fun page' => .inl (htrp page')
  cases mapped with
  | false => exact ⟨hr, hmarked, hframe, by simp⟩
  | true =>
    obtain ⟨hshares, htr⟩ := hr
    simp only [if_true, hold, Run.ensures_bind, Run.ensures_modify]
    have hnone₁ : ∀ y ∈ rest, t'.translate m₁ y.1 = none := fun y hy => by
      rw [htr, if_neg (hother y hy)]
      exact hnone y (List.mem_cons_of_mem _ hy)
    refine (hrest hshares hnone₁).mono fun r m' hshared => ?_
    refine ⟨hshared.shares, hmarked.trans hshared.marked, fun q hq => (hshared.frame q hq).trans (hframe q hq),
      fun hr page' q => ?_⟩
    rw [hshared.pages hr]
    exact getElem?_insert_iff (Std.TreeMap.getElem?_eq_none (not_mem_pages h.valid hnone')) rest page' q

theorem sharePages_spec {parent : PageTable} {all l : List (Nat × Nat)} {child : AddressSpace}
    (h : Shares parent all child m foreign owned held) (hall : ∀ y ∈ l, y ∈ all) (hnodup : (l.map Prod.fst).Nodup)
    (hnone : ∀ y ∈ l, child.translate m y.1 = none) :
    (sharePages parent l child).Ensures m (Shared foreign owned held parent all l child m) fun _ _ => False := by
  -- `Shares` is what every page of the list preserves, for the child as far as it got
  induction l generalizing child m with
  | nil => exact ⟨h, fun _ => .inl rfl, fun _ _ => rfl, by simp⟩
  | cons y rest ih =>
    obtain ⟨page, p⟩ := y
    have hp : (page, p) ∈ all := hall _ List.mem_cons_self
    have hlt : page < pageLimit := h.sound.valid.lt_limit page p hp
    obtain ⟨e, he, rfl⟩ := h.sound.valid.translate_of_mem hp
    have he : parent.translate m page = some e := he
    have hkeys : page ∉ rest.map Prod.fst ∧ (rest.map Prod.fst).Nodup := List.nodup_cons.mp hnodup
    have hother : ∀ y ∈ rest, y.1 % pageLimit ≠ page := by
      rintro ⟨page', q⟩ hy
      rw [Nat.mod_eq_of_lt (h.sound.valid.lt_limit page' q (hall _ (List.mem_cons_of_mem _ hy)))]
      rintro rfl
      exact hkeys.1 (List.mem_map_of_mem hy)
    have hrest : ∀ {child' m₁}, Shares parent all child' m₁ foreign owned held →
        (∀ y ∈ rest, child'.translate m₁ y.1 = none) →
        (sharePages parent rest child').Ensures m₁ (Shared foreign owned held parent all rest child' m₁)
          fun _ _ => False :=
      fun h₁ hnone₁ => ih h₁ (fun y hy => hall y (List.mem_cons_of_mem _ hy)) hkeys.2 hnone₁
    unfold sharePages
    rw [Run.ensures_bind, Run.ensures_get]
    simp only [he, EntryFlags.has_writable_without_valid]
    by_cases hw : e.isWritable = true
    · have hw' : e.flags.has .writable = true := hw
      rw [if_pos hw', Run.ensures_bind]
      refine (remap_shared h hlt he (hnone (page, e.frame) List.mem_cons_self)).mono ?_
      rintro _ m₁ ⟨h₁, _, _, hframe₁, htrc₁, htrp₁⟩
      have hmarked₁ : Marked parent m m₁ := fun page' => by
        rw [htrp₁]
        split
        next hkey =>
          refine .inr ⟨e, ?_, rfl⟩
          rw [← he, ← hkey]
          exact PageTable.translate_mod (Nat.mod_mod page' pageLimit).symm
        · exact .inl rfl
      have he₁ : parent.translate m₁ page = some e.shared := by rw [htrp₁, if_pos (Nat.mod_eq_of_lt hlt)]
      have hnone₁ : ∀ y ∈ (page, e.frame) :: rest, child.translate m₁ y.1 = none := fun y hy =>
        (htrc₁ y.1).trans (hnone y hy)
      exact (sharePage_spec h₁ hp hother hnone₁ he₁ e.isWritable_shared rfl hrest).mono fun _ _ hshared =>
        hshared.of_marked hmarked₁ hframe₁
    · have hw' : ¬e.flags.has .writable = true := hw
      have hvalid : e.isValid = true := by
        obtain ⟨_, _, _, hvalid⟩ := PageTable.translate_eq_some.mp he
        exact hvalid
      rw [if_neg hw']
      rw [Bool.not_eq_true] at hw
      exact sharePage_spec h hp hother hnone he hw (Entry.flags_shared_of_not_writable hvalid hw) hrest

/-- Nothing is shared at first. -/
private theorem shares_create {s child : AddressSpace} (h : s.region.Sound m foreign owned held)
    (hpages : child.pages = ∅)
    (hchild : child.region.Sound m' foreign (s.table.nodes ++ owned) (s.region.frames ++ held))
    (hspares : Region.Spares m m' (s.table.nodes ++ owned) (s.region.frames ++ held)) (hholders : m'.holders = m.holders)
    (hnone : ∀ page, child.translate m' page = none)
    (hpaths : ∀ path, (m'.descend child.table.root path).isSome → path = []) :
    Shares s.table s.pages.toList child m' foreign owned held := by
  have hlist : child.pages.toList = [] := by rw [hpages]; rfl
  have hnodes : ∀ p ∈ s.table.nodes, m'.frame p = m.frame p := fun p hp =>
    hspares.frame p (.inl (List.mem_append_left _ hp))
  have hframes : child.region.frames = [] := by simp [Region.frames, region, hlist]
  have hacc : m'.Accounts foreign (s.table.nodes ++ (child.table.nodes ++ owned))
      (s.region.frames ++ (child.region.frames ++ held)) := by
    have hacc := hchild.accounts
    rw [hframes, List.nil_append] at hacc ⊢
    refine hacc.perm ?_ (.refl _)
    rw [← List.append_assoc, ← List.append_assoc]
    exact List.perm_append_comm.append_right _
  refine ⟨⟨hacc, h.valid.congr hnodes, fun page e he hw => ?_⟩, hchild.valid, fun page e he => ?_, fun y hy => ?_,
    fun page e he => ?_, fun path hne _ hsome => absurd (hpaths path hsome) hne⟩
  · rw [holderCount_congr hholders]
    exact h.exclusive page e ((h.valid.tree.translate_congr hnodes page).symm.trans he) hw
  · exact absurd ((hnone page).symm.trans he) (by simp)
  · rw [hlist] at hy
    exact absurd hy List.not_mem_nil
  · exact absurd ((hnone page).symm.trans he) (by simp)

/-- The child is sound among the frames of the parent. -/
private theorem Shares.child_sound {parent : PageTable} {all : List (Nat × Nat)} {child : AddressSpace}
    (h : Shares parent all child m foreign owned held) :
    child.region.Sound m foreign (parent.nodes ++ owned) (all.map Prod.snd ++ held) := by
  refine ⟨h.sound.accounts.perm ?_ ?_, h.valid, fun page e he hw => absurd hw (by simp [h.readonly page e he])⟩
  · rw [← List.append_assoc, ← List.append_assoc]
    exact List.perm_append_comm.append_right _
  · rw [← List.append_assoc, ← List.append_assoc]
    exact List.perm_append_comm.append_right _

/-- When all pages have been shared, the child has the same ones, with the same content. -/
private theorem Shares.complete {s child : AddressSpace} {m₂ : PhysicalMemory} (h : s.region.Sound m foreign owned held)
    (hshares : Shares s.table s.pages.toList child m₂ foreign owned held)
    (hpages : ∀ page : Nat, child.pages[page]? = s.pages[page]?)
    (hframe : ∀ p, p ∈ owned ∨ p ∈ s.region.frames ++ held → m₂.frame p = m.frame p) :
    Region.Spares m m₂ owned held ∧ (∀ page, child.content m₂ page = s.content m page) ∧
      child.table.LeadsTo m₂ (child.table.mapped m₂) := by
  refine ⟨⟨fun p hp => hframe p (hp.imp_right (List.mem_append_right _)), ?_⟩, fun page => ?_,
    hshares.leads.mono fun page hpage => ?_⟩
  · have hacc : m₂.Accounts foreign (s.table.nodes ++ (child.table.nodes ++ owned))
        (s.region.frames ++ child.region.frames ++ held) := by
      rw [List.append_assoc]
      exact hshares.sound.accounts
    refine Region.single_of_accounts h.accounts hacc fun p hp => .inl ?_
    rcases List.mem_append.mp hp with hp | hp
    · exact hp
    · obtain ⟨y, hy, rfl⟩ := List.mem_map.mp hp
      exact List.mem_map_of_mem (hshares.subset y hy)
  · exact content_congr (hpages page) fun p hp => hframe p (.inr (List.mem_append_left _ hp))
  · obtain ⟨⟨_, p⟩, hp, rfl⟩ := List.mem_map.mp hpage
    have hp' := (hpages _).trans (Std.TreeMap.mem_toList_iff_getElem?_eq_some.mp hp)
    obtain ⟨e, he, -⟩ := hshares.valid.translate_of_mem (Std.TreeMap.mem_toList_iff_getElem?_eq_some.mpr hp')
    exact ⟨h.valid.lt_limit _ p hp, Option.isSome_iff_exists.mpr ⟨e, he⟩⟩

/-- When the child is given up, the parent has its pages for itself as before. Some of them are still marked. -/
private theorem Shares.release {s child : AddressSpace} {m₂ : PhysicalMemory} (h : s.region.Sound m foreign owned held)
    (hshares : Shares s.table s.pages.toList child m₂ foreign owned held) (hmarked : Marked s.table m m₂)
    (hframe : ∀ p, p ∈ owned ∨ p ∈ s.region.frames ++ held → m₂.frame p = m.frame p) :
    child.release.Ensures m₂
      (fun _ m₃ => (∀ page, s.content m₃ page = s.content m page) ∧ Marked s.table m m₃ ∧
        Region.Spares m m₃ owned held ∧ s.region.Sound m₃ foreign owned held)
      fun _ _ => False := by
  refine (release_spec hshares.child_sound).mono ?_
  rintro _ m₃ ⟨hacc₃, hspares₃, hcontents⟩
  have hframe₃ : ∀ p, m₃.frame p = m₂.frame p := frame_congr hcontents
  have htr₃ : ∀ page, s.table.translate m₃ page = s.table.translate m₂ page :=
    hshares.sound.valid.tree.translate_congr fun p _ => hframe₃ p
  refine ⟨fun page => content_congr rfl fun p hp => (hframe₃ p).trans (hframe p (.inr (List.mem_append_left _ hp))),
    hmarked.trans fun page => .inl (htr₃ page),
    ⟨fun p hp => (hframe₃ p).trans (hframe p (hp.imp_right (List.mem_append_right _))), ?_⟩,
    hacc₃, hshares.sound.valid.congr fun p _ => hframe₃ p, fun page e he hw => ?_⟩
  · exact Region.single_of_accounts h.accounts hacc₃ fun p hp => .inl hp
  · rw [show s.region.table = s.table from rfl, htr₃] at he
    refine hspares₃.single _ (List.mem_append_left _ ?_) (hshares.sound.exclusive page e he hw)
    exact List.mem_map_of_mem (f := Prod.snd) (hshares.sound.valid.mem_of_translate he)

/-- A second address space gets the same pages with the same content, if there are frames enough. The first one keeps
its pages in either case. -/
theorem fork_spec {s : AddressSpace} (h : s.region.Sound m foreign owned held) :
    s.fork.Ensures m
      (fun r m' => (∀ page, s.content m' page = s.content m page) ∧ Marked s.table m m' ∧
        Region.Spares m m' owned held ∧
        match r with
        | none => s.region.Sound m' foreign owned held
        | some child =>
          s.region.Sound m' foreign (child.table.nodes ++ owned) (child.region.frames ++ held) ∧
            child.region.Sound m' foreign (s.table.nodes ++ owned) (s.region.frames ++ held) ∧
            (∀ page, child.content m' page = s.content m page) ∧
            (∀ page e, child.translate m' page = some e →
              ∃ e', s.translate m' page = some e' ∧ e.frame = e'.frame ∧ e.flags = e'.flags) ∧
            child.table.LeadsTo m' (child.table.mapped m'))
      fun _ _ => False := by
  unfold fork
  rw [Run.ensures_bind]
  refine (create_spec h.accounts).mono fun r m₁ hr => ?_
  cases r with
  | none =>
    obtain ⟨rfl, -⟩ := hr
    exact ⟨fun _ => rfl, fun _ => .inl rfl, .refl _ _ _, h⟩
  | some child =>
    obtain ⟨hpages, hchild, hspares₁, hholders₁, hnone, hpaths⟩ := hr
    have hshares₁ := shares_create h hpages hchild hspares₁ hholders₁ hnone hpaths
    dsimp only
    rw [Run.ensures_bind]
    refine (sharePages_spec hshares₁ (fun _ hy => hy) h.valid.nodup fun y _ => hnone y.1).mono ?_
    rintro ⟨child', complete⟩ m₂ ⟨hshares, hmarked₂, hframe₂, hsame⟩
    have hframe : ∀ p, p ∈ owned ∨ p ∈ s.region.frames ++ held → m₂.frame p = m.frame p := fun p hp =>
      (hframe₂ p hp).trans (hspares₁.frame p (hp.imp_left (List.mem_append_right _)))
    have hmarked : Marked s.table m m₂ := Marked.trans (fun page => .inl (h.valid.tree.translate_congr
      (fun p hp => hspares₁.frame p (.inl (List.mem_append_left _ hp))) page)) hmarked₂
    cases complete with
    | true =>
      have hpages' : ∀ page : Nat, child'.pages[page]? = s.pages[page]? := fun page => by
        ext p
        rw [hsame rfl, Std.TreeMap.mem_toList_iff_getElem?_eq_some, hpages]
        simp
      obtain ⟨hspares, hcopy, hleads⟩ := hshares.complete h hpages' hframe
      have hcontent : ∀ page, s.content m₂ page = s.content m page := fun page =>
        content_congr rfl fun p hp => hframe p (.inr (List.mem_append_left _ hp))
      exact ⟨hcontent, hmarked, hspares, hshares.sound, hshares.child_sound, hcopy, hshares.mirror, hleads⟩
    | false =>
      simp only [Bool.false_eq_true, if_false, Run.ensures_bind]
      exact (hshares.release h hmarked hframe).mono fun _ _ hr => hr

end AddressSpace

end TrapKernel
