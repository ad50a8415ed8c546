import TrapKernel.Proofs.Memory.Regions

/-!
# Address spaces in sound memory

In sound memory no operation on an address space stops, each of them leaves memory sound, and none touches a frame of
another address space.

* `AddressSpace.mapZeroed_spec`, `AddressSpace.dropPages_spec`, `AddressSpace.resolveCow_spec`: what the operations do to
  pages and entries.
-/

namespace TrapKernel

open PhysicalMemory

variable {m m' : PhysicalMemory} {foreign : Surroundings} {owned held : List Nat}

namespace Region

variable {x : Region}

/-- Changes of the table alone leave all data frames and the nodes of other tables as they are. -/
theorem frame_of_extends {t t' : PageTable} {f : List Nat} (hext : PageTable.Extends t t' m m')
    (h : m'.Accounts foreign (t'.nodes ++ owned) f) {p : Nat} (hp : p ∈ owned ∨ p ∈ f) : m'.frame p = m.frame p :=
  hext.frame p (h.not_mem_left hp)

private theorem not_mem_of_translate_eq_none (h : x.Valid m) {page : Nat} (hnone : x.table.translate m page = none)
    (p : Nat) : (page, p) ∉ x.pages := by
  intro hp
  obtain ⟨e, he, -⟩ := h.translate_of_mem hp
  rw [hnone] at he
  exact absurd he (by simp)

theorem eq_of_mem (h : x.Valid m) {page p q : Nat} (hp : (page, p) ∈ x.pages) (hq : (page, q) ∈ x.pages) : p = q := by
  obtain ⟨e, he, rfl⟩ := h.translate_of_mem hp
  obtain ⟨e', he', rfl⟩ := h.translate_of_mem hq
  rw [he, Option.some.injEq] at he'
  rw [he']

/-- A region stays sound when a frame is taken, which is then among those that are owned elsewhere. -/
private theorem Sound.take {p : Nat} (h : x.Sound m foreign owned held)
    (hacc : m'.Accounts foreign (p :: (x.table.nodes ++ owned)) (x.frames ++ held))
    (hframe : ∀ q, q ≠ p → m'.frame q = m.frame q) (hholders : m'.holders = m.holders) :
    x.Sound m' foreign (p :: owned) held ∧ (∀ page, x.table.translate m' page = x.table.translate m page) ∧
      ∀ q, q ∈ owned ∨ q ∈ x.frames ++ held → q ≠ p ∧ m'.frame q = m.frame q := by
  have hnode : ∀ q ∈ x.table.nodes, m'.frame q = m.frame q := fun q hq => hframe q <| by
    rintro rfl
    exact hacc.of_owned.2.1 (List.mem_append_left _ hq)
  have htranslate := h.valid.tree.translate_congr hnode
  refine ⟨⟨hacc.perm List.perm_middle.symm (.refl _), h.valid.congr hnode, fun page e he hw => ?_⟩, htranslate,
    fun q hq => ?_⟩
  · rw [htranslate] at he
    rw [holderCount_congr hholders]
    exact h.exclusive page e he hw
  · have hne : q ≠ p := by
      rintro rfl
      exact hq.elim (fun hq => hacc.of_owned.2.1 (List.mem_append_right _ hq)) hacc.of_owned.2.2
    exact ⟨hne, hframe q hne⟩

end Region

namespace AddressSpace

/-! ### Dropping pages -/

/-- The entry of a page is cleared, and its frame has lost a holder. -/
private theorem sound_remove {t : PageTable} {pages : List (Nat × Nat)} {page p : Nat}
    (h : Region.Sound ⟨t, (page, p) :: pages⟩ m foreign owned held) (htree : t.Tree m')
    (hacc : m'.Accounts foreign (t.nodes ++ owned) (pages.map Prod.snd ++ held))
    (htranslate : ∀ page', t.translate m' page' = if page' % pageLimit = page then none else t.translate m page') :
    Region.Sound ⟨t, pages⟩ m' foreign owned held := by
  have hpage : page ∉ pages.map Prod.fst := (List.nodup_cons.mp h.valid.nodup).1
  refine ⟨hacc, ⟨htree, (List.nodup_cons.mp h.valid.nodup).2, fun page' q hq =>
    h.valid.lt_limit page' q (List.mem_cons_of_mem _ hq), fun page' q hlt => ?_⟩, fun page' e he hw => ?_⟩
  · rw [htranslate, Nat.mod_eq_of_lt hlt]
    by_cases hsame : page' = page
    · subst hsame
      rw [if_pos rfl]
      simp only [reduceCtorEq, false_and, exists_false, iff_false]
      exact fun hq => hpage (List.mem_map_of_mem hq)
    · rw [if_neg hsame, ← h.valid.mem_iff page' q hlt, List.mem_cons, Prod.mk.injEq]
      exact ⟨.inr, fun hq => hq.resolve_left fun heq => hsame heq.1⟩
  · rw [htranslate] at he
    split at he
    · exact absurd he (by simp)
    next hne =>
      have hmem := h.valid.mem_of_translate he
      rw [List.mem_cons, Prod.mk.injEq] at hmem
      have hmem' : e.frame ∈ pages.map Prod.snd ++ held :=
        List.mem_append_left _ (List.mem_map_of_mem (hmem.resolve_left fun heq => hne heq.1))
      refine h.accounts.holderCount_eq_one hacc ?_ hmem' (h.exclusive page' e he hw)
      exact (List.sublist_cons_self _ _).count_le _

/-- Some pages are dropped, and the others stay. -/
theorem dropPages_spec {t : PageTable} {l kept : List (Nat × Nat)}
    (h : Region.Sound ⟨t, l ++ kept⟩ m foreign owned held) :
    (dropPages t l).Ensures m
      (fun _ m' => Region.Sound ⟨t, kept⟩ m' foreign owned held ∧ Region.Spares m m' owned held ∧
        (∀ p ∈ kept.map Prod.snd, m'.frame p = m.frame p) ∧
        ∀ page, page % pageLimit ∉ l.map Prod.fst → t.translate m' page = t.translate m page)
      fun _ _ => False := by
  induction l generalizing m with
  | nil => exact ⟨h, .refl _ _ _, fun _ _ => rfl, fun _ _ => rfl⟩
  | cons y rest ih =>
    obtain ⟨page, p⟩ := y
    have hpage : (page, p) ∈ (page, p) :: rest ++ kept := by simp
    unfold dropPages
    rw [Run.ensures_bind]
    have hacc : m.Accounts foreign (t.nodes ++ owned) (p :: ((rest ++ kept).map Prod.snd ++ held)) := h.accounts
    refine (letGo_accounts hacc).mono ?_
    rintro _ m₁ ⟨hacc₁, hcontents⟩
    have hframe₁ : ∀ q, m₁.frame q = m.frame q := frame_congr hcontents
    have htree₁ : t.Tree m₁ := h.valid.tree.congr fun q _ => hframe₁ q
    have htranslate₁ : ∀ page', t.translate m₁ page' = t.translate m page' :=
      h.valid.tree.translate_congr fun q _ => hframe₁ q
    have hsome : (t.translate m₁ page).isSome := by
      obtain ⟨e, he, -⟩ := h.valid.translate_of_mem hpage
      rw [htranslate₁]
      exact Option.isSome_iff_exists.mpr ⟨e, he⟩
    rw [Run.ensures_bind]
    refine (PageTable.unmap_spec htree₁ hsome).mono ?_
    rintro _ m₂ ⟨hext, halloc, htranslate₂⟩
    have hacc₂ : m₂.Accounts foreign (t.nodes ++ owned) ((rest ++ kept).map Prod.snd ++ held) :=
      hacc₁.congr halloc hext.holders
    have hframe : ∀ q, q ∈ owned ∨ q ∈ (rest ++ kept).map Prod.snd ++ held → m₂.frame q = m.frame q := fun q hq =>
      (Region.frame_of_extends hext hacc₂ hq).trans (hframe₁ q)
    have htranslate : ∀ page', t.translate m₂ page' =
        if page' % pageLimit = page then none else t.translate m page' := fun page' => by
      rw [htranslate₂, Nat.mod_eq_of_lt (h.valid.lt_limit page p hpage), htranslate₁]
    refine (ih (sound_remove h hext.tree hacc₂ htranslate)).mono ?_
    rintro _ m₃ ⟨hsound₃, hspares₃, hframe₃, htranslate₃⟩
    refine ⟨hsound₃, ?_, fun q hq => ?_, fun page' hpage' => ?_⟩
    · refine Region.Spares.trans ⟨fun q hq => hframe q (hq.imp_right (List.mem_append_right _)), ?_⟩ hspares₃
      exact Region.single_of_accounts h.accounts hacc₂ fun q hq => .inl (List.mem_cons_of_mem _ hq)
    · refine (hframe₃ q hq).trans (hframe q (.inr (List.mem_append_left _ ?_)))
      rw [List.map_append]
      exact List.mem_append_right _ hq
    · rw [List.map_cons, List.mem_cons, not_or] at hpage'
      rw [htranslate₃ page' hpage'.2, htranslate, if_neg hpage'.1]

/-! ### A new page -/

/-- The pages after an insertion under a page number that is new. -/
theorem toList_insert_perm {pages : Std.TreeMap Nat Nat} {page : Nat} (p : Nat) (hnew : page ∉ pages) :
    (pages.insert page p).toList.Perm ((page, p) :: pages.toList) := by
  refine Std.TreeMap.toList_insert_perm.trans (.cons _ (.of_eq ?_))
  rw [List.filter_eq_self]
  intro y hy
  have hmem : y.1 ∈ pages := Std.TreeMap.mem_iff_isSome_getElem?.mpr (by
    rw [Std.TreeMap.mem_toList_iff_getElem?_eq_some.mp hy]; rfl)
  simp only [beq_iff_eq, decide_eq_true_eq]
  rintro rfl
  exact hnew hmem

theorem not_mem_pages {s : AddressSpace} (h : s.region.Valid m) {page : Nat} (hnone : s.translate m page = none) :
    page ∉ s.pages := by
  intro hmem
  obtain ⟨p, hp⟩ := Option.isSome_iff_exists.mp (Std.TreeMap.mem_iff_isSome_getElem?.mp hmem)
  exact Region.not_mem_of_translate_eq_none h hnone p (Std.TreeMap.mem_toList_iff_getElem?_eq_some.mpr hp)

/-- One more page is entered in a table, which may have grown from `t` to `t'` for that. -/
theorem valid_insert {t t' : PageTable} {pages : List (Nat × Nat)} {page p : Nat} {e : Entry}
    (h : Region.Valid ⟨t, pages⟩ m) (htree : t'.Tree m') (hlt : page < pageLimit)
    (hnone : t.translate m page = none) (he : e.frame = p)
    (htranslate : ∀ page', t'.translate m' page' =
      if page' % pageLimit = page then some e else t.translate m page') : Region.Valid ⟨t', (page, p) :: pages⟩ m' := by
  have hnew : page ∉ pages.map Prod.fst := fun hmem => by
    obtain ⟨⟨page', q⟩, hq, rfl⟩ := List.mem_map.mp hmem
    exact Region.not_mem_of_translate_eq_none h hnone q hq
  refine ⟨htree, List.nodup_cons.mpr ⟨hnew, h.nodup⟩, fun page' q hq => ?_, fun page' q hlt' => ?_⟩
  · rcases List.mem_cons.mp hq with heq | hq
    · rw [(Prod.mk.inj heq).1]
      exact hlt
    · exact h.lt_limit page' q hq
  · rw [htranslate, Nat.mod_eq_of_lt hlt', List.mem_cons, Prod.mk.injEq]
    by_cases hpage : page' = page
    · subst hpage
      rw [if_pos rfl]
      simp only [true_and, Option.some.injEq, exists_eq_left', he]
      exact ⟨fun hq => (hq.resolve_right fun hq => hnew (List.mem_map_of_mem hq)).symm, fun hq => .inl hq.symm⟩
    · rw [if_neg hpage, ← h.mem_iff page' q hlt']
      exact ⟨fun hq => hq.resolve_left fun heq => hpage heq.1, .inr⟩

/-- A frame that was taken is entered in the table and gets a holder. The table has grown from `t` to `t'` before. -/
private theorem sound_insert {t t' : PageTable} {pages : List (Nat × Nat)} {page p : Nat} {flags : EntryFlags}
    (h : Region.Sound ⟨t, pages⟩ m foreign (p :: owned) held) (hext : PageTable.Extends t t' m m')
    (hlt : page < pageLimit) (hnone : t.translate m page = none)
    (hacc : m'.Accounts foreign (p :: (t'.nodes ++ owned)) (pages.map Prod.snd ++ held))
    (htranslate : ∀ page', t'.translate m' page' =
      if page' % pageLimit = page % pageLimit then some (.make p (flags ||| .valid)) else t.translate m page') :
    Region.Sound ⟨t', (page, p) :: pages⟩ (m'.setHolderCount p (m'.holderCount p + 1)) foreign owned held := by
  have hlimit : p < Entry.frameLimit := hacc.lt_frameLimit (.inl List.mem_cons_self)
  have hpages : p ∉ pages.map Prod.snd := fun hp => hacc.of_owned.2.2 (List.mem_append_left _ hp)
  have htranslate' : ∀ page', t'.translate (m'.setHolderCount p (m'.holderCount p + 1)) page' =
      if page' % pageLimit = page then some (.make p (flags ||| .valid)) else t.translate m page' := fun page' => by
    rw [← Nat.mod_eq_of_lt hlt]
    exact htranslate page'
  refine ⟨hacc.hold_owned, valid_insert h.valid (hext.tree.congr fun _ _ => rfl) hlt hnone (Entry.frame_make hlimit _)
    htranslate', fun page' e he hw => ?_⟩
  rw [htranslate'] at he
  rw [holderCount_setHolderCount]
  split at he
  · obtain rfl := Option.some.inj he
    rw [Entry.frame_make hlimit, if_pos rfl, hacc.holders p hacc.of_owned.1, List.count_eq_zero.mpr hacc.of_owned.2.2]
  · have hmem := List.mem_map_of_mem (f := Prod.snd) (h.valid.mem_of_translate he)
    have hne : p ≠ e.frame := by rintro rfl; exact hpages hmem
    rw [if_neg hne, holderCount_congr hext.holders]
    exact h.exclusive page' e he hw

/-- The table has grown, and the pages have stayed. -/
private theorem sound_extends {t t' : PageTable} {pages : List (Nat × Nat)} {p : Nat}
    (h : Region.Sound ⟨t, pages⟩ m foreign (p :: owned) held) (hext : PageTable.Extends t t' m m')
    (hacc : m'.Accounts foreign (t'.nodes ++ owned) (pages.map Prod.snd ++ held))
    (htranslate : ∀ page', t'.translate m' page' = t.translate m page') :
    Region.Sound ⟨t', pages⟩ m' foreign owned held := by
  refine ⟨hacc, ⟨hext.tree, h.valid.nodup, h.valid.lt_limit, fun page q hlt => ?_⟩, fun page e he hw => ?_⟩
  · rw [htranslate, h.valid.mem_iff page q hlt]
  · rw [htranslate] at he
    rw [holderCount_congr hext.holders]
    exact h.exclusive page e he hw

/-- A page number that is not mapped is mapped to a new frame of zeros, if there are frames enough. -/
theorem mapZeroed_spec {s : AddressSpace} (h : s.region.Sound m foreign owned held) {page : Nat}
    (hlt : page < pageLimit) (hnone : s.translate m page = none) (flags : EntryFlags) :
    (s.mapZeroed page flags).Ensures m
      (fun r m' => r.1.region.Sound m' foreign owned held ∧ Region.Spares m m' owned held ∧
        (∀ p ∈ s.region.frames, m'.frame p = m.frame p) ∧
        if r.2 then ∃ p, r.1.pages = s.pages.insert page p ∧ p ∉ s.region.frames ++ held ∧ m'.frame p = .zero ∧
          ∀ page', r.1.translate m' page' =
            if page' % pageLimit = page then some (.make p (flags ||| .valid)) else s.translate m page'
        else r.1.pages = s.pages ∧ ∀ page', r.1.translate m' page' = s.translate m page')
      fun _ _ => False := by
  unfold mapZeroed
  rw [Run.ensures_bind]
  refine (takeFrame_accounts h.accounts).mono fun r m₁ hr => ?_
  cases r with
  | none =>
    obtain ⟨rfl, -⟩ := hr
    exact ⟨h, .refl _ _ _, fun _ _ => rfl, rfl, fun _ => rfl⟩
  | some p =>
    obtain ⟨hacc₁, hframe₁, hholders₁⟩ := hr
    obtain ⟨h₁, htranslate₁, hother⟩ := h.take hacc₁ (fun q hq => by rw [hframe₁, if_neg (Ne.symm hq)]) hholders₁
    have htranslate₁ : ∀ page', s.table.translate m₁ page' = s.translate m page' := htranslate₁
    have htree₁ : s.table.Tree m₁ := h₁.valid.tree
    have hnone₁ : s.table.translate m₁ page = none := (htranslate₁ page).trans hnone
    simp only [Run.ensures_bind]
    refine (PageTable.map_spec htree₁ h₁.accounts hnone₁ flags).mono ?_
    rintro ⟨t', mapped⟩ m₂ ⟨hext, hacc₂, htr₂, _⟩
    have hframe : ∀ q, q ∈ owned ∨ q ∈ s.region.frames ++ held → m₂.frame q = m.frame q := fun q hq =>
      (Region.frame_of_extends hext hacc₂ (hq.imp_left (List.mem_cons_of_mem p))).trans (hother q hq).2
    have hzero : m₂.frame p = .zero := by
      rw [Region.frame_of_extends hext hacc₂ (.inl List.mem_cons_self), hframe₁, if_pos rfl]
    have hacc₂' := hacc₂.perm List.perm_middle (.refl _)
    cases mapped with
    | true =>
      simp only [if_true, Run.ensures_bind, Run.ensures_pure]
      have htr : ∀ page', t'.translate m₂ page' =
          if page' % pageLimit = page % pageLimit then some (.make p (flags ||| .valid))
          else s.table.translate m₁ page' := fun page' => by simpa using htr₂ page'
      have hsound := sound_insert h₁ hext hlt hnone₁ hacc₂' htr
      refine ⟨hsound.perm (toList_insert_perm p (not_mem_pages h.valid hnone)).symm,
        ⟨fun q hq => hframe q (hq.imp_right (List.mem_append_right _)), ?_⟩,
        fun q hq => hframe q (.inr (List.mem_append_left _ hq)), p, rfl, fun hp => (hother p (.inr hp)).1 rfl, hzero,
        fun page' => ?_⟩
      · refine Region.single_of_accounts h.accounts hsound.accounts fun q hq => ?_
        rcases List.mem_cons.mp hq with rfl | hq
        · exact .inr fun hheld => (hother q (.inr (List.mem_append_right _ hheld))).1 rfl
        · exact .inl hq
      · rw [← Nat.mod_eq_of_lt hlt]
        exact (htr page').trans (by rw [htranslate₁])
    | false =>
      simp only [Bool.false_eq_true, if_false, Run.ensures_bind]
      refine (giveFrame_accounts hacc₂').mono ?_
      rintro _ m₃ ⟨hacc₃, hcontents, hholders₃⟩
      have hframe₃ : ∀ q, m₃.frame q = m₂.frame q := frame_congr hcontents
      have hext₃ : PageTable.Extends s.table t' m₁ m₃ :=
        ⟨hext.root, hext.tree.congr fun q _ => hframe₃ q, hext.subset, fun q hq => (hframe₃ q).trans (hext.frame q hq),
          hholders₃.trans hext.holders⟩
      have htr : ∀ page', t'.translate m₃ page' = s.table.translate m₁ page' := fun page' => by
        rw [hext.tree.translate_congr fun q _ => hframe₃ q]
        simpa using htr₂ page'
      have hsound : Region.Sound ⟨t', s.pages.toList⟩ m₃ foreign owned held := sound_extends h₁ hext₃ hacc₃ htr
      refine ⟨hsound, ⟨fun q hq => (hframe₃ q).trans (hframe q (hq.imp_right (List.mem_append_right _))), ?_⟩,
        fun q hq => (hframe₃ q).trans (hframe q (.inr (List.mem_append_left _ hq))), rfl,
        fun page' => (htr page').trans (htranslate₁ page')⟩
      exact Region.single_of_accounts h.accounts hsound.accounts fun q hq => .inl hq

/-! ### A private page -/

/-- The content of a page, if the page is held. -/
def content (s : AddressSpace) (m : PhysicalMemory) (page : Nat) : Option Frame := s.pages[page]?.map m.frame

theorem mem_frames_iff {s : AddressSpace} {p : Nat} : p ∈ s.region.frames ↔ ∃ page : Nat, s.pages[page]? = some p := by
  rw [Region.mem_frames]
  exact exists_congr fun page => Std.TreeMap.mem_toList_iff_getElem?_eq_some

theorem mem_frames {s : AddressSpace} {page p : Nat} (hp : s.pages[page]? = some p) : p ∈ s.region.frames :=
  mem_frames_iff.mpr ⟨page, hp⟩

theorem lt_of_getElem? {s : AddressSpace} (h : s.region.Valid m) {page p : Nat} (hp : s.pages[page]? = some p) :
    page < pageLimit :=
  h.lt_limit page p (Std.TreeMap.mem_toList_iff_getElem?_eq_some.mpr hp)

theorem getElem?_of_pages_eq_empty {s : AddressSpace} (h : s.pages = ∅) (page : Nat) : s.pages[page]? = none := by
  rw [h]
  exact Std.TreeMap.getElem?_emptyc

/-- The entries of the page table and the pages that are held, for page numbers that the page table can tell apart. -/
theorem map_frame_translate {s : AddressSpace} (h : s.region.Valid m) {page : Nat} (hlt : page < pageLimit) :
    (s.translate m page).map Entry.frame = s.pages[page]? := by
  ext p
  rw [Option.map_eq_some_iff, ← Std.TreeMap.mem_toList_iff_getElem?_eq_some]
  exact (h.mem_iff page p hlt).symm

/-- A page that the page table leads to is held under its own number. -/
theorem getElem?_of_translate {s : AddressSpace} (h : s.region.Sound m foreign owned held) {page : Nat}
    (hlt : page < pageLimit) {e : Entry} (he : s.translate m page = some e) : s.pages[page]? = some e.frame := by
  rw [← map_frame_translate h.valid hlt, he, Option.map_some]

/-- A page that the page table leads to is held under the number that the table takes it for. -/
theorem getElem?_mod_of_translate {s : AddressSpace} (h : s.region.Valid m) {page : Nat} {e : Entry}
    (he : s.translate m page = some e) : s.pages[page % pageLimit]? = some e.frame :=
  Std.TreeMap.mem_toList_iff_getElem?_eq_some.mp (h.mem_of_translate he)

/-- The content of the pages depends on the data frames only. -/
theorem content_congr {s s' : AddressSpace} {page : Nat} (hpages : s'.pages[page]? = s.pages[page]?)
    (hframe : ∀ p ∈ s.region.frames, m'.frame p = m.frame p) : s'.content m' page = s.content m page := by
  rw [content, content, hpages]
  cases hp : s.pages[page]? with
  | none => rfl
  | some p => rw [Option.map_some, Option.map_some, hframe p (mem_frames hp)]

/-- The pages besides one. -/
def otherPages (s : AddressSpace) (page : Nat) : List (Nat × Nat) := s.pages.toList.filter fun y => ¬page == y.1

private theorem toList_perm {s : AddressSpace} (h : s.region.Valid m) {page p : Nat} (hp : s.pages[page]? = some p) :
    s.pages.toList.Perm ((page, p) :: s.otherPages page) := by
  have hnodup : s.pages.toList.Nodup := List.Nodup.of_map Prod.fst h.nodup
  have hnew : (page, p) ∉ s.otherPages page := fun hmem => by simpa using (List.mem_filter.mp hmem).2
  refine (List.perm_ext_iff_of_nodup hnodup (List.nodup_cons.mpr ⟨hnew, hnodup.filter _⟩)).mpr ?_
  rintro ⟨page', q⟩
  rw [List.mem_cons, Prod.mk.injEq, otherPages, List.mem_filter]
  by_cases hpage : page' = page
  · subst hpage
    simp only [Std.TreeMap.mem_toList_iff_getElem?_eq_some, hp, Option.some.injEq, true_and]
    simp [eq_comm]
  · simp [hpage, Ne.symm hpage]

/-- The entry of a page is replaced by a writable one for the only holder of its frame. -/
private theorem sound_replace {t : PageTable} {pages : List (Nat × Nat)} {page p q : Nat} {flags : EntryFlags}
    (h : Region.Sound ⟨t, (page, p) :: pages⟩ m foreign owned held) (htree : t.Tree m')
    (hacc : m'.Accounts foreign (t.nodes ++ owned) (q :: pages.map Prod.snd ++ held))
    (hnew : q ∉ pages.map Prod.snd ++ held)
    (htranslate : ∀ page', t.translate m' page' =
      if page' % pageLimit = page then some (.make q (flags ||| .valid)) else t.translate m page') :
    Region.Sound ⟨t, (page, q) :: pages⟩ m' foreign owned held := by
  have hvalid := h.valid
  have hlt : page < pageLimit := hvalid.lt_limit page p List.mem_cons_self
  have hlimit : q < Entry.frameLimit := hacc.lt_frameLimit (.inr (List.mem_append_left _ List.mem_cons_self))
  have hpage : page ∉ pages.map Prod.fst := (List.nodup_cons.mp hvalid.nodup).1
  refine ⟨hacc, ⟨htree, hvalid.nodup, fun page' r hr => ?_, fun page' r hlt' => ?_⟩, fun page' e he hw => ?_⟩
  · rcases List.mem_cons.mp hr with heq | hr
    · rw [(Prod.mk.inj heq).1]
      exact hlt
    · exact hvalid.lt_limit page' r (List.mem_cons_of_mem _ hr)
  · rw [htranslate, Nat.mod_eq_of_lt hlt', List.mem_cons, Prod.mk.injEq]
    by_cases hsame : page' = page
    · subst hsame
      rw [if_pos rfl]
      simp only [true_and, Option.some.injEq, exists_eq_left', Entry.frame_make hlimit]
      exact ⟨fun hr => (hr.resolve_right fun hr => hpage (List.mem_map_of_mem hr)).symm, fun hr => .inl hr.symm⟩
    · rw [if_neg hsame, ← hvalid.mem_iff page' r hlt', List.mem_cons, Prod.mk.injEq]
      exact ⟨fun hr => .inr (hr.resolve_left fun heq => hsame heq.1),
        fun hr => .inr (hr.resolve_left fun heq => hsame heq.1)⟩
  · rw [htranslate] at he
    split at he
    · obtain rfl := Option.some.inj he
      rw [Entry.frame_make hlimit, hacc.holderCount_eq (List.mem_append_left _ List.mem_cons_self), List.cons_append,
        List.count_cons_self, List.count_eq_zero.mpr hnew]
    next hne =>
      have hmem : (page' % pageLimit, e.frame) ∈ pages := by
        have := hvalid.mem_of_translate he
        rw [List.mem_cons, Prod.mk.injEq] at this
        exact this.resolve_left fun heq => hne heq.1
      have hmem' : e.frame ∈ pages.map Prod.snd ++ held := List.mem_append_left _ (List.mem_map_of_mem hmem)
      have hframe : q ≠ e.frame := by rintro rfl; exact hnew hmem'
      refine h.accounts.holderCount_eq_one hacc ?_ (List.mem_cons_of_mem _ hmem') (h.exclusive page' e he hw)
      rw [List.cons_append, List.count_cons_of_ne hframe]
      exact (List.sublist_cons_self _ _).count_le _

/-- Whether memory has become one in which a page of an address space, with the entry `e`, is writable, on a frame that
is for it alone. All pages keep their contents. -/
structure Unshares (foreign : Surroundings) (owned held : List Nat) (s : AddressSpace) (m : PhysicalMemory) (page : Nat)
    (e : Entry) (s' : AddressSpace) (m' : PhysicalMemory) : Prop where
  sound : s'.region.Sound m' foreign owned held
  spares : Region.Spares m m' owned held
  content : ∀ page', s'.content m' page' = s.content m page'
  translate : ∃ p, ∀ page', s'.translate m' page' =
    if page' % pageLimit = page then some (.make p ((e.flags.without .valid).unshared ||| .valid))
    else s.translate m page'

section Unshares

variable {s : AddressSpace} {page : Nat} {e : Entry} (h : s.region.Sound m foreign owned held) (hlt : page < pageLimit)
  (he : s.translate m page = some e)

include h hlt he

/-- A page whose frame has no other holder becomes writable where it is. -/
private theorem remap_unshares (hone : m.holderCount e.frame = 1) :
    (s.table.remap page e.frame (e.flags.without .valid).unshared).Ensures m
      (fun _ m' => Unshares foreign owned held s m page e s m') fun _ _ => False := by
  have hperm := toList_perm h.valid (getElem?_of_translate h hlt he)
  have hsound := h.perm hperm
  have htree : s.table.Tree m := h.valid.tree
  refine (PageTable.remap_spec htree (Option.isSome_iff_exists.mpr ⟨e, he⟩) e.frame _).mono ?_
  rintro _ m' ⟨hext, halloc, htr⟩
  have hacc' : m'.Accounts foreign (s.table.nodes ++ owned) (s.region.frames ++ held) :=
    h.accounts.congr halloc hext.holders
  have hframe : ∀ q, q ∈ owned ∨ q ∈ s.region.frames ++ held → m'.frame q = m.frame q := fun q hq =>
    Region.frame_of_extends hext hacc' hq
  have htr' : ∀ page', s.table.translate m' page' =
      if page' % pageLimit = page then some (.make e.frame ((e.flags.without .valid).unshared ||| .valid))
      else s.table.translate m page' := fun page' => by
    rw [htr, Nat.mod_eq_of_lt hlt]
  have hnew : e.frame ∉ (s.otherPages page).map Prod.snd ++ held := by
    have hcount := hsound.accounts.holderCount_eq (List.mem_append_left held List.mem_cons_self)
    rw [hone] at hcount
    exact List.count_eq_zero.mp (by rw [List.count_append] at hcount ⊢; simp [Region.frames] at hcount ⊢; omega)
  have hsound' := sound_replace hsound hext.tree (hacc'.perm (.refl _) ((hperm.map Prod.snd).append_right held)) hnew htr'
  refine ⟨hsound'.perm hperm.symm, ⟨fun q hq => hframe q (hq.imp_right (List.mem_append_right _)), ?_⟩, fun page' => ?_,
    e.frame, htr'⟩
  · exact Region.single_of_accounts h.accounts hacc' fun q hq => .inl hq
  · exact content_congr rfl fun q hq => hframe q (.inr (List.mem_append_left _ hq))

/-- A page becomes writable on a copy of its frame, which has been taken before. -/
private theorem copy_unshares {m₁ : PhysicalMemory} {copy : Nat}
    (hacc : m₁.Accounts foreign (copy :: (s.table.nodes ++ owned)) (s.region.frames ++ held))
    (hframe : ∀ q, q ≠ copy → m₁.frame q = m.frame q) (hholders : m₁.holders = m.holders) :
    Run.Ensures (do
      s.table.remap page copy (e.flags.without .valid).unshared
      hold copy
      letGo e.frame) (m₁.setFrame copy (m₁.frame e.frame))
      (fun _ m' => Unshares foreign owned held s m page e { s with pages := s.pages.insert page copy } m')
      fun _ _ => False := by
  have hpage := getElem?_of_translate h hlt he
  have hperm := toList_perm h.valid hpage
  have hframes : (s.region.frames ++ held).Perm (e.frame :: ((s.otherPages page).map Prod.snd ++ held)) :=
    (hperm.map Prod.snd).append_right held
  have hsame : ∀ q, q ≠ copy → (m₁.setFrame copy (m₁.frame e.frame)).frame q = m.frame q := fun q hq => by
    rw [frame_setFrame, if_neg (Ne.symm hq), hframe q hq]
  obtain ⟨h₂, htr₂, hother⟩ := h.take (hacc.setFrame copy _) hsame hholders
  have htr₂ : ∀ page', s.table.translate _ page' = s.translate m page' := htr₂
  have htree₂ : s.table.Tree (m₁.setFrame copy (m₁.frame e.frame)) := h₂.valid.tree
  rw [Run.ensures_bind]
  refine (PageTable.remap_spec htree₂ (by rw [htr₂, he]; rfl) copy _).mono ?_
  rintro _ m₃ ⟨hext, halloc, htr₃⟩
  have hacc₃ := h₂.accounts.congr halloc hext.holders
  have hframe₃ : ∀ q, q ∈ owned ∨ q ∈ s.region.frames ++ held → m₃.frame q = m.frame q := fun q hq =>
    (Region.frame_of_extends hext hacc₃ (hq.imp_left (List.mem_cons_of_mem copy))).trans (hother q hq).2
  have hcopy : m₃.frame copy = m.frame e.frame := by
    rw [Region.frame_of_extends hext hacc₃ (.inl List.mem_cons_self), frame_setFrame, if_pos rfl]
    exact hframe _ (hother _ (.inr (List.mem_append_left _ (mem_frames hpage)))).1
  -- the copy gets a holder, and the shared frame loses one
  have hacc₄ := (hacc₃.perm List.perm_middle (.refl _)).hold_owned.perm (.refl _)
    (hframes.cons copy |>.trans (.swap _ _ _))
  simp only [hold, Run.ensures_bind, Run.ensures_modify]
  refine (letGo_accounts hacc₄).mono ?_
  rintro _ m₅ ⟨hacc₅, hcontents⟩
  have hframe₅ : ∀ q, m₅.frame q = m₃.frame q := frame_congr hcontents
  have htr : ∀ page', s.table.translate m₅ page' =
      if page' % pageLimit = page then some (.make copy ((e.flags.without .valid).unshared ||| .valid))
      else s.table.translate m page' := fun page' => by
    rw [hext.tree.translate_congr (fun q _ => hframe₅ q), htr₃, Nat.mod_eq_of_lt hlt, htr₂]
    rfl
  have hnew : copy ∉ (s.otherPages page).map Prod.snd ++ held := fun hq =>
    (hother copy (.inr (hframes.mem_iff.mpr (List.mem_cons_of_mem _ hq)))).1 rfl
  have hsound' := sound_replace (h.perm hperm) (hext.tree.congr fun q _ => hframe₅ q) hacc₅ hnew htr
  refine ⟨hsound'.perm Std.TreeMap.toList_insert_perm.symm,
    ⟨fun q hq => (hframe₅ q).trans (hframe₃ q (hq.imp_right (List.mem_append_right _))), ?_⟩, fun page' => ?_, copy, htr⟩
  · refine Region.single_of_accounts h.accounts hsound'.accounts fun q hq => ?_
    rcases List.mem_cons.mp hq with rfl | hq
    · exact .inr fun hheld => hnew (List.mem_append_right _ hheld)
    · exact .inl ((hperm.map Prod.snd).mem_iff.mpr (List.mem_cons_of_mem _ hq))
  · by_cases hpage' : page = page'
    · simp only [content, Std.TreeMap.getElem?_insert, Nat.compare_eq_eq, if_pos hpage']
      rw [← hpage', hpage, Option.map_some, Option.map_some, hframe₅, hcopy]
    · refine content_congr ?_ fun q hq => (hframe₅ q).trans (hframe₃ q (.inr (List.mem_append_left _ hq)))
      simp only [Std.TreeMap.getElem?_insert, Nat.compare_eq_eq, if_neg hpage']

end Unshares

/-- A copy-on-write page becomes writable, if there is a frame for a copy in case there must be one. -/
theorem resolveCow_spec {s : AddressSpace} (h : s.region.Sound m foreign owned held) {page : Nat}
    (hlt : page < pageLimit) :
    (s.resolveCow page).Ensures m
      (fun r m' => match r with
        | .error e => e = .noMemory ∧ m' = m ∧ m.allocator.alloc = none
        | .ok none => m' = m ∧ ∀ e, s.translate m page = some e → e.isCow = false
        | .ok (some s') => ∃ e, s.translate m page = some e ∧ Unshares foreign owned held s m page e s' m')
      fun _ _ => False := by
  unfold resolveCow
  simp only [Attempt.ensures_bind, Attempt.ensures_get]
  cases htranslate : s.translate m page with
  | none => exact ⟨rfl, by simp⟩
  | some e =>
    by_cases hcow : e.isCow = true
    case neg =>
      simp only [hcow, Bool.not_false, if_true]
      exact ⟨rfl, fun e' he' => by rw [← Option.some.inj he']; simpa using hcow⟩
    simp only [hcow, Bool.not_true, Bool.false_eq_true, if_false, getElem?_of_translate h hlt htranslate]
    split
    next hone =>
      simp only [Attempt.ensures_bind, Attempt.ensures_liftM]
      exact (remap_unshares h hlt htranslate hone).mono fun _ _ hunshares => ⟨e, rfl, hunshares⟩
    next hone =>
      simp only [Attempt.ensures_bind, Attempt.ensures_liftM]
      refine (takeFrame_accounts h.accounts).mono fun r m₁ hr => ?_
      cases r with
      | none =>
        obtain ⟨rfl, halloc⟩ := hr
        exact ⟨rfl, rfl, halloc⟩
      | some copy =>
        obtain ⟨hacc₁, hframe₁, hholders₁⟩ := hr
        simp only [Attempt.ensures_bind, Attempt.ensures_modify, Attempt.ensures_liftM]
        have hcopied := copy_unshares h hlt htranslate hacc₁ (fun q hq => by rw [hframe₁, if_neg (Ne.symm hq)]) hholders₁
        simp only [Run.ensures_bind] at hcopied
        exact hcopied.mono fun _ _ hholds => hholds.mono fun _ _ hgone => hgone.mono fun _ _ hunshares =>
          ⟨e, rfl, hunshares⟩

/-- A page number that is too large for the page table stops the kernel if the page that the table takes it for is
copy-on-write. Otherwise nothing happens. -/
theorem resolveCow_eq_of_le {s : AddressSpace} (h : s.region.Valid m) {page : Nat}
    (hle : pageLimit ≤ page) :
    (s.resolveCow page).run m =
      if (s.translate m page).any Entry.isCow then .error .cowFrameMissing m else .ok (.ok none) m := by
  have hnone : s.pages[page]? = none := by
    cases hp : s.pages[page]? with
    | none => rfl
    | some p => exact absurd (lt_of_getElem? h hp) (Nat.not_lt.mpr hle)
  unfold resolveCow
  rw [Attempt.run_get_bind]
  cases s.translate m page with
  | none => rfl
  | some e =>
    cases hcow : e.isCow with
    | false =>
      simp only [hcow, Bool.not_false, if_true, Option.any_some, Bool.false_eq_true, if_false]
      rfl
    | true =>
      simp only [hcow, Bool.not_true, Bool.false_eq_true, if_false, hnone, Option.any_some, if_true]
      rfl

/-! ### The life of an address space -/

/-- A new address space has no pages. -/
theorem create_spec (hacc : m.Accounts foreign owned held) :
    create.Ensures m
      (fun r m' => match r with
        | none => m' = m ∧ m.allocator.alloc = none
        | some s => s.pages = ∅ ∧ s.region.Sound m' foreign owned held ∧ Region.Spares m m' owned held ∧
            m'.holders = m.holders ∧ (∀ page, s.translate m' page = none) ∧
            ∀ path, (m'.descend s.table.root path).isSome → path = [])
      fun _ _ => False := by
  unfold create
  rw [Run.ensures_bind]
  refine (PageTable.create_spec hacc).mono fun r m' hr => ?_
  cases r with
  | none => exact hr
  | some t =>
    obtain ⟨htree, hacc', htranslate, hframe, hholders, hpaths⟩ := hr
    have hpages : (∅ : Std.TreeMap Nat Nat).toList = [] := rfl
    refine ⟨rfl, ⟨by simpa [region, Region.frames, hpages] using hacc', ⟨htree, by simp [region, hpages], by simp [region, hpages],
      fun page p _ => ?_⟩, fun page e he => ?_⟩, ⟨fun p hp => hframe p (hacc'.not_mem_left hp), fun p hp hone => ?_⟩,
      hholders, htranslate, hpaths⟩
    · simp [region, hpages, htranslate]
    · exact absurd ((htranslate page).symm.trans he) (by simp)
    · rw [holderCount_congr hholders, hone]

private theorem letGoAll_spec {l : List (Nat × Nat)} (hacc : m.Accounts foreign owned (l.map Prod.snd ++ held)) :
    (letGoAll l).Ensures m (fun _ m' => m'.Accounts foreign owned held ∧ m'.contents = m.contents)
      fun _ _ => False := by
  induction l generalizing m with
  | nil => exact ⟨hacc, rfl⟩
  | cons y rest ih =>
    obtain ⟨page, p⟩ := y
    unfold letGoAll
    rw [Run.ensures_bind]
    refine (letGo_accounts hacc).mono ?_
    rintro _ m₁ ⟨hacc₁, hc₁⟩
    refine (ih hacc₁).mono ?_
    rintro _ m₂ ⟨hacc₂, hc₂⟩
    exact ⟨hacc₂, hc₂.trans hc₁⟩

/-- An address space that is given up gives all its frames back. -/
theorem release_spec {s : AddressSpace} (h : s.region.Sound m foreign owned held) :
    s.release.Ensures m
      (fun _ m' => m'.Accounts foreign owned held ∧ Region.Spares m m' owned held ∧ m'.contents = m.contents)
      fun _ _ => False := by
  unfold release PageTable.release
  rw [Run.ensures_bind]
  refine (giveFrames_accounts h.accounts).mono ?_
  rintro _ m₁ ⟨hacc₁, hc₁, _⟩
  refine (letGoAll_spec hacc₁).mono ?_
  rintro _ m₂ ⟨hacc₂, hc₂⟩
  have hcontents := hc₂.trans hc₁
  refine ⟨hacc₂, ⟨fun p _ => frame_congr hcontents p, ?_⟩, hcontents⟩
  have hnone : m₂.Accounts foreign owned ([] ++ held) := hacc₂
  exact Region.single_of_accounts h.accounts hnone (by simp)

/-- The pages in a range are dropped, and the others stay. -/
theorem unmapRange_spec {s : AddressSpace} (h : s.region.Sound m foreign owned held) (range : PageRange) :
    (s.unmapRange range).Ensures m
      (fun s' m' => s'.region.Sound m' foreign owned held ∧ Region.Spares m m' owned held ∧ s'.table = s.table ∧
        (∀ page, s'.content m' page = if page ∈ range then none else s.content m page) ∧
        ∀ page p, s'.pages[page]? = some p → s'.translate m' page = s.translate m page)
      fun _ _ => False := by
  have hperm : s.pages.toList.Perm ((s.pages.filter fun page _ => page ∈ range).toList ++
      (s.pages.filter fun page _ => page ∉ range).toList) := by
    simp only [Std.TreeMap.toList_filter]
    refine ((List.filter_append_perm (fun y : Nat × Nat => y.1 ∈ range) s.pages.toList).symm).trans (.of_eq ?_)
    congr 2
    funext y
    simp
  have hget : ∀ page, (s.pages.filter fun page _ => page ∉ range)[page]? =
      if page ∈ range then none else s.pages[page]? := fun page => by
    rw [Std.TreeMap.getElem?_filter']
    cases s.pages[page]? <;> by_cases hpage : page ∈ range <;> simp [hpage]
  unfold unmapRange
  rw [Run.ensures_bind]
  refine (dropPages_spec (h.perm hperm)).mono ?_
  rintro _ m' ⟨hsound, hspares, hframe, htranslate⟩
  refine ⟨hsound, hspares, rfl, fun page => ?_, fun page p hp => ?_⟩
  · by_cases hpage : page ∈ range
    · simp only [content, hget, if_pos hpage]
      rfl
    · rw [if_neg hpage]
      let s' : AddressSpace := { s with pages := s.pages.filter fun page _ => page ∉ range }
      have hsame : s'.content m' page = s'.content m page := content_congr rfl hframe
      simpa only [content, s', hget, if_neg hpage] using hsame
  · have hlt := lt_of_getElem? hsound.valid hp
    refine htranslate page ?_
    rw [Nat.mod_eq_of_lt hlt]
    intro hmem
    obtain ⟨⟨page', q⟩, hq, rfl⟩ := List.mem_map.mp hmem
    have hrange : page' ∈ range := by
      rw [Std.TreeMap.toList_filter, List.mem_filter] at hq
      simpa using hq.2
    rw [hget, if_pos hrange] at hp
    exact absurd hp (by simp)

/-- All pages are dropped. -/
theorem unmapAll_spec {s : AddressSpace} (h : s.region.Sound m foreign owned held) :
    s.unmapAll.Ensures m
      (fun s' m' => s'.region.Sound m' foreign owned held ∧ Region.Spares m m' owned held ∧ s'.table = s.table ∧
        s'.pages = ∅)
      fun _ _ => False := by
  unfold unmapAll
  rw [Run.ensures_bind]
  have hall : Region.Sound ⟨s.table, s.pages.toList ++ []⟩ m foreign owned held := by
    rw [List.append_nil]
    exact h
  refine (dropPages_spec hall).mono ?_
  rintro _ m' ⟨hsound, hspares, _, _⟩
  exact ⟨hsound, hspares, rfl, rfl⟩

end AddressSpace

end TrapKernel
