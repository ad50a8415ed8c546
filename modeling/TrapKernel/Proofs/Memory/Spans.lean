import TrapKernel.Memory.User
import Mathlib.Data.List.Chain

/-!
# Spans

A range of addresses is cut into spans, one for each of its pages. The spans lie on successive pages, and their
addresses, one span after the other, are those of the range.

* `isChain_pageSpans`: the pages of the spans.
* `flatMap_addresses_pageSpans`: the addresses of the spans.
-/

namespace TrapKernel

/-- Whether a span lies on the page after that of another. -/
def Span.Next (s s' : Span) : Prop := pageOf s'.address = pageOf s.address + 1

theorem pageOf_max {address page : Nat} (h : pageOf address ≤ page) : pageOf (max address (page * pageSize)) = page := by
  simp only [pageOf, pageSize] at h ⊢
  omega

theorem pageSpans_eq_cons (address : Nat) {length : Nat} (h : length ≠ 0) :
    ∃ s rest, pageSpans address length = s :: rest ∧ s.address = address := by
  rw [pageSpans, if_neg h, List.range'_succ, List.map_cons]
  refine ⟨_, _, rfl, ?_⟩
  simp only [pageOf, pageSize]
  omega

theorem pageOf_head?_pageSpans (address length : Nat) :
    ∀ s ∈ (pageSpans address length).head?, pageOf s.address = pageOf address := by
  by_cases hzero : length = 0
  · simp [pageSpans, hzero]
  · obtain ⟨s, rest, hcons, haddress⟩ := pageSpans_eq_cons address hzero
    intro s' hs'
    obtain rfl : s = s' := by simpa [hcons] using hs'
    rw [haddress]

/-- The part of a range of addresses from `address` up to `stop` that lies in a page. -/
private def spanIn (address stop page : Nat) : Span :=
  { address := max address (page * pageSize), length := min stop ((page + 1) * pageSize) - max address (page * pageSize) }

private theorem isChain_spanIn (address stop n : Nat) {page : Nat} (h : pageOf address ≤ page) :
    ((List.range' page n).map (spanIn address stop)).IsChain Span.Next := by
  induction n generalizing page with
  | zero => exact .nil
  | succ n ih =>
    rw [List.range'_succ, List.map_cons, List.isChain_cons]
    refine ⟨fun s hs => ?_, ih (by omega)⟩
    cases n with
    | zero => simp at hs
    | succ n =>
      rw [List.range'_succ, List.map_cons, List.head?_cons, Option.mem_some_iff] at hs
      rw [← hs, Span.Next, spanIn, spanIn, pageOf_max h, pageOf_max (by omega)]

theorem isChain_pageSpans (address length : Nat) : (pageSpans address length).IsChain Span.Next := by
  unfold pageSpans
  split
  · exact .nil
  · exact isChain_spanIn address (address + length) _ (Nat.le_refl _)

/-- The first span of a range reaches to the end of its page or of the range, and the others are those of the rest. -/
theorem pageSpans_eq (address : Nat) {length : Nat} (h : length ≠ 0) :
    pageSpans address length =
      ⟨address, min length (pageSize - pageOffset address)⟩ ::
        pageSpans (address + min length (pageSize - pageOffset address))
          (length - min length (pageSize - pageOffset address)) := by
  have hspans : pageSpans address length = (List.range' (pageOf address)
      (pageOf (address + length - 1) - pageOf address + 1)).map (spanIn address (address + length)) := if_neg h
  rw [hspans, List.range'_succ, List.map_cons]
  congr 1
  · simp only [spanIn, Span.mk.injEq, pageOf, pageOffset, pageSize]
    omega
  · by_cases hlast : length ≤ pageSize - pageOffset address
    · have hpages : pageOf (address + length - 1) - pageOf address = 0 := by
        simp only [pageOf, pageOffset, pageSize] at hlast ⊢
        omega
      rw [hpages, Nat.min_eq_left hlast, Nat.sub_self]
      rfl
    · have hmin : min length (pageSize - pageOffset address) = pageSize - pageOffset address :=
        Nat.min_eq_right (Nat.le_of_not_le hlast)
      have hpage : pageOf (address + (pageSize - pageOffset address)) = pageOf address + 1 := by
        simp only [pageOf, pageOffset, pageSize]
        omega
      have hstop : address + (pageSize - pageOffset address) + (length - (pageSize - pageOffset address)) =
          address + length := by omega
      have hcount : pageOf (address + length - 1) - (pageOf address + 1) + 1 =
          pageOf (address + length - 1) - pageOf address := by
        simp only [pageOf, pageOffset, pageSize] at hlast ⊢
        omega
      rw [hmin, pageSpans, if_neg (by omega), hpage, hstop, hcount]
      refine List.map_congr_left fun page hmem => ?_
      have hle := (List.mem_range'_1.mp hmem).1
      simp only [spanIn, Span.mk.injEq, pageOf, pageOffset, pageSize] at hle ⊢
      omega

@[simp] theorem map_fst_spanBytes (l : List Span) (bytes : List UInt8) : (spanBytes l bytes).map Prod.fst = l := by
  induction l generalizing bytes with
  | nil => rfl
  | cons s rest ih => rw [spanBytes, List.map_cons, ih]

/-! ### Addresses -/

/-- The addresses of a span. -/
def Span.addresses (s : Span) : List Nat := List.range' s.address s.length

/-- Two ranges that meet, both cut off at `stop`, are one range cut off there. -/
private theorem range'_append_cut {a b c stop : Nat} (hab : a ≤ b) (hbc : b ≤ c) :
    List.range' a (min stop b - a) ++ List.range' b (min stop c - b) = List.range' a (min stop c - a) := by
  by_cases hstop : b ≤ stop
  · have hlength : min stop c - a = (b - a) + (min stop c - b) := by omega
    have hstart : b = a + (b - a) := by omega
    rw [Nat.min_eq_right hstop, hlength, ← List.range'_append_1, ← hstart]
  · have hnil : min stop c - b = 0 := by omega
    have hmin : min stop b = min stop c := by omega
    rw [hnil, hmin, List.range'_zero, List.append_nil]

private theorem flatMap_spanIn (address stop n : Nat) {page : Nat} (h : pageOf address ≤ page) :
    ((List.range' page n).map (spanIn address stop)).flatMap Span.addresses =
      List.range' (max address (page * pageSize))
        (min stop ((page + n) * pageSize) - max address (page * pageSize)) := by
  induction n generalizing page with
  | zero =>
    have hzero : min stop ((page + 0) * pageSize) - max address (page * pageSize) = 0 := by
      rw [Nat.add_zero]
      omega
    rw [hzero]
    rfl
  | succ n ih =>
    have hnext : max address ((page + 1) * pageSize) = (page + 1) * pageSize := by
      simp only [pageOf, pageSize] at h ⊢
      omega
    have hlast : page + 1 + n = page + (n + 1) := by omega
    rw [List.range'_succ, List.map_cons, List.flatMap_cons, ih (by omega), hnext, hlast, Span.addresses, spanIn]
    refine range'_append_cut ?_ ?_
    · rw [← hnext]
      simp only [pageSize]
      omega
    · exact Nat.mul_le_mul_right _ (by omega)

/-- The spans of a range have the addresses of the range. -/
theorem flatMap_addresses_pageSpans (address length : Nat) :
    (pageSpans address length).flatMap Span.addresses = List.range' address length := by
  unfold pageSpans
  split
  next hzero => rw [hzero]; rfl
  next hpos =>
    refine (flatMap_spanIn address (address + length) _ (Nat.le_refl _)).trans ?_
    have hstart : max address (pageOf address * pageSize) = address := by
      simp only [pageOf, pageSize]
      omega
    have hlength : min (address + length)
        ((pageOf address + (pageOf (address + length - 1) - pageOf address + 1)) * pageSize) - address = length := by
      simp only [pageOf, pageSize]
      omega
    rw [hstart, hlength]

/-- A span lies in one page. -/
theorem offset_add_le_of_mem_pageSpans {address length : Nat} {s : Span} (h : s ∈ pageSpans address length) :
    pageOffset s.address + s.length ≤ pageSize := by
  unfold pageSpans at h
  split at h
  · simp at h
  · obtain ⟨page, hpage, rfl⟩ := List.mem_map.mp h
    have hle := (List.mem_range'_1.mp hpage).1
    simp only [pageOffset, pageOf, pageSize] at hle ⊢
    omega

theorem pageOf_of_mem_addresses {s : Span} (h : pageOffset s.address + s.length ≤ pageSize) {x : Nat}
    (hx : x ∈ s.addresses) : pageOf x = pageOf s.address := by
  obtain ⟨hle, hlt⟩ := List.mem_range'_1.mp hx
  simp only [pageOffset, pageOf, pageSize] at h ⊢
  omega

/-- Whether a page has an address in a range of addresses. -/
def InPages (address length page : Nat) : Prop := ∃ x, address ≤ x ∧ x < address + length ∧ pageOf x = page

theorem InPages.mono {address address' length length' page : Nat} (h : InPages address length page)
    (hle : address' ≤ address) (hend : address + length ≤ address' + length') : InPages address' length' page := by
  obtain ⟨x, hx, hlt, hpage⟩ := h
  exact ⟨x, by omega, by omega, hpage⟩

theorem exists_span_iff {address length page : Nat} :
    (∃ s ∈ pageSpans address length, pageOf s.address = page) ↔ InPages address length page := by
  constructor
  · rintro ⟨s, hs, rfl⟩
    unfold pageSpans at hs
    split at hs
    · simp at hs
    · obtain ⟨page, hpage, rfl⟩ := List.mem_map.mp hs
      have hbounds := List.mem_range'_1.mp hpage
      refine ⟨_, Nat.le_max_left _ _, ?_, rfl⟩
      simp only [pageOf, pageSize] at hbounds ⊢
      omega
  · rintro ⟨x, hle, hlt, rfl⟩
    have hx : x ∈ (pageSpans address length).flatMap Span.addresses := by
      rw [flatMap_addresses_pageSpans]
      exact List.mem_range'_1.mpr ⟨hle, hlt⟩
    obtain ⟨s, hs, hxs⟩ := List.mem_flatMap.mp hx
    exact ⟨s, hs, (pageOf_of_mem_addresses (offset_add_le_of_mem_pageSpans hs) hxs).symm⟩

end TrapKernel
