import TrapKernel.Proofs.Kernel.ExactCopies
import TrapKernel.Proofs.Memory.FrameNeeds

/-!
# Texts at user addresses

A text is read byte by byte up to the first zero byte. A byte that is not zero lies on a page that is there, so reading it
changes nothing. The first touch of a page of heap or stack finds a zero byte, and with it the text ends. So whatever bytes
a process has, how the read of a text ends is told by those up to the first zero byte or the first address that cannot be
read, and at most the page of that zero byte comes into being.

* `Access.TextAt`, `Access.BreaksAt`: what there may be at an address.
* `Access.FindsText`: how the read of a text ends.
* `Kernel.Reachable.readsText`: in reachable states all texts are read so.
-/

namespace TrapKernel

open PrivatePages

namespace Access

/-- Whether the first bytes from an address on can be read, and none of them is zero. -/
def Nonzero (a : Access) (address n : Nat) : Prop := ∀ i < n, ∃ b, a.byteAt? (address + i) = some b ∧ b ≠ 0

/-- Whether some bytes stand at an address, none of them zero, and a zero byte follows them. -/
structure TextAt (a : Access) (address : Nat) (bytes : List UInt8) : Prop where
  nonzero : 0 ∉ bytes
  byteAt : ∀ i (h : i < bytes.length), a.byteAt? (address + i) = some bytes[i]
  zero : a.byteAt? (address + bytes.length) = some 0

/-- Whether `n` bytes from an address on can be read, none of them zero, and the next one cannot be read. -/
def BreaksAt (a : Access) (address n : Nat) : Prop := a.Nonzero address n ∧ a.byteAt? (address + n) = none

/-- Whether there are frames enough for the fault that a read at an address raises. -/
def Affords (a : Access) (x : Nat) : Prop := a.framesNeeded x false ≤ a.memory.freeCount

/-- Whether there are frames enough to read a text of less than `n` bytes, if there is one at an address. -/
def AffordsText (a : Access) (address n : Nat) : Prop :=
  ∀ bytes, bytes.length < n → a.TextAt address bytes → a.Affords (address + bytes.length)

/-- How the read of a text has ended, if there are frames enough. -/
structure FindsText (a : Access) (address : Nat) (r : Except Errno String) : Prop where
  /-- A text has been read exactly if it stands there, short enough and with a zero byte behind it. -/
  ok : ∀ s, r = .ok s ↔ ∃ bytes, bytes.length < pathLimit ∧ a.TextAt address bytes ∧ s.toUTF8 = ⟨bytes.toArray⟩
  /-- The address is bad exactly if a byte that cannot be read comes before the first zero byte and before the limit. -/
  badAddress : r = .error .badAddress ↔ ∃ n < pathLimit, a.BreaksAt address n
  /-- The text is not valid in all other cases: it is too long, or not well-formed. -/
  invalid : r = .error .invalid ↔ (¬∃ n < pathLimit, a.BreaksAt address n) ∧
    ∀ bytes, bytes.length < pathLimit → a.TextAt address bytes → ¬(ByteArray.mk bytes.toArray).IsValidUTF8

/-- Whether no byte that could be read has changed, and no page has come into being but that of the zero byte with which a
text of less than `n` bytes ends. -/
structure LeavesBytes (a : Access) (address n : Nat) (a' : Access) : Prop where
  kept : ∀ x b, a.byteAt? x = some b → a'.byteAt? x = some b
  pages : ∀ page, a'.heldPages.Has page → a.heldPages.Has page ∨
    ∃ bytes, bytes.length < n ∧ a.TextAt address bytes ∧ page = pageOf (address + bytes.length)

/-- Whether texts at an address are read as they should be. -/
structure ReadsText (a : Access) (address : Nat) : Prop where
  /-- Three frames are enough. -/
  enough : 3 ≤ a.memory.freeCount → a.AffordsText address pathLimit
  /-- The read ends as the bytes up to the first zero byte tell, unless the page of that zero byte takes more frames than
  there are. -/
  outcome : (readString address).Ensures a
    (fun r a' => a.LeavesBytes address pathLimit a' ∧ (a.AffordsText address pathLimit → a.FindsText address r) ∧
      (¬a.AffordsText address pathLimit → r = .error .noMemory))
    fun _ _ => False
  /-- No byte behind the first zero byte is read: it makes no difference whether they may be. -/
  stops : ∀ bytes n, a.TextAt address bytes → bytes.length < n →
    (readUntilZero address n 0).run a = (readUntilZero address (bytes.length + 1) 0).run a

variable {a a' : Access} {foreign : Surroundings} {owned held : List Nat} {address n i x : Nat} {b : UInt8}
  {bytes bytes' : List UInt8}

/-! ### Texts -/

private theorem Nonzero.cons (hb : a.byteAt? x = some b) (hne : b ≠ 0) (h : a.Nonzero (x + 1) n) :
    a.Nonzero x (n + 1) := by
  intro i hi
  cases i with
  | zero => exact ⟨b, hb, hne⟩
  | succ i =>
    obtain ⟨b', hb', hne'⟩ := h i (by omega)
    exact ⟨b', by rwa [Nat.add_assoc, Nat.add_comm 1] at hb', hne'⟩

/-- There is only one place where bytes that are not zero come to an end. -/
private theorem Nonzero.eq {n' : Nat} (h : a.Nonzero x n) (h' : a.Nonzero x n')
    (hend : ∀ b, a.byteAt? (x + n) = some b → b = 0) (hend' : ∀ b, a.byteAt? (x + n') = some b → b = 0) : n = n' := by
  rcases Nat.lt_trichotomy n n' with hlt | heq | hgt
  · obtain ⟨b, hb, hne⟩ := h' n hlt
    exact absurd (hend b hb) hne
  · exact heq
  · obtain ⟨b, hb, hne⟩ := h n' hgt
    exact absurd (hend' b hb) hne

namespace TextAt

private theorem nonzeroAt (h : a.TextAt x bytes) : a.Nonzero x bytes.length := fun i hi =>
  ⟨bytes[i], h.byteAt i hi, fun hzero => h.nonzero (hzero ▸ List.getElem_mem hi)⟩

private theorem end_zero (h : a.TextAt x bytes) (b : UInt8) (hb : a.byteAt? (x + bytes.length) = some b) : b = 0 :=
  Option.some.inj (hb.symm.trans h.zero)

private theorem unique (h : a.TextAt x bytes) (h' : a.TextAt x bytes') : bytes = bytes' := by
  have hlength := h.nonzeroAt.eq h'.nonzeroAt h.end_zero h'.end_zero
  refine List.ext_getElem hlength fun i hi hi' => ?_
  exact Option.some.inj ((h.byteAt i hi).symm.trans (h'.byteAt i hi'))

private theorem not_breaksAt (h : a.TextAt x bytes) : ¬a.BreaksAt x n := by
  rintro ⟨hnonzero, hnone⟩
  obtain rfl := h.nonzeroAt.eq hnonzero h.end_zero fun b hb => absurd (hnone.symm.trans hb) (by simp)
  exact absurd (hnone.symm.trans h.zero) (by simp)

private theorem not_nonzero (h : a.TextAt x bytes) (hlt : bytes.length < n) : ¬a.Nonzero x n := by
  intro hnonzero
  obtain ⟨b, hb, hne⟩ := hnonzero _ hlt
  exact hne (h.end_zero b hb)

private theorem nil (h : a.byteAt? x = some 0) : a.TextAt x [] :=
  ⟨List.not_mem_nil, fun _ hi => absurd hi (Nat.not_lt_zero _), h⟩

private theorem cons (hb : a.byteAt? x = some b) (hne : b ≠ 0) (h : a.TextAt (x + 1) bytes) :
    a.TextAt x (b :: bytes) where
  nonzero := by
    rw [List.mem_cons, not_or]
    exact ⟨Ne.symm hne, h.nonzero⟩
  byteAt i hi := by
    cases i with
    | zero => exact hb
    | succ i =>
      have hbyte := h.byteAt i (Nat.lt_of_succ_lt_succ hi)
      rwa [Nat.add_assoc, Nat.add_comm 1] at hbyte
  zero := by
    rw [List.length_cons, Nat.add_comm bytes.length, ← Nat.add_assoc]
    exact h.zero

private theorem tail (h : a.TextAt x (b :: bytes)) : a.byteAt? x = some b ∧ b ≠ 0 ∧ a.TextAt (x + 1) bytes := by
  obtain ⟨hne, hnonzero⟩ := not_or.mp fun hmem => h.nonzero (List.mem_cons.mpr hmem)
  have hnext (k : Nat) : x + 1 + k = x + (k + 1) := by omega
  refine ⟨h.byteAt 0 (Nat.succ_pos _), Ne.symm hne, hnonzero, fun i hi => ?_, ?_⟩
  · rw [hnext]
    exact h.byteAt (i + 1) (Nat.succ_lt_succ hi)
  · rw [hnext]
    exact h.zero

end TextAt

/-! ### Single bytes -/

private theorem LeavesBytes.refl (a : Access) (address n : Nat) : a.LeavesBytes address n a :=
  ⟨fun _ _ hb => hb, fun _ hhas => .inl hhas⟩

/-- The first touch of a page of heap or stack finds a zero byte, if there are frames enough. -/
private theorem readUser_firstTouch (h : a.Sound foreign owned held) (hnone : a.translate (pageOf x) = none)
    (hzero : a.user.isDemandZero x = true) :
    (readUser x 1).Ensures a
      (fun r a' => a.LeavesBytes x 1 a' ∧ (a.Affords x → r = .ok [0]) ∧ (¬a.Affords x → r = .error .noMemory))
      fun _ _ => False := by
  have hpage := h.fine.page_lt_of_isDemandZero hzero
  have hle : x + 1 ≤ stackTop := by
    simp only [pageOf, pageSize, stackTop] at hpage ⊢
    omega
  have hlt : pageOf x < pageLimit := Nat.lt_trans hpage (by decide)
  have hbyte : a.byteAt? x = some 0 := by rw [byteAt?, hnone, if_pos hzero]
  have hone := readUser_one h (x := x) (by simp only [stackTop, wordLimit] at hle ⊢; omega)
  rw [hbyte] at hone
  have hplain : ¬a.Aliased x := fun halias => absurd halias.1 (Nat.not_le.mpr hlt)
  have hgrows := (faithful_of_not_aliased h hplain).read 1
  refine (((readUser_exact h hle).and hgrows).and (hone.and (readUser_fault h hnone))).imp ?_ fun _ _ hstop => hstop.1.1
  rintro r a' ⟨⟨⟨hwritten, -⟩, hgrows, -⟩, hone, hfault⟩
  have hcount := (handleFault_freeCount h hlt false).of_ok hfault
  refine ⟨⟨fun y b hb => ?_, fun page hhas => ?_⟩, ?_⟩
  · rw [hwritten.others y b hb, overwrite_nil]
  · by_cases hnew : page = pageOf x
    · exact .inr ⟨[], Nat.one_pos, .nil hbyte, hnew⟩
    · have hout : ¬InPages x 1 page := by
        rintro ⟨y, hle, hlt, hy⟩
        exact hnew (by rw [← hy, show y = x by omega])
      rw [PrivatePages.Has, hgrows.same page hout] at hhas
      exact .inl hhas
  · unfold Affords
    rcases hone with rfl | ⟨rfl, -⟩
    · have hcount : a'.memory.freeCount + a.framesNeeded x false = a.memory.freeCount ∧ _ := hcount
      exact ⟨fun _ => rfl, fun hfew => absurd (by omega) hfew⟩
    · rcases hcount with ⟨-, hfew, -⟩ | ⟨hbad, -⟩
      · exact ⟨fun henough => by omega, fun _ => rfl⟩
      · exact absurd hbad (by simp)

/-- What a read of one byte does, whatever it finds. -/
private theorem readUser_byte (h : a.Sound foreign owned held) (hx : x < wordLimit) :
    (readUser x 1).Ensures a
      (fun r a' => match a.byteAt? x with
        | none => r = .error .badAddress ∧ a' = a
        | some b => if b = 0 then
            a.LeavesBytes x 1 a' ∧ (a.Affords x → r = .ok [0]) ∧ (¬a.Affords x → r = .error .noMemory)
          else r = .ok [b] ∧ a' = a)
      fun _ _ => False := by
  cases he : a.translate (pageOf x) with
  | some e =>
    have hafford : a.Affords x := by
      rw [Affords, framesNeeded, he]
      exact Nat.zero_le _
    rw [byteAt?, he]
    refine (readUser_entry h he hx).mono ?_
    rintro r _ ⟨rfl, rfl⟩
    dsimp only
    split
    next hzero => exact ⟨.refl _ x 1, fun _ => by rw [hzero], fun hfew => absurd hafford hfew⟩
    · exact ⟨rfl, rfl⟩
  | none =>
    rw [byteAt?, he]
    cases hzero : a.user.isDemandZero x with
    | true => exact readUser_firstTouch h he hzero
    | false =>
      have hone := readUser_one h hx
      rw [byteAt?, he, hzero] at hone
      refine (hone.and (readUser_fault h he)).imp ?_ fun _ _ hstop => hstop.1
      rintro r a' ⟨hr, hsame⟩
      rw [handleFault_outside he hzero] at hsame
      injection hsame with _ hsame
      exact ⟨hr, hsame.symm⟩

/-! ### The scan for the zero byte -/

/-- What a scan of at most `n` bytes from an address on has found. -/
def Scanned (a : Access) (x n : Nat) : Except Errno (List UInt8) → Prop
  | .ok bytes => bytes.length < n ∧ a.TextAt x bytes ∧ a.Affords (x + bytes.length)
  | .error .noMemory => ∃ bytes, bytes.length < n ∧ a.TextAt x bytes ∧ ¬a.Affords (x + bytes.length)
  | .error .badAddress => ∃ k < n, a.BreaksAt x k
  | .error .invalid => a.Nonzero x n
  | .error _ => False

/-- A byte that is not zero comes before what a scan finds. -/
private theorem Scanned.cons {r : Except Errno (List UInt8)} (hb : a.byteAt? x = some b) (hne : b ≠ 0)
    (h : a.Scanned (x + 1) n r) : a.Scanned x (n + 1) (r.map (b :: ·)) := by
  have hnext (k : Nat) : x + 1 + k = x + (k + 1) := by omega
  match r with
  | .ok bytes =>
    obtain ⟨hlt, htext, hafford⟩ := h
    exact ⟨Nat.succ_lt_succ hlt, htext.cons hb hne, by rwa [hnext] at hafford⟩
  | .error .noMemory =>
    obtain ⟨bytes, hlt, htext, hfew⟩ := h
    exact ⟨b :: bytes, Nat.succ_lt_succ hlt, htext.cons hb hne, by rwa [hnext] at hfew⟩
  | .error .badAddress =>
    obtain ⟨k, hk, hnonzero, hnone⟩ := h
    exact ⟨k + 1, Nat.succ_lt_succ hk, hnonzero.cons hb hne, by rwa [hnext] at hnone⟩
  | .error .invalid => exact Nonzero.cons hb hne h

private theorem LeavesBytes.cons (hb : a.byteAt? x = some b) (hne : b ≠ 0) (h : a.LeavesBytes (x + 1) n a') :
    a.LeavesBytes x (n + 1) a' := by
  refine ⟨h.kept, fun page hhas => (h.pages page hhas).imp_right ?_⟩
  rintro ⟨bytes, hlt, htext, rfl⟩
  refine ⟨b :: bytes, Nat.succ_lt_succ hlt, htext.cons hb hne, ?_⟩
  rw [List.length_cons, Nat.add_assoc, Nat.add_comm 1]

private theorem LeavesBytes.mono {n' : Nat} (h : a.LeavesBytes x n a') (hle : n ≤ n') : a.LeavesBytes x n' a' :=
  ⟨h.kept, fun page hhas => (h.pages page hhas).imp_right fun ⟨bytes, hlt, hrest⟩ =>
    ⟨bytes, Nat.lt_of_lt_of_le hlt hle, hrest⟩⟩

private theorem readUntilZero_scanned (h : a.Sound foreign owned held) (hle : address + i + n ≤ wordLimit) :
    (readUntilZero address n i).Ensures a (fun r a' => a.Scanned (address + i) n r ∧ a.LeavesBytes (address + i) n a')
      fun _ _ => False := by
  -- memory is the same as long as no zero byte has been read, so that it stays fixed in the induction
  induction n generalizing i with
  | zero => exact ⟨fun k hk => absurd hk (Nat.not_lt_zero k), .refl a _ _⟩
  | succ n ih =>
    unfold readUntilZero
    rw [if_pos (by omega), Attempt.ensures_bind]
    refine (readUser_byte h (by omega)).mono fun r a₁ hr => ?_
    cases hb : a.byteAt? (address + i) with
    | none =>
      rw [hb] at hr
      obtain ⟨rfl, rfl⟩ := hr
      exact ⟨⟨0, Nat.succ_pos n, fun _ hi => absurd hi (Nat.not_lt_zero _), hb⟩, .refl _ _ _⟩
    | some b =>
      rw [hb] at hr
      dsimp only at hr
      split at hr
      next hzero =>
        subst hzero
        obtain ⟨hleaves, hok, hfail⟩ := hr
        have hleaves := hleaves.mono (Nat.succ_le_succ (Nat.zero_le n))
        by_cases hafford : a.Affords (address + i)
        · obtain rfl := hok hafford
          exact ⟨⟨Nat.succ_pos n, .nil hb, hafford⟩, hleaves⟩
        · obtain rfl := hfail hafford
          exact ⟨⟨[], Nat.succ_pos n, .nil hb, hafford⟩, hleaves⟩
      next hne =>
        obtain ⟨rfl, rfl⟩ := hr
        show Attempt.Ensures (if b = 0 then _ else _) _ _ _
        rw [if_neg hne, Attempt.ensures_bind]
        refine (ih (i := i + 1) (by omega)).mono ?_
        rintro r a' ⟨hscanned, hleaves⟩
        cases r with
        | ok bytes => exact ⟨hscanned.cons hb hne, hleaves.cons hb hne⟩
        | error e => exact ⟨hscanned.cons hb hne, hleaves.cons hb hne⟩

/-- Bytes behind the first zero byte do not matter to the scan. -/
private theorem readUntilZero_stops (h : a.Sound foreign owned held) (htext : a.TextAt (address + i) bytes) (n : Nat) :
    (readUntilZero address (bytes.length + 1 + n) i).run a = (readUntilZero address (bytes.length + 1) i).run a := by
  induction bytes generalizing i with
  | nil =>
    rw [List.length_nil, Nat.add_comm, ← Nat.add_assoc]
    unfold readUntilZero
    split
    swap
    · rfl
    next hword =>
      refine Attempt.run_bind_congr rfl fun bytes t hread => ?_
      have hbyte := (readUser_byte h hword).of_ok hread
      rw [show a.byteAt? (address + i) = some 0 from htext.zero] at hbyte
      obtain ⟨-, hok, hfail⟩ := hbyte
      have hbytes : bytes = [0] := by
        by_cases hafford : a.Affords (address + i)
        · exact Except.ok.inj (hok hafford)
        · exact absurd (hfail hafford) (by simp)
      rw [hbytes]
      rfl
  | cons b rest ih =>
    obtain ⟨hb, hne, htail⟩ := htext.tail
    have hlength : rest.length + 1 + 1 + n = rest.length + 1 + n + 1 := by omega
    rw [List.length_cons, hlength]
    have hrest := ih (i := i + 1) htail
    generalize rest.length + 1 + n = more at hrest ⊢
    generalize rest.length + 1 = enough at hrest ⊢
    unfold readUntilZero
    split
    swap
    · rfl
    next hword =>
      refine Attempt.run_bind_congr rfl fun bytes t hread => ?_
      have hbyte := (readUser_byte h hword).of_ok hread
      rw [hb] at hbyte
      dsimp only at hbyte
      rw [if_neg hne] at hbyte
      obtain ⟨hbytes, rfl⟩ := hbyte
      obtain rfl := Except.ok.inj hbytes
      show (if b = 0 then _ else _ : Attempt Access (List UInt8)).run _ = (if b = 0 then _ else _ : Attempt Access _).run _
      rw [if_neg hne, if_neg hne]
      exact Attempt.run_bind_congr hrest fun _ _ _ => rfl

/-! ### Well-formed texts -/

private theorem fromUTF8?_eq_some_iff {utf8 : ByteArray} {s : String} :
    String.fromUTF8? utf8 = some s ↔ s.toUTF8 = utf8 := by
  unfold String.fromUTF8?
  split
  next hvalid =>
    rw [Option.some.injEq, ← String.toByteArray_inj, eq_comm]
    rfl
  next hvalid =>
    refine iff_of_false (by simp) ?_
    rintro rfl
    exact hvalid s.isValidUTF8

private theorem fromUTF8?_eq_none_iff {utf8 : ByteArray} : String.fromUTF8? utf8 = none ↔ ¬utf8.IsValidUTF8 := by
  unfold String.fromUTF8?
  split
  next hvalid => exact iff_of_false (by simp) (not_not_intro hvalid)
  next hvalid => exact iff_of_true rfl hvalid

/-- A text that stands at an address has been read. -/
private theorem TextAt.findsText (h : a.TextAt address bytes) (hlt : bytes.length < pathLimit) {r : Except Errno String}
    (hr : r = match String.fromUTF8? ⟨bytes.toArray⟩ with | some s => .ok s | none => .error .invalid) :
    a.FindsText address r := by
  have hbreaks : ¬∃ n < pathLimit, a.BreaksAt address n := fun ⟨n, _, hbreaks⟩ => h.not_breaksAt hbreaks
  refine ⟨fun s => ⟨fun hok => ⟨bytes, hlt, h, ?_⟩, ?_⟩, ⟨fun hbad => ?_, fun hbad => absurd hbad hbreaks⟩,
    ⟨fun hinvalid => ⟨hbreaks, fun bytes' _ h' => ?_⟩, fun ⟨_, hinvalid⟩ => ?_⟩⟩
  · rw [hok] at hr
    split at hr
    next s' hs' => rw [Except.ok.inj hr, ← fromUTF8?_eq_some_iff, hs']
    · exact absurd hr (by simp)
  · rintro ⟨bytes', -, h', hs⟩
    rw [h'.unique h, ← fromUTF8?_eq_some_iff] at hs
    rw [hr, hs]
  · rw [hbad] at hr
    split at hr <;> simp at hr
  · rw [h'.unique h, ← fromUTF8?_eq_none_iff]
    rw [hinvalid] at hr
    split at hr
    · exact absurd hr (by simp)
    next hnone => exact hnone
  · rw [hr, fromUTF8?_eq_none_iff.mpr (hinvalid bytes hlt h)]

/-- What a scan has found tells how the read of the text ends. -/
private theorem readString_of_scanned {r : Except Errno (List UInt8)} (hscanned : a.Scanned address pathLimit r)
    {r' : Except Errno String}
    (hr : r' = r.bind fun bytes => match String.fromUTF8? ⟨bytes.toArray⟩ with | some s => .ok s | none => .error .invalid) :
    (a.AffordsText address pathLimit → a.FindsText address r') ∧
      (¬a.AffordsText address pathLimit → r' = .error .noMemory) := by
  match r with
  | .ok bytes =>
    obtain ⟨hlt, htext, hafford⟩ := hscanned
    refine ⟨fun _ => htext.findsText hlt hr, fun hfew => absurd ?_ hfew⟩
    exact fun bytes' _ htext' => htext'.unique htext ▸ hafford
  | .error .noMemory =>
    obtain ⟨bytes, hlt, htext, hfew⟩ := hscanned
    exact ⟨fun hafford => absurd (hafford bytes hlt htext) hfew, fun _ => hr⟩
  | .error .badAddress =>
    obtain ⟨n, hn, hbreaks⟩ := hscanned
    have hnone (bytes : List UInt8) : ¬a.TextAt address bytes := fun htext => htext.not_breaksAt hbreaks
    refine ⟨fun _ => ?_, fun hfew => absurd (fun bytes _ htext => absurd htext (hnone bytes)) hfew⟩
    subst hr
    exact ⟨fun s => iff_of_false (by simp [Except.bind]) fun ⟨bytes, _, htext, _⟩ => hnone bytes htext,
      iff_of_true rfl ⟨n, hn, hbreaks⟩, iff_of_false (by simp [Except.bind]) fun h => h.1 ⟨n, hn, hbreaks⟩⟩
  | .error .invalid =>
    have hnone (bytes : List UInt8) (hlt : bytes.length < pathLimit) : ¬a.TextAt address bytes := fun htext =>
      htext.not_nonzero hlt hscanned
    have hbreaks : ¬∃ n < pathLimit, a.BreaksAt address n := fun ⟨n, hn, _, hend⟩ => by
      obtain ⟨b, hb, -⟩ := hscanned n hn
      exact absurd (hend.symm.trans hb) (by simp)
    refine ⟨fun _ => ?_, fun hfew => absurd (fun bytes hlt htext => absurd htext (hnone bytes hlt)) hfew⟩
    subst hr
    exact ⟨fun s => iff_of_false (by simp [Except.bind]) fun ⟨bytes, hlt, htext, _⟩ => hnone bytes hlt htext,
      iff_of_false (by simp [Except.bind]) hbreaks, iff_of_true rfl ⟨hbreaks, fun bytes hlt htext =>
        absurd htext (hnone bytes hlt)⟩⟩

private theorem readsText_of_sound (h : a.Sound foreign owned held) (hle : address + pathLimit ≤ wordLimit) :
    a.ReadsText address where
  enough hthree bytes _ _ := Nat.le_trans (a.framesNeeded_le _ _) hthree
  outcome := by
    unfold readString
    rw [Attempt.ensures_bind]
    refine (readUntilZero_scanned h (i := 0) hle).mono ?_
    rintro r a' ⟨hscanned, hleaves⟩
    cases r with
    | error e => exact ⟨hleaves, readString_of_scanned hscanned rfl⟩
    | ok bytes =>
      have hread (r : Except Errno String) (hr : r = match String.fromUTF8? ⟨bytes.toArray⟩ with
          | some s => .ok s
          | none => .error .invalid) := readString_of_scanned hscanned hr
      dsimp only
      split
      next s hs => exact ⟨hleaves, hread _ (by rw [hs])⟩
      next hs => exact ⟨hleaves, hread _ (by rw [hs])⟩
  stops bytes n htext hlt := by
    obtain ⟨k, rfl⟩ := Nat.exists_eq_add_of_lt hlt
    rw [Nat.add_right_comm]
    exact readUntilZero_stops h (i := 0) htext k

end Access

namespace Kernel

variable {σ φ : Type} [FileSystem σ] [Firmware φ] {entry stackPointer heapStart : UInt64} {memory : PhysicalMemory}
  {files : σ} {firmware : φ} {logLimit : Option LogLevel} {k₀ k : Kernel σ φ}

/-- Whatever traps have come, the text at a user address of any process is what its bytes are up to the first zero byte. -/
theorem Reachable.readsText (hboot : boot entry stackPointer heapStart memory files firmware logLimit = .ok k₀)
    (hmemory : memory.Consistent) (h : Reachable k₀ k) {s : Slot} {p : Process AddressSpace}
    (hp : k.table.get s = some p) {address : Nat} (hle : address + pathLimit ≤ wordLimit) :
    Access.ReadsText ⟨p.memory, k.memory⟩ address := by
  obtain ⟨foreign, hsound⟩ := h.exists_sound hmemory hboot
  exact Access.readsText_of_sound (hsound.access hp) hle

/-- A child exits, and its parent has the exit code written across the end of a page of the stack: the bytes of a text of
three letters. -/
def textFrames : List TrapFrame :=
  [callFrame .fork 0 0 0, callFrame .yield 0 0 0, callFrame .exit 0x636261 0 0, callFrame .wait (-1) 0x3FFFEFFE 0]

/-- The text is read as it should be. -/
theorem readsText_stack : ∃ (k₀ k : Kernel EmptyFiles Bench.BenchFirmware) (p : Process AddressSpace),
    benchStart = .ok k₀ ∧ Reachable k₀ k ∧ k.table.get .init = some p ∧
      Access.TextAt ⟨p.memory, k.memory⟩ 0x3FFFEFFE [0x61, 0x62, 0x63] ∧
        Access.ReadsText ⟨p.memory, k.memory⟩ 0x3FFFEFFE := by
  obtain ⟨k₀, k, hk₀, hk, hbytes⟩ := exists_of_benchRun (show benchRun textFrames
    (fun k => (k.table.get .init).any fun p => (List.range' 0x3FFFEFFE 4).map (Access.byteAt? ⟨p.memory, k.memory⟩) =
      [some 0x61, some 0x62, some 0x63, some 0]) = true by decide +kernel)
  obtain ⟨p, hp, hbytes⟩ := (Option.any_eq_true _ _).mp hbytes
  obtain ⟨h₀, h₁, h₂, h₃⟩ : _ ∧ _ ∧ _ ∧ _ := by simpa [List.range'] using of_decide_eq_true hbytes
  have htext : Access.TextAt ⟨p.memory, k.memory⟩ 0x3FFFEFFE [0x61, 0x62, 0x63] :=
    .cons h₀ (by decide) (.cons h₁ (by decide) (.cons h₂ (by decide) (.nil h₃)))
  exact ⟨k₀, k, p, hk₀, hk, hp, htext, Reachable.readsText hk₀ consistent_benchMemory hk hp (by decide)⟩

end Kernel

end TrapKernel
