import TrapKernel.Proofs.Kernel.Start
import TrapKernel.Proofs.Memory.PrivateCopies

/-!
# Addresses that are taken for others

The page table reads the lower 27 bits of a page number only. So an address far above the pages of a process can have
an alias among them: the page table leads to a page with another number. At all other addresses the kernel answers page
faults and copies bytes as it should.

* `Kernel.Reachable.faithful_iff`: the kernel serves an address as it should if and only if it has no alias.
-/

namespace TrapKernel

open PrivatePages

namespace Access

variable {a : Access} {foreign : Surroundings} {owned held : List Nat} {address : Nat}

/-- The content of the pages that are held, by their whole page numbers. -/
def heldPages (a : Access) : PrivatePages := a.user.space.content a.memory

theorem has_heldPages {page : Nat} : a.heldPages.Has page ↔ ∃ p, a.user.space.pages[page]? = some p := by
  unfold Has heldPages AddressSpace.content
  rw [Option.isSome_map, Option.isSome_iff_exists]

/-- Whether nothing can be at an address: its page is not held, and it lies neither in heap nor in stack. -/
def Outside (a : Access) (address : Nat) : Prop :=
  ¬a.heldPages.Has (pageOf address) ∧ a.user.isDemandZero address = false

/-- Whether the page table takes the page of an address for another page, which is held. -/
def Aliased (a : Access) (address : Nat) : Prop :=
  pageLimit ≤ pageOf address ∧ a.heldPages.Has (pageOf address % pageLimit)

/-- Whether the kernel serves an address as it should. It does not stop. If it succeeds, the pages of the addresses
that were touched are held, under their whole numbers, and it reads their bytes. It does not change other pages, and
none at all if it only reads. Where nothing can be, the address is bad. -/
structure Faithful (a : Access) (address : Nat) : Prop where
  fault (write : Bool) : (handleFault address write).Ensures a
    (fun r a' => Grows (· = pageOf address) (heldPages a) (heldPages a') ∧
      (r = .ok () → (heldPages a').Has (pageOf address)) ∧ (a.Outside address → r = .error .badAddress))
    fun _ _ => False
  write (bytes : List UInt8) : (writeUser address bytes).Ensures a
    (fun r a' => Changes (InPages address bytes.length) (heldPages a) (heldPages a') ∧
      (r = .ok () → ∀ page, InPages address bytes.length page → (heldPages a').Has page) ∧
      (bytes ≠ [] → a.Outside address → r = .error .badAddress))
    fun _ _ => False
  read (length : Nat) : (readUser address length).Ensures a
    (fun r a' => Grows (InPages address length) (heldPages a) (heldPages a') ∧
      (∀ bytes, r = .ok bytes → (∀ page, InPages address length page → (heldPages a').Has page) ∧
        bytes = (List.range' address length).map (heldPages a').byteAt) ∧
      (length ≠ 0 → a.Outside address → r = .error .badAddress))
    fun _ _ => False
  text : (readString address).Ensures a
    (fun r a' => Grows (InPages address pathLimit) (heldPages a) (heldPages a') ∧
      (∀ text, r = .ok text →
        (∀ page, InPages address (text.utf8ByteSize + 1) page → (heldPages a').Has page) ∧
        text.toByteArray.data.toList ++ [0] =
          (List.range' address (text.utf8ByteSize + 1)).map (heldPages a').byteAt) ∧
      (a.Outside address → r = .error .badAddress))
    fun _ _ => False

private theorem outside_privately (answers : Answers) :
    PrivateMemory.Outside (a.privately answers) address ↔ a.Outside address := by
  unfold PrivateMemory.Outside Outside Has
  rw [Bool.not_eq_true, Option.isSome_eq_false_iff, Option.isNone_iff_eq_none]
  exact Iff.rfl

/-- What a computation does on private memory, the one that it follows does on paged memory. -/
theorem ensures_of_follows {α : Type} {op : Attempt Access α} {op' : Attempt PrivateAccess α}
    {Q : PrivateAccess → Except Errno α → PrivateAccess → Prop}
    (h : op.Ensures a (fun r a' => Leads foreign owned held a a' ∧ (True → Attempt.Follows privately op' a a' r))
      fun p _ => Stops True p)
    (hQ : ∀ b, op'.Ensures b (Q b) fun _ _ => True) :
    op.Ensures a (fun r a' => ∃ answers, Q (a.privately answers) r (privately a' [])) fun _ _ => False := by
  refine Run.Ensures.imp h ?_ fun _ _ hstop => hstop.not_ok trivial
  rintro r a' ⟨_, hfollows⟩
  obtain ⟨answers, hanswers⟩ := hfollows trivial
  exact ⟨answers ++ [], (hQ _).of_ok (hanswers [])⟩

private theorem plain_of_not_aliased (h : a.Sound foreign owned held) (halias : ¬a.Aliased address) :
    a.Plain (pageOf address) := by
  intro hsome
  by_contra hle
  obtain ⟨e, he⟩ := Option.isSome_iff_exists.mp hsome
  have hheld := AddressSpace.getElem?_mod_of_translate h.region.valid he
  exact halias ⟨Nat.le_of_not_lt hle, has_heldPages.mpr ⟨_, hheld⟩⟩

/-- An address without an alias is served as it should be. -/
theorem faithful_of_not_aliased (h : a.Sound foreign owned held) (halias : ¬a.Aliased address) :
    a.Faithful address := by
  have hplain : True → a.Plain (pageOf address) := fun _ => plain_of_not_aliased h halias
  refine ⟨fun write => ?_, fun bytes => ?_, fun length => ?_, ?_⟩
  · refine (ensures_of_follows ((handleFault_spec h address write hplain).mono fun r a' hr =>
      ⟨hr.1, fun hk => (hr.2.2 hk).2⟩) fun b => (PrivateMemory.handleFault_spec b address write).imp
        (fun _ _ hr => hr) fun _ _ => False.elim).mono ?_
    rintro r a' ⟨answers, hgrows, hhas, hnone⟩
    refine ⟨hgrows, hhas, ?_⟩
    exact fun houtside => hnone ((outside_privately _).mpr houtside).1 houtside.2
  · refine (ensures_of_follows (writeUser_spec h address bytes hplain) fun b =>
      PrivateMemory.writeUser_spec b address bytes).mono ?_
    rintro r a' ⟨answers, hchanges, hhas, hnone⟩
    refine ⟨hchanges, hhas, ?_⟩
    exact fun hbytes houtside => hnone hbytes ((outside_privately _).mpr houtside)
  · refine (ensures_of_follows ((readUser_spec h address length hplain).mono fun r a' hr =>
      ⟨hr.1, fun hk => (hr.2 hk).2⟩) fun b => PrivateMemory.readUser_spec b address length).mono ?_
    rintro r a' ⟨answers, hgrows, hbytes, hnone⟩
    refine ⟨hgrows, hbytes, ?_⟩
    exact fun hlength houtside => hnone hlength ((outside_privately _).mpr houtside)
  · refine (ensures_of_follows (readString_spec h address hplain) fun b =>
      PrivateMemory.readString_spec b address).mono ?_
    rintro r a' ⟨answers, hgrows, htext, hnone⟩
    refine ⟨hgrows, htext, ?_⟩
    exact fun houtside => hnone ((outside_privately _).mpr houtside)

/-- At an address with an alias a read that raises a fault succeeds, though the page is not held. -/
private theorem not_faithful_of_aliased (h : a.Sound foreign owned held) (halias : a.Aliased address) :
    ¬a.Faithful address := by
  intro hfaithful
  obtain ⟨hle, hheld⟩ := halias
  obtain ⟨p, hp⟩ := has_heldPages.mp hheld
  obtain ⟨e, he, -⟩ := h.translate_of_getElem? hp
  have htranslate : a.translate (pageOf address) = some e := by
    rw [← he]
    exact PageTable.translate_mod (Nat.mod_mod _ _).symm
  have hok : (handleFault address false).Ensures a (fun r a' => r = .ok () ∧ a' = a) fun _ _ => False := by
    unfold handleFault
    simp only [Attempt.ensures_bind, Attempt.ensures_get, htranslate]
    exact ⟨rfl, rfl⟩
  have hhas := ((hfaithful.fault false).of_ok (Run.Ensures.eq_ok hok)).2.1 rfl
  obtain ⟨q, hq⟩ := has_heldPages.mp hhas
  exact absurd (AddressSpace.lt_of_getElem? h.region.valid hq) (Nat.not_lt.mpr hle)

end Access

namespace Kernel

variable {σ φ : Type} [FileSystem σ] [Firmware φ] {entry stackPointer heapStart : UInt64} {memory : PhysicalMemory}
  {files : σ} {firmware : φ} {logLimit : Option LogLevel} {k₀ k : Kernel σ φ}

/-- Whatever traps have come, every process is served at an address as it should be if and only if the address has no
alias among its pages. -/
theorem Reachable.faithful_iff (hboot : boot entry stackPointer heapStart memory files firmware logLimit = .ok k₀)
    (hmemory : memory.Consistent) (h : Reachable k₀ k) {s : Slot} {p : Process AddressSpace}
    (hp : k.table.get s = some p) (address : UInt64) :
    Access.Faithful ⟨p.memory, k.memory⟩ address.toNat ↔ ¬Access.Aliased ⟨p.memory, k.memory⟩ address.toNat := by
  obtain ⟨foreign, hsound⟩ := h.exists_sound hmemory hboot
  have haccess := hsound.access hp
  exact ⟨fun hfaithful halias => Access.not_faithful_of_aliased haccess halias hfaithful,
    Access.faithful_of_not_aliased haccess⟩

/-- A store to the last page of the stack raises a page fault, and then the first process forks, so that its child
shares the page. -/
def shareStack : List TrapFrame :=
  [{ TrapFrame.zero with scause := 15, stval := 0x3FFFF000 }, callFrame .fork 0 0 0]

/-- Whether the first process is there, and a write of a zero byte at an address of it stops the kernel. -/
def stopsAt (address : Nat) (k : Kernel EmptyFiles Bench.BenchFirmware) : Bool :=
  match k.table.get .init with
  | none => false
  | some p =>
    match (Access.writeUser address [0]).run ⟨p.memory, k.memory⟩ with
    | .ok _ _ => false
    | .error _ _ => true

/-- An address of the shared page is served as it should be. -/
theorem faithful_iff_stack : ∃ (k₀ k : Kernel EmptyFiles Bench.BenchFirmware) (p : Process AddressSpace),
    benchStart = .ok k₀ ∧ Reachable k₀ k ∧ k.table.get .init = some p ∧
      Access.Faithful ⟨p.memory, k.memory⟩ (0x3FFFF000 : UInt64).toNat := by
  obtain ⟨k₀, k, hk₀, hk, hsome⟩ := exists_of_benchRun
    (show benchRun shareStack (fun k => (k.table.get .init).isSome) = true by decide +kernel)
  obtain ⟨p, hp⟩ := Option.isSome_iff_exists.mp hsome
  have hiff := Reachable.faithful_iff hk₀ consistent_benchMemory hk hp 0x3FFFF000
  exact ⟨k₀, k, p, hk₀, hk, hp, hiff.mpr fun halias => absurd halias.1 (by decide)⟩

/-- The address with the same lower 39 bits and the next one set is not: the kernel stops when it writes there. -/
theorem not_faithful_stackAlias : ∃ (k₀ k : Kernel EmptyFiles Bench.BenchFirmware) (p : Process AddressSpace),
    benchStart = .ok k₀ ∧ Reachable k₀ k ∧ k.table.get .init = some p ∧
      ¬Access.Faithful ⟨p.memory, k.memory⟩ (0x803FFFF000 : UInt64).toNat := by
  obtain ⟨k₀, k, hk₀, hk, hstops⟩ := exists_of_benchRun
    (show benchRun shareStack (stopsAt 0x803FFFF000) = true by decide +kernel)
  unfold stopsAt at hstops
  split at hstops
  · exact absurd hstops (by simp)
  next p hp =>
    split at hstops
    · exact absurd hstops (by simp)
    next herror => exact ⟨k₀, k, p, hk₀, hk, hp, fun hfaithful => (hfaithful.write [0]).of_error herror⟩

end Kernel

end TrapKernel
