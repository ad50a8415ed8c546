import TrapKernel.Proofs.Kernel.Calls
import TrapKernel.Proofs.Kernel.CheckedCopies

/-!
# Reads of files

A file is read chunk by chunk: a request for the next chunk, and a copy of what it has brought to the user addresses
that follow those of the chunk before. The chunks are cut along the pages of the file and the copies along those of the
user memory, so that a copy may go over the end of a page.

* `Volume.Reads`: successive requests that have succeeded.
* `Kernel.ChunksEnd`: how a read of a checked range can end.
* `Kernel.readChunks_ends`, `Kernel.answerCall_read`: it ends in one of these ways.
* `Kernel.Reachable.foretells`: in reachable states the check of a range foretells all copies of it, also those that a
  read of a file makes chunk by chunk.
-/

namespace TrapKernel

open Access

namespace Volume

variable {σ : Type} [FileSystem σ] {inode : Inode} {length done done' : Nat} {v v' : Volume σ} {bytes : List UInt8}

/-- A request is a call to the file system, and ends as the file system has answered it. -/
theorem run_request (inode : Inode) (buffer : List UInt8) (offset : Nat) (direction : Direction) (v : Volume σ) :
    (request inode buffer offset direction).run v =
      .ok (FileSystem.request v.state inode buffer offset direction).1
        ⟨(FileSystem.request v.state inode buffer offset direction).2,
          v.calls.push (.request inode buffer.length offset direction)⟩ := by
  unfold request
  rw [Attempt.run_get_bind]
  obtain ⟨out, state⟩ := FileSystem.request v.state inode buffer offset direction
  cases out <;> rfl

/-- Whether successive requests for the chunks of a file from `done` bytes on have succeeded and brought some bytes, and
then `done'` bytes have been read. A chunk is a page, or what is left of `length` bytes. -/
inductive Reads (inode : Inode) (length : Nat) : Nat → Volume σ → List UInt8 → Nat → Volume σ → Prop
  | refl (done : Nat) (v : Volume σ) : Reads inode length done v [] done v
  | step {done done' : Nat} {v v₁ v' : Volume σ} {buffer out bytes : List UInt8} (hlt : done < length)
      (hbuffer : buffer.length = min (length - done) pageSize)
      (hrequest : (request inode buffer done .read).run v = .ok (.ok out) v₁)
      (hrest : Reads inode length (done + out.length) v₁ bytes done' v') :
      Reads inode length done v (out ++ bytes) done' v'

private theorem exists_run_request (inode : Inode) (buffer : List UInt8) (offset : Nat) (direction : Direction)
    (v : Volume σ) : ∃ r v', (request inode buffer offset direction).run v = .ok r v' :=
  ⟨_, _, run_request inode buffer offset direction v⟩

/-- What a request brings is as long as its buffer. -/
theorem length_of_run_request {buffer out : List UInt8} {offset : Nat} {direction : Direction}
    (h : (request inode buffer offset direction).run v = .ok (.ok out) v') : out.length = buffer.length := by
  rw [run_request] at h
  injection h with hout
  exact FileSystem.request_length _ _ _ _ _ _ hout

end Volume

namespace Kernel

open ProcessTable

variable {σ φ : Type} {k : Kernel σ φ} {p : Process AddressSpace} {a a₁ a' : Access}

/-- Whether besides file system and log only the memory of the running process `p` has changed, to that of `a`. -/
structure Stores (k : Kernel σ φ) (p : Process AddressSpace) (a : Access) (k' : Kernel σ φ) : Prop where
  memory : k'.memory = a.memory
  table : k'.table = k.table.put k.table.current (some { p with memory := a.user })
  machine : k'.machine = k.machine

/-- Only file system and log have changed. -/
theorem Stores.refl (hp : k.table.get k.table.current = some p) (volume : Volume σ) (log : Log) :
    Stores k p ⟨p.memory, k.memory⟩ { k with volume, log } := by
  refine ⟨rfl, ?_, rfl⟩
  show k.table = k.table.put k.table.current (some p)
  rw [← hp, put_get]

theorem Stores.trans {k₁ k₂ : Kernel σ φ} (h : Stores k p a k₁) (h' : Stores k₁ { p with memory := a.user } a₁ k₂) :
    Stores k p a₁ k₂ where
  memory := h'.memory
  table := by rw [h'.table, h.table, current_put, put_put]
  machine := h'.machine.trans h.machine

variable [FileSystem σ] {inode : Inode} {address length done : Nat} {v v₁ v' : Volume σ} {r : Except Errno Unit}

/-- How a read of a checked range can end of which `done` bytes have been read: all chunks have been requested and
copied; or a request has failed after some chunks; or there was no frame for a page while a chunk was copied, and the
bytes before that page have been written. -/
inductive ChunksEnd (inode : Inode) (address length done : Nat) (a : Access) (v : Volume σ) :
    Except Errno Unit → Access → Volume σ → Prop
  | all {bytes : List UInt8} {a' : Access} {v' : Volume σ} (hreads : v.Reads inode length done bytes length v')
      (hwritten : Written (address + done) bytes a a') : ChunksEnd inode address length done a v (.ok ()) a' v'
  | inputOutput {bytes buffer : List UInt8} {done' : Nat} {e : Errno} {a' : Access} {v₁ v' : Volume σ}
      (hreads : v.Reads inode length done bytes done' v₁) (hlt : done' < length)
      (hbuffer : buffer.length = min (length - done') pageSize)
      (hrequest : (Volume.request inode buffer done' .read).run v₁ = .ok (.error e) v')
      (hwritten : Written (address + done) bytes a a') :
      ChunksEnd inode address length done a v (.error .inputOutput) a' v'
  | noMemory {bytes buffer out : List UInt8} {done' n : Nat} {a' : Access} {v₁ v' : Volume σ}
      (hreads : v.Reads inode length done bytes done' v₁) (hlt : done' < length)
      (hbuffer : buffer.length = min (length - done') pageSize)
      (hrequest : (Volume.request inode buffer done' .read).run v₁ = .ok (.ok out) v') (hn : n < out.length)
      (hwritten : Written (address + done) (bytes ++ out.take n) a a') :
      ChunksEnd inode address length done a v (.error .noMemory) a' v'

/-- A chunk has been requested and copied, and then the others were. -/
private theorem ChunksEnd.step {buffer out : List UInt8} (hlt : done < length)
    (hbuffer : buffer.length = min (length - done) pageSize)
    (hrequest : (Volume.request inode buffer done .read).run v = .ok (.ok out) v₁)
    (hwritten : Written (address + done) out a a₁) (hle : address + length ≤ stackTop)
    (h : ChunksEnd inode address length (done + out.length) a₁ v₁ r a' v') :
    ChunksEnd inode address length done a v r a' v' := by
  have hlength := Volume.length_of_run_request hrequest
  have happend : ∀ {bytes : List UInt8}, Written (address + (done + out.length)) bytes a₁ a' →
      Written (address + done) (out ++ bytes) a a' := fun hrest => by
    rw [← Nat.add_assoc] at hrest
    refine hwritten.append hrest ?_
    simp only [addressLimit, pageLimit, pageSize, stackTop] at hle hbuffer ⊢
    omega
  cases h with
  | all hreads hrest => exact .all (.step hlt hbuffer hrequest hreads) (happend hrest)
  | inputOutput hreads hlt' hbuffer' hfails hrest =>
    exact .inputOutput (.step hlt hbuffer hrequest hreads) hlt' hbuffer' hfails (happend hrest)
  | noMemory hreads hlt' hbuffer' hrequest' hn hrest =>
    refine .noMemory (.step hlt hbuffer hrequest hreads) hlt' hbuffer' hrequest' hn ?_
    rw [List.append_assoc]
    exact happend hrest

variable {foreign : Surroundings} {owned held : List Nat}

/-- In sound memory the copy of a chunk to a part of a range that has passed the check succeeds, or there is no frame
for some page. -/
private theorem writeUser_chunk (h : a.Sound foreign owned held) (hle : address + length ≤ stackTop)
    (hcovers : a.user.Covers a.memory address length) {chunk : List UInt8} (hchunk : chunk.length ≤ length) :
    (writeUser address chunk).Ensures a
      (fun r a₁ => Leads foreign owned held a a₁ ∧ match r with
        | .ok () => Written address chunk a a₁ ∧
            a₁.user.Covers a₁.memory (address + chunk.length) (length - chunk.length)
        | .error e => e = .noMemory ∧ ∃ n < chunk.length, Written address (chunk.take n) a a₁)
      fun _ _ => False := by
  have hle' : address + chunk.length ≤ stackTop := by omega
  have hcheck : a.user.checkRange a.memory address chunk.length = .ok () :=
    UserMemory.checkRange_eq_ok_iff.mpr (.inr ⟨hle', hcovers.mono hchunk⟩)
  refine Run.ensures_iff.mpr ⟨fun r a₁ hrun => ?_, fun _ _ => (writeUser_written h hle').of_error⟩
  have hwrite := (exactCopies_of_sound h hle').write.of_ok hrun
  refine ⟨((writeUser_written h hle').of_ok hrun).1, ?_⟩
  cases r with
  | ok => exact ⟨hwrite.1, covers_rest h hle hcovers hchunk hrun⟩
  | error e =>
    obtain ⟨n, hn, -, hwritten, -⟩ := hwrite
    refine ⟨?_, n, hn, hwritten⟩
    rcases (writeUser_foretold h hle').of_ok hrun with heq | ⟨heq, -⟩
    · rw [hcheck] at heq
      exact absurd heq (by simp [Except.map])
    · exact Except.error.inj heq

/-- A read of a checked range ends in one of the three ways. -/
theorem readChunks_ends (hp : k.table.get k.table.current = some p)
    (h : Access.Sound ⟨p.memory, k.memory⟩ foreign owned held) (hdone : done ≤ length)
    (hle : done < length → address + length ≤ stackTop) {n : Nat} (hn : n = (length - done + pageSize - 1) / pageSize)
    {buffer : List UInt8} (hbuffer : min (length - done) pageSize ≤ buffer.length)
    (hcovers : p.memory.Covers k.memory (address + done) (length - done)) :
    (readChunks inode address length n done buffer).Ensures k
      (fun r k' => ∃ a', Stores k p a' k' ∧ Leads foreign owned held ⟨p.memory, k.memory⟩ a' ∧
        ChunksEnd inode address length done ⟨p.memory, k.memory⟩ k.volume r a' k'.volume)
      fun _ _ => False := by
  induction n generalizing k p done buffer with
  | zero =>
    obtain rfl : done = length := by
      simp only [pageSize] at hn
      omega
    exact ⟨_, .refl hp k.volume k.log, .refl h, .all (.refl _ _) (.refl _ _)⟩
  | succ n ih =>
    have hlt : done < length := by
      simp only [pageSize] at hn
      omega
    have hlimit := hle hlt
    have hsize : (buffer.take (min (length - done) pageSize)).length = min (length - done) pageSize := by
      rw [List.length_take]
      omega
    obtain ⟨r, v₁, hrequest⟩ := Volume.exists_run_request inode (buffer.take (min (length - done) pageSize)) done .read k.volume
    unfold readChunks
    dsimp only
    rw [Attempt.ensures_bind, Attempt.ensures_ofRun, ensures_onVolume]
    refine Run.ensures_of_eq_ok hrequest ?_
    cases r with
    | error e =>
      simp only [Attempt.ensures_bind, Attempt.ensures_ofRun, ensures_note, Attempt.ensures_throw]
      exact ⟨_, .refl hp _ _, .refl h, .inputOutput (.refl _ _) hlt hsize hrequest (.refl _ _)⟩
    | ok chunk =>
      have hchunk := Volume.length_of_run_request hrequest
      rw [hsize] at hchunk
      have hword : address + done < wordLimit := by
        simp only [stackTop, wordLimit] at hlimit ⊢
        omega
      dsimp only
      rw [Attempt.ensures_bind, Attempt.ensures_ofRun, Run.ensures_addWords, if_pos hword]
      dsimp only
      rw [Attempt.ensures_bind, ensures_onCurrentMemory (k := { k with volume := v₁ }) hp]
      refine (writeUser_chunk h (show address + done + (length - done) ≤ stackTop by omega) hcovers
        (show chunk.length ≤ length - done by omega)).mono ?_
      rintro r a₁ ⟨hleads, hwrite⟩
      have hstores : Stores k p a₁ (storeAccess { k with volume := v₁ } k.table.current p a₁) := ⟨rfl, rfl, rfl⟩
      cases r with
      | error e =>
        obtain ⟨rfl, i, hi, hwritten⟩ := hwrite
        exact ⟨a₁, hstores, hleads, .noMemory (.refl _ _) hlt hsize hrequest hi hwritten⟩
      | ok =>
        obtain ⟨hwritten, hcovers'⟩ := hwrite
        have hcurrent : (storeAccess { k with volume := v₁ } k.table.current p a₁).table.get
            (storeAccess { k with volume := v₁ } k.table.current p a₁).table.current =
              some { p with memory := a₁.user } := get_put_self _ _ _
        rw [← hchunk]
        have hrest : length - (done + chunk.length) = length - done - chunk.length := by omega
        have hcount : n = (length - (done + chunk.length) + pageSize - 1) / pageSize := by
          simp only [pageSize] at hn hchunk ⊢
          omega
        have hdone' : done + chunk.length ≤ length := by omega
        refine (ih hcurrent hleads.sound hdone' (fun _ => hlimit) hcount ?_ ?_).mono ?_
        · rw [List.length_append, hrest]
          omega
        · rw [hrest, ← Nat.add_assoc]
          exact hcovers'
        · rintro r k' ⟨a', hstores', hleads', hchunks⟩
          exact ⟨a', hstores.trans hstores', hleads.trans hleads',
            .step hlt hsize hrequest hwritten hlimit hchunks⟩

/-- How a read of a file can end, if `chunks` says so for a descriptor and a range that have passed the checks. If one
of them has not, nothing has happened. -/
inductive ReadEnds (chunks : Inode → Except Errno Unit → Access → Volume σ → Prop) (d : Descriptors)
    (fd address length : Nat) (a : Access) (v : Volume σ) : Except Errno UInt64 → Access → Volume σ → Prop
  | invalid (hfd : d.file? fd = none) : ReadEnds chunks d fd address length a v (.error .invalid) a v
  | badAddress {inode : Inode} (hfd : d.file? fd = some inode)
      (hcheck : a.user.checkRange a.memory address length ≠ .ok ()) :
      ReadEnds chunks d fd address length a v (.error .badAddress) a v
  | done {inode : Inode} {a' : Access} {v' : Volume σ} (hfd : d.file? fd = some inode)
      (hcheck : a.user.checkRange a.memory address length = .ok ()) (h : chunks inode (.ok ()) a' v') :
      ReadEnds chunks d fd address length a v (.ok 0) a' v'
  | failed {inode : Inode} {e : Errno} {a' : Access} {v' : Volume σ} (hfd : d.file? fd = some inode)
      (hcheck : a.user.checkRange a.memory address length = .ok ()) (h : chunks inode (.error e) a' v') :
      ReadEnds chunks d fd address length a v (.error e) a' v'

omit [FileSystem σ] in
theorem ReadEnds.mono {D D' : Inode → Except Errno Unit → Access → Volume σ → Prop} {d : Descriptors} {fd : Nat}
    {r : Except Errno UInt64} (h : ReadEnds D d fd address length a v r a' v')
    (hD : ∀ inode r a' v', D inode r a' v' → D' inode r a' v') : ReadEnds D' d fd address length a v r a' v' := by
  cases h with
  | invalid hfd => exact .invalid hfd
  | badAddress hfd hcheck => exact .badAddress hfd hcheck
  | done hfd hcheck h => exact .done hfd hcheck (hD _ _ _ _ h)
  | failed hfd hcheck h => exact .failed hfd hcheck (hD _ _ _ _ h)

/-- A read of a file does nothing if its descriptor is not bound or its range has not passed the check, and otherwise
ends in one of the three ways. -/
private theorem callRead_ends (hp : k.table.get k.table.current = some p)
    (h : Access.Sound ⟨p.memory, k.memory⟩ foreign owned held) (f : TrapFrame) :
    (callRead f).Ensures k
      (fun r k' => ∃ a', Stores k p a' k' ∧ Leads foreign owned held ⟨p.memory, k.memory⟩ a' ∧
        ReadEnds (fun inode => ChunksEnd inode f.a1.toNat f.a2.toNat 0 ⟨p.memory, k.memory⟩ k.volume) p.descriptors
          f.a0.toNat f.a1.toNat f.a2.toNat ⟨p.memory, k.memory⟩ k.volume r a' k'.volume)
      fun _ _ => False := by
  unfold callRead
  rw [Attempt.ensures_bind, Attempt.ensures_ofRun, ensures_currentProcess hp]
  dsimp only
  rw [Attempt.ensures_bind, Attempt.ensures_ofExcept, Descriptors.file]
  cases hfd : p.descriptors.file? f.a0.toNat with
  | none => exact ⟨_, .refl hp k.volume k.log, .refl h, .invalid hfd⟩
  | some inode =>
    dsimp only
    rw [Attempt.ensures_bind, Attempt.ensures_get]
    dsimp only
    rw [Attempt.ensures_bind, Attempt.ensures_ofExcept]
    by_cases hcheck : p.memory.checkRange k.memory f.a1.toNat f.a2.toNat = .ok ()
    · rw [hcheck]
      have hrange := UserMemory.checkRange_eq_ok_iff.mp hcheck
      have hcovers : p.memory.Covers k.memory (f.a1.toNat + 0) (f.a2.toNat - 0) := by
        rcases hrange with hzero | ⟨-, hcovers⟩
        · intro x hx hlt
          omega
        · exact hcovers
      have hbuffer : min (f.a2.toNat - 0) pageSize ≤ (List.replicate (min f.a2.toNat pageSize) (0 : UInt8)).length := by
        rw [List.length_replicate, Nat.sub_zero]
      have hcount : (f.a2.toNat + pageSize - 1) / pageSize = (f.a2.toNat - 0 + pageSize - 1) / pageSize := by
        rw [Nat.sub_zero]
      dsimp only
      rw [Attempt.ensures_bind]
      refine (readChunks_ends hp h (Nat.zero_le _) (fun hlt => (hrange.resolve_left (Nat.ne_of_gt hlt)).1) hcount
        hbuffer hcovers).mono ?_
      rintro r k' ⟨a', hstores, hleads, hchunks⟩
      cases r with
      | ok => exact ⟨a', hstores, hleads, .done hfd hcheck hchunks⟩
      | error e => exact ⟨a', hstores, hleads, .failed hfd hcheck hchunks⟩
    · rw [UserMemory.checkRange_eq_error hcheck]
      exact ⟨_, .refl hp k.volume k.log, .refl h, .badAddress hfd hcheck⟩

/-- A trap that asks for a read. -/
theorem answerCall_read [Firmware φ] (hp : k.table.get k.table.current = some p)
    (h : Access.Sound ⟨p.memory, k.memory⟩ foreign owned held) {f : TrapFrame} (hasks : f.Asks .read) :
    (answerCall f).Ensures k
      (fun r k' => ∃ a', k'.memory = a'.memory ∧
        k'.table = k.table.put k.table.current (some { p with frame := f.advanced, memory := a'.user }) ∧
        Leads foreign owned held ⟨p.memory, k.memory⟩ a' ∧
        ReadEnds (fun inode => ChunksEnd inode f.a1.toNat f.a2.toNat 0 ⟨p.memory, k.memory⟩ k.volume) p.descriptors
          f.a0.toNat f.a1.toNat f.a2.toNat ⟨p.memory, k.memory⟩ k.volume r a' k'.volume)
      fun _ _ => wordLimit ≤ f.sepc.toNat + 4 := by
  rw [answerCall_eq hasks, Run.ensures_bind]
  refine (enterCall_spec .read hp).mono ?_
  rintro ⟨⟩ k₁ ⟨-, htable, hvolume, hmemory⟩
  have hp₁ : k₁.table.get k₁.table.current = some { p with frame := f.advanced } := by
    rw [htable, current_put, get_put_self]
  have hread := callRead_ends (p := { p with frame := f.advanced }) hp₁ (by rw [hmemory]; exact h) f.advanced
  rw [hmemory, hvolume] at hread
  refine Run.Ensures.imp hread ?_ fun _ _ => False.elim
  rintro r k' ⟨a', hstores, hleads, hends⟩
  refine ⟨a', hstores.memory, ?_, hleads, hends⟩
  rw [hstores.table, htable, current_put, put_put]

end Kernel

/-! ### Checks that foretell -/

/-- Whether the check of a range is that of a loop over its pages, which ends, and foretells all copies of the range. -/
structure Access.Foretells (a : Access) (address length : Nat) : Prop where
  ends : length ≠ 0 → ∀ r, UserMemory.Scans a.user a.memory address (pageOf (address + length - 1)) (pageOf address) r ↔
    r = a.user.checkRange a.memory address length
  read : (readUser address length).Ensures a (fun r _ => Foretold a address length r) fun _ _ => False
  write : ∀ bytes, bytes.length = length →
    (writeUser address bytes).Ensures a (fun r _ => Foretold a address length r) fun _ _ => False

/-- In sound memory the check of a range below the end of the stack foretells all copies. -/
private theorem Access.foretells_of_sound {a : Access} {foreign : Surroundings} {owned held : List Nat}
    (h : a.Sound foreign owned held) {address length : Nat} (hle : address + length ≤ stackTop) :
    a.Foretells address length where
  ends hlength _ := UserMemory.scans_iff hlength hle
  read := readUser_foretold h hle
  write := by
    rintro bytes rfl
    exact writeUser_foretold h hle

namespace Kernel

variable {σ φ : Type} [FileSystem σ] [Firmware φ]

/-- Whether the checks of ranges of a process foretell its copies. -/
structure Foretells (k : Kernel σ φ) (s : Slot) (p : Process AddressSpace) : Prop where
  copies : ∀ address length, address + length ≤ stackTop → Access.Foretells ⟨p.memory, k.memory⟩ address length
  /-- A range that goes beyond the end of the stack, however far, is a bad address. -/
  beyond : ∀ address length, length ≠ 0 → stackTop < address + length →
    p.memory.checkRange k.memory address length = .error .badAddress
  /-- A read whose range has passed the check does not find a bad address later on. Otherwise it does nothing. -/
  read : s = k.table.current → ∀ f, f.Asks .read →
    (answerCall f).Ensures k
      (fun r k' =>
        if p.memory.checkRange k.memory f.a1.toNat f.a2.toNat = .ok () then r ≠ .error .badAddress
        else k'.memory = k.memory ∧ k'.volume = k.volume ∧
          k'.table = k.table.put s (some { p with frame := f.advanced }))
      fun _ _ => wordLimit ≤ f.sepc.toNat + 4

variable {entry stackPointer heapStart : UInt64} {memory : PhysicalMemory} {files : σ} {firmware : φ}
  {logLimit : Option LogLevel} {k₀ k : Kernel σ φ}

/-- Whatever traps have come, the check of a range of addresses of any process foretells its copies. -/
theorem Reachable.foretells (hboot : boot entry stackPointer heapStart memory files firmware logLimit = .ok k₀)
    (hmemory : memory.Consistent) (h : Reachable k₀ k) {s : Slot} {p : Process AddressSpace}
    (hp : k.table.get s = some p) : k.Foretells s p := by
  obtain ⟨foreign, hkernel⟩ := h.exists_sound hmemory hboot
  have hsound := hkernel.access hp
  refine ⟨fun _ _ => Access.foretells_of_sound hsound, fun address length hlength hlt => ?_, ?_⟩
  · refine UserMemory.checkRange_eq_error fun hok => ?_
    have hle := ((UserMemory.checkRange_eq_ok_iff.mp hok).resolve_left hlength).1
    omega
  · rintro rfl f hasks
    refine (answerCall_read hp hsound hasks).mono ?_
    rintro r k' ⟨a', hmemory, htable, -, hends⟩
    generalize k'.volume = v' at hends ⊢
    cases hends with
    | invalid =>
      split
      · simp
      · exact ⟨hmemory, rfl, htable⟩
    | badAddress _ hcheck =>
      rw [if_neg hcheck]
      exact ⟨hmemory, rfl, htable⟩
    | done _ hcheck =>
      rw [if_pos hcheck]
      simp
    | failed _ hcheck hchunks =>
      rw [if_pos hcheck]
      cases hchunks <;> simp

/-- A range across the end of a page of the stack passes the check: its first page is not there yet, and the second is
shared. -/
theorem foretells_sharedStack : ∃ (k₀ k : Kernel EmptyFiles Bench.BenchFirmware) (p : Process AddressSpace),
    benchStart = .ok k₀ ∧ Reachable k₀ k ∧ k.table.get .init = some p ∧
      p.memory.checkRange k.memory 0x3FFFEFFE 4 = .ok () ∧ k.Foretells .init p := by
  obtain ⟨k₀, k, hk₀, hk, hcheck⟩ := exists_of_benchRun (show benchRun shareStack (fun k =>
    (k.table.get .init).any fun p => p.memory.checkRange k.memory 0x3FFFEFFE 4 = .ok ()) = true by decide +kernel)
  obtain ⟨p, hp, hok⟩ := (Option.any_eq_true _ _).mp hcheck
  exact ⟨k₀, k, p, hk₀, hk, hp, of_decide_eq_true hok, Reachable.foretells hk₀ consistent_benchMemory hk hp⟩

end Kernel

end TrapKernel
