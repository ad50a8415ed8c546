import TrapKernel.Bench.KeyedFiles
import TrapKernel.Proofs.Kernel.ChunkedReads

/-!
# The bytes that a read delivers

If a file system has a fixed content for each file, a read of a file delivers the first bytes of the file, and zeros
after its end. It requests them chunk by chunk, each chunk once and in order. A read that fails has delivered all chunks
before the failure, and of the chunk that it was copying at most the first bytes.

* `ServesFiles`: what is expected of the file system.
* `Kernel.DeliversFile`: how a read of a checked range can end.
* `Kernel.Reachable.readsFiles`: in reachable states all reads end so.
-/

namespace TrapKernel

open Access

/-- The bytes of a file from an offset on; zeros follow its end. -/
def fileBytes (data : List UInt8) (offset n : Nat) : List UInt8 := (List.range' offset n).map fun i => data.getD i 0

@[simp] theorem length_fileBytes (data : List UInt8) (offset n : Nat) : (fileBytes data offset n).length = n := by
  rw [fileBytes, List.length_map, List.length_range']

private theorem fileBytes_append (data : List UInt8) (offset m n : Nat) :
    fileBytes data offset m ++ fileBytes data (offset + m) n = fileBytes data offset (m + n) := by
  rw [fileBytes, fileBytes, fileBytes, ← List.map_append, List.range'_append_1]

private theorem take_fileBytes (data : List UInt8) (offset : Nat) {m n : Nat} (h : m ≤ n) :
    (fileBytes data offset n).take m = fileBytes data offset m := by
  obtain ⟨k, rfl⟩ := Nat.exists_eq_add_of_le h
  rw [← fileBytes_append, List.take_left' (length_fileBytes _ _ _)]

/-- Whether a file system has a fixed content for each file, as long as its state has some property: a request that
reads a file keeps the property, and if it does not fail it fills its buffer with the bytes of the file. -/
structure ServesFiles {σ : Type} [FileSystem σ] (I : σ → Prop) (file : Inode → List UInt8) : Prop where
  keeps : ∀ s inode buffer offset, I s → I (FileSystem.request s inode buffer offset .read).2
  fills : ∀ s inode buffer offset out, I s → (FileSystem.request s inode buffer offset .read).1 = .ok out →
    out = fileBytes (file inode) offset buffer.length

/-- The request for a chunk of the first `length` bytes of a file. -/
def chunkCall (inode : Inode) (length i : Nat) : FileCall :=
  .request inode (min pageSize (length - i * pageSize)) (i * pageSize) .read

/-- The requests for the first `n` chunks. -/
def chunkCalls (inode : Inode) (length n : Nat) : List FileCall := (List.range n).map (chunkCall inode length)

/-- The number of chunks in the first `length` bytes of a file. -/
def chunkCount (length : Nat) : Nat := (length + pageSize - 1) / pageSize

namespace Volume

variable {σ : Type} [FileSystem σ] {inode : Inode} {length done done' done'' : Nat} {v v' v'' : Volume σ}
  {bytes bytes' : List UInt8} {I : σ → Prop} {file : Inode → List UInt8}

private theorem Reads.append (h : v.Reads inode length done bytes done' v')
    (h' : v'.Reads inode length done' bytes' done'' v'') : v.Reads inode length done (bytes ++ bytes') done'' v'' := by
  induction h with
  | refl => exact h'
  | step hlt hbuffer hrequest _ ih =>
    rw [List.append_assoc]
    exact .step hlt hbuffer hrequest (ih h')

/-- One more request has succeeded. -/
private theorem Reads.snoc {buffer out : List UInt8} (h : v.Reads inode length done bytes done' v')
    (hlt : done' < length) (hbuffer : buffer.length = min (length - done') pageSize)
    (hrequest : (request inode buffer done' .read).run v' = .ok (.ok out) v'') :
    v.Reads inode length done (bytes ++ out) (done' + out.length) v'' := by
  have hone := Reads.step hlt hbuffer hrequest (.refl _ _)
  rw [List.append_nil] at hone
  exact h.append hone

private theorem request_of_serves (hserves : ServesFiles I file) (hv : I v.state) {buffer : List UInt8} {offset : Nat}
    {r : Except Errno (List UInt8)} (h : (request inode buffer offset .read).run v = .ok r v') :
    I v'.state ∧ v'.calls = v.calls.push (.request inode buffer.length offset .read) ∧
      ∀ out, r = .ok out → out = fileBytes (file inode) offset buffer.length := by
  rw [run_request] at h
  injection h with hr hv'
  subst hr hv'
  exact ⟨hserves.keeps _ _ _ _ hv, rfl, fun out hout => hserves.fills _ _ _ _ _ hv hout⟩

/-- Successive requests bring successive bytes of the file. -/
private theorem Reads.bytes_eq (hserves : ServesFiles I file) (h : v.Reads inode length done bytes done' v')
    (hv : I v.state) : done ≤ done' ∧ bytes = fileBytes (file inode) done (done' - done) ∧ I v'.state := by
  induction h with
  | refl done v => exact ⟨Nat.le_refl _, by rw [Nat.sub_self]; rfl, hv⟩
  | step hlt hbuffer hrequest _ ih =>
    obtain ⟨hstate, -, hout⟩ := request_of_serves hserves hv hrequest
    obtain ⟨hle, hrest, hstate'⟩ := ih hstate
    rw [hout _ rfl, length_fileBytes] at hle hrest
    refine ⟨by omega, ?_, hstate'⟩
    rw [hout _ rfl, hrest, fileBytes_append]
    congr 1
    omega

/-- They are the requests for successive chunks. -/
private theorem Reads.calls_eq (h : v.Reads inode length done bytes done' v') {i : Nat}
    (hdone : done = min (i * pageSize) length) :
    ∃ n, done' = min ((i + n) * pageSize) length ∧ (∀ j < n, (i + j) * pageSize < length) ∧
      v'.calls.toList = v.calls.toList ++ (List.range' i n).map (chunkCall inode length) := by
  induction h generalizing i with
  | refl done v => exact ⟨0, hdone, by simp, by simp⟩
  | @step done done' v v₁ v' buffer out bytes hlt hbuffer hrequest hrest ih =>
    have hstart : done = i * pageSize := by omega
    have hnext : done + out.length = min ((i + 1) * pageSize) length := by
      have hout := length_of_run_request hrequest
      rw [hstart] at hbuffer hlt ⊢
      rw [Nat.succ_mul]
      omega
    obtain ⟨n, hdone', hbefore, hcalls⟩ := ih hnext
    have hsum : ∀ n, i + 1 + n = i + (n + 1) := fun n => by omega
    rw [hsum] at hdone'
    refine ⟨n + 1, hdone', fun j hj => ?_, ?_⟩
    · cases j with
      | zero => exact hstart ▸ hlt
      | succ j => exact hsum j ▸ hbefore j (Nat.lt_of_succ_lt_succ hj)
    · rw [run_request] at hrequest
      injection hrequest with _ hv₁
      rw [hcalls, ← hv₁, Array.toList_push, List.append_assoc, List.range'_succ, List.map_cons, chunkCall, hbuffer, hstart,
        Nat.min_comm pageSize]
      rfl

end Volume

namespace Kernel

open ProcessTable

section Outcomes

variable {σ : Type} [FileSystem σ] {inode : Inode} {address length : Nat} {a a' : Access} {v v' : Volume σ}
  {r : Except Errno Unit} {I : σ → Prop} {file : Inode → List UInt8}

/-- How a read of a checked range can end if the file holds some bytes. Either all chunks have been requested, without a
failure, and the range holds the first bytes of the file. Or the request for a chunk was the first to fail, and the
chunks before it have been written. Or there was no frame for a page while a chunk was copied, and besides the chunks
before it only some of its first bytes have been written. -/
inductive DeliversFile (data : List UInt8) (inode : Inode) (address length : Nat) (a : Access) (v : Volume σ) :
    Except Errno Unit → Access → Volume σ → Prop
  | all {a' : Access} {v' : Volume σ} (hreads : v.Reads inode length 0 (fileBytes data 0 length) length v')
      (hcalls : v'.calls.toList = v.calls.toList ++ chunkCalls inode length (chunkCount length))
      (hwritten : Written address (fileBytes data 0 length) a a') :
      DeliversFile data inode address length a v (.ok ()) a' v'
  | inputOutput {n : Nat} {buffer : List UInt8} {e : Errno} {a' : Access} {v₁ v' : Volume σ} (hlt : n * pageSize < length)
      (hreads : v.Reads inode length 0 (fileBytes data 0 (n * pageSize)) (n * pageSize) v₁)
      (hrequest : (Volume.request inode buffer (n * pageSize) .read).run v₁ = .ok (.error e) v')
      (hcalls : v'.calls.toList = v.calls.toList ++ chunkCalls inode length (n + 1))
      (hwritten : Written address (fileBytes data 0 (n * pageSize)) a a') :
      DeliversFile data inode address length a v (.error .inputOutput) a' v'
  | noMemory {n m stop : Nat} {a' : Access} {v' : Volume σ} (hlt : n * pageSize < length)
      (hstop : stop = min ((n + 1) * pageSize) length) (hm : n * pageSize + m < stop)
      (hreads : v.Reads inode length 0 (fileBytes data 0 stop) stop v')
      (hcalls : v'.calls.toList = v.calls.toList ++ chunkCalls inode length (n + 1))
      (hwritten : Written address (fileBytes data 0 (n * pageSize + m)) a a') :
      DeliversFile data inode address length a v (.error .noMemory) a' v'

/-- The requests with which `done` bytes have been read are those for the first chunks. -/
private theorem calls_of_reads {bytes : List UInt8} {done : Nat} (h : v.Reads inode length 0 bytes done v') :
    ∃ n, done = min (n * pageSize) length ∧ (∀ j < n, j * pageSize < length) ∧
      v'.calls.toList = v.calls.toList ++ chunkCalls inode length n := by
  obtain ⟨n, hdone, hbefore, hcalls⟩ := h.calls_eq (i := 0) (by omega)
  rw [Nat.zero_add] at hdone
  simp only [Nat.zero_add] at hbefore
  rw [← List.range_eq_range'] at hcalls
  exact ⟨n, hdone, hbefore, hcalls⟩

/-- The next request is that for the next chunk. -/
private theorem calls_of_request (hserves : ServesFiles I file) {v₁ : Volume σ} {bytes buffer : List UInt8} {done : Nat}
    {r : Except Errno (List UInt8)} (hreads : v.Reads inode length 0 bytes done v₁) (hv₁ : I v₁.state)
    (hlt : done < length) (hbuffer : buffer.length = min (length - done) pageSize)
    (hrequest : (Volume.request inode buffer done .read).run v₁ = .ok r v') :
    ∃ n, done = n * pageSize ∧ v'.calls.toList = v.calls.toList ++ chunkCalls inode length (n + 1) := by
  obtain ⟨n, hdone, -, hcalls⟩ := calls_of_reads hreads
  obtain rfl : done = n * pageSize := by omega
  obtain ⟨-, hcall, -⟩ := Volume.request_of_serves hserves hv₁ hrequest
  refine ⟨n, rfl, ?_⟩
  rw [hcall, Array.toList_push, hcalls, hbuffer, Nat.min_comm, List.append_assoc, chunkCalls, chunkCalls, List.range_succ,
    List.map_append, List.map_singleton, chunkCall]

/-- A read that delivers what the requests bring delivers the bytes of the file. -/
private theorem deliversFile_of_chunksEnd (hserves : ServesFiles I file) (hv : I v.state)
    (h : ChunksEnd inode address length 0 a v r a' v') : DeliversFile (file inode) inode address length a v r a' v' := by
  cases h with
  | all hreads hwritten =>
    obtain ⟨-, rfl, -⟩ := hreads.bytes_eq hserves hv
    obtain ⟨n, hdone, hbefore, hcalls⟩ := calls_of_reads hreads
    obtain rfl : n = chunkCount length := by
      have hlast : n ≠ 0 → (n - 1) * pageSize < length := fun hn => hbefore (n - 1) (by omega)
      simp only [chunkCount, pageSize] at hdone hlast ⊢
      omega
    exact .all hreads hcalls hwritten
  | inputOutput hreads hlt hbuffer hrequest hwritten =>
    obtain ⟨-, rfl, hv₁⟩ := hreads.bytes_eq hserves hv
    obtain ⟨n, rfl, hcalls⟩ := calls_of_request hserves hreads hv₁ hlt hbuffer hrequest
    exact .inputOutput hlt hreads hrequest hcalls hwritten
  | @noMemory bytes buffer out done m _ v₁ _ hreads hlt hbuffer hrequest hm hwritten =>
    obtain ⟨-, rfl, hv₁⟩ := hreads.bytes_eq hserves hv
    obtain ⟨n, rfl, hcalls⟩ := calls_of_request hserves hreads hv₁ hlt hbuffer hrequest
    have hall := hreads.snoc hlt hbuffer hrequest
    obtain ⟨-, -, hout⟩ := Volume.request_of_serves hserves hv₁ hrequest
    obtain rfl := hout out rfl
    rw [length_fileBytes] at hm hall
    have hstop : n * pageSize + buffer.length = min ((n + 1) * pageSize) length := by
      rw [hbuffer, Nat.succ_mul]
      omega
    have happend : ∀ i, fileBytes (file inode) 0 (n * pageSize) ++ fileBytes (file inode) (n * pageSize) i =
        fileBytes (file inode) 0 (n * pageSize + i) := fun i => by
      have h := fileBytes_append (file inode) 0 (n * pageSize) i
      rwa [Nat.zero_add] at h
    rw [Nat.sub_zero] at hall hwritten
    rw [happend] at hall
    rw [take_fileBytes _ _ (Nat.le_of_lt hm), happend, Nat.add_zero] at hwritten
    exact .noMemory hlt hstop (Nat.add_lt_add_left hm _) hall hcalls hwritten

end Outcomes

variable {σ φ : Type} [FileSystem σ] [Firmware φ]

/-- Whether a trap with the registers `f` in which the running process `p` asks for a read has the answer `r`, where the
files hold some bytes. -/
structure ReadsFile (file : Inode → List UInt8) (k : Kernel σ φ) (p : Process AddressSpace) (f : TrapFrame)
    (r : Except Errno UInt64) (a' : Access) (k' : Kernel σ φ) : Prop where
  memory : k'.memory = a'.memory
  table : k'.table = k.table.put k.table.current (some { p with frame := f.advanced, memory := a'.user })
  ends : ReadEnds (fun inode => DeliversFile (file inode) inode f.a1.toNat f.a2.toNat ⟨p.memory, k.memory⟩ k.volume)
    p.descriptors f.a0.toNat f.a1.toNat f.a2.toNat ⟨p.memory, k.memory⟩ k.volume r a' k'.volume
  /-- The other processes have the same entries in their page tables as before, and their pages the same bytes. -/
  others : ∀ s q, s ≠ k.table.current → k.table.get s = some q →
    q.memory.space.translate k'.memory = q.memory.space.translate k.memory ∧
      q.memory.space.content k'.memory = q.memory.space.content k.memory

variable {entry stackPointer heapStart : UInt64} {memory : PhysicalMemory} {files : σ} {firmware : φ}
  {logLimit : Option LogLevel} {k₀ k : Kernel σ φ} {I : σ → Prop} {file : Inode → List UInt8}

/-- Whatever traps have come, a read of a file delivers the first bytes of the file, or fails as it should. -/
theorem Reachable.readsFiles (hboot : boot entry stackPointer heapStart memory files firmware logLimit = .ok k₀)
    (hmemory : memory.Consistent) (h : Reachable k₀ k) (hserves : ServesFiles I file) (hstate : I k.volume.state)
    {p : Process AddressSpace} (hp : k.table.get k.table.current = some p) {f : TrapFrame} (hasks : f.Asks .read) :
    (answerCall f).Ensures k (fun r k' => ∃ a', ReadsFile file k p f r a' k')
      fun _ _ => wordLimit ≤ f.sepc.toNat + 4 := by
  obtain ⟨foreign, hsound⟩ := h.exists_sound hmemory hboot
  refine (answerCall_read hp (hsound.access hp) hasks).mono ?_
  rintro r k' ⟨a', hmemory, htable, hleads, hends⟩
  refine ⟨a', hmemory, htable, hends.mono fun _ _ _ _ => deliversFile_of_chunksEnd hserves hstate, fun s q hne hq => ?_⟩
  rw [hmemory]
  refine ⟨funext fun page => ?_, hsound.content_of_spares hleads.spares hne hq⟩
  exact (hsound.unchanged hleads.spares).translate _ (mem_otherRegions hne hq) page

end Kernel

/-! ### Files of the bench -/

namespace Bench

private theorem ListedFiles.window_eq_fileBytes (data : Array UInt8) (offset n : Nat) :
    window data offset n = fileBytes data.toList offset n := by
  refine List.ext_getElem (by rw [window_length, length_fileBytes]) fun i hi hi' => ?_
  rw [length_fileBytes] at hi'
  simp only [window, fileBytes, List.getElem_map, List.getElem_range', List.getElem_append, Nat.one_mul,
    Array.length_toList, Array.size_extract]
  split
  · rw [List.getD_eq_getElem _ _ (by rw [Array.length_toList]; omega)]
    simp
  · rw [List.getD_eq_default _ _ (by rw [Array.length_toList]; omega), List.getElem_replicate]

/-- The data of the file with an inode number, or nothing if there is none. -/
def KeyedFiles.dataOf (l : List KeyedFile) (inode : Inode) : List UInt8 :=
  ((l.find? fun f => f.inode = inode).map fun f => f.data.toList).getD []

/-- As long as the files are the same, a request that does not fail reads the data of the file. -/
private theorem KeyedFiles.serves (l : List KeyedFile) :
    ServesFiles (fun s : KeyedFiles => s.files = l) (KeyedFiles.dataOf l) where
  keeps _ _ _ _ h := h
  fills := by
    rintro s inode buffer offset out rfl hout
    have hread : s.transfer inode buffer offset .read = .ok out := hout
    simp only [transfer, find?] at hread
    split at hread
    · exact absurd hread (by simp)
    next f hf => rw [← Except.ok.inj hread, ListedFiles.window_eq_fileBytes, dataOf, hf, Option.map_some, Option.getD_some]

end Bench

namespace Kernel

/-- The bench kernel at its start, with one file of three bytes, whose path is the empty one. -/
def fileStart : Except Errno (Kernel Bench.KeyedFiles Bench.BenchFirmware) :=
  boot 0x1000 0x40000000 0x10000000 (.ofPages 0x80600 0x80700) (.ofList [("", #[7, 8, 9])]) {} none

/-- The first process gets the last page of its stack and opens the file. -/
def openFile : List TrapFrame :=
  [{ TrapFrame.zero with scause := 15, stval := 0x3FFFF000 }, callFrame .openPath 0x3FFFE000 0 0]

/-- Whether the first process reaches a state that passes a test when it has opened the file. -/
def fileRun (test : Kernel Bench.KeyedFiles Bench.BenchFirmware → Bool) : Bool :=
  match fileStart with
  | .error _ => false
  | .ok k =>
    match trapsWith openFile k with
    | .ok _ k => test k
    | .error _ _ => false

private theorem exists_of_fileRun {test : Kernel Bench.KeyedFiles Bench.BenchFirmware → Bool}
    (h : fileRun test = true) : ∃ k₀ k, fileStart = .ok k₀ ∧ Reachable k₀ k ∧ test k = true := by
  unfold fileRun at h
  split at h
  · exact absurd h (by simp)
  next k₀ hk₀ =>
    split at h
    next k hk => exact ⟨k₀, k, hk₀, (Reachable.start.trapsWith openFile).of_ok hk, h⟩
    · exact absurd h (by simp)

/-- Whether a process is running that makes a call with success. -/
def succeeds (f : TrapFrame) (k : Kernel Bench.KeyedFiles Bench.BenchFirmware) : Bool :=
  match k.table.get k.table.current, answerCall f k with
  | some _, .ok (.ok _) _ => true
  | _, _ => false

/-- The file is read to the stack, across the end of a page. -/
theorem readsFiles_stack : ∃ (k₀ k k' : Kernel Bench.KeyedFiles Bench.BenchFirmware) (p : Process AddressSpace)
    (n : UInt64) (a' : Access), fileStart = .ok k₀ ∧ Reachable k₀ k ∧ k.table.get k.table.current = some p ∧
      Bench.KeyedFiles.dataOf k.volume.state.files 1 = [7, 8, 9] ∧
      ReadsFile (Bench.KeyedFiles.dataOf k.volume.state.files) k p (callFrame .read 0 0x3FFFEFFE 3) (.ok n) a' k' := by
  obtain ⟨k₀, k, hk₀, hk, htest⟩ := exists_of_fileRun (show fileRun (fun k =>
    succeeds (callFrame .read 0 0x3FFFEFFE 3) k && decide (Bench.KeyedFiles.dataOf k.volume.state.files 1 = [7, 8, 9])) =
      true by decide +kernel)
  obtain ⟨hsucceeds, hdata⟩ := Bool.and_eq_true_iff.mp htest
  unfold succeeds at hsucceeds
  split at hsucceeds
  next p n k' hp hanswer =>
    obtain ⟨a', hreads⟩ := (Reachable.readsFiles hk₀ consistent_benchMemory hk
      (Bench.KeyedFiles.serves k.volume.state.files) rfl hp (by decide)).of_ok hanswer
    exact ⟨k₀, k, k', p, n, a', hk₀, hk, hp, of_decide_eq_true hdata, hreads⟩
  · exact absurd hsucceeds (by simp)

/-- What the process reads at an address before and after a call that succeeds. -/
def byteAround (x : Nat) (f : TrapFrame) (k : Kernel Bench.KeyedFiles Bench.BenchFirmware) : Option (UInt8 × UInt8) := do
  let p ← k.table.get k.table.current
  let before ← Access.byteAt? ⟨p.memory, k.memory⟩ x
  match answerCall f k with
  | .ok (.ok 0) k' =>
    let p' ← k'.table.get k'.table.current
    let after ← Access.byteAt? ⟨p'.memory, k'.memory⟩ x
    return (before, after)
  | _ => none

/-- A read to the stack changes a byte that is read far above it: at the address with the same lower 39 bits and the next
one set. -/
theorem byteAround_readAlias : ∃ (k₀ k : Kernel Bench.KeyedFiles Bench.BenchFirmware), fileStart = .ok k₀ ∧
    Reachable k₀ k ∧ byteAround 0x803FFFF000 (callFrame .read 0 0x3FFFF000 3) k = some (0, 7) := by
  obtain ⟨k₀, k, hk₀, hk, hread⟩ := exists_of_fileRun (show fileRun (fun k =>
    decide (byteAround 0x803FFFF000 (callFrame .read 0 0x3FFFF000 3) k = some (0, 7))) = true by decide +kernel)
  exact ⟨k₀, k, hk₀, hk, of_decide_eq_true hread⟩

end Kernel

end TrapKernel
