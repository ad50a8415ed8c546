import TrapKernel.Proofs.Kernel.ChunkedReads
import TrapKernel.Proofs.Kernel.Forks
import TrapKernel.Proofs.Kernel.Registers
import TrapKernel.Proofs.Kernel.TextReads
import TrapKernel.Proofs.Process.FatalSignals
import TrapKernel.Proofs.Signal.ActionBytes

/-!
# The exchange of signal actions

A process exchanges the action of a signal for another one: the bytes of the new action are read, then those of the old one
are written, and only then is the new one installed. So the new action is what the bytes spelled before the call, even if
the bytes of the old one have been written over them, and a call that fails has installed nothing.

* `Access.Exchanges`: what an exchange does.
* `Kernel.Reachable.exchangesActions`: in reachable states all exchanges do so, and the two signals that cannot be caught
  have the initial action.
-/

namespace TrapKernel

namespace Access

open PrivatePages

/-- The bytes that a copy from an address would bring. A byte that cannot be read counts as zero: if a copy succeeds
nevertheless, it lies behind the end of the heap, on the last page of it, which comes into being with the copy. -/
def bytesAt (a : Access) (address length : Nat) : List UInt8 :=
  (List.range' address length).map fun x => (a.byteAt? x).getD 0

/-- What an exchange of the action of signal `n` does, where the new one is at the address `new` and the old one goes to
the address `old`. A zero address leaves its part out. -/
structure Exchanges (n new old : Nat) (actions : SignalActions) (a : Access) (r : Except Errno UInt64)
    (actions' : SignalActions) (a' : Access) : Prop where
  /-- The call is not valid exactly if there is no such signal or it cannot be caught. -/
  invalid : r = .error .invalid ↔ ¬(isSignal n = true ∧ isCatchable n = true)
  ok : ∀ w, r = .ok w → w = 0
  /-- A call that fails changes no action. -/
  failed : ∀ e, r = .error e → actions' = actions ∧ (e = .invalid ∨ e = .badAddress ∨ e = .noMemory)
  /-- The new action is what the bytes spelled before the call. -/
  installed : r = .ok 0 → new ≠ 0 → SignalAction.Decodes (a.bytesAt new RawAction.byteCount) (actions'.action n)
  asked : new = 0 → actions' = actions
  others : ∀ m, m ≠ n → actions'.action m = actions.action m
  /-- The bytes of the old action have been written, or the first of them if the call fails, and nothing else. -/
  told : ∃ bytes count, (actions.action n).Encodes bytes ∧ Written old (bytes.take count) a a' ∧
    (r = .ok 0 → old ≠ 0 → count = RawAction.byteCount) ∧ (old = 0 → count = 0)

/-- Whether a new action is what the bytes at an address spell. At address zero there is none. -/
def Spelled (a : Access) (new : Nat) : Option SignalAction → Prop
  | none => new = 0
  | some action => new ≠ 0 ∧ SignalAction.Decodes (a.bytesAt new RawAction.byteCount) action

variable {a a' : Access} {foreign : Surroundings} {owned held : List Nat} {address length : Nat} {bytes : List UInt8}

private theorem length_bytesAt (a : Access) (address length : Nat) : (a.bytesAt address length).length = length := by
  rw [bytesAt, List.length_map, List.length_range']

/-- On the pages that a process holds there are the bytes that it reads. -/
private theorem byteAt_heldPages (h : a.Sound foreign owned held) {x : Nat} (hx : x < addressLimit) :
    a.heldPages.byteAt x = (a.byteAt? x).getD 0 := by
  by_cases hpage : a.heldPages.Has (pageOf (x % addressLimit))
  · rw [byteAt?_of_has h hpage, Option.getD_some, Nat.mod_eq_of_lt hx]
  · have hzero : (if a.user.isDemandZero x then some (0 : UInt8) else none).getD 0 = 0 := by split <;> rfl
    rw [byteAt?_of_not_has h hpage, hzero]
    rw [Nat.mod_eq_of_lt hx, Has, Bool.not_eq_true, Option.isSome_eq_false_iff, Option.isNone_iff_eq_none] at hpage
    rw [PrivatePages.byteAt, hpage, Option.getD_none, Frame.byte_zero]

private theorem error_of_foretold {α : Type} {r : Except Errno α} (h : Foretold a address length r) (e : Errno)
    (he : r = .error e) : e = .badAddress ∨ e = .noMemory := by
  subst he
  rcases h with hcheck | ⟨hmemory, -⟩
  · refine .inl (Except.error.inj (hcheck.trans (UserMemory.checkRange_eq_error fun hok => ?_)))
    exact absurd (hcheck.trans hok) (by simp [Except.map])
  · exact .inr (Except.error.inj hmemory)

/-- A copy from an address that succeeds brings the bytes there. -/
private theorem readUser_bytesAt (h : a.Sound foreign owned held) (hle : address + length ≤ stackTop) :
    (readUser address length).Ensures a
      (fun r a' => Leads foreign owned held a a' ∧ Written address [] a a' ∧
        (∀ bytes, r = .ok bytes → bytes = a.bytesAt address length) ∧ ∀ e, r = .error e → e = .badAddress ∨ e = .noMemory)
      fun _ _ => False := by
  have hspec := (readUser_spec h address length fun _ : True => plain_of_lt (pageOf_lt_pageLimit (by omega))).mono
    fun r a' hr => (⟨hr.1, fun hk => (hr.2 hk).2⟩ : _ ∧ _)
  have hbytes := ensures_of_follows hspec fun b =>
    ((PrivateMemory.readUser_spec b address length).and (PrivateMemory.readUser_wrote b address length address)).imp
      (fun _ _ hr => hr) fun _ _ _ => trivial
  refine (((readUser_exact h hle).and (readUser_foretold h hle)).and (hspec.and hbytes)).imp ?_ fun _ _ hstop => hstop.1.1
  rintro r a' ⟨⟨⟨hwritten, -⟩, hforetold⟩, ⟨hleads, -⟩, answers, ⟨-, hread, -⟩, hwrote⟩
  refine ⟨hleads, hwritten, fun bytes hr => ?_, error_of_foretold hforetold⟩
  have hsame : (heldPages a').byteAt = overwrite a.heldPages.byteAt address [] := hwrote.byteAt
  refine (hread bytes hr).2.trans (List.map_congr_left fun x hx => ?_)
  have hlt : x < addressLimit := by
    rw [List.mem_range'_1] at hx
    simp only [addressLimit, pageLimit, pageSize, stackTop] at hle ⊢
    omega
  rw [← byteAt_heldPages h hlt]
  exact congrFun (hsame.trans overwrite_nil) x

/-- A copy to an address writes its bytes, or the first of them if it fails. -/
private theorem writeUser_first (h : a.Sound foreign owned held) (hle : address + bytes.length ≤ stackTop) :
    (writeUser address bytes).Ensures a
      (fun r a' => Leads foreign owned held a a' ∧ (∃ count, Written address (bytes.take count) a a' ∧
        (r = .ok () → count = bytes.length)) ∧ ∀ e, r = .error e → e = .badAddress ∨ e = .noMemory)
      fun _ _ => False := by
  refine (((writeUser_written h hle).and (exactCopies_of_sound h hle).write).and (writeUser_foretold h hle)).imp ?_
    fun _ _ hstop => hstop.2
  rintro r a' ⟨⟨⟨hleads, -⟩, hwrite⟩, hforetold⟩
  refine ⟨hleads, ?_, error_of_foretold hforetold⟩
  cases r with
  | ok => exact ⟨bytes.length, by rw [List.take_length]; exact hwrite.1, fun _ => rfl⟩
  | error e =>
    obtain ⟨count, -, -, hwritten, -⟩ := hwrite
    exact ⟨count, hwritten, fun hok => absurd hok (by simp)⟩

private theorem action_install_self {actions : SignalActions} {n : Nat} (hn : isSignal n = true)
    (action : SignalAction) : (actions.install n action).action n = action := by
  have hlt : n < lastSignal + 1 := by
    simp only [isSignal, Bool.and_eq_true, decide_eq_true_eq] at hn
    omega
  rw [SignalActions.action, SignalActions.install, Vector.getElem?_setIfInBounds_self, if_pos hlt, Option.getD_some]

private theorem action_install_of_ne {actions : SignalActions} {n m : Nat} (hm : m ≠ n) (action : SignalAction) :
    (actions.install n action).action m = actions.action m := by
  rw [SignalActions.action, SignalActions.install, Vector.getElem?_setIfInBounds_ne (Ne.symm hm), SignalActions.action]

section Exchanges

variable {n new old count : Nat} {actions : SignalActions} {e : Errno}

private theorem encodes_self (action : SignalAction) : action.Encodes action.toRaw.toBytes :=
  SignalAction.encodes_iff.mpr rfl

private theorem exchanges_invalid (hn : ¬(isSignal n = true ∧ isCatchable n = true)) :
    Exchanges n new old actions a (.error .invalid) actions a where
  invalid := iff_of_true rfl hn
  ok _ hok := absurd hok (by simp)
  failed _ herror := ⟨rfl, .inl (Except.error.inj herror).symm⟩
  installed hok := absurd hok (by simp)
  asked _ := rfl
  others _ _ := rfl
  told := ⟨_, 0, encodes_self _, .refl _ _, fun hok => absurd hok (by simp), fun _ => rfl⟩

variable (hn : isSignal n = true ∧ isCatchable n = true)
  (hwritten : Written old ((actions.action n).toRaw.toBytes.take count) a a')

include hn hwritten

private theorem exchanges_error (hzero : old = 0 → count = 0) (he : e = .badAddress ∨ e = .noMemory) :
    Exchanges n new old actions a (.error e) actions a' where
  invalid := iff_of_false (by rcases he with rfl | rfl <;> simp) (not_not_intro hn)
  ok _ hok := absurd hok (by simp)
  failed _ herror := ⟨rfl, .inr (Except.error.inj herror ▸ he)⟩
  installed hok := absurd hok (by simp)
  asked _ := rfl
  others _ _ := rfl
  told := ⟨_, count, encodes_self _, hwritten, fun hok => absurd hok (by simp), hzero⟩

/-- An exchange that has come to its end. -/
private theorem exchanges_ok {action? : Option SignalAction} (hread : a.Spelled new action?)
    (hcount : old ≠ 0 → count = RawAction.byteCount) (hzero : old = 0 → count = 0) :
    Exchanges n new old actions a (.ok 0) (action?.elim actions (actions.install n)) a' where
  invalid := iff_of_false (by simp) (not_not_intro hn)
  ok _ hok := (Except.ok.inj hok).symm
  failed _ herror := absurd herror (by simp)
  installed _ hnew := by
    cases action? with
    | none => exact absurd hread hnew
    | some action =>
      rw [Option.elim_some, action_install_self hn.1]
      exact hread.2
  asked hnew := by
    cases action? with
    | none => rfl
    | some action => exact absurd hnew hread.1
  others m hm := by
    cases action? with
    | none => rfl
    | some action => exact action_install_of_ne hm action
  told := ⟨_, count, encodes_self _, hwritten, fun _ => hcount, hzero⟩

end Exchanges

end Access

namespace Kernel

open ProcessTable Access

section Calls

variable {σ φ : Type} {k : Kernel σ φ} {p : Process AddressSpace} {foreign : Surroundings} {owned held : List Nat}
  {address : UInt64}

private theorem storeAccess_stores (a : Access) : Stores k p a (storeAccess k k.table.current p a) := ⟨rfl, rfl, rfl⟩

/-- The action at an address is what the bytes there spell. -/
private theorem readAction_spec (hp : k.table.get k.table.current = some p)
    (h : Access.Sound ⟨p.memory, k.memory⟩ foreign owned held)
    (hle : address.toNat + RawAction.byteCount ≤ stackTop) (old : Nat) :
    (readAction address).Ensures k
      (fun r k' => ∃ a', Stores k p a' k' ∧ Leads foreign owned held ⟨p.memory, k.memory⟩ a' ∧
        Written old [] ⟨p.memory, k.memory⟩ a' ∧ match r with
        | .ok new => Spelled ⟨p.memory, k.memory⟩ address.toNat new
        | .error e => e = .badAddress ∨ e = .noMemory)
      fun _ _ => False := by
  unfold readAction
  split
  next hzero => exact ⟨_, .refl hp k.volume k.log, .refl h, .refl _ _, congrArg UInt64.toNat hzero⟩
  next hzero =>
    rw [Attempt.ensures_bind, ensures_onCurrentMemory hp]
    refine (readUser_bytesAt h hle).mono ?_
    rintro r a' ⟨hleads, hwritten, hbytes, herror⟩
    have hnothing : Written old [] ⟨p.memory, k.memory⟩ a' :=
      ⟨fun i hi => absurd hi (Nat.not_lt_zero i), fun x b hb => by
        rw [overwrite_nil, hwritten.others x b hb, overwrite_nil]⟩
    cases r with
    | error e => exact ⟨a', storeAccess_stores a', hleads, hnothing, herror e rfl⟩
    | ok bytes =>
      obtain rfl := hbytes bytes rfl
      have hword : address.toNat ≠ 0 := fun hword => hzero (UInt64.toNat_inj.mp hword)
      exact ⟨a', storeAccess_stores a', hleads, hnothing, hword, (SignalAction.decodes_iff (length_bytesAt _ _ _)).mpr rfl⟩

/-- How an exchange that the process `p` has asked for with the registers `f` has ended: besides its memory and its actions
nothing has changed in the process table. -/
def ExchangeEnds (k : Kernel σ φ) (p : Process AddressSpace) (f : TrapFrame) (r : Except Errno UInt64)
    (k' : Kernel σ φ) : Prop :=
  ∃ user actions, k'.table = k.table.put k.table.current (some { p with memory := user, actions }) ∧
    Exchanges f.a0.toNat f.a1.toNat f.a2.toNat p.actions ⟨p.memory, k.memory⟩ r actions ⟨user, k'.memory⟩

private theorem exchangeEnds_of_stores {f : TrapFrame} {r : Except Errno UInt64} {a' : Access} {k' : Kernel σ φ}
    (hstores : Stores k p a' k')
    (h : Exchanges f.a0.toNat f.a1.toNat f.a2.toNat p.actions ⟨p.memory, k.memory⟩ r p.actions a') :
    k.ExchangeEnds p f r k' :=
  ⟨a'.user, p.actions, hstores.table, by rw [hstores.memory]; exact h⟩

/-- The last step of an exchange: the new action is installed, if there is one. -/
private theorem installAction_ends {f : TrapFrame} {a' : Access} {k' : Kernel σ φ} {new : Option SignalAction}
    {count : Nat} (hstores : Stores k p a' k') (hn : isSignal f.a0.toNat = true ∧ isCatchable f.a0.toNat = true)
    (hwritten : Written f.a2.toNat ((p.actions.action f.a0.toNat).toRaw.toBytes.take count) ⟨p.memory, k.memory⟩ a')
    (hcount : f.a2.toNat ≠ 0 → count = RawAction.byteCount) (hzero : f.a2.toNat = 0 → count = 0) :
    Spelled ⟨p.memory, k.memory⟩ f.a1.toNat new → Attempt.Ensures (match new with
      | none => return 0
      | some action => do
        Attempt.ofRun (modifyCurrent fun p => { p with actions := p.actions.install f.a0.toNat action })
        return 0 : Attempt (Kernel σ φ) UInt64) k' (k.ExchangeEnds p f) fun _ _ => False := by
  intro hread
  have hends := exchanges_ok hn hwritten hread hcount hzero
  cases new with
  | none => exact exchangeEnds_of_stores hstores hends
  | some action =>
    have hp' : k'.table.get k'.table.current = some { p with memory := a'.user } := by
      rw [hstores.table, current_put, get_put_self]
    rw [Attempt.ensures_bind, Attempt.ensures_ofRun, ensures_modifyCurrent hp']
    refine ⟨a'.user, _, ?_, by rw [show k'.memory = a'.memory from hstores.memory]; exact hends⟩
    rw [hstores.table, current_put, put_put]
    rfl

/-- How the exchange of an action ends. -/
private theorem callSignalAction_ends (hp : k.table.get k.table.current = some p)
    (h : Access.Sound ⟨p.memory, k.memory⟩ foreign owned held) {f : TrapFrame}
    (hnew : f.a1.toNat + RawAction.byteCount ≤ stackTop) (hold : f.a2.toNat + RawAction.byteCount ≤ stackTop) :
    (callSignalAction f).Ensures k (k.ExchangeEnds p f) fun _ _ => False := by
  unfold callSignalAction
  dsimp only
  split
  case isFalse hn =>
    refine exchangeEnds_of_stores (.refl hp k.volume k.log) (exchanges_invalid ?_)
    rwa [Bool.and_eq_true] at hn
  next hn =>
  rw [Bool.and_eq_true] at hn
  rw [Attempt.ensures_bind, Attempt.ensures_ofRun, ensures_currentProcess hp]
  dsimp only
  rw [Attempt.ensures_bind]
  refine (readAction_spec hp h hnew f.a2.toNat).mono ?_
  rintro r k₁ ⟨a₁, hstores, hleads, hnothing, hread⟩
  have hnone : Written f.a2.toNat ((p.actions.action f.a0.toNat).toRaw.toBytes.take 0) ⟨p.memory, k.memory⟩ a₁ := hnothing
  cases r with
  | error e => exact exchangeEnds_of_stores hstores (exchanges_error hn hnone (fun _ => rfl) hread)
  | ok new =>
    dsimp only
    split
    case isFalse hzero =>
      have hword : f.a2.toNat = 0 := congrArg UInt64.toNat (not_not.mp hzero)
      exact installAction_ends hstores hn hnone (fun h => absurd hword h) (fun _ => rfl) hread
    next hzero =>
    have hword : f.a2.toNat ≠ 0 := fun hword => hzero (UInt64.toNat_inj.mp hword)
    have hp₁ : k₁.table.get k₁.table.current = some { p with memory := a₁.user } := by
      rw [hstores.table, current_put, get_put_self]
    have hle : f.a2.toNat + (p.actions.action f.a0.toNat).toRaw.toBytes.length ≤ stackTop := by
      rwa [RawAction.toBytes_length]
    rw [Attempt.ensures_bind, ensures_onCurrentMemory hp₁, hstores.memory]
    refine (writeUser_first hleads.sound hle).mono ?_
    rintro r a₂ ⟨-, ⟨count, hwritten, hcount⟩, herror⟩
    have hstores₂ : Stores k p a₂ (storeAccess k₁ k₁.table.current { p with memory := a₁.user } a₂) :=
      hstores.trans (storeAccess_stores a₂)
    have hnear : f.a2.toNat + 0 ≤ addressLimit := by
      simp only [addressLimit, pageLimit, pageSize, stackTop] at hold ⊢
      omega
    have hall := hnothing.append hwritten hnear
    cases r with
    | error e => exact exchangeEnds_of_stores hstores₂ (exchanges_error hn hall (fun h => absurd h hword) (herror e rfl))
    | ok =>
      refine installAction_ends hstores₂ hn hall (fun _ => ?_) (fun h => absurd h hword) hread
      rw [hcount rfl, RawAction.toBytes_length]

end Calls

variable {σ φ : Type} [FileSystem σ] [Firmware φ] {k : Kernel σ φ} {p : Process AddressSpace}

/-- A trap that asks for an exchange sets the caller behind the instruction, and then the exchange ends. -/
private theorem answerCall_signalAction {foreign : Surroundings} {owned held : List Nat}
    (hp : k.table.get k.table.current = some p) (h : Access.Sound ⟨p.memory, k.memory⟩ foreign owned held) {f : TrapFrame}
    (hasks : f.Asks .signalAction) (hnew : f.a1.toNat + RawAction.byteCount ≤ stackTop)
    (hold : f.a2.toNat + RawAction.byteCount ≤ stackTop) :
    (answerCall f).Ensures k (k.ExchangeEnds { p with frame := f.advanced } f) fun _ _ => wordLimit ≤ f.sepc.toNat + 4 := by
  rw [answerCall_eq hasks, Run.ensures_bind]
  refine (enterCall_spec .signalAction hp).mono ?_
  rintro ⟨⟩ k₁ ⟨-, htable, -, hmemory⟩
  have hp₁ : k₁.table.get k₁.table.current = some { p with frame := f.advanced } := by
    rw [htable, current_put, get_put_self]
  have hends := callSignalAction_ends (p := { p with frame := f.advanced }) hp₁ (by rw [hmemory]; exact h)
    (f := f.advanced) hnew hold
  refine Run.Ensures.imp hends ?_ fun _ _ => False.elim
  rintro r k' ⟨user, actions, htable', hexchanges⟩
  rw [hmemory] at hexchanges
  exact ⟨user, actions, by rw [htable', htable, current_put, put_put], hexchanges⟩

/-! ### The two signals that cannot be caught -/

end Kernel

namespace Process

variable {β : Type} {p q : Process β}

/-- Whether the signals that cannot be caught have the initial action. -/
def LeavesUncaught (p : Process β) : Prop := ∀ n, isCatchable n = false → p.actions.action n = .initial

private theorem Settled.actions (h : p.Settled q) : q.actions = p.actions := by
  cases h with
  | stays h => exact h.actions
  | enters h _ _ _ => exact h.actions
  | exits h _ _ hr => exact hr.actions.trans h.actions

private theorem LeavesUncaught.of_actions (h : p.LeavesUncaught) (hactions : q.actions = p.actions) :
    q.LeavesUncaught :=
  fun n hn => by rw [hactions, h n hn]

private theorem LeavesUncaught.works (h : p.LeavesUncaught) (hworks : p.Works q) : q.LeavesUncaught := by
  obtain ⟨_, _, _, hactions, rfl⟩ := hworks
  exact fun n hn => (hactions n hn).trans (h n hn)

private theorem Served.leavesUncaught (hserved : p.Served q) (h : p.LeavesUncaught) : q.LeavesUncaught := by
  cases hserved with
  | goesOn hworks _ _ _ => exact (h.works hworks).of_actions rfl
  | goesBack _ _ => exact h.of_actions rfl
  | waits _ => exact h.of_actions rfl
  | exits hworks => exact (h.works hworks).of_actions rfl

end Process

/-- No trap gives an action to the signals that cannot be caught. -/
private theorem ProcessTable.Traps.leavesUncaught {μ β : Type} [MemorySystem μ β] {t u : ProcessTable β} {f : TrapFrame}
    (h : t.Traps μ f u) (hforest : t.Forest μ) (hr : t.Running)
    (ht : ∀ s p, t.get s = some p → p.LeavesUncaught) : ∀ s p, u.get s = some p → p.LeavesUncaught := by
  intro s q hq
  obtain ⟨p, hp, -⟩ := id hr
  by_cases hs : s = t.current
  · subst hs
    obtain ⟨r, q', hserved, hsettled, hq'⟩ := h.self hforest hr hp
    obtain rfl := Option.some.inj (hq.symm.trans hq')
    exact (hserved.leavesUncaught ((ht _ p hp).of_actions rfl)).of_actions hsettled.actions
  -- a process that has been created has the actions of its parent
  · rcases h.origin hforest hr hs hq with ⟨p, hp, hsettled⟩ | ⟨p', pid, space, hp', -, hsettled⟩
    · exact (ht s p hp).of_actions hsettled.actions
    · exact (ht _ p' hp').of_actions hsettled.actions

namespace Kernel

open ProcessTable Access

/-! ### Reachable states -/

variable {σ φ : Type} [FileSystem σ] [Firmware φ] {entry stackPointer heapStart : UInt64} {memory : PhysicalMemory}
  {files : σ} {firmware : φ} {logLimit : Option LogLevel} {k₀ k : Kernel σ φ}

private theorem Reachable.leavesUncaught
    (hboot : boot entry stackPointer heapStart memory files firmware logLimit = .ok k₀)
    (h : Reachable k₀ k) : ∀ s p, k.table.get s = some p → p.LeavesUncaught := by
  refine h.invariant hboot (P := fun t => ∀ s p, t.get s = some p → p.LeavesUncaught) (fun space s p hp => ?_)
    fun _ _ _ hforest hr htraps ht => htraps.leavesUncaught hforest hr ht
  rw [(get_initial_eq_some hp).2]
  exact fun n hn => SignalActions.Exchanged.action_eq .initial hn

/-- A trap in which an action has been exchanged leaves the actions of the process as they are after the exchange. -/
private theorem Reachable.actions_of_trap
    (hboot : boot entry stackPointer heapStart memory files firmware logLimit = .ok k₀)
    (h : Reachable k₀ k) {f : TrapFrame} {r : Except Errno UInt64} {k' k₁ : Kernel σ φ} {q q₁ : Process AddressSpace}
    (hcause : TrapCause.ofWord f.scause = .systemCall) (hanswer : answerCall f k = .ok r k')
    (hq : k'.table.get k.table.current = some q) (hk₁ : trapWith f k = .ok () k₁)
    (hq₁ : k₁.table.get k.table.current = some q₁) : q₁.actions = q.actions := by
  obtain ⟨hforest, hr⟩ := h.table_forest hboot
  have hμ : MemorySystem.NeverIdle PhysicalMemory := PhysicalMemory.neverIdle
  rw [trapWith_eq f hr] at hk₁
  obtain ⟨_, k₂, hserve, hsignals⟩ := Run.bind_eq_ok.mp hk₁
  obtain ⟨p, hp, -, -, -, hforest₂, hr₂⟩ := serve_stages hμ hforest hr hserve
  obtain ⟨r', k₃, hanswer', -, -, htable⟩ := exists_answerCall hμ hp hforest hr hcause hserve
  obtain ⟨rfl, rfl⟩ := EStateM.Result.ok.inj (hanswer'.symm.trans hanswer)
  have hsettled := ((handleSignals_settles hμ (hforest₂.parented hr₂)).of_ok hsignals).slot hforest₂ hr₂ k.table.current
  rw [htable, modifyAt_eq_put hq, get_put_self, hq₁] at hsettled
  cases hsettled with
  | some hsettled =>
    rw [hsettled.actions, Process.withResult]
    split <;> rfl

/-- Whether signal actions are exchanged as they should be. -/
structure ExchangesActions (k : Kernel σ φ) : Prop where
  /-- A trap that asks for an exchange of actions ends so, wherever the two actions lie below the end of the stack. -/
  exchange : ∀ f p, k.table.get k.table.current = some p → f.Asks .signalAction →
    f.a1.toNat + RawAction.byteCount ≤ stackTop → f.a2.toNat + RawAction.byteCount ≤ stackTop →
    (answerCall f).Ensures k (k.ExchangeEnds { p with frame := f.advanced } f) fun _ _ => wordLimit ≤ f.sepc.toNat + 4
  /-- When some bytes have been installed, whatever they are, and the process asks for the action after that, it reads
  the same bytes with the bit of no signal and the padding cleared. -/
  readBack : ∀ f f' p k₁ k₂ q, k.table.get k.table.current = some p → f.Asks .signalAction → f'.Asks .signalAction →
    f'.a0 = f.a0 → f.a1 ≠ 0 → f'.a1 = 0 → f'.a2 ≠ 0 → f.a1.toNat + RawAction.byteCount ≤ stackTop →
    f.a2.toNat + RawAction.byteCount ≤ stackTop → f'.a2.toNat + RawAction.byteCount ≤ stackTop →
    answerCall f k = .ok (.ok 0) k₁ → trapWith f k = .ok () k₂ → k₂.table.current = k.table.current →
    k₂.table.get k₂.table.current = some q →
    (answerCall f').Ensures k₂
      (fun r k₃ => r = .ok 0 → ∃ q', k₃.table.get k₂.table.current = some q' ∧ Access.Written f'.a2.toNat
        (SignalAction.clearBytes (Access.bytesAt ⟨p.memory, k.memory⟩ f.a1.toNat RawAction.byteCount))
        ⟨q.memory, k₂.memory⟩ ⟨q'.memory, k₃.memory⟩)
      fun _ _ => wordLimit ≤ f'.sepc.toNat + 4
  /-- The signals that cannot be caught have the initial action. -/
  uncatchable : ∀ s p n, k.table.get s = some p → isCatchable n = false → p.actions.action n = .initial

/-- Whatever traps have come, signal actions are exchanged as they should be. -/
theorem Reachable.exchangesActions (hboot : boot entry stackPointer heapStart memory files firmware logLimit = .ok k₀)
    (hmemory : memory.Consistent) (h : Reachable k₀ k) : k.ExchangesActions := by
  obtain ⟨foreign, haccounts⟩ := hmemory
  have hexchange {k : Kernel σ φ} (h : Reachable k₀ k) {f : TrapFrame} {p : Process AddressSpace}
      (hp : k.table.get k.table.current = some p) (hasks : f.Asks .signalAction)
      (hnew : f.a1.toNat + RawAction.byteCount ≤ stackTop) (hold : f.a2.toNat + RawAction.byteCount ≤ stackTop) :=
    answerCall_signalAction hp ((h.sound (boot_spec haccounts hboot).1).access hp) hasks hnew hold
  refine ⟨fun f p hp hasks hnew hold => hexchange h hp hasks hnew hold, ?readBack,
    fun s p n hp hn => h.leavesUncaught hboot s p hp n hn⟩
  intro f f' p k₁ k₂ q hp hasks hasks' hsame hnew hnew' hold' hle hle' hle'' hanswer htrap hcurrent hq
  obtain ⟨user, actions, htable, hexchanges⟩ := (hexchange h hp hasks hle hle').of_ok hanswer
  have hdecodes := hexchanges.installed rfl fun hzero => hnew (UInt64.toNat_inj.mp hzero)
  have hq₁ : k₁.table.get k.table.current = some { p with frame := f.advanced, memory := user, actions } := by
    rw [htable, get_put_self]
  have hactions : q.actions = actions := h.actions_of_trap hboot hasks.1 hanswer hq₁ htrap (hcurrent ▸ hq)
  refine (hexchange (h.trap f htrap) hq hasks' (by rw [hnew']; decide) hle'').mono fun r k₃ hends hr => ?_
  obtain ⟨user', actions', htable', hexchanges'⟩ := hends
  obtain ⟨bytes, count, hbytes, hwritten, hcount, -⟩ := hexchanges'.told
  refine ⟨_, by rw [htable', get_put_self], ?_⟩
  obtain rfl := hcount hr fun hzero => hold' (UInt64.toNat_inj.mp hzero)
  have hlength := Access.length_bytesAt ⟨p.memory, k.memory⟩ f.a1.toNat RawAction.byteCount
  have hclear := hdecodes.encodes hlength
  rw [hsame, hactions, SignalAction.encodes_iff] at hbytes
  rw [SignalAction.encodes_iff, ← hbytes] at hclear
  rw [← RawAction.toBytes_length (actions.action f.a0.toNat).toRaw, ← hbytes, List.take_length] at hwritten
  rw [hclear]
  exact hwritten

/-- An action is installed whose bytes go over the end of a page, and the old one is written over some of them. The bytes
are those of a text that is on the stack. -/
theorem exchangesActions_overlap : ∃ (k₀ k k₁ : Kernel EmptyFiles Bench.BenchFirmware) (p : Process AddressSpace),
    benchStart = .ok k₀ ∧ Reachable k₀ k ∧ k.table.get k.table.current = some p ∧
      Access.bytesAt ⟨p.memory, k.memory⟩ 0x3FFFEFF6 16 = [0, 0, 0, 0, 0, 0, 0, 0, 0x61, 0x62, 0x63, 0, 0, 0, 0, 0] ∧
      answerCall (callFrame .signalAction 2 0x3FFFEFF6 0x3FFFEFF0) k = .ok (.ok 0) k₁ ∧
        k.ExchangeEnds { p with frame := (callFrame .signalAction 2 0x3FFFEFF6 0x3FFFEFF0).advanced }
          (callFrame .signalAction 2 0x3FFFEFF6 0x3FFFEFF0) (.ok 0) k₁ := by
  obtain ⟨k₀, k, hk₀, hk, htest⟩ := exists_of_benchRun (show benchRun textFrames (fun k =>
    (k.table.get k.table.current).any (fun p => Access.bytesAt ⟨p.memory, k.memory⟩ 0x3FFFEFF6 16 =
      [0, 0, 0, 0, 0, 0, 0, 0, 0x61, 0x62, 0x63, 0, 0, 0, 0, 0]) &&
    answers (callFrame .signalAction 2 0x3FFFEFF6 0x3FFFEFF0) 0 k) = true by decide +kernel)
  rw [Bool.and_eq_true] at htest
  obtain ⟨hbytes, hanswer⟩ := htest
  obtain ⟨p, hp, hbytes⟩ := (Option.any_eq_true _ _).mp hbytes
  unfold answers at hanswer
  split at hanswer
  next w k₁ hk₁ =>
    obtain rfl := of_decide_eq_true hanswer
    have hends := (Reachable.exchangesActions hk₀ consistent_benchMemory hk).exchange
      (callFrame .signalAction 2 0x3FFFEFF6 0x3FFFEFF0) p hp ⟨by decide +kernel, by decide +kernel⟩ (by decide +kernel)
      (by decide +kernel)
    exact ⟨k₀, k, k₁, p, hk₀, hk, hp, of_decide_eq_true hbytes, hk₁, hends.of_ok hk₁⟩
  · exact absurd hanswer (by simp)

end Kernel

end TrapKernel
