import TrapKernel.Memory.Paged
import TrapKernel.Proofs.Run

/-!
# How accesses to user memory fail

An access to user memory fails for one of two reasons: no page may come into being at the address, or there is no frame
for the page that should. `Attempt.FailsAs` says of a computation that it fails with errors of some kind only.

* `Access.writeUser_failsAs`: so it is with the copies to user memory.
-/

namespace TrapKernel

variable {σ τ α γ : Type} {kind : Errno → Prop}

/-- Whether a computation fails with errors of some kind only. -/
structure Attempt.FailsAs (kind : Errno → Prop) (op : Attempt σ α) : Prop where
  ensures : ∀ s, op.Ensures s (fun r _ => ∀ e, r = .error e → kind e) fun _ _ => True

namespace Attempt

theorem failsAs_pure (a : α) : (pure a : Attempt σ α).FailsAs kind := ⟨fun _ e he => absurd he (by simp)⟩

private theorem failsAs_get : (get : Attempt σ σ).FailsAs kind := ⟨fun _ e he => absurd he (by simp)⟩

private theorem failsAs_modify (f : σ → σ) : (modify f : Attempt σ PUnit).FailsAs kind :=
  ⟨fun _ e he => absurd he (by simp)⟩

private theorem failsAs_throw {e : Errno} (h : kind e) : (throw e : Attempt σ α).FailsAs kind :=
  ⟨fun _ _ he => Except.error.inj he ▸ h⟩

theorem failsAs_ofRun (op : Run σ α) : (ofRun op).FailsAs kind :=
  ⟨fun s => ensures_ofRun.mpr (Run.ensures_iff.mpr ⟨fun _ _ _ e he => absurd he (by simp), fun _ _ _ => trivial⟩)⟩

theorem FailsAs.bind {x : Attempt σ γ} {f : γ → Attempt σ α} (hx : x.FailsAs kind) (hf : ∀ c, (f c).FailsAs kind) :
    (x >>= f).FailsAs kind := by
  refine ⟨fun s => ensures_bind.mpr ((hx.ensures s).mono fun r t hr => ?_)⟩
  cases r with
  | ok c => exact (hf c).ensures t
  | error e => exact fun e' he => Except.error.inj he ▸ hr e rfl

private theorem FailsAs.within {view : σ → τ} {store : σ → τ → σ} {op : Attempt τ α} (h : op.FailsAs kind) :
    (within view store op).FailsAs kind :=
  ⟨fun s => ensures_within.mpr (h.ensures (view s))⟩

end Attempt

/-- The errors with which an access to user memory fails. -/
def Errno.OfAccess (e : Errno) : Prop := e = .badAddress ∨ e = .noMemory

open Attempt

private theorem AddressSpace.resolveCow_failsAs (s : AddressSpace) (page : Nat) :
    (s.resolveCow page).FailsAs Errno.OfAccess := by
  refine failsAs_get.bind fun m => ?_
  split
  · exact failsAs_pure _
  · dsimp only
    split
    · exact failsAs_pure _
    · split
      · exact failsAs_ofRun (crash _)
      · split
        · exact (failsAs_ofRun _).bind fun _ => failsAs_pure _
        · refine (failsAs_ofRun _).bind fun copy => ?_
          split
          · exact failsAs_throw (.inr rfl)
          · exact (failsAs_modify _).bind fun _ => (failsAs_ofRun _).bind fun _ => (failsAs_ofRun _).bind fun _ =>
              (failsAs_ofRun _).bind fun _ => failsAs_pure _

namespace Access

private theorem resolveCow_failsAs (page : Nat) : (resolveCow page).FailsAs Errno.OfAccess := by
  refine failsAs_get.bind fun a => (AddressSpace.resolveCow_failsAs _ _).within.bind fun space => ?_
  split
  · exact failsAs_pure _
  · exact (failsAs_modify _).bind fun _ => failsAs_pure _

private theorem handleFault_failsAs (address : Nat) (write : Bool) :
    (handleFault address write).FailsAs Errno.OfAccess := by
  refine failsAs_get.bind fun a => ?_
  split
  · split
    · refine (resolveCow_failsAs _).bind fun resolved => ?_
      cases resolved with
      | true => exact failsAs_pure _
      | false => exact failsAs_throw (.inl rfl)
    · exact failsAs_pure _
  · split
    · refine (failsAs_ofRun _).bind fun mapped => ?_
      cases mapped with
      | true => exact failsAs_pure _
      | false => exact failsAs_throw (.inr rfl)
    · exact failsAs_throw (.inl rfl)

private theorem frameAfterFault_failsAs (address : Nat) (write : Bool) :
    (frameAfterFault address write).FailsAs Errno.OfAccess := by
  refine (handleFault_failsAs _ _).bind fun _ => failsAs_get.bind fun a => ?_
  split
  · exact failsAs_pure _
  · exact failsAs_throw (.inl rfl)

private theorem frameOf_failsAs (address : Nat) (write : Bool) : (frameOf address write).FailsAs Errno.OfAccess := by
  refine failsAs_get.bind fun a => ?_
  split
  · split
    · exact failsAs_pure _
    · exact frameAfterFault_failsAs _ _
  · exact frameAfterFault_failsAs _ _

private theorem writeSpans_failsAs (l : List (Span × List UInt8)) :
    (writeSpans l : Attempt Access Unit).FailsAs Errno.OfAccess := by
  induction l with
  | nil => exact failsAs_pure _
  | cons x rest ih =>
    exact (frameOf_failsAs _ _).bind fun p => (failsAs_ofRun _).bind fun _ => (failsAs_modify _).bind fun _ => ih

/-- Bytes cannot be copied to user memory only for want of a good address or of a frame. -/
theorem writeUser_failsAs (address : Nat) (bytes : List UInt8) :
    (writeUser address bytes : Attempt Access Unit).FailsAs Errno.OfAccess := by
  unfold writeUser
  split
  · exact writeSpans_failsAs _
  · exact failsAs_throw (.inl rfl)

end Access

end TrapKernel
