import TrapKernel.Proofs.Run
import Mathlib.Order.Defs.Unbundled

/-!
# What computations leave alone

`Run.Respects` says of a computation that the state in which it ends is related to the one in which it starts, whether
it ends with a value, fails or stops the kernel. If the relation is a preorder, a computation that is made of others
respects it when they do, so what a long computation leaves alone is shown step by step and without its results.
-/

namespace TrapKernel

variable {σ τ α γ : Type} {R : σ → σ → Prop}

/-- Whether a computation leads from every state to one that is related to it, even if it stops. -/
structure Run.Respects (R : σ → σ → Prop) (op : Run σ α) : Prop where
  ensures : ∀ s, op.Ensures s (fun _ t => R s t) fun _ t => R s t

/-- `Run.Respects` for a computation that may fail. -/
structure Attempt.Respects (R : σ → σ → Prop) (op : Attempt σ α) : Prop where
  ensures : ∀ s, op.Ensures s (fun _ t => R s t) fun _ t => R s t

namespace Run

theorem Respects.modify {f : σ → σ} (h : ∀ s, R s (f s)) : (modify f : Run σ PUnit).Respects R := ⟨h⟩

theorem Respects.within {view : σ → τ} {store : σ → τ → σ} {S : τ → τ → Prop} {op : Run τ α} (h : op.Respects S)
    (hstore : ∀ s t, S (view s) t → R s (store s t)) : (Run.within view store op).Respects R :=
  ⟨fun s => ensures_within.mpr ((h.ensures (view s)).imp (fun _ t => hstore s t) fun _ t => hstore s t)⟩

variable [IsPreorder σ R]

theorem respects_pure (a : α) : (pure a : Run σ α).Respects R := ⟨refl_of R⟩

theorem respects_get : (get : Run σ σ).Respects R := ⟨refl_of R⟩

theorem respects_crash (p : Panic) : (crash p : Run σ α).Respects R := ⟨refl_of R⟩

theorem respects_addWords (a b : Nat) : (addWords a b : Run σ Nat).Respects R := by
  unfold addWords
  split
  · exact respects_pure _
  · exact respects_crash _

theorem respects_subWords (a b : Nat) : (subWords a b : Run σ Nat).Respects R := by
  unfold subWords
  split
  · exact respects_pure _
  · exact respects_crash _

theorem respects_mulWords (a b : Nat) : (mulWords a b : Run σ Nat).Respects R := by
  unfold mulWords
  split
  · exact respects_pure _
  · exact respects_crash _

theorem Respects.bind {x : Run σ γ} {f : γ → Run σ α} (hx : x.Respects R) (hf : ∀ c, (f c).Respects R) :
    (x >>= f).Respects R :=
  ⟨fun s => ensures_bind.mpr ((hx.ensures s).mono fun c t hst =>
    ((hf c).ensures t).imp (fun _ _ => trans_of R hst) fun _ _ => trans_of R hst)⟩

end Run

namespace Attempt

theorem Respects.run {op : Attempt σ α} (h : op.Respects R) : op.run.Respects R := ⟨h.ensures⟩

theorem Respects.ofRun {op : Run σ α} (h : op.Respects R) : (ofRun op).Respects R :=
  ⟨fun s => ensures_ofRun.mpr (h.ensures s)⟩

variable [IsPreorder σ R]

theorem respects_pure (a : α) : (pure a : Attempt σ α).Respects R := ⟨refl_of R⟩

theorem respects_throw (e : Errno) : (throw e : Attempt σ α).Respects R := ⟨refl_of R⟩

theorem respects_get : (get : Attempt σ σ).Respects R := ⟨refl_of R⟩

theorem respects_ofExcept (x : Except Errno α) : (ofExcept x : Attempt σ α).Respects R := by
  cases x with
  | ok a => exact respects_pure a
  | error e => exact respects_throw e

theorem Respects.bind {x : Attempt σ γ} {f : γ → Attempt σ α} (hx : x.Respects R) (hf : ∀ c, (f c).Respects R) :
    (x >>= f).Respects R := by
  refine ⟨fun s => ensures_bind.mpr (Run.Ensures.mono (hx.ensures s) fun r t hst => ?_)⟩
  cases r with
  | ok c => exact Run.Ensures.imp ((hf c).ensures t) (fun _ _ => trans_of R hst) fun _ _ => trans_of R hst
  | error e => exact hst

end Attempt

end TrapKernel
