import TrapKernel.Proofs.Respects
import Mathlib.Data.List.Chain

/-!
# Recordings of a computation

A recording of a computation lists the states in which it called another one. Whatever it did besides must respect a
relation, so that nothing happens between two calls that the relation does not allow. A computation that is made of
others is recorded by putting the recordings of its parts together, and a recording ends where the computation stops.

* `Run.Records`: what a recording is.
* `Run.Recordable.bind`, `Attempt.Recordable.bind`: there is one, if there are some of the parts.
* `Run.Recordable.respects`: what is recorded respects the relation, if the calls do.
* `Run.Records.isChain`: the state after a call and the state at the next call are related.
-/

namespace TrapKernel

variable {σ α γ : Type} {R : σ → σ → Prop} {call : Run σ Unit}

namespace Run

/-- The state in which a computation ends, with a value or because it stops. -/
def final (op : Run σ α) (s : σ) : σ :=
  match op s with
  | .ok _ t => t
  | .error _ t => t

theorem final_of_ok {op : Run σ α} {s t : σ} {a : α} (h : op s = .ok a t) : op.final s = t := by
  unfold final
  rw [h]

private theorem final_of_error {op : Run σ α} {s t : σ} {p : Panic} (h : op s = .error p t) : op.final s = t := by
  unfold final
  rw [h]

private theorem Respects.final {op : Run σ α} (h : op.Respects R) (s : σ) : R s (op.final s) := by
  cases hop : op s with
  | ok a t => exact final_of_ok hop ▸ (h.ensures s).of_ok hop
  | error p t => exact final_of_error hop ▸ (h.ensures s).of_error hop

/-- The states in which a computation that is run from a state has called `call`, in their order. All its other parts
respect `R`. -/
inductive Records (R : σ → σ → Prop) (call : Run σ Unit) : {α : Type} → Run σ α → σ → List σ → Prop
  | part {α : Type} {op : Run σ α} (h : op.Respects R) (s : σ) : Records R call op s []
  | call (s : σ) : Records R call call s [s]
  | bind {α γ : Type} {x : Run σ γ} {f : γ → Run σ α} {s t : σ} {c : γ} {calls calls' : List σ}
      (hx : Records R call x s calls) (hok : x s = .ok c t) (hf : Records R call (f c) t calls') :
      Records R call (x >>= f) s (calls ++ calls')
  | stop {α γ : Type} {x : Run σ γ} {s t : σ} {p : Panic} {calls : List σ} (hx : Records R call x s calls)
      (herror : x s = .error p t) (f : γ → Run σ α) : Records R call (x >>= f) s calls

/-- Whether some calls lead from a state to another, where nothing that `R` does not allow happens around them. -/
def Linked (R : σ → σ → Prop) (call : Run σ Unit) : σ → List σ → σ → Prop
  | s, [], t => R s t
  | s, k :: calls, t => R s k ∧ Linked R call (call.final k) calls t

private theorem Linked.isChain {s t : σ} {calls : List σ} (h : Linked R call s calls t) :
    calls.IsChain fun a b => R (call.final a) b := by
  induction calls generalizing s with
  | nil => exact .nil
  | cons a calls ih =>
    cases calls with
    | nil => exact .singleton a
    | cons b calls => exact .cons_cons h.2.1 (ih h.2)

private theorem final_bind_of_ok {x : Run σ γ} {f : γ → Run σ α} {s t : σ} {c : γ} (h : x s = .ok c t) :
    (x >>= f).final s = (f c).final t := by
  unfold final
  rw [bind_of_ok h]

private theorem final_bind_of_error {x : Run σ γ} {s t : σ} {p : Panic} (h : x s = .error p t) (f : γ → Run σ α) :
    (x >>= f).final s = t := by
  unfold final
  rw [bind_of_error h]

/-- A part that respects the relation adds nothing to a recording. -/
theorem Respects.records_bind {x : Run σ γ} {f : γ → Run σ α} {s t : σ} {c : γ} {calls : List σ} (hx : x.Respects R)
    (hok : x s = .ok c t) (hf : Records R call (f c) t calls) : Records R call (x >>= f) s calls :=
  (Records.part hx s).bind hok hf

/-- Whether a computation has a recording from every state. -/
structure Recordable (R : σ → σ → Prop) (call : Run σ Unit) (op : Run σ α) : Prop where
  exists_records : ∀ s, ∃ calls, Records R call op s calls

theorem Respects.recordable {op : Run σ α} (h : op.Respects R) : Recordable R call op := ⟨fun s => ⟨[], .part h s⟩⟩

theorem recordable_call : Recordable R call call := ⟨fun s => ⟨[s], .call s⟩⟩

theorem Recordable.bind {x : Run σ γ} {f : γ → Run σ α} (hx : Recordable R call x)
    (hf : ∀ c, Recordable R call (f c)) : Recordable R call (x >>= f) := by
  refine ⟨fun s => ?_⟩
  obtain ⟨calls, hcalls⟩ := hx.exists_records s
  cases hxs : x s with
  | ok c t =>
    obtain ⟨calls', hcalls'⟩ := (hf c).exists_records t
    exact ⟨calls ++ calls', hcalls.bind hxs hcalls'⟩
  | error p t => exact ⟨calls, hcalls.stop hxs f⟩

variable [IsPreorder σ R]

private theorem Linked.of_rel {s t u : σ} {calls : List σ} (hst : R s t) (h : Linked R call t calls u) :
    Linked R call s calls u := by
  cases calls with
  | nil => exact trans_of R hst h
  | cons k calls => exact ⟨trans_of R hst h.1, h.2⟩

private theorem Linked.append {s t u : σ} {calls calls' : List σ} (h : Linked R call s calls t)
    (h' : Linked R call t calls' u) : Linked R call s (calls ++ calls') u := by
  induction calls generalizing s with
  | nil => exact h'.of_rel h
  | cons k calls ih => exact ⟨h.1, ih h.2⟩

/-- The calls of a recording lead from the state in which the computation starts to the one in which it ends. -/
private theorem Records.linked {α : Type} {op : Run σ α} {s : σ} {calls : List σ} (h : Records R call op s calls) :
    Linked R call s calls (op.final s) := by
  induction h with
  | part h s => exact h.final s
  | call s => exact ⟨refl_of R s, refl_of R _⟩
  | bind _ hok _ ihx ihf =>
    rw [final_bind_of_ok hok]
    rw [final_of_ok hok] at ihx
    exact ihx.append ihf
  | stop _ herror f ih =>
    rw [final_bind_of_error herror f]
    rwa [final_of_error herror] at ih

/-- Between two calls of a recording nothing happens that the relation does not allow. -/
theorem Records.isChain {α : Type} {op : Run σ α} {s : σ} {calls : List σ} (h : Records R call op s calls) :
    calls.IsChain fun a b => R (call.final a) b :=
  h.linked.isChain

private theorem Linked.rel (hcall : call.Respects R) {s t : σ} {calls : List σ} (h : Linked R call s calls t) :
    R s t := by
  induction calls generalizing s with
  | nil => exact h
  | cons k calls ih => exact trans_of R h.1 (trans_of R (hcall.final k) (ih h.2))

/-- What can be recorded respects the relation, if the calls that are recorded do so too. -/
theorem Recordable.respects {op : Run σ α} (h : Recordable R call op) (hcall : call.Respects R) : op.Respects R := by
  refine ⟨fun s => ?_⟩
  obtain ⟨calls, hcalls⟩ := h.exists_records s
  have hrel := hcalls.linked.rel hcall
  exact ensures_iff.mpr ⟨fun a t hok => final_of_ok hok ▸ hrel, fun e t herror => final_of_error herror ▸ hrel⟩

end Run

namespace Attempt

/-- `Run.Recordable` for a computation that may fail. -/
structure Recordable (R : σ → σ → Prop) (call : Run σ Unit) (op : Attempt σ α) : Prop where
  run : Run.Recordable R call op.run

theorem Respects.recordable {op : Attempt σ α} (h : op.Respects R) : Recordable R call op := ⟨h.run.recordable⟩

variable [IsPreorder σ R]

theorem Recordable.ofRun {op : Run σ α} (h : Run.Recordable R call op) : Recordable R call (ofRun op) :=
  ⟨h.bind fun _ => (Run.respects_pure _).recordable⟩

theorem Recordable.bind {x : Attempt σ γ} {f : γ → Attempt σ α} (hx : Recordable R call x)
    (hf : ∀ c, Recordable R call (f c)) : Recordable R call (x >>= f) := by
  refine ⟨hx.run.bind fun r => ?_⟩
  cases r with
  | ok c => exact (hf c).run
  | error e => exact (Run.respects_pure _).recordable

end Attempt

end TrapKernel
