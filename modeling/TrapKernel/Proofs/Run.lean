import TrapKernel.Run

/-!
# Reasoning about computations that may stop

`Run.Ensures` says what holds when a computation ends from a given state. There is one rule for each way to build a
computation, and all of them are equivalences, so `simp only` with the rules executes a computation step by step.
`Attempt.Ensures` is the same for computations that may fail.

`Run.Yields` says of the values of a computation only what holds of them from whatever state it is run. Its rules skip the
steps that have no part in the value.
-/

namespace TrapKernel

variable {σ τ α γ : Type}

/-- From the state `s` the computation either ends with a value and a state as in `Q`, or stops with a cause and a
state as in `E`. -/
def Run.Ensures (op : Run σ α) (s : σ) (Q : α → σ → Prop) (E : Panic → σ → Prop) : Prop :=
  match op s with
  | .ok a t => Q a t
  | .error p t => E p t

/-- `Run.Ensures` for a computation that may fail. -/
def Attempt.Ensures (op : Attempt σ α) (s : σ) (Q : Except Errno α → σ → Prop) (E : Panic → σ → Prop) : Prop :=
  Run.Ensures op.run s Q E

namespace Run

variable {s : σ} {Q : α → σ → Prop} {E : Panic → σ → Prop}

theorem Ensures.imp {op : Run σ α} {Q' : α → σ → Prop} {E' : Panic → σ → Prop} (h : op.Ensures s Q E)
    (hQ : ∀ a t, Q a t → Q' a t) (hE : ∀ p t, E p t → E' p t) : op.Ensures s Q' E' := by
  unfold Ensures at h ⊢
  split at h
  · exact hQ _ _ h
  · exact hE _ _ h

theorem Ensures.mono {op : Run σ α} {Q' : α → σ → Prop} (h : op.Ensures s Q E) (hQ : ∀ a t, Q a t → Q' a t) :
    op.Ensures s Q' E :=
  h.imp hQ fun _ _ h => h

theorem Ensures.of_ok {op : Run σ α} {a : α} {t : σ} (h : op.Ensures s Q E) (hop : op s = .ok a t) : Q a t := by
  unfold Ensures at h
  rwa [hop] at h

theorem Ensures.of_error {op : Run σ α} {p : Panic} {t : σ} (h : op.Ensures s Q E) (hop : op s = .error p t) :
    E p t := by
  unfold Ensures at h
  rwa [hop] at h

/-- A computation that ensures one outcome has it. -/
theorem Ensures.eq_ok {op : Run σ α} {a : α} {t : σ}
    (h : op.Ensures s (fun a' t' => a' = a ∧ t' = t) fun _ _ => False) : op s = .ok a t := by
  unfold Ensures at h
  split at h
  next hop => rw [hop, h.1, h.2]
  · exact h.elim

theorem ensures_of_eq_ok {op : Run σ α} {a : α} {t : σ} (hop : op s = .ok a t) (hQ : Q a t) : op.Ensures s Q E := by
  unfold Ensures
  rw [hop]
  exact hQ

theorem ensures_iff {op : Run σ α} :
    op.Ensures s Q E ↔ (∀ a t, op s = .ok a t → Q a t) ∧ ∀ p t, op s = .error p t → E p t := by
  refine ⟨fun h => ⟨fun _ _ => h.of_ok, fun _ _ => h.of_error⟩, fun ⟨hok, herror⟩ => ?_⟩
  unfold Ensures
  split
  · exact hok _ _ (by assumption)
  · exact herror _ _ (by assumption)

/-- Two computations with the same outcome. -/
theorem eq_of_ensures {op op' : Run σ α}
    (h : op.Ensures s (fun a t => op' s = .ok a t) fun p t => op' s = .error p t) : op s = op' s := by
  unfold Ensures at h
  split at h
  next hop => rw [hop, h]
  next hop => rw [hop, h]

/-- What two statements say of the outcome of a computation. -/
theorem Ensures.and {op : Run σ α} {Q' : α → σ → Prop} {E' : Panic → σ → Prop} (h : op.Ensures s Q E)
    (h' : op.Ensures s Q' E') : op.Ensures s (fun a t => Q a t ∧ Q' a t) fun p t => E p t ∧ E' p t :=
  ensures_iff.mpr ⟨fun _ _ hop => ⟨h.of_ok hop, h'.of_ok hop⟩, fun _ _ hop => ⟨h.of_error hop, h'.of_error hop⟩⟩

theorem ensures_pure {a : α} : (pure a : Run σ α).Ensures s Q E ↔ Q a s := Iff.rfl

theorem ensures_bind {x : Run σ γ} {f : γ → Run σ α} :
    (x >>= f).Ensures s Q E ↔ x.Ensures s (fun c t => (f c).Ensures t Q E) E := by
  unfold Ensures
  show (match EStateM.bind x f s with | .ok a t => Q a t | .error p t => E p t) ↔ _
  unfold EStateM.bind
  cases x s <;> rfl

theorem bind_eq_ok {x : Run σ γ} {f : γ → Run σ α} {a : α} {t : σ} :
    (x >>= f) s = .ok a t ↔ ∃ c s', x s = .ok c s' ∧ f c s' = .ok a t := by
  show EStateM.bind x f s = .ok a t ↔ _
  unfold EStateM.bind
  cases x s <;> simp [and_assoc]

theorem bind_of_ok {x : Run σ γ} {c : γ} {t : σ} (h : x s = .ok c t) (f : γ → Run σ α) : (x >>= f) s = f c t := by
  show EStateM.bind x f s = _
  unfold EStateM.bind
  rw [h]

theorem bind_of_error {x : Run σ γ} {p : Panic} {t : σ} (h : x s = .error p t) (f : γ → Run σ α) :
    (x >>= f) s = .error p t := by
  show EStateM.bind x f s = _
  unfold EStateM.bind
  rw [h]

theorem ensures_get {Q : σ → σ → Prop} : (get : Run σ σ).Ensures s Q E ↔ Q s s := Iff.rfl

theorem ensures_set {Q : PUnit → σ → Prop} {t : σ} : (set t : Run σ PUnit).Ensures s Q E ↔ Q ⟨⟩ t := Iff.rfl

theorem ensures_modify {Q : PUnit → σ → Prop} {f : σ → σ} :
    (modify f : Run σ PUnit).Ensures s Q E ↔ Q ⟨⟩ (f s) := Iff.rfl

theorem ensures_crash {p : Panic} : (crash p : Run σ α).Ensures s Q E ↔ E p s := Iff.rfl

theorem ensures_within {view : σ → τ} {store : σ → τ → σ} {op : Run τ α} :
    (within view store op).Ensures s Q E ↔
      op.Ensures (view s) (fun a t => Q a (store s t)) fun p t => E p (store s t) := by
  unfold Ensures within
  cases op (view s) <;> rfl

theorem ensures_addWords {a b : Nat} {Q : Nat → σ → Prop} :
    (addWords a b : Run σ Nat).Ensures s Q E ↔ if a + b < wordLimit then Q (a + b) s else E .addOverflow s := by
  unfold addWords
  split <;> rfl

theorem ensures_subWords {a b : Nat} {Q : Nat → σ → Prop} :
    (subWords a b : Run σ Nat).Ensures s Q E ↔ if b ≤ a then Q (a - b) s else E .subOverflow s := by
  unfold subWords
  split <;> rfl

theorem ensures_mulWords {a b : Nat} {Q : Nat → σ → Prop} :
    (mulWords a b : Run σ Nat).Ensures s Q E ↔ if a * b < wordLimit then Q (a * b) s else E .mulOverflow s := by
  unfold mulWords
  split <;> rfl

end Run

namespace Attempt

variable {s : σ} {Q : Except Errno α → σ → Prop} {E : Panic → σ → Prop}

theorem ensures_run {op : Attempt σ α} : op.run.Ensures s Q E ↔ op.Ensures s Q E := Iff.rfl

theorem Ensures.mono {op : Attempt σ α} {Q' : Except Errno α → σ → Prop} (h : op.Ensures s Q E)
    (hQ : ∀ r t, Q r t → Q' r t) : op.Ensures s Q' E :=
  Run.Ensures.mono h hQ

theorem ensures_pure {a : α} : (pure a : Attempt σ α).Ensures s Q E ↔ Q (.ok a) s := Iff.rfl

theorem ensures_throw {e : Errno} : (throw e : Attempt σ α).Ensures s Q E ↔ Q (.error e) s := Iff.rfl

theorem ensures_bind {x : Attempt σ γ} {f : γ → Attempt σ α} :
    (x >>= f).Ensures s Q E ↔
      x.Ensures s (fun r t => match r with | .ok c => (f c).Ensures t Q E | .error e => Q (.error e) t) E := by
  show (ExceptT.bind x f).run.Ensures s Q E ↔ _
  unfold ExceptT.bind
  show (x.run >>= ExceptT.bindCont f).Ensures s Q E ↔ _
  rw [Run.ensures_bind]
  have h : ∀ r t, (ExceptT.bindCont f r : Run σ _).Ensures t Q E ↔
      match r with | .ok c => (f c).Ensures t Q E | .error e => Q (.error e) t := by
    intro r t
    cases r <;> rfl
  simp only [h]
  rfl

theorem run_bind_eq_ok {x : Attempt σ γ} {f : γ → Attempt σ α} {r : Except Errno α} {t : σ} :
    (x >>= f).run s = .ok r t ↔
      (∃ c s', x.run s = .ok (.ok c) s' ∧ (f c).run s' = .ok r t) ∨ ∃ e, x.run s = .ok (.error e) t ∧ r = .error e := by
  show (x.run >>= ExceptT.bindCont f) s = .ok r t ↔ _
  rw [Run.bind_eq_ok]
  constructor
  · rintro ⟨c | c, s', hx, hf⟩
    · cases hf
      exact .inr ⟨c, hx, rfl⟩
    · exact .inl ⟨c, s', hx, hf⟩
  · rintro (⟨c, s', hx, hf⟩ | ⟨e, hx, rfl⟩)
    · exact ⟨.ok c, s', hx, hf⟩
    · exact ⟨.error e, t, hx, rfl⟩

/-- Two computations whose first steps agree do so if they agree after them. -/
theorem run_bind_congr {x y : Attempt σ γ} {f g : γ → Attempt σ α} (hx : x.run s = y.run s)
    (h : ∀ c t, x.run s = .ok (.ok c) t → (f c).run t = (g c).run t) : (x >>= f).run s = (y >>= g).run s := by
  show EStateM.bind x.run (ExceptT.bindCont f) s = EStateM.bind y.run (ExceptT.bindCont g) s
  unfold EStateM.bind
  rw [← hx]
  cases hrun : x.run s with
  | error p t => rfl
  | ok r t =>
    cases r with
    | error e => rfl
    | ok c => exact h c t hrun

theorem ensures_get {Q : Except Errno σ → σ → Prop} : (get : Attempt σ σ).Ensures s Q E ↔ Q (.ok s) s := Iff.rfl

theorem ensures_modify {Q : Except Errno PUnit → σ → Prop} {f : σ → σ} :
    (modify f : Attempt σ PUnit).Ensures s Q E ↔ Q (.ok ⟨⟩) (f s) := Iff.rfl

theorem run_get_bind (f : σ → Attempt σ α) (s : σ) : (get >>= f).run s = (f s).run s := rfl

theorem run_ofRun_bind (x : Run σ γ) (f : γ → Attempt σ α) : (ofRun x >>= f).run = x >>= fun c => (f c).run := by
  simp [ofRun, ExceptT.run_bind, ExceptT.run_lift]

theorem ensures_ofRun {op : Run σ α} :
    (ofRun op).Ensures s Q E ↔ op.Ensures s (fun a t => Q (.ok a) t) E := by
  show (op >>= fun a => pure (Except.ok a)).Ensures s Q E ↔ _
  rw [Run.ensures_bind]
  rfl

theorem ensures_liftM {op : Run σ α} :
    Attempt.Ensures (liftM op : Attempt σ α) s Q E ↔ op.Ensures s (fun a t => Q (.ok a) t) E :=
  ensures_ofRun

theorem ensures_ofExcept {x : Except Errno α} : (ofExcept x).Ensures s Q E ↔ Q x s := by
  cases x <;> rfl

theorem ensures_within {view : σ → τ} {store : σ → τ → σ} {op : Attempt τ α} :
    (within view store op).Ensures s Q E ↔
      op.Ensures (view s) (fun r t => Q r (store s t)) fun p t => E p (store s t) :=
  Run.ensures_within

end Attempt

/-! ### Values -/

/-- Whether every value that a computation ends with is as in `Q`, from whatever state it is run. -/
structure Run.Yields (Q : α → Prop) (op : Run σ α) : Prop where
  of_ok : ∀ {s a t}, op s = .ok a t → Q a

/-- `Run.Yields` for a computation that may fail. -/
structure Attempt.Yields (Q : α → Prop) (op : Attempt σ α) : Prop where
  of_ok : ∀ {s a t}, op.run s = .ok (.ok a) t → Q a

namespace Run

variable {P : γ → Prop} {Q : α → Prop}

theorem yields_pure {a : α} (h : Q a) : (pure a : Run σ α).Yields Q := ⟨fun hop => by cases hop; exact h⟩

theorem yields_crash (p : Panic) : (crash p : Run σ α).Yields Q := ⟨fun hop => nomatch hop⟩

theorem Yields.bind {x : Run σ γ} {f : γ → Run σ α} (hx : x.Yields P) (hf : ∀ c, P c → (f c).Yields Q) :
    (x >>= f).Yields Q :=
  ⟨fun hop => let ⟨c, _, hc, hfc⟩ := bind_eq_ok.mp hop; (hf c (hx.of_ok hc)).of_ok hfc⟩

theorem Yields.ensures {op : Run σ α} {s : σ} {R : α → σ → Prop} {E : Panic → σ → Prop} (h : op.Yields Q)
    (hop : op.Ensures s R E) : op.Ensures s (fun a t => Q a ∧ R a t) E :=
  ensures_iff.mpr ⟨fun _ _ hok => ⟨h.of_ok hok, hop.of_ok hok⟩, fun _ _ => hop.of_error⟩

theorem yields_bind {x : Run σ γ} {f : γ → Run σ α} (hf : ∀ c, (f c).Yields Q) : (x >>= f).Yields Q :=
  Yields.bind (P := fun _ => True) ⟨fun _ => trivial⟩ fun c _ => hf c

end Run

namespace Attempt

variable {P : γ → Prop} {Q : α → Prop}

theorem yields_pure {a : α} (h : Q a) : (pure a : Attempt σ α).Yields Q := ⟨fun hop => by cases hop; exact h⟩

theorem yields_throw (e : Errno) : (throw e : Attempt σ α).Yields Q := ⟨fun hop => nomatch hop⟩

theorem yields_bind {x : Attempt σ γ} {f : γ → Attempt σ α} (hf : ∀ c, (f c).Yields Q) : (x >>= f).Yields Q := by
  refine ⟨fun hop => ?_⟩
  rcases run_bind_eq_ok.mp hop with ⟨c, _, -, hfc⟩ | ⟨_, -, he⟩
  · exact (hf c).of_ok hfc
  · exact nomatch he

end Attempt

end TrapKernel
