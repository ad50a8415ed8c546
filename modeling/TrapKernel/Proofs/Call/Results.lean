import TrapKernel.Call.Invoke
import TrapKernel.Proofs.Run

/-!
# What user code learns from a result

A call leaves a signed word behind. User code takes it for a success if it is not negative, and otherwise for a failure whose
error code is the opposite of the word. Every word but the least one has an opposite. The least one stops whoever asks for
it, be it the function that makes the call or the one that reads the error back.

* `Outcome.Reports`: what user code should learn.
* `invoke_decodes`: what it learns, and which results are read back as which errors.
-/

namespace TrapKernel

variable {r : Int64}

private theorem toInt_neg_of_ne_minValue (h : r ≠ Int64.minValue) : (-r).toInt = -r.toInt := by
  have hge := r.le_toInt
  have hlt := r.toInt_lt
  have hne : r.toInt ≠ -2 ^ 63 := fun heq => h (Int64.toInt_inj.mp (heq.trans Int64.toInt_minValue.symm))
  rw [Int64.toInt_neg, Int.bmod_eq_of_le] <;> omega

/-! ### Errors that are read back -/

namespace Errno

variable {e : Errno}

private theorem code_bounds (e : Errno) : 0 < e.code ∧ e.code < 64 := by cases e <;> decide

private theorem toInt_result (e : Errno) : e.result.toInt = -(e.code : Int) := by
  obtain ⟨hpos, hlt⟩ := e.code_bounds
  exact Int64.toInt_ofInt_of_le (by omega) (by omega)

private theorem toInt_result_neg (e : Errno) : e.result.toInt < 0 := by
  have hpos := e.code_bounds.1
  rw [toInt_result]
  omega

private theorem result_ne_minValue (e : Errno) : e.result ≠ Int64.minValue := by
  intro heq
  have hlt := e.code_bounds.2
  have hint := e.toInt_result
  rw [heq, Int64.toInt_minValue] at hint
  omega

private theorem result_injective {f : Errno} (h : e.result = f.result) : e = f := by
  have hint := e.toInt_result
  rw [h, toInt_result] at hint
  exact code_injective (by omega)

/-- The least result is read as nothing at all. -/
private theorem ofResult_minValue : ofResult Int64.minValue = .error .negOverflow := rfl

/-- Every other result is read as the error that it tells of, if it tells of any. -/
private theorem ofResult_spec (h : r ≠ Int64.minValue) :
    ∃ found, ofResult r = .ok found ∧ ∀ e, found = some e ↔ r = e.result := by
  unfold ofResult
  by_cases hneg : 0 ≤ r.toInt
  · rw [if_pos hneg]
    refine ⟨none, rfl, fun e => ⟨fun hnone => absurd hnone (by simp), ?_⟩⟩
    rintro rfl
    exact absurd e.toInt_result_neg (by omega)
  · rw [if_neg hneg, if_neg h]
    refine ⟨_, rfl, fun e => ?_⟩
    rw [ofCode?_eq_some_iff, ← Int64.toInt_inj, toInt_result]
    omega

private theorem ofResult_eq_some_iff : ofResult r = .ok (some e) ↔ r = e.result := by
  by_cases h : r = Int64.minValue
  · subst h
    rw [ofResult_minValue]
    exact iff_of_false (by simp) (Ne.symm e.result_ne_minValue)
  · obtain ⟨found, hfound, hspec⟩ := ofResult_spec h
    rw [hfound, ← hspec, Except.ok.injEq]

/-- A failure is read back as its error, and so is a success that looks like one. -/
private theorem ofResult_foldResult {result : Except Errno Int64} :
    ofResult (foldResult result) = .ok (some e) ↔ result = .error e ∨ result = .ok e.result := by
  rw [ofResult_eq_some_iff]
  cases result with
  | ok v => simp [foldResult]
  | error f =>
    refine ⟨fun h => .inl (congrArg _ (result_injective h)), ?_⟩
    rintro (h | h)
    · cases h; rfl
    · cases h

/-- If successes are not negative, what is read back is the error of a failure, and nothing for a success. -/
private theorem ofResult_foldResult_spec {result : Except Errno Int64} (hresult : ∀ v, result = .ok v → 0 ≤ v.toInt) :
    ∃ found, ofResult (foldResult result) = .ok found ∧ ∀ e, found = some e ↔ result = .error e := by
  have hne : foldResult result ≠ Int64.minValue := by
    cases result with
    | ok v =>
      rintro rfl
      exact absurd (hresult _ rfl) (by decide)
    | error f => exact f.result_ne_minValue
  obtain ⟨found, hfound, -⟩ := ofResult_spec hne
  refine ⟨found, hfound, fun e => ?_⟩
  have hread : found = some e ↔ ofResult (foldResult result) = .ok (some e) := by rw [hfound, Except.ok.injEq]
  rw [hread, ofResult_foldResult]
  refine or_iff_left fun hok => ?_
  have hneg := e.toInt_result_neg
  have hpos := hresult _ hok
  omega

end Errno

/-! ### Calls -/

variable {σ : Type} {s s' : σ} {number : Int64} {arguments : Vector UInt64 argumentCount} {errorCode : Option Int64}
  {trap : Nat → Vector UInt64 argumentCount → Run σ Int64}

/-- Whether an outcome is what user code should learn from the result `r`, where `errorCode` is the error code of the last
call that failed before. -/
structure Outcome.Reports (o : Outcome) (errorCode : Option Int64) (r : Int64) : Prop where
  success : 0 ≤ r.toInt → o = ⟨r, errorCode⟩
  failure : r.toInt < 0 → o.result = -1 ∧ ∃ code, o.errorCode = some code ∧ code.toInt = -r.toInt

private theorem Outcome.ofResult_minValue : Outcome.ofResult errorCode Int64.minValue s = .error .negOverflow s := rfl

private theorem Outcome.ofResult_reports (h : r ≠ Int64.minValue) :
    ∃ o, Outcome.ofResult errorCode r s = .ok o s ∧ o.Reports errorCode r := by
  unfold Outcome.ofResult
  by_cases hneg : 0 ≤ r.toInt
  · rw [if_pos hneg]
    exact ⟨⟨r, errorCode⟩, rfl, fun _ => rfl, fun hlt => absurd hneg (by omega)⟩
  · rw [if_neg hneg, if_neg h]
    exact ⟨⟨-1, some (-r)⟩, rfl, fun hpos => absurd hpos hneg, fun _ => ⟨rfl, -r, rfl, toInt_neg_of_ne_minValue h⟩⟩

private theorem invoke_eq (hnumber : 0 < number.toInt ∧ number.toInt < slotCount)
    (htrap : trap number.toInt.toNat arguments s = .ok r s') :
    invoke number arguments errorCode trap s = Outcome.ofResult errorCode r s' := by
  unfold invoke
  rw [if_pos hnumber]
  exact Run.bind_of_ok htrap _

/-- A call within the table of calls tells user code its result, or the magnitude of a negative one, unless the result is
the least word, which stops the program. As far as errors are read back from results, those read are the ones told of. -/
theorem invoke_decodes (errorCode : Option Int64) (hnumber : 0 < number.toInt ∧ number.toInt < slotCount)
    (htrap : trap number.toInt.toNat arguments s = .ok r s') :
    ((r ≠ Int64.minValue → ∃ o, invoke number arguments errorCode trap s = .ok o s' ∧ o.Reports errorCode r) ∧
      (r = Int64.minValue → invoke number arguments errorCode trap s = .error .negOverflow s')) ∧
    (∀ x : Int64,
      (x ≠ Int64.minValue → ∃ found, Errno.ofResult x = .ok found ∧ ∀ e, found = some e ↔ x = e.result) ∧
      (x = Int64.minValue → Errno.ofResult x = .error .negOverflow)) ∧
    ∀ result : Except Errno Int64, (∀ v, result = .ok v → 0 ≤ v.toInt) →
      ∃ found, Errno.ofResult (foldResult result) = .ok found ∧ ∀ e, found = some e ↔ result = .error e := by
  rw [invoke_eq hnumber htrap]
  refine ⟨⟨Outcome.ofResult_reports, ?least⟩, fun x => ⟨Errno.ofResult_spec, ?unread⟩,
    fun _ => Errno.ofResult_foldResult_spec⟩
  case least =>
    rintro rfl
    exact Outcome.ofResult_minValue
  case unread =>
    rintro rfl
    exact Errno.ofResult_minValue

/-- A kernel that answers every call in the same way. -/
def answering (r : Int64) (_ : Nat) (_ : Vector UInt64 argumentCount) : Run σ Int64 := pure r

/-- A call fails after another one has failed: its own error code is kept from then on. -/
theorem invoke_decodes_invalid :
    (0 < (16 : Int64).toInt ∧ (16 : Int64).toInt < slotCount) ∧
      (answering (-22) (16 : Int64).toInt.toNat (.replicate _ 0) : Run Unit Int64) () = .ok (-22) () ∧
      (∃ o, (invoke 16 (.replicate _ 0) (some 14) (answering (-22)) : Run Unit Outcome) () = .ok o () ∧
        o.Reports (some 14) (-22)) ∧
      (∃ found, Errno.ofResult (-22) = .ok found ∧ ∀ e, found = some e ↔ (-22 : Int64) = e.result) ∧
      ∃ found, Errno.ofResult (foldResult (.error .invalid)) = .ok found ∧
        ∀ e, found = some e ↔ (.error .invalid : Except Errno Int64) = .error e := by
  have hnumber : 0 < (16 : Int64).toInt ∧ (16 : Int64).toInt < slotCount := by decide
  have htrap : (answering (-22) (16 : Int64).toInt.toNat (.replicate _ 0) : Run Unit Int64) () = .ok (-22) () := rfl
  obtain ⟨⟨htold, -⟩, hread, hfolded⟩ := invoke_decodes (some 14) hnumber htrap
  exact ⟨hnumber, htrap, htold (by decide), (hread (-22)).1 (by decide), hfolded (.error .invalid) (by simp)⟩

/-- The least word is not the result of any error. Still the program stops that makes a call with this result, and so does
one that reads it back. -/
theorem invoke_leastResult :
    (invoke 16 (.replicate _ 0) none (answering Int64.minValue) : Run Unit Outcome) () = .error .negOverflow () ∧
      Errno.ofResult Int64.minValue = .error .negOverflow ∧ ∀ e : Errno, Int64.minValue ≠ e.result :=
  ⟨rfl, rfl, fun e => Ne.symm e.result_ne_minValue⟩

end TrapKernel
