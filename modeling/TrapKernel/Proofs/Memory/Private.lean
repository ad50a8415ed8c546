import TrapKernel.Memory.Paged
import TrapKernel.Proofs.Run

/-!
# Private memory

A memory system without frames: a process has a map of its own from page numbers to the contents of pages. To copy a
process is to copy the map, a new page is a page of zeros, and a write changes the map of the writer. That memory is
finite is all that processes notice of each other, so the only thing they have in common is a list of answers: whether
there is room, once for each time that it is asked for.

* `Run.Follows`: a computation leads from the image of one state to that of another, for suitable answers.
-/

namespace TrapKernel

/-- The content of every page that a process has, by page number. -/
abbrev PrivatePages : Type := Nat → Option Frame

/-- Whether there is room, for each time that it is asked for. There always is when the list is at its end. -/
abbrev Answers : Type := List Bool

/-- The user memory of one process when all processes have private memory. -/
abbrev PrivateAccess : Type := MemoryAccess Answers PrivatePages

namespace PrivatePages

/-- The pages with the content of one of them replaced. -/
def set (s : PrivatePages) (page : Nat) (f : Frame) : PrivatePages := fun page' =>
  if page' = page then some f else s page'

/-- The pages without those in a range. -/
def unmapRange (s : PrivatePages) (range : PageRange) : PrivatePages := fun page =>
  if page ∈ range then none else s page

end PrivatePages

namespace PrivateMemory

/-- Whether there is room. -/
def hasRoom : Run Answers Bool := fun answers => .ok (answers.headD true) answers.tail

/-- Fails if there is no room. -/
def needRoom : Attempt PrivateAccess Unit := do
  let room ← Attempt.ofRun (Run.within MemoryAccess.memory (fun a memory => { a with memory }) hasRoom)
  if room then return () else throw .noMemory

/-- Answers a page fault. A write to a page may need room, and so does the first touch of a heap or stack page. -/
def handleFault (address : Nat) (write : Bool) : Attempt PrivateAccess Unit := do
  let a ← get
  match a.user.space (pageOf address) with
  | some _ => if write then needRoom
  | none =>
    if a.user.isDemandZero address then
      needRoom
      modify fun a => { a with user.space := PrivatePages.set a.user.space (pageOf address) .zero }
    else throw .badAddress

/-- The page number of an address, when the fault that the access raises has been answered. -/
def frameOf (address : Nat) (write : Bool) : Attempt PrivateAccess Nat := do
  handleFault address write
  return pageOf address

end PrivateMemory

instance : MemorySystem Answers PrivatePages where
  create := do if ← PrivateMemory.hasRoom then return some fun _ => none else return none
  fork s := do if ← PrivateMemory.hasRoom then return some s else return none
  unmapRange s range := return s.unmapRange range
  unmapAll _ := return fun _ => none
  release _ := return ()
  isMapped s _ page := (s page).isSome
  handleFault := PrivateMemory.handleFault
  frameOf := PrivateMemory.frameOf
  frame a page := (a.user.space page).getD .zero
  setFrame a page f := { a with user.space := a.user.space.set page f }

/-! ### Computations on the image of a state -/

/-- Whether the computation leads from the image of `s` to the image of `t` and ends with `a`, when suitable answers
come first. -/
def Run.Follows {σ τ α : Type} (image : τ → Answers → σ) (op : Run σ α) (s t : τ) (a : α) : Prop :=
  ∃ answers, ∀ rest, op (image s (answers ++ rest)) = .ok a (image t rest)

namespace Run.Follows

variable {σ τ α γ : Type} {image : τ → Answers → σ} {s t u : τ} {a : α}

/-- A computation that does not ask for room. -/
theorem of_forall {op : Run σ α} (h : ∀ rest, op (image s rest) = .ok a (image t rest)) : Follows image op s t a :=
  ⟨[], h⟩

theorem of_pure : Follows image (pure a) s s a := of_forall fun _ => rfl

theorem of_modify {f : σ → σ} (hf : ∀ rest, f (image s rest) = image t rest) :
    Follows image (modify f) s t ⟨⟩ :=
  of_forall fun rest => congrArg (EStateM.Result.ok _) (hf rest)

/-- To look at the state is to know what does not depend on the answers. -/
theorem of_get {f : σ → Run σ α} {g : Run σ α} (hf : ∀ rest, f (image s rest) = g) (hg : Follows image g s t a) :
    Follows image (get >>= f) s t a := by
  obtain ⟨l, hl⟩ := hg
  refine ⟨l, fun rest => ?_⟩
  show f (image s (l ++ rest)) (image s (l ++ rest)) = _
  rw [hf]
  exact hl rest

theorem bind {x : Run σ γ} {f : γ → Run σ α} {c : γ} (hx : Follows image x s t c) (hf : Follows image (f c) t u a) :
    Follows image (x >>= f) s u a := by
  obtain ⟨l, hl⟩ := hx
  obtain ⟨l', hl'⟩ := hf
  refine ⟨l ++ l', fun rest => ?_⟩
  rw [List.append_assoc, Run.bind_of_ok (hl _)]
  exact hl' rest

end Run.Follows

/-- `Run.Follows` for a computation that may fail. -/
def Attempt.Follows {σ τ α : Type} (image : τ → Answers → σ) (op : Attempt σ α) (s t : τ) (r : Except Errno α) : Prop :=
  Run.Follows image op.run s t r

namespace Attempt.Follows

variable {σ τ α γ : Type} {image : τ → Answers → σ} {s t u : τ} {r : Except Errno α}

theorem of_pure {a : α} : Follows image (pure a) s s (.ok a) := Run.Follows.of_pure

theorem of_throw {e : Errno} : Follows image (throw e : Attempt σ α) s s (.error e) := Run.Follows.of_pure

theorem of_modify {f : σ → σ} (hf : ∀ rest, f (image s rest) = image t rest) :
    Follows image (modify f) s t (.ok ⟨⟩) :=
  Run.Follows.of_forall fun rest => congrArg (EStateM.Result.ok _) (hf rest)

theorem of_get {f : σ → Attempt σ α} {g : Attempt σ α} (hf : ∀ rest, f (image s rest) = g)
    (hg : Follows image g s t r) : Follows image (get >>= f) s t r := by
  obtain ⟨l, hl⟩ := hg
  refine ⟨l, fun rest => ?_⟩
  show (f (image s (l ++ rest))).run (image s (l ++ rest)) = _
  rw [hf]
  exact hl rest

theorem ofRun {op : Run σ α} {a : α} (h : Run.Follows image op s t a) :
    Follows image (Attempt.ofRun op) s t (.ok a) :=
  Run.Follows.bind h Run.Follows.of_pure

theorem bind {x : Attempt σ γ} {f : γ → Attempt σ α} {c : γ} (hx : Follows image x s t (.ok c))
    (hf : Follows image (f c) t u r) : Follows image (x >>= f) s u r :=
  Run.Follows.bind hx hf

theorem bind_error {x : Attempt σ γ} {f : γ → Attempt σ α} {e : Errno} (hx : Follows image x s t (.error e)) :
    Follows image (x >>= f) s t (.error e) :=
  Run.Follows.bind hx Run.Follows.of_pure

end Attempt.Follows

end TrapKernel
