import TrapKernel.Run
import TrapKernel.LittleEndian

/-!
# File systems

The kernel knows the files of a file system by inode numbers. `FileSystem` is what it asks of a file system with a
state of any type. A `Volume` is a file system in use: its state and the calls made to it.

* `EmptyFiles`: the file system without files.
-/

namespace TrapKernel

/-- The number of a file within its file system. -/
abbrev Inode : Type := UInt64

/-- What is known of a file. -/
structure FileStat where
  device : UInt64
  inode : UInt64
  mode : UInt32
  links : UInt32
  size : UInt64
  deriving DecidableEq, Repr

/-- What is known of a file, as it is copied to user space: the fields one after the other, little-endian. -/
def FileStat.toBytes (s : FileStat) : List UInt8 :=
  littleEndian 8 s.device.toNat ++ (littleEndian 8 s.inode.toNat ++
    (littleEndian 4 s.mode.toNat ++ (littleEndian 4 s.links.toNat ++ littleEndian 8 s.size.toNat)))

/-- Whether a request brings data to the file or from it. -/
inductive Direction where
  | write
  | read
  deriving DecidableEq, Repr

/-- The services of a file system with a state of type `σ`. -/
class FileSystem (σ : Type) where
  /-- The file with a path, if there is one. -/
  lookup : σ → String → Option Inode × σ
  /-- One more reference to a file is held. -/
  ref : σ → Inode → σ
  /-- A reference to a file is given back. A file system may break down over one that is not held. -/
  free : σ → Inode → Except String σ
  stat : σ → Inode → FileStat × σ
  /-- Moves data between a buffer and the part of a file from an offset on. The answer is the buffer afterwards. -/
  request : σ → Inode → List UInt8 → Nat → Direction → Except Errno (List UInt8) × σ
  /-- A request keeps the length of the buffer. -/
  request_length : ∀ (s : σ) (inode : Inode) (buffer out : List UInt8) (offset : Nat) (direction : Direction),
    (request s inode buffer offset direction).1 = .ok out → out.length = buffer.length

/-- A call to a file system. -/
inductive FileCall where
  | lookup (path : String)
  | ref (inode : Inode)
  | free (inode : Inode)
  | stat (inode : Inode)
  | request (inode : Inode) (length offset : Nat) (direction : Direction)
  deriving DecidableEq, Repr

/-- A file system in use: its state and the calls made to it, the oldest first. -/
structure Volume (σ : Type) where
  state : σ
  calls : Array FileCall

namespace Volume

variable {σ : Type} [FileSystem σ]

/-- The file with a path, if there is one. -/
def lookup (path : String) : Run (Volume σ) (Option Inode) := do
  let v ← get
  let (inode, state) := FileSystem.lookup v.state path
  set (Volume.mk state (v.calls.push (.lookup path)))
  return inode

/-- One more reference to a file is held. -/
def ref (inode : Inode) : Run (Volume σ) Unit :=
  modify fun v => ⟨FileSystem.ref v.state inode, v.calls.push (.ref inode)⟩

/-- A reference to a file is given back. -/
def free (inode : Inode) : Run (Volume σ) Unit := do
  let v ← get
  set (Volume.mk v.state (v.calls.push (.free inode)))
  match FileSystem.free v.state inode with
  | .ok state => set (Volume.mk state (v.calls.push (.free inode)))
  | .error message => crash (.collaborator message)

/-- What is known of a file. -/
def stat (inode : Inode) : Run (Volume σ) FileStat := do
  let v ← get
  let (stat, state) := FileSystem.stat v.state inode
  set (Volume.mk state (v.calls.push (.stat inode)))
  return stat

/-- Moves data between a buffer and a file. -/
def request (inode : Inode) (buffer : List UInt8) (offset : Nat) (direction : Direction) :
    Attempt (Volume σ) (List UInt8) := do
  let v ← get
  let (out, state) := FileSystem.request v.state inode buffer offset direction
  set (Volume.mk state (v.calls.push (.request inode buffer.length offset direction)))
  Attempt.ofExcept out

end Volume

/-- The file system without files: no path is found, and requests fail. -/
inductive EmptyFiles where
  | empty
  deriving DecidableEq, Repr

instance : FileSystem EmptyFiles where
  lookup s _ := (none, s)
  ref s _ := s
  free s _ := .ok s
  stat s inode := (⟨0, inode, 0, 0, 0⟩, s)
  request s _ _ _ _ := (.error .inputOutput, s)
  request_length _ _ _ _ _ _ h := by simp at h

end TrapKernel
