import TrapKernel.Files.System
import Std.Data.TreeMap

/-!
# A file system from a list

A read-only file system for bench runs. Every property of a file is given, and a file can be told to fail from an
offset on. The references to every file are counted.
-/

namespace TrapKernel.Bench

/-- A file of which everything is given. -/
structure ListedFile where
  path : String
  data : Array UInt8
  stat : FileStat
  /-- Requests at this offset or above it fail in this way. -/
  failure : Option (Nat × Errno)
  deriving Repr

/-- Some files and the number of references to each file that was ever referred to. -/
structure ListedFiles where
  files : List ListedFile
  references : Std.TreeMap UInt64 Nat

namespace ListedFiles

/-- The data of a file that fills `n` bytes without a simple pattern; `seed` tells files apart. -/
def pattern (seed n : Nat) : Array UInt8 :=
  (Array.range n).map fun i => UInt8.ofNat (i * 7 + i / 256 + seed)

/-- The file with an inode number. -/
def find? (s : ListedFiles) (inode : Inode) : Option ListedFile := s.files.find? fun f => f.stat.inode = inode

/-- The `n` bytes of a file from an offset on; zeros follow its end. -/
def window (data : Array UInt8) (offset n : Nat) : List UInt8 :=
  let present := (data.extract offset (offset + n)).toList
  present ++ List.replicate (n - present.length) 0

theorem window_length (data : Array UInt8) (offset n : Nat) : (window data offset n).length = n := by
  simp only [window, List.length_append, List.length_replicate, Array.length_toList, Array.size_extract]
  omega

/-- Reads from a file, unless it has been told to fail. -/
def read (s : ListedFiles) (inode : Inode) (buffer : List UInt8) (offset : Nat) : Except Errno (List UInt8) :=
  match s.find? inode with
  | none => .error .inputOutput
  | some f =>
    match f.failure with
    | some (start, e) => if start ≤ offset then .error e else .ok (window f.data offset buffer.length)
    | none => .ok (window f.data offset buffer.length)

theorem read_length {s : ListedFiles} {inode : Inode} {buffer out : List UInt8} {offset : Nat}
    (h : s.read inode buffer offset = .ok out) : out.length = buffer.length := by
  unfold read at h
  split at h
  · simp at h
  · split at h
    · split at h
      · simp at h
      · rw [← Except.ok.inj h, window_length]
    · rw [← Except.ok.inj h, window_length]

end ListedFiles

instance : FileSystem ListedFiles where
  lookup s path := ((s.files.find? fun f => f.path = path).map fun f => f.stat.inode, s)
  ref s inode := { s with references := s.references.insert inode (s.references.getD inode 0 + 1) }
  free s inode := .ok { s with references := s.references.insert inode (s.references.getD inode 0 - 1) }
  stat s inode := (((s.find? inode).map ListedFile.stat).getD ⟨0, inode, 0, 0, 0⟩, s)
  request s inode buffer offset _ := (s.read inode buffer offset, s)
  request_length _ _ _ _ _ _ h := ListedFiles.read_length h

end TrapKernel.Bench
