import TrapKernel.Bench.ListedFiles

/-!
# A file system from paths and texts

A read-only file system for bench runs that keeps account of the requests it gets, counts the references to its
files and breaks down when more references are given back than were held.
-/

namespace TrapKernel.Bench

/-- A file with a path, an inode number and its data. -/
structure KeyedFile where
  path : String
  inode : Inode
  data : Array UInt8
  deriving Repr

/-- Some files with different paths, the number of references to each, and the requests so far. -/
structure KeyedFiles where
  files : List KeyedFile
  references : Std.TreeMap UInt64 Nat
  requests : Array (Inode × Nat × Direction)

namespace KeyedFiles

/-- The files with some paths and data. Inode numbers count from one; a later file replaces one with its path. -/
def ofList (entries : List (String × Array UInt8)) : KeyedFiles where
  files := entries.zipIdx.foldl
    (fun files (entry, i) =>
      files.filter (fun f => f.path ≠ entry.1) ++ [⟨entry.1, UInt64.ofNat (i + 1), entry.2⟩]) []
  references := ∅
  requests := #[]

/-- The inode number of the file with a path. -/
def inode? (s : KeyedFiles) (path : String) : Option Inode :=
  (s.files.find? fun f => f.path = path).map KeyedFile.inode

/-- The file with an inode number. -/
def find? (s : KeyedFiles) (inode : Inode) : Option KeyedFile := s.files.find? fun f => f.inode = inode

/-- The number of references to the file with a path. -/
def referenceCount (s : KeyedFiles) (path : String) : Nat :=
  match s.inode? path with
  | some inode => s.references.getD inode 0
  | none => 0

/-- Reads from a file. Writing fails. -/
def transfer (s : KeyedFiles) (inode : Inode) (buffer : List UInt8) (offset : Nat) :
    Direction → Except Errno (List UInt8)
  | .write => .error .inputOutput
  | .read =>
    match s.find? inode with
    | none => .error .inputOutput
    | some f => .ok (ListedFiles.window f.data offset buffer.length)

theorem transfer_length {s : KeyedFiles} {inode : Inode} {buffer out : List UInt8} {offset : Nat}
    {direction : Direction} (h : s.transfer inode buffer offset direction = .ok out) :
    out.length = buffer.length := by
  cases direction with
  | write => simp [transfer] at h
  | read =>
    simp only [transfer] at h
    split at h
    · simp at h
    · rw [← Except.ok.inj h, ListedFiles.window_length]

end KeyedFiles

instance : FileSystem KeyedFiles where
  lookup s path := (s.inode? path, s)
  ref s inode := { s with references := s.references.insert inode (s.references.getD inode 0 + 1) }
  free s inode :=
    match s.references.getD inode 0 with
    | 0 => .error s!"inode {inode} freed more times than referenced"
    | n + 1 => .ok { s with references := s.references.insert inode n }
  stat s inode :=
    (⟨0, inode, 0o100644, 1, UInt64.ofNat (((s.find? inode).map fun f => f.data.size).getD 0)⟩, s)
  request s inode buffer offset direction :=
    (s.transfer inode buffer offset direction,
      { s with requests := s.requests.push (inode, buffer.length, direction) })
  request_length _ _ _ _ _ _ h := KeyedFiles.transfer_length h

end TrapKernel.Bench
