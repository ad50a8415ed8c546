import TrapKernel.Kernel.State

/-!
# System calls about files
-/

namespace TrapKernel.Kernel

variable {μ β σ φ : Type} [MemorySystem μ β] [FileSystem σ]

/-- Opens the file whose path is at the user address in the first argument. -/
def callOpen (f : TrapFrame) : Attempt (KernelState μ β σ φ) UInt64 := do
  let p ← Attempt.ofRun currentProcess
  if p.descriptors.hasFree then
    let path ← onCurrentMemory (Access.readString f.a0.toNat)
    let (fd, descriptors) ← ExceptT.mk (onVolume (p.descriptors.openPath path).run)
    Attempt.ofRun (modifyCurrent fun p => { p with descriptors })
    return UInt64.ofNat fd
  else throw .tryAgain

/-- Closes the descriptor in the first argument. -/
def callClose (f : TrapFrame) : Attempt (KernelState μ β σ φ) UInt64 := do
  let p ← Attempt.ofRun currentProcess
  let descriptors ← ExceptT.mk (onVolume (p.descriptors.close f.a0.toNat).run)
  Attempt.ofRun (modifyCurrent fun p => { p with descriptors })
  return 0

/-- Writes what is known of the file of a descriptor to a user address. -/
def callStat (f : TrapFrame) : Attempt (KernelState μ β σ φ) UInt64 := do
  let p ← Attempt.ofRun currentProcess
  let inode ← Attempt.ofExcept (p.descriptors.file f.a0.toNat)
  let stat ← Attempt.ofRun (onVolume (Volume.stat inode))
  onCurrentMemory (Access.writeUser f.a1.toNat stat.toBytes)
  return 0

/-- Reads `n` more chunks of a file of which `done` bytes have been read, and copies them to the user addresses
from `address` on. A chunk is a page, or what is left of the `length` bytes. All requests use one buffer, which at
first holds the bytes `buffer`. -/
def readChunks (inode : Inode) (address length : Nat) : Nat → Nat → List UInt8 → Attempt (KernelState μ β σ φ) Unit
  | 0, _, _ => return ()
  | n + 1, done, buffer => do
    let size := min (length - done) pageSize
    match ← Attempt.ofRun (onVolume (Volume.request inode (buffer.take size) done .read).run) with
    | .error e =>
      Attempt.ofRun (note (.readFailed e))
      throw .inputOutput
    | .ok chunk =>
      let target ← Attempt.ofRun (addWords address done)
      onCurrentMemory (Access.writeUser target chunk)
      readChunks inode address length n (done + size) (chunk ++ buffer.drop size)

/-- Reads the first bytes of the file of a descriptor to a user address. The whole target is checked before the
first request. -/
def callRead (f : TrapFrame) : Attempt (KernelState μ β σ φ) UInt64 := do
  let p ← Attempt.ofRun currentProcess
  let address := f.a1.toNat
  let length := f.a2.toNat
  let inode ← Attempt.ofExcept (p.descriptors.file f.a0.toNat)
  Attempt.ofExcept (p.memory.checkRange (← get).memory address length)
  readChunks inode address length ((length + pageSize - 1) / pageSize) 0 (List.replicate (min length pageSize) 0)
  return 0

end TrapKernel.Kernel
