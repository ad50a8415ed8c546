import TrapKernel.Run
import TrapKernel.Memory.Address
import TrapKernel.Memory.FrameAllocator
import TrapKernel.Memory.Physical
import TrapKernel.Memory.Entry
import TrapKernel.Memory.PageTable
import TrapKernel.Memory.AddressSpace
import TrapKernel.LittleEndian
import TrapKernel.Memory.User
import TrapKernel.Memory.Paged
import TrapKernel.Trap.Frame
import TrapKernel.Trap.Cause
import TrapKernel.Signal.Set
import TrapKernel.Signal.Action
import TrapKernel.Log.Notice
import TrapKernel.Machine.Clock
import TrapKernel.Machine.Platform
import TrapKernel.Files.Descriptors
import TrapKernel.Kernel.Signals
import TrapKernel.Kernel.Trap
import TrapKernel.Call.Invoke
import TrapKernel.ExclusiveCell
import TrapKernel.Kernel.Entry
import TrapKernel.Bench.KeyedFiles
import TrapKernel.Bench.BenchFirmware
import TrapKernel.Proofs.Memory.Collections
import TrapKernel.Proofs.Kernel.Refinement
import TrapKernel.Proofs.Kernel.Aliases
import TrapKernel.Proofs.Kernel.Calls
import TrapKernel.Proofs.Kernel.Frames
import TrapKernel.Proofs.Kernel.Waiting
import TrapKernel.Proofs.Kernel.Handlers
import TrapKernel.Proofs.Kernel.Registers
import TrapKernel.Proofs.Kernel.References
import TrapKernel.Proofs.Kernel.Lifetimes
import TrapKernel.Proofs.Kernel.Parents
import TrapKernel.Proofs.Kernel.FailedWaits
import TrapKernel.Proofs.Kernel.SignalLoop
import TrapKernel.Proofs.Kernel.RoundRobin
import TrapKernel.Proofs.Kernel.Exits
import TrapKernel.Proofs.Kernel.ExactCopies
import TrapKernel.Proofs.Kernel.FailedForks
import TrapKernel.Proofs.Memory.TableHistories
import TrapKernel.Proofs.Kernel.FaultDecisions
import TrapKernel.Proofs.Kernel.FileContents
import TrapKernel.Proofs.Memory.Allocation
import TrapKernel.Proofs.Kernel.TextReads
import TrapKernel.Proofs.Kernel.ActionExchange
import TrapKernel.Proofs.Kernel.HeapBounds
import TrapKernel.Proofs.Call.Results
import TrapKernel.Proofs.Memory.Returns
