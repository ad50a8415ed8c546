import TrapKernel.Trap.Frame

/-!
# The registers behind a trap

What the kernel writes to the registers of a process: the address to go on from, and the first argument, which is the
result of a call and the number of a signal for its handler. All other registers and the control words it leaves alone.

* `TrapFrame.ResumesAt`: what all of that has in common, register by register.
* `TrapFrame.advanced`, `TrapFrame.rewound`: behind a call, and back to it.
-/

namespace TrapKernel.TrapFrame

/-- Whether a process with the registers `f` goes on with the registers `g`: from the address `sepc`, with the first
argument `a0`, and with everything else as it was. -/
structure ResumesAt (f : TrapFrame) (sepc a0 : UInt64) (g : TrapFrame) : Prop where
  sepc : g.sepc = sepc
  a0 : g.registers.get 10 = a0
  registers : ∀ i, i ≠ 10 → g.registers.get i = f.registers.get i
  sstatus : g.sstatus = f.sstatus
  scause : g.scause = f.scause
  stval : g.stval = f.stval

theorem resumesAt_setA0 (f : TrapFrame) (sepc w : UInt64) : f.ResumesAt sepc w ({ f with sepc }.setA0 w) where
  sepc := rfl
  a0 := a0_setA0 { f with sepc } w
  registers i hi := (getElem_setRegister _ _ i w).trans (if_neg (Ne.symm hi))
  sstatus := rfl
  scause := rfl
  stval := rfl

@[simp] theorem setA0_a0 (f : TrapFrame) : f.setA0 f.a0 = f := by
  simp [setA0, a0, setArgument, argument, setRegister]

theorem setA0_setA0 (f : TrapFrame) (w w' : UInt64) : (f.setA0 w).setA0 w' = f.setA0 w' := by
  simp [setA0, setArgument, setRegister]

/-! ### The address of a call -/

/-- The frame of a process that goes on behind the instruction that made a system call. -/
def advanced (f : TrapFrame) : TrapFrame := { f with sepc := UInt64.ofNat (f.sepc.toNat + 4) }

/-- The frame of a process that goes back to the instruction that made a system call. -/
def rewound (f : TrapFrame) : TrapFrame := { f with sepc := UInt64.ofNat (f.sepc.toNat - 4) }

@[simp] theorem advanced_a0 (f : TrapFrame) : f.advanced.a0 = f.a0 := rfl

private theorem advanced_eq (f : TrapFrame) : f.advanced = { f with sepc := f.sepc + 4 } := by
  simp [advanced, UInt64.ofNat_add]

theorem sepc_advanced {f : TrapFrame} (h : f.sepc.toNat + 4 < wordLimit) :
    f.advanced.sepc.toNat = f.sepc.toNat + 4 :=
  Nat.mod_eq_of_lt h

/-- Who goes behind an instruction and back again is where he was. -/
theorem rewound_advanced {f : TrapFrame} (h : f.sepc.toNat + 4 < wordLimit) : f.advanced.rewound = f := by
  have hback : UInt64.ofNat (f.advanced.sepc.toNat - 4) = f.sepc := by
    rw [sepc_advanced h, Nat.add_sub_cancel, UInt64.ofNat_toNat]
  unfold rewound
  rw [hback]
  rfl

/-- A call that returns leaves its result. -/
theorem resumesAt_advanced_setA0 (f : TrapFrame) (w : UInt64) : f.ResumesAt (f.sepc + 4) w (f.advanced.setA0 w) := by
  rw [advanced_eq]
  exact f.resumesAt_setA0 _ w

/-- A call without a result leaves the first argument as it was. -/
theorem resumesAt_advanced (f : TrapFrame) : f.ResumesAt (f.sepc + 4) (f.registers.get 10) f.advanced := by
  have hsame : f.advanced.setA0 f.a0 = f.advanced := setA0_a0 f.advanced
  rw [← hsame]
  exact f.resumesAt_advanced_setA0 f.a0

end TrapKernel.TrapFrame
