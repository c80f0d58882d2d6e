import ToutOS.Base.Arm

/-!
# Entry — how the kernel is entered and left

The macros `kernel_entry` and `kernel_exit` of `kernel/irq.S`, and the code between them.

* `PtFrame` — `struct pt_regs` in memory, as `kernel_entry` fills it;
* `kernelEntry_spec`, `kernelExit_spec` — what the two macros do;
* `Ventry.take_spec`, `Ventry.leave_spec` — from an exception to the C function, and from its return back.
-/

namespace ToutOS
namespace Kernel

open Base

/-! ## The code -/

/-- `S_FRAME_SIZE`, `S_LR`, `S_SP` and `S_PC`. -/
def sFrameSize : Nat := 288
def sLr : Nat := 240
def sSp : Nat := 248
def sPc : Nat := 256

/-- The functions that `irq.S` calls. -/
structure Labels where
  doEl1Sync : Word
  irqHandler : Word
  doEl0Sync : Word
  doExit : Word
  cpuIdle : Word

/-- One way to link them. -/
def sampleLabels : Labels where
  doEl1Sync := 0xFFFF000040011000
  irqHandler := 0xFFFF000040011100
  doEl0Sync := 0xFFFF000040011200
  doExit := 0xFFFF000040011300
  cpuIdle := 0xFFFF000040011400

def kernelEntry (el : Nat) : List A64 :=
  [.subImm .sp .sp sFrameSize,
    .stp 0 1 .sp (16 * 0), .stp 2 3 .sp (16 * 1), .stp 4 5 .sp (16 * 2), .stp 6 7 .sp (16 * 3),
    .stp 8 9 .sp (16 * 4), .stp 10 11 .sp (16 * 5), .stp 12 13 .sp (16 * 6), .stp 14 15 .sp (16 * 7),
    .stp 16 17 .sp (16 * 8), .stp 18 19 .sp (16 * 9), .stp 20 21 .sp (16 * 10),
    .stp 22 23 .sp (16 * 11), .stp 24 25 .sp (16 * 12), .stp 26 27 .sp (16 * 13),
    .stp 28 29 .sp (16 * 14),
    if el = 0 then .mrs 21 .spEl0 else .addImm (.x 21) .sp sFrameSize,
    .mrs 22 .elrEl1, .mrs 23 .spsrEl1, .stp lr 21 .sp sLr, .stp 22 23 .sp sPc]

def kernelExit (el : Nat) : List A64 :=
  .ldp 21 22 .sp sPc ::
    ((if el = 0 then [.ldr 23 .sp sSp, .msr .spEl0 23] else []) ++
      [.msr .elrEl1 21, .msr .spsrEl1 22,
        .ldp 0 1 .sp (16 * 0), .ldp 2 3 .sp (16 * 1), .ldp 4 5 .sp (16 * 2), .ldp 6 7 .sp (16 * 3),
        .ldp 8 9 .sp (16 * 4), .ldp 10 11 .sp (16 * 5), .ldp 12 13 .sp (16 * 6), .ldp 14 15 .sp (16 * 7),
        .ldp 16 17 .sp (16 * 8), .ldp 18 19 .sp (16 * 9), .ldp 20 21 .sp (16 * 10),
        .ldp 22 23 .sp (16 * 11), .ldp 24 25 .sp (16 * 12), .ldp 26 27 .sp (16 * 13),
        .ldp 28 29 .sp (16 * 14),
        .ldr lr .sp sLr, .addImm .sp .sp sFrameSize, .eret])

/-- The vectors that lead to a handler; the others are `handle_unknown_interrupt`. -/
inductive Ventry
  | el1Sync
  | el1Irq
  | el0Sync
  | el0Irq
  deriving DecidableEq, Repr

/-- The exception level that the vector is taken from. -/
def Ventry.el : Ventry → Nat
  | .el1Sync | .el1Irq => 1
  | .el0Sync | .el0Irq => 0

/-- Between `kernel_entry` and `kernel_exit`: the call of the C function. -/
def Ventry.call (L : Labels) : Ventry → List A64
  | .el1Sync => [.daifClr, .mrs 1 .esrEl1, .mrs 0 .farEl1, .mov (.x 2) .sp, .bl L.doEl1Sync]
  | .el1Irq => [.mov (.x 0) .sp, .bl L.irqHandler]
  | .el0Sync => [.daifClr, .mrs 1 .esrEl1, .mrs 0 .farEl1, .mov (.x 2) .sp, .bl L.doEl0Sync]
  | .el0Irq => [.mov (.x 0) .sp, .bl L.irqHandler]

/-- `el1_sync`, `el1_irq`, `el0_sync` and `el0_irq`, up to the call of the C function. -/
def Ventry.enter (L : Labels) (v : Ventry) : List A64 := kernelEntry v.el ++ v.call L

/-- From the return of the C function on. -/
def Ventry.leave : Ventry → List A64
  | .el1Sync => .daifSet :: kernelExit 1
  | .el1Irq => kernelExit 1
  | .el0Sync => .daifSet :: kernelExit 0
  | .el0Irq => kernelExit 0

/-- Where a task that `sys_fork` has made begins. -/
def childReturnsFromFork : List A64 := .daifSet :: kernelExit 0

/-! ## The frame -/

/-- `struct pt_regs`, without the fields that `kernel_entry` does not write. -/
structure PtFrame where
  regs : Fin 31 → Word
  sp : Word
  pc : Word
  pstate : Word

/-- The `struct pt_regs` at `a`. -/
def ptFrame (m : Mem) (a : Nat) : PtFrame where
  regs k := loadWord m (a + 8 * k)
  sp := loadWord m (a + sSp)
  pc := loadWord m (a + sPc)
  pstate := loadWord m (a + sPc + 8)

/-- The part of a frame that `kernel_entry` fills. -/
def frameFill : Nat := 272

/-- The pairs of registers in the order of the frame. -/
def framePairs : List (Fin 31 × Fin 31) :=
  [(0, 1), (2, 3), (4, 5), (6, 7), (8, 9), (10, 11), (12, 13), (14, 15), (16, 17), (18, 19), (20, 21),
    (22, 23), (24, 25), (26, 27), (28, 29)]

/-- What `kernel_entry` stores, in the order of the frame. -/
def frameWords (el : Nat) (r : ArmRegs) : List Word :=
  (pairs framePairs).map r.x ++
    [r.x lr, if el = 0 then r.sys .spEl0 else r.sp, r.sys .elrEl1, r.sys .spsrEl1]

theorem ptFrame_congr {m m' : Mem} {a : Nat} (h : ∀ y, a ≤ y → y < a + frameFill → m' y = m y) :
    ptFrame m' a = ptFrame m a := by
  have hword : ∀ o, o + 8 ≤ frameFill → loadWord m' (a + o) = loadWord m (a + o) := fun o ho =>
    loadWord_congr fun y h₁ h₂ => h y (by omega) (by omega)
  have hregs : ∀ k : Fin 31, loadWord m' (a + 8 * k) = loadWord m (a + 8 * k) := fun k =>
    hword (8 * k) (by simp only [frameFill]; omega)
  simp only [ptFrame, hregs, hword sSp (by decide), hword sPc (by decide), Nat.add_assoc,
    hword (sPc + 8) (by decide)]

theorem framePairs_getElem : ∀ k : Fin 31, k ≠ lr → (pairs framePairs)[k.val]? = some k := by decide

/-- The frame that `kernel_entry` has filled. -/
theorem ptFrame_storeWords (m : Mem) (a el : Nat) (r : ArmRegs) :
    ptFrame (storeWords m a (frameWords el r)) a =
      { regs := r.x, sp := if el = 0 then r.sys .spEl0 else r.sp
        pc := r.sys .elrEl1, pstate := r.sys .spsrEl1 } := by
  have hlen : (frameWords el r).length = 34 := by
    simp [frameWords, framePairs, pairs]
  have hword : ∀ (i : Nat) (v : Word), (frameWords el r)[i]? = some v →
      loadWord (storeWords m a (frameWords el r)) (a + 8 * i) = v := by
    intro i v hv
    obtain ⟨hi, hget⟩ := List.getElem?_eq_some_iff.1 hv
    rw [loadWord_storeWords hi, hget]
  have hregs : ∀ k : Fin 31, (frameWords el r)[k.val]? = some (r.x k) := by
    intro k
    by_cases hk : k = lr
    · subst hk
      rfl
    · have hlt : k.val < ((pairs framePairs).map r.x).length := by
        rw [List.length_map, pairs_length]
        have : k.val ≠ 30 := fun he => hk (Fin.ext he)
        simp only [framePairs, List.length_cons, List.length_nil]
        omega
      rw [frameWords, List.getElem?_append_left hlt, List.getElem?_map, framePairs_getElem k hk]
      rfl
  have hframe : ptFrame (storeWords m a (frameWords el r)) a =
      { regs := fun k => loadWord (storeWords m a (frameWords el r)) (a + 8 * k)
        sp := loadWord (storeWords m a (frameWords el r)) (a + 8 * 31)
        pc := loadWord (storeWords m a (frameWords el r)) (a + 8 * 32)
        pstate := loadWord (storeWords m a (frameWords el r)) (a + 8 * 33) } := rfl
  simp only [hframe, hword _ _ (hregs _), hword 31 _ rfl, hword 32 _ rfl, hword 33 _ rfl]

/-! ## The macros -/

theorem kernelEntry_eq (el : Nat) :
    kernelEntry el = .subImm .sp .sp sFrameSize :: (stps .sp 0 framePairs ++
      [if el = 0 then .mrs 21 .spEl0 else .addImm (.x 21) .sp sFrameSize,
        .mrs 22 .elrEl1, .mrs 23 .spsrEl1, .stp lr 21 .sp sLr, .stp 22 23 .sp sPc]) := rfl

theorem kernelExit_eq (el : Nat) :
    kernelExit el = .ldp 21 22 .sp sPc ::
      ((if el = 0 then [.ldr 23 .sp sSp, .msr .spEl0 23] else []) ++
        [.msr .elrEl1 21, .msr .spsrEl1 22] ++ (ldps .sp 0 framePairs ++
          [.ldr lr .sp sLr, .addImm .sp .sp sFrameSize, .eret])) := by
  rw [List.append_assoc]
  rfl

/-- What `kernel_entry` does. -/
structure Entered (el : Nat) (m m' : Arm) : Prop where
  sp : m'.sp.toNat + sFrameSize = m.sp.toNat
  mem : m'.mem = storeWords m.mem m'.sp.toNat (frameWords el m.toArmRegs)
  sys : m'.sys = m.sys
  pstate : m'.pstate = m.pstate
  pc : m'.pc = m.pc + 84
  x : ∀ k : Fin 31, k ≠ 21 → k ≠ 22 → k ≠ 23 → m'.x k = m.x k

variable {m m' : Arm} {el : Nat}

/-- The stack pointer that `kernel_entry` saves: `SP_EL0`, or `SP_EL1` before the exception. -/
def abortedSp (el : Nat) (r : ArmRegs) : Word :=
  if el = 0 then r.sys .spEl0 else r.sp + BitVec.ofNat 64 sFrameSize

/-- The end of `kernel_entry`, behind the stores of `x0` to `x29`. -/
theorem run_entryTail (el : Nat) (h : m.sp.toNat + sFrameSize ≤ 2 ^ 64) :
    run [if el = 0 then .mrs 21 .spEl0 else .addImm (.x 21) .sp sFrameSize,
        .mrs 22 .elrEl1, .mrs 23 .spsrEl1, .stp lr 21 .sp sLr, .stp 22 23 .sp sPc] m =
      { m.setRegs { m.skip 5 with
          x := Function.update (Function.update (Function.update m.x 21 (abortedSp el m.toArmRegs)) 22
            (m.sys .elrEl1)) 23 (m.sys .spsrEl1) } with
        mem := storeWords m.mem (m.sp.toNat + sLr)
          [m.x lr, abortedSp el m.toArmRegs, m.sys .elrEl1, m.sys .spsrEl1] } := by
  have hlr : (m.sp + BitVec.ofNat 64 sLr).toNat = m.sp.toNat + sLr := by
    refine bump_toNat m.sp ?_
    simp only [sFrameSize, sLr] at h ⊢
    omega
  have hpc : (m.sp + BitVec.ofNat 64 sPc).toNat = m.sp.toNat + sPc := by
    refine bump_toNat m.sp ?_
    simp only [sFrameSize, sPc] at h ⊢
    omega
  have hfirst : A64.exec m (if el = 0 then .mrs 21 .spEl0 else .addImm (.x 21) .sp sFrameSize) =
      m.setRegs { m.next with x := Function.update m.x 21 (abortedSp el m.toArmRegs) } := by
    unfold abortedSp
    split_ifs
    · rfl
    · rfl
  have hpair : m.sp.toNat + sLr + 8 + 8 = m.sp.toNat + sPc := by
    simp only [sLr, sPc]
  have hlink : lr ≠ 21 ∧ lr ≠ 22 ∧ lr ≠ 23 := by decide
  rw [run_cons, hfirst]
  generalize abortedSp el m.toArmRegs = v
  simp only [run_cons, run_nil, A64.exec, Arm.setRegs, ArmRegs.set, ArmRegs.get, ArmRegs.next,
    ArmRegs.addr, ArmRegs.skip, hlr, hpc, hpair, storeWords, Function.update_self,
    Function.update_of_ne hlink.1, Function.update_of_ne hlink.2.1, Function.update_of_ne hlink.2.2]
  simp [BitVec.add_assoc]

theorem kernelEntry_spec (el : Nat) (h : sFrameSize ≤ m.sp.toNat) :
    Entered el m (run (kernelEntry el) m) := by
  have hlt := m.sp.isLt
  have hback : m.sp - BitVec.ofNat 64 sFrameSize + BitVec.ofNat 64 sFrameSize = m.sp :=
    BitVec.sub_add_cancel _ _
  have hsub : (m.sp - BitVec.ofNat 64 sFrameSize).toNat + sFrameSize = m.sp.toNat := by
    simp only [sFrameSize] at h ⊢
    bv_omega
  have hstps := @run_stps (A64.exec m (.subImm .sp .sp sFrameSize)) .sp 0 framePairs (by
    change (m.sp - BitVec.ofNat 64 sFrameSize).toNat + 0 + 16 * 15 ≤ 2 ^ 64
    simp only [sFrameSize] at h hsub ⊢
    omega)
  rw [kernelEntry_eq, run_cons, run_append, hstps, run_entryTail]
  · refine ⟨hsub, ?_, rfl, rfl, ?_, fun k h₁ h₂ h₃ => ?_⟩
    · have haborted : abortedSp el (A64.exec m (.subImm .sp .sp sFrameSize)).toArmRegs =
          if el = 0 then m.sys .spEl0 else m.sp := by
        change (if el = 0 then m.sys .spEl0 else
          m.sp - BitVec.ofNat 64 sFrameSize + BitVec.ofNat 64 sFrameSize) = _
        rw [hback]
      rw [frameWords, storeWords_append, ← haborted]
      rfl
    · change m.pc + BitVec.ofNat 64 4 + BitVec.ofNat 64 60 + BitVec.ofNat 64 20 = m.pc + 84
      simp [BitVec.add_assoc]
    · simp only [Arm.setRegs, Function.update_of_ne h₁, Function.update_of_ne h₂,
        Function.update_of_ne h₃]
      rfl
  · change (m.sp - BitVec.ofNat 64 sFrameSize).toNat + sFrameSize ≤ 2 ^ 64
    omega

/-- The system registers after `kernel_exit`. -/
def exitSys (el : Nat) (f : PtFrame) (sys : SysReg → Word) : SysReg → Word :=
  Function.update (Function.update (if el = 0 then Function.update sys .spEl0 f.sp else sys)
    .elrEl1 f.pc) .spsrEl1 f.pstate

/-- The registers after `kernel_exit`. -/
def leaveRegs (el : Nat) (f : PtFrame) (r : ArmRegs) : ArmRegs where
  x := f.regs
  sp := r.sp + BitVec.ofNat 64 sFrameSize
  sys := exitSys el f r.sys
  pc := f.pc
  pstate := f.pstate

/-- The beginning of `kernel_exit`, before `x0` to `x29` are loaded. -/
theorem run_exitHead (el : Nat) (h : m.sp.toNat + sFrameSize ≤ 2 ^ 64) :
    ∃ x pc, run (.ldp 21 22 .sp sPc ::
        ((if el = 0 then [.ldr 23 .sp sSp, .msr .spEl0 23] else []) ++
          [.msr .elrEl1 21, .msr .spsrEl1 22])) m =
      m.setRegs { m.toArmRegs with
        x := x, pc := pc, sys := exitSys el (ptFrame m.mem m.sp.toNat) m.sys } := by
  have hpc : (m.sp + BitVec.ofNat 64 sPc).toNat = m.sp.toNat + sPc := by
    refine bump_toNat m.sp ?_
    simp only [sFrameSize, sPc] at h ⊢
    omega
  have hsp : (m.sp + BitVec.ofNat 64 sSp).toNat = m.sp.toNat + sSp := by
    refine bump_toNat m.sp ?_
    simp only [sFrameSize, sSp] at h ⊢
    omega
  by_cases hel : el = 0
  · simp [hel, A64.exec, Arm.setRegs, ArmRegs.set, ArmRegs.get, ArmRegs.next,
      ArmRegs.addr, ArmRegs.skip, hsp, hpc, exitSys, ptFrame]
  · simp [hel, A64.exec, Arm.setRegs, ArmRegs.set, ArmRegs.get, ArmRegs.next,
      ArmRegs.addr, ArmRegs.skip, hpc, exitSys, ptFrame]

/-- The registers that the loads of `kernel_exit` leave. -/
theorem loadRegs_frame (mem : Mem) (a : Nat) (x : Fin 31 → Word) :
    Function.update (loadRegs mem a x (pairs framePairs)) lr (loadWord mem (a + sLr)) =
      (ptFrame mem a).regs := by
  funext k
  by_cases hk : k = lr
  · subst hk
    rw [Function.update_self]
    rfl
  · obtain ⟨hi, hget⟩ := List.getElem?_eq_some_iff.1 (framePairs_getElem k hk)
    have hload := loadRegs_getElem (m := mem) (a := a) (x := x)
      (by decide : (pairs framePairs).Nodup) hi
    rw [Function.update_of_ne hk, ← congrArg (loadRegs mem a x (pairs framePairs)) hget, hload]
    rfl

theorem kernelExit_spec (el : Nat) (h : m.sp.toNat + sFrameSize ≤ 2 ^ 64) :
    run (kernelExit el) m = m.setRegs (leaveRegs el (ptFrame m.mem m.sp.toNat) m.toArmRegs) := by
  obtain ⟨x, pc, hhead⟩ := run_exitHead el h
  have hldps := @run_ldps (m.setRegs { m.toArmRegs with
      x := x, pc := pc, sys := exitSys el (ptFrame m.mem m.sp.toNat) m.sys }) .sp 0 framePairs
    (by
      change m.sp.toNat + 0 + 16 * 15 ≤ 2 ^ 64
      simp only [sFrameSize] at h
      omega)
    (fun t _ he => by cases he)
  have hlr : (m.sp + BitVec.ofNat 64 sLr).toNat = m.sp.toNat + sLr := by
    refine bump_toNat m.sp ?_
    simp only [sFrameSize, sLr] at h ⊢
    omega
  rw [kernelExit_eq, ← List.cons_append, run_append, hhead, run_append, hldps]
  simp only [run_cons, run_nil, A64.exec, Arm.setRegs, ArmRegs.set, ArmRegs.get, ArmRegs.next,
    ArmRegs.addr, ArmRegs.skip, hlr, Nat.add_zero, loadRegs_frame]
  rfl

/-! ## Exceptions -/

/-- The vectors for interrupts. -/
def Ventry.irq : Ventry → Bool
  | .el1Irq | .el0Irq => true
  | .el1Sync | .el0Sync => false

/-- The register in which the C function gets the address of the frame. -/
def Ventry.regsArg : Ventry → Fin 31
  | .el1Irq | .el0Irq => 0
  | .el1Sync | .el0Sync => 2

/-- The CPU takes an exception through the vector at `a` and gets to the C function. -/
def Ventry.take (L : Labels) (a : Word) (v : Ventry) (m : Arm) : Arm :=
  run (v.enter L) (m.setRegs (takeException a m.toArmRegs))

/-- What the C function finds. -/
structure ExceptionTaken (v : Ventry) (m m' : Arm) : Prop where
  sp : m'.sp.toNat + sFrameSize = m.sp.toNat
  frame : ptFrame m'.mem m'.sp.toNat =
    { regs := m.x, sp := if v.el = 0 then m.sys .spEl0 else m.sp, pc := m.pc, pstate := m.pstate }
  mem : ∀ y, y < m'.sp.toNat ∨ m'.sp.toNat + frameFill ≤ y → m'.mem y = m.mem y
  sys : ∀ r, r ≠ .elrEl1 → r ≠ .spsrEl1 → m'.sys r = m.sys r
  arg : m'.x v.regsArg = m'.sp
  kernel : m'.user = false
  masked : m'.masked = v.irq

theorem exceptionPstate_and (p mask : Word) (h : 0xF0000000 &&& mask = 0) :
    exceptionPstate p &&& mask = 0x3C5 &&& mask := by
  rw [exceptionPstate, BitVec.and_or_distrib_right, BitVec.and_assoc, h]
  simp

/-- The processor is at EL1 and masks interrupts when it has taken an exception. -/
theorem takeException_kernel (a : Word) (r : ArmRegs) :
    (takeException a r).user = false ∧ (takeException a r).masked = true := by
  simp only [ArmRegs.user, ArmRegs.masked, takeException, exceptionPstate_and r.pstate modeMask (by decide),
    exceptionPstate_and r.pstate irqBit (by decide)]
  decide

/-- Interrupts are unmasked: the mode stays. -/
theorem unmask_pstate (p : Word) :
    p &&& ~~~irqBit &&& modeMask = p &&& modeMask ∧ p &&& ~~~irqBit &&& irqBit = 0 := by
  have hmode : ~~~irqBit &&& modeMask = modeMask := by decide
  have hirq : ~~~irqBit &&& irqBit = 0 := by decide
  rw [BitVec.and_assoc, BitVec.and_assoc, hmode, hirq]
  simp

/-- The call of the C function keeps the stack and the mode. -/
structure Called (v : Ventry) (m m' : Arm) : Prop where
  sp : m'.sp = m.sp
  mem : m'.mem = m.mem
  sys : m'.sys = m.sys
  arg : m'.x v.regsArg = m.sp
  user : m'.user = m.user
  masked : m.masked = true → m'.masked = v.irq

theorem Ventry.call_spec (L : Labels) (v : Ventry) : Called v m (run (v.call L) m) := by
  have hunmask : ∀ m' : Arm, m'.pstate = m.pstate &&& ~~~irqBit →
      m'.user = m.user ∧ m'.masked = false := by
    intro m' hpstate
    simp only [ArmRegs.user, ArmRegs.masked, hpstate, unmask_pstate, bne_self_eq_false, and_self]
  cases v with
  | el1Irq => exact ⟨rfl, rfl, rfl, rfl, rfl, id⟩
  | el0Irq => exact ⟨rfl, rfl, rfl, rfl, rfl, id⟩
  | el1Sync => exact ⟨rfl, rfl, rfl, rfl, (hunmask _ rfl).1, fun _ => (hunmask _ rfl).2⟩
  | el0Sync => exact ⟨rfl, rfl, rfl, rfl, (hunmask _ rfl).1, fun _ => (hunmask _ rfl).2⟩

theorem Ventry.take_spec (L : Labels) (a : Word) (v : Ventry) (h : sFrameSize ≤ m.sp.toNat) :
    ExceptionTaken v m (v.take L a m) := by
  have hentered := kernelEntry_spec (m := m.setRegs (takeException a m.toArmRegs)) v.el h
  have hcalled := v.call_spec (m := run (kernelEntry v.el) (m.setRegs (takeException a m.toArmRegs))) L
  obtain ⟨hkernel, hmasked⟩ := takeException_kernel a m.toArmRegs
  rw [Ventry.take, Ventry.enter, run_append]
  generalize run (kernelEntry v.el) (m.setRegs (takeException a m.toArmRegs)) = m₁ at hentered hcalled ⊢
  generalize run (v.call L) m₁ = m₂ at hcalled ⊢
  have hlen : (frameWords v.el (takeException a m.toArmRegs)).length = 34 := by
    simp [frameWords, framePairs, pairs]
  refine ⟨?_, ?_, fun y hy => ?_, fun r h₁ h₂ => ?_, ?_, ?_, ?_⟩
  · rw [hcalled.sp]
    exact hentered.sp
  · rw [hcalled.sp, hcalled.mem, hentered.mem]
    exact ptFrame_storeWords m.mem m₁.sp.toNat v.el (takeException a m.toArmRegs)
  · rw [hcalled.sp] at hy
    rw [hcalled.mem, hentered.mem]
    refine storeWords_apply ?_
    rw [show (m.setRegs (takeException a m.toArmRegs)).toArmRegs = takeException a m.toArmRegs from rfl, hlen]
    simp only [frameFill] at hy
    omega
  · rw [hcalled.sys, hentered.sys]
    change Function.update (Function.update m.sys .elrEl1 m.pc) .spsrEl1 m.pstate r = m.sys r
    rw [Function.update_of_ne h₂, Function.update_of_ne h₁]
  · rw [hcalled.arg, hcalled.sp]
  · rw [hcalled.user]
    exact (ArmRegs.user_congr hentered.pstate).trans hkernel
  · refine hcalled.masked ?_
    simp only [ArmRegs.masked, hentered.pstate] at hmasked ⊢
    exact hmasked

/-- The way back: `disable_irq`, where interrupts are on, and `kernel_exit`. -/
theorem Ventry.leave_spec (v : Ventry) (h : m.sp.toNat + sFrameSize ≤ 2 ^ 64) :
    run v.leave m = m.setRegs (leaveRegs v.el (ptFrame m.mem m.sp.toNat) m.toArmRegs) := by
  have hsync : run (.daifSet :: kernelExit v.el) m =
      m.setRegs (leaveRegs v.el (ptFrame m.mem m.sp.toNat) m.toArmRegs) := by
    rw [run_cons, kernelExit_spec (m := A64.exec m .daifSet) v.el h]
    rfl
  cases v with
  | el1Sync => exact hsync
  | el1Irq => exact kernelExit_spec 1 h
  | el0Sync => exact hsync
  | el0Irq => exact kernelExit_spec 0 h

end Kernel
end ToutOS
