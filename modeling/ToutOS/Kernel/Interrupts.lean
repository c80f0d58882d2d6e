import ToutOS.Base.Interrupted
import ToutOS.Kernel.Entry
import ToutOS.Kernel.Switch

/-!
# Interrupts — assembly code with interrupts on

`cpu_switch_to`, the way from `el0_sync` to `do_el0_sync`, and `switch_to_user_mode` are executed with
interrupts on.  An interrupt may be taken before every one of their instructions.

* `Interrupt` — an interrupt at EL1 whose handler does not schedule;
* `cpuSwitchTo_interrupted`, `el0Sync_interrupted` — the first two do what they do without interrupts;
* `switchToUserMode_interrupted` — the third one gets to user mode in exactly the executions in which
  no interrupt is taken after `SPSR_EL1` has been written.
-/

namespace ToutOS
namespace Kernel

open Base

variable {L : Labels} {vector : Word} {S : Set SysReg} {K : Set Nat} {m m' : Arm}

/-! ## An interrupt -/

/-- An interrupt is taken at EL1: `el1_irq` is executed.  The handler returns with the stack pointer it
was called with; it has left the frame, the system registers in `S` and the memory in `K` alone. -/
structure Interrupt (L : Labels) (vector : Word) (S : Set SysReg) (K : Set Nat) (m m' : Arm) : Prop where
  unmasked : m.masked = false
  kernel : m.user = false
  handler : ∃ m₁ : Arm, m₁.sp = (Ventry.el1Irq.take L vector m).sp ∧
    (∀ y, m₁.sp.toNat ≤ y → y < m₁.sp.toNat + frameFill →
      m₁.mem y = (Ventry.el1Irq.take L vector m).mem y) ∧
    (∀ y ∈ K, m₁.mem y = (Ventry.el1Irq.take L vector m).mem y) ∧
    (∀ r ∈ S, m₁.sys r = m.sys r) ∧
    m' = run Ventry.el1Irq.leave m₁

/-- The registers that an exception overwrites. -/
def linkRegs : Set SysReg := { .elrEl1, .spsrEl1 }

/-- The system registers after the return to `m`. -/
def returnSys (m : Arm) (sys : SysReg → Word) : SysReg → Word :=
  Function.update (Function.update sys .elrEl1 m.pc) .spsrEl1 m.pstate

theorem returnSys_of_notMem {sys : SysReg → Word} {r : SysReg} (h : r ∉ linkRegs) :
    returnSys m sys r = sys r := by
  rw [returnSys, Function.update_of_ne fun he => h (.inr he), Function.update_of_ne fun he => h (.inl he)]

/-- From the return of a handler that has left the frame alone. -/
theorem el1Irq_leave {m₁ : Arm} (hroom : sFrameSize ≤ m.sp.toNat)
    (hsp : m₁.sp = (Ventry.el1Irq.take L vector m).sp)
    (hframe : ∀ y, m₁.sp.toNat ≤ y → y < m₁.sp.toNat + frameFill →
      m₁.mem y = (Ventry.el1Irq.take L vector m).mem y) :
    run Ventry.el1Irq.leave m₁ = m₁.setRegs { m.toArmRegs with sys := returnSys m m₁.sys } := by
  have htaken := Ventry.el1Irq.take_spec L vector hroom
  have hspNat : m₁.sp.toNat + sFrameSize = m.sp.toNat := by
    rw [hsp, htaken.sp]
  have hlt := m.sp.isLt
  have hsaved : ptFrame m₁.mem m₁.sp.toNat = { regs := m.x, sp := m.sp, pc := m.pc, pstate := m.pstate } := by
    rw [ptFrame_congr hframe, hsp, htaken.frame]
    rfl
  have hback : m₁.sp + BitVec.ofNat 64 sFrameSize = m.sp := by
    refine BitVec.eq_of_toNat_eq ?_
    rw [bump_toNat _ (by omega), hspNat]
  rw [Ventry.el1Irq.leave_spec (by omega), hsaved, leaveRegs, hback]
  rfl

/-- The code that is interrupted goes on with what it had; `ELR_EL1` and `SPSR_EL1` are those of the
interrupt. -/
theorem Interrupt.agree (h : Interrupt L vector S K m m') (hroom : sFrameSize ≤ m.sp.toNat)
    (hK : ∀ y ∈ K, y < m.sp.toNat - sFrameSize ∨ m.sp.toNat ≤ y) :
    Agree (S \ linkRegs) K m m' ∧ m'.sys .elrEl1 = m.pc ∧ m'.sys .spsrEl1 = m.pstate := by
  obtain ⟨m₁, hsp, hframe, hmem, hsys, rfl⟩ := h.handler
  have htaken := Ventry.el1Irq.take_spec L vector hroom
  have hspNat := htaken.sp
  rw [el1Irq_leave hroom hsp hframe]
  refine ⟨⟨⟨rfl, rfl, rfl, rfl, fun r hr => ?_⟩, fun y hy => ?_⟩, rfl, rfl⟩
  · exact (returnSys_of_notMem hr.2).trans (hsys r hr.1)
  · change m₁.mem y = m.mem y
    rw [hmem y hy]
    refine htaken.mem y ?_
    have := hK y hy
    simp only [sFrameSize, frameFill] at *
    omega

/-- An interrupt whose handler leaves everything alone but the system registers. -/
def interruptedBy (L : Labels) (vector : Word) (sys : SysReg → Word) (m : Arm) : Arm :=
  (Ventry.el1Irq.take L vector m).setRegs { m.toArmRegs with sys := returnSys m sys }

theorem interruptedBy_interrupt {sys : SysReg → Word} (hunmasked : m.masked = false)
    (hkernel : m.user = false) (hroom : sFrameSize ≤ m.sp.toNat) (hsys : ∀ r ∈ S, sys r = m.sys r) :
    Interrupt L vector S K m (interruptedBy L vector sys m) where
  unmasked := hunmasked
  kernel := hkernel
  handler := by
    have hleave : ∀ m₁, Ventry.el1Irq.take L vector m = m₁ →
        run Ventry.el1Irq.leave { m₁ with sys := sys } =
          m₁.setRegs { m.toArmRegs with sys := returnSys m sys } := fun m₁ h =>
      @el1Irq_leave L vector m { m₁ with sys := sys } hroom (by rw [h]) fun _ _ _ => by rw [h]
    rw [interruptedBy]
    generalize Ventry.el1Irq.take L vector m = m₁ at *
    exact ⟨{ m₁ with sys := sys }, rfl, fun _ _ _ => rfl, fun _ _ => rfl, hsys, (hleave m₁ rfl).symm⟩

/-! ## From `el0_sync` to `do_el0_sync` -/

/-- An instruction that reads no memory. -/
theorem readsIn_nothing {i : A64} (h : i.reads m = (0, 0)) : ReadsIn K m i := by
  intro y _ hy
  rw [h] at hy
  exact absurd hy (Nat.not_lt_zero y)

/-- The exception has been taken, and `kernel_entry` has been executed. -/
def afterEntry (v : Word) (m : Arm) : Arm := run (kernelEntry 0) (m.setRegs (takeException v m.toArmRegs))

/-- The bytes of the frame at `a`. -/
def frameBytes (a : Nat) : Set Nat := { y | a ≤ y ∧ y < a + frameFill }

/-- `k` instructions of the call have been executed. -/
structure Calling (L : Labels) (m₁ : Arm) (k : Nat) (m' : Arm) : Prop where
  pc : m'.pc = (run ((Ventry.el0Sync.call L).take k) m₁).pc
  sp : m'.sp = m₁.sp
  mem : ∀ y ∈ frameBytes m₁.sp.toNat, m'.mem y = m₁.mem y
  arg : 4 ≤ k → m'.x 2 = m₁.sp

theorem el0Sync_straight : ∀ i ∈ (Ventry.el0Sync.call L).dropLast, i.straight = true := by
  intro i hi
  simp only [Ventry.call, List.dropLast, List.mem_cons, List.not_mem_nil, or_false] at hi
  rcases hi with rfl | rfl | rfl | rfl <;> rfl

/-- The stack, the frame and the address of the frame. -/
theorem exec_calling {m₁ : Arm} {at' : List Word} (hroom : sFrameSize ≤ m₁.sp.toNat)
    (hout : blockCode m₁.pc (Ventry.el0Sync.call L) L.doEl0Sync = none)
    (hexec : Exec (blockCode m₁.pc (Ventry.el0Sync.call L))
      (Interrupt L vector S (frameBytes m₁.sp.toNat)) m₁ at' m') :
    ∃ k ≤ 5, Calling L m₁ k m' := by
  refine exec_invariant (I := fun _ m' => ∃ k ≤ 5, Calling L m₁ k m')
    ⟨0, Nat.zero_le 5, rfl, rfl, fun _ _ => rfl, fun h => absurd h (by decide)⟩ ?_ ?_ hexec
  · rintro _ m₂ i ⟨k, hk, hcalling⟩ hi
    rw [hcalling.pc] at hi
    rcases Nat.lt_or_eq_of_le hk with hlt | rfl
    · rw [run_take_pc rfl el0Sync_straight hlt, blockCode_at (by omega)] at hi
      have hpc := hcalling.pc
      have harg := hcalling.arg
      refine ⟨k + 1, hlt, ?_⟩
      interval_cases k <;> cases hi
      · -- `enable_irq`
        exact ⟨congrArg (· + 4) hpc, hcalling.sp, hcalling.mem, fun h => absurd h (by decide)⟩
      · exact ⟨congrArg (· + 4) hpc, hcalling.sp, hcalling.mem, fun h => absurd h (by decide)⟩
      · exact ⟨congrArg (· + 4) hpc, hcalling.sp, hcalling.mem, fun h => absurd h (by decide)⟩
      · -- `mov x2, sp`
        exact ⟨congrArg (· + 4) hpc, hcalling.sp, hcalling.mem, fun _ => hcalling.sp⟩
      · -- the call
        exact ⟨rfl, hcalling.sp, hcalling.mem, fun _ => harg (by decide)⟩
    · rw [show (run ((Ventry.el0Sync.call L).take 5) m₁).pc = L.doEl0Sync from rfl, hout] at hi
      cases hi
  · rintro _ m₂ m₃ ⟨k, hk, hcalling⟩ hinterrupt
    have hagree := (hinterrupt.agree (by rw [hcalling.sp]; exact hroom) fun y hy => .inr (by
      rw [hcalling.sp]
      exact hy.1)).1
    exact ⟨k, hk, hagree.regs.pc.trans hcalling.pc, hagree.regs.sp.trans hcalling.sp,
      fun y hy => (hagree.mem y hy).trans (hcalling.mem y hy),
      fun h => (congrFun hagree.regs.x 2).trans (hcalling.arg h)⟩

/-- When interrupts leave `ESR_EL1` and `FAR_EL1` alone, the call is as without interrupts. -/
theorem exec_call {m₁ : Arm} {at' : List Word} (hroom : sFrameSize ≤ m₁.sp.toNat)
    (hout : blockCode m₁.pc (Ventry.el0Sync.call L) L.doEl0Sync = none)
    (hesr : .esrEl1 ∈ S) (hfar : .farEl1 ∈ S)
    (hexec : Exec (blockCode m₁.pc (Ventry.el0Sync.call L))
      (Interrupt L vector S (frameBytes m₁.sp.toNat)) m₁ at' m')
    (hleft : m'.pc = L.doEl0Sync) : m'.x 0 = m₁.sys .farEl1 ∧ m'.x 1 = m₁.sys .esrEl1 := by
  have hinstr : ∀ i ∈ Ventry.el0Sync.call L, i.keepsSp = true ∧
      (∀ r ∈ i.sysReads, r ∈ S \ linkRegs) ∧ ∀ m, i.reads m = (0, 0) := by
    simp [Ventry.call, A64.keepsSp, A64.sysReads, A64.reads, linkRegs, hesr, hfar]
  have hagree := exec_block_left (S := S \ linkRegs) (K := frameBytes m₁.sp.toNat)
    (by simp [Ventry.call]) rfl el0Sync_straight (fun i hi => (hinstr i hi).2.1)
    (fun k i hi => readsIn_nothing ((hinstr i (List.mem_of_getElem? hi)).2.2 _))
    hout ?_ hexec (by rw [hleft]; exact hout)
  · exact ⟨congrFun hagree.regs.x 0, congrFun hagree.regs.x 1⟩
  · -- the frame of an interrupt lies below the stack pointer, which the call leaves alone
    intro k _ m₂ m₃ hk hinterrupt
    have hkeeps : m₂.sp = m₁.sp := by
      rw [hk.regs.sp]
      exact keepsSp_run (fun i hi => (hinstr i (List.mem_of_mem_take hi)).1) m₁
    refine (hinterrupt.agree ?_ fun y hy => ?_).1
    · rw [hkeeps]
      exact hroom
    · rw [hkeeps]
      exact .inr hy.1

/-- An interrupt after `enable_irq` hands its `ESR_EL1` and `FAR_EL1` to `do_el0_sync`. -/
theorem exec_overtaken {m₁ : Arm} {sys : SysReg → Word} (hroom : sFrameSize ≤ m₁.sp.toNat)
    (hkernel : m₁.user = false) (hsys : ∀ r ∈ S, sys r = m₁.sys r) :
    ∃ at' m', Exec (blockCode m₁.pc (Ventry.el0Sync.call L)) (Interrupt L vector S K) m₁ at' m' ∧
      m'.pc = L.doEl0Sync ∧ m'.x 0 = sys .farEl1 ∧ m'.x 1 = sys .esrEl1 := by
  have hon : Exec (blockCode m₁.pc (Ventry.el0Sync.call L)) (Interrupt L vector S K) m₁ []
      (A64.exec m₁ .daifClr) :=
    Exec.refl.insn ((congrArg _ (by simp)).trans (blockCode_at (k := 0) (by decide)))
  have hunmask := unmask_pstate m₁.pstate
  have hinterrupt : Interrupt L vector S K (A64.exec m₁ .daifClr)
      (interruptedBy L vector sys (A64.exec m₁ .daifClr)) := by
    refine interruptedBy_interrupt ?_ ?_ hroom hsys
    · change (m₁.pstate &&& ~~~irqBit &&& irqBit != 0) = false
      rw [hunmask.2]
      rfl
    · change (m₁.pstate &&& ~~~irqBit &&& modeMask == 0) = false
      rw [hunmask.1]
      exact hkernel
  have hrest := exec_run (a := m₁.pc) (R := Interrupt L vector S K) (by simp [Ventry.call]) (k := 1)
    (m := interruptedBy L vector sys (A64.exec m₁ .daifClr)) rfl (el0Sync_straight (L := L))
  refine ⟨_, _, (hon.interrupt hinterrupt).trans hrest, ?_⟩
  rw [interruptedBy]
  generalize Ventry.el1Irq.take L vector (A64.exec m₁ .daifClr) = m₂
  exact ⟨rfl, rfl, rfl⟩

/-- Two values of a register. -/
theorem not_ne (v : Word) : ~~~v ≠ v := by
  intro h
  have := congrArg (BitVec.getLsbD · 0) h
  simp at this

/-- `do_el0_sync` is called with the frame of the user program, whatever interrupts are taken on the way
from the exception.  It gets the fault address and the syndrome of the exception in all executions only
if no handler changes the two registers: one that schedules another program which faults does. -/
theorem el0Sync_interrupted (L : Labels) (vector v : Word) (S : Set SysReg) (m : Arm)
    (hroom : 2 * sFrameSize ≤ m.sp.toNat)
    (hout : blockCode (afterEntry v m).pc (Ventry.el0Sync.call L) L.doEl0Sync = none) :
    (∀ at' m', Exec (blockCode (afterEntry v m).pc (Ventry.el0Sync.call L))
        (Interrupt L vector S (frameBytes (afterEntry v m).sp.toNat)) (afterEntry v m) at' m' →
      m'.pc = L.doEl0Sync →
      m'.x 2 = m'.sp ∧ ptFrame m'.mem m'.sp.toNat =
        { regs := m.x, sp := m.sys .spEl0, pc := m.pc, pstate := m.pstate }) ∧
    ((∀ at' m', Exec (blockCode (afterEntry v m).pc (Ventry.el0Sync.call L))
        (Interrupt L vector S (frameBytes (afterEntry v m).sp.toNat)) (afterEntry v m) at' m' →
      m'.pc = L.doEl0Sync → m'.x 0 = m.sys .farEl1 ∧ m'.x 1 = m.sys .esrEl1) ↔
      .farEl1 ∈ S ∧ .esrEl1 ∈ S) := by
  have hentered : Entered 0 (m.setRegs (takeException v m.toArmRegs)) (afterEntry v m) :=
    kernelEntry_spec 0 (by
      change sFrameSize ≤ m.sp.toNat
      omega)
  have hsp : (afterEntry v m).sp.toNat + sFrameSize = m.sp.toNat := hentered.sp
  have hframe : ptFrame (afterEntry v m).mem (afterEntry v m).sp.toNat =
      { regs := m.x, sp := m.sys .spEl0, pc := m.pc, pstate := m.pstate } := by
    rw [hentered.mem]
    exact ptFrame_storeWords m.mem _ 0 (takeException v m.toArmRegs)
  have hkernel : (afterEntry v m).user = false :=
    (ArmRegs.user_congr hentered.pstate).trans (takeException_kernel v m.toArmRegs).1
  have hsys := hentered.sys
  have hfar : (m.setRegs (takeException v m.toArmRegs)).sys .farEl1 = m.sys .farEl1 := rfl
  have hesr : (m.setRegs (takeException v m.toArmRegs)).sys .esrEl1 = m.sys .esrEl1 := rfl
  rw [← hsys] at hfar hesr
  generalize afterEntry v m = m₁ at *
  have hroom₁ : sFrameSize ≤ m₁.sp.toNat := by
    simp only [sFrameSize] at *
    omega
  refine ⟨fun at' m' hexec hleft => ?_, fun hargs => ?_, fun hkept at' m' hexec hleft => ?_⟩
  · -- the block is left by its last instruction only
    obtain ⟨k, hk, hcalling⟩ := exec_calling hroom₁ hout hexec
    have hall : k = 5 := by
      by_contra hne
      have hlt : k < 5 := by omega
      have hpc := hcalling.pc
      rw [run_take_pc rfl el0Sync_straight hlt, hleft] at hpc
      rw [hpc, blockCode_at (by omega), List.getElem?_eq_getElem hlt] at hout
      cases hout
    subst hall
    have hmem := @ptFrame_congr m₁.mem m'.mem m₁.sp.toNat
      fun y h₁ h₂ => hcalling.mem y ⟨h₁, h₂⟩
    rw [hcalling.sp, hmem, hframe]
    exact ⟨hcalling.arg (by decide), rfl⟩
  · -- a register that is not kept gets another value
    have hmust : ∀ r, (r = .farEl1 ∨ r = .esrEl1) → r ∈ S := by
      intro r hr
      by_contra hout
      obtain ⟨at', m', hexec, hleft, h₀, h₁⟩ := @exec_overtaken L vector S (frameBytes m₁.sp.toNat)
        m₁ (Function.update m₁.sys r (~~~(m₁.sys r))) hroom₁ hkernel
        fun k hk => Function.update_of_ne (fun he : k = r => hout (he ▸ hk)) ..
      have hgot := hargs at' m' hexec hleft
      rw [h₀, h₁, ← hfar, ← hesr] at hgot
      rcases hr with rfl | rfl
      · have hsame := hgot.1
        rw [Function.update_self] at hsame
        exact not_ne _ hsame
      · have hsame := hgot.2
        rw [Function.update_self] at hsame
        exact not_ne _ hsame
    exact ⟨hmust _ (.inl rfl), hmust _ (.inr rfl)⟩
  · have hcall := exec_call hroom₁ hout hkept.2 hkept.1 hexec hleft
    exact ⟨hcall.1.trans hfar, hcall.2.trans hesr⟩

/-- A user program that faults. -/
def sampleFaulting : Arm where
  x k := BitVec.ofNat 64 k
  sp := 0x10000
  sys _ := 7
  pc := 0x400000
  pstate := 0
  mem _ := 0

theorem sampleFaulting_overtaken :
    ¬ ∀ at' m', Exec (blockCode (afterEntry 0x7400 sampleFaulting).pc (Ventry.el0Sync.call sampleLabels))
        (Interrupt sampleLabels 0x7000 ∅ (frameBytes (afterEntry 0x7400 sampleFaulting).sp.toNat))
        (afterEntry 0x7400 sampleFaulting) at' m' →
      m'.pc = sampleLabels.doEl0Sync → m'.x 0 = 7 ∧ m'.x 1 = 7 := fun h =>
  ((el0Sync_interrupted sampleLabels 0x7000 0x7400 ∅ sampleFaulting (by decide) (by decide +kernel)).2.1 h).1

/-! ## `cpu_switch_to` -/

/-- The bytes of the context in the `task_struct` at `t`. -/
def contextBytes (t : Nat) : Set Nat :=
  { y | t + threadCpuContext ≤ y ∧ y < t + threadCpuContext + sizeofContext }

/-- The memory below the stack pointer `sp` that an interrupt uses is not in `K`. -/
def StackClear (K : Set Nat) (sp : Nat) : Prop :=
  sFrameSize ≤ sp ∧ ∀ y ∈ K, y < sp - sFrameSize ∨ sp ≤ y

/-- `x8` while the context is loaded. -/
theorem loading_pointer (hprev : (m.x 0).toNat + sizeofTaskStruct ≤ 2 ^ 64)
    (hnext : (m.x 1).toNat + sizeofTaskStruct ≤ 2 ^ 64) {j : Nat} (hj : j ≤ 6) :
    ((run (cpuSwitchTo.take (11 + j)) m).x 8).toNat = (m.x 1).toNat + threadCpuContext + 16 * j := by
  have hsplit : cpuSwitchTo.take (11 + j) =
      ([.movImm 10 threadCpuContext, .add 8 0 10, .mov (.x 9) .sp] ++
        (stpsPost (.x 8) contextPairs ++ [.str lr (.x 8) 0, .add 8 1 10])) ++
      ldpsPost (.x 8) (contextPairs.take j) := by
    interval_cases j <;> rfl
  have hpointer := (run_save hprev).pointer
  rw [hsplit, run_append]
  generalize run ([.movImm 10 threadCpuContext, .add 8 0 10, .mov (.x 9) .sp] ++
    (stpsPost (.x 8) contextPairs ++ [.str lr (.x 8) 0, .add 8 1 10])) m = m₁ at hpointer ⊢
  have hbase : (m₁.x 8).toNat = (m.x 1).toNat + threadCpuContext := by
    rw [hpointer]
    refine bump_toNat _ ?_
    simp only [sizeofTaskStruct, threadCpuContext] at hnext ⊢
    omega
  have hlen : (contextPairs.take j).length = j := by
    rw [List.length_take]
    exact Nat.min_eq_left hj
  have hfit : (m₁.x 8).toNat + 16 * (contextPairs.take j).length < 2 ^ 64 := by
    rw [hbase, hlen]
    simp only [sizeofTaskStruct, threadCpuContext] at hnext ⊢
    omega
  have hnotin : ∀ t ∈ pairs (contextPairs.take j), t ≠ 8 := by
    interval_cases j <;> decide
  have hx8 : (run (ldpsPost (.x 8) (contextPairs.take j)) m₁).x 8 =
      m₁.x 8 + BitVec.ofNat 64 (16 * (contextPairs.take j).length) := by
    rw [run_ldpsPost hfit fun h => hnotin 8 h rfl]
    exact Function.update_self (8 : Fin 31) _
      (loadRegs m₁.mem (m₁.x 8).toNat m₁.x (pairs (contextPairs.take j)))
  rw [hx8, bump_toNat _ hfit, hbase, hlen]

/-- The bytes of both contexts. -/
def switchBytes (m : Arm) : Set Nat := contextBytes (m.x 0).toNat ∪ contextBytes (m.x 1).toNat

/-- What `cpu_switch_to` reads is in the context of the next thread. -/
theorem cpuSwitchTo_readsIn (hprev : (m.x 0).toNat + sizeofTaskStruct ≤ 2 ^ 64)
    (hnext : (m.x 1).toNat + sizeofTaskStruct ≤ 2 ^ 64) {k : Nat} {i : A64}
    (hi : cpuSwitchTo[k]? = some i) : ReadsIn (switchBytes m) (run (cpuSwitchTo.take k) m) i := by
  have hload : ∀ j ≤ 6, k = 11 + j →
      i.reads (run (cpuSwitchTo.take k) m) =
        ((run (cpuSwitchTo.take k) m).addr (.x 8) 0, if j = 6 then 8 else 16) →
      ReadsIn (switchBytes m) (run (cpuSwitchTo.take k) m) i := by
    intro j hj hk hreads y h₁ h₂
    have haddr : (run (cpuSwitchTo.take k) m).addr (.x 8) 0 =
        (m.x 1).toNat + threadCpuContext + 16 * j := by
      rw [hk, ← loading_pointer hprev hnext hj, ArmRegs.addr]
      simp [ArmRegs.get]
    rw [hreads] at h₁ h₂
    rw [haddr] at h₁ h₂
    refine .inr ⟨by omega, ?_⟩
    simp only [sizeofContext]
    split_ifs at h₂
    · omega
    · omega
  have hk : k < 20 := (List.getElem?_eq_some_iff.1 hi).1
  by_cases hlow : k < 11
  · refine readsIn_nothing ?_
    interval_cases k <;> cases hi <;> rfl
  · by_cases hhigh : 17 < k
    · refine readsIn_nothing ?_
      interval_cases k <;> cases hi <;> rfl
    · refine hload (k - 11) (by omega) (by omega) ?_
      interval_cases k <;> cases hi <;> rfl

/-- The return address in a context. -/
theorem contextOf_pc (r : ArmRegs) : BitVec.ofNat 64 (contextOf r).pc = r.x lr := by
  change BitVec.ofNat 64 (r.x lr).toNat = r.x lr
  rw [BitVec.ofNat_toNat, BitVec.setWidth_eq]

/-- The stack pointer is that of the one thread until the last instruction but one. -/
theorem switching_sp {k : Nat} (hk : k ≤ 20) :
    (run (cpuSwitchTo.take k) m).sp = m.sp ∨
      (run (cpuSwitchTo.take k) m).sp = (run cpuSwitchTo m).sp := by
  by_cases hlt : k < 19
  · refine .inl (keepsSp_run (fun i hi => ?_) m)
    exact (by decide : ∀ i ∈ cpuSwitchTo.take 18, i.keepsSp = true) i
      (List.take_subset_take_left _ (by omega) hi)
  · refine .inr ?_
    have hk : k = 19 ∨ k = 20 := by omega
    rcases hk with rfl | rfl
    · rfl
    · rfl

/-- `cpu_switch_to` saves and loads the registers as it does at once, whatever interrupts are taken on
the way: they run on the stacks of the two threads, and leave the contexts alone. -/
theorem cpuSwitchTo_interrupted {at' : List Word}
    (hprev : (m.x 0).toNat + sizeofTaskStruct ≤ 2 ^ 64)
    (hnext : (m.x 1).toNat + sizeofTaskStruct ≤ 2 ^ 64)
    (hapart : (m.x 0).toNat + sizeofTaskStruct ≤ (m.x 1).toNat ∨
      (m.x 1).toNat + sizeofTaskStruct ≤ (m.x 0).toNat)
    (hstack : StackClear (switchBytes m) m.sp.toNat)
    (hstack' : StackClear (switchBytes m) (contextAt m.mem (m.x 1).toNat).sp)
    (hout : blockCode m.pc cpuSwitchTo (BitVec.ofNat 64 (contextAt m.mem (m.x 1).toNat).pc) = none)
    (hexec : Exec (blockCode m.pc cpuSwitchTo) (Interrupt L vector S (switchBytes m)) m at' m')
    (hleft : blockCode m.pc cpuSwitchTo m'.pc = none) :
    contextOf m'.toArmRegs = contextAt m.mem (m.x 1).toNat ∧ m'.pc = m'.x lr ∧
      contextAt m'.mem (m.x 0).toNat = contextOf m.toArmRegs ∧
      contextAt m'.mem (m.x 1).toNat = contextAt m.mem (m.x 1).toNat ∧
      (∀ k : Fin 31, k.val < 8 → m'.x k = m.x k) ∧ m'.pstate = m.pstate := by
  have hspec := cpuSwitchTo_spec hprev hnext hapart
  have hspNat : (run cpuSwitchTo m).sp.toNat = (contextAt m.mem (m.x 1).toNat).sp := by
    rw [← hspec.context]
    rfl
  have hpc : (run cpuSwitchTo m).pc = BitVec.ofNat 64 (contextAt m.mem (m.x 1).toNat).pc := by
    rw [hspec.pc, ← hspec.context]
    exact (contextOf_pc _).symm
  have hagree : Agree ∅ (switchBytes m) (run cpuSwitchTo m) m' := by
    refine exec_block_left (by decide) rfl (by decide) (by decide)
      (fun k i hi => cpuSwitchTo_readsIn hprev hnext hi) (by rw [hpc]; exact hout) ?_ hexec hleft
    intro k hk m₁ m₂ hk₁ hinterrupt
    -- the interrupt uses the stack of the one thread or that of the other
    have hclear : StackClear (switchBytes m) m₁.sp.toNat := by
      rw [hk₁.regs.sp]
      rcases switching_sp (m := m) hk with he | he
      · rw [he]
        exact hstack
      · rw [he, hspNat]
        exact hstack'
    have hagree := (hinterrupt.agree hclear.1 hclear.2).1
    exact ⟨⟨hagree.regs.x, hagree.regs.sp, hagree.regs.pc, hagree.regs.pstate, fun _ hr => hr.elim⟩,
      hagree.mem⟩
  have hkept : ∀ t, contextBytes t ⊆ switchBytes m →
      contextAt m'.mem t = contextAt (run cpuSwitchTo m).mem t := fun t ht =>
    contextAt_congr fun y h₁ h₂ => hagree.mem y (ht ⟨h₁, h₂⟩)
  have hregs : contextOf m'.toArmRegs = contextOf (run cpuSwitchTo m).toArmRegs := by
    simp only [contextOf, contextWords, hagree.regs.x, hagree.regs.sp]
  refine ⟨hregs.trans hspec.context, ?_, ?_, ?_, fun k hk => ?_, ?_⟩
  · rw [hagree.regs.pc, hagree.regs.x, hspec.pc]
  · rw [hkept _ Set.subset_union_left, hspec.saved]
  · rw [hkept _ Set.subset_union_right]
    refine contextAt_congr fun y h₁ h₂ => hspec.mem y ?_
    simp only [sizeofTaskStruct, sizeofContext, threadCpuContext] at *
    omega
  · rw [hagree.regs.x, hspec.x k hk]
  · rw [hagree.regs.pstate, hspec.pstate]

/-- A CPU that is about to switch from the thread at `0x20000` to the one at `0x30000`. -/
def sampleSwitching : Arm where
  x k := if k = 0 then 0x20000 else if k = 1 then 0x30000 else BitVec.ofNat 64 k
  sp := 0x10000
  sys _ := 0
  pc := 0x1000
  pstate := 5
  mem := storeWords (fun _ => 0) (0x30000 + threadCpuContext + 88) [0x50000, 0x9000]

/-- The same CPU after an interrupt. -/
def sampleReturned : Arm := interruptedBy sampleLabels 0x7000 (fun _ => 0) sampleSwitching

theorem sampleReturned_exec :
    Exec (blockCode sampleSwitching.pc cpuSwitchTo)
      (Interrupt sampleLabels 0x7000 ∅ (switchBytes sampleSwitching)) sampleSwitching [0x1000]
      (run cpuSwitchTo sampleReturned) := by
  have hinterrupt : Interrupt sampleLabels 0x7000 ∅ (switchBytes sampleSwitching) sampleSwitching
      sampleReturned :=
    interruptedBy_interrupt (by decide) (by decide) (by decide) fun _ hr => hr.elim
  exact (Exec.refl.interrupt hinterrupt).trans (exec_run (k := 0) (by decide) rfl (by decide))

theorem sampleSwitching_interrupted :
    contextOf (run cpuSwitchTo sampleReturned).toArmRegs =
      contextAt sampleSwitching.mem (sampleSwitching.x 1).toNat := by
  have hbelow : StackClear (switchBytes sampleSwitching) sampleSwitching.sp.toNat :=
    ⟨by decide, fun y hy => .inr (by
      rcases hy with ⟨hy, _⟩ | ⟨hy, _⟩
      · exact le_trans (by decide) hy
      · exact le_trans (by decide) hy)⟩
  have habove : StackClear (switchBytes sampleSwitching)
      (contextAt sampleSwitching.mem (sampleSwitching.x 1).toNat).sp :=
    ⟨by decide +kernel, fun y hy => .inl (by
      rcases hy with ⟨_, hy⟩ | ⟨_, hy⟩
      · exact lt_of_lt_of_le hy (by decide +kernel)
      · exact lt_of_lt_of_le hy (by decide +kernel))⟩
  exact (cpuSwitchTo_interrupted (by decide) (by decide) (by decide) hbelow habove (by decide +kernel)
    sampleReturned_exec (by decide +kernel)).1

/-! ## `switch_to_user_mode` -/

def switchToUserMode : List A64 :=
  [.mrs 2 .spsrEl1, .bic 2 2 modeMask, .msr .spsrEl1 2, .msr .elrEl1 lr, .cbz 0 2, .msr .elrEl1 0,
    .cbz 1 2, .msr .spEl0 1, .eret]

/-- Where the user program begins: `user_pc`, or the return address. -/
def userPc (m : Arm) : Word := if m.x 0 = 0 then m.x lr else m.x 0

/-- The instruction at the place `k` is the next one, and no interrupt has been taken since `SPSR_EL1` was
written. -/
structure NotYetUser (m : Arm) (k : Nat) (m' : Arm) : Prop where
  pc : m'.pc = m.pc + BitVec.ofNat 64 (4 * k)
  kernel : m'.user = false
  x : ∀ r, r ≠ 2 → m'.x r = m.x r
  sp : m'.sp = m.sp
  cleared : 2 ≤ k → m'.x 2 &&& modeMask = 0
  spsr : 3 ≤ k → m'.sys .spsrEl1 &&& modeMask = 0
  elr : 4 ≤ k → m'.sys .elrEl1 = if 6 ≤ k then userPc m else m.x lr
  skipped : k = 5 → m.x 0 ≠ 0
  spEl0 : 8 ≤ k → m.x 1 ≠ 0 → m'.sys .spEl0 = m.x 1

/-- The user program begins. -/
structure UserBegins (m m' : Arm) : Prop where
  user : m'.user = true
  pc : m'.pc = userPc m
  x : ∀ r, r ≠ 2 → m'.x r = m.x r
  spEl0 : m.x 1 ≠ 0 → m'.sys .spEl0 = m.x 1

/-- The address is not one of the first three of the block. -/
def PastMode (a p : Word) : Prop := ∀ k < 3, p ≠ a + BitVec.ofNat 64 (4 * k)

/-- An interrupt has been taken since `SPSR_EL1` was written: the CPU stays at EL1. -/
structure Disturbed (m m' : Arm) : Prop where
  kernel : m'.user = false
  spsr : (m'.sys .spsrEl1 &&& modeMask == 0) = false
  pc : PastMode m.pc m'.pc
  elr : PastMode m.pc (m'.sys .elrEl1)
  x : ∀ r, r ≠ 2 → m'.x r = m.x r
  sp : m'.sp = m.sp

theorem place_offset {a : Word} {k : Nat} (hk : k < 2 ^ 61) :
    (a + BitVec.ofNat 64 (4 * k) - a).toNat = 4 * k := by
  rw [BitVec.add_comm, BitVec.add_sub_cancel, BitVec.toNat_ofNat, Nat.mod_eq_of_lt (by omega)]

theorem place_pastMode {a : Word} {k : Nat} (hk : k < 2 ^ 61) (h : 3 ≤ k) :
    PastMode a (a + BitVec.ofNat 64 (4 * k)) := by
  intro j hj he
  have hk' := place_offset (a := a) hk
  rw [he, place_offset (by omega)] at hk'
  omega

/-- An address outside the block. -/
theorem outside_pastMode {a p : Word} (h : blockCode a switchToUserMode p = none) : PastMode a p := by
  rintro k hk rfl
  have hlen : k < switchToUserMode.length := hk.trans (by decide)
  rw [blockCode_at (by omega), List.getElem?_eq_getElem hlen] at h
  cases h

section Steps

variable {m₁ : Arm} {i : A64} {k : Nat}

theorem place_next (a : Word) (k : Nat) :
    a + BitVec.ofNat 64 (4 * k) + 4 = a + BitVec.ofNat 64 (4 * (k + 1)) := by
  rw [Nat.mul_succ, BitVec.ofNat_add, BitVec.add_assoc]
  rfl

theorem cleared_and (v : Word) : v &&& ~~~modeMask &&& modeMask = 0 := by
  have hmask : ~~~modeMask &&& modeMask = 0 := by decide
  rw [BitVec.and_assoc, hmask]
  simp

/-- One instruction of the block, without an interrupt. -/
theorem NotYetUser.insn (h : NotYetUser m k m₁) (hi : switchToUserMode[k]? = some i) :
    (∃ k ≤ 8, NotYetUser m k (i.exec m₁)) ∨ UserBegins m (i.exec m₁) := by
  have hk : k < 9 := (List.getElem?_eq_some_iff.1 hi).1
  have hpc := h.pc
  have hnext := place_next m.pc k
  have hx := h.x
  have hx2 : ∀ v r, r ≠ 2 → Function.update m₁.x 2 v r = m.x r := fun v r hr => by
    rw [Function.update_of_ne hr, hx r hr]
  interval_cases k <;> cases hi
  · -- `mrs x2, spsr_el1`
    exact .inl ⟨1, by decide, (congrArg (· + 4) hpc).trans hnext, h.kernel, hx2 _, h.sp,
      by simp, by simp, by simp, by simp, by simp⟩
  · -- the mode is cleared in `x2`
    exact .inl ⟨2, by decide, (congrArg (· + 4) hpc).trans hnext, h.kernel, hx2 _, h.sp,
      fun _ => cleared_and _, by simp, by simp, by simp, by simp⟩
  · -- `msr spsr_el1, x2`
    exact .inl ⟨3, by decide, (congrArg (· + 4) hpc).trans hnext, h.kernel, hx, h.sp,
      fun _ => h.cleared (by decide), fun _ => h.cleared (by decide), by simp, by simp, by simp⟩
  · -- `msr elr_el1, lr`
    exact .inl ⟨4, by decide, (congrArg (· + 4) hpc).trans hnext, h.kernel, hx, h.sp,
      fun _ => h.cleared (by decide), fun _ => h.spsr (by decide), fun _ => hx lr (by decide), by simp,
      by simp⟩
  · -- `user_pc` is tested
    have helr := h.elr (by decide)
    simp only [A64.exec, hx 0 (by decide)]
    split_ifs with h₀
    · refine .inl ⟨6, by decide, ?_, h.kernel, hx, h.sp, fun _ => h.cleared (by decide),
        fun _ => h.spsr (by decide), fun _ => ?_, by simp, by simp⟩
      · change m₁.pc + BitVec.ofNat 64 (4 * 2) = _
        rw [hpc, BitVec.add_assoc]
        rfl
      · change m₁.sys .elrEl1 = userPc m
        rw [helr, userPc, if_pos h₀]
        rfl
    · exact .inl ⟨5, by decide, (congrArg (· + 4) hpc).trans hnext, h.kernel, hx, h.sp,
        fun _ => h.cleared (by decide), fun _ => h.spsr (by decide), fun _ => helr, fun _ => h₀, by simp⟩
  · -- `msr elr_el1, x0`
    refine .inl ⟨6, by decide, (congrArg (· + 4) hpc).trans hnext, h.kernel, hx, h.sp,
      fun _ => h.cleared (by decide), fun _ => h.spsr (by decide), fun _ => ?_, by simp, by simp⟩
    change m₁.x 0 = userPc m
    rw [hx 0 (by decide), userPc, if_neg (h.skipped rfl)]
  · -- `user_sp` is tested
    simp only [A64.exec, hx 1 (by decide)]
    split_ifs with h₁
    · refine .inl ⟨8, by decide, ?_, h.kernel, hx, h.sp, fun _ => h.cleared (by decide),
        fun _ => h.spsr (by decide), fun _ => h.elr (by decide), by simp, fun _ hne => absurd h₁ hne⟩
      change m₁.pc + BitVec.ofNat 64 (4 * 2) = _
      rw [hpc, BitVec.add_assoc]
      rfl
    · exact .inl ⟨7, by decide, (congrArg (· + 4) hpc).trans hnext, h.kernel, hx, h.sp,
        fun _ => h.cleared (by decide), fun _ => h.spsr (by decide), fun _ => h.elr (by decide), by simp,
        by simp⟩
  · -- `msr sp_el0, x1`
    exact .inl ⟨8, by decide, (congrArg (· + 4) hpc).trans hnext, h.kernel, hx, h.sp,
      fun _ => h.cleared (by decide), fun _ => h.spsr (by decide), fun _ => h.elr (by decide), by simp,
      fun _ _ => hx 1 (by decide)⟩
  · -- `eret`
    refine .inr ⟨?_, h.elr (by decide), hx, h.spEl0 (by decide)⟩
    change (m₁.sys .spsrEl1 &&& modeMask == 0) = true
    rw [h.spsr (by decide)]
    rfl

/-- One instruction of the block after an interrupt. -/
theorem Disturbed.insn (h : Disturbed m m₁) (hlr : PastMode m.pc (m.x lr)) (hx0 : PastMode m.pc (m.x 0))
    (hi : blockCode m.pc switchToUserMode m₁.pc = some i) : Disturbed m (i.exec m₁) := by
  obtain ⟨k, hpc, hk⟩ := blockCode_some hi
  have hlen : k < 9 := (List.getElem?_eq_some_iff.1 hk).1
  -- `SPSR_EL1` is not written again
  have hlow : 3 ≤ k := by
    by_contra hlt
    exact h.pc k (by omega) hpc
  have hx := h.x
  have hgo : ∀ j, 3 ≤ j → j < 2 ^ 61 → ∀ p, p = m.pc + BitVec.ofNat 64 (4 * j) → PastMode m.pc p :=
    fun j h₁ h₂ p hp => hp ▸ place_pastMode h₂ h₁
  have hnext : PastMode m.pc (m₁.pc + 4) :=
    hgo (k + 1) (by omega) (by omega) _ (by rw [hpc, place_next])
  have hskip : PastMode m.pc (m₁.pc + BitVec.ofNat 64 (4 * 2)) :=
    hgo (k + 2) (by omega) (by omega) _ (by rw [hpc, BitVec.add_assoc, ← BitVec.ofNat_add, ← Nat.mul_add])
  interval_cases k <;> cases hk
  · rw [← hx lr (by decide)] at hlr
    exact ⟨h.kernel, h.spsr, hnext, hlr, hx, h.sp⟩
  · simp only [A64.exec]
    split_ifs
    · exact ⟨h.kernel, h.spsr, hskip, h.elr, hx, h.sp⟩
    · exact ⟨h.kernel, h.spsr, hnext, h.elr, hx, h.sp⟩
  · rw [← hx 0 (by decide)] at hx0
    exact ⟨h.kernel, h.spsr, hnext, hx0, hx, h.sp⟩
  · simp only [A64.exec]
    split_ifs
    · exact ⟨h.kernel, h.spsr, hskip, h.elr, hx, h.sp⟩
    · exact ⟨h.kernel, h.spsr, hnext, h.elr, hx, h.sp⟩
  · exact ⟨h.kernel, h.spsr, hnext, h.elr, hx, h.sp⟩
  · -- `eret`, to EL1
    exact ⟨h.spsr, h.spsr, h.elr, h.elr, hx, h.sp⟩

/-- An interrupt before `SPSR_EL1` is written does no harm, and one after it does. -/
theorem NotYetUser.interrupt (h : NotYetUser m k m₁) (hk : k ≤ 8) (hroom : sFrameSize ≤ m.sp.toNat)
    (hinterrupt : Interrupt L vector S ∅ m₁ m') :
    k < 3 ∧ NotYetUser m k m' ∨ 3 ≤ k ∧ Disturbed m m' := by
  obtain ⟨hagree, helr, hspsr⟩ := hinterrupt.agree (by rw [h.sp]; exact hroom) fun _ hy => hy.elim
  have hx : ∀ r, r ≠ 2 → m'.x r = m.x r := fun r hr => (congrFun hagree.regs.x r).trans (h.x r hr)
  have hpc := hagree.regs.pc.trans h.pc
  have hsp := hagree.regs.sp.trans h.sp
  have hkernel : m'.user = false := (ArmRegs.user_congr hagree.regs.pstate).trans h.kernel
  by_cases hlow : k < 3
  · refine .inl ⟨hlow, hpc, hkernel, hx, hsp, fun h₂ => ?_, ?_, ?_, ?_, ?_⟩
    · rw [congrFun hagree.regs.x 2, h.cleared h₂]
    all_goals intro _; omega
  · refine .inr ⟨by omega, hkernel, ?_, ?_, ?_, hx, hsp⟩
    · rw [hspsr]
      exact h.kernel
    · rw [hpc]
      exact place_pastMode (by omega) (by omega)
    · rw [helr, h.pc]
      exact place_pastMode (by omega) (by omega)

theorem Disturbed.interrupt (h : Disturbed m m₁) (hroom : sFrameSize ≤ m.sp.toNat)
    (hinterrupt : Interrupt L vector S ∅ m₁ m') : Disturbed m m' := by
  obtain ⟨hagree, helr, hspsr⟩ := hinterrupt.agree (by rw [h.sp]; exact hroom) fun _ hy => hy.elim
  refine ⟨(ArmRegs.user_congr hagree.regs.pstate).trans h.kernel, ?_, ?_, ?_,
    fun r hr => (congrFun hagree.regs.x r).trans (h.x r hr), hagree.regs.sp.trans h.sp⟩
  · rw [hspsr]
    exact h.kernel
  · rw [hagree.regs.pc]
    exact h.pc
  · rw [helr]
    exact h.pc

end Steps

/-- What holds of the places of the interrupts and the CPU in every execution. -/
def UserModeInv (m : Arm) (at' : List Word) (m' : Arm) : Prop :=
  (∀ p ∈ at', (p - m.pc).toNat < 12) ∧ ((∃ k ≤ 8, NotYetUser m k m') ∨ UserBegins m m') ∨
    (∃ p ∈ at', 12 ≤ (p - m.pc).toNat) ∧ Disturbed m m'

theorem userModeInv_insn {at' : List Word} {m₁ : Arm} {i : A64}
    (hlr : blockCode m.pc switchToUserMode (m.x lr) = none)
    (hx0 : blockCode m.pc switchToUserMode (m.x 0) = none) (h : UserModeInv m at' m₁)
    (hi : blockCode m.pc switchToUserMode m₁.pc = some i) : UserModeInv m at' (i.exec m₁) := by
  rcases h with ⟨hearly, ⟨k, hk, hquiet⟩ | hbegins⟩ | ⟨hlate, hdisturbed⟩
  · rw [hquiet.pc, blockCode_at (by omega)] at hi
    exact .inl ⟨hearly, hquiet.insn hi⟩
  · -- the user program is not in the block
    have hout : blockCode m.pc switchToUserMode (userPc m) = none := by
      unfold userPc
      split_ifs
      · exact hlr
      · exact hx0
    rw [hbegins.pc, hout] at hi
    cases hi
  · exact .inr ⟨hlate, hdisturbed.insn (outside_pastMode hlr) (outside_pastMode hx0) hi⟩

theorem userModeInv_interrupt {at' : List Word} {m₁ : Arm} (hroom : sFrameSize ≤ m.sp.toNat)
    (h : UserModeInv m at' m₁) (hinterrupt : Interrupt L vector S ∅ m₁ m') :
    UserModeInv m (at' ++ [m₁.pc]) m' := by
  rcases h with ⟨hearly, ⟨k, hk, hquiet⟩ | hbegins⟩ | ⟨⟨p, hp, hlate⟩, hdisturbed⟩
  · have hoffset : (m₁.pc - m.pc).toNat = 4 * k := by
      rw [hquiet.pc, place_offset (by omega)]
    rcases hquiet.interrupt hk hroom hinterrupt with ⟨hlow, hquiet'⟩ | ⟨hhigh, hdisturbed⟩
    · refine .inl ⟨fun p hp => ?_, .inl ⟨k, hk, hquiet'⟩⟩
      rcases List.mem_append.1 hp with hp | hp
      · exact hearly p hp
      · rw [List.mem_singleton.1 hp, hoffset]
        omega
    · exact .inr ⟨⟨m₁.pc, List.mem_append_right _ List.mem_cons_self, by omega⟩, hdisturbed⟩
  · -- the user program does not run at EL1
    have hkernel := hinterrupt.kernel
    rw [hbegins.user] at hkernel
    cases hkernel
  · exact .inr ⟨⟨p, List.mem_append_left _ hp, hlate⟩, hdisturbed.interrupt hroom hinterrupt⟩

/-- `switch_to_user_mode` begins the user program if and only if no interrupt is taken from the write of
`SPSR_EL1` on.  Otherwise the CPU leaves it at EL1. -/
theorem switchToUserMode_interrupted {at' : List Word} (hroom : sFrameSize ≤ m.sp.toNat)
    (hkernel : m.user = false) (hlr : blockCode m.pc switchToUserMode (m.x lr) = none)
    (hx0 : blockCode m.pc switchToUserMode (m.x 0) = none)
    (hexec : Exec (blockCode m.pc switchToUserMode) (Interrupt L vector S ∅) m at' m')
    (hleft : blockCode m.pc switchToUserMode m'.pc = none) :
    (m'.user = true ↔ ∀ p ∈ at', (p - m.pc).toNat < 12) ∧ (m'.user = true → UserBegins m m') := by
  have hbegin : UserModeInv m [] m :=
    .inl ⟨by simp, .inl ⟨0, by decide, by simp, hkernel, fun _ _ => rfl, rfl, by simp, by simp, by simp,
      by simp, by simp⟩⟩
  have hinv := exec_invariant (I := UserModeInv m) hbegin
    (fun _ _ _ h hi => userModeInv_insn hlr hx0 h hi)
    (fun _ _ _ h hinterrupt => userModeInv_interrupt hroom h hinterrupt) hexec
  rcases hinv with ⟨hearly, ⟨k, hk, hquiet⟩ | hbegins⟩ | ⟨⟨p, hp, hlate⟩, hdisturbed⟩
  · have hlen : k < switchToUserMode.length := hk.trans_lt (by decide)
    rw [hquiet.pc, blockCode_at (by omega), List.getElem?_eq_getElem hlen] at hleft
    cases hleft
  · exact ⟨iff_of_true hbegins.user hearly, fun _ => hbegins⟩
  · have hkernel' := hdisturbed.kernel
    refine ⟨iff_of_false (by simp [hkernel']) fun hearly => ?_, fun huser => ?_⟩
    · have := hearly p hp
      omega
    · rw [hkernel'] at huser
      cases huser

/-- A thread that is about to begin its user program. -/
def sampleBeginning : Arm where
  x k := if k = 0 then 0x400000 else if k = 1 then 0x800000 else 0x9000
  sp := 0x10000
  sys _ := 0
  pc := 0x1000
  pstate := 5
  mem _ := 0

/-- An interrupt is taken before `user_pc` is tested. -/
def sampleDelayed : Arm :=
  interruptedBy sampleLabels 0x7000 (fun _ => 0) (run (switchToUserMode.take 4) sampleBeginning)

theorem sampleDelayed_exec :
    Exec (blockCode sampleBeginning.pc switchToUserMode) (Interrupt sampleLabels 0x7000 ∅ ∅) sampleBeginning
      [0x1010] (run (switchToUserMode.drop 4) sampleDelayed) := by
  have hinterrupt : Interrupt sampleLabels 0x7000 ∅ ∅ (run (switchToUserMode.take 4) sampleBeginning)
      sampleDelayed :=
    interruptedBy_interrupt (by decide) (by decide) (by decide) fun _ hr => hr.elim
  have hfirst : Exec (blockCode sampleBeginning.pc switchToUserMode) (Interrupt sampleLabels 0x7000 ∅ ∅)
      sampleBeginning [] (run (switchToUserMode.take 4) sampleBeginning) :=
    (((Exec.refl.insn (i := .mrs 2 .spsrEl1) rfl).insn (i := .bic 2 2 modeMask) rfl).insn
      (i := .msr .spsrEl1 2) rfl).insn (i := .msr .elrEl1 lr) rfl
  exact ((((((hfirst.interrupt hinterrupt).insn (i := .cbz 0 2) (by decide +kernel)).insn
    (i := .msr .elrEl1 0) (by decide +kernel)).insn (i := .cbz 1 2) (by decide +kernel)).insn
      (i := .msr .spEl0 1) (by decide +kernel)).insn (i := .eret) (by decide +kernel))

/-- It gets to the user program at EL1. -/
theorem sampleDelayed_kernel : (run (switchToUserMode.drop 4) sampleDelayed).user = false := by
  by_contra huser
  have hiff := (switchToUserMode_interrupted (m := sampleBeginning) (by decide) (by decide)
    (by decide +kernel) (by decide +kernel) sampleDelayed_exec (by decide +kernel)).1
  have hearly := hiff.1 (Bool.eq_true_of_not_eq_false huser) 0x1010 List.mem_cons_self
  exact absurd hearly (by decide)

end Kernel
end ToutOS
