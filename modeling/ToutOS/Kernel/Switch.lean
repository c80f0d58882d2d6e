import Mathlib.Tactic.IntervalCases
import ToutOS.Base.Arm
import ToutOS.Kernel.Smp

/-!
# Switch — `cpu_switch_to`

The registers of a task that does not run are in the `cpu_context` of its `task_struct`.

* `contextAt`, `contextOf` — a context in memory and in the registers of a CPU;
* `cpuSwitchTo_spec` — the registers are saved in the one and loaded from the other.
-/

namespace ToutOS
namespace Kernel

open Base

/-! ## The code -/

/-- `THREAD_CPU_CONTEXT`. -/
def threadCpuContext : Nat := 16

def cpuSwitchTo : List A64 :=
  [.movImm 10 threadCpuContext, .add 8 0 10, .mov (.x 9) .sp,
    .stpPost 19 20 (.x 8) 16, .stpPost 21 22 (.x 8) 16, .stpPost 23 24 (.x 8) 16,
    .stpPost 25 26 (.x 8) 16, .stpPost 27 28 (.x 8) 16, .stpPost 29 9 (.x 8) 16, .str lr (.x 8) 0,
    .add 8 1 10,
    .ldpPost 19 20 (.x 8) 16, .ldpPost 21 22 (.x 8) 16, .ldpPost 23 24 (.x 8) 16,
    .ldpPost 25 26 (.x 8) 16, .ldpPost 27 28 (.x 8) 16, .ldpPost 29 9 (.x 8) 16, .ldr lr (.x 8) 0,
    .mov .sp (.x 9), .ret]

/-! ## Contexts -/

/-- A context of thirteen words. -/
def contextOfWords (w : Nat → Word) : CpuContext :=
  { x19 := (w 0).toNat, x20 := (w 1).toNat, x21 := (w 2).toNat, x22 := (w 3).toNat
    x23 := (w 4).toNat, x24 := (w 5).toNat, x25 := (w 6).toNat, x26 := (w 7).toNat
    x27 := (w 8).toNat, x28 := (w 9).toNat
    fp := (w 10).toNat, sp := (w 11).toNat, pc := (w 12).toNat }

/-- The `cpu_context` of the `task_struct` at `t`. -/
def contextAt (m : Mem) (t : Nat) : CpuContext :=
  contextOfWords fun k => loadWord m (t + threadCpuContext + 8 * k)

/-- The registers that `cpu_switch_to` saves, in the order of the context. -/
def contextWords (r : ArmRegs) : List Word :=
  [r.x 19, r.x 20, r.x 21, r.x 22, r.x 23, r.x 24, r.x 25, r.x 26, r.x 27, r.x 28, r.x 29, r.sp, r.x lr]

/-- The registers that `cpu_switch_to` saves. -/
def contextOf (r : ArmRegs) : CpuContext := contextOfWords fun k => (contextWords r).getD k 0

/-- The size of a `cpu_context`. -/
def sizeofContext : Nat := 104

theorem contextOfWords_congr {w w' : Nat → Word} (h : ∀ k, k < 13 → w k = w' k) :
    contextOfWords w = contextOfWords w' := by
  simp only [contextOfWords, h 0 (by decide), h 1 (by decide), h 2 (by decide), h 3 (by decide),
    h 4 (by decide), h 5 (by decide), h 6 (by decide), h 7 (by decide), h 8 (by decide),
    h 9 (by decide), h 10 (by decide), h 11 (by decide), h 12 (by decide)]

theorem contextAt_congr {m m' : Mem} {t : Nat}
    (h : ∀ y, t + threadCpuContext ≤ y → y < t + threadCpuContext + sizeofContext → m' y = m y) :
    contextAt m' t = contextAt m t :=
  contextOfWords_congr fun k hk => loadWord_congr fun y h₁ h₂ =>
    h y (by omega) (by simp only [sizeofContext]; omega)

/-- The context that has been stored. -/
theorem contextAt_storeWords (m : Mem) (t : Nat) (r : ArmRegs) :
    contextAt (storeWords m (t + threadCpuContext) (contextWords r)) t = contextOf r :=
  contextOfWords_congr fun k hk => by
    rw [@loadWord_storeWords m _ k (contextWords r) hk,
      List.getD_eq_getElem (contextWords r) 0 hk]

/-- The registers in the order of the context; `x9` holds the stack pointer. -/
def contextPairs : List (Fin 31 × Fin 31) :=
  [(19, 20), (21, 22), (23, 24), (25, 26), (27, 28), (29, 9)]

/-- What `cpu_switch_to` does, called with the `task_struct`s at `prev` and `next`. -/
structure Switched (prev next : Nat) (m m' : Arm) : Prop where
  context : contextOf m'.toArmRegs = contextAt m.mem next
  pc : m'.pc = m'.x lr
  saved : contextAt m'.mem prev = contextOf m.toArmRegs
  mem : ∀ y, y < prev + threadCpuContext ∨ prev + threadCpuContext + sizeofContext ≤ y →
    m'.mem y = m.mem y
  sys : m'.sys = m.sys
  pstate : m'.pstate = m.pstate
  x : ∀ k : Fin 31, k.val < 8 → m'.x k = m.x k

variable {m : Arm} {prev next : Nat}

theorem low_ne {k r : Fin 31} (hk : k.val < 8) (hr : 8 ≤ r.val) : k ≠ r :=
  fun he => by rw [he] at hk; omega

/-- After the first half, the registers are stored and `x8` points to the other context. -/
structure ContextSaved (m m' : Arm) : Prop where
  mem : m'.mem = storeWords m.mem ((m.x 0).toNat + threadCpuContext) (contextWords m.toArmRegs)
  pointer : m'.x 8 = m.x 1 + BitVec.ofNat 64 threadCpuContext
  sys : m'.sys = m.sys
  pstate : m'.pstate = m.pstate
  x : ∀ k : Fin 31, k.val < 8 → m'.x k = m.x k

theorem run_save (h : (m.x 0).toNat + sizeofTaskStruct ≤ 2 ^ 64) :
    ContextSaved m (run ([.movImm 10 threadCpuContext, .add 8 0 10, .mov (.x 9) .sp] ++
      (stpsPost (.x 8) contextPairs ++ [.str lr (.x 8) 0, .add 8 1 10])) m) := by
  have hbase : (m.x 0 + BitVec.ofNat 64 threadCpuContext).toNat = (m.x 0).toNat + threadCpuContext := by
    refine bump_toNat _ ?_
    simp only [sizeofTaskStruct, threadCpuContext] at h ⊢
    omega
  have hend : (m.x 0 + BitVec.ofNat 64 threadCpuContext + BitVec.ofNat 64 96).toNat =
      (m.x 0).toNat + threadCpuContext + 96 := by
    rw [bump_toNat, hbase]
    rw [hbase]
    simp only [sizeofTaskStruct, threadCpuContext] at h ⊢
    omega
  -- the pointer to the context is computed
  have hhead : run [.movImm 10 threadCpuContext, .add 8 0 10, .mov (.x 9) .sp] m =
      m.setRegs { m.skip 3 with
        x := Function.update (Function.update (Function.update m.x 10 (BitVec.ofNat 64 threadCpuContext)) 8
          (m.x 0 + BitVec.ofNat 64 threadCpuContext)) 9 m.sp } := by
    simp [A64.exec, Arm.setRegs, ArmRegs.set, ArmRegs.get, ArmRegs.next, ArmRegs.skip, BitVec.add_assoc]
  generalize hx : Function.update (Function.update (Function.update m.x 10
    (BitVec.ofNat 64 threadCpuContext)) 8 (m.x 0 + BitVec.ofNat 64 threadCpuContext)) 9 m.sp = x at hhead
  have h8 : x 8 = m.x 0 + BitVec.ofNat 64 threadCpuContext := by rw [← hx]; rfl
  have h10 : x 10 = BitVec.ofNat 64 threadCpuContext := by rw [← hx]; rfl
  have hwords : (pairs contextPairs).map x ++ [m.x lr] = contextWords m.toArmRegs := by rw [← hx]; rfl
  have hkept : ∀ k : Fin 31, k.val < 8 → x k = m.x k := by
    intro k hk
    rw [← hx, Function.update_of_ne (low_ne hk (by decide)), Function.update_of_ne (low_ne hk (by decide)),
      Function.update_of_ne (low_ne hk (by decide))]
  have hlr : x lr = m.x lr := by rw [← hx]; rfl
  -- the pairs are stored
  have hfit : (x 8).toNat + 16 * contextPairs.length < 2 ^ 64 := by
    rw [h8, hbase]
    simp only [sizeofTaskStruct, threadCpuContext, contextPairs, List.length_cons, List.length_nil] at h ⊢
    omega
  have hpairs : run (stpsPost (.x 8) contextPairs) (m.setRegs { m.skip 3 with x := x }) =
      { m.setRegs { ({ m.skip 3 with x := x } : ArmRegs).skip 6 with
          x := Function.update x 8 (x 8 + BitVec.ofNat 64 96) } with
        mem := storeWords m.mem (x 8).toNat ((pairs contextPairs).map x) } :=
    @run_stpsPost (m.setRegs { m.skip 3 with x := x }) contextPairs 8 hfit (by decide)
  generalize hx₂ : Function.update x 8 (x 8 + BitVec.ofNat 64 96) = x₂ at hpairs
  rw [run_append, hhead, run_append, hpairs]
  have hx₂8 : x₂ 8 = m.x 0 + BitVec.ofNat 64 threadCpuContext + BitVec.ofNat 64 96 := by
    rw [← hx₂, ← h8, Function.update_self]
  have hx₂lr : x₂ lr = m.x lr := by
    rw [← hx₂, Function.update_of_ne (by decide), hlr]
  have hx₂kept : ∀ k : Fin 31, k.val < 8 → x₂ k = m.x k := by
    intro k hk
    rw [← hx₂, Function.update_of_ne (low_ne hk (by decide)), hkept k hk]
  -- the link register is stored, and the pointer is set to the other context
  refine ⟨?_, ?_, rfl, rfl, fun k hk => ?_⟩
  · change storeWord (storeWords m.mem (x 8).toNat ((pairs contextPairs).map x)) (x₂ 8 + 0#64).toNat
      (x₂ lr) = _
    rw [BitVec.add_zero, hx₂8, hx₂lr, hend, h8, hbase, ← hwords, storeWords_append]
    rfl
  · change x₂ 1 + x₂ 10 = _
    rw [hx₂kept 1 (by decide), ← hx₂, Function.update_of_ne (by decide), h10]
  · change Function.update x₂ 8 _ k = m.x k
    rw [Function.update_of_ne (low_ne hk (by decide)), hx₂kept k hk]

/-- After the second half, the registers are those of the context that `x8` points to. -/
structure ContextLoaded (a : Nat) (m m' : Arm) : Prop where
  context : contextOf m'.toArmRegs = contextOfWords fun k => loadWord m.mem (a + 8 * k)
  pc : m'.pc = m'.x lr
  mem : m'.mem = m.mem
  sys : m'.sys = m.sys
  pstate : m'.pstate = m.pstate
  x : ∀ k : Fin 31, k.val < 8 → m'.x k = m.x k

theorem run_load (h : (m.x 8).toNat + sizeofContext ≤ 2 ^ 64) :
    ContextLoaded (m.x 8).toNat m (run (ldpsPost (.x 8) contextPairs ++
      [.ldr lr (.x 8) 0, .mov .sp (.x 9), .ret]) m) := by
  have hfit : (m.x 8).toNat + 16 * contextPairs.length < 2 ^ 64 := by
    simp only [sizeofContext, contextPairs, List.length_cons, List.length_nil] at h ⊢
    omega
  have hend : (m.x 8 + BitVec.ofNat 64 96).toNat = (m.x 8).toNat + 96 := by
    refine bump_toNat _ ?_
    simp only [sizeofContext] at h
    omega
  have hpairs : run (ldpsPost (.x 8) contextPairs) m =
      m.setRegs { m.skip 6 with
        x := Function.update (loadRegs m.mem (m.x 8).toNat m.x (pairs contextPairs)) 8
          (m.x 8 + BitVec.ofNat 64 96) } :=
    @run_ldpsPost m contextPairs 8 hfit (by decide)
  generalize hx : Function.update (loadRegs m.mem (m.x 8).toNat m.x (pairs contextPairs)) 8
    (m.x 8 + BitVec.ofNat 64 96) = x at hpairs
  have h8 : x 8 = m.x 8 + BitVec.ofNat 64 96 := by rw [← hx, Function.update_self]
  have hloaded : ∀ (i : Nat) (k : Fin 31), (pairs contextPairs)[i]? = some k →
      x k = loadWord m.mem ((m.x 8).toNat + 8 * i) := by
    intro i k hk
    obtain ⟨hi, rfl⟩ := List.getElem?_eq_some_iff.1 hk
    have hne : (pairs contextPairs)[i] ≠ 8 :=
      (by decide : ∀ k ∈ pairs contextPairs, k ≠ 8) _ (List.getElem_mem hi)
    rw [← hx, Function.update_of_ne hne, loadRegs_getElem (by decide) hi]
  have hkept : ∀ k : Fin 31, k.val < 8 → x k = m.x k := by
    intro k hk
    have hout : k ∉ pairs contextPairs := fun hin =>
      low_ne hk ((by decide : ∀ r ∈ pairs contextPairs, 8 ≤ r.val) k hin) rfl
    rw [← hx, Function.update_of_ne (low_ne hk (by decide)), loadRegs_of_notMem hout]
  rw [run_append, hpairs]
  refine ⟨?_, rfl, rfl, rfl, rfl, fun k hk => ?_⟩
  · refine contextOfWords_congr fun k hk => ?_
    by_cases h12 : k = 12
    · -- the link register is loaded by itself
      subst h12
      change loadWord m.mem (x 8 + 0#64).toNat = _
      rw [BitVec.add_zero, h8, hend]
    · have hword : ∀ r : Fin 31, r ≠ lr → (pairs contextPairs)[k]? = some r →
          Function.update x lr (loadWord m.mem (x 8 + 0#64).toNat) r =
            loadWord m.mem ((m.x 8).toNat + 8 * k) := fun r hr hkr => by
        rw [Function.update_of_ne hr, hloaded k r hkr]
      have hk : k < 12 := by omega
      interval_cases k <;> exact hword _ (by decide) rfl
  · change Function.update x lr _ k = m.x k
    rw [Function.update_of_ne (low_ne hk (by decide)), hkept k hk]

theorem cpuSwitchTo_spec (hprev : (m.x 0).toNat + sizeofTaskStruct ≤ 2 ^ 64)
    (hnext : (m.x 1).toNat + sizeofTaskStruct ≤ 2 ^ 64)
    (hapart : (m.x 0).toNat + sizeofTaskStruct ≤ (m.x 1).toNat ∨
      (m.x 1).toNat + sizeofTaskStruct ≤ (m.x 0).toNat) :
    Switched (m.x 0).toNat (m.x 1).toNat m (run cpuSwitchTo m) := by
  have hsplit : cpuSwitchTo = [.movImm 10 threadCpuContext, .add 8 0 10, .mov (.x 9) .sp] ++
      (stpsPost (.x 8) contextPairs ++ [.str lr (.x 8) 0, .add 8 1 10]) ++
        (ldpsPost (.x 8) contextPairs ++ [.ldr lr (.x 8) 0, .mov .sp (.x 9), .ret]) := rfl
  have hsaved := run_save hprev
  rw [hsplit, run_append]
  generalize run ([.movImm 10 threadCpuContext, .add 8 0 10, .mov (.x 9) .sp] ++
    (stpsPost (.x 8) contextPairs ++ [.str lr (.x 8) 0, .add 8 1 10])) m = m₁ at hsaved ⊢
  have hpointer : (m₁.x 8).toNat = (m.x 1).toNat + threadCpuContext := by
    rw [hsaved.pointer]
    refine bump_toNat _ ?_
    simp only [sizeofTaskStruct, threadCpuContext] at hnext ⊢
    omega
  have hloaded := run_load (m := m₁) (by
    rw [hpointer]
    simp only [sizeofTaskStruct, sizeofContext, threadCpuContext] at hnext ⊢
    omega)
  have hmem : ∀ y, y < (m.x 0).toNat + threadCpuContext ∨
      (m.x 0).toNat + threadCpuContext + sizeofContext ≤ y → m₁.mem y = m.mem y := by
    intro y hy
    rw [hsaved.mem]
    exact storeWords_apply hy
  refine ⟨?_, hloaded.pc, ?_, fun y hy => ?_, ?_, ?_, fun k hk => ?_⟩
  · -- the store has left the next context alone
    rw [hloaded.context, hpointer]
    refine contextAt_congr fun y h₁ h₂ => hmem y ?_
    simp only [sizeofTaskStruct, sizeofContext, threadCpuContext] at *
    omega
  · rw [hloaded.mem, hsaved.mem]
    exact contextAt_storeWords m.mem _ m.toArmRegs
  · rw [hloaded.mem, hmem y hy]
  · rw [hloaded.sys, hsaved.sys]
  · rw [hloaded.pstate, hsaved.pstate]
  · rw [hloaded.x k hk, hsaved.x k hk]

end Kernel
end ToutOS
