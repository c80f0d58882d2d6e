import ToutOS.Base.Arm

/-!
# Interrupted — blocks of code with interruptions between their instructions

`run` executes a block at once.  Here a block is executed instruction by instruction, and between any
two instructions something else may happen to the machine any number of times.

* `blockCode` — a block in memory;
* `Exec` — its execution, with the places at which it has been interrupted;
* `Agree` — machines that look the same to code which reads the system registers in `S` and the memory
  in `K` only;
* `exec_block` — a block of such code that is interrupted by what it cannot see does what `run` does;
* `exec_invariant` — the rule for code that can see its interruptions.
-/

namespace ToutOS
namespace Base

/-- The block `is` at the address `a`. -/
def blockCode (a : Word) (is : List A64) (p : Word) : Option A64 :=
  if (p - a).toNat % 4 = 0 then is[(p - a).toNat / 4]? else none

/-- The code is executed from `m` on; `at` are the places at which it has been interrupted. -/
inductive Exec (code : Word → Option A64) (R : Arm → Arm → Prop) (m : Arm) : List Word → Arm → Prop where
  | refl : Exec code R m [] m
  | insn {at' : List Word} {m' : Arm} {i : A64} (h : Exec code R m at' m') (hi : code m'.pc = some i) :
      Exec code R m at' (i.exec m')
  | interrupt {at' : List Word} {m' m'' : Arm} (h : Exec code R m at' m') (hR : R m' m'') :
      Exec code R m (at' ++ [m'.pc]) m''

/-- The rule for invariants: of the places of the interruptions and the machine. -/
theorem exec_invariant {code : Word → Option A64} {R : Arm → Arm → Prop} {m m' : Arm} {at' : List Word}
    {I : List Word → Arm → Prop} (h₀ : I [] m)
    (hinsn : ∀ at' m' i, I at' m' → code m'.pc = some i → I at' (i.exec m'))
    (hinterrupt : ∀ at' m' m'', I at' m' → R m' m'' → I (at' ++ [m'.pc]) m'')
    (hexec : Exec code R m at' m') : I at' m' := by
  induction hexec with
  | refl => exact h₀
  | insn _ hi ih => exact hinsn _ _ _ ih hi
  | interrupt _ hR ih => exact hinterrupt _ _ _ ih hR

/-! ## Code that does not see its interruptions -/

/-- The registers are the same, but for the system registers outside `S`. -/
structure RegsAgree (S : Set SysReg) (r r' : ArmRegs) : Prop where
  x : r'.x = r.x
  sp : r'.sp = r.sp
  pc : r'.pc = r.pc
  pstate : r'.pstate = r.pstate
  sys : ∀ k ∈ S, r'.sys k = r.sys k

/-- The machines are the same, but for the system registers outside `S` and the memory outside `K`. -/
structure Agree (S : Set SysReg) (K : Set Nat) (m m' : Arm) : Prop where
  regs : RegsAgree S m.toArmRegs m'.toArmRegs
  mem : ∀ y ∈ K, m'.mem y = m.mem y

theorem Agree.refl (S : Set SysReg) (K : Set Nat) (m : Arm) : Agree S K m m :=
  ⟨⟨rfl, rfl, rfl, rfl, fun _ _ => rfl⟩, fun _ _ => rfl⟩

theorem Agree.trans {S : Set SysReg} {K : Set Nat} {m m' m'' : Arm} (h : Agree S K m m')
    (h' : Agree S K m' m'') : Agree S K m m'' where
  regs :=
    { x := h'.regs.x.trans h.regs.x
      sp := h'.regs.sp.trans h.regs.sp
      pc := h'.regs.pc.trans h.regs.pc
      pstate := h'.regs.pstate.trans h.regs.pstate
      sys := fun k hk => (h'.regs.sys k hk).trans (h.regs.sys k hk) }
  mem y hy := (h'.mem y hy).trans (h.mem y hy)

/-- The system registers that the instruction reads. -/
def A64.sysReads : A64 → List SysReg
  | .mrs _ r => [r]
  | .eret => [.elrEl1, .spsrEl1]
  | _ => []

/-- The address and the number of the bytes that the instruction reads. -/
def A64.reads (m : Arm) : A64 → Nat × Nat
  | .ldp _ _ n imm => (m.addr n imm, 16)
  | .ldpPost _ _ n _ => (m.addr n 0, 16)
  | .ldr _ n imm => (m.addr n imm, 8)
  | _ => (0, 0)

variable {S : Set SysReg} {K : Set Nat} {m m' : Arm}

section Regs

variable {r r' : ArmRegs} (h : RegsAgree S r r')
include h

theorem RegsAgree.get (n : Reg) : r'.get n = r.get n := by
  cases n with
  | x k => exact congrFun h.x k
  | sp => exact h.sp

theorem RegsAgree.addr (n : Reg) (imm : Nat) : r'.addr n imm = r.addr n imm := by
  rw [ArmRegs.addr, ArmRegs.addr, h.get]

theorem RegsAgree.set (n : Reg) (v : Word) : RegsAgree S (r.set n v) (r'.set n v) := by
  cases n with
  | x k => exact ⟨by simp only [ArmRegs.set, h.x], h.sp, h.pc, h.pstate, h.sys⟩
  | sp => exact ⟨h.x, rfl, h.pc, h.pstate, h.sys⟩

theorem RegsAgree.jump (target : Word) : RegsAgree S { r with pc := target } { r' with pc := target } :=
  ⟨h.x, h.sp, rfl, h.pstate, h.sys⟩

theorem RegsAgree.skip (k : Nat) : RegsAgree S (r.skip k) (r'.skip k) :=
  ⟨h.x, h.sp, by simp only [ArmRegs.skip, h.pc], h.pstate, h.sys⟩

theorem RegsAgree.next : RegsAgree S r.next r'.next := h.skip 1

theorem RegsAgree.setPstate (f : Word → Word) :
    RegsAgree S { r with pstate := f r.pstate } { r' with pstate := f r'.pstate } :=
  ⟨h.x, h.sp, h.pc, congrArg f h.pstate, h.sys⟩

theorem RegsAgree.setSys (k : SysReg) (v : Word) :
    RegsAgree S { r with sys := Function.update r.sys k v } { r' with sys := Function.update r'.sys k v } :=
  ⟨h.x, h.sp, h.pc, h.pstate, fun j hj => by simp only [Function.update_apply, h.sys j hj]⟩

end Regs

/-- The instruction reads only bytes of `K`. -/
def ReadsIn (K : Set Nat) (m : Arm) (i : A64) : Prop :=
  ∀ y, (i.reads m).1 ≤ y → y < (i.reads m).1 + (i.reads m).2 → y ∈ K

/-- An instruction that does not see the difference keeps it. -/
theorem Agree.exec (h : Agree S K m m') {i : A64} (hsys : ∀ k ∈ i.sysReads, k ∈ S)
    (hreads : ReadsIn K m i) : Agree S K (i.exec m) (i.exec m') := by
  have hr := h.regs
  have hword : ∀ a, (∀ y, a ≤ y → y < a + 8 → y ∈ K) → loadWord m'.mem a = loadWord m.mem a :=
    fun a ha => loadWord_congr fun y h₁ h₂ => h.mem y (ha y h₁ h₂)
  have hstore : ∀ (mem mem' : Mem) a v, (∀ y ∈ K, mem' y = mem y) →
      ∀ y ∈ K, storeWord mem' a v y = storeWord mem a v y := by
    intro mem mem' a v hm y hy
    simp only [storeWord, store, hm y hy]
  cases i with
  | stp t u n imm =>
      refine ⟨hr.next, ?_⟩
      simp only [A64.exec, hr.x, hr.addr]
      exact hstore _ _ _ _ (hstore _ _ _ _ h.mem)
  | stpPost t u n imm =>
      -- the address is the one before the update of the base
      refine ⟨?_, ?_⟩
      · simp only [A64.exec, Arm.setRegs, hr.get]
        exact (hr.set n _).next
      · simp only [A64.exec, hr.x, hr.addr]
        exact hstore _ _ _ _ (hstore _ _ _ _ h.mem)
  | str t n imm =>
      refine ⟨hr.next, ?_⟩
      simp only [A64.exec, hr.x, hr.addr]
      exact hstore _ _ _ _ h.mem
  | ldp t u n imm =>
      have h₁ := hword (m.addr n imm) fun y h₁ h₂ =>
        hreads y h₁ (h₂.trans_le (Nat.add_le_add_left (show 8 ≤ 16 by decide) _))
      have h₂ := hword (m.addr n imm + 8) fun y h₁ h₂ => hreads y (Nat.le_of_add_right_le h₁) h₂
      refine ⟨?_, h.mem⟩
      simp only [A64.exec, Arm.setRegs, hr.addr, h₁, h₂]
      exact ((hr.set (.x t) _).set (.x u) _).next
  | ldpPost t u n imm =>
      have h₁ := hword (m.addr n 0) fun y h₁ h₂ =>
        hreads y h₁ (h₂.trans_le (Nat.add_le_add_left (show 8 ≤ 16 by decide) _))
      have h₂ := hword (m.addr n 0 + 8) fun y h₁ h₂ => hreads y (Nat.le_of_add_right_le h₁) h₂
      refine ⟨?_, h.mem⟩
      simp only [A64.exec, Arm.setRegs, hr.addr, hr.get, h₁, h₂]
      exact (((hr.set (.x t) _).set (.x u) _).set n _).next
  | ldr t n imm =>
      have h₁ := hword (m.addr n imm) fun y h₁ h₂ => hreads y h₁ h₂
      refine ⟨?_, h.mem⟩
      simp only [A64.exec, Arm.setRegs, hr.addr, h₁]
      exact (hr.set (.x t) _).next
  | addImm d n imm =>
      refine ⟨?_, h.mem⟩
      simp only [A64.exec, Arm.setRegs, hr.get]
      exact (hr.set d _).next
  | subImm d n imm =>
      refine ⟨?_, h.mem⟩
      simp only [A64.exec, Arm.setRegs, hr.get]
      exact (hr.set d _).next
  | add d n k =>
      refine ⟨?_, h.mem⟩
      simp only [A64.exec, Arm.setRegs, hr.x]
      exact (hr.set (.x d) _).next
  | movImm d imm => exact ⟨(hr.set (.x d) _).next, h.mem⟩
  | mov d n =>
      refine ⟨?_, h.mem⟩
      simp only [A64.exec, Arm.setRegs, hr.get]
      exact (hr.set d _).next
  | bic d n mask =>
      refine ⟨?_, h.mem⟩
      simp only [A64.exec, Arm.setRegs, hr.x]
      exact (hr.set (.x d) _).next
  | mrs t k =>
      refine ⟨?_, h.mem⟩
      simp only [A64.exec, Arm.setRegs, hr.sys k (hsys k List.mem_cons_self)]
      exact (hr.set (.x t) _).next
  | msr k t =>
      refine ⟨?_, h.mem⟩
      simp only [A64.exec, Arm.setRegs, hr.x]
      exact hr.next.setSys k _
  | daifSet => exact ⟨hr.next.setPstate (· ||| irqBit), h.mem⟩
  | daifClr => exact ⟨hr.next.setPstate (· &&& ~~~irqBit), h.mem⟩
  | b target => exact ⟨hr.jump target, h.mem⟩
  | bl target =>
      refine ⟨?_, h.mem⟩
      simp only [A64.exec, Arm.setRegs, hr.pc]
      exact (hr.set (.x lr) _).jump target
  | blr n =>
      refine ⟨?_, h.mem⟩
      simp only [A64.exec, Arm.setRegs, hr.pc, hr.x]
      exact (hr.set (.x lr) _).jump _
  | cbz t k =>
      -- both machines take the branch, or neither
      refine ⟨?_, ?_⟩
      · simp only [A64.exec, hr.x]
        split_ifs
        · exact hr.skip k
        · exact hr.next
      · simp only [A64.exec, hr.x]
        split_ifs
        · exact h.mem
        · exact h.mem
  | ret =>
      refine ⟨?_, h.mem⟩
      simp only [A64.exec, Arm.setRegs, congrFun hr.x lr]
      exact hr.jump _
  | eret =>
      -- it reads both link registers
      refine ⟨?_, h.mem⟩
      simp only [A64.exec, Arm.setRegs, hr.sys .elrEl1 (hsys _ List.mem_cons_self),
        hr.sys .spsrEl1 (hsys _ (List.mem_cons_of_mem _ List.mem_cons_self))]
      exact (hr.jump (m.sys .elrEl1)).setPstate fun _ => m.sys .spsrEl1

/-! ## Blocks -/

/-- The instruction goes on with the next one. -/
def A64.straight : A64 → Bool
  | .b _ | .bl _ | .blr _ | .cbz _ _ | .ret | .eret => false
  | _ => true

theorem straight_pc {i : A64} (h : i.straight = true) (m : Arm) : (i.exec m).pc = m.pc + 4 := by
  cases i with
  | stpPost t u n imm => cases n <;> rfl
  | ldpPost t u n imm => cases n <;> rfl
  | addImm d n imm => cases d <;> rfl
  | subImm d n imm => cases d <;> rfl
  | mov d n => cases d <;> rfl
  | b target => cases h
  | bl target => cases h
  | blr n => cases h
  | cbz t k => cases h
  | ret => cases h
  | eret => cases h
  | _ => rfl

/-- The instruction at an address of a block. -/
theorem blockCode_at {a : Word} {is : List A64} {k : Nat} (hk : k < 2 ^ 61) :
    blockCode a is (a + BitVec.ofNat 64 (4 * k)) = is[k]? := by
  have hoffset : (a + BitVec.ofNat 64 (4 * k) - a).toNat = 4 * k := by
    rw [BitVec.add_comm, BitVec.add_sub_cancel, BitVec.toNat_ofNat, Nat.mod_eq_of_lt (by omega)]
  rw [blockCode, hoffset, if_pos (Nat.mul_mod_right 4 k), Nat.mul_div_cancel_left k (by decide)]

/-- An address inside a block. -/
theorem blockCode_some {a p : Word} {is : List A64} {i : A64} (h : blockCode a is p = some i) :
    ∃ k, p = a + BitVec.ofNat 64 (4 * k) ∧ is[k]? = some i := by
  unfold blockCode at h
  split_ifs at h with hmod
  refine ⟨(p - a).toNat / 4, ?_, h⟩
  rw [Nat.mul_div_cancel' (Nat.dvd_of_mod_eq_zero hmod), BitVec.ofNat_toNat, BitVec.setWidth_eq,
    BitVec.add_comm, BitVec.sub_add_cancel]

variable {R : Arm → Arm → Prop} {a : Word} {is : List A64} {at' : List Word}

/-- The places of the instructions of a block. -/
theorem run_take_pc (hpc : m.pc = a) (hstraight : ∀ i ∈ is.dropLast, i.straight = true) {k : Nat}
    (hk : k < is.length) : (run (is.take k) m).pc = a + BitVec.ofNat 64 (4 * k) := by
  induction k with
  | zero =>
      rw [List.take_zero, run_nil, hpc]
      simp
  | succ k ih =>
      have hlast : is[k] ∈ is.dropLast := by
        rw [List.mem_iff_getElem]
        exact ⟨k, by rw [List.length_dropLast]; omega, List.getElem_dropLast _⟩
      rw [List.take_succ_eq_append_getElem (by omega), run_append, run_cons, run_nil,
        straight_pc (hstraight _ hlast), ih (by omega), Nat.mul_succ, BitVec.ofNat_add, BitVec.add_assoc]
      rfl

/-- A block whose last instruction leaves it is executed with interruptions that it cannot see: the
machine agrees with the one that has executed a part of the block at once, or all of it. -/
theorem exec_block (hshort : is.length < 2 ^ 61) (hpc : m.pc = a)
    (hstraight : ∀ i ∈ is.dropLast, i.straight = true) (hsys : ∀ i ∈ is, ∀ k ∈ i.sysReads, k ∈ S)
    (hreads : ∀ k i, is[k]? = some i → ReadsIn K (run (is.take k) m) i)
    (hleave : blockCode a is (run is m).pc = none)
    (hR : ∀ k ≤ is.length, ∀ m₁ m₂, Agree S K (run (is.take k) m) m₁ → R m₁ m₂ → Agree S K m₁ m₂)
    (hexec : Exec (blockCode a is) R m at' m') : ∃ k ≤ is.length, Agree S K (run (is.take k) m) m' := by
  refine exec_invariant (I := fun _ m' => ∃ k ≤ is.length, Agree S K (run (is.take k) m) m')
    ⟨0, Nat.zero_le _, Agree.refl S K m⟩ ?_ ?_ hexec
  · rintro _ m₁ i ⟨k, hk, hagree⟩ hi
    by_cases hlt : k < is.length
    · rw [hagree.regs.pc, run_take_pc hpc hstraight hlt, blockCode_at (by omega)] at hi
      obtain ⟨_, hget⟩ := List.getElem?_eq_some_iff.1 hi
      refine ⟨k + 1, hlt, ?_⟩
      rw [List.take_succ_eq_append_getElem hlt, run_append, run_cons, run_nil, hget]
      exact hagree.exec (hsys i (List.mem_of_getElem? hi)) (hreads k i hi)
    · -- the block has been left
      have hall : k = is.length := by omega
      rw [hall, List.take_length] at hagree
      rw [hagree.regs.pc, hleave] at hi
      cases hi
  · rintro _ m₁ m₂ ⟨k, hk, hagree⟩ hinterrupt
    exact ⟨k, hk, hagree.trans (hR k hk m₁ m₂ hagree hinterrupt)⟩

/-- When the block has been left, all of it has been executed. -/
theorem exec_block_left (hshort : is.length < 2 ^ 61) (hpc : m.pc = a)
    (hstraight : ∀ i ∈ is.dropLast, i.straight = true) (hsys : ∀ i ∈ is, ∀ k ∈ i.sysReads, k ∈ S)
    (hreads : ∀ k i, is[k]? = some i → ReadsIn K (run (is.take k) m) i)
    (hleave : blockCode a is (run is m).pc = none)
    (hR : ∀ k ≤ is.length, ∀ m₁ m₂, Agree S K (run (is.take k) m) m₁ → R m₁ m₂ → Agree S K m₁ m₂)
    (hexec : Exec (blockCode a is) R m at' m') (hleft : blockCode a is m'.pc = none) :
    Agree S K (run is m) m' := by
  obtain ⟨k, hk, hagree⟩ := exec_block hshort hpc hstraight hsys hreads hleave hR hexec
  rcases Nat.lt_or_eq_of_le hk with hlt | rfl
  · rw [hagree.regs.pc, run_take_pc hpc hstraight hlt, blockCode_at (by omega),
      List.getElem?_eq_getElem hlt] at hleft
    cases hleft
  · rwa [List.take_length] at hagree

theorem Exec.trans {code : Word → Option A64} {bt' : List Word} {m'' : Arm} (h : Exec code R m at' m')
    (h' : Exec code R m' bt' m'') : Exec code R m (at' ++ bt') m'' := by
  induction h' with
  | refl =>
      rw [List.append_nil]
      exact h
  | insn _ hi ih => exact ih.insn hi
  | interrupt _ hR ih =>
      rw [← List.append_assoc]
      exact ih.interrupt hR

/-- The execution of the rest of a block without interruptions. -/
theorem exec_run (hshort : is.length < 2 ^ 61) {k : Nat} (hpc : m.pc = a + BitVec.ofNat 64 (4 * k))
    (hstraight : ∀ i ∈ is.dropLast, i.straight = true) :
    Exec (blockCode a is) R m [] (run (is.drop k) m) := by
  have hrest : ∀ i ∈ (is.drop k).dropLast, i.straight = true := fun i hi => by
    rw [List.dropLast_eq_take, List.length_drop, Nat.sub_right_comm, ← List.drop_take,
      ← List.dropLast_eq_take] at hi
    exact hstraight i (List.mem_of_mem_drop hi)
  have hprefix : ∀ j ≤ (is.drop k).length,
      Exec (blockCode a is) R m [] (run ((is.drop k).take j) m) := by
    intro j hj
    induction j with
    | zero => exact .refl
    | succ j ih =>
        have hlen : k + j < is.length := by
          rw [List.length_drop] at hj
          omega
        have hplace : m.pc + BitVec.ofNat 64 (4 * j) = a + BitVec.ofNat 64 (4 * (k + j)) := by
          rw [hpc, Nat.mul_add, BitVec.ofNat_add, BitVec.add_assoc]
        rw [List.take_succ_eq_append_getElem hj, run_append]
        refine (ih (by omega)).insn ?_
        rw [run_take_pc rfl hrest hj, hplace, blockCode_at (by omega), List.getElem_drop,
          List.getElem?_eq_getElem hlen]
  have hall := hprefix (is.drop k).length le_rfl
  rwa [List.take_length] at hall

/-! ## The stack pointer -/

/-- The instruction does not write the stack pointer. -/
def A64.keepsSp : A64 → Bool
  | .stpPost _ _ n _ | .ldpPost _ _ n _ => n != .sp
  | .addImm d _ _ | .subImm d _ _ | .mov d _ => d != .sp
  | _ => true

theorem keepsSp_exec {i : A64} (h : i.keepsSp = true) (m : Arm) : (i.exec m).sp = m.sp := by
  cases i with
  | stpPost t u n imm =>
      cases n with
      | x k => rfl
      | sp => cases h
  | ldpPost t u n imm =>
      cases n with
      | x k => rfl
      | sp => cases h
  | addImm d n imm =>
      cases d with
      | x k => rfl
      | sp => cases h
  | subImm d n imm =>
      cases d with
      | x k => rfl
      | sp => cases h
  | mov d n =>
      cases d with
      | x k => rfl
      | sp => cases h
  | cbz t k =>
      simp only [A64.exec]
      split_ifs
      · rfl
      · rfl
  | _ => rfl

theorem keepsSp_run {is : List A64} (h : ∀ i ∈ is, i.keepsSp = true) (m : Arm) :
    (run is m).sp = m.sp := by
  induction is generalizing m with
  | nil => rfl
  | cons i is ih =>
      rw [run_cons, ih fun j hj => h j (List.mem_cons_of_mem i hj),
        keepsSp_exec (h i List.mem_cons_self)]

end Base
end ToutOS
