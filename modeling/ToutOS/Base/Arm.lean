import Mathlib.Data.List.Basic
import Mathlib.Logic.Function.Basic
import ToutOS.Base.ByteMem

/-!
# Arm — A64 code that saves and restores registers

The instructions that entry code, exit code and context switches of a kernel are made of, executed at
EL1 with the stack pointer `SP_EL1`.

* `Arm`, `A64`, `A64.exec`, `run` — the machine, one instruction, a block;
* `takeException` — what the processor does when it takes an exception to EL1;
* `storeWords`, `loadRegs` — the effect of a sequence of `stp` and of `ldp`, and the rules by which a
  block of them is executed at once (`run_stps`, `run_ldps`, `run_stpsPost`, `run_ldpsPost`).
-/

namespace ToutOS
namespace Base

/-! ## The machine -/

abbrev Word := BitVec 64

inductive SysReg
  | spEl0
  | elrEl1
  | spsrEl1
  | esrEl1
  | farEl1
  deriving DecidableEq, Repr

/-- Numbers stand for registers. -/
instance neZeroRegisters : NeZero 31 := ⟨by decide⟩

/-- The registers of a CPU; `sp` is `SP_EL1`. -/
structure ArmRegs where
  x : Fin 31 → Word
  sp : Word
  sys : SysReg → Word
  pc : Word
  pstate : Word

structure Arm extends ArmRegs where
  mem : Mem

/-- A register operand. -/
inductive Reg
  | x (n : Fin 31)
  | sp
  deriving DecidableEq, Repr

inductive A64
  /-- `stp t, u, [n, #imm]` -/
  | stp (t u : Fin 31) (n : Reg) (imm : Nat)
  /-- `stp t, u, [n], #imm` -/
  | stpPost (t u : Fin 31) (n : Reg) (imm : Nat)
  | str (t : Fin 31) (n : Reg) (imm : Nat)
  /-- `ldp t, u, [n, #imm]` -/
  | ldp (t u : Fin 31) (n : Reg) (imm : Nat)
  /-- `ldp t, u, [n], #imm` -/
  | ldpPost (t u : Fin 31) (n : Reg) (imm : Nat)
  | ldr (t : Fin 31) (n : Reg) (imm : Nat)
  | addImm (d n : Reg) (imm : Nat)
  | subImm (d n : Reg) (imm : Nat)
  | add (d n m : Fin 31)
  | movImm (d : Fin 31) (imm : Nat)
  | mov (d n : Reg)
  /-- `and d, n, #~mask` -/
  | bic (d n : Fin 31) (mask : Word)
  | mrs (t : Fin 31) (r : SysReg)
  | msr (r : SysReg) (t : Fin 31)
  /-- `msr daifset, #2` -/
  | daifSet
  /-- `msr daifclr, #2` -/
  | daifClr
  | b (target : Word)
  | bl (target : Word)
  | blr (n : Fin 31)
  /-- `cbz t, #skip`, `skip` instructions further on. -/
  | cbz (t : Fin 31) (skip : Nat)
  | ret
  | eret
  deriving DecidableEq, Repr

/-- The link register. -/
def lr : Fin 31 := 30

def loadWord (m : Mem) (a : Nat) : Word := BitVec.ofNat 64 (load m a 8)

def storeWord (m : Mem) (a : Nat) (v : Word) : Mem := store m a 8 v.toNat

/-- `PSTATE.I`. -/
def irqBit : Word := 0x80

/-- `PSTATE.M`: 0 is EL0t. -/
def modeMask : Word := 0xF

def ArmRegs.get (r : ArmRegs) : Reg → Word
  | .x n => r.x n
  | .sp => r.sp

def ArmRegs.set (r : ArmRegs) : Reg → Word → ArmRegs
  | .x n, v => { r with x := Function.update r.x n v }
  | .sp, v => { r with sp := v }

/-- `k` instructions further on. -/
def ArmRegs.skip (r : ArmRegs) (k : Nat) : ArmRegs := { r with pc := r.pc + BitVec.ofNat 64 (4 * k) }

/-- The next instruction. -/
def ArmRegs.next (r : ArmRegs) : ArmRegs := r.skip 1

/-- `PSTATE.I` is set: no interrupt is taken. -/
def ArmRegs.masked (r : ArmRegs) : Bool := r.pstate &&& irqBit != 0

/-- The CPU is at EL0. -/
def ArmRegs.user (r : ArmRegs) : Bool := r.pstate &&& modeMask == 0

theorem ArmRegs.user_congr {r r' : ArmRegs} (h : r'.pstate = r.pstate) : r'.user = r.user := by
  rw [user, user, h]

/-- The address of an operand. -/
def ArmRegs.addr (r : ArmRegs) (n : Reg) (imm : Nat) : Nat := (r.get n + BitVec.ofNat 64 imm).toNat

def Arm.setRegs (m : Arm) (r : ArmRegs) : Arm := { m with toArmRegs := r }

def A64.exec (m : Arm) : A64 → Arm
  | .stp t u n imm =>
      { m.setRegs m.next with
        mem := storeWord (storeWord m.mem (m.addr n imm) (m.x t)) (m.addr n imm + 8) (m.x u) }
  | .stpPost t u n imm =>
      { m.setRegs (m.set n (m.get n + BitVec.ofNat 64 imm)).next with
        mem := storeWord (storeWord m.mem (m.addr n 0) (m.x t)) (m.addr n 0 + 8) (m.x u) }
  | .str t n imm => { m.setRegs m.next with mem := storeWord m.mem (m.addr n imm) (m.x t) }
  | .ldp t u n imm =>
      let r := m.set (.x t) (loadWord m.mem (m.addr n imm))
      m.setRegs (r.set (.x u) (loadWord m.mem (m.addr n imm + 8))).next
  | .ldpPost t u n imm =>
      let r := m.set (.x t) (loadWord m.mem (m.addr n 0))
      let r := r.set (.x u) (loadWord m.mem (m.addr n 0 + 8))
      m.setRegs (r.set n (m.get n + BitVec.ofNat 64 imm)).next
  | .ldr t n imm => m.setRegs (m.set (.x t) (loadWord m.mem (m.addr n imm))).next
  | .addImm d n imm => m.setRegs (m.set d (m.get n + BitVec.ofNat 64 imm)).next
  | .subImm d n imm => m.setRegs (m.set d (m.get n - BitVec.ofNat 64 imm)).next
  | .add d n k => m.setRegs (m.set (.x d) (m.x n + m.x k)).next
  | .movImm d imm => m.setRegs (m.set (.x d) (BitVec.ofNat 64 imm)).next
  | .mov d n => m.setRegs (m.set d (m.get n)).next
  | .bic d n mask => m.setRegs (m.set (.x d) (m.x n &&& ~~~mask)).next
  | .mrs t r => m.setRegs (m.set (.x t) (m.sys r)).next
  | .msr r t => m.setRegs { m.next with sys := Function.update m.sys r (m.x t) }
  | .daifSet => m.setRegs { m.next with pstate := m.pstate ||| irqBit }
  | .daifClr => m.setRegs { m.next with pstate := m.pstate &&& ~~~irqBit }
  | .b target => m.setRegs { m.toArmRegs with pc := target }
  | .bl target => m.setRegs { m.set (.x lr) (m.pc + 4) with pc := target }
  | .blr n => m.setRegs { m.set (.x lr) (m.pc + 4) with pc := m.x n }
  | .cbz t skip =>
      if m.x t = 0 then m.setRegs (m.skip skip) else m.setRegs m.next
  | .ret => m.setRegs { m.toArmRegs with pc := m.x lr }
  | .eret => m.setRegs { m.toArmRegs with pc := m.sys .elrEl1, pstate := m.sys .spsrEl1 }

/-- A block of code, executed from its first instruction to its last. -/
def run (is : List A64) (m : Arm) : Arm := is.foldl A64.exec m

/-- `PSTATE` after an exception has been taken to EL1h: the flags are kept, `D`, `A`, `I` and `F` are
set. -/
def exceptionPstate (pstate : Word) : Word := (pstate &&& 0xF0000000) ||| 0x3C5

/-- The CPU takes an exception: an interrupt, an `svc` or an abort. -/
def takeException (vector : Word) (r : ArmRegs) : ArmRegs :=
  { r with
    sys := Function.update (Function.update r.sys .elrEl1 r.pc) .spsrEl1 r.pstate
    pc := vector
    pstate := exceptionPstate r.pstate }

/-! ## Words of memory -/

/-- `stp` after `stp`: the words from `a` on. -/
def storeWords (m : Mem) (a : Nat) : List Word → Mem
  | [] => m
  | v :: vs => storeWords (storeWord m a v) (a + 8) vs

/-- `ldp` after `ldp`: the registers, one after the other, from the words from `a` on. -/
def loadRegs (m : Mem) (a : Nat) (x : Fin 31 → Word) : List (Fin 31) → Fin 31 → Word
  | [] => x
  | t :: ts => loadRegs m (a + 8) (Function.update x t (loadWord m a)) ts

theorem loadWord_congr {m m' : Mem} {a : Nat} (h : ∀ y, a ≤ y → y < a + 8 → m' y = m y) :
    loadWord m' a = loadWord m a := by
  rw [loadWord, loadWord, load_congr h]

theorem loadWord_storeWord_same (m : Mem) (a : Nat) (v : Word) :
    loadWord (storeWord m a v) a = v := by
  rw [loadWord, storeWord, load_store_same (by simpa using v.isLt), BitVec.ofNat_toNat,
    BitVec.setWidth_eq]

theorem storeWord_apply {m : Mem} {a y : Nat} {v : Word} (h : y < a ∨ a + 8 ≤ y) :
    storeWord m a v y = m y := by
  rcases h with h | h
  · exact store_apply_of_lt h
  · exact store_apply_of_ge h

theorem loadWord_storeWord_ne {m : Mem} {a b : Nat} {v : Word} (h : b + 8 ≤ a ∨ a + 8 ≤ b) :
    loadWord (storeWord m a v) b = loadWord m b :=
  loadWord_congr fun y _ _ => storeWord_apply (by omega)

/-- The bytes around the words are kept. -/
theorem storeWords_apply {m : Mem} {a y : Nat} {vs : List Word}
    (h : y < a ∨ a + 8 * vs.length ≤ y) : storeWords m a vs y = m y := by
  induction vs generalizing m a with
  | nil => rfl
  | cons v vs ih =>
      simp only [List.length_cons] at h
      rw [storeWords, ih (by omega), storeWord_apply (by omega)]

theorem loadWord_storeWords {m : Mem} {a i : Nat} {vs : List Word} (h : i < vs.length) :
    loadWord (storeWords m a vs) (a + 8 * i) = vs[i] := by
  induction vs generalizing m a i with
  | nil => simp at h
  | cons v vs ih =>
      cases i with
      | zero =>
          rw [storeWords, Nat.mul_zero, Nat.add_zero]
          calc loadWord (storeWords (storeWord m a v) (a + 8) vs) a
              = loadWord (storeWord m a v) a :=
                loadWord_congr fun y _ h₂ => storeWords_apply (.inl h₂)
            _ = v := loadWord_storeWord_same m a v
      | succ i =>
          have haddr : a + 8 * (i + 1) = a + 8 + 8 * i := by omega
          simp only [List.length_cons, Nat.add_lt_add_iff_right] at h
          rw [storeWords, haddr, ih h, List.getElem_cons_succ]

theorem storeWords_append (m : Mem) (a : Nat) (vs ws : List Word) :
    storeWords m a (vs ++ ws) = storeWords (storeWords m a vs) (a + 8 * vs.length) ws := by
  induction vs generalizing m a with
  | nil => rfl
  | cons v vs ih =>
      have haddr : a + 8 + 8 * vs.length = a + 8 * (vs.length + 1) := by omega
      rw [List.cons_append, storeWords, storeWords, ih, haddr, List.length_cons]

/-- A register that is not loaded keeps its value. -/
theorem loadRegs_of_notMem {m : Mem} {a : Nat} {x : Fin 31 → Word} {ts : List (Fin 31)} {k : Fin 31}
    (h : k ∉ ts) : loadRegs m a x ts k = x k := by
  induction ts generalizing a x with
  | nil => rfl
  | cons t ts ih =>
      simp only [List.mem_cons, not_or] at h
      rw [loadRegs, ih h.2, Function.update_of_ne h.1]

/-- The `i`-th of the registers gets the `i`-th word. -/
theorem loadRegs_getElem {m : Mem} {a i : Nat} {x : Fin 31 → Word} {ts : List (Fin 31)}
    (hnodup : ts.Nodup) (h : i < ts.length) :
    loadRegs m a x ts ts[i] = loadWord m (a + 8 * i) := by
  induction ts generalizing a i x with
  | nil => simp at h
  | cons t ts ih =>
      rw [List.nodup_cons] at hnodup
      cases i with
      | zero =>
          rw [loadRegs, List.getElem_cons_zero, loadRegs_of_notMem hnodup.1, Function.update_self]
          rfl
      | succ i =>
          have haddr : a + 8 * (i + 1) = a + 8 + 8 * i := by omega
          simp only [List.length_cons, Nat.add_lt_add_iff_right] at h
          rw [loadRegs, List.getElem_cons_succ, ih hnodup.2 h, haddr]

/-- A register that is not loaded may be set before. -/
theorem loadRegs_update {m : Mem} {a : Nat} {x : Fin 31 → Word} {ts : List (Fin 31)} {k : Fin 31}
    {v : Word} (h : k ∉ ts) :
    loadRegs m a (Function.update x k v) ts = Function.update (loadRegs m a x ts) k v := by
  induction ts generalizing a x with
  | nil => rfl
  | cons t ts ih =>
      simp only [List.mem_cons, not_or] at h
      rw [loadRegs, loadRegs, Function.update_comm h.1, ih h.2]

/-! ## Blocks -/

variable {m : Arm} {n : Reg} {imm : Nat}

@[simp] theorem run_nil : run [] m = m := rfl

@[simp] theorem run_cons (i : A64) (is : List A64) : run (i :: is) m = run is (i.exec m) := rfl

theorem run_append (is js : List A64) : run (is ++ js) m = run js (run is m) :=
  List.foldl_append

theorem skip_skip (r : ArmRegs) (j k : Nat) : (r.skip j).skip k = r.skip (j + k) := by
  simp only [ArmRegs.skip, Nat.mul_add, BitVec.ofNat_add, BitVec.add_assoc]

theorem skip_zero (r : ArmRegs) : r.skip 0 = r := by
  simp [ArmRegs.skip]

@[simp] theorem next_get (r : ArmRegs) (n : Reg) : r.next.get n = r.get n := by
  cases n <;> rfl

/-- An address that does not wrap around. -/
theorem addr_eq {r : ArmRegs} (h : (r.get n).toNat + imm < 2 ^ 64) :
    r.addr n imm = (r.get n).toNat + imm := by
  have himm : (BitVec.ofNat 64 imm).toNat = imm := by
    rw [BitVec.toNat_ofNat, Nat.mod_eq_of_lt (by omega)]
  rw [ArmRegs.addr, BitVec.toNat_add_of_lt (by omega), himm]

theorem bump_toNat (v : Word) {k : Nat} (h : v.toNat + k < 2 ^ 64) :
    (v + BitVec.ofNat 64 k).toNat = v.toNat + k :=
  @addr_eq (.x 0) k { x := fun _ => v, sp := 0, sys := fun _ => 0, pc := 0, pstate := 0 } h

theorem mul_succ_offset (v : Word) (j k : Nat) :
    v + BitVec.ofNat 64 (j * (k + 1)) = v + BitVec.ofNat 64 j + BitVec.ofNat 64 (j * k) := by
  rw [Nat.mul_succ, Nat.add_comm, BitVec.ofNat_add, BitVec.add_assoc]

/-- The registers of a list of pairs, in order. -/
def pairs (ps : List (Fin 31 × Fin 31)) : List (Fin 31) := ps.flatMap fun p => [p.1, p.2]

theorem pairs_cons (t u : Fin 31) (ps : List (Fin 31 × Fin 31)) :
    pairs ((t, u) :: ps) = t :: u :: pairs ps := rfl

theorem pairs_length (ps : List (Fin 31 × Fin 31)) : (pairs ps).length = 2 * ps.length := by
  induction ps with
  | nil => rfl
  | cons p ps ih =>
      rw [pairs_cons, List.length_cons, List.length_cons, ih, List.length_cons]
      omega

/-- `stp t, u, [n, #imm]`, `stp .., [n, #imm + 16]` and so on. -/
def stps (n : Reg) (imm : Nat) : List (Fin 31 × Fin 31) → List A64
  | [] => []
  | (t, u) :: ps => .stp t u n imm :: stps n (imm + 16) ps

/-- `ldp t, u, [n, #imm]`, `ldp .., [n, #imm + 16]` and so on. -/
def ldps (n : Reg) (imm : Nat) : List (Fin 31 × Fin 31) → List A64
  | [] => []
  | (t, u) :: ps => .ldp t u n imm :: ldps n (imm + 16) ps

/-- A sequence of stores below one base register. -/
theorem run_stps {ps : List (Fin 31 × Fin 31)}
    (h : (m.get n).toNat + imm + 16 * ps.length ≤ 2 ^ 64) :
    run (stps n imm ps) m =
      { m.setRegs (m.skip ps.length) with
        mem := storeWords m.mem ((m.get n).toNat + imm) ((pairs ps).map m.x) } := by
  induction ps generalizing m imm with
  | nil =>
      rw [List.length_nil, skip_zero]
      rfl
  | cons p ps ih =>
      obtain ⟨t, u⟩ := p
      simp only [List.length_cons] at h
      have haddr := @addr_eq n imm m.toArmRegs (by omega)
      have hget : (A64.exec m (.stp t u n imm)).get n = m.get n := next_get m.toArmRegs n
      have hrest := @ih (A64.exec m (.stp t u n imm)) (imm + 16) (by rw [hget]; omega)
      have hskip := skip_skip m.toArmRegs 1 ps.length
      rw [stps, run_cons, hrest, hget, pairs_cons, List.map_cons, List.map_cons, storeWords, storeWords]
      simp only [A64.exec, Arm.setRegs, haddr, ArmRegs.next, hskip, List.length_cons,
        Nat.add_comm ps.length 1, Nat.add_assoc, Nat.reduceAdd]
      rfl

/-- A sequence of loads from one base register, which is not one of those loaded. -/
theorem run_ldps {ps : List (Fin 31 × Fin 31)}
    (h : (m.get n).toNat + imm + 16 * ps.length ≤ 2 ^ 64) (hn : ∀ t ∈ pairs ps, n ≠ .x t) :
    run (ldps n imm ps) m =
      m.setRegs { m.skip ps.length with
        x := loadRegs m.mem ((m.get n).toNat + imm) m.x (pairs ps) } := by
  induction ps generalizing m imm with
  | nil =>
      rw [List.length_nil, skip_zero]
      rfl
  | cons p ps ih =>
      obtain ⟨t, u⟩ := p
      simp only [List.length_cons] at h
      rw [pairs_cons] at hn
      have haddr := @addr_eq n imm m.toArmRegs (by omega)
      have hget : (A64.exec m (.ldp t u n imm)).get n = m.get n := by
        cases n with
        | sp => rfl
        | x k =>
            have ht : k ≠ t := fun he => hn t (by simp) (by rw [he])
            have hu : k ≠ u := fun he => hn u (by simp) (by rw [he])
            simp [A64.exec, Arm.setRegs, ArmRegs.next, ArmRegs.skip, ArmRegs.get, ArmRegs.set, ht, hu]
      have hrest := @ih (A64.exec m (.ldp t u n imm)) (imm + 16) (by rw [hget]; omega)
        fun k hk => hn k (List.mem_cons_of_mem _ (List.mem_cons_of_mem _ hk))
      have hpc := congrArg ArmRegs.pc (skip_skip m.toArmRegs 1 ps.length)
      rw [ldps, run_cons, hrest, hget, pairs_cons, loadRegs, loadRegs]
      simp only [A64.exec, Arm.setRegs, ArmRegs.set, haddr, ArmRegs.next, ArmRegs.skip,
        List.length_cons, Nat.add_comm ps.length 1, Nat.add_assoc, Nat.reduceAdd] at hpc ⊢
      rw [hpc]

/-- `stp t, u, [n], #16` for each of the pairs. -/
def stpsPost (n : Reg) (ps : List (Fin 31 × Fin 31)) : List A64 :=
  ps.map fun p => .stpPost p.1 p.2 n 16

/-- `ldp t, u, [n], #16` for each of the pairs. -/
def ldpsPost (n : Reg) (ps : List (Fin 31 × Fin 31)) : List A64 :=
  ps.map fun p => .ldpPost p.1 p.2 n 16

/-- A sequence of stores through a pointer in `k`, which is not one of the registers stored. -/
theorem run_stpsPost {ps : List (Fin 31 × Fin 31)} {k : Fin 31}
    (h : (m.x k).toNat + 16 * ps.length < 2 ^ 64) (hn : k ∉ pairs ps) :
    run (stpsPost (.x k) ps) m =
      { m.setRegs { m.skip ps.length with
          x := Function.update m.x k (m.x k + BitVec.ofNat 64 (16 * ps.length)) } with
        mem := storeWords m.mem (m.x k).toNat ((pairs ps).map m.x) } := by
  induction ps generalizing m with
  | nil =>
      have hpc : m.pc + BitVec.ofNat 64 (4 * 0) = m.pc := by simp
      simp only [stpsPost, List.map_nil, run_nil, List.length_nil, Nat.mul_zero,
        BitVec.add_zero, Function.update_eq_self, Arm.setRegs, ArmRegs.skip, hpc]
      rfl
  | cons p ps ih =>
      obtain ⟨t, u⟩ := p
      rw [pairs_cons] at hn
      simp only [List.mem_cons, not_or] at hn
      simp only [List.length_cons] at h
      obtain ⟨ht, hu, hrest⟩ := hn
      have hbump := bump_toNat (m.x k) (k := 16) (by omega)
      have hx : (A64.exec m (.stpPost t u (.x k) 16)).x =
          Function.update m.x k (m.x k + BitVec.ofNat 64 16) := rfl
      have hxk := congrFun hx k
      rw [Function.update_self] at hxk
      have hstored : (pairs ps).map (A64.exec m (.stpPost t u (.x k) 16)).x = (pairs ps).map m.x :=
        List.map_congr_left fun r hr => by
          have hne : r ≠ k := fun he => hrest (by rwa [he] at hr)
          rw [hx, Function.update_of_ne hne]
      rw [stpsPost, List.map_cons, run_cons, ← stpsPost,
        ih (by rw [hxk, hbump]; omega) hrest, hxk, hbump, hstored, pairs_cons, List.map_cons,
        List.map_cons, storeWords, storeWords, List.length_cons, mul_succ_offset]
      have hpc := congrArg ArmRegs.pc (skip_skip m.toArmRegs 1 ps.length)
      simp only [A64.exec, Arm.setRegs, ArmRegs.set, ArmRegs.get, ArmRegs.next, ArmRegs.skip,
        ArmRegs.addr, BitVec.add_zero, Function.update_idem, Nat.add_comm ps.length 1,
        BitVec.add_assoc] at hpc ⊢
      rw [hpc]

/-- A sequence of loads through a pointer in `k`, which is not one of the registers loaded. -/
theorem run_ldpsPost {ps : List (Fin 31 × Fin 31)} {k : Fin 31}
    (h : (m.x k).toNat + 16 * ps.length < 2 ^ 64) (hn : k ∉ pairs ps) :
    run (ldpsPost (.x k) ps) m =
      m.setRegs { m.skip ps.length with
        x := Function.update (loadRegs m.mem (m.x k).toNat m.x (pairs ps)) k
          (m.x k + BitVec.ofNat 64 (16 * ps.length)) } := by
  induction ps generalizing m with
  | nil =>
      have hpc : m.pc + BitVec.ofNat 64 (4 * 0) = m.pc := by simp
      have hloads : loadRegs m.mem (m.x k).toNat m.x (pairs []) = m.x := rfl
      simp only [ldpsPost, List.map_nil, run_nil, List.length_nil, Nat.mul_zero, hloads,
        BitVec.add_zero, Function.update_eq_self, Arm.setRegs, ArmRegs.skip, hpc]
  | cons p ps ih =>
      obtain ⟨t, u⟩ := p
      rw [pairs_cons] at hn
      simp only [List.mem_cons, not_or] at hn
      simp only [List.length_cons] at h
      obtain ⟨ht, hu, hrest⟩ := hn
      have hbump := bump_toNat (m.x k) (k := 16) (by omega)
      have hx : (A64.exec m (.ldpPost t u (.x k) 16)).x =
          Function.update (Function.update (Function.update m.x t (loadWord m.mem (m.x k).toNat)) u
            (loadWord m.mem ((m.x k).toNat + 8))) k (m.x k + BitVec.ofNat 64 16) := by
        simp [A64.exec, Arm.setRegs, ArmRegs.set, ArmRegs.get, ArmRegs.next, ArmRegs.skip, ArmRegs.addr]
      have hxk := congrFun hx k
      rw [Function.update_self] at hxk
      have hmem : (A64.exec m (.ldpPost t u (.x k) 16)).mem = m.mem := rfl
      rw [ldpsPost, List.map_cons, run_cons, ← ldpsPost,
        ih (by rw [hxk, hbump]; omega) hrest, hxk, hbump, hmem, hx, loadRegs_update hrest,
        Function.update_idem, pairs_cons, loadRegs, loadRegs, List.length_cons, mul_succ_offset]
      have hpc := congrArg ArmRegs.pc (skip_skip m.toArmRegs 1 ps.length)
      simp only [A64.exec, Arm.setRegs, ArmRegs.set, ArmRegs.next, ArmRegs.skip,
        Nat.add_comm ps.length 1] at hpc ⊢
      rw [hpc]


end Base
end ToutOS
