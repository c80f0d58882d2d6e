import ToutOS.Kernel.Uart
import ToutOS.Kernel.Process
import ToutOS.Lib.CircularBuffer

/-!
# Syscall — system calls that store through a pointer of the user

`do_el0_sync` for an `SVC`, `sys_read` and `sys_nanosleep`.  Pointers and lengths come from the
registers of the user program and are used as they are.

* `Mmu` — what a load or a store of the kernel does at an address, under the tables in place; an
  access that it refuses is a data abort at EL1.
* `SvcEnv` — what comes from outside while a call sleeps: the line typed, the ticks.
* `doSvc` — the stores made through a pointer of the user, in order, and how the call ends.
* `svc_stores_inside_iff` — these stores stay inside the writable vmas of the caller in exactly the
  cases in which the buffer named by the registers does.
-/

namespace ToutOS
namespace Kernel

open Base Mm

/-! ## The call -/

/-- `struct pt_regs`, without `sp`, `pc` and `pstate`, which no system call looks at. -/
structure PtRegs where
  regs : Nat → Nat
  origX0 : Nat := 0
  syscallno : Nat := 0

structure Mmu where
  load : Nat → Option UInt8
  storable : Nat → Bool

structure SvcEnv where
  /-- The input buffer when `read_stdin` finds a line in it; `none` while there is no line. -/
  input : Option { u : UartIn // lineReady u = true }
  /-- `get_tick()` when `sys_nanosleep` begins. -/
  tick : Nat
  /-- What `schedule_timeout` and the `get_tick()` after it return, as far as they have returned. -/
  timeouts : List (Int × Nat)

inductive Syscall
  | fork
  | brk
  | exit
  | nanosleep
  | pause
  | read
  | write
  deriving DecidableEq, Repr

inductive SvcOutcome
  | returned (regs : PtRegs)
  | asleep
  | kernelPanic
  /-- A call that stores nothing through a pointer of the user. -/
  | other (f : Syscall)

structure SvcResult where
  /-- The stores through a pointer of the user. -/
  stores : List (Nat × UInt8)
  outcome : SvcOutcome

/-- `regs->regs[0] = x`. -/
def PtRegs.setResult (r : PtRegs) (x : Nat) : PtRegs := { r with regs := Function.update r.regs 0 x }

/-- `MAX_NUM_SYSCALLS`. -/
def maxNumSyscalls : Nat := 64

/-- `syscall_func`. -/
def syscallFunc (n : Nat) : Option Syscall :=
  [Syscall.fork, .brk, .exit, .nanosleep, .pause, .read, .write][n]?

/-- `-1` and `-ENOSYS` in a register. -/
def minusOne : Nat := 2 ^ 64 - 1
def minusEnosys : Nat := 2 ^ 64 - 38

/-- `memcpy` to the pointer `p`, byte after byte; `false` if a store is refused. -/
def storeBytes (mmu : Mmu) : Nat → List UInt8 → List (Nat × UInt8) × Bool
  | _, [] => ([], true)
  | p, b :: rest =>
      if mmu.storable p then
        let (stores, ok) := storeBytes mmu (add64 p 1) rest
        ((p, b) :: stores, ok)
      else ([], false)

/-- The little-endian word of `n` bytes at the pointer `p`, `none` if a load is refused. -/
def loadBytes (mmu : Mmu) : Nat → Nat → Option Nat
  | _, 0 => some 0
  | p, n + 1 =>
      (mmu.load p).bind fun b => (loadBytes mmu (add64 p 1) n).map fun rest => b.toNat + 256 * rest

/-! ## `sys_read` -/

/-- `sys_read`; the file descriptor is an `int`. -/
def sysRead (mmu : Mmu) (env : SvcEnv) (r : PtRegs) : SvcResult :=
  let fd := r.regs 0 % 2 ^ 32
  let buf := r.regs 1
  let count := r.regs 2
  if fd = 0 then
    match env.input with
    | none => { stores := [], outcome := .asleep }
    | some u =>
        match (copyLine u.val count).1 with
        | none => { stores := [], outcome := .returned (r.setResult minusOne) }
        | some line =>
            let (stores, ok) := storeBytes mmu buf line
            { stores := stores
              outcome := if ok then .returned (r.setResult line.length) else .kernelPanic }
  else { stores := [], outcome := .returned (r.setResult minusOne) }

/-! ## `sys_nanosleep` -/

/-- A register or a word of memory as a `long`. -/
def toLong (n : Int) : Int := n.bmod (2 ^ 64)

/-- `timespec_to_jiffies`, with 10 ms to a tick. -/
def timespecToJiffies (tvSec tvNsec : Int) : Nat :=
  let jiffies := toLong (tvSec * 100) +
    (toLong ((tvNsec + 10 * 1000000 - 1) * 100)).tdiv 1000000000
  (jiffies % 2 ^ 32).toNat

/-- The loop of `sys_nanosleep`: whether it is left after the timeouts so far. -/
def nanosleepLoop (endTick : Int) : List (Int × Nat) → Int → Int → Bool
  | timeouts, ret, timeout =>
      if ret ≠ 0 ∧ 0 < timeout then
        match timeouts with
        | [] => false
        | (ret, tick) :: rest => nanosleepLoop endTick rest ret ((endTick - tick).bmod (2 ^ 32))
      else true

/-- `sizeof (struct timespec)`. -/
def sizeofTimespec : Nat := 16

/-- The time asked for at the pointer `req`, in ticks; `none` if a load is refused. -/
def nanosleepTimeout (mmu : Mmu) (req : Nat) : Option Int :=
  (loadBytes mmu req 8).bind fun tvSec =>
    (loadBytes mmu (add64 req 8) 8).map fun tvNsec =>
      Lib.toInt (timespecToJiffies (toLong tvSec) (toLong tvNsec))

/-- The loop has been left; `get_tick` is 64 bits wide and `end_tick` is an `int`. -/
def nanosleepDone (env : SvcEnv) (timeout : Int) : Bool :=
  nanosleepLoop ((timeout + env.tick).bmod (2 ^ 32)) env.timeouts (-1) timeout

/-- `sys_nanosleep`. -/
def sysNanosleep (mmu : Mmu) (env : SvcEnv) (r : PtRegs) : SvcResult :=
  let req := r.regs 0
  let rem := r.regs 1
  match nanosleepTimeout mmu req with
  | none => { stores := [], outcome := .kernelPanic }
  | some timeout =>
      if timeout ≤ 0 then { stores := [], outcome := .returned (r.setResult minusOne) }
      else if nanosleepDone env timeout then
        let (stores, ok) := storeBytes mmu rem (List.replicate sizeofTimespec 0)
        { stores := stores, outcome := if ok then .returned (r.setResult 0) else .kernelPanic }
      else { stores := [], outcome := .asleep }

/-! ## Dispatch -/

/-- `do_el0_sync` for an `SVC`. -/
def doSvc (mmu : Mmu) (env : SvcEnv) (r : PtRegs) : SvcResult :=
  let r := { r with origX0 := r.regs 0, syscallno := r.regs 8 }
  if maxNumSyscalls ≤ r.syscallno then
    { stores := [], outcome := .returned (r.setResult minusEnosys) }
  else
    match syscallFunc r.syscallno with
    | none => { stores := [], outcome := .returned (r.setResult minusEnosys) }
    | some .read => sysRead mmu env r
    | some .nanosleep => sysNanosleep mmu env r
    | some f => { stores := [], outcome := .other f }

/-! ## The tables of the machine -/

/-- The addresses that `add_map` maps for the kernel: devices and memory. -/
def kernelMapped (x : Nat) : Bool := pageOffset ≤ x && x < pageOffset + 5 * 2 ^ 30

/-- The page of a user address is mapped without `PTE_RDONLY`. -/
def userWritable (m : Mem) (pgDir x : Nat) : Bool :=
  let table := [30, 21].foldl (fun table layer =>
    linear true (getPhyAddr (load m (entryAddr table (getPgEntryIndex x layer)) 8))) pgDir
  (userFrame m pgDir x).isSome &&
    !(load m (entryAddr table (getPgEntryIndex x 12)) 8).testBit 7

/-- The MMU with the tables of a task and those of the kernel. -/
def el1Mmu (m : Mem) (pgDir : Nat) : Mmu where
  load x :=
    if x < 2 ^ 39 then (userFrame m pgDir x).map fun a => m (va a + x % pageSize)
    else if kernelMapped x then some (m x) else none
  storable x := if x < 2 ^ 39 then userWritable m pgDir x else kernelMapped x

/-! ## Where the stores go -/

/-- The address lies in a vma of the caller that may be written. -/
def InWritableVma (mmap : List VmArea) (x : Nat) : Prop :=
  ∃ vma ∈ mmap, vma.covers x = true ∧ vma.writable = true

instance (mmap : List VmArea) (x : Nat) : Decidable (InWritableVma mmap x) :=
  inferInstanceAs (Decidable (∃ vma ∈ mmap, _ ∧ _))

/-- `nanosleep`: 16 zero bytes, if the time is positive and has passed. -/
def nanosleepBuffer (mmu : Mmu) (env : SvcEnv) (regs : Nat → Nat) : Option (Nat × List UInt8) :=
  (nanosleepTimeout mmu (regs 0)).bind fun timeout =>
    if 0 < timeout ∧ nanosleepDone env timeout = true then
      some (regs 1, List.replicate sizeofTimespec 0)
    else none

/-- The buffer that a call fills; for a `read` of descriptor 0 a line of input that is not longer
than the count. -/
def userBuffer (mmu : Mmu) (env : SvcEnv) (regs : Nat → Nat) : Option (Nat × List UInt8) :=
  if regs 8 = 5 ∧ regs 0 % 2 ^ 32 = 0 then
    env.input.bind fun u => (copyLine u.val (regs 2)).1.map fun line => (regs 1, line)
  else if regs 8 = 3 then nanosleepBuffer mmu env regs
  else none

/-- Every byte of the buffer lies in a writable vma, up to the first one at which a store is
refused. -/
def BufferInside (mmu : Mmu) (mmap : List VmArea) (p n : Nat) : Prop :=
  ∀ k < n, (∀ j ≤ k, mmu.storable (add64 p j) = true) → InWritableVma mmap (add64 p k)

theorem userBuffer_pointer {mmu : Mmu} {env : SvcEnv} {regs : Nat → Nat} {p : Nat}
    {bytes : List UInt8} (h : userBuffer mmu env regs = some (p, bytes)) : p = regs 1 := by
  simp only [userBuffer] at h
  split_ifs at h
  · obtain ⟨u, -, hline⟩ := Option.bind_eq_some_iff.1 h
    obtain ⟨line, -, heq⟩ := Option.map_eq_some_iff.1 hline
    exact (congrArg Prod.fst heq).symm
  · obtain ⟨timeout, -, heq⟩ := Option.bind_eq_some_iff.1 h
    split_ifs at heq
    exact (congrArg Prod.fst (Option.some.inj heq)).symm

section Stores

variable {mmu : Mmu} {env : SvcEnv} {mmap : List VmArea}

theorem add64_add64 (p j : Nat) : add64 (add64 p 1) j = add64 p (j + 1) := by
  simp only [add64]
  omega

theorem storeBytes_inside_iff {bytes : List UInt8} :
    ∀ {p : Nat}, p < 2 ^ 64 →
      ((∀ w ∈ (storeBytes mmu p bytes).1, InWritableVma mmap w.1) ↔
        BufferInside mmu mmap p bytes.length) := by
  induction bytes with
  | nil =>
      intro p _
      simp [storeBytes, BufferInside]
  | cons b bytes ih =>
      intro p hp
      have hp₀ : add64 p 0 = p := Nat.mod_eq_of_lt hp
      have hp₁ : add64 p 1 < 2 ^ 64 := Nat.mod_lt _ (by decide)
      rw [storeBytes]
      split_ifs with hstore
      · simp only [List.forall_mem_cons, ih hp₁, BufferInside, List.length_cons]
        constructor
        · rintro ⟨hhead, hrest⟩ k hk hall
          cases k with
          | zero => rwa [hp₀]
          | succ k =>
              rw [← add64_add64]
              refine hrest k (by omega) fun j hj => ?_
              rw [add64_add64]
              exact hall (j + 1) (by omega)
        · intro hall
          refine ⟨?_, fun k hk hrest => ?_⟩
          · have h₀ := hall 0 (by omega) fun j hj => by rwa [Nat.le_zero.1 hj, hp₀]
            rwa [hp₀] at h₀
          · rw [add64_add64]
            refine hall (k + 1) (by omega) fun j hj => ?_
            cases j with
            | zero => rwa [hp₀]
            | succ j =>
                rw [← add64_add64]
                exact hrest j (by omega)
      · -- the first store is refused
        refine iff_of_true (by simp) fun k _ hall => absurd ?_ hstore
        rw [← hp₀]
        exact hall 0 (Nat.zero_le k)

/-- Only entries 5 and 3 of the table store through a pointer of the user. -/
theorem syscallFunc_read_iff (n : Nat) : syscallFunc n = some .read ↔ n = 5 := by
  match n with
  | 0 | 1 | 2 | 3 | 4 | 5 | 6 => decide
  | n + 7 => simp [syscallFunc]

theorem syscallFunc_nanosleep_iff (n : Nat) : syscallFunc n = some .nanosleep ↔ n = 3 := by
  match n with
  | 0 | 1 | 2 | 3 | 4 | 5 | 6 => decide
  | n + 7 => simp [syscallFunc]

theorem sysRead_stores (r : PtRegs) :
    (sysRead mmu env r).stores =
      if r.regs 0 % 2 ^ 32 = 0 then
        match env.input.bind fun u => (copyLine u.val (r.regs 2)).1 with
        | none => []
        | some line => (storeBytes mmu (r.regs 1) line).1
      else [] := by
  simp only [sysRead]
  split_ifs
  · cases env.input with
    | none => rfl
    | some u =>
        simp only [Option.bind_some]
        cases (copyLine u.val (r.regs 2)).1 <;> rfl
  · rfl

theorem sysNanosleep_stores (r : PtRegs) :
    (sysNanosleep mmu env r).stores =
      match nanosleepBuffer mmu env r.regs with
      | none => []
      | some (p, bytes) => (storeBytes mmu p bytes).1 := by
  simp only [sysNanosleep, nanosleepBuffer]
  cases nanosleepTimeout mmu (r.regs 0) with
  | none => rfl
  | some timeout =>
      simp only [Option.bind_some]
      by_cases htime : timeout ≤ 0
      · rw [if_pos htime, if_neg fun h => absurd h.1 (Int.not_lt.2 htime)]
      · by_cases hdone : nanosleepDone env timeout = true
        · have hboth : 0 < timeout ∧ nanosleepDone env timeout = true := ⟨Int.not_le.1 htime, hdone⟩
          rw [if_neg htime, if_pos hdone, if_pos hboth]
        · rw [if_neg htime, if_neg hdone, if_neg fun h => hdone h.2]

/-- The call that entry `f` of the table makes. -/
theorem doSvc_of_syscallFunc {f : Syscall} (r : PtRegs) (h : syscallFunc (r.regs 8) = some f) :
    doSvc mmu env r =
      match f with
      | .read => sysRead mmu env { r with origX0 := r.regs 0, syscallno := r.regs 8 }
      | .nanosleep => sysNanosleep mmu env { r with origX0 := r.regs 0, syscallno := r.regs 8 }
      | f => { stores := [], outcome := .other f } := by
  have hlt : r.regs 8 < 7 := (List.getElem?_eq_some_iff.1 h).1
  have hmax : ¬maxNumSyscalls ≤ r.regs 8 := by
    rw [maxNumSyscalls]
    omega
  simp only [doSvc, if_neg hmax, h]
  cases f <;> rfl

theorem doSvc_of_none (r : PtRegs) (h : syscallFunc (r.regs 8) = none) :
    (doSvc mmu env r).stores = [] := by
  simp only [doSvc, h]
  split_ifs <;> rfl

/-- The stores of a system call are those into its buffer. -/
theorem doSvc_stores (mmu : Mmu) (env : SvcEnv) (r : PtRegs) :
    (doSvc mmu env r).stores =
      match userBuffer mmu env r.regs with
      | none => []
      | some (p, bytes) => (storeBytes mmu p bytes).1 := by
  by_cases hread : r.regs 8 = 5
  · rw [doSvc_of_syscallFunc r ((syscallFunc_read_iff _).2 hread)]
    simp only [sysRead_stores, userBuffer]
    by_cases hfd : r.regs 0 % 2 ^ 32 = 0
    · rw [if_pos hfd, if_pos ⟨hread, hfd⟩]
      cases env.input with
      | none => rfl
      | some u =>
          simp only [Option.bind_some]
          cases (copyLine u.val (r.regs 2)).1 <;> rfl
    · have hnano : ¬r.regs 8 = 3 := by omega
      rw [if_neg hfd, if_neg fun h => hfd h.2, if_neg hnano]
  · by_cases hnano : r.regs 8 = 3
    · rw [doSvc_of_syscallFunc r ((syscallFunc_nanosleep_iff _).2 hnano), userBuffer,
        if_neg fun h => hread h.1, if_pos hnano]
      exact sysNanosleep_stores _
    · -- every other call
      have hbuf : userBuffer mmu env r.regs = none := by
        rw [userBuffer, if_neg fun h => hread h.1, if_neg hnano]
      rw [hbuf]
      cases hfun : syscallFunc (r.regs 8) with
      | none => exact doSvc_of_none r hfun
      | some f =>
          rw [doSvc_of_syscallFunc r hfun]
          cases f with
          | read => exact absurd ((syscallFunc_read_iff _).1 hfun) hread
          | nanosleep => exact absurd ((syscallFunc_nanosleep_iff _).1 hfun) hnano
          | _ => rfl

/-- For all registers: every address that the kernel stores to through a pointer of the user lies in
a vma of the caller that may be written, if and only if the buffer of the call does, as far as it can
be stored to. -/
theorem svc_stores_inside_iff (mmu : Mmu) (env : SvcEnv) (mmap : List VmArea) (r : PtRegs)
    (hregs : ∀ i, r.regs i < 2 ^ 64) :
    (∀ w ∈ (doSvc mmu env r).stores, InWritableVma mmap w.1) ↔
      ∀ p bytes, userBuffer mmu env r.regs = some (p, bytes) → BufferInside mmu mmap p bytes.length := by
  rw [doSvc_stores]
  cases hbuf : userBuffer mmu env r.regs with
  | none => simp
  | some buf =>
      obtain ⟨p, bytes⟩ := buf
      have hp : p < 2 ^ 64 := by
        have := userBuffer_pointer hbuf
        rw [this]
        exact hregs 1
      simp only [storeBytes_inside_iff hp, Option.some.injEq, Prod.mk.injEq]
      constructor
      · rintro h q bs ⟨rfl, rfl⟩
        exact h
      · intro h
        exact h p bytes ⟨rfl, rfl⟩

end Stores

/-! ## Two calls of `read` -/

/-- The stack of a user program. -/
def stackVma : VmArea :=
  { self := 1, vmStart := userStackStart, vmEnd := userStackStart + userStackSize,
    vmFlags := vmRead ||| vmWrite, lma := noLma, pagesBlockList := [] }

/-- `read(0, buf, 256)`. -/
def readRegs (buf : Nat) : PtRegs :=
  { regs := fun i => if i = 8 then 5 else if i = 2 then 256 else if i = 1 then buf else 0 }

/-- An empty line has been typed. -/
def emptyLine : SvcEnv :=
  { input := some ⟨{ uartInBuf := fun _ => charNewline, uibIndex := 1 }, by decide⟩
    tick := 0
    timeouts := [] }

theorem svc_stores_inside_stack :
    userBuffer { load := fun _ => none, storable := fun _ => true } emptyLine
        (readRegs (userStackStart + 16)).regs = some (userStackStart + 16, [charNewline]) ∧
      ∀ w ∈ (doSvc { load := fun _ => none, storable := fun _ => true } emptyLine
        (readRegs (userStackStart + 16))).stores, InWritableVma [stackVma] w.1 := by
  have hline : userBuffer { load := fun _ => none, storable := fun _ => true } emptyLine
      (readRegs (userStackStart + 16)).regs = some (userStackStart + 16, [charNewline]) := by
    decide
  refine ⟨hline, (svc_stores_inside_iff _ emptyLine [stackVma] (readRegs (userStackStart + 16)) ?_).2 ?_⟩
  · intro i
    simp only [readRegs]
    split_ifs <;> decide
  · intro p bytes hbuf
    rw [hline] at hbuf
    obtain ⟨rfl, rfl⟩ := Prod.mk.injEq .. ▸ Option.some.inj hbuf
    intro k hk _
    have hk₀ : k = 0 := by simpa using hk
    subst hk₀
    decide

/-- `read` with the address of the task table as its buffer. -/
theorem svc_read_into_kernel :
    ∃ w ∈ (doSvc (el1Mmu (fun _ => 0) pagePoolStart) emptyLine (readRegs sampleImage.tasks)).stores,
      w = (sampleImage.tasks, charNewline) ∧ pageOffset ≤ w.1 ∧ ¬InWritableVma [stackVma] w.1 := by
  refine ⟨(sampleImage.tasks, charNewline), ?_, rfl, by decide, by decide⟩
  decide +kernel

end Kernel
end ToutOS
