import Mathlib.Data.Fintype.Sum
import ToutOS.Kernel.Entry
import ToutOS.Kernel.Identity
import ToutOS.Kernel.Switch

/-!
# Threads — register contents over whole runs

Every CPU executes a thread: a task of the table or a swapper.  Exceptions, `cpu_switch_to`, the first
instructions of a new thread and the way back to an interrupted one are the code of `irq.S`; the C
code and the user programs between them change registers and memory as they like, as long as they
leave the saved registers of every thread alone.

* `Placement` — where the records and the stacks of the threads lie;
* `Cores`, `threadsStep` — the machine.  What each thread has been interrupted in and with which
  context it was left is kept as history;
* `ThreadsInv`, `threadsRun_inv` — memory holds what the history says, in every state that can be
  reached.
-/

namespace ToutOS
namespace Kernel

open Base

/-! ## Threads and their memory -/

/-- The `task_struct`s and the kernel stacks of the threads, all in places of their own. -/
structure Placement (T : Type) where
  record : T → Nat
  stack : T → Nat
  record_le : ∀ t, record t + sizeofTaskStruct ≤ 2 ^ 64
  stack_le : ∀ t, stack t + kernelStackSize < 2 ^ 64
  stack_dvd : ∀ t, kernelStackSize ∣ stack t
  records_apart : ∀ t u, t ≠ u →
    record t + sizeofTaskStruct ≤ record u ∨ record u + sizeofTaskStruct ≤ record t
  stacks_apart : ∀ t u, t ≠ u →
    stack t + kernelStackSize ≤ stack u ∨ stack u + kernelStackSize ≤ stack t
  apart : ∀ t u, record t + sizeofTaskStruct ≤ stack u ∨ stack u + kernelStackSize ≤ record t

/-- An exception that a thread has taken and not returned from. -/
structure Pending where
  frame : Nat
  ventry : Ventry
  /-- The registers with which the thread goes on. -/
  regs : ArmRegs

/-- What `kernel_entry` has stored for it. -/
def Pending.saved (p : Pending) : PtFrame where
  regs := p.regs.x
  sp := if p.ventry.el = 0 then p.regs.sys .spEl0 else p.regs.sp
  pc := p.regs.pc
  pstate := p.regs.pstate

/-- What is saved for a thread.  All of it is history: the machine itself has only the memory. -/
structure ThreadHistory where
  /-- The exceptions that the thread is in, the newest first. -/
  pending : List Pending := []
  /-- The context with which it was made or left. -/
  away : Option CpuContext := none
  /-- Its function and argument, until it calls the function. -/
  starting : Option (Word × Word) := none

structure Cores (T : Type) (N : Nat) where
  cpu : Fin N → ArmRegs
  mem : Mem
  current : Fin N → T
  history : T → ThreadHistory

/-- The addresses that the C code stores into contexts. -/
structure Starts where
  callThreadFunc : Word
  childReturnsFromFork : Word

/-- `call_thread_func`, up to the call. -/
def callThreadFunc : List A64 := [.ldpPost 0 1 .sp 16, .blr 1]

section Machine

variable {T : Type} [DecidableEq T] [Fintype T] {N : Nat} (pl : Placement T)

/-- The machine as CPU `c` sees it. -/
def Cores.arm (s : Cores T N) (c : Fin N) : Arm := { s.cpu c with mem := s.mem }

/-- The end of the part of the stack that is free for new frames. -/
def stackLimit (top : Nat) : List Pending → Nat
  | [] => top
  | p :: _ => p.frame

/-- The top of the stack: a thread that has not started has its function and argument there. -/
def stackTop (t : T) (h : ThreadHistory) : Nat :=
  if h.starting.isSome = true then pl.stack t + kernelStackSize - 16 else pl.stack t + kernelStackSize

def ThreadHistory.limit (h : ThreadHistory) (t : T) : Nat := stackLimit (stackTop pl t h) h.pending

/-- The byte belongs to what is saved for thread `t`. -/
def ThreadHistory.Holds (h : ThreadHistory) (t : T) (y : Nat) : Prop :=
  (∃ p ∈ h.pending, p.frame ≤ y ∧ y < p.frame + frameFill) ∨
    (h.away.isSome = true ∧ pl.record t + threadCpuContext ≤ y ∧
      y < pl.record t + threadCpuContext + sizeofContext) ∨
    (h.starting.isSome = true ∧ pl.stack t + kernelStackSize - 16 ≤ y ∧
      y < pl.stack t + kernelStackSize) ∨
    (pl.stack t ≤ y ∧ y < pl.stack t + 8)

instance ThreadHistory.decidableHolds (h : ThreadHistory) (t : T) (y : Nat) : Decidable (h.Holds pl t y) := by
  unfold ThreadHistory.Holds
  infer_instance

/-- The thread runs, or it can be switched to. -/
def Cores.live (s : Cores T N) (t : T) : Prop :=
  (s.history t).away.isSome = true ∨ ∃ c, s.current c = t

/-- The thread is not in use. -/
def Cores.fresh (s : Cores T N) (t : T) : Prop :=
  (∀ c, s.current c ≠ t) ∧ (s.history t).away = none ∧ (s.history t).pending.isEmpty = true ∧
    (s.history t).starting = none

instance Cores.decidableFresh (s : Cores T N) (t : T) : Decidable (s.fresh t) := by
  unfold Cores.fresh
  infer_instance

/-! ## Steps -/

inductive ThreadsAction (T : Type) (N : Nat)
  /-- CPU `c` takes an exception. -/
  | except (c : Fin N) (v : Ventry) (vector : Word)
  /-- The C function has returned. -/
  | leave (c : Fin N)
  /-- `schedule` calls `cpu_switch_to`. -/
  | switchTo (c : Fin N) (next : T)
  /-- C code or a user program changes registers. -/
  | compute (c : Fin N) (r : ArmRegs)
  /-- C code or a user program writes a byte. -/
  | store (y : Nat) (b : UInt8)
  /-- A system call sets a register of its caller. -/
  | setReg (c : Fin N) (k : Fin 31) (v : Word)
  /-- `sys_fork` has made a task. -/
  | fork (c : Fin N) (child : T) (pid : Word)
  /-- `kernel_thread` has made a thread. -/
  | kernelThread (t : T) (fn args : Word)
  /-- A new thread calls its function. -/
  | callFunc (c : Fin N)
  /-- The slot of a thread that has exited is cleared. -/
  | clear (t : T)

/-- The word of the context with number `k`. -/
def contextWord (t : T) (k : Nat) : Nat := pl.record t + threadCpuContext + 8 * k

/-- What `sys_fork` copies: the stack, which gets the word of the child, and the context, which gets the
place where the child begins and its stack pointer `regs`. -/
def forkCopy (st : Starts) (m : Mem) (t child : T) (regs : Nat) : Mem :=
  let m := copy m (pl.stack child) (pl.stack t) kernelStackSize
  let m := storeWord m (pl.stack child) (BitVec.ofNat 64 (pl.record child))
  let m := copy m (pl.record child + threadCpuContext) (pl.record t + threadCpuContext) sizeofContext
  let m := storeWord m (contextWord pl child 12) st.childReturnsFromFork
  storeWord m (contextWord pl child 11) (BitVec.ofNat 64 regs)

/-- Memory after `sys_fork`, which stores its results into both frames. -/
def forkMem (st : Starts) (m : Mem) (t child : T) (frame : Nat) (pid : Word) : Mem :=
  let regs := pl.stack child + frame % kernelStackSize
  storeWord (storeWord (forkCopy pl st m t child regs) regs 0) frame pid

/-- The exception in which the child of a `sys_fork` is. -/
def childPending (child : T) (p : Pending) : Pending :=
  let frame := pl.stack child + p.frame % kernelStackSize
  { p with
    frame := frame
    regs := { p.regs with
      x := Function.update p.regs.x 0 0
      sp := BitVec.ofNat 64 (frame + sFrameSize) } }

/-- A register of the interrupted program is set. -/
def Pending.setReg (p : Pending) (k : Fin 31) (v : Word) : Pending :=
  { p with regs := { p.regs with x := Function.update p.regs.x k v } }

/-- Memory after `kernel_thread`. -/
def kernelThreadMem (st : Starts) (m : Mem) (t : T) (fn args : Word) : Mem :=
  let sp := pl.stack t + kernelStackSize - 16
  let m := storeWord m (pl.stack t) (BitVec.ofNat 64 (pl.record t))
  let m := storeWord m (contextWord pl t 10) 0
  let m := storeWord m (contextWord pl t 12) st.callThreadFunc
  let m := storeWord m (sp + 8) fn
  let m := storeWord m sp args
  storeWord m (contextWord pl t 11) (BitVec.ofNat 64 sp)

/-- CPU `c` has executed code, and what is saved for the thread that it runs is `h`. -/
def Cores.next (s : Cores T N) (c : Fin N) (m : Arm) (h : ThreadHistory) : Cores T N :=
  { s with
    cpu := Function.update s.cpu c m.toArmRegs
    mem := m.mem
    history := Function.update s.history (s.current c) h }

def threadsStep (L : Labels) (st : Starts) (s : Cores T N) : ThreadsAction T N → Option (Cores T N)
  | .except c v vector =>
      let t := s.current c
      let h := s.history t
      let r := s.cpu c
      if (v.el = 0 ↔ r.user = true) ∧ (v.irq = true → r.masked = false) ∧
          pl.stack t + 8 + sFrameSize ≤ r.sp.toNat then
        let p : Pending := { frame := r.sp.toNat - sFrameSize, ventry := v, regs := r }
        some (s.next c (v.take L vector (s.arm c)) { h with pending := p :: h.pending })
      else none
  | .leave c =>
      let h := s.history (s.current c)
      match h.pending with
      | [] => none
      | p :: ps =>
          if (s.cpu c).user = false ∧ (s.cpu c).sp.toNat = p.frame then
            some (s.next c (run p.ventry.leave (s.arm c)) { h with pending := ps })
          else none
  | .switchTo c next =>
      let t := s.current c
      let h := s.history t
      let r := s.cpu c
      if r.user = false ∧ next ≠ t ∧ (s.history next).away.isSome = true ∧
          (r.x 0).toNat = pl.record t ∧ (r.x 1).toNat = pl.record next then
        let s' := s.next c (run cpuSwitchTo (s.arm c)) { h with away := some (contextOf r) }
        some { s' with
          current := Function.update s.current c next
          history := Function.update s'.history next { s.history next with away := none } }
      else none
  | .compute c r =>
      let t := s.current c
      if ((s.cpu c).user = true → r.user = true ∧ r.sp = (s.cpu c).sp) ∧
          (r.user = true → (s.history t).pending.isEmpty = true) ∧
          pl.stack t + 8 ≤ r.sp.toNat ∧ r.sp.toNat ≤ (s.history t).limit pl t then
        some { s with cpu := Function.update s.cpu c r }
      else none
  | .store y b =>
      if ∃ t, (s.history t).Holds pl t y then none
      else some { s with mem := Function.update s.mem y b }
  | .setReg c k v =>
      let h := s.history (s.current c)
      match h.pending with
      | [] => none
      | p :: ps =>
          if (s.cpu c).user = false then
            some (s.next c { s.cpu c with mem := storeWord s.mem (p.frame + 8 * k) v }
              { h with pending := p.setReg k v :: ps })
          else none
  | .fork c child pid =>
      let t := s.current c
      let h := s.history t
      match h.pending with
      | [p] =>
          if (s.cpu c).user = false ∧ p.ventry = .el0Sync ∧ s.fresh child then
            let mem := forkMem pl st s.mem t child p.frame pid
            some { s with
              mem := mem
              history :=
                Function.update (Function.update s.history t { h with pending := [p.setReg 0 pid] }) child
                  { pending := [childPending pl child p]
                    away := some (contextAt mem (pl.record child)) } }
          else none
      | _ => none
  | .kernelThread t fn args =>
      if s.fresh t then
        let mem := kernelThreadMem pl st s.mem t fn args
        some { s with
          mem := mem
          history := Function.update s.history t
            { away := some (contextAt mem (pl.record t)), starting := some (fn, args) } }
      else none
  | .callFunc c =>
      let t := s.current c
      let h := s.history t
      let r := s.cpu c
      if h.starting.isSome = true ∧ h.pending.isEmpty = true ∧ r.user = false ∧
          r.pc = st.callThreadFunc ∧ r.sp.toNat = pl.stack t + kernelStackSize - 16 then
        some (s.next c (run callThreadFunc (s.arm c)) { h with starting := none })
      else none
  | .clear t =>
      if (s.history t).away.isSome = true then
        some { s with history := Function.update s.history t {} }
      else none

/-! ## What a step does -/

/-- What the actions do, each with its guards. -/
inductive ThreadsMove (L : Labels) (st : Starts) (s : Cores T N) :
    ThreadsAction T N → Cores T N → Prop where
  | except (c : Fin N) (v : Ventry) (vector : Word) (hel : v.el = 0 ↔ (s.cpu c).user = true)
      (hirq : v.irq = true → (s.cpu c).masked = false)
      (hroom : pl.stack (s.current c) + 8 + sFrameSize ≤ (s.cpu c).sp.toNat) :
      ThreadsMove L st s (.except c v vector)
        (s.next c (v.take L vector (s.arm c)) { s.history (s.current c) with
          pending := { frame := (s.cpu c).sp.toNat - sFrameSize, ventry := v, regs := s.cpu c } ::
            (s.history (s.current c)).pending })
  | leave (c : Fin N) (p : Pending) (ps : List Pending)
      (hpending : (s.history (s.current c)).pending = p :: ps) (hkernel : (s.cpu c).user = false)
      (hsp : (s.cpu c).sp.toNat = p.frame) :
      ThreadsMove L st s (.leave c)
        (s.next c (run p.ventry.leave (s.arm c)) { s.history (s.current c) with pending := ps })
  | switchTo (c : Fin N) (next : T) (hkernel : (s.cpu c).user = false) (hne : next ≠ s.current c)
      (haway : (s.history next).away.isSome = true)
      (h₀ : ((s.cpu c).x 0).toNat = pl.record (s.current c))
      (h₁ : ((s.cpu c).x 1).toNat = pl.record next) :
      ThreadsMove L st s (.switchTo c next)
        { s.next c (run cpuSwitchTo (s.arm c))
            { s.history (s.current c) with away := some (contextOf (s.cpu c)) } with
          current := Function.update s.current c next
          history := Function.update (s.next c (run cpuSwitchTo (s.arm c))
            { s.history (s.current c) with away := some (contextOf (s.cpu c)) }).history next
            { s.history next with away := none } }
  | compute (c : Fin N) (r : ArmRegs)
      (hmode : (s.cpu c).user = true → r.user = true ∧ r.sp = (s.cpu c).sp)
      (huser : r.user = true → (s.history (s.current c)).pending = [])
      (hlow : pl.stack (s.current c) + 8 ≤ r.sp.toNat)
      (hhigh : r.sp.toNat ≤ (s.history (s.current c)).limit pl (s.current c)) :
      ThreadsMove L st s (.compute c r) { s with cpu := Function.update s.cpu c r }
  | store (y : Nat) (b : UInt8) (hfree : ∀ t, ¬(s.history t).Holds pl t y) :
      ThreadsMove L st s (.store y b) { s with mem := Function.update s.mem y b }
  | setReg (c : Fin N) (k : Fin 31) (v : Word) (p : Pending) (ps : List Pending)
      (hpending : (s.history (s.current c)).pending = p :: ps) (hkernel : (s.cpu c).user = false) :
      ThreadsMove L st s (.setReg c k v)
        (s.next c { s.cpu c with mem := storeWord s.mem (p.frame + 8 * k) v }
          { s.history (s.current c) with pending := p.setReg k v :: ps })
  | fork (c : Fin N) (child : T) (pid : Word) (p : Pending)
      (hpending : (s.history (s.current c)).pending = [p]) (hkernel : (s.cpu c).user = false)
      (hsync : p.ventry = .el0Sync) (hfresh : s.fresh child) :
      ThreadsMove L st s (.fork c child pid) { s with
        mem := forkMem pl st s.mem (s.current c) child p.frame pid
        history := Function.update (Function.update s.history (s.current c)
          { s.history (s.current c) with pending := [p.setReg 0 pid] }) child
          { pending := [childPending pl child p]
            away := some (contextAt (forkMem pl st s.mem (s.current c) child p.frame pid)
              (pl.record child)) } }
  | kernelThread (t : T) (fn args : Word) (hfresh : s.fresh t) :
      ThreadsMove L st s (.kernelThread t fn args) { s with
        mem := kernelThreadMem pl st s.mem t fn args
        history := Function.update s.history t
          { away := some (contextAt (kernelThreadMem pl st s.mem t fn args) (pl.record t))
            starting := some (fn, args) } }
  | callFunc (c : Fin N) (hstarting : (s.history (s.current c)).starting.isSome = true)
      (hpending : (s.history (s.current c)).pending = []) (hkernel : (s.cpu c).user = false)
      (hpc : (s.cpu c).pc = st.callThreadFunc)
      (hsp : (s.cpu c).sp.toNat = pl.stack (s.current c) + kernelStackSize - 16) :
      ThreadsMove L st s (.callFunc c) (s.next c (run Kernel.callThreadFunc (s.arm c))
        { s.history (s.current c) with starting := none })
  | clear (t : T) (haway : (s.history t).away.isSome = true) :
      ThreadsMove L st s (.clear t) { s with history := Function.update s.history t {} }

/-- Every step is one of these moves. -/
theorem threadsStep_move {L : Labels} {st : Starts} {s s' : Cores T N} {a : ThreadsAction T N}
    (ha : threadsStep pl L st s a = some s') : ThreadsMove pl L st s a s' := by
  cases a with
  | except c v vector =>
      simp only [threadsStep] at ha
      split_ifs at ha with hguard
      cases ha
      exact .except c v vector hguard.1 hguard.2.1 hguard.2.2
  | leave c =>
      simp only [threadsStep] at ha
      split at ha
      · cases ha
      next p ps hpending =>
        split_ifs at ha with hguard
        cases ha
        exact .leave c p ps hpending hguard.1 hguard.2
  | switchTo c next =>
      simp only [threadsStep] at ha
      split_ifs at ha with hguard
      cases ha
      obtain ⟨hkernel, hne, haway, h₀, h₁⟩ := hguard
      exact .switchTo c next hkernel hne haway h₀ h₁
  | compute c r =>
      simp only [threadsStep] at ha
      split_ifs at ha with hguard
      cases ha
      obtain ⟨hmode, huser, hlow, hhigh⟩ := hguard
      exact .compute c r hmode (fun hu => List.isEmpty_iff.1 (huser hu)) hlow hhigh
  | store y b =>
      simp only [threadsStep] at ha
      split_ifs at ha with hguard
      cases ha
      exact .store y b (not_exists.1 hguard)
  | setReg c k v =>
      simp only [threadsStep] at ha
      split at ha
      · cases ha
      next p ps hpending =>
        split_ifs at ha with hkernel
        cases ha
        exact .setReg c k v p ps hpending hkernel
  | fork c child pid =>
      simp only [threadsStep] at ha
      -- a child is made only in the system call itself, with no other exception around it
      split at ha
      next p hpending =>
        split_ifs at ha with hguard
        cases ha
        exact .fork c child pid p hpending hguard.1 hguard.2.1 hguard.2.2
      · cases ha
  | kernelThread t fn args =>
      simp only [threadsStep] at ha
      split_ifs at ha with hfresh
      cases ha
      exact .kernelThread t fn args hfresh
  | callFunc c =>
      simp only [threadsStep] at ha
      split_ifs at ha with hguard
      cases ha
      obtain ⟨hstarting, hpending, hkernel, hpc, hsp⟩ := hguard
      exact .callFunc c hstarting (List.isEmpty_iff.1 hpending) hkernel hpc hsp
  | clear t =>
      simp only [threadsStep] at ha
      split_ifs at ha with haway
      cases ha
      exact .clear t haway

end Machine

/-! ## The invariant -/

section Invariant

variable {T : Type} {N : Nat} (pl : Placement T)

/-- The frames on a stack between `lo` and `top`, one below the other; a frame of user mode is the
first one. -/
def FramesIn (lo top : Nat) : List Pending → Prop
  | [] => True
  | p :: ps => lo ≤ p.frame ∧ p.frame + sFrameSize ≤ stackLimit top ps ∧
      p.regs.sp.toNat = p.frame + sFrameSize ∧ (p.regs.user = true → ps = []) ∧ FramesIn lo top ps

/-- Memory holds what is saved for thread `t`. -/
structure ThreadOk (m : Mem) (t : T) (h : ThreadHistory) : Prop where
  frames : FramesIn (pl.stack t + 8) (stackTop pl t h) h.pending
  saved : ∀ p ∈ h.pending, ptFrame m p.frame = p.saved ∧ (p.ventry.el = 0 ↔ p.regs.user = true)
  context : ∀ k, h.away = some k →
    contextAt m (pl.record t) = k ∧ pl.stack t + 8 ≤ k.sp ∧ k.sp ≤ h.limit pl t
  start : ∀ fn args, h.starting = some (fn, args) →
    loadWord m (pl.stack t + kernelStackSize - 8) = fn ∧
      loadWord m (pl.stack t + kernelStackSize - 16) = args

/-- A CPU with the registers `r` runs thread `t`. -/
structure RunsOk (t : T) (h : ThreadHistory) (r : ArmRegs) : Prop where
  running : h.away = none
  low : pl.stack t + 8 ≤ r.sp.toNat
  high : r.sp.toNat ≤ h.limit pl t
  user : r.user = true → h.pending = []

structure ThreadsInv (s : Cores T N) : Prop where
  threads : ∀ t, ThreadOk pl s.mem t (s.history t)
  cpus : ∀ c, RunsOk pl (s.current c) (s.history (s.current c)) (s.cpu c)
  apart : ∀ c d, s.current c = s.current d → c = d
  info : ∀ t, s.live t → loadWord s.mem (pl.stack t) = BitVec.ofNat 64 (pl.record t)

variable {pl} {m m' : Mem} {t u : T} {h : ThreadHistory} {s s' : Cores T N} {lo top : Nat}
  {ps : List Pending}

/-! ## Memory that a thread does not share -/

/-- The stack of `t`, without the word at its base, and the context of `t`. -/
def ThreadArea (pl : Placement T) (t : T) (y : Nat) : Prop :=
  (pl.stack t + 8 ≤ y ∧ y < pl.stack t + kernelStackSize) ∨
    (pl.record t + threadCpuContext ≤ y ∧ y < pl.record t + threadCpuContext + sizeofContext)

theorem FramesIn.limit_le (hf : FramesIn lo top ps) : stackLimit top ps ≤ top := by
  cases ps with
  | nil => exact Nat.le_refl top
  | cons p ps =>
      induction ps generalizing p with
      | nil =>
          obtain ⟨-, hle, -⟩ := hf
          simp only [stackLimit] at hle ⊢
          omega
      | cons q ps ih =>
          obtain ⟨-, hle, -, -, hrest⟩ := hf
          have hq := ih q hrest
          simp only [stackLimit] at hle hq ⊢
          omega

/-- A frame lies on the stack, and not below the limit. -/
theorem FramesIn.mem (hf : FramesIn lo top ps) {p : Pending} (hp : p ∈ ps) :
    lo ≤ p.frame ∧ stackLimit top ps ≤ p.frame ∧ p.frame + sFrameSize ≤ top := by
  induction ps with
  | nil => cases hp
  | cons q ps ih =>
      obtain ⟨hlo, hle, -, -, hrest⟩ := hf
      have hlimit := hrest.limit_le
      rcases List.mem_cons.1 hp with rfl | hp
      · simp only [stackLimit]
        omega
      · obtain ⟨h₁, h₂, h₃⟩ := ih hrest hp
        simp only [stackLimit]
        omega

theorem stackTop_le (pl : Placement T) (t : T) (h : ThreadHistory) :
    stackTop pl t h ≤ pl.stack t + kernelStackSize := by
  unfold stackTop
  split_ifs <;> omega

/-- What is saved for a thread lies in its own memory. -/
theorem ThreadOk.holds (hok : ThreadOk pl m t h) {y : Nat} (hy : h.Holds pl t y) :
    ThreadArea pl t y ∨ (pl.stack t ≤ y ∧ y < pl.stack t + 8) := by
  have htop := stackTop_le pl t h
  rcases hy with ⟨p, hp, h₁, h₂⟩ | ⟨-, hy⟩ | ⟨-, h₁, h₂⟩ | hy
  · obtain ⟨hlo, -, hhi⟩ := hok.frames.mem hp
    simp only [frameFill, sFrameSize] at h₂ hhi
    exact .inl (.inl (by omega))
  · exact .inl (.inr hy)
  · simp only [kernelStackSize] at h₁ h₂
    exact .inl (.inl (by simp only [kernelStackSize]; omega))
  · exact .inr hy

theorem ThreadOk.congr (hok : ThreadOk pl m t h) (hm : ∀ y, h.Holds pl t y → m' y = m y) :
    ThreadOk pl m' t h := by
  refine ⟨hok.frames, fun p hp => ?_, fun k hk => ?_, fun fn args hs => ?_⟩
  · obtain ⟨hsaved, hel⟩ := hok.saved p hp
    refine ⟨?_, hel⟩
    rw [ptFrame_congr fun y h₁ h₂ => hm y (.inl ⟨p, hp, h₁, h₂⟩), hsaved]
  · -- the context of a thread that is away
    obtain ⟨hctx, hsp⟩ := hok.context k hk
    refine ⟨?_, hsp⟩
    rw [contextAt_congr fun y h₁ h₂ => hm y (.inr (.inl ⟨by rw [hk]; rfl, h₁, h₂⟩)), hctx]
  · obtain ⟨hfn, hargs⟩ := hok.start fn args hs
    have hword : ∀ a, pl.stack t + kernelStackSize - 16 ≤ a → a + 8 ≤ pl.stack t + kernelStackSize →
        loadWord m' a = loadWord m a := fun a ha hb =>
      loadWord_congr fun y h₁ h₂ =>
        hm y (.inr (.inr (.inl ⟨by rw [hs]; rfl, by omega, by omega⟩)))
    rw [hword _ (by omega) (by simp only [kernelStackSize]; omega),
      hword _ (by omega) (by simp only [kernelStackSize]; omega)]
    exact ⟨hfn, hargs⟩

/-- The memory of another thread. -/
theorem area_apart (hne : u ≠ t) {y : Nat}
    (hy : ThreadArea pl u y ∨ (pl.stack u ≤ y ∧ y < pl.stack u + 8)) :
    ¬ThreadArea pl t y ∧ (y < pl.stack t ∨ pl.stack t + 8 ≤ y) := by
  have hstacks := pl.stacks_apart u t hne
  have hrecords := pl.records_apart u t hne
  have hut := pl.apart u t
  have htu := pl.apart t u
  simp only [ThreadArea, kernelStackSize, threadCpuContext, sizeofContext, sizeofTaskStruct] at *
  omega

/-- Code that writes into the memory of one thread leaves what is saved for the others. -/
theorem ThreadOk.other (hok : ThreadOk pl m u h) (hne : u ≠ t)
    (hm : ∀ y, ¬ThreadArea pl t y → m' y = m y) : ThreadOk pl m' u h :=
  hok.congr fun y hy => hm y (area_apart hne (hok.holds hy)).1

/-- The words at the bases of the stacks. -/
theorem info_congr (hm : ∀ y, ¬ThreadArea pl t y → m' y = m y) (u : T) :
    loadWord m' (pl.stack u) = loadWord m (pl.stack u) := by
  refine loadWord_congr fun y h₁ h₂ => hm y ?_
  by_cases hne : u = t
  · subst hne
    have happart := pl.apart u u
    simp only [ThreadArea, kernelStackSize, threadCpuContext, sizeofContext, sizeofTaskStruct] at *
    omega
  · exact (area_apart hne (.inr ⟨h₁, h₂⟩)).1

/-- Writes below all that is saved on the stack. -/
theorem ThreadOk.below (hok : ThreadOk pl m t h) {a n : Nat} (hrun : h.away = none)
    (hlo : pl.stack t + 8 ≤ a) (hhi : a + n ≤ h.limit pl t)
    (hm : ∀ y, y < a ∨ a + n ≤ y → m' y = m y) : ThreadOk pl m' t h := by
  refine hok.congr fun y hy => hm y ?_
  have hlimit := hok.frames.limit_le
  change h.limit pl t ≤ stackTop pl t h at hlimit
  rcases hy with ⟨p, hp, h₁, -⟩ | ⟨haway, -⟩ | ⟨hstart, h₁, -⟩ | ⟨-, hy⟩
  · have hle := (hok.frames.mem hp).2.1
    change h.limit pl t ≤ p.frame at hle
    omega
  · rw [hrun] at haway
    cases haway
  · rw [stackTop, if_pos hstart] at hlimit
    omega
  · omega

/-! ## The steps of one thread -/

/-- An exception: the frame is pushed. -/
theorem ThreadOk.take {r : ArmRegs} {v : Ventry} {m₁ : Arm} (hok : ThreadOk pl m t h)
    (hrun : RunsOk pl t h r) (hel : v.el = 0 ↔ r.user = true)
    (hroom : pl.stack t + 8 + sFrameSize ≤ r.sp.toNat)
    (htaken : ExceptionTaken v { r with mem := m } m₁) :
    let p : Pending := { frame := r.sp.toNat - sFrameSize, ventry := v, regs := r }
    ThreadOk pl m₁.mem t { h with pending := p :: h.pending } ∧
      RunsOk pl t { h with pending := p :: h.pending } m₁.toArmRegs ∧
      ∀ y, ¬ThreadArea pl t y → m₁.mem y = m y := by
  intro p
  have hsp : m₁.sp.toNat = p.frame := by
    have := htaken.sp
    change m₁.sp.toNat + sFrameSize = r.sp.toNat at this
    change m₁.sp.toNat = r.sp.toNat - sFrameSize
    omega
  have hhigh : p.frame + sFrameSize ≤ h.limit pl t := by
    have := hrun.high
    change r.sp.toNat - sFrameSize + sFrameSize ≤ h.limit pl t
    omega
  have hlow : pl.stack t + 8 ≤ p.frame := by
    change pl.stack t + 8 ≤ r.sp.toNat - sFrameSize
    omega
  -- the frame is below all that has been saved
  have hmem := htaken.mem
  rw [hsp] at hmem
  have hfill : p.frame + frameFill ≤ h.limit pl t := by
    simp only [sFrameSize, frameFill] at hhigh ⊢
    omega
  have hold := hok.below hrun.running hlow hfill hmem
  refine ⟨⟨⟨hlow, hhigh, ?_, hrun.user, hok.frames⟩, fun q hq => ?_, ?_, hold.start⟩,
    ⟨hrun.running, ?_, ?_, ?_⟩, fun y hy => hmem y ?_⟩
  · change r.sp.toNat = r.sp.toNat - sFrameSize + sFrameSize
    omega
  · rcases List.mem_cons.1 hq with rfl | hq
    · refine ⟨?_, hel⟩
      have hframe := htaken.frame
      rw [hsp] at hframe
      exact hframe
    · exact hold.saved q hq
  · intro k hk
    rw [show h.away = none from hrun.running] at hk
    cases hk
  · omega
  · exact hsp.le
  · intro huser
    rw [htaken.kernel] at huser
    cases huser
  · have hlimit := hok.frames.limit_le
    have htop := stackTop_le pl t h
    change h.limit pl t ≤ stackTop pl t h at hlimit
    simp only [ThreadArea, kernelStackSize, frameFill, sFrameSize] at hy hhigh htop ⊢
    omega

/-- The return from an exception: the frame is popped. -/
theorem ThreadOk.leave {r : ArmRegs} {p : Pending} {ps : List Pending} (hok : ThreadOk pl m t h)
    (hrun : RunsOk pl t h r) (hpending : h.pending = p :: ps) (hsp : r.sp.toNat = p.frame) :
    ThreadOk pl m t { h with pending := ps } ∧
      RunsOk pl t { h with pending := ps } (leaveRegs p.ventry.el (ptFrame m p.frame) r) := by
  have hframes := hok.frames
  rw [hpending] at hframes
  obtain ⟨hlo, hle, hregs, huser, hrest⟩ := hframes
  have hsaved := (hok.saved p (by rw [hpending]; exact List.mem_cons_self)).1
  have hnew : (r.sp + BitVec.ofNat 64 sFrameSize).toNat = p.frame + sFrameSize := by
    rw [bump_toNat, hsp]
    have := p.regs.sp.isLt
    omega
  refine ⟨⟨hrest, fun q hq => hok.saved q (by rw [hpending]; exact List.mem_cons_of_mem p hq), ?_,
    hok.start⟩, ⟨hrun.running, ?_, ?_, ?_⟩⟩
  · intro k hk
    rw [show h.away = none from hrun.running] at hk
    cases hk
  · change pl.stack t + 8 ≤ (r.sp + BitVec.ofNat 64 sFrameSize).toNat
    omega
  · change (r.sp + BitVec.ofNat 64 sFrameSize).toNat ≤ stackLimit (stackTop pl t h) ps
    omega
  · intro hu
    refine huser ?_
    change ((ptFrame m p.frame).pstate &&& modeMask == 0) = true at hu
    rw [hsaved] at hu
    exact hu

/-- A register of a frame is set. -/
theorem ptFrame_storeWord (m : Mem) (a : Nat) (k : Fin 31) (v : Word) :
    ptFrame (storeWord m (a + 8 * k) v) a =
      { ptFrame m a with regs := Function.update (ptFrame m a).regs k v } := by
  have hword : ∀ o, o + 8 ≤ 8 * k.val ∨ 8 * k.val + 8 ≤ o →
      loadWord (storeWord m (a + 8 * k) v) (a + o) = loadWord m (a + o) := fun o ho =>
    loadWord_storeWord_ne (by omega)
  have hregs : (ptFrame (storeWord m (a + 8 * k) v) a).regs =
      Function.update (ptFrame m a).regs k v := by
    funext j
    by_cases hj : j = k
    · subst hj
      rw [Function.update_self]
      exact loadWord_storeWord_same m _ v
    · rw [Function.update_of_ne hj]
      have hne : j.val ≠ k.val := fun he => hj (Fin.ext he)
      exact hword (8 * j) (by omega)
  have hsp := hword sSp (by simp only [sSp]; omega)
  have hpc := hword sPc (by simp only [sPc]; omega)
  have hpstate := hword (sPc + 8) (by simp only [sPc]; omega)
  rw [← Nat.add_assoc] at hpstate
  calc ptFrame (storeWord m (a + 8 * k) v) a
      = { regs := (ptFrame (storeWord m (a + 8 * k) v) a).regs
          sp := loadWord (storeWord m (a + 8 * k) v) (a + sSp)
          pc := loadWord (storeWord m (a + 8 * k) v) (a + sPc)
          pstate := loadWord (storeWord m (a + 8 * k) v) (a + sPc + 8) } := rfl
    _ = { ptFrame m a with regs := Function.update (ptFrame m a).regs k v } := by
      rw [hregs, hsp, hpc, hpstate]
      rfl

/-- A system call sets a register of its caller. -/
theorem ThreadOk.setReg {p : Pending} {ps : List Pending} (hok : ThreadOk pl m t h)
    (haway : h.away = none) (hpending : h.pending = p :: ps) (k : Fin 31) (v : Word) :
    ThreadOk pl (storeWord m (p.frame + 8 * k) v) t { h with pending := p.setReg k v :: ps } ∧
      ∀ y, ¬ThreadArea pl t y → storeWord m (p.frame + 8 * k) v y = m y := by
  have hframes := hok.frames
  rw [hpending] at hframes
  obtain ⟨hlo, hle, hregs, huser, hrest⟩ := hframes
  have hp : p ∈ h.pending := by rw [hpending]; exact List.mem_cons_self
  obtain ⟨hsaved, hel⟩ := hok.saved p hp
  have htop := stackTop_le pl t h
  have hlimit := hrest.limit_le
  have hk := k.isLt
  refine ⟨⟨⟨hlo, hle, hregs, huser, hrest⟩, fun q hq => ?_, ?_, fun fn args hs => ?_⟩, fun y hy => ?_⟩
  · rcases List.mem_cons.1 hq with rfl | hq
    · refine ⟨?_, hel⟩
      rw [show (p.setReg k v).frame = p.frame from rfl, ptFrame_storeWord, hsaved]
      rfl
    · -- an older frame lies above the newest one
      have hqs : q ∈ h.pending := by rw [hpending]; exact List.mem_cons_of_mem p hq
      obtain ⟨hqsaved, hqel⟩ := hok.saved q hqs
      have habove := (hrest.mem hq).2.1
      refine ⟨?_, hqel⟩
      rw [← hqsaved]
      refine ptFrame_congr fun y h₁ h₂ => storeWord_apply ?_
      simp only [sFrameSize] at hle
      omega
  · intro k hk
    rw [show h.away = none from haway] at hk
    cases hk
  · have hstart := hok.start fn args hs
    have hword : ∀ a, pl.stack t + kernelStackSize - 16 ≤ a →
        loadWord (storeWord m (p.frame + 8 * k) v) a = loadWord m a := fun a ha =>
      loadWord_storeWord_ne (by
        have hs : h.starting.isSome = true := by rw [show h.starting = _ from hs]; rfl
        have htop16 : stackTop pl t h = pl.stack t + kernelStackSize - 16 := by rw [stackTop, if_pos hs]
        simp only [sFrameSize] at hle
        omega)
    rw [hword _ (by omega), hword _ (by omega)]
    exact hstart
  · refine storeWord_apply ?_
    simp only [ThreadArea, kernelStackSize, sFrameSize] at hy hle htop
    omega

/-- A thread is left: its registers are in its record. -/
theorem ThreadOk.leaveCpu {r : ArmRegs} (hok : ThreadOk pl m t h) (hrun : RunsOk pl t h r)
    (hsaved : contextAt m' (pl.record t) = contextOf r)
    (hm : ∀ y, y < pl.record t + threadCpuContext ∨ pl.record t + threadCpuContext + sizeofContext ≤ y →
      m' y = m y) :
    ThreadOk pl m' t { h with away := some (contextOf r) } := by
  have hold : ThreadOk pl m' t h := by
    refine hok.congr fun y hy => hm y ?_
    have happart := pl.apart t t
    have haway : ¬h.away.isSome = true := by rw [hrun.running]; decide
    have htop := stackTop_le pl t h
    rcases hy with ⟨p, hp, h₁, h₂⟩ | ⟨hy, -⟩ | ⟨-, hy⟩ | hy
    · obtain ⟨hlo, -, hhi⟩ := hok.frames.mem hp
      simp only [kernelStackSize, frameFill, sFrameSize, threadCpuContext, sizeofContext,
        sizeofTaskStruct] at *
      omega
    · exact absurd hy haway
    · simp only [kernelStackSize, threadCpuContext, sizeofContext, sizeofTaskStruct] at *
      omega
    · simp only [kernelStackSize, threadCpuContext, sizeofContext, sizeofTaskStruct] at *
      omega
  refine ⟨hold.frames, hold.saved, fun k hk => ?_, hold.start⟩
  cases hk
  exact ⟨hsaved, hrun.low, hrun.high⟩

/-- A thread is switched to: a CPU has the registers of its context. -/
theorem ThreadOk.enterCpu {r : ArmRegs} {k : CpuContext} (hok : ThreadOk pl m t h)
    (haway : h.away = some k) (hr : contextOf r = k) (hkernel : r.user = false) :
    ThreadOk pl m t { h with away := none } ∧ RunsOk pl t { h with away := none } r := by
  obtain ⟨-, hlow, hhigh⟩ := hok.context k haway
  rw [← hr] at hlow hhigh
  refine ⟨⟨hok.frames, hok.saved, fun k hk => (by cases hk), hok.start⟩, rfl, hlow, hhigh, fun hu => ?_⟩
  rw [hkernel] at hu
  cases hu

/-! ## New threads -/

theorem loadWord_shift {a a' : Nat} (hm : ∀ j, j < 8 → m' (a' + j) = m (a + j)) :
    loadWord m' a' = loadWord m a := by
  have hload : ∀ n b b', (∀ j, j < n → m' (b' + j) = m (b + j)) → load m' b' n = load m b n := by
    intro n
    induction n with
    | zero => exact fun _ _ _ => rfl
    | succ n ih =>
        intro b b' hb
        have hrest := ih (b + 1) (b' + 1) fun j hj => by
          rw [Nat.add_assoc, Nat.add_assoc, Nat.add_comm 1 j]
          exact hb (j + 1) (by omega)
        have hfirst : m' b' = m b := hb 0 (by omega)
        rw [load, load, hrest, hfirst]
  rw [loadWord, loadWord, hload 8 a a' hm]

/-- A frame that has been copied. -/
theorem ptFrame_shift {a a' : Nat} (hm : ∀ j, j < frameFill → m' (a' + j) = m (a + j)) :
    ptFrame m' a' = ptFrame m a := by
  have hword : ∀ o, o + 8 ≤ frameFill → loadWord m' (a' + o) = loadWord m (a + o) := fun o ho =>
    loadWord_shift fun j hj => by
      rw [Nat.add_assoc, Nat.add_assoc]
      exact hm (o + j) (by omega)
  have hregs : ∀ k : Fin 31, loadWord m' (a' + 8 * k) = loadWord m (a + 8 * k) := fun k =>
    hword (8 * k) (by simp only [frameFill]; omega)
  simp only [ptFrame, hregs, hword sSp (by decide), hword sPc (by decide), Nat.add_assoc,
    hword (sPc + 8) (by decide)]

theorem storeWord_congr {a y : Nat} {v : Word} (hy : m' y = m y) :
    storeWord m' a v y = storeWord m a v y := by
  simp only [storeWord, store, hy]

theorem copy_apply {dst src n y : Nat} (hy : y < dst ∨ dst + n ≤ y) : copy m dst src n y = m y := by
  rw [copy, if_neg (by omega)]

/-- Memory after the copies of `sys_fork`. -/
structure ForkCopy (pl : Placement T) (st : Starts) (m m' : Mem) (t child : T) (regs : Nat) : Prop where
  other : ∀ y, (y < pl.stack child ∨ pl.stack child + kernelStackSize ≤ y) →
    (y < pl.record child + threadCpuContext ∨
      pl.record child + threadCpuContext + sizeofContext ≤ y) → m' y = m y
  copied : ∀ j, 8 ≤ j → j < kernelStackSize → m' (pl.stack child + j) = m (pl.stack t + j)
  info : loadWord m' (pl.stack child) = BitVec.ofNat 64 (pl.record child)
  sp : loadWord m' (contextWord pl child 11) = BitVec.ofNat 64 regs
  pc : loadWord m' (contextWord pl child 12) = st.childReturnsFromFork

theorem contextWord_mem (pl : Placement T) (t : T) {k : Nat} (hk : k < 13) :
    pl.record t + threadCpuContext ≤ contextWord pl t k ∧
      contextWord pl t k + 8 ≤ pl.record t + threadCpuContext + sizeofContext := by
  simp only [contextWord, sizeofContext]
  omega

theorem forkCopy_spec (st : Starts) (m : Mem) (t child : T) (regs : Nat) :
    ForkCopy pl st m (forkCopy pl st m t child regs) t child regs := by
  have happart := pl.apart child child
  have h₁₁ := contextWord_mem pl child (k := 11) (by decide)
  have h₁₂ := contextWord_mem pl child (k := 12) (by decide)
  have hsize : threadCpuContext + sizeofContext ≤ sizeofTaskStruct := by decide
  have hword : 8 ≤ kernelStackSize := by decide
  simp only [forkCopy]
  have hcontext : ∀ (m₀ : Mem) (y : Nat), (y < pl.record child + threadCpuContext ∨
      pl.record child + threadCpuContext + sizeofContext ≤ y) →
      storeWord (storeWord (copy m₀ (pl.record child + threadCpuContext)
        (pl.record t + threadCpuContext) sizeofContext) (contextWord pl child 12)
        st.childReturnsFromFork) (contextWord pl child 11) (BitVec.ofNat 64 regs) y = m₀ y := by
    intro m₀ y hy
    rw [storeWord_apply (by omega), storeWord_apply (by omega), copy_apply hy]
  have hpc : contextWord pl child 12 = contextWord pl child 11 + 8 := rfl
  refine ⟨fun y hs hc => ?_, fun j hj hlt => ?_, ?_, loadWord_storeWord_same _ _ _, ?_⟩
  · rw [hcontext _ y hc, storeWord_apply (by omega), copy_apply hs]
  · -- the stack, above the word at its base
    rw [hcontext _ _ (by omega), storeWord_apply (by omega), copy, if_pos (by omega),
      Nat.add_sub_cancel_left]
  · rw [loadWord_congr fun y h₁ h₂ => hcontext _ y (by omega), loadWord_storeWord_same]
  · rw [loadWord_storeWord_ne (by omega), loadWord_storeWord_same]

/-- Memory after a call of `sys_fork` for a thread with the frame `frame`. -/
structure ForkMem (pl : Placement T) (st : Starts) (m m' : Mem) (child : T) (frame : Nat) (pid : Word) :
    Prop where
  other : ∀ y, ¬ThreadArea pl child y → (y < pl.stack child ∨ pl.stack child + 8 ≤ y) →
    m' y = storeWord m frame pid y
  info : loadWord m' (pl.stack child) = BitVec.ofNat 64 (pl.record child)
  childFrame : ptFrame m' (pl.stack child + frame % kernelStackSize) =
    { ptFrame m frame with regs := Function.update (ptFrame m frame).regs 0 0 }
  sp : loadWord m' (contextWord pl child 11) =
    BitVec.ofNat 64 (pl.stack child + frame % kernelStackSize)
  pc : loadWord m' (contextWord pl child 12) = st.childReturnsFromFork

theorem frame_offset {frame : Nat} (hlo : pl.stack t ≤ frame) (hhi : frame < pl.stack t + kernelStackSize) :
    pl.stack t + frame % kernelStackSize = frame := by
  obtain ⟨n, hn⟩ := pl.stack_dvd t
  simp only [kernelStackSize] at *
  omega

theorem forkMem_spec (st : Starts) (m : Mem) {child : T} (hne : t ≠ child) {frame : Nat} (pid : Word)
    (hlo : pl.stack t + 8 ≤ frame) (hhi : frame + sFrameSize ≤ pl.stack t + kernelStackSize) :
    ForkMem pl st m (forkMem pl st m t child frame pid) child frame pid := by
  have hfill : 8 ≤ frameFill ∧ frameFill ≤ sFrameSize := by decide
  have hoffset := @frame_offset T pl t frame (by omega) (by omega)
  have hcopy := @forkCopy_spec T pl st m t child (pl.stack child + frame % kernelStackSize)
  have hstacks := pl.stacks_apart t child hne
  have hcc := pl.apart child child
  have hct := pl.apart child t
  have h₁₁ := contextWord_mem pl child (k := 11) (by decide)
  have h₁₂ := contextWord_mem pl child (k := 12) (by decide)
  have hsize : threadCpuContext + sizeofContext ≤ sizeofTaskStruct := by decide
  rw [forkMem]
  generalize forkCopy pl st m t child (pl.stack child + frame % kernelStackSize) = m₅ at hcopy ⊢
  generalize hregs : pl.stack child + frame % kernelStackSize = regs at hcopy ⊢
  -- the frame of the child is a copy, at the same offset
  have hshift : ptFrame m₅ regs = ptFrame m frame := by
    refine ptFrame_shift fun j hj => ?_
    rw [← hregs, Nat.add_assoc, hcopy.copied _ (by omega) (by omega), ← Nat.add_assoc, hoffset]
  have hresults : ∀ a, (a + 8 ≤ regs ∨ regs + 8 ≤ a) → (a + 8 ≤ frame ∨ frame + 8 ≤ a) →
      loadWord (storeWord (storeWord m₅ regs 0) frame pid) a = loadWord m₅ a := fun a h₁ h₂ => by
    rw [loadWord_storeWord_ne (by omega), loadWord_storeWord_ne (by omega)]
  refine ⟨fun y hy hword => storeWord_congr ?_, ?_, ?_, ?_, ?_⟩
  · rw [ThreadArea, not_or] at hy
    obtain ⟨hstack, hcontext⟩ := hy
    rw [storeWord_apply (by omega), hcopy.other y (by omega) (by omega)]
  · rw [hresults _ (by omega) (by omega), hcopy.info]
  · have hset := ptFrame_storeWord m₅ regs 0 0
    rw [hshift] at hset
    have hkept : ptFrame (storeWord (storeWord m₅ regs 0) frame pid) regs =
        ptFrame (storeWord m₅ regs 0) regs :=
      ptFrame_congr fun y _ _ => storeWord_apply (by omega)
    rw [hregs, hkept]
    exact hset
  · rw [hresults _ (by omega) (by omega), hcopy.sp, hregs]
  · rw [hresults _ (by omega) (by omega), hcopy.pc]

/-- The child of a `sys_fork` is in the exception of its parent. -/
theorem ThreadOk.child {st : Starts} {child : T} {p : Pending} {pid : Word} (hok : ThreadOk pl m t h)
    (hpending : h.pending = [p]) (hsync : p.ventry = .el0Sync)
    (hmem : ForkMem pl st m m' child p.frame pid) :
    ThreadOk pl m' child
      { pending := [childPending pl child p], away := some (contextAt m' (pl.record child)) } := by
  have hp : p ∈ h.pending := by rw [hpending]; exact List.mem_cons_self
  obtain ⟨hlo, -, hhi⟩ := hok.frames.mem hp
  obtain ⟨hsaved, hel⟩ := hok.saved p hp
  have htop := stackTop_le pl t h
  have hoffset := @frame_offset T pl t p.frame (by omega) (by simp only [sFrameSize] at hhi; omega)
  have hle := pl.stack_le child
  have hfit : pl.stack child + p.frame % kernelStackSize + sFrameSize ≤ pl.stack child + kernelStackSize := by
    omega
  have hsp : (BitVec.ofNat 64 (pl.stack child + p.frame % kernelStackSize + sFrameSize)).toNat =
      pl.stack child + p.frame % kernelStackSize + sFrameSize := by
    rw [BitVec.toNat_ofNat, Nat.mod_eq_of_lt (by omega)]
  have hregs : (BitVec.ofNat 64 (pl.stack child + p.frame % kernelStackSize)).toNat =
      pl.stack child + p.frame % kernelStackSize := by
    rw [BitVec.toNat_ofNat, Nat.mod_eq_of_lt (by omega)]
  refine ⟨⟨?_, hfit, hsp, fun _ => rfl, trivial⟩, fun q hq => ?_, fun k hk => ?_, fun _ _ hs => by cases hs⟩
  · change pl.stack child + 8 ≤ pl.stack child + p.frame % kernelStackSize
    omega
  · cases List.mem_singleton.1 hq
    refine ⟨?_, hel⟩
    have hframe := hmem.childFrame
    rw [hsaved] at hframe
    rw [show (childPending pl child p).frame = pl.stack child + p.frame % kernelStackSize from rfl, hframe]
    -- the stack pointer of user mode is that of the parent
    simp only [Pending.saved, childPending, hsync, Ventry.el, if_true]
  · obtain rfl : contextAt m' (pl.record child) = k := Option.some.inj hk
    have hctx : (contextAt m' (pl.record child)).sp = pl.stack child + p.frame % kernelStackSize := by
      rw [← hregs, ← hmem.sp]
      rfl
    refine ⟨rfl, ?_, ?_⟩
    · rw [hctx]
      omega
    · rw [hctx]
      exact Nat.le_refl _

/-- Memory after a call of `kernel_thread`. -/
structure StartMem (pl : Placement T) (st : Starts) (m m' : Mem) (t : T) (fn args : Word) : Prop where
  other : ∀ y, ¬ThreadArea pl t y → (y < pl.stack t ∨ pl.stack t + 8 ≤ y) → m' y = m y
  info : loadWord m' (pl.stack t) = BitVec.ofNat 64 (pl.record t)
  fn : loadWord m' (pl.stack t + kernelStackSize - 8) = fn
  args : loadWord m' (pl.stack t + kernelStackSize - 16) = args
  sp : loadWord m' (contextWord pl t 11) = BitVec.ofNat 64 (pl.stack t + kernelStackSize - 16)
  pc : loadWord m' (contextWord pl t 12) = st.callThreadFunc

theorem kernelThreadMem_spec (st : Starts) (m : Mem) (t : T) (fn args : Word) :
    StartMem pl st m (kernelThreadMem pl st m t fn args) t fn args := by
  have happart := pl.apart t t
  have h₁₀ := contextWord_mem pl t (k := 10) (by decide)
  have h₁₁ := contextWord_mem pl t (k := 11) (by decide)
  have h₁₂ := contextWord_mem pl t (k := 12) (by decide)
  have hsize : threadCpuContext + sizeofContext ≤ sizeofTaskStruct := by decide
  have hstack : 24 ≤ kernelStackSize := by decide
  have hfn : pl.stack t + kernelStackSize - 16 + 8 = pl.stack t + kernelStackSize - 8 := by omega
  simp only [kernelThreadMem, hfn]
  have hpc : contextWord pl t 12 = contextWord pl t 11 + 8 := rfl
  refine ⟨fun y hy hword => ?_, ?_, ?_, ?_, loadWord_storeWord_same _ _ _, ?_⟩
  · rw [ThreadArea, not_or] at hy
    obtain ⟨hs, hc⟩ := hy
    rw [storeWord_apply (by omega), storeWord_apply (by omega), storeWord_apply (by omega),
      storeWord_apply (by omega), storeWord_apply (by omega), storeWord_apply (by omega)]
  · rw [loadWord_storeWord_ne (by omega), loadWord_storeWord_ne (by omega),
      loadWord_storeWord_ne (by omega), loadWord_storeWord_ne (by omega),
      loadWord_storeWord_ne (by omega), loadWord_storeWord_same]
  · rw [loadWord_storeWord_ne (by omega), loadWord_storeWord_ne (by omega), loadWord_storeWord_same]
  · rw [loadWord_storeWord_ne (by omega), loadWord_storeWord_same]
  · rw [loadWord_storeWord_ne (by omega), loadWord_storeWord_ne (by omega), loadWord_storeWord_ne (by omega),
      loadWord_storeWord_same]

/-- A thread that `kernel_thread` has made. -/
theorem ThreadOk.made {st : Starts} {fn args : Word} (hmem : StartMem pl st m m' t fn args) :
    ThreadOk pl m' t
      { away := some (contextAt m' (pl.record t)), starting := some (fn, args) } := by
  have hle := pl.stack_le t
  have hstack : 24 ≤ kernelStackSize := by decide
  have hctx : (contextAt m' (pl.record t)).sp = pl.stack t + kernelStackSize - 16 := by
    have hsp : (BitVec.ofNat 64 (pl.stack t + kernelStackSize - 16)).toNat =
        pl.stack t + kernelStackSize - 16 := by
      rw [BitVec.toNat_ofNat, Nat.mod_eq_of_lt (by omega)]
    rw [← hsp, ← hmem.sp]
    rfl
  refine ⟨trivial, fun p hp => (by cases hp), fun k hk => ?_, fun fn' args' hs => ?_⟩
  · obtain rfl : contextAt m' (pl.record t) = k := Option.some.inj hk
    refine ⟨rfl, ?_, ?_⟩
    · rw [hctx]
      omega
    · rw [hctx]
      exact Nat.le_refl _
  · cases hs
    exact ⟨hmem.fn, hmem.args⟩

/-- What `call_thread_func` does. -/
theorem callThreadFunc_spec (m : Arm) :
    let m' := run callThreadFunc m
    m'.x 0 = loadWord m.mem m.sp.toNat ∧ m'.pc = loadWord m.mem (m.sp.toNat + 8) ∧
      m'.sp = m.sp + BitVec.ofNat 64 16 ∧ m'.mem = m.mem ∧ m'.pstate = m.pstate := by
  refine ⟨?_, ?_, rfl, rfl, rfl⟩
  · change loadWord m.mem (m.sp + 0#64).toNat = _
    rw [BitVec.add_zero]
  · change loadWord m.mem ((m.sp + 0#64).toNat + 8) = _
    rw [BitVec.add_zero]

/-- A thread that a CPU runs is not one that has been left. -/
theorem ThreadsInv.not_current (hi : ThreadsInv pl s) (haway : (s.history t).away.isSome = true) (d : Fin N) :
    s.current d ≠ t := by
  intro hd
  have hrunning := (hi.cpus d).running
  rw [hd] at hrunning
  rw [hrunning] at haway
  cases haway

/-- One CPU turns to a thread that no CPU runs, and no two CPUs run the same one. -/
theorem apart_update {f : Fin N → T} (hf : ∀ d e, f d = f e → d = e) (c : Fin N)
    (hidle : ∀ d, f d ≠ t) (d e : Fin N)
    (hde : Function.update f c t d = Function.update f c t e) : d = e := by
  by_cases hd : d = c
  · by_cases he : e = c
    · rw [hd, he]
    · rw [hd, Function.update_self, Function.update_of_ne he] at hde
      exact absurd hde.symm (hidle e)
  · by_cases he : e = c
    · rw [he, Function.update_self, Function.update_of_ne hd] at hde
      exact absurd hde (hidle d)
    · rw [Function.update_of_ne hd, Function.update_of_ne he] at hde
      exact hf d e hde

/-- `cpu_switch_to`, called for two different threads. -/
theorem cpuSwitchTo_threads {c : Fin N} {next : T} (hne : next ≠ s.current c)
    (h₀ : ((s.cpu c).x 0).toNat = pl.record (s.current c))
    (h₁ : ((s.cpu c).x 1).toNat = pl.record next) :
    Switched (pl.record (s.current c)) (pl.record next) (s.arm c) (run cpuSwitchTo (s.arm c)) := by
  have hprev := pl.record_le (s.current c)
  have hnext := pl.record_le next
  have happart := pl.records_apart _ _ hne.symm
  rw [← h₀, ← h₁] at happart
  rw [← h₀] at hprev
  rw [← h₁] at hnext
  have hspec := cpuSwitchTo_spec (m := s.arm c) hprev hnext happart
  rw [show ((s.arm c).x 0).toNat = pl.record (s.current c) from h₀,
    show ((s.arm c).x 1).toNat = pl.record next from h₁] at hspec
  exact hspec

/-- The way back from the newest exception. -/
theorem ThreadsInv.leave_eq {c : Fin N} {p : Pending} (hi : ThreadsInv pl s)
    (hpending : (s.history (s.current c)).pending = p :: ps) (hsp : (s.cpu c).sp.toNat = p.frame) :
    run p.ventry.leave (s.arm c) = (s.arm c).setRegs (leaveRegs p.ventry.el p.saved (s.cpu c)) := by
  have hp : p ∈ (s.history (s.current c)).pending := by rw [hpending]; exact List.mem_cons_self
  have hok := hi.threads (s.current c)
  obtain ⟨-, -, hhi⟩ := hok.frames.mem hp
  have htop := stackTop_le pl (s.current c) (s.history (s.current c))
  have hstack := pl.stack_le (s.current c)
  have hspec := p.ventry.leave_spec (m := s.arm c) (by
    change (s.cpu c).sp.toNat + sFrameSize ≤ 2 ^ 64
    omega)
  rw [hspec, show (s.arm c).sp.toNat = p.frame from hsp, show (s.arm c).mem = s.mem from rfl,
    (hok.saved p hp).1]
  rfl

end Invariant

/-! ## Runs -/

section Runs

variable {T : Type} [DecidableEq T] {N : Nat} {pl : Placement T} {L : Labels} {st : Starts}
  {s s' : Cores T N} {c : Fin N} {m : Arm} {h : ThreadHistory} {t : T}

/-- A CPU executes code on its own thread. -/
theorem ThreadsInv.next (hi : ThreadsInv pl s) (hok : ThreadOk pl m.mem (s.current c) h)
    (hrun : RunsOk pl (s.current c) h m.toArmRegs)
    (hm : ∀ y, ¬ThreadArea pl (s.current c) y → m.mem y = s.mem y) : ThreadsInv pl (s.next c m h) := by
  have hhistory : ∀ u, u ≠ s.current c → (s.next c m h).history u = s.history u := fun u hu => by
    simp only [Cores.next, Function.update_of_ne hu]
  have hself : (s.next c m h).history (s.current c) = h := by
    simp only [Cores.next, Function.update_self]
  refine ⟨fun u => ?_, fun d => ?_, hi.apart, fun u hu => ?_⟩
  · by_cases hu : u = s.current c
    · rw [hu, hself]
      exact hok
    · rw [hhistory u hu]
      exact (hi.threads u).other hu hm
  · by_cases hd : d = c
    · subst hd
      change RunsOk pl (s.current d) ((s.next d m h).history (s.current d)) ((s.next d m h).cpu d)
      rw [hself]
      simp only [Cores.next, Function.update_self]
      exact hrun
    · have hne : s.current d ≠ s.current c := fun he => hd (hi.apart d c he)
      change RunsOk pl (s.current d) ((s.next c m h).history (s.current d)) ((s.next c m h).cpu d)
      rw [hhistory _ hne]
      simp only [Cores.next, Function.update_of_ne hd]
      exact hi.cpus d
  · have hlive : s.live u := by
      by_cases he : u = s.current c
      · exact .inr ⟨c, he.symm⟩
      · rcases hu with hu | hu
        · rw [hhistory u he] at hu
          exact .inl hu
        · exact .inr hu
    change loadWord m.mem (pl.stack u) = _
    rw [info_congr hm u, hi.info u hlive]

/-- One thread gives its CPU to another. -/
theorem ThreadsInv.switchTo {next : T} {k : CpuContext} (hi : ThreadsInv pl s)
    (hkernel : (s.cpu c).user = false) (hne : next ≠ s.current c) (haway : (s.history next).away = some k)
    (hm : Switched (pl.record (s.current c)) (pl.record next) (s.arm c) m) :
    ThreadsInv pl
      { s.next c m { s.history (s.current c) with away := some (contextOf (s.cpu c)) } with
        current := Function.update s.current c next
        history := Function.update (Function.update s.history (s.current c)
          { s.history (s.current c) with away := some (contextOf (s.cpu c)) }) next
          { s.history next with away := none } } := by
  have hisSome : (s.history next).away.isSome = true := by rw [haway]; rfl
  have hidle := fun d => hi.not_current hisSome d
  have harea : ∀ y, ¬ThreadArea pl (s.current c) y → m.mem y = s.mem y := by
    intro y hy
    refine hm.mem y ?_
    simp only [ThreadArea] at hy
    omega
  have hleft : ThreadOk pl m.mem (s.current c)
      { s.history (s.current c) with away := some (contextOf (s.cpu c)) } :=
    (hi.threads _).leaveCpu (hi.cpus c) hm.saved hm.mem
  have hmnext : ThreadOk pl m.mem next (s.history next) := (hi.threads next).other hne harea
  have hkernel' : m.user = false := (ArmRegs.user_congr hm.pstate).trans hkernel
  have hcontext : contextOf m.toArmRegs = k := by
    rw [hm.context]
    exact ((hi.threads next).context k haway).1
  obtain ⟨hnextOk, hnextRuns⟩ := hmnext.enterCpu haway hcontext hkernel'
  refine ⟨fun u => ?_, fun d => ?_, apart_update hi.apart c hidle, fun u hu => ?_⟩
  · by_cases hu : u = next
    · subst hu
      simp only [Function.update_self]
      exact hnextOk
    · by_cases hu' : u = s.current c
      · subst hu'
        simp only [Function.update_of_ne hu, Function.update_self]
        exact hleft
      · simp only [Function.update_of_ne hu, Function.update_of_ne hu']
        exact (hi.threads u).other hu' harea
  · by_cases hd : d = c
    · subst hd
      simp only [Function.update_self, Cores.next]
      exact hnextRuns
    · have hdc : s.current d ≠ s.current c := fun he => hd (hi.apart d c he)
      simp only [Function.update_of_ne hd, Function.update_of_ne (hidle d), Function.update_of_ne hdc,
        Cores.next]
      exact hi.cpus d
  · have hlive : s.live u := by
      by_cases hun : u = next
      · rw [hun]
        exact .inl hisSome
      · by_cases huc : u = s.current c
        · exact .inr ⟨c, huc.symm⟩
        · rcases hu with hu | ⟨d, hd⟩
          · simp only [Function.update_of_ne hun, Function.update_of_ne huc] at hu
            exact .inl hu
          · by_cases hdc : d = c
            · subst hdc
              simp only [Function.update_self] at hd
              exact absurd hd.symm hun
            · simp only [Function.update_of_ne hdc] at hd
              exact .inr ⟨d, hd⟩
    change loadWord m.mem (pl.stack u) = _
    rw [info_congr harea u, hi.info u hlive]

/-- A system call sets a register of its caller. -/
theorem ThreadsInv.setReg {p : Pending} {ps : List Pending} (hi : ThreadsInv pl s)
    (hkernel : (s.cpu c).user = false) (hpending : (s.history (s.current c)).pending = p :: ps)
    (k : Fin 31) (v : Word) :
    ThreadsInv pl (s.next c { s.cpu c with mem := storeWord s.mem (p.frame + 8 * k) v }
      { s.history (s.current c) with pending := p.setReg k v :: ps }) := by
  obtain ⟨hok, hm⟩ := (hi.threads _).setReg (hi.cpus c).running hpending k v
  refine hi.next hok ⟨(hi.cpus c).running, (hi.cpus c).low, ?_, fun hu => ?_⟩ hm
  · have hhigh := (hi.cpus c).high
    rw [ThreadHistory.limit, hpending] at hhigh
    exact hhigh
  · change (s.cpu c).user = true at hu
    rw [hkernel] at hu
    cases hu

/-- A thread that was not in use gets a history. -/
theorem ThreadsInv.add {m' : Mem} (hi : ThreadsInv pl s) (hfresh : s.fresh t)
    (hok : ThreadOk pl m' t h)
    (hinfo : loadWord m' (pl.stack t) = BitVec.ofNat 64 (pl.record t))
    (hm : ∀ y, ¬ThreadArea pl t y → (y < pl.stack t ∨ pl.stack t + 8 ≤ y) → m' y = s.mem y) :
    ThreadsInv pl { s with mem := m', history := Function.update s.history t h } := by
  obtain ⟨hidle, -, -, -⟩ := hfresh
  have hother : ∀ u, u ≠ t → ∀ y, ThreadArea pl u y ∨ (pl.stack u ≤ y ∧ y < pl.stack u + 8) →
      m' y = s.mem y := fun u hu y hy => by
    obtain ⟨h₁, h₂⟩ := area_apart hu hy
    exact hm y h₁ h₂
  refine ⟨fun u => ?_, fun d => ?_, hi.apart, fun u hu => ?_⟩
  · by_cases hu : u = t
    · subst hu
      simp only [Function.update_self]
      exact hok
    · simp only [Function.update_of_ne hu]
      exact (hi.threads u).congr fun y hy => hother u hu y ((hi.threads u).holds hy)
  · simp only [Function.update_of_ne (hidle d)]
    exact hi.cpus d
  · by_cases hut : u = t
    · rw [hut]
      exact hinfo
    · have hlive : s.live u := by
        rcases hu with hu | hu
        · simp only [Function.update_of_ne hut] at hu
          exact .inl hu
        · exact .inr hu
      rw [← hi.info u hlive]
      exact loadWord_congr fun y h₁ h₂ => hother u hut y (.inr ⟨h₁, h₂⟩)

/-- `sys_fork` makes a child. -/
theorem ThreadsInv.fork {p : Pending} (hi : ThreadsInv pl s) (hkernel : (s.cpu c).user = false)
    (hpending : (s.history (s.current c)).pending = [p]) (hsync : p.ventry = .el0Sync)
    (hfresh : s.fresh t) (pid : Word) :
    let m' := forkMem pl st s.mem (s.current c) t p.frame pid
    ThreadsInv pl { s with
      mem := m'
      history := Function.update (Function.update s.history (s.current c)
        { s.history (s.current c) with pending := [p.setReg 0 pid] }) t
        { pending := [childPending pl t p], away := some (contextAt m' (pl.record t)) } } := by
  intro m'
  have hne : s.current c ≠ t := hfresh.1 c
  have hok := hi.threads (s.current c)
  obtain ⟨hlo, -, hhi⟩ := hok.frames.mem (by rw [hpending]; exact List.mem_cons_self : p ∈ _)
  have htop := stackTop_le pl (s.current c) (s.history (s.current c))
  have hmem : ForkMem pl st s.mem m' t p.frame pid := forkMem_spec st s.mem hne pid hlo (by omega)
  -- the parent gets its result, and the child is added
  have hparent := hi.setReg hkernel hpending 0 pid
  have hfresh' : (s.next c { s.cpu c with mem := storeWord s.mem (p.frame + 8 * (0 : Fin 31)) pid }
      { s.history (s.current c) with pending := [p.setReg 0 pid] }).fresh t := by
    simp only [Cores.fresh, Cores.next, Function.update_of_ne hne.symm]
    exact hfresh
  have hadd := hparent.add hfresh' (hok.child hpending hsync hmem) hmem.info hmem.other
  simp only [Cores.next, Function.update_eq_self] at hadd
  exact hadd

theorem ThreadsInv.callFunc (hi : ThreadsInv pl s)
    (hpending : (s.history (s.current c)).pending = []) (hkernel : (s.cpu c).user = false)
    (hsp : (s.cpu c).sp.toNat = pl.stack (s.current c) + kernelStackSize - 16) :
    ThreadsInv pl (s.next c (run Kernel.callThreadFunc (s.arm c))
      { s.history (s.current c) with starting := none }) := by
  have hstack : 24 ≤ kernelStackSize := by decide
  have hle := pl.stack_le (s.current c)
  obtain ⟨-, -, hnew, hmem, hpstate⟩ := callThreadFunc_spec (s.arm c)
  have hsp' : (run Kernel.callThreadFunc (s.arm c)).sp.toNat = pl.stack (s.current c) + kernelStackSize := by
    rw [hnew]
    change ((s.cpu c).sp + BitVec.ofNat 64 16).toNat = _
    rw [bump_toNat, hsp]
    · omega
    · omega
  have hrun := hi.cpus c
  have hok := hi.threads (s.current c)
  refine hi.next ⟨?_, ?_, fun k hk => ?_, fun _ _ hs => by cases hs⟩ ⟨hrun.running, ?_, ?_, fun hu => ?_⟩
    fun y _ => ?_
  · simp only [hpending]
    trivial
  · simp only [hpending]
    intro p hp
    cases hp
  · rw [show (s.history (s.current c)).away = none from hrun.running] at hk
    cases hk
  · omega
  · rw [ThreadHistory.limit, hpending]
    exact hsp'.le
  · rw [ArmRegs.user_congr hpstate] at hu
    exact absurd (hu.symm.trans hkernel) (by decide)
  · rw [hmem]
    rfl

/-- The history of a thread that does not run is dropped. -/
theorem ThreadsInv.clear (hi : ThreadsInv pl s) (haway : (s.history t).away.isSome = true) :
    ThreadsInv pl { s with history := Function.update s.history t {} } := by
  have hidle := fun d => hi.not_current haway d
  refine ⟨fun u => ?_, fun d => ?_, hi.apart, fun u hu => hi.info u ?_⟩
  · by_cases hu : u = t
    · subst hu
      simp only [Function.update_self]
      exact ⟨trivial, fun p hp => (by cases hp), fun k hk => (by cases hk), fun _ _ hs => (by cases hs)⟩
    · simp only [Function.update_of_ne hu]
      exact hi.threads u
  · simp only [Function.update_of_ne (hidle d)]
    exact hi.cpus d
  · by_cases hut : u = t
    · rw [hut]
      exact .inl haway
    · rcases hu with hu | hu
      · simp only [Function.update_of_ne hut] at hu
        exact .inl hu
      · exact .inr hu

variable [Fintype T]

/-- The step lemma: an action keeps what is saved. -/
theorem ThreadsInv.step (hi : ThreadsInv pl s) {a : ThreadsAction T N}
    (ha : threadsStep pl L st s a = some s') : ThreadsInv pl s' := by
  cases threadsStep_move pl ha with
  | except c v vector hel _ hroom =>
      have hsize : sFrameSize ≤ (s.arm c).sp.toNat := by
        change sFrameSize ≤ (s.cpu c).sp.toNat
        omega
      obtain ⟨hok, hrun, hm⟩ := (hi.threads (s.current c)).take (hi.cpus c) hel hroom
        (v.take_spec (m := s.arm c) L vector hsize)
      exact hi.next hok hrun hm
  | leave c p ps hpending _ hsp =>
      have hp : p ∈ (s.history (s.current c)).pending := by rw [hpending]; exact List.mem_cons_self
      obtain ⟨hok, hrun⟩ := (hi.threads (s.current c)).leave (hi.cpus c) hpending hsp
      rw [((hi.threads (s.current c)).saved p hp).1] at hrun
      rw [hi.leave_eq hpending hsp]
      exact hi.next hok hrun fun _ _ => rfl
  | switchTo c next hkernel hne haway h₀ h₁ =>
      obtain ⟨k, hk⟩ := Option.isSome_iff_exists.1 haway
      exact hi.switchTo hkernel hne hk (cpuSwitchTo_threads hne h₀ h₁)
  | compute c r _ huser hlow hhigh =>
      have hrun := hi.cpus c
      have hnext := hi.next (c := c) (m := { r with mem := s.mem }) (hi.threads (s.current c))
        ⟨hrun.running, hlow, hhigh, huser⟩ fun _ _ => rfl
      simp only [Cores.next, Function.update_eq_self] at hnext
      exact hnext
  | store y b hfree =>
      -- nothing that is saved contains the byte
      have hother : ∀ u z, (s.history u).Holds pl u z → Function.update s.mem y b z = s.mem z :=
        fun u z hz => by
          have hzy : z ≠ y := fun he => hfree u (by rwa [he] at hz)
          rw [Function.update_of_ne hzy]
      refine ⟨fun u => (hi.threads u).congr (hother u), hi.cpus, hi.apart, fun u hu => ?_⟩
      rw [← hi.info u hu]
      exact loadWord_congr fun z h₁ h₂ => hother u z (.inr (.inr (.inr ⟨h₁, h₂⟩)))
  | setReg c k v p ps hpending hkernel => exact hi.setReg hkernel hpending k v
  | fork c child pid p hpending hkernel hsync hfresh => exact hi.fork hkernel hpending hsync hfresh pid
  | kernelThread t fn args hfresh =>
      have hmem := @kernelThreadMem_spec T pl st s.mem t fn args
      exact hi.add hfresh (ThreadOk.made hmem) hmem.info hmem.other
  | callFunc c _ hpending hkernel _ hsp => exact hi.callFunc hpending hkernel hsp
  | clear t haway => exact hi.clear haway

/-- The machine when `init_sched` has run: every CPU executes a thread of its own, and no other thread
is in use. -/
structure ThreadsBoot (pl : Placement T) (s : Cores T N) : Prop where
  history : ∀ t, s.history t = {}
  low : ∀ c, pl.stack (s.current c) + 8 ≤ (s.cpu c).sp.toNat
  high : ∀ c, (s.cpu c).sp.toNat ≤ pl.stack (s.current c) + kernelStackSize
  apart : ∀ c d, s.current c = s.current d → c = d
  info : ∀ c, loadWord s.mem (pl.stack (s.current c)) = BitVec.ofNat 64 (pl.record (s.current c))

omit [DecidableEq T] [Fintype T] in
theorem threadsBoot_inv (hb : ThreadsBoot pl s) : ThreadsInv pl s := by
  refine ⟨fun t => ?_, fun c => ⟨?_, hb.low c, ?_, fun _ => ?_⟩, hb.apart, fun t ht => ?_⟩
  · rw [hb.history t]
    exact ⟨trivial, fun p hp => (by cases hp), fun k hk => (by cases hk), fun _ _ hs => (by cases hs)⟩
  · rw [hb.history]
  · rw [hb.history]
    exact hb.high c
  · rw [hb.history]
  · rcases ht with ht | ⟨c, rfl⟩
    · rw [hb.history] at ht
      cases ht
    · exact hb.info c

/-- What is saved stays saved, in every state that can be reached. -/
theorem threadsRun_inv {s₀ : Cores T N} {as : List (ThreadsAction T N)} (hb : ThreadsBoot pl s₀)
    (hrun : runFrom (threadsStep pl L st) s₀ as = some s) : ThreadsInv pl s :=
  runFrom_invariant (fun _ _ _ hi ha => hi.step ha) (threadsBoot_inv hb) hrun

end Runs

end Kernel
end ToutOS
