import Mathlib.Data.List.Basic
import Mathlib.Logic.Function.Basic
import ToutOS.Base.Run

/-!
# Preempt — spinlocks, the interrupt mask, and the ticks that call `schedule`

A CPU executes the instructions that take and release spinlocks, that mask interrupts, or that switch
tasks; `work` stands for all others.  An interrupt can be taken before any instruction while IRQs are
not masked, also inside of `irq_handler`.

* `spinLock`, `spinLockIrqsave` and the functions that use them, as lists of instructions.
* `irqHandler` — it calls `schedule` if the interrupt came from user mode or if `current->pid` is 0.
* `Preempt`, `preemptStep` — any number of CPUs, the swapper of CPU 0 in `main`, and tasks that make
  any calls.
* `Runs` — what a piece of code does to the mask and to the locks; the functions of the kernel leave
  both as they were (`Neutral`).
* `preemptRun_iff` — the tick never switches out a task that holds a spinlock, in exactly the runs in
  which no tick is taken while `main` is inside of `alloc_mem`.

The pid of a task of the table is not 0.  `free_task_slot` and `get_task_slot` clear only slots of
tasks that do not run; the time after `do_exit` has stored `STOPPED`, when that can fail, ends in
`schedule`, which holds no lock while IRQs are unmasked.
-/

namespace ToutOS
namespace Kernel

open Base

/-! ## Instructions -/

/-- The spinlocks of the kernel. -/
inductive Lock
  | kmallocLock
  | tasksLock
  | timerlistLock
  | uibLock
  | cbufRlock
  | cbufWlock
  /-- The lock of a wait queue. -/
  | waitQueue (q : Nat)
  /-- The inner lock of a mutex. -/
  | mutex (p : Nat)
  deriving DecidableEq, Repr

/-- The instructions that matter here. -/
inductive Instr
  | work
  /-- `MSR DAIFClr, 2`. -/
  | enableIrq
  /-- `MSR DAIFSet, 2`. -/
  | disableIrq
  /-- `MRS X7, DAIF`. -/
  | mrsX7
  /-- `MSR DAIF, X7`. -/
  | msrX7
  /-- `MRS flags, DAIF`, for the local variable `flags` of a function. -/
  | mrsFlags
  /-- `MSR DAIF, flags`. -/
  | msrFlags
  /-- `LDXR` and `STXR` of `spin_lock`. -/
  | tryLock (l : Lock)
  /-- `STXR` of `spin_unlock`. -/
  | unlock (l : Lock)
  /-- `cpu_switch_to`. -/
  | switchTo
  /-- `kernel_exit`. -/
  | eret
  deriving DecidableEq, Repr

/-! ## The functions of the kernel -/

/-- `local_irq_save`. -/
def localIrqSave : List Instr := [.mrsFlags, .disableIrq]

/-- `local_irq_restore`. -/
def localIrqRestore : List Instr := [.msrFlags]

/-- `spin_lock`. -/
def spinLock (l : Lock) : List Instr := [.mrsX7, .disableIrq, .tryLock l, .msrX7]

/-- `spin_unlock`. -/
def spinUnlock (l : Lock) : List Instr := [.mrsX7, .disableIrq, .unlock l, .msrX7]

/-- `spin_lock_irqsave`. -/
def spinLockIrqsave (l : Lock) : List Instr := localIrqSave ++ spinLock l

/-- `spin_unlock_irqrestore`. -/
def spinUnlockIrqrestore (l : Lock) : List Instr := spinUnlock l ++ localIrqRestore

/-- A section between `spin_lock` and `spin_unlock`. -/
def locked (l : Lock) (body : List Instr) : List Instr := spinLock l ++ body ++ spinUnlock l

/-- A section between `spin_lock_irqsave` and `spin_unlock_irqrestore`. -/
def lockedIrqsave (l : Lock) (body : List Instr) : List Instr :=
  spinLockIrqsave l ++ body ++ spinUnlockIrqrestore l

/-- `n` times the same. -/
def repeated (n : Nat) (code : List Instr) : List Instr := (List.replicate n code).flatten

/-- `printk`, which writes to the log with `write_concurrent_cbuf`. -/
def printkCode : List Instr := .work :: lockedIrqsave .cbufWlock [.work]

/-- `read_concurrent_cbuf`. -/
def readConcurrentCbufCode : List Instr := lockedIrqsave .cbufRlock [.work]

/-- `set_task_state`. -/
def setTaskStateCode : List Instr := lockedIrqsave .tasksLock [.work]

/-- `get_task_slot`, which reports `n` slots that it frees. -/
def getTaskSlotCode (n : Nat) : List Instr :=
  lockedIrqsave .tasksLock (.work :: repeated n printkCode)

/-- `free_task_slot`. -/
def freeTaskSlotCode : List Instr := lockedIrqsave .tasksLock [.work]

/-- `get_next_proc`. -/
def getNextProcCode : List Instr := lockedIrqsave .tasksLock [.work]

/-- `dump_tasks`, with `n` lines of text. -/
def dumpTasksCode (n : Nat) : List Instr := lockedIrqsave .tasksLock (repeated n printkCode)

/-- `schedule`. -/
def scheduleCode : List Instr := getNextProcCode ++ [.work, .switchTo]

/-- `alloc_mem` on the pool of `kmalloc`. -/
def allocMemCode : List Instr := .work :: locked .kmallocLock [.work]

/-- What `mem_blk_ok` finds. -/
inductive BlkCheck
  | ok
  | badMagic
  | notInUse
  deriving DecidableEq, Repr

/-- The calls of `printk` in `mem_blk_magic_ok`, `dump_mem_blk`, `mem_blk_ok` and `free_mem`. -/
def BlkCheck.reports : BlkCheck → Nat
  | .ok => 0
  | .badMagic => 8
  | .notInUse => 2

/-- `free_mem` on the pool of `kmalloc`; a bad pointer is reported under the lock. -/
def freeMemCode (found : BlkCheck) : List Instr :=
  .work :: locked .kmallocLock (.work :: repeated found.reports printkCode)

/-- `add_timer`, `del_timer` and `mod_timer`. -/
def timerCode : List Instr := lockedIrqsave .timerlistLock [.work]

/-- `run_timer_softirq`, when `n` timers are due; their function is `process_timeout`. -/
def runTimerSoftirqCode (n : Nat) : List Instr :=
  spinLockIrqsave .timerlistLock ++
    repeated n (spinUnlockIrqrestore .timerlistLock ++ setTaskStateCode ++
      spinLockIrqsave .timerlistLock) ++ spinUnlockIrqrestore .timerlistLock

/-- `schedule_timeout`. -/
def scheduleTimeoutCode : List Instr := timerCode ++ scheduleCode ++ timerCode

/-- `add_wait_queue` and `remove_wait_queue`. -/
def waitQueueCode (q : Nat) : List Instr := lockedIrqsave (.waitQueue q) [.work]

/-- `wake_up` for a queue with `n` entries. -/
def wakeUpCode (q n : Nat) : List Instr := lockedIrqsave (.waitQueue q) (repeated n setTaskStateCode)

/-- The number of `uib_wq_head`. -/
def uibWqHead : Nat := 0

/-- `to_line_discipline`; the end of a line wakes `n` readers up. -/
def toLineDisciplineCode : Option Nat → List Instr
  | none => lockedIrqsave .uibLock [.work]
  | some n => lockedIrqsave .uibLock [.work] ++ wakeUpCode uibWqHead n

/-- The end of `read_stdin`; a `count` that is too small is reported under the lock. -/
def takeLineCode (tooSmall : Bool) : List Instr := .work :: if tooSmall then printkCode else []

/-- `read_stdin`; if there is no line yet, it waits `n` times. -/
def readStdinCode (tooSmall : Bool) : Option Nat → List Instr
  | none => lockedIrqsave .uibLock (takeLineCode tooSmall)
  | some n =>
      spinLockIrqsave .uibLock ++ (waitQueueCode uibWqHead ++ setTaskStateCode) ++
        repeated n (spinUnlockIrqrestore .uibLock ++ (setTaskStateCode ++ scheduleCode) ++
          spinLockIrqsave .uibLock) ++
        (setTaskStateCode ++ waitQueueCode uibWqHead ++ takeLineCode tooSmall) ++
        spinUnlockIrqrestore .uibLock

/-- `mutex_lock`, which finds the mutex locked `n` times before it gets it. -/
def mutexLockCode (p n : Nat) : List Instr :=
  repeated n (locked (.mutex p) (.work :: setTaskStateCode) ++ scheduleCode) ++
    locked (.mutex p) [.work]

/-- `mutex_unlock`, which may find a task to wake up. -/
def mutexUnlockCode (p : Nat) (wakes : Bool) : List Instr :=
  locked (.mutex p) (.work :: if wakes then setTaskStateCode else [])

/-- How a call of `kernel_thread` ends. -/
inductive ThreadResult
  | created
  | noSlot
  | noMemory
  deriving DecidableEq, Repr

/-- `kernel_thread`, when `get_task_slot` frees `n` slots. -/
def kernelThreadCode (n : Nat) : ThreadResult → List Instr
  | .created => getTaskSlotCode n ++ allocMemCode ++ [.work]
  | .noSlot => getTaskSlotCode n ++ printkCode
  | .noMemory => getTaskSlotCode n ++ allocMemCode ++ freeTaskSlotCode ++ printkCode

/-- `main` from the first call of `kernel_thread` on; it returns when one of them fails, and else
prints `lines` lines about the tasks. -/
def mainCode (lines : Nat) : List (Nat × ThreadResult) → List Instr
  | [] => dumpTasksCode lines
  | (n, .created) :: rest => kernelThreadCode n .created ++ mainCode lines rest
  | (n, r) :: _ => kernelThreadCode n r

/-! ## Calls -/

/-- The functions that interrupt handlers call, too. -/
inductive ShortCall
  | work
  | printk
  | readConcurrentCbuf
  | setTaskState
  | getTaskSlot (n : Nat)
  | freeTaskSlot
  | dumpTasks (n : Nat)
  | timer
  | runTimerSoftirq (n : Nat)
  | waitQueue (q : Nat)
  | wakeUp (q n : Nat)
  | toLineDiscipline (wakes : Option Nat)

def ShortCall.code : ShortCall → List Instr
  | .work => [.work]
  | .printk => printkCode
  | .readConcurrentCbuf => readConcurrentCbufCode
  | .setTaskState => setTaskStateCode
  | .getTaskSlot n => getTaskSlotCode n
  | .freeTaskSlot => freeTaskSlotCode
  | .dumpTasks n => dumpTasksCode n
  | .timer => timerCode
  | .runTimerSoftirq n => runTimerSoftirqCode n
  | .waitQueue q => waitQueueCode q
  | .wakeUp q n => wakeUpCode q n
  | .toLineDiscipline wakes => toLineDisciplineCode wakes

/-- What a task does in the kernel: `sys_fork`, `sys_brk`, `do_exit` and the others are made of these
calls. -/
inductive KernelCall
  | short (f : ShortCall)
  | kmalloc
  | kfree (found : BlkCheck)
  | mutexLock (p n : Nat)
  | mutexUnlock (p : Nat) (wakes : Bool)
  | schedule
  | scheduleTimeout
  | readStdin (tooSmall : Bool) (waits : Option Nat)

def KernelCall.code : KernelCall → List Instr
  | .short f => f.code
  | .kmalloc => allocMemCode
  | .kfree found => freeMemCode found
  | .mutexLock p n => mutexLockCode p n
  | .mutexUnlock p wakes => mutexUnlockCode p wakes
  | .schedule => scheduleCode
  | .scheduleTimeout => scheduleTimeoutCode
  | .readStdin tooSmall waits => readStdinCode tooSmall waits

/-- `do_softirq` with the actions that it calls; inside of another one it calls none. -/
def doSoftirqCode : Option (List ShortCall) → List Instr
  | none => localIrqSave ++ [.work] ++ localIrqRestore
  | some actions =>
      localIrqSave ++ [.work] ++ localIrqRestore ++ actions.flatMap ShortCall.code ++
        (localIrqSave ++ [.work] ++ localIrqRestore)

/-- `irq_handler` and the end of `el1_irq` and `el0_irq`; `isr` is what `isr_func[irq]` calls. -/
def irqHandler (schedules : Bool) (isr : List ShortCall) (softirq : Option (List ShortCall)) :
    List Instr :=
  isr.flatMap ShortCall.code ++
    (if schedules then [.enableIrq] ++ scheduleCode ++ [.disableIrq] else []) ++
    doSoftirqCode softirq ++ [.eret]

/-- `el0_sync` with what the system call or the fault does. -/
def el0Sync (calls : List KernelCall) : List Instr :=
  .enableIrq :: (calls.flatMap KernelCall.code ++ [.disableIrq, .eret])

/-! ## The machine -/

/-- One level of execution of a thread: what is left of the code, and its registers and variables. -/
structure Frame where
  code : List Instr := []
  /-- The I bit in `X7`. -/
  x7 : Bool := false
  /-- The I bits in the variables `flags` of the functions that are active, the innermost first. -/
  flags : List Bool := []
  user : Bool := false

/-- A thread, with the levels that exceptions have interrupted and the I bits saved in their
`SPSR_EL1`. -/
structure Thread where
  frame : Frame := {}
  stack : List (Frame × Bool) := []
  /-- History: the spinlocks that it has taken and not released. -/
  held : List Lock := []

/-- The swapper of a CPU, or the task in a slot. -/
inductive ThreadId
  | swapper (c : Nat)
  | task (i : Nat)
  deriving DecidableEq, Repr

/-- `pid` of the thread. -/
def ThreadId.pid : ThreadId → Nat
  | .swapper _ => 0
  | .task i => i + 1

/-- The CPU of the thread, out of `N`. -/
def ThreadId.cpu (N : Nat) : ThreadId → Nat
  | .swapper c => c
  | .task i => i % N

structure Preempt where
  thread : ThreadId → Thread
  current : Nat → ThreadId
  /-- The I bit in `DAIF` of each CPU: IRQs are masked. -/
  irqOff : Nat → Bool
  /-- The words of the spinlocks. -/
  locks : Lock → Bool

/-- The thread that CPU `c` executes. -/
def Preempt.running (s : Preempt) (c : Nat) : Thread := s.thread (s.current c)

/-- The state after a step of CPU `c` in its thread. -/
def Preempt.set (s : Preempt) (c : Nat) (t : Thread) (irqOff : Bool) : Preempt :=
  { s with
    thread := Function.update s.thread (s.current c) t
    irqOff := Function.update s.irqOff c irqOff }

inductive PreemptAction
  /-- CPU `c` executes an instruction; the `STXR` of `spin_lock` may fail. -/
  | exec (c : Nat) (stxrFails : Bool)
  /-- CPU `c` executes `cpu_switch_to`. -/
  | switchTo (c : Nat) (next : ThreadId)
  /-- A kernel thread goes on with some calls. -/
  | call (c : Nat) (calls : List KernelCall)
  /-- A task goes to user mode. -/
  | userMode (c : Nat)
  /-- An exception from user mode that is not an interrupt. -/
  | svc (c : Nat) (calls : List KernelCall)
  /-- An interrupt, from the timer or from a device. -/
  | irq (c : Nat) (timer : Bool) (isr : List ShortCall) (softirq : Option (List ShortCall))
  /-- A slot is filled with a new task. -/
  | create (i : Nat)

/-- The test of `irq_handler` after a timer interrupt on CPU `c`. -/
def Preempt.schedules (s : Preempt) (c : Nat) : Bool :=
  (s.running c).frame.user || (s.current c).pid = 0

/-- An exception: the code is interrupted, IRQs are masked. -/
def Thread.interrupt (t : Thread) (irqOff : Bool) (code : List Instr) : Thread :=
  { t with frame := { code := code }, stack := (t.frame, irqOff) :: t.stack }

/-- CPU `c` executes the instruction `a`, and `rest` is left. -/
def execInstr (s : Preempt) (c : Nat) (stxrFails : Bool) (rest : List Instr) : Instr → Option Preempt
  | .work => some (s.set c { t with frame := { f with code := rest } } (s.irqOff c))
  | .enableIrq => some (s.set c { t with frame := { f with code := rest } } false)
  | .disableIrq => some (s.set c { t with frame := { f with code := rest } } true)
  | .mrsX7 => some (s.set c { t with frame := { f with code := rest, x7 := s.irqOff c } } (s.irqOff c))
  | .msrX7 => some (s.set c { t with frame := { f with code := rest } } f.x7)
  | .mrsFlags =>
      some (s.set c { t with frame := { f with code := rest, flags := s.irqOff c :: f.flags } }
        (s.irqOff c))
  | .msrFlags =>
      match f.flags with
      | [] => none
      | flags :: outer =>
          some (s.set c { t with frame := { f with code := rest, flags := outer } } flags)
  | .tryLock l =>
      if s.locks l || stxrFails then
        -- back to the beginning of `spin_lock`
        some (s.set c
          { t with frame := { f with code := [.msrX7, .mrsX7, .disableIrq, .tryLock l] ++ rest } }
          (s.irqOff c))
      else
        some { s.set c { t with frame := { f with code := rest }, held := l :: t.held } (s.irqOff c) with
          locks := Function.update s.locks l true }
  | .unlock l =>
      some { s.set c { t with frame := { f with code := rest }, held := t.held.erase l } (s.irqOff c) with
        locks := Function.update s.locks l false }
  | .switchTo => none
  | .eret =>
      match t.stack with
      | [] => none
      | (g, irqOff) :: stack => some (s.set c { t with frame := g, stack := stack } irqOff)
where
  t := s.running c
  f := (s.running c).frame

/-- One step on a machine with `N` CPUs. -/
def preemptStep (N : Nat) (s : Preempt) : PreemptAction → Option Preempt
  | .exec c stxrFails =>
      match (s.running c).frame.code with
      | [] => none
      | a :: rest => execInstr s c stxrFails rest a
  | .switchTo c next =>
      match (s.running c).frame.code with
      | .switchTo :: rest =>
          if next.cpu N = c then
            let t := s.running c
            some { s.set c { t with frame := { t.frame with code := rest } } (s.irqOff c) with
              current := Function.update s.current c next }
          else none
      | _ => none
  | .call c calls =>
      match s.current c, s.running c with
      | .task _, t =>
          if t.frame.code = [] ∧ t.frame.user = false then
            some (s.set c { t with frame := { t.frame with code := calls.flatMap KernelCall.code } }
              (s.irqOff c))
          else none
      | .swapper _, _ => none
  | .userMode c =>
      match s.current c, s.running c with
      | .task _, t =>
          if t.frame.code = [] ∧ t.stack.isEmpty = true then
            some (s.set c { t with frame := { t.frame with user := true } } (s.irqOff c))
          else none
      | .swapper _, _ => none
  | .svc c calls =>
      match s.current c, s.running c with
      | .task _, t =>
          if t.frame.user = true then some (s.set c (t.interrupt (s.irqOff c) (el0Sync calls)) true)
          else none
      | .swapper _, _ => none
  | .irq c timer isr softirq =>
      if s.irqOff c = false then
        some (s.set c
          ((s.running c).interrupt false (irqHandler (timer && s.schedules c) isr softirq)) true)
      else none
  | .create i =>
      if s.current (i % N) ≠ .task i then
        some { s with thread := Function.update s.thread (.task i) {} }
      else none

/-- The machine when `main` begins to start its threads; `rs` says how the calls of `kernel_thread`
end.  What `main` does before, with IRQs unmasked, takes no lock but that of the log. -/
def preemptBoot (lines : Nat) (rs : List (Nat × ThreadResult)) : Preempt where
  thread
    | .swapper 0 => { frame := { code := mainCode lines rs } }
    | _ => {}
  current := .swapper
  irqOff _ := false
  locks _ := false

/-! ## What the ticks should not do, and what they do -/

/-- If the action is a tick for which `irq_handler` calls `schedule`, the interrupted thread holds no
spinlock. -/
def NoLockHeld (s : Preempt) : PreemptAction → Prop
  | .irq c true _ _ => s.irqOff c = false → s.schedules c = true → (s.running c).held = []
  | _ => True

/-- The run switches out no thread that holds a spinlock in a tick, and a thread that does not run
never holds one. -/
def KeepsNoLock (N : Nat) (s : Preempt) (as : List PreemptAction) : Prop :=
  Along (preemptStep N) NoLockHeld s as ∧
    ∀ t, runFrom (preemptStep N) s as = some t →
      ∀ id : ThreadId, t.current (id.cpu N) ≠ id → (t.thread id).held = []

/-- The action is not a tick that interrupts the swapper while it holds the lock of `kmalloc`. -/
def OutsideKmalloc (s : Preempt) : PreemptAction → Prop
  | .irq c true _ _ =>
      s.irqOff c = false → (s.current c).pid = 0 → Lock.kmallocLock ∉ (s.running c).held
  | _ => True

/-! ## What a piece of code does to the mask and the locks -/

/-- The locks that a thread may hold while IRQs are not masked. -/
def FreeLock : ThreadId → Lock → Prop
  | .swapper _, l => l = .kmallocLock
  | .task _, _ => True

/-- While IRQs are not masked, only locks of `free` are held. -/
def Guarded (free : Lock → Prop) (irqOff : Bool) (held : List Lock) : Prop :=
  irqOff = false → ∀ l ∈ held, free l

/-- The code can be executed: it leaves a section with the lock that it has taken last, calls
`cpu_switch_to` with no lock and with IRQs unmasked, and returns from an exception with the locks
`base` of the interrupted code. -/
def Runs (free : Lock → Prop) (base : List Lock) :
    List Instr → Bool → Bool → List Bool → List Lock → Prop
  | [], irqOff, _, _, held => irqOff = false ∧ held = []
  | .work :: rest, irqOff, x7, flags, held =>
      Guarded free irqOff held ∧ Runs free base rest irqOff x7 flags held
  | .enableIrq :: rest, irqOff, x7, flags, held =>
      Guarded free irqOff held ∧ Runs free base rest false x7 flags held
  | .disableIrq :: rest, irqOff, x7, flags, held =>
      Guarded free irqOff held ∧ Runs free base rest true x7 flags held
  | .mrsX7 :: rest, irqOff, _, flags, held =>
      Guarded free irqOff held ∧ Runs free base rest irqOff irqOff flags held
  | .msrX7 :: rest, irqOff, x7, flags, held =>
      Guarded free irqOff held ∧ Runs free base rest x7 x7 flags held
  | .mrsFlags :: rest, irqOff, x7, flags, held =>
      Guarded free irqOff held ∧ Runs free base rest irqOff x7 (irqOff :: flags) held
  | .msrFlags :: rest, irqOff, x7, flags, held =>
      Guarded free irqOff held ∧
        ∃ f outer, flags = f :: outer ∧ Runs free base rest f x7 outer held
  | .tryLock l :: rest, irqOff, x7, flags, held =>
      irqOff = true ∧ (Guarded free x7 held ∧ Runs free base rest true x7 flags (l :: held))
  | .unlock l :: rest, irqOff, x7, flags, held =>
      irqOff = true ∧ ∃ outer, held = l :: outer ∧ Runs free base rest true x7 flags outer
  | .switchTo :: rest, irqOff, x7, flags, held =>
      (irqOff = false ∧ held = []) ∧ Runs free base rest false x7 flags []
  | .eret :: _, irqOff, _, _, held => irqOff = true ∧ held = base

/-- The code leaves the mask, the locks and the variables as they were; `X7` may change. -/
def Neutral (free : Lock → Prop) (base : List Lock) (irqOff : Bool) (held : List Lock)
    (code : List Instr) : Prop :=
  ∀ flags rest, (∀ x7, Runs free base rest irqOff x7 flags held) →
    ∀ x7, Runs free base (code ++ rest) irqOff x7 flags held

section Neutral

variable {free : Lock → Prop} {base held : List Lock} {irqOff : Bool} {l : Lock}
  {code code' body rest : List Instr}

/-- Before the next instruction only locks of `free` are held, or IRQs are masked. -/
theorem Runs.guarded {x7 : Bool} {flags : List Bool} (h : Runs free base rest irqOff x7 flags held) :
    Guarded free irqOff held := by
  cases rest with
  | nil =>
      intro _ l hl
      rw [h.2] at hl
      cases hl
  | cons a rest =>
      cases a with
      | work => exact h.1
      | enableIrq => exact h.1
      | disableIrq => exact h.1
      | mrsX7 => exact h.1
      | msrX7 => exact h.1
      | mrsFlags => exact h.1
      | msrFlags => exact h.1
      | tryLock l =>
          intro hoff
          rw [h.1] at hoff
          cases hoff
      | unlock l =>
          intro hoff
          rw [h.1] at hoff
          cases hoff
      | switchTo =>
          intro _ l hl
          rw [h.1.2] at hl
          cases hl
      | eret =>
          intro hoff
          rw [h.1] at hoff
          cases hoff

theorem guarded_true : Guarded free true held := fun h => by cases h

theorem neutral_nil : Neutral free base irqOff held [] := fun _ _ h x7 => h x7

theorem Neutral.append (h : Neutral free base irqOff held code)
    (h' : Neutral free base irqOff held code') : Neutral free base irqOff held (code ++ code') := by
  intro flags rest hrest x7
  rw [List.append_assoc]
  exact h flags (code' ++ rest) (h' flags rest hrest) x7

theorem neutral_work : Neutral free base irqOff held [.work] :=
  fun _ _ h x7 => ⟨(h x7).guarded, h x7⟩

theorem Neutral.work (h : Neutral free base irqOff held code) :
    Neutral free base irqOff held (.work :: code) :=
  neutral_work.append h

theorem Neutral.repeated (h : Neutral free base irqOff held code) (n : Nat) :
    Neutral free base irqOff held (repeated n code) := by
  induction n with
  | zero => exact neutral_nil
  | succ n ih =>
      rw [Kernel.repeated, List.replicate_succ, List.flatten_cons]
      exact h.append ih

theorem neutral_flatMap {α : Type} {f : α → List Instr} {xs : List α}
    (h : ∀ x ∈ xs, Neutral free base irqOff held (f x)) :
    Neutral free base irqOff held (xs.flatMap f) := by
  induction xs with
  | nil => exact neutral_nil
  | cons x xs ih =>
      rw [List.flatMap_cons]
      exact (h x (List.mem_cons_self ..)).append (ih fun y hy => h y (List.mem_cons_of_mem x hy))

/-- After `spin_lock` the mask is as before. -/
theorem runs_spinLock {flags : List Bool}
    (h : ∀ x7, Runs free base rest irqOff x7 flags (l :: held)) (hguard : Guarded free irqOff held)
    (x7 : Bool) : Runs free base (spinLock l ++ rest) irqOff x7 flags held :=
  ⟨hguard, hguard, rfl, hguard, guarded_true, h irqOff⟩

theorem runs_spinUnlock {flags : List Bool} (h : ∀ x7, Runs free base rest irqOff x7 flags held)
    (hguard : Guarded free irqOff (l :: held)) (x7 : Bool) :
    Runs free base (spinUnlock l ++ rest) irqOff x7 flags (l :: held) :=
  ⟨hguard, hguard, rfl, held, rfl, guarded_true, h irqOff⟩

theorem runs_spinLockIrqsave {flags : List Bool}
    (h : ∀ x7, Runs free base rest true x7 (irqOff :: flags) (l :: held))
    (hguard : Guarded free irqOff held) (x7 : Bool) :
    Runs free base (spinLockIrqsave l ++ rest) irqOff x7 flags held :=
  ⟨hguard, hguard, runs_spinLock h guarded_true x7⟩

theorem runs_spinUnlockIrqrestore {flags : List Bool}
    (h : ∀ x7, Runs free base rest irqOff x7 flags held) (x7 : Bool) :
    Runs free base (spinUnlockIrqrestore l ++ rest) true x7 (irqOff :: flags) (l :: held) := by
  have hrestore : ∀ x7, Runs free base (localIrqRestore ++ rest) true x7 (irqOff :: flags) held :=
    fun x7 => ⟨guarded_true, irqOff, flags, rfl, h x7⟩
  rw [spinUnlockIrqrestore, List.append_assoc]
  exact runs_spinUnlock hrestore guarded_true x7

/-- A section under `spin_lock_irqsave`. -/
theorem neutral_lockedIrqsave (hbody : Neutral free base true (l :: held) body) :
    Neutral free base irqOff held (lockedIrqsave l body) := by
  intro flags rest hrest x7
  rw [lockedIrqsave, List.append_assoc, List.append_assoc]
  exact runs_spinLockIrqsave
    (hbody _ _ (runs_spinUnlockIrqrestore hrest)) (hrest x7).guarded x7

/-- A section under `spin_lock`, in which IRQs stay as they are. -/
theorem neutral_locked (hbody : Neutral free base irqOff (l :: held) body)
    (hfree : irqOff = false → free l) : Neutral free base irqOff held (locked l body) := by
  intro flags rest hrest x7
  have hguard : Guarded free irqOff (l :: held) := by
    intro hoff k hk
    rcases List.mem_cons.1 hk with rfl | hk
    · exact hfree hoff
    · exact (hrest x7).guarded hoff k hk
  rw [locked, List.append_assoc, List.append_assoc]
  exact runs_spinLock (hbody _ _ (runs_spinUnlock hrest hguard)) (hrest x7).guarded x7

/-! ## The functions -/

theorem neutral_printk : Neutral free base irqOff held printkCode :=
  (neutral_lockedIrqsave neutral_work).work

theorem neutral_takeLine (tooSmall : Bool) : Neutral free base irqOff held (takeLineCode tooSmall) := by
  cases tooSmall with
  | false => exact neutral_work
  | true => exact neutral_printk.work

theorem neutral_setTaskState : Neutral free base irqOff held setTaskStateCode :=
  neutral_lockedIrqsave neutral_work

theorem neutral_getTaskSlot (n : Nat) : Neutral free base irqOff held (getTaskSlotCode n) :=
  neutral_lockedIrqsave (neutral_printk.repeated n).work

theorem neutral_dumpTasks (n : Nat) : Neutral free base irqOff held (dumpTasksCode n) :=
  neutral_lockedIrqsave (neutral_printk.repeated n)

theorem neutral_waitQueue (q : Nat) : Neutral free base irqOff held (waitQueueCode q) :=
  neutral_lockedIrqsave neutral_work

theorem neutral_wakeUp (q n : Nat) : Neutral free base irqOff held (wakeUpCode q n) :=
  neutral_lockedIrqsave (neutral_setTaskState.repeated n)

/-- A section under `spin_lock_irqsave` that is left and entered again around calls of `code`. -/
theorem neutral_reentered {n : Nat} {before after : List Instr}
    (hbefore : Neutral free base true (l :: held) before)
    (hcode : Neutral free base irqOff held code)
    (hafter : Neutral free base true (l :: held) after) :
    Neutral free base irqOff held
      (spinLockIrqsave l ++ before ++
        repeated n (spinUnlockIrqrestore l ++ code ++ spinLockIrqsave l) ++ after ++
        spinUnlockIrqrestore l) := by
  intro flags rest hrest x7
  have hguard := (hrest x7).guarded
  simp only [List.append_assoc]
  refine runs_spinLockIrqsave (hbefore _ _ ?_) hguard x7
  -- every round begins and ends under the lock
  induction n with
  | zero => exact hafter _ _ (runs_spinUnlockIrqrestore hrest)
  | succ n ih =>
      intro x7
      rw [Kernel.repeated, List.replicate_succ, List.flatten_cons]
      simp only [List.append_assoc]
      exact runs_spinUnlockIrqrestore (hcode _ _ (runs_spinLockIrqsave ih hguard)) x7

theorem neutral_runTimerSoftirq (n : Nat) :
    Neutral free base irqOff held (runTimerSoftirqCode n) := by
  have h := @neutral_reentered free base held irqOff .timerlistLock setTaskStateCode n [] []
    neutral_nil neutral_setTaskState neutral_nil
  simpa only [runTimerSoftirqCode, List.append_nil] using h

theorem ShortCall.neutral (f : ShortCall) : Neutral free base irqOff held f.code := by
  cases f with
  | work => exact neutral_work
  | printk => exact neutral_printk
  | readConcurrentCbuf => exact neutral_lockedIrqsave neutral_work
  | setTaskState => exact neutral_setTaskState
  | getTaskSlot n => exact neutral_getTaskSlot n
  | freeTaskSlot => exact neutral_lockedIrqsave neutral_work
  | dumpTasks n => exact neutral_dumpTasks n
  | timer => exact neutral_lockedIrqsave neutral_work
  | runTimerSoftirq n => exact neutral_runTimerSoftirq n
  | waitQueue q => exact neutral_waitQueue q
  | wakeUp q n => exact neutral_wakeUp q n
  | toLineDiscipline wakes =>
      cases wakes with
      | none => exact neutral_lockedIrqsave neutral_work
      | some n => exact (neutral_lockedIrqsave neutral_work).append (neutral_wakeUp uibWqHead n)

/-- `schedule`, called with no lock and with IRQs unmasked. -/
theorem neutral_schedule : Neutral free base false [] scheduleCode := by
  have hnext : Neutral free base false [] getNextProcCode := neutral_lockedIrqsave neutral_work
  refine hnext.append (Neutral.work ?_)
  intro flags rest hrest x7
  exact ⟨⟨rfl, rfl⟩, hrest x7⟩

theorem neutral_allocMem (h : irqOff = false → free .kmallocLock) :
    Neutral free base irqOff held allocMemCode :=
  (neutral_locked neutral_work h).work

theorem neutral_freeMem (found : BlkCheck) (h : irqOff = false → free .kmallocLock) :
    Neutral free base irqOff held (freeMemCode found) :=
  (neutral_locked (neutral_printk.repeated found.reports).work h).work

/-- The calls of a task, which may hold any lock while IRQs are unmasked. -/
theorem KernelCall.neutral (hfree : ∀ l, free l) (f : KernelCall) :
    Neutral free base false [] f.code := by
  cases f with
  | short f => exact f.neutral
  | kmalloc => exact neutral_allocMem fun _ => hfree _
  | kfree found => exact neutral_freeMem found fun _ => hfree _
  | mutexLock p n =>
      refine Neutral.append (Neutral.repeated (Neutral.append ?_ neutral_schedule) n) ?_
      · exact neutral_locked neutral_setTaskState.work fun _ => hfree _
      · exact neutral_locked neutral_work fun _ => hfree _
  | mutexUnlock p wakes =>
      refine neutral_locked (Neutral.work ?_) fun _ => hfree _
      cases wakes with
      | false => exact neutral_nil
      | true => exact neutral_setTaskState
  | schedule => exact neutral_schedule
  | scheduleTimeout =>
      have htimer : Neutral free base false [] timerCode := neutral_lockedIrqsave neutral_work
      exact (htimer.append neutral_schedule).append htimer
  | readStdin tooSmall waits =>
      cases waits with
      | none => exact neutral_lockedIrqsave (neutral_takeLine tooSmall)
      | some n =>
          exact neutral_reentered ((neutral_waitQueue _).append neutral_setTaskState)
            (neutral_setTaskState.append neutral_schedule)
            ((neutral_setTaskState.append (neutral_waitQueue _)).append (neutral_takeLine tooSmall))

theorem neutral_kernelThread (n : Nat) (r : ThreadResult) (h : free .kmallocLock) :
    Neutral free base false [] (kernelThreadCode n r) := by
  have halloc : Neutral free base false [] allocMemCode := neutral_allocMem fun _ => h
  cases r with
  | created => exact ((neutral_getTaskSlot n).append halloc).append neutral_work
  | noSlot => exact (neutral_getTaskSlot n).append neutral_printk
  | noMemory =>
      exact (((neutral_getTaskSlot n).append halloc).append
        (neutral_lockedIrqsave neutral_work)).append neutral_printk

/-- The swapper in `main` holds no lock but that of `kmalloc` while IRQs are unmasked. -/
theorem neutral_main (h : free .kmallocLock) (lines : Nat) (rs : List (Nat × ThreadResult)) :
    Neutral free base false [] (mainCode lines rs) := by
  induction rs with
  | nil => exact neutral_dumpTasks lines
  | cons r rs ih =>
      obtain ⟨n, r⟩ := r
      cases r with
      | created => exact (neutral_kernelThread n .created h).append ih
      | noSlot => exact neutral_kernelThread n .noSlot h
      | noMemory => exact neutral_kernelThread n .noMemory h

end Neutral

/-! ## Handlers -/

section Handlers

variable {free : Lock → Prop} {held : List Lock}

theorem neutral_doSoftirq {base : List Lock} (softirq : Option (List ShortCall)) :
    Neutral free base true held (doSoftirqCode softirq) := by
  have hcount : Neutral free base true held (localIrqSave ++ [.work] ++ localIrqRestore) :=
    fun _ _ h x7 =>
      ⟨guarded_true, guarded_true, guarded_true, guarded_true, _, _, rfl, h x7⟩
  cases softirq with
  | none => exact hcount
  | some actions =>
      exact (hcount.append (neutral_flatMap fun f _ => f.neutral)).append hcount

/-- `irq_handler` comes back to the interrupted code, if it calls `schedule` only when that holds no
lock. -/
theorem runs_irqHandler {schedules : Bool} {isr : List ShortCall}
    {softirq : Option (List ShortCall)} (h : schedules = true → held = []) (x7 : Bool)
    (flags : List Bool) :
    Runs free held (irqHandler schedules isr softirq) true x7 flags held := by
  have hend : ∀ x7, Runs free held (doSoftirqCode softirq ++ [.eret]) true x7 flags held :=
    neutral_doSoftirq softirq flags [.eret] fun _ => ⟨rfl, rfl⟩
  have hisr : Neutral free held true held (isr.flatMap ShortCall.code) :=
    neutral_flatMap fun f _ => f.neutral
  rw [irqHandler, List.append_assoc, List.append_assoc]
  refine hisr flags _ (fun x7 => ?_) x7
  cases schedules with
  | false => exact hend x7
  | true =>
      obtain rfl := h rfl
      have hon : Guarded free false [] := fun _ l hl => by cases hl
      have hbody := neutral_schedule flags (.disableIrq :: (doSoftirqCode softirq ++ [.eret]))
        fun x7 => ⟨hon, hend x7⟩
      exact ⟨guarded_true, hbody x7⟩

theorem runs_el0Sync (hfree : ∀ l, free l) (calls : List KernelCall) (x7 : Bool)
    (flags : List Bool) : Runs free [] (el0Sync calls) true x7 flags [] := by
  have hcalls : Neutral free [] false [] (calls.flatMap KernelCall.code) :=
    neutral_flatMap fun f _ => f.neutral hfree
  have hon : Guarded free false [] := fun _ l hl => by cases hl
  have hend : ∀ x7, Runs free [] [.disableIrq, .eret] false x7 flags [] :=
    fun _ => ⟨hon, rfl, rfl⟩
  exact ⟨guarded_true, hcalls flags _ hend x7⟩

end Handlers

/-! ## Threads -/

/-- The code of a level can be executed; in user mode there is none. -/
structure FrameOk (free : Lock → Prop) (base : List Lock) (f : Frame) (irqOff : Bool)
    (held : List Lock) : Prop where
  runs : Runs free base f.code irqOff f.x7 f.flags held
  user : f.user = true → f.code = []

/-- All levels of a thread can be executed, one after the other. -/
def Sound (free : Lock → Prop) : Frame → List (Frame × Bool) → Bool → List Lock → Prop
  | f, [], irqOff, held => FrameOk free [] f irqOff held
  | f, (g, off) :: rest, irqOff, held =>
      ∃ base, FrameOk free base f irqOff held ∧ Sound free g rest off base

def Thread.Sound (free : Lock → Prop) (t : Thread) (irqOff : Bool) : Prop :=
  Kernel.Sound free t.frame t.stack irqOff t.held

/-- The thread is sound with the mask of its CPU if it runs; if not, it holds no lock and goes on with
IRQs unmasked. -/
structure PreemptInv (N : Nat) (s : Preempt) : Prop where
  pinned : ∀ c, (s.current c).cpu N = c
  running : ∀ c, (s.running c).Sound (FreeLock (s.current c)) (s.irqOff c)
  waiting : ∀ id : ThreadId, s.current (id.cpu N) ≠ id →
    (s.thread id).Sound (FreeLock id) false ∧ (s.thread id).held = []

section Threads

variable {free : Lock → Prop} {f g : Frame} {stack : List (Frame × Bool)} {irqOff irqOff' : Bool}
  {held held' : List Lock}

/-- The level that is executed. -/
theorem Sound.frame (h : Sound free f stack irqOff held) :
    ∃ base, FrameOk free base f irqOff held ∧
      ∀ g irqOff' held', FrameOk free base g irqOff' held' → Sound free g stack irqOff' held' := by
  cases stack with
  | nil => exact ⟨[], h, fun _ _ _ hg => hg⟩
  | cons level stack =>
      obtain ⟨base, hf, hrest⟩ := h
      exact ⟨base, hf, fun _ _ _ hg => ⟨base, hg, hrest⟩⟩

end Threads

variable {N c : Nat} {s s' : Preempt} {rest : List Instr}

theorem running_set (t : Thread) (off : Bool) (d : Nat) (hpin : ∀ c, (s.current c).cpu N = c) :
    (s.set c t off).running d = if d = c then t else s.running d := by
  by_cases hd : d = c
  · subst hd
    rw [if_pos rfl]
    exact Function.update_self ..
  · rw [if_neg hd]
    refine Function.update_of_ne (fun heq => hd ?_) ..
    rw [← hpin d, ← hpin c, show s.current d = s.current c from heq]

/-- A step of the thread that a CPU runs. -/
theorem PreemptInv.set (h : PreemptInv N s) {t : Thread} {off : Bool}
    (ht : t.Sound (FreeLock (s.current c)) off) : PreemptInv N (s.set c t off) := by
  refine ⟨h.pinned, fun d => ?_, fun id hid => ?_⟩
  · rw [running_set t off d h.pinned]
    by_cases hd : d = c
    · subst hd
      rw [if_pos rfl, show (s.set d t off).irqOff d = off from Function.update_self ..]
      exact ht
    · rw [if_neg hd, show (s.set c t off).irqOff d = s.irqOff d from Function.update_of_ne hd ..]
      exact h.running d
  · have hne : id ≠ s.current c := by
      rintro rfl
      rw [h.pinned c] at hid
      exact hid rfl
    rw [show (s.set c t off).thread id = s.thread id from Function.update_of_ne hne ..]
    exact h.waiting id hid

/-- The words of the locks do not matter. -/
theorem PreemptInv.locks (h : PreemptInv N s) (locks : Lock → Bool) :
    PreemptInv N { s with locks := locks } :=
  ⟨h.pinned, h.running, h.waiting⟩

/-- Executing one instruction. -/
theorem PreemptInv.exec (h : PreemptInv N s) {a : Instr} {stxrFails : Bool}
    (hcode : (s.running c).frame.code = a :: rest)
    (hexec : execInstr s c stxrFails rest a = some s') : PreemptInv N s' := by
  obtain ⟨base, ⟨hruns, huser⟩, hset⟩ := Sound.frame (h.running c)
  have hkernel : (s.running c).frame.user = true → rest = [] := by
    intro hu
    rw [hcode] at huser
    cases huser hu
  rw [hcode] at hruns
  cases a with
  | work =>
      rw [execInstr] at hexec
      cases hexec
      exact h.set (hset _ _ _ ⟨hruns.2, hkernel⟩)
  | enableIrq =>
      rw [execInstr] at hexec
      cases hexec
      exact h.set (hset _ _ _ ⟨hruns.2, hkernel⟩)
  | disableIrq =>
      rw [execInstr] at hexec
      cases hexec
      exact h.set (hset _ _ _ ⟨hruns.2, hkernel⟩)
  | mrsX7 =>
      rw [execInstr] at hexec
      cases hexec
      exact h.set (hset _ _ _ ⟨hruns.2, hkernel⟩)
  | msrX7 =>
      rw [execInstr] at hexec
      cases hexec
      exact h.set (hset _ _ _ ⟨hruns.2, hkernel⟩)
  | mrsFlags =>
      rw [execInstr] at hexec
      cases hexec
      exact h.set (hset _ _ _ ⟨hruns.2, hkernel⟩)
  | msrFlags =>
      obtain ⟨-, off, outer, hflags, hrest⟩ := hruns
      simp only [execInstr, execInstr.f, hflags, Option.some.injEq] at hexec
      subst hexec
      exact h.set (hset _ _ _ ⟨hrest, hkernel⟩)
  | tryLock l =>
      obtain ⟨hoff, hguard, hrest⟩ := hruns
      rw [execInstr] at hexec
      split_ifs at hexec with hbusy
      · -- IRQs are unmasked for a moment, and masked again
        cases hexec
        refine h.set (hset _ _ _ ⟨?_, fun hu => ?_⟩)
        · rw [hoff]
          exact ⟨guarded_true, hguard, hguard, rfl, hguard, hrest⟩
        · rw [hcode] at huser
          cases huser hu
      · cases hexec
        have ht : Thread.Sound (FreeLock (s.current c))
            { s.running c with
              frame := { (s.running c).frame with code := rest }
              held := l :: (s.running c).held } (s.irqOff c) := by
          refine hset _ _ _ ⟨?_, hkernel⟩
          rw [hoff]
          exact hrest
        exact (h.set ht).locks _
  | unlock l =>
      obtain ⟨hoff, outer, hheld, hrest⟩ := hruns
      rw [execInstr] at hexec
      cases hexec
      have ht : Thread.Sound (FreeLock (s.current c))
          { s.running c with
            frame := { (s.running c).frame with code := rest }
            held := (s.running c).held.erase l } (s.irqOff c) := by
        refine hset _ _ _ ⟨?_, hkernel⟩
        rw [hoff, hheld, List.erase_cons_head]
        exact hrest
      exact (h.set ht).locks _
  | switchTo =>
      rw [execInstr] at hexec
      cases hexec
  | eret =>
      have hsound := h.running c
      rw [execInstr, execInstr.t] at hexec
      rw [Thread.Sound] at hsound
      cases hstack : (s.running c).stack with
      | nil =>
          rw [hstack] at hexec
          cases hexec
      | cons level stack =>
          obtain ⟨g, off⟩ := level
          rw [hstack] at hexec hsound
          cases hexec
          obtain ⟨base', ⟨hruns', -⟩, hbelow⟩ := hsound
          rw [hcode] at hruns'
          refine h.set ?_
          rw [Thread.Sound, hruns'.2]
          exact hbelow

/-- The thread could be switched to. -/
def Preempt.Ready (s : Preempt) (id : ThreadId) : Prop :=
  (s.thread id).Sound (FreeLock id) false ∧ (s.thread id).held = []

/-- CPU `c`, whose thread could be switched to again, goes on with another one. -/
theorem PreemptInv.dispatch (h : PreemptInv N s) {next : ThreadId} (hready : s.Ready (s.current c))
    (hoff : s.irqOff c = false) (hnext : next.cpu N = c) :
    PreemptInv N { s with current := Function.update s.current c next } := by
  have hall : ∀ id : ThreadId, id.cpu N = c → s.Ready id := by
    intro id hid
    by_cases hcurrent : s.current c = id
    · rw [← hcurrent]
      exact hready
    · exact h.waiting id (by rwa [hid])
  refine ⟨fun d => ?_, fun d => ?_, fun id hid => ?_⟩
  · by_cases hd : d = c
    · subst hd
      simp only [Function.update_self]
      exact hnext
    · simp only [Function.update_of_ne hd]
      exact h.pinned d
  · by_cases hd : d = c
    · subst hd
      simp only [Preempt.running, Function.update_self, hoff]
      exact (hall next hnext).1
    · simp only [Preempt.running, Function.update_of_ne hd]
      exact h.running d
  · by_cases hd : id.cpu N = c
    · exact hall id hd
    · simp only [Function.update_of_ne hd] at hid
      exact h.waiting id hid

/-- `cpu_switch_to`. -/
theorem PreemptInv.switchTo (h : PreemptInv N s) {next : ThreadId}
    (hcode : (s.running c).frame.code = .switchTo :: rest) (hnext : next.cpu N = c) :
    PreemptInv N
      { s.set c { s.running c with frame := { (s.running c).frame with code := rest } }
          (s.irqOff c) with
        current := Function.update s.current c next } := by
  obtain ⟨base, ⟨hruns, huser⟩, hset⟩ := Sound.frame (h.running c)
  rw [hcode] at hruns huser
  obtain ⟨⟨hoff, hheld⟩, hrest⟩ := hruns
  have hprev : Thread.Sound (FreeLock (s.current c))
      { s.running c with frame := { (s.running c).frame with code := rest } } (s.irqOff c) := by
    refine hset _ _ _ ⟨?_, fun hu => by cases huser hu⟩
    rw [hheld, hoff]
    exact hrest
  refine (h.set hprev).dispatch ?_ ?_ hnext
  · rw [hoff] at hprev
    rw [Preempt.Ready, show (s.set c _ _).thread ((s.set c _ _).current c) = _ from
      Function.update_self ..]
    exact ⟨hprev, hheld⟩
  · rw [show (s.set c _ _).irqOff c = s.irqOff c from Function.update_self ..]
    exact hoff

/-- An exception interrupts the thread of a CPU; its handler comes back to it. -/
theorem PreemptInv.interrupt (h : PreemptInv N s) {code : List Instr}
    (hcode : Runs (FreeLock (s.current c)) (s.running c).held code true false [] (s.running c).held) :
    PreemptInv N (s.set c ((s.running c).interrupt (s.irqOff c) code) true) :=
  h.set ⟨(s.running c).held, ⟨hcode, fun hu => by cases hu⟩, h.running c⟩

/-- In user mode no lock is held and IRQs are not masked. -/
theorem PreemptInv.user (h : PreemptInv N s) (huser : (s.running c).frame.user = true) :
    s.irqOff c = false ∧ (s.running c).held = [] := by
  obtain ⟨base, ⟨hruns, hcode⟩, -⟩ := Sound.frame (h.running c)
  rw [hcode huser] at hruns
  exact hruns

/-- A thread that could be interrupted holds no lock if it is in user mode, or if it is a swapper
outside of `alloc_mem`. -/
theorem PreemptInv.noLock (h : PreemptInv N s) (hoff : s.irqOff c = false)
    (hsched : s.schedules c = true)
    (hout : (s.current c).pid = 0 → Lock.kmallocLock ∉ (s.running c).held) :
    (s.running c).held = [] := by
  rw [Preempt.schedules, Bool.or_eq_true, decide_eq_true_iff] at hsched
  rcases hsched with huser | hpid
  · exact (h.user huser).2
  · obtain ⟨base, ⟨hruns, -⟩, -⟩ := Sound.frame (h.running c)
    have hguard := hruns.guarded hoff
    rw [List.eq_nil_iff_forall_not_mem]
    intro l hl
    have hfree := hguard l hl
    cases hcur : s.current c with
    | swapper d =>
        rw [hcur] at hfree
        rw [show l = .kmallocLock from hfree] at hl
        exact hout hpid hl
    | task i =>
        rw [hcur] at hpid
        cases hpid

theorem freeLock_task {id : ThreadId} {i : Nat} (h : id = .task i) (l : Lock) : FreeLock id l := by
  rw [h]
  trivial

/-- A slot is filled with a new task. -/
theorem PreemptInv.create (h : PreemptInv N s) {i : Nat} (hother : s.current (i % N) ≠ .task i) :
    PreemptInv N { s with thread := Function.update s.thread (.task i) {} } := by
  refine ⟨h.pinned, fun d => ?_, fun id hid => ?_⟩
  · have hne : s.current d ≠ .task i := by
      intro heq
      have hpin := h.pinned d
      rw [heq] at hpin
      exact hother (by rw [show i % N = d from hpin, heq])
    simp only [Preempt.running, Function.update_of_ne hne]
    exact h.running d
  · by_cases heq : id = .task i
    · subst heq
      simp only [Function.update_self]
      have hruns : Runs (FreeLock (.task i)) [] [] false false [] [] := ⟨rfl, rfl⟩
      exact ⟨⟨hruns, fun _ => rfl⟩, trivial⟩
    · simp only [Function.update_of_ne heq]
      exact h.waiting id hid

/-- A step that is not a tick inside of `alloc_mem` in `main` keeps the invariant. -/
theorem PreemptInv.step (h : PreemptInv N s) {a : PreemptAction} (hout : OutsideKmalloc s a)
    (hstep : preemptStep N s a = some s') : PreemptInv N s' := by
  cases a with
  | exec c stxrFails =>
      simp only [preemptStep] at hstep
      split at hstep
      · cases hstep
      · next a rest hcode => exact h.exec hcode hstep
  | switchTo c next =>
      simp only [preemptStep] at hstep
      split at hstep
      · next rest hcode =>
          split_ifs at hstep with hnext
          cases hstep
          exact h.switchTo hcode hnext
      · cases hstep
  | call c calls =>
      simp only [preemptStep] at hstep
      split at hstep
      · next i hcur =>
          split_ifs at hstep with hidle
          cases hstep
          obtain ⟨base, ⟨hruns, -⟩, hset⟩ := Sound.frame (h.running c)
          rw [hidle.1] at hruns
          obtain ⟨hoff, hheld⟩ := hruns
          refine h.set (hset _ _ _ ⟨?_, fun hu => ?_⟩)
          · -- the code of the calls leaves the mask and the locks as it finds them
            have hcalls : Neutral (FreeLock (s.current c)) base false []
                (calls.flatMap KernelCall.code) := 
              neutral_flatMap fun f _ => f.neutral (freeLock_task hcur)
            rw [hoff, hheld]
            have := hcalls (s.running c).frame.flags [] (fun _ => ⟨rfl, rfl⟩)
              (s.running c).frame.x7
            rwa [List.append_nil] at this
          · rw [show (s.running c).frame.user = true from hu] at hidle
            cases hidle.2
      · cases hstep
  | userMode c =>
      simp only [preemptStep] at hstep
      split at hstep
      · next i hcur =>
          split_ifs at hstep with hidle
          cases hstep
          obtain ⟨base, ⟨hruns, -⟩, hset⟩ := Sound.frame (h.running c)
          exact h.set (hset _ _ _ ⟨hruns, fun _ => hidle.1⟩)
      · cases hstep
  | svc c calls =>
      simp only [preemptStep] at hstep
      split at hstep
      · next i hcur =>
          split_ifs at hstep with huser
          cases hstep
          refine h.interrupt ?_
          rw [(h.user huser).2]
          exact runs_el0Sync (freeLock_task hcur) calls false []
      · cases hstep
  | irq c timer isr softirq =>
      simp only [preemptStep] at hstep
      split_ifs at hstep with hoff
      cases hstep
      rw [show false = s.irqOff c from hoff.symm]
      -- `schedule` is called only from the tick of a thread that holds no lock
      refine h.interrupt (runs_irqHandler (fun hsched => ?_) false [])
      rw [Bool.and_eq_true] at hsched
      obtain ⟨rfl, hsched⟩ := hsched
      exact h.noLock hoff hsched (hout hoff)
  | create i =>
      simp only [preemptStep] at hstep
      split_ifs at hstep with hother
      cases hstep
      exact h.create hother

theorem preemptBoot_inv (N lines : Nat) (rs : List (Nat × ThreadResult)) :
    PreemptInv N (preemptBoot lines rs) := by
  have hready : ∀ id, (preemptBoot lines rs).Ready id := by
    intro id
    have hempty : Runs (FreeLock id) [] [] false false [] [] := ⟨rfl, rfl⟩
    have hidle : Thread.Sound (FreeLock id) {} false ∧ ({} : Thread).held = [] :=
      ⟨⟨hempty, fun _ => rfl⟩, rfl⟩
    cases id with
    | task i => exact hidle
    | swapper c =>
        cases c with
        | succ c => exact hidle
        | zero =>
            have hfree : FreeLock (.swapper 0) .kmallocLock := rfl
            have hneutral : Neutral (FreeLock (.swapper 0)) [] false [] (mainCode lines rs) :=
              neutral_main hfree lines rs
            have hmain := hneutral [] [] (fun _ => hempty) false
            rw [List.append_nil] at hmain
            exact ⟨⟨hmain, fun hu => by cases hu⟩, rfl⟩
  exact ⟨fun _ => rfl, fun c => (hready (.swapper c)).1, fun id _ => hready id⟩

/-- `irq_handler` calls `schedule` only when the interrupted task holds no spinlock, and no task that
is switched out holds one, in exactly the runs in which no tick interrupts `main` while it holds the
lock of `kmalloc`. -/
theorem preemptRun_iff (N lines : Nat) (rs : List (Nat × ThreadResult)) (as : List PreemptAction) :
    KeepsNoLock N (preemptBoot lines rs) as ↔
      Along (preemptStep N) OutsideKmalloc (preemptBoot lines rs) as := by
  have hiff : ∀ s a, PreemptInv N s → (NoLockHeld s a ↔ OutsideKmalloc s a) := by
    intro s a h
    cases a with
    | irq c timer isr softirq =>
        cases timer with
        | false => exact Iff.rfl
        | true =>
            constructor
            · intro hno hoff hpid
              have hsched : s.schedules c = true := by
                rw [Preempt.schedules, Bool.or_eq_true, decide_eq_true_iff]
                exact Or.inr hpid
              rw [hno hoff hsched]
              exact List.not_mem_nil
            · exact fun hout hoff hsched => h.noLock hoff hsched (hout hoff)
    | _ => exact Iff.rfl
  have hstep : ∀ s a s', PreemptInv N s → OutsideKmalloc s a → preemptStep N s a = some s' →
      PreemptInv N s' := fun s a s' h hout hs => h.step hout hs
  have hboot := preemptBoot_inv N lines rs
  have hcongr := along_congr_of_invariant hiff hstep hboot as
  constructor
  · exact fun h => hcongr.1 h.1
  · intro hout
    refine ⟨hcongr.2 hout, fun t hrun id hid => ?_⟩
    exact ((runFrom_invariant_along hstep hboot hout hrun).waiting id hid).2

/-- The instructions of `main` up to the section of `alloc_mem`. -/
def sampleSection : List PreemptAction := List.replicate 17 (.exec 0 false)

/-- A tick in that section switches to a task that calls `kmalloc`. -/
def sampleTick : List PreemptAction :=
  sampleSection ++ [.irq 0 true [] none] ++ List.replicate 14 (.exec 0 false) ++
    [.switchTo 0 (.task 0), .call 0 [.kmalloc]] ++ List.replicate 11 (.exec 0 false)

/-- There `irq_handler` calls `schedule` although `main` holds the lock, and the task spins on it. -/
theorem sampleTick_spins :
    (∃ s, runFrom (preemptStep 1) (preemptBoot 0 [(0, .created)]) sampleSection = some s ∧
      ¬NoLockHeld s (.irq 0 true [] none)) ∧
    (∃ t, runFrom (preemptStep 1) (preemptBoot 0 [(0, .created)]) sampleTick = some t ∧
      t.current 0 = .task 0 ∧ Lock.kmallocLock ∈ (t.thread (.swapper 0)).held ∧
      (t.running 0).frame.code.head? = some (.tryLock .kmallocLock)) ∧
    ¬KeepsNoLock 1 (preemptBoot 0 [(0, .created)]) sampleTick := by
  have hsection : (runFrom (preemptStep 1) (preemptBoot 0 [(0, .created)]) sampleSection).map
      (fun s => (s.irqOff 0, s.schedules 0, (s.running 0).held)) =
      some (false, true, [.kmallocLock]) := by
    decide +kernel
  have htick : (runFrom (preemptStep 1) (preemptBoot 0 [(0, .created)]) sampleTick).map
      (fun t => (t.current 0, (t.thread (.swapper 0)).held, (t.running 0).frame.code.head?)) =
      some (.task 0, [.kmallocLock], some (.tryLock .kmallocLock)) := by
    decide +kernel
  obtain ⟨s, hs, hbefore⟩ := Option.map_eq_some_iff.1 hsection
  obtain ⟨t, ht, hafter⟩ := Option.map_eq_some_iff.1 htick
  simp only [Prod.mk.injEq] at hbefore hafter
  obtain ⟨hoff, hsched, hmain⟩ := hbefore
  obtain ⟨hcur, hheld, hcode⟩ := hafter
  refine ⟨⟨s, hs, fun hno => ?_⟩, ⟨t, ht, hcur, ?_, hcode⟩, fun hkeeps => ?_⟩
  · rw [hno hoff hsched] at hmain
    cases hmain
  · rw [hheld]
    exact List.mem_singleton_self _
  · have hother : t.current ((ThreadId.swapper 0).cpu 1) ≠ .swapper 0 := by
      rw [show t.current ((ThreadId.swapper 0).cpu 1) = .task 0 from hcur]
      exact ThreadId.noConfusion
    rw [hkeeps.2 t ht (.swapper 0) hother] at hheld
    cases hheld

end Kernel
end ToutOS
