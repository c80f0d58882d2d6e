import ToutOS.Base.Run
import ToutOS.Kernel.Scheduler

/-!
# Smp — the CPUs, the task slots and the TLBs

Every CPU runs a task of the table or its own swapper.  A section under `tasks_lock` is one step; storing
`STOPPED` and every piece of `schedule` are steps of their own.  The timer interrupt calls `schedule` on a
swapper wherever this one is, in `kernel_thread` or in `schedule` itself.

* `Cpu`, `Smp` — the state.  A slot has a new occupant each time `get_task_slot` hands it out; the
  number of the occupant is kept as history with the slot, with the CPU that has switched to it and
  with the TLB entries it has made.
* `SmpAction`, `smpStep` — one step of one of `N` CPUs; `SmpMove` lists what it can do.
* `SlotInv` — a CPU runs a task that is not stopped, unless the task has stored `STOPPED` itself and is
  in the `schedule` of `do_exit`.
* `smpRun_slots_iff` — the slot of a running task is never recycled, in exactly the runs in which
  `get_task_slot` does not get to the slot of a task in that window, as long as no swapper switches to a
  task that is gone.
* `smpRun_sched` — the steps are runs of the scheduler.
-/

namespace ToutOS
namespace Kernel

open Base Mm

/-! ## The state -/

/-- An entry of a TLB. -/
structure TlbEntry where
  asid : Nat
  page : Nat
  frame : Nat
  /-- History: the slot of the task that has made the entry. -/
  slot : Nat
  /-- History: which of the occupants of the slot that was. -/
  occupant : Nat
  deriving DecidableEq, Repr

/-- Where a thread is, apart from its calls of `schedule`. -/
inductive CpuPlace
  /-- In user mode, or in kernel code that is not of interest here. -/
  | run
  /-- In `sys_fork` or `kernel_thread`, with a slot from `get_task_slot` that is not ready yet. -/
  | fork (slot : Nat)
  /-- In `do_exit`, before `exit_mm`. -/
  | exitMm
  /-- In `do_exit`, about to store `STOPPED`. -/
  | exitStop
  /-- In `do_exit`, after that. -/
  | stopped
  deriving DecidableEq, Repr

structure Cpu extends SchedCpu where
  place : Option Nat → CpuPlace := fun _ => .run
  /-- The registers that `cpu_switch_to` saves. -/
  regs : CpuContext := {}
  /-- `TTBR0_EL1`: the page directory and the ASID. -/
  ttbr0 : Nat × Nat := (0, 0)
  tlb : List TlbEntry := []
  /-- History: the occupant of the slot of `current` when the CPU switched to it. -/
  occupant : Nat := 0

structure Smp where
  tasks : TaskTable
  mem : Mem
  cpu : Nat → Cpu
  /-- `swapper_task_struct`. -/
  swapper : Nat → CpuContext
  /-- History: how often each slot has been handed out. -/
  occupant : Nat → Nat

/-- Where the current thread is. -/
def Cpu.here (cpu : Cpu) : CpuPlace := cpu.place cpu.current

/-- The current thread is somewhere else. -/
def Cpu.setHere (cpu : Cpu) (p : CpuPlace) : Cpu :=
  { cpu with place := Function.update cpu.place cpu.current p }

/-- The current thread executes the code there: it is in no call of `schedule`. -/
def Cpu.At (cpu : Cpu) (p : CpuPlace) : Prop := cpu.top = [] ∧ cpu.here = p

instance (cpu : Cpu) (p : CpuPlace) : Decidable (cpu.At p) := inferInstanceAs (Decidable (_ ∧ _))

@[simp] theorem setHere_here (cpu : Cpu) (p : CpuPlace) : (cpu.setHere p).here = p :=
  Function.update_self ..

theorem setHere_fork {cpu : Cpu} {p : CpuPlace} {x : Option Nat} {i : Nat}
    (h : (cpu.setHere p).place x = .fork i) :
    x = cpu.current ∧ p = .fork i ∨ x ≠ cpu.current ∧ cpu.place x = .fork i := by
  by_cases hx : x = cpu.current
  · subst hx
    exact Or.inl ⟨rfl, (setHere_here cpu p).symm.trans h⟩
  · exact Or.inr ⟨hx, (Function.update_of_ne hx ..).symm.trans h⟩

/-- Where a thread is when its call of `schedule` has come back; `do_exit` comes back as well. -/
def CpuPlace.back : CpuPlace → CpuPlace
  | .stopped => .run
  | p => p

theorem back_ne_stopped (p : CpuPlace) : p.back ≠ .stopped := by
  cases p <;> exact CpuPlace.noConfusion

theorem back_eq_fork {p : CpuPlace} {i : Nat} (h : p.back = .fork i) : p = .fork i := by
  cases p <;> first | exact h | cases h

/-- The task runs in user mode. -/
def UserMode (s : Smp) (c i : Nat) : Prop :=
  (s.cpu c).current = some i ∧ (s.cpu c).At .run ∧ (s.tasks i).pgDir ≠ 0

/-! ## The functions of the source -/

/-- `invalidate_tlb_by_asid` on the TLB of the CPU that executes it. -/
def invalidateTlbByAsid (asid : Nat) (tlb : List TlbEntry) : List TlbEntry :=
  tlb.filter fun e => e.asid ≠ asid

/-- `invalidate_tlb_by_va` on the TLB of the CPU that executes it. -/
def invalidateTlbByVa (asid page : Nat) (tlb : List TlbEntry) : List TlbEntry :=
  tlb.filter fun e => ¬(e.asid = asid ∧ e.page = page)

/-- The slots that `get_task_slot` clears. -/
def reapedSlots (tasks : TaskTable) : List Nat :=
  (List.range maxNumProcesses).filter fun i => Reapable tasks i

/-- The TLB of the CPU that has executed `get_task_slot`. -/
def reapTlb (tasks : TaskTable) (tlb : List TlbEntry) : List TlbEntry :=
  (reapedSlots tasks).foldl (fun tlb i => invalidateTlbByAsid (tasks i).pid tlb) tlb

/-! ## Steps -/

inductive SmpAction
  /-- A user program reads or writes a page of its memory; the translation goes into the TLB. -/
  | userAccess (c page frame : Nat)
  /-- `sys_brk` unmaps a page. -/
  | unmap (c page : Nat)
  /-- A kernel thread sets up its own page directory. -/
  | userTest (c pgDir : Nat)
  /-- `sys_fork` or `kernel_thread` begins: `get_task_slot`. -/
  | getTaskSlot (c : Nat)
  /-- `sys_fork` or `kernel_thread` succeeds: the new task is `RUNNING`. -/
  | start (c pgDir : Nat)
  /-- `sys_fork` or `kernel_thread` fails: `free_task_slot`. -/
  | freeTaskSlot (c : Nat)
  /-- The task calls `do_exit`. -/
  | doExit (c : Nat)
  | exitMm (c : Nat)
  | storeStopped (c : Nat)
  /-- The current thread goes on in `schedule`. -/
  | sched (c : Nat) (e : SchedEvent)
  /-- The task sets itself `SLEEPING`. -/
  | sleep (c : Nat)
  /-- A sleeping task is set `RUNNING`. -/
  | wake (i : Nat)
  /-- A timer interrupt. -/
  | tick (c : Nat) (user : Bool)
  /-- The registers of a CPU change. -/
  | compute (c : Nat) (regs : CpuContext)

/-- Change one CPU. -/
def Smp.setCpu (s : Smp) (c : Nat) (f : Cpu → Cpu) : Smp :=
  { s with cpu := Function.update s.cpu c (f (s.cpu c)) }

/-- Change one slot. -/
def Smp.setTask (s : Smp) (i : Nat) (f : TaskStruct → TaskStruct) : Smp :=
  { s with tasks := Function.update s.tasks i (f (s.tasks i)) }

/-- Where the caller of `get_task_slot` goes on. -/
def slotPlace : Option Nat → CpuPlace
  | none => .run
  | some i => .fork i

/-- The numbers of the occupants after `get_task_slot`. -/
def handOut (occupant : Nat → Nat) : Option Nat → Nat → Nat
  | none => occupant
  | some i => Function.update occupant i (occupant i + 1)

/-- The caller of `get_task_slot`, after it. -/
def Cpu.gotTaskSlot (cpu : Cpu) (tasks : TaskTable) (slot : Option Nat) : Cpu :=
  { cpu.setHere (slotPlace slot) with tlb := reapTlb tasks cpu.tlb }

/-- `get_task_slot` on CPU `c`. -/
def smpGetTaskSlot (img : KernelImage) (s : Smp) (c : Nat) : Smp :=
  let (slot, tasks, mem) := Kernel.getTaskSlot img s.tasks s.mem
  let s' := s.setCpu c fun cpu => cpu.gotTaskSlot s.tasks slot
  { s' with tasks := tasks, mem := mem, occupant := handOut s.occupant slot }

/-- The registers that a task has when it is switched to. -/
def Smp.context (s : Smp) (c : Nat) : Option Nat → CpuContext
  | none => s.swapper c
  | some i => (s.tasks i).thread

/-- `cpu_switch_to` saves the registers of the task that it leaves. -/
def Smp.saveContext (s : Smp) (c : Nat) : Smp :=
  match (s.cpu c).current with
  | none => { s with swapper := Function.update s.swapper c (s.cpu c).regs }
  | some i => s.setTask i fun t => { t with thread := (s.cpu c).regs }

/-- CPU `c` after the registers of the next thread are loaded. -/
def Smp.switchCpu (s : Smp) (c : Nat) (sched : SchedCpu) (cpu : Cpu) : Cpu :=
  let cpu := { cpu with toSchedCpu := sched, regs := s.context c sched.current }
  { cpu.setHere cpu.here.back with occupant := sched.current.elim cpu.occupant s.occupant }

/-- `cpu_switch_to` on CPU `c`. -/
def smpSwitchTo (s : Smp) (c : Nat) (sched : SchedCpu) : Smp :=
  (s.saveContext c).setCpu c (s.switchCpu c sched)

/-- `TTBR0_EL1` for `next`: only a task with a page directory has it written. -/
def ttbr0For (tasks : TaskTable) (old : Nat × Nat) : Option Nat → Nat × Nat
  | none => old
  | some i => if (tasks i).pgDir ≠ 0 then (pa (tasks i).pgDir, (tasks i).pid) else old

/-- `schedule` up to `cpu_switch_to`; it comes back if the thread stays the same. -/
def Cpu.writeTtbr0 (cpu : Cpu) (tasks : TaskTable) (sched : SchedCpu) : Cpu :=
  if cpu.top.head? = some (.chosen cpu.current) then
    Cpu.setHere { cpu with toSchedCpu := sched } cpu.here.back
  else { cpu with toSchedCpu := sched, ttbr0 := ttbr0For tasks cpu.ttbr0 cpu.nextTask }

/-- What a step of `schedule` does on CPU `c`, whose calls are `sched` then. -/
def smpSched (s : Smp) (c : Nat) (sched : SchedCpu) : SchedEvent → Smp
  | .schedule | .getNextProc => s.setCpu c fun cpu => { cpu with toSchedCpu := sched }
  | .writeTtbr0 => s.setCpu c fun cpu => cpu.writeTtbr0 s.tasks sched
  | .switchTo => smpSwitchTo s c sched

/-- A task calls `schedule` at the end of `do_exit`, and elsewhere; the swapper is interrupted anywhere. -/
def Cpu.MaySchedule (cpu : Cpu) : Prop := cpu.current = none ∨ cpu.here = .run ∨ cpu.here = .stopped

instance (cpu : Cpu) : Decidable cpu.MaySchedule := inferInstanceAs (Decidable (_ ∨ _ ∨ _))

/-- One step on a machine with `N` CPUs. -/
def smpStep (N : Nat) (img : KernelImage) (s : Smp) : SmpAction → Option Smp
  | .userAccess c page frame =>
      match (s.cpu c).current with
      | none => none
      | some i =>
          if c < N ∧ (s.cpu c).At .run ∧ (s.tasks i).pgDir ≠ 0 then
            some (s.setCpu c fun cpu =>
              { cpu with
                tlb :=
                  { asid := cpu.ttbr0.2, page := page, frame := frame, slot := i
                    occupant := cpu.occupant } :: cpu.tlb })
          else none
  | .unmap c page =>
      match (s.cpu c).current with
      | none => none
      | some i =>
          if c < N ∧ (s.cpu c).At .run then
            some (s.setCpu c fun cpu =>
              { cpu with tlb := invalidateTlbByVa (s.tasks i).pid page cpu.tlb })
          else none
  | .userTest c pgDir =>
      match (s.cpu c).current with
      | none => none
      | some i =>
          if c < N ∧ (s.cpu c).At .run ∧ (s.tasks i).pgDir = 0 then
            some ((s.setTask i fun t => { t with pgDir := pgDir }).setCpu c fun cpu =>
              { cpu with ttbr0 := (pa pgDir, (s.tasks i).pid) })
          else none
  | .getTaskSlot c =>
      if c < N ∧ (s.cpu c).At .run then some (smpGetTaskSlot img s c) else none
  | .start c pgDir =>
      match (s.cpu c).here with
      | .fork i =>
          if (s.cpu c).top = [] then
            some ((s.setTask i fun t => { t with pgDir := pgDir, state := .running }).setCpu c fun cpu =>
              cpu.setHere .run)
          else none
      | _ => none
  | .freeTaskSlot c =>
      match (s.cpu c).here with
      | .fork i =>
          if (s.cpu c).top = [] then
            some ((s.setTask i fun _ => {}).setCpu c fun cpu => cpu.setHere .run)
          else none
      | _ => none
  | .doExit c =>
      if c < N ∧ (s.cpu c).At .run ∧ (s.cpu c).current ≠ none then
        some (s.setCpu c fun cpu => cpu.setHere .exitMm)
      else none
  | .exitMm c =>
      if (s.cpu c).At .exitMm then some (s.setCpu c fun cpu => cpu.setHere .exitStop) else none
  | .storeStopped c =>
      match (s.cpu c).current with
      | none => none
      | some i =>
          if (s.cpu c).At .exitStop then
            some ((s.setTask i fun t => { t with state := .stopped }).setCpu c fun cpu =>
              cpu.setHere .stopped)
          else none
  | .sched c e =>
      if c < N ∧ (e = .schedule → (s.cpu c).MaySchedule) then
        ((s.cpu c).step (getNextProc N s.tasks c) e).map fun sched => smpSched s c sched e
      else none
  | .sleep c =>
      match (s.cpu c).current with
      | none => none
      | some i =>
          if c < N ∧ (s.cpu c).At .run then
            some { s with tasks := setTaskState s.tasks (some i) .sleeping }
          else none
  | .wake i =>
      if (s.tasks i).state = .sleeping then
        some { s with tasks := setTaskState s.tasks (some i) .running }
      else none
  | .tick c user =>
      match (s.cpu c).current with
      | none => some s
      | some i =>
          some (s.setTask i fun t =>
            if user then { t with utime := (t.utime + 1) % 2 ^ 64 }
            else { t with stime := (t.stime + 1) % 2 ^ 64 })
  | .compute c regs => some (s.setCpu c fun cpu => { cpu with regs := regs })

/-- The machine before `main` starts its threads. -/
def smpInit (mem : Mem) : Smp :=
  { tasks := fun _ => {}, mem := mem, cpu := fun _ => {}, swapper := fun _ => {},
    occupant := fun _ => 0 }

/-! ## The invariant -/

/-- A task that CPU `c` may run. -/
structure Runnable (N : Nat) (tasks : TaskTable) (c i : Nat) : Prop where
  lt : c < N
  pinned : i % N = c
  inUse : (tasks i).inUse = true
  ready : (tasks i).state ≠ .initializing

/-- What holds of CPU `c`: of its current task, of what its threads have chosen, and of the slots that
they are filling.  Only a call of a task is not interrupted, so that what it has chosen stays runnable. -/
structure CpuOk (N : Nat) (tasks : TaskTable) (occupant : Nat → Nat) (c : Nat) (cpu : Cpu) : Prop where
  calls : OneCall cpu.toSchedCpu
  pinned : ∀ x, ∀ call ∈ cpu.calls x, ∀ i, call.next = some (some i) → c < N ∧ i % N = c
  current : ∀ i, cpu.current = some i → Runnable N tasks c i ∧
    ((tasks i).state = .stopped ↔ cpu.here = .stopped) ∧ cpu.occupant = occupant i
  next : cpu.current ≠ none → ∀ call ∈ cpu.top, ∀ i, call.next = some (some i) →
    Runnable N tasks c i ∧ (tasks i).state ≠ .stopped
  fork : ∀ x i, cpu.place x = .fork i → (tasks i).inUse = true ∧ (tasks i).state = .initializing
  forks : ∀ x y i, cpu.place x = .fork i → cpu.place y = .fork i → x = y

structure SlotInv (N : Nat) (s : Smp) : Prop where
  unused : ∀ i, (s.tasks i).inUse = false → (s.tasks i).state = .initializing
  cpus : ∀ c, CpuOk N s.tasks s.occupant c (s.cpu c)
  forks : ∀ c d x y i, (s.cpu c).place x = .fork i → (s.cpu d).place y = .fork i → c = d

variable {N : Nat} {img : KernelImage} {s s' : Smp} {c i : Nat}

theorem smpInit_inv (N : Nat) (mem : Mem) : SlotInv N (smpInit mem) where
  unused _ _ := rfl
  cpus _ :=
    { calls := ⟨fun _ _ => rfl, fun _ => Nat.zero_le 1⟩
      pinned := fun _ _ h => (List.not_mem_nil h).elim
      current := fun _ h => (Option.some_ne_none _ h.symm).elim
      next := fun _ _ h => (List.not_mem_nil h).elim
      fork := fun _ _ h => CpuPlace.noConfusion h
      forks := fun _ _ _ h => CpuPlace.noConfusion h }
  forks _ _ _ _ _ h := CpuPlace.noConfusion h

/-! ## What a step can do -/

/-- The guard of each action and the state that it leads to. -/
inductive SmpMove (N : Nat) (img : KernelImage) (s : Smp) : SmpAction → Smp → Prop where
  | userAccess {c i : Nat} (page frame : Nat) (hcurrent : (s.cpu c).current = some i) (hc : c < N)
      (hat : (s.cpu c).At .run) (hdir : (s.tasks i).pgDir ≠ 0) :
      SmpMove N img s (.userAccess c page frame) (s.setCpu c fun cpu =>
        { cpu with
          tlb :=
            { asid := cpu.ttbr0.2, page := page, frame := frame, slot := i
              occupant := cpu.occupant } :: cpu.tlb })
  | unmap {c i : Nat} (page : Nat) (hcurrent : (s.cpu c).current = some i) (hc : c < N)
      (hat : (s.cpu c).At .run) :
      SmpMove N img s (.unmap c page) (s.setCpu c fun cpu =>
        { cpu with tlb := invalidateTlbByVa (s.tasks i).pid page cpu.tlb })
  | userTest {c i : Nat} (pgDir : Nat) (hcurrent : (s.cpu c).current = some i) (hc : c < N)
      (hat : (s.cpu c).At .run) (hdir : (s.tasks i).pgDir = 0) :
      SmpMove N img s (.userTest c pgDir)
        ((s.setTask i fun t => { t with pgDir := pgDir }).setCpu c fun cpu =>
          { cpu with ttbr0 := (pa pgDir, (s.tasks i).pid) })
  | getTaskSlot {c : Nat} (hc : c < N) (hat : (s.cpu c).At .run) :
      SmpMove N img s (.getTaskSlot c) (smpGetTaskSlot img s c)
  | start {c i : Nat} (pgDir : Nat) (hat : (s.cpu c).At (.fork i)) :
      SmpMove N img s (.start c pgDir)
        ((s.setTask i fun t => { t with pgDir := pgDir, state := .running }).setCpu c fun cpu =>
          cpu.setHere .run)
  | freeTaskSlot {c i : Nat} (hat : (s.cpu c).At (.fork i)) :
      SmpMove N img s (.freeTaskSlot c)
        ((s.setTask i fun _ => {}).setCpu c fun cpu => cpu.setHere .run)
  | doExit {c : Nat} (hc : c < N) (hat : (s.cpu c).At .run) (hcurrent : (s.cpu c).current ≠ none) :
      SmpMove N img s (.doExit c) (s.setCpu c fun cpu => cpu.setHere .exitMm)
  | exitMm {c : Nat} (hat : (s.cpu c).At .exitMm) :
      SmpMove N img s (.exitMm c) (s.setCpu c fun cpu => cpu.setHere .exitStop)
  | storeStopped {c i : Nat} (hcurrent : (s.cpu c).current = some i) (hat : (s.cpu c).At .exitStop) :
      SmpMove N img s (.storeStopped c)
        ((s.setTask i fun t => { t with state := .stopped }).setCpu c fun cpu => cpu.setHere .stopped)
  | sched {c : Nat} {e : SchedEvent} {sched : SchedCpu} (hc : c < N)
      (hmay : e = .schedule → (s.cpu c).MaySchedule)
      (hmove : SchedMove (s.cpu c).toSchedCpu (getNextProc N s.tasks c) e sched) :
      SmpMove N img s (.sched c e) (smpSched s c sched e)
  | sleep {c i : Nat} (hcurrent : (s.cpu c).current = some i) (hc : c < N) (hat : (s.cpu c).At .run) :
      SmpMove N img s (.sleep c) (s.setTask i fun t => { t with state := .sleeping })
  | wake {i : Nat} (hstate : (s.tasks i).state = .sleeping) :
      SmpMove N img s (.wake i) (s.setTask i fun t => { t with state := .running })
  | tickIdle {c : Nat} (user : Bool) (hcurrent : (s.cpu c).current = none) :
      SmpMove N img s (.tick c user) s
  | tick {c i : Nat} (user : Bool) (hcurrent : (s.cpu c).current = some i) :
      SmpMove N img s (.tick c user) (s.setTask i fun t =>
        if user then { t with utime := (t.utime + 1) % 2 ^ 64 }
        else { t with stime := (t.stime + 1) % 2 ^ 64 })
  | compute (c : Nat) (regs : CpuContext) :
      SmpMove N img s (.compute c regs) (s.setCpu c fun cpu => { cpu with regs := regs })

theorem smpStep_move {a : SmpAction} (hs : smpStep N img s a = some s') : SmpMove N img s a s' := by
  cases a with
  | userAccess c page frame =>
      simp only [smpStep] at hs
      split at hs
      · cases hs
      · next i hcurrent =>
          split_ifs at hs with hg
          cases hs
          exact .userAccess page frame hcurrent hg.1 hg.2.1 hg.2.2
  | unmap c page =>
      simp only [smpStep] at hs
      split at hs
      · cases hs
      · next i hcurrent =>
          split_ifs at hs with hg
          cases hs
          exact .unmap page hcurrent hg.1 hg.2
  | userTest c pgDir =>
      simp only [smpStep] at hs
      split at hs
      · cases hs
      · next i hcurrent =>
          split_ifs at hs with hg
          cases hs
          exact .userTest pgDir hcurrent hg.1 hg.2.1 hg.2.2
  | getTaskSlot c =>
      simp only [smpStep] at hs
      split_ifs at hs with hg
      cases hs
      exact .getTaskSlot hg.1 hg.2
  | start c pgDir =>
      simp only [smpStep] at hs
      split at hs
      · next i hplace =>
          split_ifs at hs with htop
          cases hs
          exact .start pgDir ⟨htop, hplace⟩
      · cases hs
  | freeTaskSlot c =>
      simp only [smpStep] at hs
      split at hs
      · next i hplace =>
          split_ifs at hs with htop
          cases hs
          exact .freeTaskSlot ⟨htop, hplace⟩
      · cases hs
  | doExit c =>
      simp only [smpStep] at hs
      split_ifs at hs with hg
      cases hs
      exact .doExit hg.1 hg.2.1 hg.2.2
  | exitMm c =>
      simp only [smpStep] at hs
      split_ifs at hs with hat
      cases hs
      exact .exitMm hat
  | storeStopped c =>
      simp only [smpStep] at hs
      split at hs
      · cases hs
      · next i hcurrent =>
          split_ifs at hs with hat
          cases hs
          exact .storeStopped hcurrent hat
  | sched c e =>
      simp only [smpStep] at hs
      split_ifs at hs with hg
      obtain ⟨sched, hstep, rfl⟩ := Option.map_eq_some_iff.1 hs
      exact .sched hg.1 hg.2 (SchedCpu.step_move hstep)
  | sleep c =>
      simp only [smpStep] at hs
      split at hs
      · cases hs
      · next i hcurrent =>
          split_ifs at hs with hg
          cases hs
          exact .sleep hcurrent hg.1 hg.2
  | wake i =>
      simp only [smpStep] at hs
      split_ifs at hs with hstate
      cases hs
      exact .wake hstate
  | tick c user =>
      simp only [smpStep] at hs
      split at hs
      · next hcurrent =>
          cases hs
          exact .tickIdle user hcurrent
      · next i hcurrent =>
          cases hs
          exact .tick user hcurrent
  | compute c regs =>
      cases hs
      exact .compute c regs

/-! ## What a step leaves alone -/

/-- The invariant says the same of slot `i` before and after a step. -/
structure Kept (s s' : Smp) (i : Nat) : Prop where
  inUse : (s'.tasks i).inUse = (s.tasks i).inUse
  init : (s'.tasks i).state = .initializing ↔ (s.tasks i).state = .initializing
  stopped : (s'.tasks i).state = .stopped ↔ (s.tasks i).state = .stopped
  occupant : s'.occupant i = s.occupant i

theorem Kept.of_eq (htask : s'.tasks i = s.tasks i) (hocc : s'.occupant i = s.occupant i) :
    Kept s s' i :=
  ⟨by rw [htask], by rw [htask], by rw [htask], hocc⟩

theorem Kept.runnable (h : Kept s s' i) (hr : Runnable N s.tasks c i) : Runnable N s'.tasks c i :=
  ⟨hr.lt, hr.pinned, h.inUse ▸ hr.inUse, fun hi => hr.ready (h.init.1 hi)⟩

theorem Kept.unused (h : SlotInv N s) (hk : Kept s s' i) (hi : (s'.tasks i).inUse = false) :
    (s'.tasks i).state = .initializing := by
  rw [hk.inUse] at hi
  exact hk.init.2 (h.unused i hi)

/-- The slots that a CPU is concerned with. -/
def Cpu.Uses (cpu : Cpu) (i : Nat) : Prop :=
  cpu.current = some i ∨ (cpu.current ≠ none ∧ ∃ call ∈ cpu.top, call.next = some (some i)) ∨
    ∃ x, cpu.place x = .fork i

theorem CpuOk.uses {cpu : Cpu} (h : CpuOk N s.tasks s.occupant c cpu) (hu : cpu.Uses i) :
    Runnable N s.tasks c i ∨ ∃ x, cpu.place x = .fork i := by
  rcases hu with hi | ⟨htask, call, hcall, hi⟩ | hi
  · exact Or.inl (h.current i hi).1
  · exact Or.inl (h.next htask call hcall i hi).1
  · exact Or.inr hi

/-- A CPU whose slots are kept. -/
theorem CpuOk.kept {cpu : Cpu} (h : CpuOk N s.tasks s.occupant c cpu)
    (hkept : ∀ i, cpu.Uses i → Kept s s' i) : CpuOk N s'.tasks s'.occupant c cpu where
  calls := h.calls
  pinned := h.pinned
  current i hi := by
    obtain ⟨hr, hstop, hocc⟩ := h.current i hi
    have hk := hkept i (Or.inl hi)
    exact ⟨hk.runnable hr, hk.stopped.trans hstop, by rw [hocc, hk.occupant]⟩
  next htask call hcall i hi := by
    obtain ⟨hr, hstop⟩ := h.next htask call hcall i hi
    have hk := hkept i (Or.inr (Or.inl ⟨htask, call, hcall, hi⟩))
    exact ⟨hk.runnable hr, fun hs => hstop (hk.stopped.1 hs)⟩
  fork x i hi := by
    obtain ⟨huse, hini⟩ := h.fork x i hi
    have hk := hkept i (Or.inr (Or.inr ⟨x, hi⟩))
    exact ⟨hk.inUse ▸ huse, hk.init.2 hini⟩
  forks := h.forks

/-- Only the registers or the TLB of the CPU change. -/
theorem CpuOk.of_eq {cpu cpu' : Cpu} {tasks : TaskTable} {occupant : Nat → Nat}
    (h : CpuOk N tasks occupant c cpu) (hcalls : cpu'.toSchedCpu = cpu.toSchedCpu)
    (hplace : cpu'.place = cpu.place) (hocc : cpu'.occupant = cpu.occupant) :
    CpuOk N tasks occupant c cpu' := by
  obtain ⟨sched', place', regs', ttbr0', tlb', occupant'⟩ := cpu'
  obtain rfl : sched' = cpu.toSchedCpu := hcalls
  obtain rfl : place' = cpu.place := hplace
  obtain rfl : occupant' = cpu.occupant := hocc
  exact ⟨h.calls, h.pinned, h.current, h.next, h.fork, h.forks⟩

/-- The current thread gets to another place. -/
theorem CpuOk.setHere {cpu : Cpu} {tasks : TaskTable} {occupant : Nat → Nat} {p : CpuPlace}
    (h : CpuOk N tasks occupant c cpu)
    (hstop : ∀ i, cpu.current = some i → ((tasks i).state = .stopped ↔ p = .stopped))
    (hfork : ∀ i, p = .fork i → ((tasks i).inUse = true ∧ (tasks i).state = .initializing) ∧
      ∀ x, x ≠ cpu.current → cpu.place x ≠ .fork i) : CpuOk N tasks occupant c (cpu.setHere p) where
  calls := h.calls
  pinned := h.pinned
  current i hi := ⟨(h.current i hi).1, by rw [setHere_here]; exact hstop i hi, (h.current i hi).2.2⟩
  next := h.next
  fork x i hi := by
    rcases setHere_fork hi with ⟨-, hp⟩ | ⟨-, hold⟩
    · exact (hfork i hp).1
    · exact h.fork x i hold
  forks x y i hx hy := by
    rcases setHere_fork hx with ⟨rfl, hp⟩ | ⟨hxc, hxold⟩
    · rcases setHere_fork hy with ⟨rfl, -⟩ | ⟨hyc, hyold⟩
      · rfl
      · exact absurd hyold ((hfork i hp).2 y hyc)
    · rcases setHere_fork hy with ⟨rfl, hp⟩ | ⟨-, hyold⟩
      · exact absurd hxold ((hfork i hp).2 x hxc)
      · exact h.forks x y i hxold hyold

/-- A step of CPU `c` that keeps the slots of the other CPUs. -/
theorem SlotInv.update (h : SlotInv N s) (hother : ∀ d, d ≠ c → s'.cpu d = s.cpu d)
    (hunused : ∀ i, (s'.tasks i).inUse = false → (s'.tasks i).state = .initializing)
    (hkept : ∀ d, d ≠ c → ∀ i, (s.cpu d).Uses i → Kept s s' i)
    (hself : CpuOk N s'.tasks s'.occupant c (s'.cpu c))
    (hforks : ∀ x i, (s'.cpu c).place x = .fork i → ∀ d, d ≠ c → ∀ y, (s.cpu d).place y ≠ .fork i) :
    SlotInv N s' := by
  refine ⟨hunused, fun d => ?_, fun d d' x y i hd hd' => ?_⟩
  · by_cases hdc : d = c
    · exact hdc ▸ hself
    · rw [hother d hdc]
      exact (h.cpus d).kept (hkept d hdc)
  · by_cases hdc : d = c
    · by_cases hdc' : d' = c
      · rw [hdc, hdc']
      · subst hdc
        rw [hother d' hdc'] at hd'
        exact absurd hd' (hforks x i hd d' hdc' y)
    · by_cases hdc' : d' = c
      · subst hdc'
        rw [hother d hdc] at hd
        exact absurd hd (hforks y i hd' d hdc x)
      · rw [hother d hdc] at hd
        rw [hother d' hdc'] at hd'
        exact h.forks d d' x y i hd hd'

/-- A CPU goes on, and fills no slot but those that it has filled before. -/
theorem SlotInv.setCpu (h : SlotInv N s) {f : Cpu → Cpu}
    (hself : CpuOk N s.tasks s.occupant c (f (s.cpu c)))
    (hforks : ∀ x i, (f (s.cpu c)).place x = .fork i → (s.cpu c).place x = .fork i) :
    SlotInv N (s.setCpu c f) := by
  have hcpuc : (s.setCpu c f).cpu c = f (s.cpu c) := Function.update_self ..
  refine h.update (fun d hd => Function.update_of_ne hd ..) h.unused
    (fun _ _ _ _ => Kept.of_eq rfl rfl) (hcpuc ▸ hself) fun x i hx d hd y hy => ?_
  rw [hcpuc] at hx
  exact hd (h.forks d c y x i hy (hforks x i hx))

/-- The current thread of a CPU goes on to a place where it fills no slot. -/
theorem SlotInv.setHere (h : SlotInv N s) {p : CpuPlace}
    (hstop : ∀ i, (s.cpu c).current = some i → ((s.tasks i).state = .stopped ↔ p = .stopped))
    (hfork : ∀ i, p ≠ .fork i) : SlotInv N (s.setCpu c fun cpu => cpu.setHere p) := by
  refine h.setCpu ((h.cpus c).setHere hstop fun i hp => absurd hp (hfork i)) fun x i hx => ?_
  rcases setHere_fork hx with ⟨-, hp⟩ | ⟨-, hold⟩
  · exact absurd hp (hfork i)
  · exact hold

/-- A slot changes, but it is neither taken nor freed, and its task neither gets ready nor stops. -/
theorem SlotInv.setTask (h : SlotInv N s) {f : TaskStruct → TaskStruct}
    (hinUse : (f (s.tasks i)).inUse = (s.tasks i).inUse)
    (hinit : (f (s.tasks i)).state = .initializing ↔ (s.tasks i).state = .initializing)
    (hstop : (f (s.tasks i)).state = .stopped ↔ (s.tasks i).state = .stopped) :
    SlotInv N (s.setTask i f) := by
  have hkept : ∀ j, Kept s (s.setTask i f) j := by
    intro j
    by_cases hj : j = i
    · subst hj
      have hself : (s.setTask j f).tasks j = f (s.tasks j) := Function.update_self ..
      exact ⟨by rw [hself, hinUse], by rw [hself, hinit], by rw [hself, hstop], rfl⟩
    · exact Kept.of_eq (Function.update_of_ne hj ..) rfl
  exact ⟨fun j => (hkept j).unused h, fun d => (h.cpus d).kept fun j _ => hkept j, h.forks⟩

/-! ## Recycling a slot -/

/-- `get_task_slot` does not touch the slot of a task that a CPU still runs. -/
def SlotSafe (img : KernelImage) (s : Smp) : SmpAction → Prop
  | .getTaskSlot _ => ∀ d i, (s.cpu d).current = some i →
      (Kernel.getTaskSlot img s.tasks s.mem).1 ≠ some i ∧
        (Kernel.getTaskSlot img s.tasks s.mem).2.1 i = s.tasks i
  | _ => True

/-- No CPU runs on a slot that has been given to a new task. -/
def OwnSlots (s : Smp) : Prop :=
  ∀ d i, (s.cpu d).current = some i → (s.cpu d).occupant = s.occupant i

/-- `get_task_slot` does not get to the slot of a task between its storing `STOPPED` and its
`cpu_switch_to`. -/
def NotLeaving (N : Nat) (s : Smp) : SmpAction → Prop
  | .getTaskSlot _ => ∀ d < N, ∀ i ∈ (s.cpu d).current, (s.cpu d).here = .stopped →
      ¬SlotVisited s.tasks i
  | _ => True

instance (N : Nat) (s : Smp) : (a : SmpAction) → Decidable (NotLeaving N s a)
  | .getTaskSlot _ => inferInstanceAs (Decidable (∀ d < N, ∀ i ∈ (s.cpu d).current,
      (s.cpu d).here = .stopped → ¬SlotVisited s.tasks i))
  | .userAccess .. | .unmap .. | .userTest .. | .start .. | .freeTaskSlot _ | .doExit _ | .exitMm _
  | .storeStopped _ | .sched .. | .sleep _ | .wake _ | .tick .. | .compute .. => isTrue trivial

/-- The task in the slot has been started and has not stopped. -/
def Started (tasks : TaskTable) (i : Nat) : Prop :=
  (tasks i).inUse = true ∧ (tasks i).state ≠ .initializing ∧ (tasks i).state ≠ .stopped

instance (tasks : TaskTable) (i : Nat) : Decidable (Started tasks i) :=
  inferInstanceAs (Decidable (_ ∧ _ ∧ _))

/-- A swapper does not switch to a slot whose task is gone: since it has called `get_next_proc`, it may
have been interrupted, and the task may have run and ended. -/
def LiveSwitch (s : Smp) : SmpAction → Prop
  | .sched c .switchTo => (s.cpu c).current = none → ∀ i ∈ (s.cpu c).nextTask, Started s.tasks i
  | _ => True

instance (s : Smp) : (a : SmpAction) → Decidable (LiveSwitch s a)
  | .sched c .switchTo => inferInstanceAs (Decidable ((s.cpu c).current = none →
      ∀ i ∈ (s.cpu c).nextTask, Started s.tasks i))
  | .sched _ .schedule | .sched _ .getNextProc | .sched _ .writeTtbr0 => isTrue trivial
  | .userAccess .. | .unmap .. | .userTest .. | .getTaskSlot _ | .start .. | .freeTaskSlot _ | .doExit _
  | .exitMm _ | .storeStopped _ | .sleep _ | .wake _ | .tick .. | .compute .. => isTrue trivial

theorem SlotInv.slotSafe_iff (h : SlotInv N s) (a : SmpAction) : SlotSafe img s a ↔ NotLeaving N s a := by
  cases a with
  | getTaskSlot c =>
      rcases hcall : Kernel.getTaskSlot img s.tasks s.mem with ⟨slot, tasks, mem⟩
      have hslot := getTaskSlot_call hcall
      simp only [SlotSafe, NotLeaving, hcall]
      have hlt : ∀ d i, (s.cpu d).current = some i → d < N := fun d i hd =>
        ((h.cpus d).current i hd).1.lt
      rw [show (∀ d < N, ∀ i ∈ (s.cpu d).current, (s.cpu d).here = .stopped → ¬SlotVisited s.tasks i) ↔
        ∀ d i, (s.cpu d).current = some i → (s.cpu d).here = .stopped → ¬SlotVisited s.tasks i from
          ⟨fun hall d i hd => hall d (hlt d i hd) i hd, fun hall d _ i hd => hall d i hd⟩]
      refine forall₃_congr fun d i hd => ?_
      obtain ⟨hrun, hstop, -⟩ := (h.cpus d).current i hd
      constructor
      · rintro ⟨-, hsame⟩ hleaving hvisited
        -- the slot would be cleared
        have hreaped := hslot.reaped i ⟨hvisited, hrun.inUse, hstop.2 hleaving⟩
        have huse := hrun.inUse
        rw [← hsame, hreaped] at huse
        cases huse
      · intro hnot
        have hne : slot ≠ some i := by
          intro hi
          have hfree := (hslot.found i hi).2.1
          rw [hrun.inUse] at hfree
          cases hfree
        exact ⟨hne, hslot.same i hne fun hr => hnot (hstop.1 hr.2.2) hr.1⟩
  | _ => exact Iff.rfl

/-- `get_next_proc` chooses a task of its CPU that is runnable. -/
theorem getNextProc_spec {tasks : TaskTable} (hc : c < N) {j : Nat}
    (h : getNextProc N tasks c = some j) : Runnable N tasks c j ∧ (tasks j).state ≠ .stopped := by
  obtain ⟨⟨-, hpinned⟩, hready⟩ := getNextProc_ready hc h
  simp only [isTaskReady, Bool.and_eq_true, beq_iff_eq] at hready
  exact ⟨⟨hc, hpinned, hready.1, by rw [hready.2]; decide⟩, by rw [hready.2]; decide⟩

/-! ## Steps keep the invariant -/

/-- The current thread of a CPU changes a slot that no other CPU is concerned with, and goes on to a place
where it fills no slot. -/
theorem SlotInv.setTaskHere (h : SlotInv N s) {f : TaskStruct → TaskStruct} {p : CpuPlace}
    (hp : ∀ j, p ≠ .fork j)
    (hunused : (f (s.tasks i)).inUse = false → (f (s.tasks i)).state = .initializing)
    (hothers : ∀ d, d ≠ c → ¬(s.cpu d).Uses i)
    (hself : CpuOk N (s.setTask i f).tasks s.occupant c ((s.cpu c).setHere p)) :
    SlotInv N ((s.setTask i f).setCpu c fun cpu => cpu.setHere p) := by
  have hcpuc : ((s.setTask i f).setCpu c fun cpu => cpu.setHere p).cpu c = (s.cpu c).setHere p :=
    Function.update_self ..
  have hkept : ∀ j, j ≠ i → Kept s ((s.setTask i f).setCpu c fun cpu => cpu.setHere p) j :=
    fun j hj => Kept.of_eq (Function.update_of_ne hj ..) rfl
  refine h.update (c := c) (fun d hd => Function.update_of_ne hd ..) (fun j hj => ?_)
    (fun d hd j hu => hkept j fun hji => hothers d hd (hji ▸ hu)) (hcpuc ▸ hself) fun x j hx d hd y hy => ?_
  · by_cases hji : j = i
    · subst hji
      change ((s.setTask j f).tasks j).inUse = false at hj
      change ((s.setTask j f).tasks j).state = .initializing
      rw [show (s.setTask j f).tasks j = f (s.tasks j) from Function.update_self ..] at hj ⊢
      exact hunused hj
    · exact (hkept j hji).unused h hj
  · rw [hcpuc] at hx
    rcases setHere_fork hx with ⟨-, hno⟩ | ⟨-, hold⟩
    · exact absurd hno (hp j)
    · exact hd (h.forks d c y x j hy hold)

/-- The end of `sys_fork` or `kernel_thread`: the slot is given up or its task gets ready. -/
theorem SlotInv.forkEnd (h : SlotInv N s) (hat : (s.cpu c).At (.fork i)) {f : TaskStruct → TaskStruct}
    (hf : f (s.tasks i) = {} ∨ (f (s.tasks i)).inUse = true ∧ (f (s.tasks i)).state = .running) :
    SlotInv N ((s.setTask i f).setCpu c fun cpu => cpu.setHere .run) := by
  have hok := h.cpus c
  obtain ⟨-, hini⟩ := hok.fork _ i hat.2
  -- no CPU runs, or is about to run, the task in this slot
  have hne : ∀ d j, Runnable N s.tasks d j → j ≠ i := by
    rintro d j hr rfl
    exact hr.ready hini
  have hkept : ∀ j, j ≠ i → Kept s (s.setTask i f) j := fun j hj =>
    Kept.of_eq (Function.update_of_ne hj ..) rfl
  -- and no other thread fills it
  have hfork : ∀ x j, ((s.cpu c).setHere .run).place x = .fork j → (s.cpu c).place x = .fork j ∧ j ≠ i := by
    intro x j hx
    rcases setHere_fork hx with ⟨-, hno⟩ | ⟨hxc, hold⟩
    · cases hno
    · refine ⟨hold, ?_⟩
      rintro rfl
      exact hxc (hok.forks x _ j hold hat.2)
  refine h.setTaskHere (fun _ => CpuPlace.noConfusion) (fun hfree => ?_) (fun d hd hu => ?_) ?_
  · rcases hf with hf | hf
    · rw [hf]
    · rw [hf.1] at hfree
      cases hfree
  · rcases (h.cpus d).uses hu with hr | ⟨x, hx⟩
    · exact hr.ready hini
    · exact hd (h.forks d c x _ i hx hat.2)
  · refine ⟨hok.calls, hok.pinned, fun j hj => ?_, fun htask call hcall j hj => ?_, fun x j hj => ?_,
      fun x y j hx hy => hok.forks x y j (hfork x j hx).1 (hfork y j hy).1⟩
    · obtain ⟨hr, hstop, hocc⟩ := hok.current j hj
      have hk := hkept j (hne c j hr)
      refine ⟨hk.runnable hr, hk.stopped.trans (hstop.trans ?_), hocc⟩
      rw [hat.2, setHere_here]
      exact iff_of_false CpuPlace.noConfusion CpuPlace.noConfusion
    · obtain ⟨hr, hstop⟩ := hok.next htask call hcall j hj
      have hk := hkept j (hne c j hr)
      exact ⟨hk.runnable hr, fun hs => hstop (hk.stopped.1 hs)⟩
    · obtain ⟨hold, hji⟩ := hfork x j hj
      rw [show (s.setTask i f).tasks j = s.tasks j from Function.update_of_ne hji ..]
      exact hok.fork x j hold

/-- `do_exit` stores `STOPPED`. -/
theorem SlotInv.storeStopped (h : SlotInv N s) (hcurrent : (s.cpu c).current = some i)
    (hat : (s.cpu c).At .exitStop) :
    SlotInv N ((s.setTask i fun t => { t with state := .stopped }).setCpu c fun cpu =>
      cpu.setHere .stopped) := by
  have hok := h.cpus c
  obtain ⟨hrun, -, hocc⟩ := hok.current i hcurrent
  have htaski : (s.setTask i fun t => { t with state := .stopped }).tasks i =
      { s.tasks i with state := .stopped } := Function.update_self ..
  -- a slot that is being filled is not started
  have hfork : ∀ d x, (s.cpu d).place x ≠ .fork i := fun d x hx => hrun.ready ((h.cpus d).fork x i hx).2
  have hplace : ∀ x j, ((s.cpu c).setHere .stopped).place x = .fork j → (s.cpu c).place x = .fork j := by
    intro x j hx
    rcases setHere_fork hx with ⟨-, hno⟩ | ⟨-, hold⟩
    · cases hno
    · exact hold
  refine h.setTaskHere (fun _ => CpuPlace.noConfusion) (fun hfree => ?_) (fun d hd hu => ?_) ?_
  · have huse : (s.tasks i).inUse = false := hfree
    rw [hrun.inUse] at huse
    cases huse
  · rcases (h.cpus d).uses hu with hr | ⟨x, hx⟩
    · -- the slot belongs to this CPU
      exact hd (hr.pinned.symm.trans hrun.pinned)
    · exact hfork d x hx
  · refine ⟨hok.calls, hok.pinned, fun j hj => ?_, fun htask call hcall j hj => ?_, fun x j hx => ?_,
      fun x y j hx hy => hok.forks x y j (hplace x j hx) (hplace y j hy)⟩
    · obtain rfl : i = j := Option.some.inj (hcurrent.symm.trans hj)
      refine ⟨⟨hrun.lt, hrun.pinned, ?_, ?_⟩, ?_, hocc⟩
      · rw [htaski]
        exact hrun.inUse
      · rw [htaski]
        exact ProcessState.noConfusion
      · rw [htaski, setHere_here]
        exact iff_of_true rfl rfl
    · exact (List.not_mem_nil (hat.1 ▸ hcall : call ∈ [])).elim
    · have hji : j ≠ i := fun hji => hfork c x (hji ▸ hplace x j hx)
      rw [show (s.setTask i fun t => { t with state := .stopped }).tasks j = s.tasks j from
        Function.update_of_ne hji ..]
      exact hok.fork x j (hplace x j hx)

/-- The state after `get_task_slot`. -/
theorem smpGetTaskSlot_call (img : KernelImage) (s : Smp) (c : Nat) :
    ∃ slot tasks mem, SlotCall img s.tasks s.mem slot tasks mem ∧
      (smpGetTaskSlot img s c).tasks = tasks ∧
      (smpGetTaskSlot img s c).occupant = handOut s.occupant slot ∧
      (smpGetTaskSlot img s c).cpu =
        Function.update s.cpu c ((s.cpu c).gotTaskSlot s.tasks slot) :=
  ⟨_, _, _, getTaskSlot_call rfl, rfl, rfl, rfl⟩

theorem handOut_of_ne {occupant : Nat → Nat} {slot : Option Nat} {j : Nat} (h : slot ≠ some j) :
    handOut occupant slot j = occupant j := by
  cases slot with
  | none => rfl
  | some k => exact Function.update_of_ne (fun hjk => h (by rw [hjk])) ..

/-- `get_task_slot` does not touch a slot that is in use, unless its task has exited and the scan gets
there. -/
theorem SlotCall.kept {slot : Option Nat} {tasks : TaskTable} {mem : Mem} {j : Nat}
    (h : SlotCall img s.tasks s.mem slot tasks mem) (htasks : s'.tasks = tasks)
    (hocc : s'.occupant = handOut s.occupant slot) (huse : (s.tasks j).inUse = true)
    (hreap : ¬Reapable s.tasks j) : Kept s s' j := by
  have hne : slot ≠ some j := by
    intro hj
    rw [(h.found j hj).2.1] at huse
    cases huse
  exact Kept.of_eq (by rw [htasks, h.same j hne hreap]) (by rw [hocc, handOut_of_ne hne])

/-- The slots that a CPU uses are not reaped, if the task of none of them is leaving. -/
theorem SlotInv.not_reapable (h : SlotInv N s) (hnot : NotLeaving N s (.getTaskSlot c)) {d j : Nat}
    (hu : (s.cpu d).Uses j) : (s.tasks j).inUse = true ∧ ¬Reapable s.tasks j := by
  rcases hu with hj | ⟨htask, call, hcall, hj⟩ | ⟨x, hj⟩
  · obtain ⟨hr, hstop, -⟩ := (h.cpus d).current j hj
    exact ⟨hr.inUse, fun hre => hnot d hr.lt j hj (hstop.1 hre.2.2) hre.1⟩
  · obtain ⟨hr, hstop⟩ := (h.cpus d).next htask call hcall j hj
    exact ⟨hr.inUse, fun hre => hstop hre.2.2⟩
  · obtain ⟨huse, hini⟩ := (h.cpus d).fork x j hj
    refine ⟨huse, fun hre => ?_⟩
    rw [hre.2.2] at hini
    cases hini

/-- `get_task_slot` that does not get to the slot of a task that is leaving. -/
theorem SlotInv.getTaskSlot (h : SlotInv N s) (hat : (s.cpu c).At .run)
    (hnot : NotLeaving N s (.getTaskSlot c)) : SlotInv N (smpGetTaskSlot img s c) := by
  obtain ⟨slot, tasks, mem, hslot, htasks, hocc, hcpu⟩ := smpGetTaskSlot_call img s c
  generalize smpGetTaskSlot img s c = s' at *
  have hkept : ∀ d j, (s.cpu d).Uses j → Kept s s' j := fun d j hu =>
    hslot.kept htasks hocc (h.not_reapable hnot hu).1 (h.not_reapable hnot hu).2
  have hcpuc : s'.cpu c = (s.cpu c).gotTaskSlot s.tasks slot := by rw [hcpu, Function.update_self]
  -- the slot that is handed out was free, so nobody was filling it
  have hfree : ∀ j, slotPlace slot = .fork j →
      ((s'.tasks j).inUse = true ∧ (s'.tasks j).state = .initializing) ∧
        ∀ d y, (s.cpu d).place y ≠ .fork j := by
    intro j hj
    cases slot with
    | none => cases hj
    | some k =>
        cases hj
        obtain ⟨-, hfree, htaken, -⟩ := hslot.found j rfl
        rw [htasks, htaken]
        refine ⟨⟨rfl, h.unused j hfree⟩, fun d y hy => ?_⟩
        rw [((h.cpus d).fork y j hy).1] at hfree
        cases hfree
  have hself : CpuOk N s'.tasks s'.occupant c ((s.cpu c).setHere (slotPlace slot)) := by
    refine ((h.cpus c).kept (hkept c)).setHere (fun i hi => ?_) fun j hj =>
      ⟨(hfree j hj).1, fun y _ => (hfree j hj).2 c y⟩
    obtain ⟨hr, hstop, -⟩ := (h.cpus c).current i hi
    refine (hkept c i (Or.inl hi)).stopped.trans (hstop.trans ?_)
    rw [hat.2]
    cases slot <;> exact iff_of_false CpuPlace.noConfusion CpuPlace.noConfusion
  refine h.update (fun d hd => by rw [hcpu, Function.update_of_ne hd]) (fun j hj => ?_)
    (fun d _ j hu => hkept d j hu) ?_ fun x j hx d hd y hy => ?_
  · rw [htasks] at hj ⊢
    -- a slot is the one handed out, or has been cleared, or is as before
    by_cases hslotj : slot = some j
    · rw [(hslot.found j hslotj).2.2.1] at hj
      cases hj
    · by_cases hreap : Reapable s.tasks j
      · rw [hslot.reaped j hreap]
      · rw [hslot.same j hslotj hreap] at hj ⊢
        exact h.unused j hj
  · rw [hcpuc]
    exact ⟨hself.calls, hself.pinned, hself.current, hself.next, hself.fork, hself.forks⟩
  · rw [hcpuc] at hx
    rcases setHere_fork hx with ⟨-, hp⟩ | ⟨-, hold⟩
    · exact (hfree j hp).2 d y hy
    · exact hd (h.forks d c y x j hy hold)

/-! ## `schedule` keeps the invariant -/

/-- The threads of a CPU choose slots of its own. -/
theorem CpuOk.move_pinned {cpu : Cpu} {sched : SchedCpu} {e : SchedEvent} {occupant : Nat → Nat}
    {tasks : TaskTable} (h : CpuOk N tasks occupant c cpu) (hc : c < N)
    (hm : SchedMove cpu.toSchedCpu (getNextProc N tasks c) e sched) :
    ∀ x, ∀ call ∈ sched.calls x, ∀ i, call.next = some (some i) → c < N ∧ i % N = c := by
  intro x call hcall i hi
  rcases hm.next hcall hi with ⟨y, old, hold, heq⟩ | ⟨-, heq⟩
  · exact h.pinned y old hold i heq
  · exact ⟨hc, (getNextProc_ready hc heq.symm).1.2⟩

/-- The current thread of a CPU is in other calls; if it is a task, what these have chosen is runnable. -/
theorem CpuOk.setTop {cpu : Cpu} {occupant : Nat → Nat} {tasks : TaskTable} {calls : List SchedCall}
    (h : CpuOk N tasks occupant c cpu) (hcalls : OneCall (cpu.setTop calls))
    (hpinned : ∀ x, ∀ call ∈ (cpu.setTop calls).calls x, ∀ i, call.next = some (some i) →
      c < N ∧ i % N = c)
    (hnext : cpu.current ≠ none → ∀ call ∈ calls, ∀ i, call.next = some (some i) →
      Runnable N tasks c i ∧ (tasks i).state ≠ .stopped) :
    CpuOk N tasks occupant c { cpu with toSchedCpu := cpu.setTop calls } where
  calls := hcalls
  pinned := hpinned
  current := h.current
  next htask call hcall := hnext htask call (setTop_top cpu.toSchedCpu calls ▸ hcall)
  fork := h.fork
  forks := h.forks

/-- A step of `schedule` up to the switch. -/
theorem SlotInv.setTop (h : SlotInv N s) {e : SchedEvent} {calls : List SchedCall} (hc : c < N)
    (hm : SchedMove (s.cpu c).toSchedCpu (getNextProc N s.tasks c) e ((s.cpu c).setTop calls))
    (hnext : (s.cpu c).current ≠ none → ∀ call ∈ calls, ∀ i, call.next = some (some i) →
      Runnable N s.tasks c i ∧ (s.tasks i).state ≠ .stopped) :
    CpuOk N s.tasks s.occupant c { s.cpu c with toSchedCpu := (s.cpu c).setTop calls } :=
  (h.cpus c).setTop (hm.oneCall (h.cpus c).calls) ((h.cpus c).move_pinned hc hm) hnext

theorem saveContext_cpu (s : Smp) (c : Nat) : (s.saveContext c).cpu = s.cpu := by
  rw [Smp.saveContext]
  split <;> rfl

/-- Saving registers changes nothing that the invariant looks at. -/
theorem SlotInv.saveContext (h : SlotInv N s) (c : Nat) : SlotInv N (s.saveContext c) := by
  rw [Smp.saveContext]
  split
  · exact ⟨h.unused, h.cpus, h.forks⟩
  · exact h.setTask rfl Iff.rfl Iff.rfl

theorem saveContext_kept (s : Smp) (c j : Nat) : Kept s (s.saveContext c) j := by
  rw [Smp.saveContext]
  split
  · exact Kept.of_eq rfl rfl
  · next i _ =>
      by_cases hj : j = i
      · subst hj
        have hself : ((s.setTask j fun t => { t with thread := (s.cpu c).regs }).tasks j) =
            { s.tasks j with thread := (s.cpu c).regs } := Function.update_self ..
        exact ⟨by rw [hself], by rw [hself], by rw [hself], rfl⟩
      · exact Kept.of_eq (Function.update_of_ne hj ..) rfl

/-- The places after a thread has come back from `schedule`. -/
theorem setHere_back_fork (cpu : Cpu) {p : CpuPlace} {x : Option Nat} (hp : p = cpu.here)
    (h : (cpu.setHere p.back).place x = .fork i) : cpu.place x = .fork i := by
  rcases setHere_fork h with ⟨rfl, hback⟩ | ⟨-, hold⟩
  · exact (hp.symm.trans (back_eq_fork hback) : cpu.here = .fork i)
  · exact hold

/-- `cpu_switch_to` to a thread that is runnable. -/
theorem SlotInv.switchTo (h : SlotInv N s) {next : Option Nat} {call : SchedCall}
    {calls : List SchedCall} (hc : c < N) (htop : (s.cpu c).top = call :: calls)
    (hm : SchedMove (s.cpu c).toSchedCpu (getNextProc N s.tasks c) .switchTo
      { (s.cpu c).setTop calls with current := next })
    (hlive : ∀ i, next = some i → Runnable N s.tasks c i ∧ (s.tasks i).state ≠ .stopped) :
    SlotInv N (smpSwitchTo s c { (s.cpu c).setTop calls with current := next }) := by
  have hok := h.cpus c
  have hplace : ∀ x i, (s.switchCpu c { (s.cpu c).setTop calls with current := next } (s.cpu c)).place x =
      .fork i → (s.cpu c).place x = .fork i := fun x i hx =>
    setHere_back_fork { s.cpu c with
      toSchedCpu := { (s.cpu c).setTop calls with current := next }
      regs := s.context c next } rfl hx
  refine (h.saveContext c).setCpu (f := s.switchCpu c _) ?_ ?_
  · rw [saveContext_cpu]
    refine ⟨hm.oneCall hok.calls, hok.move_pinned hc hm, fun i hi => ?_, fun htask later hlater i hi => ?_,
      fun x i hx => ?_, fun x y i hx hy => hok.forks x y i (hplace x i hx) (hplace y i hy)⟩
    · have hk := saveContext_kept s c i
      obtain rfl : next = some i := hi
      obtain ⟨hr, hstop⟩ := hlive i rfl
      refine ⟨hk.runnable hr, iff_of_false (fun hs => hstop (hk.stopped.1 hs)) ?_, hk.occupant.symm⟩
      have hhere : (s.switchCpu c { (s.cpu c).setTop calls with current := some i } (s.cpu c)).here =
          ((s.cpu c).place (some i)).back := Function.update_self ..
      rw [hhere]
      exact back_ne_stopped _
    · -- the task that goes on is in no call
      obtain ⟨j, rfl⟩ := Option.ne_none_iff_exists'.1 (htask : next ≠ none)
      have hnil := hok.calls.switchTo_top htop j
      exact (List.not_mem_nil (hnil ▸ hlater : later ∈ [])).elim
    · have hk := saveContext_kept s c i
      obtain ⟨huse, hini⟩ := hok.fork x i (hplace x i hx)
      exact ⟨hk.inUse ▸ huse, hk.init.2 hini⟩
  · rw [saveContext_cpu]
    exact hplace

/-- A step of `schedule`; no swapper switches to a task that is gone. -/
theorem SlotInv.sched (h : SlotInv N s) {e : SchedEvent} {sched : SchedCpu} (hc : c < N)
    (hm : SchedMove (s.cpu c).toSchedCpu (getNextProc N s.tasks c) e sched)
    (hlive : LiveSwitch s (.sched c e)) : SlotInv N (smpSched s c sched e) := by
  have hok := h.cpus c
  have hm' := hm
  cases hm with
  | schedule hg =>
      refine h.setCpu (f := fun cpu => { cpu with toSchedCpu := (s.cpu c).setTop _ })
        (h.setTop hc hm' fun htask call hcall i hi => ?_) fun _ _ hx => hx
      rw [hg.resolve_left htask] at hcall
      obtain rfl := List.mem_singleton.1 hcall
      cases hi
  | @getNextProc calls htop =>
      refine h.setCpu (f := fun cpu => { cpu with toSchedCpu := (s.cpu c).setTop _ })
        (h.setTop hc hm' fun htask call hcall i hi => ?_) fun _ _ hx => hx
      rcases List.mem_cons.1 hcall with rfl | hrest
      · exact getNextProc_spec hc (Option.some.inj hi)
      · exact hok.next htask call (htop ▸ List.mem_cons_of_mem _ hrest) i hi
  | @stay calls htop =>
      have hself : (s.cpu c).writeTtbr0 s.tasks ((s.cpu c).setTop calls) =
          Cpu.setHere { s.cpu c with toSchedCpu := (s.cpu c).setTop calls } (s.cpu c).here.back := by
        rw [Cpu.writeTtbr0, if_pos (by rw [htop]; rfl)]
      have hrest := h.setTop hc hm' fun htask call hcall =>
        hok.next htask call (htop ▸ List.mem_cons_of_mem _ hcall)
      refine h.setCpu (f := fun cpu => cpu.writeTtbr0 s.tasks _) ?_ fun x i hx => ?_
      · rw [hself]
        refine hrest.setHere (fun i hi => ?_) fun i hp => ?_
        · -- the task has chosen itself, so it is not stopped
          have hi' : (s.cpu c).current = some i := hi
          have hcurrent := hok.next (by rw [hi']; exact Option.some_ne_none i) (.chosen (s.cpu c).current)
            (htop ▸ List.mem_cons_self) i (congrArg some hi')
          exact iff_of_false hcurrent.2 (back_ne_stopped _)
        · have hplace := back_eq_fork hp
          exact ⟨hok.fork _ i hplace, fun x hx hold => hx (hok.forks x _ i hold hplace)⟩
      · rw [hself] at hx
        exact setHere_back_fork { s.cpu c with toSchedCpu := (s.cpu c).setTop calls } rfl hx
  | @load next calls htop hne =>
      have hself : (s.cpu c).writeTtbr0 s.tasks ((s.cpu c).setTop (.loaded next :: calls)) =
          { s.cpu c with
            toSchedCpu := (s.cpu c).setTop (.loaded next :: calls)
            ttbr0 := ttbr0For s.tasks (s.cpu c).ttbr0 (s.cpu c).nextTask } := by
        rw [Cpu.writeTtbr0, if_neg]
        rw [htop, List.head?_cons, Option.some.injEq, SchedCall.chosen.injEq]
        exact hne
      have hrest := h.setTop hc hm' fun htask call hcall i hi => by
        rcases List.mem_cons.1 hcall with rfl | hold
        · exact hok.next htask (.chosen next) (htop ▸ List.mem_cons_self) i hi
        · exact hok.next htask call (htop ▸ List.mem_cons_of_mem _ hold) i hi
      refine h.setCpu (f := fun cpu => cpu.writeTtbr0 s.tasks _) ?_ fun x i hx => ?_
      · rw [hself]
        exact ⟨hrest.calls, hrest.pinned, hrest.current, hrest.next, hrest.fork, hrest.forks⟩
      · rw [hself] at hx
        exact hx
  | @switchTo next calls htop =>
      refine h.switchTo hc htop hm' fun i hi => ?_
      subst hi
      by_cases htask : (s.cpu c).current = none
      · obtain ⟨huse, hready, hstop⟩ := hlive htask i (by rw [SchedCpu.nextTask, htop]; rfl)
        obtain ⟨-, hpinned⟩ := hok.pinned _ _ (htop ▸ List.mem_cons_self : _ ∈ (s.cpu c).top) i rfl
        exact ⟨⟨hc, hpinned, huse, hready⟩, hstop⟩
      · exact hok.next htask _ (htop ▸ List.mem_cons_self) i rfl

/-- Every step keeps the invariant, if `get_task_slot` does not get to the slot of a task that is
leaving, and no swapper switches to a task that is gone. -/
theorem SlotInv.step (h : SlotInv N s) {a : SmpAction} (hnot : NotLeaving N s a) (hlive : LiveSwitch s a)
    (hs : smpStep N img s a = some s') : SlotInv N s' := by
  -- where the current thread is tells whether its task is stopped
  have hstop : ∀ {c : Nat} {p q : CpuPlace}, (s.cpu c).At p → p ≠ .stopped → q ≠ .stopped →
      ∀ i, (s.cpu c).current = some i → ((s.tasks i).state = .stopped ↔ q = .stopped) := by
    intro c p q hat hp hq i hi
    refine ((h.cpus c).current i hi).2.1.trans ?_
    rw [hat.2]
    exact iff_of_false hp hq
  have hsame : ∀ {c} {f : Cpu → Cpu}, (f (s.cpu c)).toSchedCpu = (s.cpu c).toSchedCpu →
      (f (s.cpu c)).place = (s.cpu c).place → (f (s.cpu c)).occupant = (s.cpu c).occupant →
      SlotInv N (s.setCpu c f) := fun hcalls hplace hocc =>
    h.setCpu ((h.cpus _).of_eq hcalls hplace hocc) fun x i hx => hplace ▸ hx
  cases smpStep_move hs with
  | userAccess page frame hcurrent hc hat hdir => exact hsame rfl rfl rfl
  | unmap page hcurrent hc hat => exact hsame rfl rfl rfl
  | @userTest c i pgDir hcurrent hc hat hdir =>
      have h' : SlotInv N (s.setTask i fun t => { t with pgDir := pgDir }) :=
        h.setTask rfl Iff.rfl Iff.rfl
      exact h'.setCpu ((h'.cpus c).of_eq rfl rfl rfl) fun _ _ hx => hx
  | getTaskSlot hc hat => exact h.getTaskSlot hat hnot
  | start pgDir hat => exact h.forkEnd hat (Or.inr ⟨((h.cpus _).fork _ _ hat.2).1, rfl⟩)
  | freeTaskSlot hat => exact h.forkEnd hat (Or.inl rfl)
  | doExit hc hat hcurrent =>
      exact h.setHere (hstop hat CpuPlace.noConfusion CpuPlace.noConfusion) fun _ => CpuPlace.noConfusion
  | exitMm hat =>
      exact h.setHere (hstop hat CpuPlace.noConfusion CpuPlace.noConfusion) fun _ => CpuPlace.noConfusion
  | storeStopped hcurrent hat => exact h.storeStopped hcurrent hat
  | sched hc hmay hmove => exact h.sched hc hmove hlive
  | @sleep c i hcurrent hc hat =>
      obtain ⟨hr, -, -⟩ := (h.cpus c).current i hcurrent
      have hrun : (s.tasks i).state ≠ .stopped := fun hst =>
        absurd ((hstop hat (q := .run) CpuPlace.noConfusion CpuPlace.noConfusion i hcurrent).1 hst)
          CpuPlace.noConfusion
      exact h.setTask rfl (iff_of_false ProcessState.noConfusion hr.ready)
        (iff_of_false ProcessState.noConfusion hrun)
  | wake hstate =>
      exact h.setTask rfl
        (iff_of_false ProcessState.noConfusion (by rw [hstate]; exact ProcessState.noConfusion))
        (iff_of_false ProcessState.noConfusion (by rw [hstate]; exact ProcessState.noConfusion))
  | tickIdle user hcurrent => exact h
  | tick user hcurrent =>
      cases user with
      | true => exact h.setTask rfl Iff.rfl Iff.rfl
      | false => exact h.setTask rfl Iff.rfl Iff.rfl
  | compute c regs => exact hsame rfl rfl rfl

theorem SlotInv.ownSlots (h : SlotInv N s) : OwnSlots s := fun d i hd =>
  ((h.cpus d).current i hd).2.2

/-- In the runs in which no swapper switches to a task that is gone, exactly if no `get_task_slot` gets
to the slot of a task between its storing `STOPPED` and its `cpu_switch_to`: no call of `get_task_slot`
clears or hands out the slot of a task that is still current, and no CPU is ever on a slot that has been
given to a new task. -/
theorem smpRun_slots_iff (N : Nat) (img : KernelImage) (mem : Mem) {as : List SmpAction} {t : Smp}
    (hlive : Along (smpStep N img) LiveSwitch (smpInit mem) as)
    (hrun : runFrom (smpStep N img) (smpInit mem) as = some t) :
    (Along (smpStep N img) (fun s a => SlotSafe img s a ∧ OwnSlots s) (smpInit mem) as ∧ OwnSlots t) ↔
      Along (smpStep N img) (NotLeaving N) (smpInit mem) as := by
  have hsame : ∀ s a, SlotInv N s →
      ((SlotSafe img s a ∧ OwnSlots s) ∧ LiveSwitch s a ↔ NotLeaving N s a ∧ LiveSwitch s a) :=
    fun s a h => and_congr_left' <|
      ⟨fun hp => (h.slotSafe_iff a).1 hp.1, fun hq => ⟨(h.slotSafe_iff a).2 hq, h.ownSlots⟩⟩
  have hstep : ∀ s a s', SlotInv N s → NotLeaving N s a ∧ LiveSwitch s a →
      smpStep N img s a = some s' → SlotInv N s' := fun s a s' h hq hs => h.step hq.1 hq.2 hs
  have hiff : Along (smpStep N img) (fun s a => SlotSafe img s a ∧ OwnSlots s) (smpInit mem) as ↔
      Along (smpStep N img) (NotLeaving N) (smpInit mem) as := by
    have hboth := along_congr_of_invariant hsame hstep (smpInit_inv N mem) as
    exact (and_iff_left hlive).symm.trans (along_and.symm.trans (hboth.trans (along_and.trans
      (and_iff_left hlive))))
  rw [hiff]
  refine ⟨And.left, fun hq => ⟨hq, ?_⟩⟩
  exact (runFrom_invariant_along hstep (smpInit_inv N mem) (along_and.2 ⟨hq, hlive⟩) hrun).ownSlots

/-- The current thread of CPU `c` calls `schedule`, and switches. -/
def fullSchedule (c : Nat) : List SmpAction :=
  [.sched c .schedule, .sched c .getNextProc, .sched c .writeTtbr0, .sched c .switchTo]

/-- The current task of CPU `c` exits. -/
def fullExit (c : Nat) : List SmpAction := [.doExit c, .exitMm c, .storeStopped c] ++ fullSchedule c

/-- Slots 0 and 1 have tasks; the one in slot 1 is on CPU 1. -/
def twoTasks : List SmpAction :=
  [.getTaskSlot 0, .start 0 0, .getTaskSlot 0, .start 0 0] ++ fullSchedule 1

/-- The task on CPU 0 has left its slot when CPU 1 takes it. -/
theorem smpRun_slots_left :
    ∃ t, runFrom (smpStep 2 sampleImage) (smpInit fun _ => 0)
        (twoTasks ++ fullSchedule 0 ++ fullExit 0 ++ [.getTaskSlot 1, .start 1 0, .getTaskSlot 1]) =
          some t ∧
      t.occupant 0 = 2 ∧ OwnSlots t := by
  have hend : (runFrom (smpStep 2 sampleImage) (smpInit fun _ => 0)
      (twoTasks ++ fullSchedule 0 ++ fullExit 0 ++ [.getTaskSlot 1, .start 1 0, .getTaskSlot 1])).map
      (fun t => t.occupant 0) = some 2 := by
    decide +kernel
  obtain ⟨t, hrun, ht⟩ := Option.map_eq_some_iff.1 hend
  exact ⟨t, hrun, ht,
    ((smpRun_slots_iff 2 sampleImage _ (by decide +kernel) hrun).2 (by decide +kernel)).2⟩

/-- CPU 1 takes the slot of the task on CPU 0 while this one is in `schedule`: it comes back from
there as if it were the new task. -/
def slotRecycled : List SmpAction :=
  twoTasks ++ fullSchedule 0 ++
    [.doExit 0, .exitMm 0, .storeStopped 0, .sched 0 .schedule, .getTaskSlot 1, .start 1 0,
      .getTaskSlot 1, .start 1 0, .sched 0 .getNextProc, .sched 0 .writeTtbr0]

theorem smpRun_slot_recycled :
    ∃ t, runFrom (smpStep 2 sampleImage) (smpInit fun _ => 0) slotRecycled = some t ∧
      ((t.cpu 0).current = some 0 ∧ (t.cpu 0).At .run ∧ (t.cpu 0).occupant = 1 ∧ t.occupant 0 = 2) ∧
      ¬(Along (smpStep 2 sampleImage) (fun s a => SlotSafe sampleImage s a ∧ OwnSlots s)
        (smpInit fun _ => 0) slotRecycled ∧ OwnSlots t) := by
  have hend : (runFrom (smpStep 2 sampleImage) (smpInit fun _ => 0) slotRecycled).map (fun t =>
      ((t.cpu 0).current, decide ((t.cpu 0).At .run), (t.cpu 0).occupant, t.occupant 0)) =
        some (some 0, true, 1, 2) := by
    decide +kernel
  obtain ⟨t, hrun, ht⟩ := Option.map_eq_some_iff.1 hend
  simp only [Prod.mk.injEq, decide_eq_true_eq] at ht
  refine ⟨t, hrun, ht, fun hclaim => ?_⟩
  have hown := hclaim.2 0 0 ht.1
  rw [ht.2.2.1, ht.2.2.2] at hown
  cases hown

/-- The swapper of CPU 0 is interrupted when it has chosen slot 0, and is in a second call of `schedule`
that chooses the slot as well; the task runs and exits, and the first call switches to it again. -/
def staleSwitch (task : List SmpAction) : List SmpAction :=
  twoTasks ++ [.sched 0 .schedule, .sched 0 .getNextProc] ++ fullSchedule 0 ++ task ++ fullExit 0 ++
    [.sched 0 .writeTtbr0, .sched 0 .switchTo]

/-- So it is not enough that no slot of a task that is leaving is taken: the slot of a task that is gone
is taken while a CPU runs on it. -/
theorem smpRun_stale_switch :
    Along (smpStep 2 sampleImage) (NotLeaving 2) (smpInit fun _ => 0)
        (staleSwitch [] ++ [.getTaskSlot 1, .start 1 0, .getTaskSlot 1]) ∧
      ∃ t, runFrom (smpStep 2 sampleImage) (smpInit fun _ => 0)
          (staleSwitch [] ++ [.getTaskSlot 1, .start 1 0, .getTaskSlot 1]) = some t ∧ ¬OwnSlots t := by
  have hend : (runFrom (smpStep 2 sampleImage) (smpInit fun _ => 0)
      (staleSwitch [] ++ [.getTaskSlot 1, .start 1 0, .getTaskSlot 1])).map (fun t =>
        ((t.cpu 0).current, (t.cpu 0).occupant, t.occupant 0)) = some (some 0, 1, 2) := by
    decide +kernel
  obtain ⟨t, hrun, ht⟩ := Option.map_eq_some_iff.1 hend
  simp only [Prod.mk.injEq] at ht
  refine ⟨by decide +kernel, t, hrun, fun hown => ?_⟩
  have hnew := hown 0 0 ht.1
  rw [ht.2.1, ht.2.2] at hnew
  cases hnew

/-! ## The runs of the scheduler -/

/-- The calls of `schedule` on the CPUs. -/
def Smp.scheds (s : Smp) (c : Nat) : SchedCpu := (s.cpu c).toSchedCpu

theorem setCpu_scheds (s : Smp) (c : Nat) (f : Cpu → Cpu) :
    (s.setCpu c f).scheds = Function.update s.scheds c (f (s.cpu c)).toSchedCpu := by
  funext d
  by_cases hd : d = c
  · subst hd
    simp only [Smp.scheds, Smp.setCpu, Function.update_self]
  · simp only [Smp.scheds, Smp.setCpu, Function.update_of_ne hd]

theorem setCpu_scheds_eq {f : Cpu → Cpu} (h : (f (s.cpu c)).toSchedCpu = (s.cpu c).toSchedCpu) :
    (s.setCpu c f).scheds = s.scheds := by
  rw [setCpu_scheds, h]
  exact Function.update_eq_self ..

/-- A step of `schedule` leaves the calls that `SchedCpu.step` says. -/
theorem smpSched_scheds (s : Smp) (c : Nat) (sched : SchedCpu) (e : SchedEvent) :
    (smpSched s c sched e).scheds = Function.update s.scheds c sched := by
  cases e with
  | schedule => exact setCpu_scheds s c fun cpu => { cpu with toSchedCpu := sched }
  | getNextProc => exact setCpu_scheds s c fun cpu => { cpu with toSchedCpu := sched }
  | writeTtbr0 =>
      rw [smpSched, setCpu_scheds, Cpu.writeTtbr0]
      split_ifs <;> rfl
  | switchTo =>
      rw [smpSched, smpSwitchTo, setCpu_scheds, Smp.switchCpu]
      have hsame : (s.saveContext c).scheds = s.scheds := by
        funext d
        rw [Smp.scheds, saveContext_cpu]
        rfl
      rw [hsame]
      rfl

/-- Every step of the kernel is matched by steps of the scheduler's runs. -/
theorem smpStep_sched {t : Sched} {a : SmpAction} (h : CpusSched N s.scheds t)
    (hs : smpStep N img s a = some s') :
    ∃ bs t', runFrom (schedStep N) t bs = some t' ∧ CpusSched N s'.scheds t' := by
  have hstay : s'.scheds = s.scheds →
      ∃ bs t', runFrom (schedStep N) t bs = some t' ∧ CpusSched N s'.scheds t' :=
    fun heq => ⟨[], t, rfl, heq ▸ h⟩
  cases smpStep_move hs with
  | userAccess page frame hcurrent hc hat hdir => exact hstay (setCpu_scheds_eq rfl)
  | unmap page hcurrent hc hat => exact hstay (setCpu_scheds_eq rfl)
  | @userTest c i pgDir hcurrent hc hat hdir =>
      exact hstay (setCpu_scheds_eq (s := s.setTask i fun t => { t with pgDir := pgDir }) rfl)
  | @getTaskSlot c hc hat =>
      refine hstay (setCpu_scheds_eq (s := s) (c := c) (f := fun cpu => cpu.gotTaskSlot s.tasks _) rfl)
  | @start c i pgDir hat => exact hstay (setCpu_scheds_eq (s := s.setTask i _) rfl)
  | @freeTaskSlot c i hat => exact hstay (setCpu_scheds_eq (s := s.setTask i _) rfl)
  | doExit hc hat hcurrent => exact hstay (setCpu_scheds_eq rfl)
  | exitMm hat => exact hstay (setCpu_scheds_eq rfl)
  | @storeStopped c i hcurrent hat => exact hstay (setCpu_scheds_eq (s := s.setTask i _) rfl)
  | sched hc hmay hmove =>
      rw [smpSched_scheds]
      exact h.move hc hmove
  | sleep hcurrent hc hat => exact hstay rfl
  | wake hstate => exact hstay rfl
  | tickIdle user hcurrent => exact hstay rfl
  | tick user hcurrent => exact hstay rfl
  | compute c regs => exact hstay (setCpu_scheds_eq rfl)

/-- What the kernel's steps do to the CPUs is a run of the scheduler. -/
theorem smpRun_sched (N : Nat) (img : KernelImage) (mem : Mem) {as : List SmpAction}
    (hrun : runFrom (smpStep N img) (smpInit mem) as = some s) :
    ∃ bs t, runFrom (schedStep N) (schedInit fun _ => {}) bs = some t ∧ CpusSched N s.scheds t :=
  runFrom_refines (R := fun s => CpusSched N s.scheds) (fun _ _ _ _ h hs => smpStep_sched h hs)
    (cpusSched_init N fun _ => {}) hrun

/-- So no CPU of the kernel ever runs a task of another one, whatever happens to its slot. -/
theorem smpRun_classes (N : Nat) (img : KernelImage) (mem : Mem) {as : List SmpAction} {i : Nat}
    (hrun : runFrom (smpStep N img) (smpInit mem) as = some s) (hi : (s.cpu c).current = some i) :
    OfClass N c i := by
  obtain ⟨bs, t, ht, hst⟩ := smpRun_sched N img mem hrun
  exact (hst.ofClass (schedRun_inv ht) c).1 i hi

end Kernel
end ToutOS
