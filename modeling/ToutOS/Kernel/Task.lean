import Mathlib.Data.List.Basic
import Mathlib.Logic.Function.Basic

/-!
# Task — the task table and the records it holds

The records of `include/sched.h` and `include/mm_types.h`, and the operations of `kernel/sched.c`
that only read or write the task table.

A C pointer is a natural number, `0` is `NULL`.  The doubly linked lists of the source (the vmas of
an `mm_struct`, the `pages_block`s of a vma) are Lean lists in the order in which the source walks
them.  Every record allocated with `kmalloc` keeps the pointer that `kmalloc` returned for it
(`self`), since `kfree` is called with it.
-/

namespace ToutOS
namespace Kernel

/-! ## Records -/

/-- `enum process_state`. -/
inductive ProcessState
  | initializing
  | running
  | sleeping
  | stopped
  deriving DecidableEq, Repr

/-- `struct cpu_context`: what `cpu_switch_to` saves and restores. -/
structure CpuContext where
  x19 : Nat := 0
  x20 : Nat := 0
  x21 : Nat := 0
  x22 : Nat := 0
  x23 : Nat := 0
  x24 : Nat := 0
  x25 : Nat := 0
  x26 : Nat := 0
  x27 : Nat := 0
  x28 : Nat := 0
  fp : Nat := 0
  sp : Nat := 0
  pc : Nat := 0
  deriving DecidableEq, Repr

/-- `struct pages_block`: a run of `2 ^ order` pages that backs user memory. -/
structure PagesBlock where
  self : Nat
  userVirtAddr : Nat
  linearAddr : Nat
  order : Nat
  deriving DecidableEq, Repr

/-- `struct vm_area_struct`, without the fields that no function reads (`vm_mm`,
`vm_page_prot`). -/
structure VmArea where
  self : Nat
  vmStart : Nat
  vmEnd : Nat
  vmFlags : Nat
  lma : Nat
  pagesBlockList : List PagesBlock
  deriving DecidableEq, Repr

/-- `struct mm_struct`. -/
structure MmStruct where
  self : Nat
  mmap : List VmArea := []
  startBrk : Nat := 0
  brk : Nat := 0
  deriving DecidableEq, Repr

/-- `struct task_struct`.  The default values are those of a zeroed record. -/
structure TaskStruct where
  state : ProcessState := .initializing
  stack : Nat := 0
  thread : CpuContext := {}
  pid : Nat := 0
  inUse : Bool := false
  comm : List UInt8 := List.replicate 16 0
  pgDir : Nat := 0
  mm : Option MmStruct := none
  stime : Nat := 0
  utime : Nat := 0
  deriving DecidableEq, Repr

/-- `MAX_NUM_PROCESSES`. -/
def maxNumProcesses : Nat := 32

/-- The array `tasks`; only the slots below `maxNumProcesses` exist. -/
abbrev TaskTable := Nat → TaskStruct

/-! ## Operations on the task table -/

/-- `pid_to_task`: the slot of a pid, `none` for the `NULL` of the bounds check. -/
def pidToTask (pid : Int) : Option Nat :=
  let index := pid - 1
  if 0 ≤ index ∧ index < maxNumProcesses then some index.toNat else none

/-- `set_task_state`; a `NULL` task is reported and ignored. -/
def setTaskState (tasks : TaskTable) (t : Option Nat) (state : ProcessState) : TaskTable :=
  match t with
  | none => tasks
  | some i => Function.update tasks i { tasks i with state := state }

/-- `is_task_ready`. -/
def isTaskReady (t : TaskStruct) : Bool :=
  t.inUse && t.state == .running

theorem pidToTask_succ {i : Nat} (h : i < maxNumProcesses) :
    pidToTask ((i : Int) + 1) = some i := by
  have : (i : Int) < maxNumProcesses := by exact_mod_cast h
  simp [pidToTask, this]

@[simp] theorem setTaskState_self_state (tasks : TaskTable) (i : Nat) (st : ProcessState) :
    (setTaskState tasks (some i) st i).state = st := by
  simp [setTaskState]

@[simp] theorem setTaskState_pid (tasks : TaskTable) (t : Option Nat) (st : ProcessState)
    (j : Nat) : (setTaskState tasks t st j).pid = (tasks j).pid := by
  cases t with
  | none => rfl
  | some i =>
      by_cases h : j = i
      · subst h
        simp [setTaskState]
      · simp [setTaskState, h]

theorem setTaskState_of_ne (tasks : TaskTable) {i j : Nat} (st : ProcessState) (h : j ≠ i) :
    setTaskState tasks (some i) st j = tasks j := by
  simp [setTaskState, h]

end Kernel
end ToutOS
