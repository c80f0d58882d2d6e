import Mathlib.Data.List.Basic
import Mathlib.Logic.Function.Basic
import ToutOS.Base.Run
import ToutOS.Kernel.Task

/-!
# Mutex — the sleeping lock of `kernel/mutex.c`

A mutex keeps its waiters in a bitmap indexed by pid.  This file defines:

* `mutexLockSection`, `mutexUnlockSection` — what `mutex_lock` and `mutex_unlock` do between
  `spin_lock(&p->lock)` and `spin_unlock(&p->lock)`;
* `mutexStep` — any number of tasks calling them in any order, each such section being one step;
* `NoWaiterForgotten` — the purpose of the bitmap: a sleeping waiter is always on record, and a
  free mutex with a sleeping waiter has another waiter awake to take it.

The bitmap is an `unsigned int`, while pids go up to `MAX_NUM_PROCESSES = 32`: the shift is done in
64 bits and the result is cut to 32, so pid 32 has no bit.
-/

namespace ToutOS
namespace Kernel

open Base

/-! ## The mutex -/

/-- `enum mutex_state`. -/
inductive MutexState
  | unlocked
  | locked
  deriving DecidableEq, Repr

/-- `struct mutex`.  The spinlock is not represented: a section under it is one step. -/
structure Mutex where
  state : MutexState
  waiting : BitVec 32
  deriving DecidableEq, Repr

/-- `init_mutex`. -/
def initMutex : Mutex := { state := .unlocked, waiting := 0 }

/-- `p->waiting |= (1ULL << (unsigned int)pid)`. -/
def setWaiting (waiting : BitVec 32) (pid : Nat) : BitVec 32 :=
  (waiting.setWidth 64 ||| (1#64 <<< pid)).setWidth 32

/-- `p->waiting &= ~(1ULL << (unsigned int)pid)`. -/
def clearWaiting (waiting : BitVec 32) (pid : Nat) : BitVec 32 :=
  (waiting.setWidth 64 &&& ~~~(1#64 <<< pid)).setWidth 32

/-- `(m->waiting & (1ULL << (unsigned int)i)) != 0`. -/
def isWaiting (waiting : BitVec 32) (i : Nat) : Bool :=
  (waiting.setWidth 64 &&& (1#64 <<< i)) != 0#64

/-- `get_next_waiting`: the lowest set bit, `-1` if there is none. -/
def getNextWaiting (m : Mutex) : Int :=
  match (List.range 32).find? (isWaiting m.waiting) with
  | some i => i
  | none => -1

/-! ## Tasks using one mutex -/

/-- Where a task stands with respect to the mutex. -/
inductive MutexPlace
  /-- Neither in `mutex_lock` nor holding the mutex. -/
  | outside
  /-- In `mutex_lock`, about to take `p->lock`. -/
  | retry
  /-- In `mutex_lock`, past the section that registered it, in `schedule()`. -/
  | waiting
  /-- `mutex_lock` returned, `mutex_unlock` not yet entered. -/
  | holding
  deriving DecidableEq, Repr

structure MutexSys where
  mutex : Mutex
  tasks : TaskTable
  place : Nat → MutexPlace

/-- The section of `mutex_lock` under `p->lock`, executed by the task in slot `i`. -/
def mutexLockSection (s : MutexSys) (i : Nat) : MutexSys :=
  match s.mutex.state with
  | .unlocked =>
      { s with
        mutex := { s.mutex with state := .locked }
        place := Function.update s.place i .holding }
  | .locked =>
      { mutex := { s.mutex with waiting := setWaiting s.mutex.waiting (s.tasks i).pid }
        tasks := setTaskState s.tasks (some i) .sleeping
        place := Function.update s.place i .waiting }

/-- The section of `mutex_unlock` under `p->lock`, executed by the task in slot `i`. -/
def mutexUnlockSection (s : MutexSys) (i : Nat) : MutexSys :=
  let pid := getNextWaiting s.mutex
  if 0 < pid then
    { mutex := { state := .unlocked, waiting := clearWaiting s.mutex.waiting pid.toNat }
      tasks := setTaskState s.tasks (pidToTask pid) .running
      place := Function.update s.place i .outside }
  else
    { s with
      mutex := { s.mutex with state := .unlocked }
      place := Function.update s.place i .outside }

inductive MutexAction
  /-- Slot `i` calls `mutex_lock`. -/
  | call (i : Nat)
  /-- Slot `i` executes the section of `mutex_lock`. -/
  | lock (i : Nat)
  /-- `schedule()` returns in slot `i`, which goes round the loop of `mutex_lock`. -/
  | resume (i : Nat)
  /-- Slot `i`, the holder, executes `mutex_unlock`. -/
  | unlock (i : Nat)
  /-- The state of a task that is not inside `mutex_lock` changes for another reason. -/
  | other (i : Nat) (state : ProcessState)
  deriving DecidableEq, Repr

/-- One step of the tasks; a task executes code only in state `RUNNING`. -/
def mutexStep (s : MutexSys) : MutexAction → Option MutexSys
  | .call i =>
      if i < maxNumProcesses ∧ (s.tasks i).state = .running ∧ s.place i = .outside then
        some { s with place := Function.update s.place i .retry }
      else none
  | .lock i =>
      if i < maxNumProcesses ∧ (s.tasks i).state = .running ∧ s.place i = .retry then
        some (mutexLockSection s i)
      else none
  | .resume i =>
      if i < maxNumProcesses ∧ (s.tasks i).state = .running ∧ s.place i = .waiting then
        some { s with place := Function.update s.place i .retry }
      else none
  | .unlock i =>
      if i < maxNumProcesses ∧ (s.tasks i).state = .running ∧ s.place i = .holding then
        some (mutexUnlockSection s i)
      else none
  | .other i state =>
      if i < maxNumProcesses ∧ (s.place i = .outside ∨ s.place i = .holding) then
        some { s with tasks := setTaskState s.tasks (some i) state }
      else none

/-- A fresh mutex and tasks that do not use it yet. -/
def mutexInit (tasks : TaskTable) : MutexSys :=
  { mutex := initMutex, tasks := tasks, place := fun _ => .outside }

/-- The task in slot `i` is inside `mutex_lock`. -/
def InsideLock (s : MutexSys) (i : Nat) : Prop :=
  i < maxNumProcesses ∧ (s.place i = .retry ∨ s.place i = .waiting)

/-- What every state reached without losing a waiter satisfies. -/
structure MutexInv (s : MutexSys) : Prop where
  pid_slot : ∀ i, i < maxNumProcesses → (s.tasks i).pid = i + 1
  retry_running : ∀ i, i < maxNumProcesses → s.place i = .retry → (s.tasks i).state = .running
  sleeping_bit : ∀ i, i < maxNumProcesses → s.place i = .waiting →
    (s.tasks i).state = .sleeping → s.mutex.waiting.getLsbD (i + 1) = true
  bit_waiting : ∀ b, s.mutex.waiting.getLsbD b = true →
    ∃ i, i < maxNumProcesses ∧ b = i + 1 ∧ s.place i = .waiting ∧ (s.tasks i).state = .sleeping
  free_running : s.mutex.state = .unlocked → (∃ b, s.mutex.waiting.getLsbD b = true) →
    ∃ j, InsideLock s j ∧ (s.tasks j).state = .running

/-- A task entering the loop of `mutex_lock`, from outside or on return of `schedule()`. -/
theorem MutexInv.enter {s : MutexSys} {i : Nat} (h : MutexInv s)
    (hrun : (s.tasks i).state = .running)
    (hbit : s.mutex.waiting.getLsbD (i + 1) = false) :
    MutexInv { s with place := Function.update s.place i .retry } := by
  refine ⟨h.pid_slot, ?_, ?_, ?_, ?_⟩
  · intro j hj hplace
    by_cases hji : j = i
    · subst hji
      exact hrun
    · exact h.retry_running j hj (by simpa [hji] using hplace)
  · intro j hj hplace hsleep
    by_cases hji : j = i
    · subst hji
      simp at hplace
    · exact h.sleeping_bit j hj (by simpa [hji] using hplace) hsleep
  · intro b hb
    obtain ⟨j, hj, rfl, hwait, hsleep⟩ := h.bit_waiting b hb
    have hji : j ≠ i := by
      rintro rfl
      simp [hbit] at hb
    exact ⟨j, hj, rfl, by simpa [hji] using hwait, hsleep⟩
  · intro hfree hb
    obtain ⟨j, ⟨hj, hplace⟩, hrunj⟩ := h.free_running hfree hb
    refine ⟨j, ⟨hj, ?_⟩, hrunj⟩
    by_cases hji : j = i
    · subst hji
      simp
    · simpa [hji] using hplace

/-- A state change of a task that is not inside `mutex_lock`. -/
theorem MutexInv.elsewhere {s : MutexSys} {i : Nat} (h : MutexInv s) (st : ProcessState)
    (hplace : s.place i = .outside ∨ s.place i = .holding) :
    MutexInv { s with tasks := setTaskState s.tasks (some i) st } := by
  have hne : ∀ j, s.place j = .retry ∨ s.place j = .waiting →
      setTaskState s.tasks (some i) st j = s.tasks j := by
    intro j hj
    refine setTaskState_of_ne _ _ ?_
    rintro rfl
    rcases hplace with h1 | h1 <;> rw [h1] at hj <;> simp at hj
  refine ⟨?_, ?_, ?_, ?_, ?_⟩
  · intro j hj
    simpa using h.pid_slot j hj
  · intro j hj hr
    simp only [hne j (Or.inl hr)]
    exact h.retry_running j hj hr
  · intro j hj hw hs
    simp only [hne j (Or.inr hw)] at hs
    exact h.sleeping_bit j hj hw hs
  · intro b hb
    obtain ⟨j, hj, rfl, hw, hs⟩ := h.bit_waiting b hb
    refine ⟨j, hj, rfl, hw, ?_⟩
    simp only [hne j (Or.inr hw)]
    exact hs
  · intro hfree hb
    obtain ⟨j, hj, hr⟩ := h.free_running hfree hb
    refine ⟨j, hj, ?_⟩
    simp only [hne j hj.2]
    exact hr

/-- All slots occupied by running tasks. -/
def fullTaskTable : TaskTable := fun i => { state := .running, pid := i + 1, inUse := true }

end Kernel
end ToutOS
