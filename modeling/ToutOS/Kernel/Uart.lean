import Mathlib.Data.List.Basic
import Mathlib.Logic.Function.Basic
import ToutOS.Base.Run
import ToutOS.Kernel.Task

/-!
# Uart — line input: `to_line_discipline` and `read_stdin`

Received characters are collected in `uart_in_buf` by the interrupt handler
(`to_line_discipline` of `kernel/uart.c`) and taken out, a line at a time, by `read_stdin` of
`kernel/isr.c`.  A reader that finds no complete line puts itself on the wait queue `uib_wq_head`
and sleeps; the handler calls `wake_up` after it has stored a newline.

This file defines the two sides as step functions on a common state.  A step is one section under
`uib_lock`, one call of `set_task_state`, one change of the wait queue, or the call of
`schedule()`; while the reader holds `uib_lock` the handler's section cannot run, but a `wake_up`
that is still to come can.

The reader sets its state to `SLEEPING` a second time after it has dropped `uib_lock`, and erasing
a character can complete a line without a `wake_up`; `LosesWakeup` names these two situations.
-/

namespace ToutOS
namespace Kernel

open Base

/-! ## The input buffer -/

/-- `uart_in_buf` and `uib_index`. -/
structure UartIn where
  uartInBuf : Nat → UInt8
  uibIndex : Nat

/-- `UART_IN_BUF_LEN`. -/
def uartInBufLen : Nat := 256

/-- `'\n'`, `'\r'`, `'\b'` and DEL. -/
def charNewline : UInt8 := 0x0A
def charReturn : UInt8 := 0x0D
def charBackspace : UInt8 := 0x08
def charDel : UInt8 := 0x7F

/-- `uib_index > 0 && uart_in_buf[uib_index-1] == '\n'`. -/
def lineReady (u : UartIn) : Bool :=
  decide (0 < u.uibIndex) && u.uartInBuf (u.uibIndex - 1) == charNewline

/-- `c == '\b' || c == 0x7F`. -/
def isErase (c : UInt8) : Bool := c == charBackspace || c == charDel

/-- The section of `to_line_discipline` under `uib_lock`, and whether a `wake_up` follows it. -/
def toLineDiscipline (u : UartIn) (c : UInt8) : UartIn × Bool :=
  if isErase c then
    (if 0 < u.uibIndex then { u with uibIndex := u.uibIndex - 1 } else u, false)
  else
    let c := if c == charReturn then charNewline else c
    (if u.uibIndex < uartInBufLen - 1 then
        { uartInBuf := Function.update u.uartInBuf u.uibIndex c, uibIndex := u.uibIndex + 1 }
      else u,
      c == charNewline)

/-- The copy at the end of `read_stdin`: `none` for the `-1` of a buffer that is too small. -/
def copyLine (u : UartIn) (count : Nat) : Option (List UInt8) × UartIn :=
  if count < u.uibIndex then (none, u)
  else (some ((List.range u.uibIndex).map u.uartInBuf), { u with uibIndex := 0 })

/-! ## The wait queue -/

/-- `wake_up`: every task on the queue becomes `RUNNING`. -/
def wakeUp (queue : List Nat) (tasks : TaskTable) : TaskTable :=
  queue.foldl (fun ts t => setTaskState ts (some t) .running) tasks

theorem wakeUp_state_running {queue : List Nat} {tasks : TaskTable} {t : Nat}
    (h : t ∈ queue ∨ (tasks t).state = .running) : (wakeUp queue tasks t).state = .running := by
  induction queue generalizing tasks with
  | nil => simpa [wakeUp] using h
  | cons q queue ih =>
      refine ih ?_
      by_cases hq : t = q
      · subst hq
        simp
      · simpa only [setTaskState_of_ne tasks _ hq, List.mem_cons, hq, false_or] using h

/-! ## One reader and the interrupt handler -/

/-- Where the reader stands in `read_stdin`. -/
inductive ReaderPc
  /-- Not in `read_stdin`. -/
  | idle
  /-- About to take `uib_lock` and test for a line. -/
  | enter
  /-- Lock held, no line: about to call `add_wait_queue`. -/
  | addQueue
  /-- Lock held: about to call `set_task_state(current, SLEEPING)` for the first time. -/
  | firstSleep
  /-- Lock held: about to test the loop condition. -/
  | test
  /-- Lock dropped: about to call `set_task_state(current, SLEEPING)` again. -/
  | unlocked
  /-- About to call `schedule()`. -/
  | callSchedule
  /-- Switched out in `schedule()`. -/
  | switchedOut
  /-- Back from `schedule()`: about to take `uib_lock`. -/
  | relock
  /-- Lock held, line found: about to call `set_task_state(current, RUNNING)`. -/
  | setRunning
  /-- Lock held: about to call `remove_wait_queue`. -/
  | removeQueue
  /-- Lock held: about to copy the line and drop the lock. -/
  | copy
  deriving DecidableEq, Repr

/-- The reader holds `uib_lock`. -/
def ReaderPc.holdsLock : ReaderPc → Bool
  | .addQueue | .firstSleep | .test | .setRunning | .removeQueue | .copy => true
  | _ => false

structure UartSys where
  input : UartIn
  uibWqHead : List Nat
  tasks : TaskTable
  pc : ReaderPc
  count : Nat
  /-- The interrupt being handled has stored its character and still has to call `wake_up`. -/
  wakePending : Bool
  /-- What the completed calls of `read_stdin` returned. -/
  results : List (Option (List UInt8))

/-- The next step of the reader, the task in slot `r`. -/
def readerStep (r : Nat) (s : UartSys) : Option UartSys :=
  match s.pc with
  | .idle => none
  | .enter => some { s with pc := if lineReady s.input then .copy else .addQueue }
  | .addQueue => some { s with uibWqHead := r :: s.uibWqHead, pc := .firstSleep }
  | .firstSleep => some { s with tasks := setTaskState s.tasks (some r) .sleeping, pc := .test }
  | .test => some { s with pc := if lineReady s.input then .setRunning else .unlocked }
  | .unlocked =>
      some { s with tasks := setTaskState s.tasks (some r) .sleeping, pc := .callSchedule }
  | .callSchedule => some { s with pc := .switchedOut }
  | .switchedOut =>
      if (s.tasks r).state = .running then some { s with pc := .relock } else none
  | .relock => some { s with pc := .test }
  | .setRunning => some { s with tasks := setTaskState s.tasks (some r) .running, pc := .removeQueue }
  | .removeQueue => some { s with uibWqHead := s.uibWqHead.erase r, pc := .copy }
  | .copy =>
      let (res, input) := copyLine s.input s.count
      some { s with input := input, results := s.results ++ [res], pc := .idle }

inductive UartAction
  /-- The reader calls `read_stdin(buf, count)`. -/
  | read (count : Nat)
  /-- The reader takes its next step. -/
  | reader
  /-- A receive interrupt executes the section of `to_line_discipline`. -/
  | irq (c : UInt8)
  /-- The interrupt being handled calls `wake_up`. -/
  | wake
  deriving DecidableEq, Repr

/-- One step of the reader in slot `r` or of the interrupt handler.  Interrupts are handled one
after the other, so the next one comes only when no `wake_up` is outstanding. -/
def uartStep (r : Nat) (s : UartSys) : UartAction → Option UartSys
  | .read count => if s.pc = .idle then some { s with pc := .enter, count := count } else none
  | .reader => readerStep r s
  | .irq c =>
      if s.wakePending = false ∧ s.pc.holdsLock = false then
        let (input, wake) := toLineDiscipline s.input c
        some { s with input := input, wakePending := wake }
      else none
  | .wake =>
      if s.wakePending = true then
        some { s with tasks := wakeUp s.uibWqHead s.tasks, wakePending := false }
      else none

/-- An empty buffer and wait queue, the reader not in `read_stdin`. -/
def uartInit (tasks : TaskTable) : UartSys :=
  { input := { uartInBuf := fun _ => 0, uibIndex := 0 }
    uibWqHead := []
    tasks := tasks
    pc := .idle
    count := 0
    wakePending := false
    results := [] }

/-- The reader is switched out asleep although a line is there and no `wake_up` is to come. -/
def LostWakeup (r : Nat) (s : UartSys) : Prop :=
  s.pc = .switchedOut ∧ (s.tasks r).state = .sleeping ∧ lineReady s.input = true ∧
    s.wakePending = false

/-- The reader will sleep, or sleeps, unless a `wake_up` is still to come. -/
def GoesToSleep (r : Nat) (s : UartSys) : Prop :=
  s.pc = .unlocked ∨
    ((s.pc = .callSchedule ∨ s.pc = .switchedOut) ∧ (s.tasks r).state = .sleeping)

/-- The steps after which a line is there and the reader sleeps all the same: a `wake_up` that
falls between the reader's `spin_unlock_irqrestore` and its `set_task_state(current, SLEEPING)`,
and an erase that uncovers a newline while the reader sleeps. -/
def LosesWakeup (r : Nat) (s : UartSys) : UartAction → Prop
  | .wake => s.pc = .unlocked ∧ lineReady s.input = true
  | .irq c => isErase c = true ∧ 2 ≤ s.input.uibIndex ∧
      s.input.uartInBuf (s.input.uibIndex - 2) = charNewline ∧ GoesToSleep r s
  | _ => False

instance (r : Nat) (s : UartSys) : Decidable (GoesToSleep r s) :=
  inferInstanceAs (Decidable (_ ∨ (_ ∧ _)))

instance (r : Nat) (s : UartSys) : ∀ a, Decidable (LosesWakeup r s a)
  | .wake => inferInstanceAs (Decidable (_ ∧ _))
  | .irq _ => inferInstanceAs (Decidable (_ ∧ _ ∧ _ ∧ _))
  | .read _ => isFalse id
  | .reader => isFalse id

/-! ## The line discipline -/

/-- A character that neither erases nor ends a line does not complete a line; a line end is always
followed by a `wake_up`; an erase completes a line only by uncovering a newline. -/
theorem lineReady_toLineDiscipline {u : UartIn} {c : UInt8}
    (hready : lineReady (toLineDiscipline u c).1 = true)
    (hwake : (toLineDiscipline u c).2 = false) :
    lineReady u = true ∨
      (isErase c = true ∧ 2 ≤ u.uibIndex ∧ u.uartInBuf (u.uibIndex - 2) = charNewline) := by
  by_cases herase : isErase c = true
  · by_cases hpos : 0 < u.uibIndex
    · simp only [toLineDiscipline, herase, hpos, if_true, lineReady, Bool.and_eq_true,
        decide_eq_true_eq, beq_iff_eq] at hready
      exact Or.inr ⟨herase, by omega, hready.2⟩
    · simp only [toLineDiscipline, herase, hpos, if_true, if_false] at hready
      exact Or.inl hready
  · simp only [toLineDiscipline, herase, Bool.false_eq_true, if_false] at hready hwake
    by_cases hroom : u.uibIndex < uartInBufLen - 1
    · simp only [hroom, if_true, lineReady, Nat.add_sub_cancel, Function.update_self, hwake,
        Bool.and_false, Bool.false_eq_true] at hready
    · simp only [hroom, if_false] at hready
      exact Or.inl hready

/-! ## The invariant -/

/-- The reader is on the wait queue. -/
def ReaderPc.onQueue : ReaderPc → Bool
  | .firstSleep | .test | .unlocked | .callSchedule | .switchedOut | .relock | .setRunning
  | .removeQueue => true
  | _ => false

structure UartInv (r : Nat) (s : UartSys) : Prop where
  queued : s.pc.onQueue = true → r ∈ s.uibWqHead
  awake : lineReady s.input = true → s.wakePending = false → ¬ GoesToSleep r s

theorem UartInv.not_lostWakeup {r : Nat} {s : UartSys} (h : UartInv r s) : ¬ LostWakeup r s := by
  rintro ⟨hpc, hsleep, hready, hwake⟩
  exact h.awake hready hwake (Or.inr ⟨Or.inr hpc, hsleep⟩)

theorem uartInit_inv (r : Nat) (tasks : TaskTable) : UartInv r (uartInit tasks) := by
  constructor <;> simp [uartInit, ReaderPc.onQueue, lineReady]

/-- The reader's own steps: it goes to sleep only after it has found no line. -/
theorem readerStep_inv {r : Nat} {s s' : UartSys} (h : UartInv r s)
    (hstep : readerStep r s = some s') : UartInv r s' := by
  have hq := h.queued
  have ha := h.awake
  cases hpc : s.pc with
  | idle => simp [readerStep, hpc] at hstep
  | enter =>
      simp only [readerStep, hpc, Option.some.injEq] at hstep
      subst hstep
      -- with a line at hand the reader never gets on the queue
      cases hr : lineReady s.input <;> constructor <;> simp [hr, ReaderPc.onQueue, GoesToSleep]
  | addQueue =>
      simp only [readerStep, hpc, Option.some.injEq] at hstep
      subst hstep
      constructor <;> simp [GoesToSleep]
  | firstSleep =>
      simp only [readerStep, hpc, Option.some.injEq] at hstep
      subst hstep
      exact ⟨fun _ => hq (by simp [hpc, ReaderPc.onQueue]), by simp [GoesToSleep]⟩
  | test =>
      simp only [readerStep, hpc, Option.some.injEq] at hstep
      subst hstep
      -- it goes on to `schedule` only if there is no line
      refine ⟨fun _ => hq (by simp [hpc, ReaderPc.onQueue]), ?_⟩
      intro hr
      simp only at hr
      simp [hr, GoesToSleep]
  | unlocked =>
      simp only [readerStep, hpc, Option.some.injEq] at hstep
      subst hstep
      exact ⟨fun _ => hq (by simp [hpc, ReaderPc.onQueue]),
        fun hr hw => absurd (Or.inl hpc) (ha hr hw)⟩
  | callSchedule =>
      simp only [readerStep, hpc, Option.some.injEq] at hstep
      subst hstep
      refine ⟨fun _ => hq (by simp [hpc, ReaderPc.onQueue]), fun hr hw hgo => ha hr hw ?_⟩
      simpa [GoesToSleep, hpc] using hgo
  | switchedOut =>
      simp only [readerStep, hpc, Option.ite_none_right_eq_some, Option.some.injEq] at hstep
      obtain ⟨-, rfl⟩ := hstep
      exact ⟨fun _ => hq (by simp [hpc, ReaderPc.onQueue]), by simp [GoesToSleep]⟩
  | relock =>
      simp only [readerStep, hpc, Option.some.injEq] at hstep
      subst hstep
      exact ⟨fun _ => hq (by simp [hpc, ReaderPc.onQueue]), by simp [GoesToSleep]⟩
  | setRunning =>
      simp only [readerStep, hpc, Option.some.injEq] at hstep
      subst hstep
      exact ⟨fun _ => hq (by simp [hpc, ReaderPc.onQueue]), by simp [GoesToSleep]⟩
  | removeQueue =>
      simp only [readerStep, hpc, Option.some.injEq] at hstep
      subst hstep
      constructor <;> simp [ReaderPc.onQueue, GoesToSleep]
  | copy =>
      simp only [readerStep, hpc, Option.some.injEq] at hstep
      subst hstep
      constructor <;> simp [ReaderPc.onQueue, GoesToSleep]

theorem uartStep_inv {r : Nat} (s : UartSys) (a : UartAction) (s' : UartSys) (h : UartInv r s)
    (hlose : ¬ LosesWakeup r s a) (hstep : uartStep r s a = some s') : UartInv r s' := by
  cases a with
  | read count =>
      simp only [uartStep, Option.ite_none_right_eq_some, Option.some.injEq] at hstep
      obtain ⟨-, rfl⟩ := hstep
      constructor <;> simp [ReaderPc.onQueue, GoesToSleep]
  | reader => exact readerStep_inv h hstep
  | irq c =>
      simp only [uartStep, Option.ite_none_right_eq_some, Option.some.injEq] at hstep
      obtain ⟨⟨hidle, -⟩, rfl⟩ := hstep
      refine ⟨h.queued, fun hready hwake hgo => ?_⟩
      rcases lineReady_toLineDiscipline hready hwake with hr | ⟨herase, hidx, hnl⟩
      · exact h.awake hr hidle hgo
      · exact hlose ⟨herase, hidx, hnl, hgo⟩
  | wake =>
      simp only [uartStep, Option.ite_none_right_eq_some, Option.some.injEq] at hstep
      obtain ⟨-, rfl⟩ := hstep
      refine ⟨h.queued, ?_⟩
      rintro hready - (hpc | ⟨hpc, hsleep⟩)
      · exact hlose ⟨hpc, hready⟩
      · have hq : r ∈ s.uibWqHead := by
          refine h.queued ?_
          simp only at hpc
          rcases hpc with hpc | hpc <;> simp [hpc, ReaderPc.onQueue]
        rw [wakeUp_state_running (Or.inl hq)] at hsleep
        cases hsleep

/-! ## Whole runs -/

/-- In a run none of whose steps loses a wakeup, the reader is never left asleep with a line
waiting for it. -/
theorem uartRun_not_lostWakeup {r : Nat} {tasks : TaskTable} {acts : List UartAction} {s : UartSys}
    (hrun : runFrom (uartStep r) (uartInit tasks) acts = some s)
    (hkeep : Along (uartStep r) (fun s a => ¬ LosesWakeup r s a) (uartInit tasks) acts) :
    ¬ LostWakeup r s :=
  (runFrom_invariant_along uartStep_inv (uartInit_inv r tasks) hkeep hrun).not_lostWakeup

/-- The reader in slot 0 sleeps, a line arrives, the reader is woken. -/
theorem uartRun_woken :
    ∃ s, runFrom (uartStep 0) (uartInit fun _ => { state := .running })
        [.read 8, .reader, .reader, .reader, .reader, .reader, .reader, .irq 0x0D, .wake] = some s ∧
      lineReady s.input = true ∧ s.pc = .switchedOut ∧ ¬ LostWakeup 0 s := by
  refine ⟨_, rfl, rfl, rfl, ?_⟩
  exact @uartRun_not_lostWakeup 0 (fun _ => { state := .running })
    [.read 8, .reader, .reader, .reader, .reader, .reader, .reader, .irq 0x0D, .wake] _
    rfl (by decide)

/-- The newline is stored and the queue woken between the reader's unlock and its second
`set_task_state(current, SLEEPING)`: the reader sleeps with the line in the buffer. -/
theorem uartRun_lostWakeup :
    ∃ s, runFrom (uartStep 0) (uartInit fun _ => { state := .running })
        [.read 8, .reader, .reader, .reader, .reader, .irq 0x0A, .wake, .reader, .reader] = some s ∧
      LostWakeup 0 s :=
  ⟨_, rfl, rfl, rfl, rfl, rfl⟩

end Kernel
end ToutOS
