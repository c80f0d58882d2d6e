import Mathlib.Logic.Function.Basic
import ToutOS.Base.Run
import ToutOS.Lib.CircularBuffer
import ToutOS.Kernel.LineInput

/-!
# UartTx — the transmit side of the UART: `start_uart_tx` and `handle_uart_irq`

`printk` only writes to `kernel_log`.  The first character is sent by a thread (`start_uart_tx`),
the others by the transmit interrupt it provokes (`handle_uart_irq`), until the handler finds the
log empty.  `uart_busy` tells the threads that the interrupt will go on.

* `TxPc`, `IrqPc` — where a thread and a handler stand.  A read of the log, an access to a register
  of the UART and an access to `uart_busy` are steps of their own; a write to `UARTDR` leaves the
  transmit interrupt pending until it is cleared through `UARTICR`.
* `BusyPending` — a thread that has set `uart_busy`, or is about to, has an interrupt to rely on.
* `uartTxRun_iff` — that is so throughout exactly the runs in which no handler clears the interrupt
  while the flag is set or about to be set.

Any number of threads and of handlers take part.  The receive side is what it is in `LineInput`;
what the device answers to it is a part of the step.  `kernel_log` is the queue of `cbufRun_fifo`.
-/

namespace ToutOS
namespace Kernel

open Base Lib

/-! ## Threads, handlers, the device -/

/-- Where a thread stands in `start_uart_tx`. -/
inductive TxPc
  | idle
  /-- `uart_busy` was false: about to read a character from the log. -/
  | readLog
  /-- About to write the character to `UARTDR`. -/
  | writeDr (c : UInt8)
  /-- About to set `uart_busy`. -/
  | setBusy
  deriving DecidableEq, Repr

/-- Where a handler stands in `handle_uart_irq`. -/
inductive IrqPc
  | idle
  /-- About to read `UARTMIS` for the receive interrupt. -/
  | readMisRx
  /-- About to read the character received from `UARTDR`. -/
  | readDr
  /-- In `to_line_discipline`, about to write these characters to `UARTDR`. -/
  | echo (cs : List UInt8)
  /-- About to read `UARTMIS` for the transmit interrupt. -/
  | readMisTx
  | readLog
  /-- About to write these characters of the log to `UARTDR`. -/
  | drain (cs : List UInt8)
  /-- The log was empty: about to reset `uart_busy`. -/
  | clearBusy
  /-- About to write to `UARTICR`. -/
  | clearIrq
  deriving DecidableEq, Repr

structure UartTx where
  kernelLog : List UInt8
  uartBusy : Bool
  /-- The transmit interrupt is pending. -/
  txPending : Bool
  /-- What has been written to `UARTDR`. -/
  sent : List UInt8
  input : UartIn
  threads : Nat → TxPc
  handlers : Nat → IrqPc

/-- `LOG_BUF_SIZE`. -/
def logBufSize : Nat := 0x1000000

/-- `write_char_uart`. -/
def writeCharUart (s : UartTx) (c : UInt8) : UartTx :=
  { s with sent := s.sent ++ [c], txPending := true }

/-- What `to_line_discipline` writes to the UART. -/
def echoOf (u : UartIn) (c : UInt8) : List UInt8 :=
  if isErase c then if 0 < u.uibIndex then [charBackspace, 0x20, charBackspace] else []
  else [stored c]

/-- The next step of thread `t` in `start_uart_tx`. -/
def txStep (s : UartTx) (t : Nat) : Option UartTx :=
  let goto pc (s : UartTx) := { s with threads := Function.update s.threads t pc }
  match s.threads t with
  | .idle => none
  | .readLog =>
      match fifoStep (logBufSize - 1) s.kernelLog (.read 1) with
      | ((_, [c]), log) => some (goto (.writeDr c) { s with kernelLog := log })
      | ((_, _), log) => some (goto .idle { s with kernelLog := log })
  | .writeDr c => some (goto .setBusy (writeCharUart s c))
  | .setBusy => some (goto .idle { s with uartBusy := true })

/-- The next step of handler `c` in `handle_uart_irq`, which sends `len` characters at a time; `rx`
is the character the device has received, if any. -/
def irqStep (len : Nat) (s : UartTx) (c : Nat) (rx : Option UInt8) : Option UartTx :=
  let goto pc (s : UartTx) := { s with handlers := Function.update s.handlers c pc }
  match s.handlers c with
  | .idle => none
  | .readMisRx => some (goto (if rx.isSome then .readDr else .readMisTx) s)
  | .readDr =>
      let ch := rx.getD 0
      let s' := { s with input := (toLineDiscipline s.input ch).1 }
      some (goto (.echo (echoOf s.input ch)) s')
  | .echo (ch :: cs) => some (goto (.echo cs) (writeCharUart s ch))
  | .echo [] => some (goto .readMisTx s)
  | .readMisTx => some (goto (if s.txPending then .readLog else .idle) s)
  | .readLog =>
      match fifoStep (logBufSize - 1) s.kernelLog (.read len) with
      | ((_, ch :: cs), log) => some (goto (.drain (ch :: cs)) { s with kernelLog := log })
      | ((_, []), log) => some (goto .clearBusy { s with kernelLog := log })
  | .drain (ch :: cs) => some (goto (.drain cs) (writeCharUart s ch))
  | .drain [] => some (goto .idle s)
  | .clearBusy => some (goto .clearIrq { s with uartBusy := false })
  | .clearIrq => some (goto .idle { s with txPending := false })

inductive TxAction
  /-- Thread `t` calls `start_uart_tx` and reads `uart_busy`. -/
  | start (t : Nat)
  | thread (t : Nat)
  /-- `printk` writes its message to the log. -/
  | printk (data : List UInt8)
  /-- `handle_uart_irq` begins on CPU `c`. -/
  | irq (c : Nat)
  | handler (c : Nat) (rx : Option UInt8)
  deriving DecidableEq, Repr

/-- `N` threads and `M` CPUs. -/
def uartTxStep (N M len : Nat) (s : UartTx) : TxAction → Option UartTx
  | .start t =>
      if t < N ∧ s.threads t = .idle then
        some (if s.uartBusy then s
          else { s with threads := Function.update s.threads t .readLog })
      else none
  | .thread t => if t < N then txStep s t else none
  | .printk data =>
      some { s with kernelLog := (fifoStep (logBufSize - 1) s.kernelLog (.write data)).2 }
  | .irq c =>
      if c < M ∧ s.handlers c = .idle then
        some { s with handlers := Function.update s.handlers c .readMisRx }
      else none
  | .handler c rx => if c < M then irqStep len s c rx else none

/-- Nothing sent, nothing logged. -/
def uartTxInit (buf : Nat → UInt8) : UartTx :=
  { kernelLog := []
    uartBusy := false
    txPending := false
    sent := []
    input := { uartInBuf := buf, uibIndex := 0 }
    threads := fun _ => .idle
    handlers := fun _ => .idle }

/-- No `start_uart_tx` and no `handle_uart_irq` is in progress. -/
def UartQuiet (N M : Nat) (s : UartTx) : Prop :=
  (∀ t < N, s.threads t = .idle) ∧ ∀ c < M, s.handlers c = .idle

instance (N M : Nat) (s : UartTx) : Decidable (UartQuiet N M s) :=
  inferInstanceAs (Decidable
    ((∀ t < N, s.threads t = .idle) ∧ ∀ c < M, s.handlers c = .idle))

/-- With nothing in progress, a set `uart_busy` has its interrupt. -/
def BusyWhenQuiet (N M : Nat) (s : UartTx) : Prop :=
  UartQuiet N M s → s.uartBusy = true → s.txPending = true

/-- Some thread has sent its character and not yet set `uart_busy`. -/
def AboutToSet (N : Nat) (s : UartTx) : Prop := ∃ t < N, s.threads t = .setBusy

/-- Whoever has set `uart_busy`, or will, has an interrupt that is pending. -/
def BusyPending (N : Nat) (s : UartTx) : Prop :=
  s.uartBusy = true ∨ AboutToSet N s → s.txPending = true

/-- The handler clears the interrupt only when `uart_busy` is reset and no thread is about to set
it. -/
def ClearsIdle (N : Nat) (s : UartTx) : TxAction → Prop
  | .handler c _ =>
      s.handlers c = .clearIrq → s.uartBusy = false ∧ ∀ t < N, s.threads t ≠ .setBusy
  | .start _ => True
  | .thread _ => True
  | .printk _ => True
  | .irq _ => True

instance (N : Nat) (s : UartTx) : ∀ a, Decidable (ClearsIdle N s a)
  | .handler c _ =>
      inferInstanceAs (Decidable
        (s.handlers c = .clearIrq → s.uartBusy = false ∧ ∀ t < N, s.threads t ≠ .setBusy))
  | .start _ | .thread _ | .printk _ | .irq _ => isTrue trivial

/-! ## Steps -/

section Steps

variable {N M len : Nat} {s s' : UartTx}

/-- Nothing that concerns the flag or the interrupt has changed. -/
theorem BusyPending.of_eq (h : BusyPending N s) (hbusy : s'.uartBusy = s.uartBusy)
    (hpending : s'.txPending = s.txPending)
    (hset : ∀ t, s'.threads t = .setBusy → s.threads t = .setBusy) : BusyPending N s' := by
  intro hor
  rw [hpending]
  refine h ?_
  rcases hor with hb | ⟨t, ht, hpc⟩
  · exact Or.inl (by rw [← hbusy, hb])
  · exact Or.inr ⟨t, ht, hset t hpc⟩

/-- A thread that goes anywhere but to the setting of `uart_busy`. -/
theorem update_ne_setBusy {threads : Nat → TxPc} {t : Nat} {pc : TxPc} (hpc : pc ≠ .setBusy)
    (u : Nat) (h : Function.update threads t pc u = .setBusy) : threads u = .setBusy := by
  by_cases hu : u = t
  · rw [hu, Function.update_self] at h
    exact absurd h hpc
  · rwa [Function.update_of_ne hu] at h

/-- The steps of a thread keep the relation: it sends before it sets the flag. -/
theorem txStep_busyPending {t : Nat} (ht : t < N) (h : BusyPending N s)
    (hstep : txStep s t = some s') : BusyPending N s' := by
  cases hpc : s.threads t with
  | idle => simp [txStep, hpc] at hstep
  | readLog =>
      simp only [txStep, hpc] at hstep
      split at hstep
      · cases hstep
        exact h.of_eq rfl rfl (@update_ne_setBusy s.threads t (.writeDr _) nofun)
      · cases hstep
        exact h.of_eq rfl rfl (@update_ne_setBusy s.threads t .idle nofun)
  | writeDr c =>
      simp only [txStep, hpc, Option.some.injEq] at hstep
      subst hstep
      exact fun _ => rfl
  | setBusy =>
      have hpending : s.txPending = true := h (Or.inr ⟨t, ht, hpc⟩)
      simp only [txStep, hpc, Option.some.injEq] at hstep
      subst hstep
      exact fun _ => hpending

/-- Of the steps of a handler, only the write to `UARTICR` can break it. -/
theorem irqStep_busyPending_iff {c : Nat} {rx : Option UInt8} (h : BusyPending N s)
    (hstep : irqStep len s c rx = some s') :
    BusyPending N s' ↔
      (s.handlers c = .clearIrq → s.uartBusy = false ∧ ∀ t < N, s.threads t ≠ .setBusy) := by
  cases hpc : s.handlers c with
  | idle => simp [irqStep, hpc] at hstep
  | clearIrq =>
      simp only [irqStep, hpc, Option.some.injEq] at hstep
      subst hstep
      -- the interrupt is gone, so nobody may count on it
      simp only [BusyPending, AboutToSet, forall_const, Bool.false_eq_true, imp_false, not_or,
        Bool.not_eq_true, not_exists, not_and, ne_eq]
  | clearBusy =>
      simp only [irqStep, hpc, Option.some.injEq] at hstep
      subst hstep
      -- the flag is reset, but a thread that is about to set it still counts
      refine iff_of_true ?_ nofun
      rintro (hb | hset)
      · cases hb
      · exact h (Or.inr hset)
  | echo cs =>
      cases cs with
      | nil =>
          simp only [irqStep, hpc, Option.some.injEq] at hstep
          subst hstep
          exact iff_of_true h nofun
      | cons ch cs =>
          simp only [irqStep, hpc, Option.some.injEq] at hstep
          subst hstep
          -- the character that is sent raises the interrupt
          exact iff_of_true (fun _ => rfl) nofun
  | drain cs =>
      cases cs with
      | nil =>
          simp only [irqStep, hpc, Option.some.injEq] at hstep
          subst hstep
          exact iff_of_true h nofun
      | cons ch cs =>
          simp only [irqStep, hpc, Option.some.injEq] at hstep
          subst hstep
          exact iff_of_true (fun _ => rfl) nofun
  | readLog =>
      simp only [irqStep, hpc] at hstep
      split at hstep
      · cases hstep
        exact iff_of_true h nofun
      · cases hstep
        exact iff_of_true h nofun
  | readMisRx =>
      simp only [irqStep, hpc, Option.some.injEq] at hstep
      subst hstep
      exact iff_of_true h nofun
  | readDr =>
      simp only [irqStep, hpc, Option.some.injEq] at hstep
      subst hstep
      exact iff_of_true h nofun
  | readMisTx =>
      simp only [irqStep, hpc, Option.some.injEq] at hstep
      subst hstep
      exact iff_of_true h nofun

theorem uartTxStep_busyPending_iff {a : TxAction} (h : BusyPending N s)
    (hstep : uartTxStep N M len s a = some s') : BusyPending N s' ↔ ClearsIdle N s a := by
  cases a with
  | start t =>
      simp only [uartTxStep, Option.ite_none_right_eq_some, Option.some.injEq] at hstep
      obtain ⟨-, rfl⟩ := hstep
      refine iff_of_true ?_ trivial
      by_cases hbusy : s.uartBusy = true
      · rwa [if_pos hbusy]
      · rw [if_neg hbusy]
        exact h.of_eq rfl rfl (@update_ne_setBusy s.threads t .readLog nofun)
  | thread t =>
      simp only [uartTxStep, Option.ite_none_right_eq_some] at hstep
      exact iff_of_true (txStep_busyPending hstep.1 h hstep.2) trivial
  | printk data =>
      simp only [uartTxStep, Option.some.injEq] at hstep
      subst hstep
      exact iff_of_true h trivial
  | irq c =>
      simp only [uartTxStep, Option.ite_none_right_eq_some, Option.some.injEq] at hstep
      obtain ⟨-, rfl⟩ := hstep
      exact iff_of_true h trivial
  | handler c rx =>
      simp only [uartTxStep, Option.ite_none_right_eq_some] at hstep
      exact irqStep_busyPending_iff h hstep.2

theorem BusyPending.busyWhenQuiet (h : BusyPending N s) : BusyWhenQuiet N M s :=
  fun _ hbusy => h (Or.inl hbusy)

end Steps

/-! ## Whole runs -/

/-- The flag, set or about to be set, has its interrupt throughout exactly the runs in which no
handler clears the interrupt at such a moment; in these runs a set flag never outlives the last
interrupt. -/
theorem uartTxRun_iff {N M len : Nat} {buf : Nat → UInt8} {acts : List TxAction} {s : UartTx}
    (hrun : runFrom (uartTxStep N M len) (uartTxInit buf) acts = some s) :
    (Always (uartTxStep N M len) (BusyPending N) (uartTxInit buf) acts ↔
      Along (uartTxStep N M len) (ClearsIdle N) (uartTxInit buf) acts) ∧
    (Along (uartTxStep N M len) (ClearsIdle N) (uartTxInit buf) acts →
      Always (uartTxStep N M len) (BusyWhenQuiet N M) (uartTxInit buf) acts) := by
  have hinit : BusyPending N (uartTxInit buf) := by
    rintro (hb | ⟨t, -, hpc⟩)
    · cases hb
    · cases hpc
  have hiff : Always (uartTxStep N M len) (BusyPending N) (uartTxInit buf) acts ↔
      Along (uartTxStep N M len) (ClearsIdle N) (uartTxInit buf) acts :=
    always_iff_along (I := fun _ => True) (fun _ _ _ _ _ => trivial)
      (fun _ _ _ _ h hstep => uartTxStep_busyPending_iff h hstep) trivial hinit hrun
  exact ⟨hiff, fun halong bs t hbs hbrun => (hiff.2 halong bs t hbs hbrun).busyWhenQuiet⟩

/-- A character of the log is sent by a thread, a received one echoed; the interrupt that follows
finds the log empty. -/
def sampleSend : List TxAction :=
  [.printk [0x61], .start 0, .thread 0, .thread 0, .thread 0, .irq 0, .handler 0 (some 0x62),
    .handler 0 (some 0x62), .handler 0 none, .handler 0 none, .handler 0 none, .handler 0 none,
    .handler 0 none, .handler 0 none]

theorem uartTxRun_sent :
    ∃ s, runFrom (uartTxStep 2 2 14) (uartTxInit fun _ => 0) sampleSend = some s ∧
      s.sent = [0x61, 0x62] ∧ s.uartBusy = false ∧
      Always (uartTxStep 2 2 14) (BusyWhenQuiet 2 2) (uartTxInit fun _ => 0) sampleSend := by
  have hend : (runFrom (uartTxStep 2 2 14) (uartTxInit fun _ => 0) sampleSend).map
      (fun s => (s.sent, s.uartBusy)) = some ([0x61, 0x62], false) := by
    decide +kernel
  obtain ⟨s, hrun, hs⟩ := Option.map_eq_some_iff.1 hend
  obtain ⟨hsent, hbusy⟩ := Prod.mk.inj hs
  exact ⟨s, hrun, hsent, hbusy, (uartTxRun_iff hrun).2 (by decide +kernel)⟩

/-- The interrupt comes, and is dealt with, between the thread's write to `UARTDR` and its setting of
`uart_busy`. -/
def sampleOvertaken : List TxAction :=
  [.printk [0x61], .start 0, .thread 0, .thread 0, .irq 0, .handler 0 none, .handler 0 none,
    .handler 0 none, .handler 0 none, .handler 0 none, .thread 0]

/-- The flag is set, no interrupt is pending and nothing is in progress: what is logged from now on
is not sent. -/
theorem uartTxRun_stopped :
    ∃ s, runFrom (uartTxStep 2 2 14) (uartTxInit fun _ => 0) sampleOvertaken = some s ∧
      s.uartBusy = true ∧ s.txPending = false ∧ UartQuiet 2 2 s ∧ ¬ BusyWhenQuiet 2 2 s := by
  have hend : (runFrom (uartTxStep 2 2 14) (uartTxInit fun _ => 0) sampleOvertaken).map
      (fun s => (s.uartBusy, s.txPending, decide (UartQuiet 2 2 s))) = some (true, false, true) := by
    decide +kernel
  obtain ⟨s, hrun, hs⟩ := Option.map_eq_some_iff.1 hend
  simp only [Prod.mk.injEq, decide_eq_true_eq] at hs
  obtain ⟨hbusy, hpending, hquiet⟩ := hs
  refine ⟨s, hrun, hbusy, hpending, hquiet, fun h => ?_⟩
  rw [h hquiet hbusy] at hpending
  cases hpending

end Kernel
end ToutOS
