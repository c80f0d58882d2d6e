import ToutOS.Base.Hierarchy
import ToutOS.Kernel.Preempt

/-!
# LockOrder — the order in which the spinlocks are taken

A CPU that spins on a lock waits for another one, and an interrupt handler may spin on a lock while the
code that it has interrupted holds others.

* `Lock.rank` — the order; the two locks of rank 0 are taken with `spin_lock`, so that an interrupt may
  come while they are held.
* `Climbs` — a piece of code takes only locks above those that are held.
* `OrderInv`, `preemptRun_ordered` — so do all threads, over all levels of interrupts.
* `preemptRun_unlocks` — from every state the CPUs get to one in which no lock is held, if those that
  hold one go on.
-/

namespace ToutOS
namespace Kernel

open Base

/-! ## The order -/

/-- The order in which the locks are taken. -/
def Lock.rank : Lock → Nat
  | .kmallocLock => 0
  | .mutex _ => 0
  | .timerlistLock => 1
  | .cbufRlock => 1
  | .uibLock => 1
  | .waitQueue _ => 2
  | .tasksLock => 3
  | .cbufWlock => 4

/-- The locks that are held while IRQs are not masked. -/
def Low (l : Lock) : Prop := l.rank = 0

/-- Every lock that the code takes is above those that are held. -/
def Climbs : List Instr → List Lock → Prop
  | [], _ => True
  | .tryLock l :: rest, held => (∀ k ∈ held, k.rank < l.rank) ∧ Climbs rest (l :: held)
  | .unlock l :: rest, held => Climbs rest (held.erase l)
  | .eret :: _, _ => True
  | _ :: rest, held => Climbs rest held

/-- The code takes and releases locks from rank `low` on. -/
def Climbing (low : Nat) (code : List Instr) : Prop :=
  ∀ rest held, (∀ k ∈ held, k.rank < low) → Climbs rest held → Climbs (code ++ rest) held

section Climbing

variable {low : Nat} {l : Lock} {code code' body : List Instr}

theorem climbing_nil : Climbing low [] := fun _ _ _ h => h

theorem Climbing.append (h : Climbing low code) (h' : Climbing low code') :
    Climbing low (code ++ code') := by
  intro rest held hheld hrest
  rw [List.append_assoc]
  exact h _ held hheld (h' rest held hheld hrest)

/-- Code that may be called with more locks. -/
theorem Climbing.mono {high : Nat} (h : Climbing high code) (hle : low ≤ high) : Climbing low code :=
  fun rest held hheld hrest => h rest held (fun k hk => (hheld k hk).trans_le hle) hrest

theorem climbing_work : Climbing low [.work] := fun _ _ _ h => h

theorem Climbing.work (h : Climbing low code) : Climbing low (.work :: code) := climbing_work.append h

theorem Climbing.repeated (h : Climbing low code) (n : Nat) : Climbing low (repeated n code) := by
  induction n with
  | zero => exact climbing_nil
  | succ n ih =>
      rw [Kernel.repeated, List.replicate_succ, List.flatten_cons]
      exact h.append ih

theorem climbing_flatMap {α : Type} {f : α → List Instr} {xs : List α}
    (h : ∀ x ∈ xs, Climbing low (f x)) : Climbing low (xs.flatMap f) := by
  induction xs with
  | nil => exact climbing_nil
  | cons x xs ih =>
      rw [List.flatMap_cons]
      exact (h x (List.mem_cons_self ..)).append (ih fun y hy => h y (List.mem_cons_of_mem x hy))

theorem climbs_spinLock {rest : List Instr} {held : List Lock} (hup : ∀ k ∈ held, k.rank < l.rank)
    (h : Climbs rest (l :: held)) : Climbs (spinLock l ++ rest) held := ⟨hup, h⟩

theorem climbs_spinUnlock {rest : List Instr} {held : List Lock} (h : Climbs rest held) :
    Climbs (spinUnlock l ++ rest) (l :: held) := by
  change Climbs rest ((l :: held).erase l)
  rwa [List.erase_cons_head]

/-- What is held before a section, and in it. -/
theorem lt_succ_of_cons {held : List Lock} (h : ∀ k ∈ held, k.rank < l.rank) :
    ∀ k ∈ l :: held, k.rank < l.rank + 1 := by
  intro k hk
  rcases List.mem_cons.1 hk with rfl | hk
  · exact Nat.lt_succ_self _
  · exact Nat.lt_succ_of_lt (h k hk)

/-- A section under `spin_lock`. -/
theorem climbing_locked (hbody : Climbing (l.rank + 1) body) (hle : low ≤ l.rank) :
    Climbing low (locked l body) := by
  intro rest held hheld hrest
  have hup : ∀ k ∈ held, k.rank < l.rank := fun k hk => (hheld k hk).trans_le hle
  rw [locked, List.append_assoc, List.append_assoc]
  exact climbs_spinLock hup (hbody _ _ (lt_succ_of_cons hup) (climbs_spinUnlock hrest))

/-- A section under `spin_lock_irqsave` that is left and entered again around calls of `code`. -/
theorem climbing_reentered {n : Nat} {before after : List Instr} (hbefore : Climbing (l.rank + 1) before)
    (hcode : Climbing low code) (hafter : Climbing (l.rank + 1) after) (hle : low ≤ l.rank) :
    Climbing low
      (spinLockIrqsave l ++ before ++
        repeated n (spinUnlockIrqrestore l ++ code ++ spinLockIrqsave l) ++ after ++
        spinUnlockIrqrestore l) := by
  intro rest held hheld hrest
  have hup : ∀ k ∈ held, k.rank < l.rank := fun k hk => (hheld k hk).trans_le hle
  have hin := lt_succ_of_cons hup
  have henter : ∀ {rest}, Climbs rest (l :: held) → Climbs (spinLockIrqsave l ++ rest) held := fun h =>
    climbs_spinLock hup h
  have hleave : ∀ {rest}, Climbs rest held → Climbs (spinUnlockIrqrestore l ++ rest) (l :: held) := by
    intro rest h
    rw [spinUnlockIrqrestore, List.append_assoc]
    exact climbs_spinUnlock h
  simp only [List.append_assoc]
  refine henter (hbefore _ _ hin ?_)
  -- every round begins and ends under the lock
  induction n with
  | zero => exact hafter _ _ hin (hleave hrest)
  | succ n ih =>
      rw [Kernel.repeated, List.replicate_succ, List.flatten_cons]
      simp only [List.append_assoc]
      exact hleave (hcode _ _ hheld (henter ih))

theorem climbing_lockedIrqsave (hbody : Climbing (l.rank + 1) body) (hle : low ≤ l.rank) :
    Climbing low (lockedIrqsave l body) := by
  have h := climbing_reentered (n := 0) hbody climbing_nil climbing_nil hle
  simpa only [lockedIrqsave, repeated, List.replicate_zero, List.flatten_nil, List.append_nil] using h

end Climbing

/-! ## The functions -/

theorem climbing_printk : Climbing 4 printkCode :=
  (climbing_lockedIrqsave climbing_work (Nat.le_refl 4)).work

theorem climbing_takeLine (tooSmall : Bool) : Climbing 2 (takeLineCode tooSmall) := by
  cases tooSmall with
  | false => exact climbing_work
  | true => exact (climbing_printk.mono (by decide)).work

theorem climbing_setTaskState : Climbing 3 setTaskStateCode :=
  climbing_lockedIrqsave climbing_work (Nat.le_refl 3)

theorem climbing_getTaskSlot (n : Nat) : Climbing 3 (getTaskSlotCode n) :=
  climbing_lockedIrqsave (climbing_printk.repeated n).work (Nat.le_refl 3)

theorem climbing_dumpTasks (n : Nat) : Climbing 3 (dumpTasksCode n) :=
  climbing_lockedIrqsave (climbing_printk.repeated n) (Nat.le_refl 3)

theorem climbing_waitQueue (q : Nat) : Climbing 2 (waitQueueCode q) :=
  climbing_lockedIrqsave climbing_work (Nat.le_refl 2)

theorem climbing_wakeUp (q n : Nat) : Climbing 2 (wakeUpCode q n) :=
  climbing_lockedIrqsave (climbing_setTaskState.repeated n) (Nat.le_refl 2)

theorem climbing_timer : Climbing 1 timerCode := climbing_lockedIrqsave climbing_work (Nat.le_refl 1)

theorem climbing_runTimerSoftirq (n : Nat) : Climbing 1 (runTimerSoftirqCode n) := by
  have h := climbing_reentered (l := .timerlistLock) (n := n) climbing_nil
    (climbing_setTaskState.mono (by decide)) climbing_nil (Nat.le_refl 1)
  simpa only [runTimerSoftirqCode, List.append_nil] using h

/-- Nothing that handlers call takes a lock of rank 0. -/
theorem ShortCall.climbing (f : ShortCall) : Climbing 1 f.code := by
  cases f with
  | work => exact climbing_work
  | printk => exact climbing_printk.mono (by decide)
  | readConcurrentCbuf => exact climbing_lockedIrqsave climbing_work (Nat.le_refl 1)
  | setTaskState => exact climbing_setTaskState.mono (by decide)
  | getTaskSlot n => exact (climbing_getTaskSlot n).mono (by decide)
  | freeTaskSlot => exact climbing_lockedIrqsave climbing_work (by decide)
  | dumpTasks n => exact (climbing_dumpTasks n).mono (by decide)
  | timer => exact climbing_timer
  | runTimerSoftirq n => exact climbing_runTimerSoftirq n
  | waitQueue q => exact (climbing_waitQueue q).mono (by decide)
  | wakeUp q n => exact (climbing_wakeUp q n).mono (by decide)
  | toLineDiscipline wakes =>
      have hline : Climbing 1 (lockedIrqsave .uibLock [.work]) :=
        climbing_lockedIrqsave climbing_work (Nat.le_refl 1)
      cases wakes with
      | none => exact hline
      | some n => exact hline.append ((climbing_wakeUp uibWqHead n).mono (by decide))

theorem climbing_schedule : Climbing 3 scheduleCode := by
  have hnext : Climbing 3 getNextProcCode := climbing_lockedIrqsave climbing_work (Nat.le_refl 3)
  exact hnext.append fun _ _ _ h => h

/-- `set_task_state` under the lock of a mutex. -/
theorem climbing_mutex {p : Nat} (wakes : Bool) :
    Climbing 0 (locked (.mutex p) (.work :: if wakes then setTaskStateCode else [])) := by
  have hstate : Climbing 1 setTaskStateCode := climbing_setTaskState.mono (by decide)
  refine climbing_locked (Climbing.work ?_) (Nat.le_refl 0)
  cases wakes with
  | false => exact climbing_nil
  | true => exact hstate

theorem climbing_allocMem : Climbing 0 allocMemCode :=
  (climbing_locked climbing_work (Nat.le_refl 0)).work

/-- What a task does. -/
theorem KernelCall.climbing (f : KernelCall) : Climbing 0 f.code := by
  cases f with
  | short f => exact f.climbing.mono (by decide)
  | kmalloc => exact climbing_allocMem
  | kfree found =>
      have hreports : Climbing 1 (repeated found.reports printkCode) :=
        (climbing_printk.mono (by decide)).repeated _
      exact (climbing_locked (l := .kmallocLock) hreports.work (Nat.le_refl 0)).work
  | mutexLock p n =>
      have hwait : Climbing 0 (locked (.mutex p) (.work :: setTaskStateCode)) := climbing_mutex true
      refine ((hwait.append (climbing_schedule.mono (by decide))).repeated n).append ?_
      exact climbing_locked climbing_work (Nat.le_refl 0)
  | mutexUnlock p wakes => exact climbing_mutex wakes
  | schedule => exact climbing_schedule.mono (by decide)
  | scheduleTimeout =>
      have htimer : Climbing 0 timerCode := climbing_timer.mono (by decide)
      exact (htimer.append (climbing_schedule.mono (by decide))).append htimer
  | readStdin tooSmall waits =>
      have hline : Climbing 2 (takeLineCode tooSmall) := climbing_takeLine tooSmall
      cases waits with
      | none => exact climbing_lockedIrqsave hline (by decide)
      | some n =>
          have hqueue : Climbing 2 (waitQueueCode uibWqHead) := climbing_waitQueue _
          have hstate : Climbing 2 setTaskStateCode := climbing_setTaskState.mono (by decide)
          exact climbing_reentered (hqueue.append hstate)
            ((climbing_setTaskState.append climbing_schedule).mono (by decide))
            ((hstate.append hqueue).append hline) (by decide)

theorem climbing_kernelThread (n : Nat) (r : ThreadResult) : Climbing 0 (kernelThreadCode n r) := by
  have hslot : Climbing 0 (getTaskSlotCode n) := (climbing_getTaskSlot n).mono (by decide)
  have hprintk : Climbing 0 printkCode := climbing_printk.mono (by decide)
  cases r with
  | created => exact (hslot.append climbing_allocMem).append climbing_work
  | noSlot => exact hslot.append hprintk
  | noMemory =>
      have hfree : Climbing 0 freeTaskSlotCode := climbing_lockedIrqsave climbing_work (by decide)
      exact ((hslot.append climbing_allocMem).append hfree).append hprintk

theorem climbing_main (lines : Nat) (rs : List (Nat × ThreadResult)) :
    Climbing 0 (mainCode lines rs) := by
  induction rs with
  | nil => exact (climbing_dumpTasks lines).mono (by decide)
  | cons r rs ih =>
      obtain ⟨n, r⟩ := r
      cases r with
      | created => exact (climbing_kernelThread n .created).append ih
      | noSlot => exact climbing_kernelThread n .noSlot
      | noMemory => exact climbing_kernelThread n .noMemory

theorem climbing_doSoftirq (softirq : Option (List ShortCall)) : Climbing 1 (doSoftirqCode softirq) := by
  have hcount : Climbing 1 (localIrqSave ++ [.work] ++ localIrqRestore) := fun _ _ _ h => h
  cases softirq with
  | none => exact hcount
  | some actions =>
      exact (hcount.append (climbing_flatMap fun f _ => f.climbing)).append hcount

/-- An interrupt handler, while the interrupted code holds locks of rank 0 only. -/
theorem climbs_irqHandler {schedules : Bool} {isr : List ShortCall} {softirq : Option (List ShortCall)}
    {held : List Lock} (hheld : ∀ l ∈ held, Low l) : Climbs (irqHandler schedules isr softirq) held := by
  have hlow : ∀ k ∈ held, k.rank < 1 := by
    intro k hk
    rw [hheld k hk]
    exact Nat.one_pos
  have hisr : Climbing 1 (isr.flatMap ShortCall.code) := climbing_flatMap fun f _ => f.climbing
  have hsched : Climbing 1
      (if schedules then [.enableIrq] ++ scheduleCode ++ [.disableIrq] else []) := by
    cases schedules with
    | false => exact climbing_nil
    | true =>
        have hon : Climbing 1 [.enableIrq] := fun _ _ _ h => h
        have hoff : Climbing 1 [.disableIrq] := fun _ _ _ h => h
        exact (hon.append (climbing_schedule.mono (by decide))).append hoff
  exact (hisr.append hsched).append (climbing_doSoftirq softirq) [.eret] held hlow trivial

theorem climbs_el0Sync (calls : List KernelCall) : Climbs (el0Sync calls) [] := by
  have hcalls : Climbing 0 (calls.flatMap KernelCall.code) := climbing_flatMap fun f _ => f.climbing
  exact hcalls [.disableIrq, .eret] [] (fun _ hk => (List.not_mem_nil hk).elim) trivial

/-! ## Threads -/

/-- The code of a level can be executed, with locks of rank 0 only while IRQs are not masked, and it
takes its locks in order. -/
structure LevelOk (base : List Lock) (f : Frame) (irqOff : Bool) (held : List Lock) : Prop
    extends FrameOk Low base f irqOff held where
  climbs : Climbs f.code held

/-- So can all levels of a thread, one after the other. -/
def Steady : Frame → List (Frame × Bool) → Bool → List Lock → Prop
  | f, [], irqOff, held => LevelOk [] f irqOff held
  | f, (g, off) :: rest, irqOff, held => ∃ base, LevelOk base f irqOff held ∧ Steady g rest off base

def Thread.Steady (t : Thread) (irqOff : Bool) : Prop := Kernel.Steady t.frame t.stack irqOff t.held

/-- The level that is executed; without a lower one, it ends with no lock. -/
theorem Steady.frame {f : Frame} {stack : List (Frame × Bool)} {irqOff : Bool} {held : List Lock}
    (h : Steady f stack irqOff held) : ∃ base, LevelOk base f irqOff held ∧ (stack = [] → base = []) ∧
      ∀ g irqOff' held', LevelOk base g irqOff' held' → Steady g stack irqOff' held' := by
  cases stack with
  | nil => exact ⟨[], h, fun _ => rfl, fun _ _ _ hg => hg⟩
  | cons level stack =>
      obtain ⟨base, hf, hrest⟩ := h
      exact ⟨base, hf, by simp, fun _ _ _ hg => ⟨base, hg, hrest⟩⟩

/-- The locks that the thread of a CPU holds. -/
def Preempt.heldBy (s : Preempt) (c : Nat) : List Lock := (s.running c).held

/-- All threads take their locks in order, a thread that does not run holds none, and the words of the
locks say what the others hold. -/
structure OrderInv (N : Nat) (s : Preempt) : Prop where
  pinned : ∀ c, (s.current c).cpu N = c
  running : ∀ c, (s.running c).Steady (s.irqOff c)
  waiting : ∀ id : ThreadId, s.current (id.cpu N) ≠ id →
    (s.thread id).Steady false ∧ (s.thread id).held = []
  ranked : Ranked Lock.rank s.heldBy s.locks

variable {N c : Nat} {s s' : Preempt} {a : Instr} {rest : List Instr}

theorem heldBy_set (t : Thread) (off : Bool) (hpin : ∀ c, (s.current c).cpu N = c) :
    (s.set c t off).heldBy = Function.update s.heldBy c t.held := by
  funext d
  rw [Preempt.heldBy, running_set t off d hpin]
  by_cases hd : d = c
  · rw [if_pos hd, hd, Function.update_self]
  · rw [if_neg hd, Function.update_of_ne hd, Preempt.heldBy]

/-- A step of the thread that a CPU runs, with what it does to the locks. -/
theorem OrderInv.set (h : OrderInv N s) {t : Thread} {off : Bool} {locks : Lock → Bool}
    (ht : t.Steady off) (hlocks : Ranked Lock.rank (Function.update s.heldBy c t.held) locks) :
    OrderInv N { s.set c t off with locks := locks } := by
  refine ⟨h.pinned, fun d => ?_, fun id hid => ?_, ?_⟩
  · change ((s.set c t off).running d).Steady ((s.set c t off).irqOff d)
    rw [running_set t off d h.pinned]
    by_cases hd : d = c
    · subst hd
      rw [if_pos rfl, show (s.set d t off).irqOff d = off from Function.update_self ..]
      exact ht
    · rw [if_neg hd, show (s.set c t off).irqOff d = s.irqOff d from Function.update_of_ne hd ..]
      exact h.running d
  · have hne : id ≠ s.current c := by
      rintro rfl
      rw [h.pinned c] at hid
      exact hid rfl
    change ((s.set c t off).thread id).Steady false ∧ ((s.set c t off).thread id).held = []
    rw [show (s.set c t off).thread id = s.thread id from Function.update_of_ne hne ..]
    exact h.waiting id hid
  · change Ranked Lock.rank (s.set c t off).heldBy locks
    rwa [heldBy_set t off h.pinned]

/-- A step that neither takes nor releases a lock. -/
theorem OrderInv.keep (h : OrderInv N s) {t : Thread} {off : Bool} (ht : t.Steady off)
    (hheld : t.held = (s.running c).held) : OrderInv N (s.set c t off) := by
  have hlocks : Ranked Lock.rank (Function.update s.heldBy c t.held) s.locks := by
    rw [hheld, show (s.running c).held = s.heldBy c from rfl, Function.update_eq_self]
    exact h.ranked
  exact h.set ht hlocks

/-- Taking a lock that is free. -/
theorem OrderInv.take (h : OrderInv N s) {t : Thread} {off : Bool} {l : Lock} (ht : t.Steady off)
    (hheld : t.held = l :: (s.running c).held) (hfree : s.locks l = false)
    (hup : ∀ k ∈ (s.running c).held, k.rank < l.rank) :
    OrderInv N { s.set c t off with locks := Function.update s.locks l true } := by
  refine h.set ht ?_
  rw [hheld]
  exact h.ranked.take hfree hup

/-- Releasing the last one. -/
theorem OrderInv.drop (h : OrderInv N s) {t : Thread} {off : Bool} {l : Lock} (ht : t.Steady off)
    (hheld : (s.running c).held = l :: t.held) :
    OrderInv N { s.set c t off with locks := Function.update s.locks l false } :=
  h.set ht (h.ranked.drop hheld)

/-- Executing one instruction. -/
theorem OrderInv.exec (h : OrderInv N s) {stxrFails : Bool}
    (hcode : (s.running c).frame.code = a :: rest)
    (hexec : execInstr s c stxrFails rest a = some s') : OrderInv N s' := by
  obtain ⟨base, ⟨⟨hruns, huser⟩, hclimbs⟩, -, hset⟩ := Steady.frame (h.running c)
  have hkernel : ∀ {code : List Instr}, (s.running c).frame.user = true → code = [] := by
    intro code hu
    rw [hcode] at huser
    cases huser hu
  rw [hcode] at hruns hclimbs
  cases a with
  | work | enableIrq | disableIrq | mrsX7 | msrX7 | mrsFlags =>
      -- they have nothing to do with the locks
      cases hexec
      exact h.keep (hset _ _ _ ⟨⟨hruns.2, hkernel⟩, hclimbs⟩) rfl
  | msrFlags =>
      obtain ⟨-, off, outer, hflags, hrest⟩ := hruns
      simp only [execInstr, execInstr.f, hflags, Option.some.injEq] at hexec
      subst hexec
      exact h.keep (hset _ _ _ ⟨⟨hrest, hkernel⟩, hclimbs⟩) rfl
  | tryLock l =>
      obtain ⟨hoff, hguard, hrest⟩ := hruns
      rw [execInstr] at hexec
      split_ifs at hexec with hbusy
      · -- back to the beginning of `spin_lock`
        cases hexec
        refine h.keep (hset _ _ _ ⟨⟨?_, hkernel⟩, hclimbs⟩) rfl
        rw [hoff]
        exact ⟨guarded_true, hguard, hguard, rfl, hguard, hrest⟩
      · cases hexec
        rw [Bool.or_eq_true, not_or, Bool.not_eq_true] at hbusy
        have ht : Thread.Steady
            { s.running c with
              frame := { (s.running c).frame with code := rest }
              held := l :: (s.running c).held } (s.irqOff c) := by
          refine hset _ _ _ ⟨⟨?_, hkernel⟩, hclimbs.2⟩
          rw [hoff]
          exact hrest
        exact h.take ht rfl hbusy.1 hclimbs.1
  | unlock l =>
      -- it is the lock that has been taken last
      obtain ⟨hoff, outer, hheld, hrest⟩ := hruns
      cases hexec
      have herase : (s.running c).held.erase l = outer := by rw [hheld, List.erase_cons_head]
      have ht : Thread.Steady
          { s.running c with
            frame := { (s.running c).frame with code := rest }
            held := (s.running c).held.erase l } (s.irqOff c) := by
        refine hset _ _ _ ⟨⟨?_, hkernel⟩, hclimbs⟩
        rw [hoff, herase]
        exact hrest
      exact h.drop ht (hheld.trans (congrArg (l :: ·) herase.symm))
  | switchTo => cases hexec
  | eret =>
      have hsteady := h.running c
      rw [execInstr, execInstr.t] at hexec
      rw [Thread.Steady] at hsteady
      cases hstack : (s.running c).stack with
      | nil =>
          rw [hstack] at hexec
          cases hexec
      | cons level stack =>
          obtain ⟨g, off⟩ := level
          rw [hstack] at hexec hsteady
          cases hexec
          -- the handler ends with the locks that the interrupted level holds
          obtain ⟨base', hlevel, hbelow⟩ := hsteady
          have hreturn := hlevel.runs
          rw [hcode] at hreturn
          refine h.keep ?_ rfl
          rw [Thread.Steady, hreturn.2]
          exact hbelow

/-- The thread could be switched to. -/
def Preempt.Resumable (s : Preempt) (id : ThreadId) : Prop :=
  (s.thread id).Steady false ∧ (s.thread id).held = []

/-- CPU `c`, whose thread could be switched to again, goes on with another one. -/
theorem OrderInv.dispatch (h : OrderInv N s) {next : ThreadId} (hready : s.Resumable (s.current c))
    (hoff : s.irqOff c = false) (hnext : next.cpu N = c) :
    OrderInv N { s with current := Function.update s.current c next } := by
  have hall : ∀ id : ThreadId, id.cpu N = c → s.Resumable id := by
    intro id hid
    by_cases hcurrent : s.current c = id
    · rw [← hcurrent]
      exact hready
    · exact h.waiting id (by rwa [hid])
  -- neither the thread that is left nor the next one holds a lock
  have hheld : Preempt.heldBy { s with current := Function.update s.current c next } = s.heldBy := by
    funext d
    by_cases hd : d = c
    · subst hd
      simp only [Preempt.heldBy, Preempt.running, Function.update_self, hready.2, (hall next hnext).2]
    · simp only [Preempt.heldBy, Preempt.running, Function.update_of_ne hd]
  refine ⟨fun d => ?_, fun d => ?_, fun id hid => ?_, hheld ▸ h.ranked⟩
  · by_cases hd : d = c
    · subst hd
      simp only [Function.update_self]
      exact hnext
    · simp only [Function.update_of_ne hd]
      exact h.pinned d
  · by_cases hd : d = c
    · subst hd
      simp only [Preempt.running, Function.update_self, hoff]
      exact (hall next hnext).1
    · simp only [Preempt.running, Function.update_of_ne hd]
      exact h.running d
  · by_cases hd : id.cpu N = c
    · exact hall id hd
    · simp only [Function.update_of_ne hd] at hid
      exact h.waiting id hid

/-- `cpu_switch_to`. -/
theorem OrderInv.switchTo (h : OrderInv N s) {next : ThreadId}
    (hcode : (s.running c).frame.code = .switchTo :: rest) (hnext : next.cpu N = c) :
    OrderInv N
      { s.set c { s.running c with frame := { (s.running c).frame with code := rest } }
          (s.irqOff c) with
        current := Function.update s.current c next } := by
  obtain ⟨base, ⟨⟨hruns, huser⟩, hclimbs⟩, -, hset⟩ := Steady.frame (h.running c)
  rw [hcode] at hruns huser hclimbs
  obtain ⟨⟨hoff, hheld⟩, hrest⟩ := hruns
  have hprev : Thread.Steady
      { s.running c with frame := { (s.running c).frame with code := rest } } (s.irqOff c) := by
    refine hset _ _ _ ⟨⟨?_, fun hu => by cases huser hu⟩, hclimbs⟩
    rw [hheld, hoff]
    exact hrest
  refine (h.keep hprev rfl).dispatch ?_ ?_ hnext
  · rw [hoff] at hprev
    rw [Preempt.Resumable, show (s.set c _ _).thread ((s.set c _ _).current c) = _ from
      Function.update_self ..]
    exact ⟨hprev, hheld⟩
  · rw [show (s.set c _ _).irqOff c = s.irqOff c from Function.update_self ..]
    exact hoff

/-- An exception interrupts the thread of a CPU; its handler comes back to it. -/
theorem OrderInv.interrupt (h : OrderInv N s) {code : List Instr}
    (hcode : Runs Low (s.running c).held code true false [] (s.running c).held)
    (hclimbs : Climbs code (s.running c).held) :
    OrderInv N (s.set c ((s.running c).interrupt (s.irqOff c) code) true) :=
  h.keep ⟨(s.running c).held, ⟨⟨hcode, fun hu => by cases hu⟩, hclimbs⟩, h.running c⟩ rfl

/-- The calls of a task hold locks of rank 0 only while IRQs are not masked. -/
theorem KernelCall.neutral_low {base : List Lock} (f : KernelCall) : Neutral Low base false [] f.code := by
  have hkmalloc : Low .kmallocLock := rfl
  have hmutex : ∀ p, Low (.mutex p) := fun _ => rfl
  cases f with
  | short f => exact f.neutral
  | kmalloc => exact neutral_allocMem fun _ => hkmalloc
  | kfree found => exact neutral_freeMem found fun _ => hkmalloc
  | mutexLock p n =>
      refine Neutral.append (Neutral.repeated (Neutral.append ?_ neutral_schedule) n) ?_
      · exact neutral_locked neutral_setTaskState.work fun _ => hmutex p
      · exact neutral_locked neutral_work fun _ => hmutex p
  | mutexUnlock p wakes =>
      refine neutral_locked (Neutral.work ?_) fun _ => hmutex p
      cases wakes with
      | false => exact neutral_nil
      | true => exact neutral_setTaskState
  | schedule => exact neutral_schedule
  | scheduleTimeout =>
      have htimer : Neutral Low base false [] timerCode := neutral_lockedIrqsave neutral_work
      exact (htimer.append neutral_schedule).append htimer
  | readStdin tooSmall waits =>
      cases waits with
      | none => exact neutral_lockedIrqsave (neutral_takeLine tooSmall)
      | some n =>
          exact neutral_reentered ((neutral_waitQueue _).append neutral_setTaskState)
            (neutral_setTaskState.append neutral_schedule)
            ((neutral_setTaskState.append (neutral_waitQueue _)).append (neutral_takeLine tooSmall))

theorem neutral_calls (base : List Lock) (calls : List KernelCall) :
    Neutral Low base false [] (calls.flatMap KernelCall.code) :=
  neutral_flatMap fun f _ => f.neutral_low

/-- An exception from user mode. -/
theorem runs_el0Sync_low (calls : List KernelCall) : Runs Low [] (el0Sync calls) true false [] [] := by
  have hon : Guarded Low false [] := fun _ l hl => by cases hl
  exact ⟨guarded_true, neutral_calls [] calls [] [.disableIrq, .eret] (fun _ => ⟨hon, rfl, rfl⟩) false⟩

/-- A slot is filled with a new task. -/
theorem OrderInv.create (h : OrderInv N s) {i : Nat} (hother : s.current (i % N) ≠ .task i) :
    OrderInv N { s with thread := Function.update s.thread (.task i) {} } := by
  -- no CPU runs the slot: only the CPU that it belongs to could
  have hne : ∀ d, s.current d ≠ .task i := by
    intro d heq
    have hpin := h.pinned d
    rw [heq] at hpin
    exact hother (by rw [show i % N = d from hpin, heq])
  have hsame : ∀ d, Preempt.running { s with thread := Function.update s.thread (.task i) {} } d =
      s.running d := fun d => Function.update_of_ne (hne d) ..
  have hheld : Preempt.heldBy { s with thread := Function.update s.thread (.task i) {} } = s.heldBy :=
    funext fun d => congrArg Thread.held (hsame d)
  refine ⟨h.pinned, fun d => ?_, fun id hid => ?_, hheld ▸ h.ranked⟩
  · rw [hsame]
    exact h.running d
  · by_cases heq : id = .task i
    · subst heq
      simp only [Function.update_self]
      have hruns : Runs Low [] [] false false [] [] := ⟨rfl, rfl⟩
      exact ⟨⟨⟨hruns, fun _ => rfl⟩, trivial⟩, trivial⟩
    · simp only [Function.update_of_ne heq]
      exact h.waiting id hid

/-- A kernel thread makes some calls. -/
theorem OrderInv.call (h : OrderInv N s) (calls : List KernelCall)
    (hcode : (s.running c).frame.code = []) (huser : (s.running c).frame.user = false) :
    OrderInv N (s.set c
      { s.running c with frame := { (s.running c).frame with code := calls.flatMap KernelCall.code } }
      (s.irqOff c)) := by
  obtain ⟨base, ⟨⟨hruns, -⟩, -⟩, -, hset⟩ := Steady.frame (h.running c)
  rw [hcode] at hruns
  obtain ⟨hoff, hheld⟩ := hruns
  have hcalls := neutral_calls base calls (s.running c).frame.flags []
    (fun _ => ⟨rfl, rfl⟩) (s.running c).frame.x7
  have hclimbs : Climbs (calls.flatMap KernelCall.code ++ []) [] :=
    climbing_flatMap (fun f _ => f.climbing) [] [] (fun _ hk => (List.not_mem_nil hk).elim) trivial
  rw [List.append_nil] at hcalls hclimbs
  refine h.keep (hset _ _ _ ⟨⟨?_, fun hu => ?_⟩, ?_⟩) rfl
  · rw [hoff, hheld]
    exact hcalls
  · rw [show (s.running c).frame.user = true from hu] at huser
    cases huser
  · rw [hheld]
    exact hclimbs

/-- A step that is not a tick inside of `alloc_mem` in `main`. -/
theorem OrderInv.step (h : OrderInv N s) (hpre : PreemptInv N s) {a : PreemptAction}
    (hout : OutsideKmalloc s a) (hstep : preemptStep N s a = some s') : OrderInv N s' := by
  cases a with
  | exec c stxrFails =>
      simp only [preemptStep] at hstep
      split at hstep
      · cases hstep
      · next a rest hcode => exact h.exec hcode hstep
  | switchTo c next =>
      simp only [preemptStep] at hstep
      split at hstep
      · next rest hcode =>
          split_ifs at hstep with hnext
          cases hstep
          exact h.switchTo hcode hnext
      · cases hstep
  | call c calls =>
      simp only [preemptStep] at hstep
      split at hstep
      · split_ifs at hstep with hidle
        cases hstep
        exact h.call calls hidle.1 hidle.2
      · cases hstep
  | userMode c =>
      simp only [preemptStep] at hstep
      split at hstep
      · split_ifs at hstep with hidle
        cases hstep
        obtain ⟨base, ⟨⟨hruns, -⟩, hclimbs⟩, -, hset⟩ := Steady.frame (h.running c)
        exact h.keep (hset _ _ _ ⟨⟨hruns, fun _ => hidle.1⟩, hclimbs⟩) rfl
      · cases hstep
  | svc c calls =>
      simp only [preemptStep] at hstep
      split at hstep
      · split_ifs at hstep with huser
        cases hstep
        -- nothing is held in user mode
        have hheld := (hpre.user huser).2
        refine h.interrupt ?_ ?_
        · rw [hheld]
          exact runs_el0Sync_low calls
        · rw [hheld]
          exact climbs_el0Sync calls
      · cases hstep
  | irq c timer isr softirq =>
      simp only [preemptStep] at hstep
      split_ifs at hstep with hoff
      cases hstep
      obtain ⟨base, ⟨⟨hruns, -⟩, -⟩, -, -⟩ := Steady.frame (h.running c)
      rw [show false = s.irqOff c from hoff.symm]
      refine h.interrupt (runs_irqHandler (fun hsched => ?_) false []) ?_
      · -- `schedule` is called only from the tick of a thread that holds no lock
        rw [Bool.and_eq_true] at hsched
        obtain ⟨rfl, hsched⟩ := hsched
        exact hpre.noLock hoff hsched (hout hoff)
      · exact climbs_irqHandler (hruns.guarded hoff)
  | create i =>
      simp only [preemptStep] at hstep
      split_ifs at hstep with hother
      cases hstep
      exact h.create hother

theorem preemptBoot_order (N lines : Nat) (rs : List (Nat × ThreadResult)) :
    OrderInv N (preemptBoot lines rs) := by
  have hready : ∀ id, (preemptBoot lines rs).Resumable id := by
    intro id
    have hempty : Runs Low [] [] false false [] [] := ⟨rfl, rfl⟩
    have hidle : Thread.Steady {} false ∧ ({} : Thread).held = [] :=
      ⟨⟨⟨hempty, fun _ => rfl⟩, trivial⟩, rfl⟩
    cases id with
    | task i => exact hidle
    | swapper c =>
        cases c with
        | succ c => exact hidle
        | zero =>
            -- the swapper of CPU 0 executes `main`
            have hkmalloc : Low .kmallocLock := rfl
            have hneutral : Neutral Low [] false [] (mainCode lines rs) :=
              neutral_main hkmalloc lines rs
            have hmain := hneutral [] [] (fun _ => hempty) false
            have hclimbs := climbing_main lines rs [] [] (fun _ hk => (List.not_mem_nil hk).elim) trivial
            rw [List.append_nil] at hmain hclimbs
            exact ⟨⟨⟨hmain, fun hu => by cases hu⟩, hclimbs⟩, rfl⟩
  have hheld : (preemptBoot lines rs).heldBy = fun _ => [] := funext fun c => (hready (.swapper c)).2
  exact ⟨fun _ => rfl, fun c => (hready (.swapper c)).1, fun id _ => hready id,
    hheld ▸ ranked_empty Lock.rank⟩

theorem preemptRun_order {lines : Nat} {rs : List (Nat × ThreadResult)} {as : List PreemptAction}
    (hrun : runFrom (preemptStep N) (preemptBoot lines rs) as = some s)
    (hout : Along (preemptStep N) OutsideKmalloc (preemptBoot lines rs) as) : OrderInv N s :=
  (runFrom_invariant_along (I := fun s => OrderInv N s ∧ PreemptInv N s)
    (fun _ _ _ h hP hs => ⟨h.1.step h.2 hP hs, h.2.step hP hs⟩)
    ⟨preemptBoot_order N lines rs, preemptBoot_inv N lines rs⟩ hout hrun).1

/-- In every run in which no tick interrupts `main` inside of `alloc_mem`: what the thread of a CPU
holds, over all levels of interrupts, it has taken in the order of the ranks; a lock that it tries to
take is above all of these, so it never waits for itself; and the word of a lock is set exactly if the
thread of one CPU, and no other one, holds it. -/
theorem preemptRun_ordered {lines : Nat} {rs : List (Nat × ThreadResult)} {as : List PreemptAction}
    (hrun : runFrom (preemptStep N) (preemptBoot lines rs) as = some s)
    (hout : Along (preemptStep N) OutsideKmalloc (preemptBoot lines rs) as) :
    (∀ c, (s.running c).held.Pairwise fun k l => l.rank < k.rank) ∧
      (∀ c l rest, (s.running c).frame.code = .tryLock l :: rest →
        ∀ k ∈ (s.running c).held, k.rank < l.rank) ∧
      (∀ l, s.locks l = true ↔ ∃ c, l ∈ (s.running c).held) ∧
      ∀ c d l, l ∈ (s.running c).held → l ∈ (s.running d).held → c = d := by
  have h := preemptRun_order hrun hout
  refine ⟨h.ranked.ordered, fun c l rest hcode => ?_, h.ranked.taken_iff, h.ranked.once⟩
  obtain ⟨base, ⟨-, hclimbs⟩, -, -⟩ := Steady.frame (h.running c)
  rw [hcode] at hclimbs
  exact hclimbs.1

/-- A line arrives while `main` is inside of `alloc_mem`. -/
def sampleNested : List PreemptAction :=
  sampleSection ++ .irq 0 false [.toLineDiscipline (some 1)] none :: List.replicate 6 (.exec 0 false)

theorem sampleNested_outside (s : Preempt) : Along (preemptStep 1) OutsideKmalloc s sampleNested := by
  refine along_of_forall fun a ha t => ?_
  simp only [sampleNested, sampleSection, List.mem_append, List.mem_cons, List.mem_replicate] at ha
  rcases ha with ⟨-, rfl⟩ | rfl | ⟨-, rfl⟩
  · trivial
  · trivial
  · trivial

/-- The handler takes its lock above the one of `kmalloc`. -/
theorem sampleNested_ordered :
    ∃ s, runFrom (preemptStep 1) (preemptBoot 0 [(0, .created)]) sampleNested = some s ∧
      (s.running 0).held = [.uibLock, .kmallocLock] ∧
      ∀ l, s.locks l = true ↔ ∃ c, l ∈ (s.running c).held := by
  have hend : (runFrom (preemptStep 1) (preemptBoot 0 [(0, .created)]) sampleNested).map
      (fun s => (s.running 0).held) = some [.uibLock, .kmallocLock] := by decide +kernel
  obtain ⟨s, hrun, hheld⟩ := Option.map_eq_some_iff.1 hend
  exact ⟨s, hrun, hheld, (preemptRun_ordered hrun (sampleNested_outside _)).2.2.1⟩

/-! ## Going on -/

/-- How many instructions the interrupted levels have left. -/
def stackLeft : List (Frame × Bool) → Nat
  | [] => 0
  | (g, _) :: rest => g.code.length + stackLeft rest

/-- How many instructions the thread has left, if it waits for no lock. -/
def Thread.left (t : Thread) : Nat :=
  t.frame.code.length + stackLeft t.stack

/-- CPU `c` is about to try a lock that is taken. -/
def Spins (s : Preempt) (c : Nat) (l : Lock) : Prop :=
  s.locks l = true ∧ (s.running c).frame.code.head? = some (.tryLock l)

/-- A CPU spins only on a lock above those that its thread holds. -/
theorem OrderInv.spins (h : OrderInv N s) (c : Nat) (l : Lock) (hspin : Spins s c l) :
    s.locks l = true ∧ ∀ k ∈ s.heldBy c, k.rank < l.rank := by
  obtain ⟨rest, hcode⟩ := List.head?_eq_some_iff.1 hspin.2
  obtain ⟨base, ⟨-, hclimbs⟩, -, -⟩ := Steady.frame (h.running c)
  rw [hcode] at hclimbs
  exact ⟨hspin.1, hclimbs.1⟩

/-- CPU `c` has got closer to the end of its code, and the others are where they were. -/
def Closer (S : Finset Nat) (c : Nat) (s s' : Preempt) : Prop :=
  (∀ d, d ≠ c → s'.running d = s.running d) ∧
    ∑ d ∈ S, (s'.running d).left < ∑ d ∈ S, (s.running d).left

theorem closer_set {t : Thread} {off : Bool} {locks : Lock → Bool} {S : Finset Nat}
    (hpin : ∀ c, (s.current c).cpu N = c) (hc : c ∈ S) (hless : t.left < (s.running c).left) :
    Closer S c s { s.set c t off with locks := locks } := by
  have hrunning : ∀ d, Preempt.running { s.set c t off with locks := locks } d =
      if d = c then t else s.running d := fun d => running_set t off d hpin
  refine ⟨fun d hd => by rw [hrunning, if_neg hd], ?_⟩
  refine Finset.sum_lt_sum (fun d _ => ?_) ⟨c, hc, ?_⟩
  · rw [hrunning]
    split_ifs with hd
    · rw [hd]
      exact hless.le
    · exact Nat.le_refl _
  · rw [hrunning, if_pos rfl]
    exact hless

/-- A thread that holds a lock, and waits for none, executes its next instruction. -/
theorem OrderInv.goes_on (h : OrderInv N s) (hheld : s.heldBy c ≠ []) (hfree : ∀ l, ¬Spins s c l)
    {S : Finset Nat} (hc : c ∈ S) :
    ∃ s', preemptStep N s (.exec c false) = some s' ∧ Closer S c s s' := by
  obtain ⟨base, ⟨⟨hruns, -⟩, -⟩, hbase, -⟩ := Steady.frame (h.running c)
  cases hcode : (s.running c).frame.code with
  | nil =>
      rw [hcode] at hruns
      exact absurd hruns.2 hheld
  | cons a rest =>
      rw [hcode] at hruns
      -- the code gets shorter by this instruction
      have hless : ∀ (f : Frame) (held : List Lock), f.code = rest →
          Thread.left { s.running c with frame := f, held := held } < (s.running c).left := by
        intro f held hf
        simp only [Thread.left, hf, hcode, List.length_cons]
        omega
      have hstep : preemptStep N s (.exec c false) = execInstr s c false rest a := by
        simp only [preemptStep, hcode]
      rw [hstep]
      cases a with
      | work | enableIrq | disableIrq | mrsX7 | msrX7 | mrsFlags =>
          exact ⟨_, rfl, closer_set h.pinned hc (hless _ _ rfl)⟩
      | msrFlags =>
          obtain ⟨-, off, outer, hflags, -⟩ := hruns
          simp only [execInstr, execInstr.f, hflags]
          exact ⟨_, rfl, closer_set h.pinned hc (hless _ _ rfl)⟩
      | tryLock l =>
          have hlock : s.locks l = false := by
            rw [← Bool.not_eq_true]
            exact fun hl => hfree l ⟨hl, by rw [hcode, List.head?_cons]⟩
          rw [execInstr, hlock, Bool.or_self, if_neg Bool.false_ne_true]
          exact ⟨_, rfl, closer_set h.pinned hc (hless _ _ rfl)⟩
      | unlock l => exact ⟨_, rfl, closer_set h.pinned hc (hless _ _ rfl)⟩
      | switchTo => exact absurd hruns.1.2 hheld
      | eret =>
          -- the lowest level ends with no lock
          cases hstack : (s.running c).stack with
          | nil => exact absurd (hruns.2.trans (hbase hstack)) hheld
          | cons level stack =>
              obtain ⟨g, off⟩ := level
              rw [execInstr, execInstr.t, hstack]
              refine ⟨_, rfl, closer_set h.pinned hc ?_⟩
              simp only [Thread.left, stackLeft, hcode, hstack, List.length_cons]
              omega

/-- Nobody outside of `S` holds a lock. -/
structure Draining (N : Nat) (S : Finset Nat) (s : Preempt) : Prop where
  order : OrderInv N s
  preempt : PreemptInv N s
  others : ∀ c ∉ S, s.heldBy c = []

/-- As long as a lock is taken, somebody who holds one goes on. -/
theorem Draining.step {S : Finset Nat} (h : Draining N S s) {l : Lock} (hl : s.locks l = true) :
    ∃ c ∈ S, ∃ s', preemptStep N s (.exec c false) = some s' ∧ Draining N S s' ∧
      ∑ d ∈ S, (s'.running d).left < ∑ d ∈ S, (s.running d).left := by
  obtain ⟨c, hheld, hgo⟩ := h.order.ranked.goes_on (Spins s) h.order.spins hl
  have hc : c ∈ S := by_contra fun hc => hheld (h.others c hc)
  obtain ⟨s', hexec, hsame, hless⟩ := h.order.goes_on hheld hgo hc
  have hout : OutsideKmalloc s (.exec c false) := trivial
  refine ⟨c, hc, s', hexec, ⟨h.order.step h.preempt hout hexec, h.preempt.step hout hexec,
    fun d hd => ?_⟩, hless⟩
  have hdc : d ≠ c := fun hdc => hd (hdc ▸ hc)
  rw [Preempt.heldBy, hsame d hdc]
  exact h.others d hd

/-- In every run in which no tick interrupts `main` inside of `alloc_mem`, the CPUs that hold locks can
get to a state in which no lock is held, without an interrupt, a switch or a step of any other CPU: no
CPU waits for ever for a lock that nobody gives back. -/
theorem preemptRun_unlocks {lines : Nat} {rs : List (Nat × ThreadResult)} {as : List PreemptAction}
    (hrun : runFrom (preemptStep N) (preemptBoot lines rs) as = some s)
    (hout : Along (preemptStep N) OutsideKmalloc (preemptBoot lines rs) as) :
    ∃ bs t, (∀ b ∈ bs, ∃ c, (s.running c).held ≠ [] ∧ b = .exec c false) ∧
      runFrom (preemptStep N) s bs = some t ∧ ∀ l, t.locks l = false := by
  have horder := preemptRun_order hrun hout
  have hpre : PreemptInv N s := runFrom_invariant_along (fun _ _ _ h hP hs => h.step hP hs)
    (preemptBoot_inv N lines rs) hout hrun
  obtain ⟨T, hT⟩ := horder.ranked.finite
  have hmem : ∀ {c}, c ∈ T.filter (fun c => s.heldBy c ≠ []) ↔ s.heldBy c ≠ [] := by
    intro c
    rw [Finset.mem_filter, and_iff_right_of_imp fun hc => by_contra fun hnot => hc (hT c hnot)]
  have hstart : Draining N (T.filter fun c => s.heldBy c ≠ []) s :=
    ⟨horder, hpre, fun c hc => not_not.1 fun hheld => hc (hmem.2 hheld)⟩
  -- only those that hold a lock now ever go on
  obtain ⟨bs, t, hbs, hrun', -, hfree⟩ := runFrom_reaches
    (G := fun t : Preempt => ∀ l, t.locks l = false)
    (Q := fun b => ∃ c, s.heldBy c ≠ [] ∧ b = PreemptAction.exec c false)
    (fun t => ∑ d ∈ T.filter fun c => s.heldBy c ≠ [], (t.running d).left)
    (fun t ht hgoal => by
      obtain ⟨l, hl⟩ := not_forall.1 hgoal
      obtain ⟨c, hc, t', hexec, ht', hless⟩ := ht.step (Bool.not_eq_false _ ▸ hl)
      exact ⟨_, t', ⟨c, hmem.1 hc, rfl⟩, hexec, ht', hless⟩) hstart
  exact ⟨bs, t, hbs, hrun', hfree⟩

/-- From there all locks can be given back. -/
theorem sampleNested_unlocks :
    ∃ s bs t, runFrom (preemptStep 1) (preemptBoot 0 [(0, .created)]) sampleNested = some s ∧
      runFrom (preemptStep 1) s bs = some t ∧ ∀ l, t.locks l = false := by
  have hruns : (runFrom (preemptStep 1) (preemptBoot 0 [(0, .created)]) sampleNested).isSome = true := by
    decide +kernel
  obtain ⟨s, hrun⟩ := Option.isSome_iff_exists.1 hruns
  obtain ⟨bs, t, -, hend, hfree⟩ := preemptRun_unlocks hrun (sampleNested_outside _)
  exact ⟨s, bs, t, hrun, hend, hfree⟩

end Kernel
end ToutOS
