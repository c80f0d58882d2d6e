import ToutOS.Base.Amortised
import ToutOS.Kernel.Scheduler
import ToutOS.Kernel.Ttbr

/-!
# Fairness — how long a task that is ready may have to wait

The timer interrupt charges the current task with a tick, and calls `schedule` if it has interrupted a
user program or the swapper of the CPU.  It does so with interrupts enabled, so the swapper may be in
any number of calls of `schedule`, each with a choice of its own.

* `Ticks`, `TickAction`, `tickStep` — the timer interrupts, the calls of `schedule` and what happens to
  the task table; `TickMove` lists what a step can do.
* `tickRun_sched` — these are runs of the scheduler, so no CPU runs a slot of another one.
* `ticks_while_waiting` — the ticks that user programs get while a task that is ready waits.
* `lag_bound` — how far a task may get ahead of another one that is ready all the time.
* `busy_while_ready` — a CPU does not go idle while a slot of it is ready.
-/

namespace ToutOS
namespace Kernel

open Base

variable {N : Nat} {img : KernelImage}

/-! ## The machine -/

structure Ticks where
  tasks : TaskTable
  mem : Mem
  cpu : Nat → SchedCpu

inductive TickAction
  /-- A timer interrupt on CPU `c`, in user mode or in the kernel. -/
  | tick (c : Nat) (user : Bool)
  /-- The current thread goes on in `schedule`, or it is a task and calls it. -/
  | sched (c : Nat) (e : SchedEvent)
  | setTaskState (i : Nat) (state : ProcessState)
  | getTaskSlot
  | freeTaskSlot (i : Nat)
  deriving DecidableEq, Repr

/-- Another state of CPU `c`. -/
def Ticks.setCpu (s : Ticks) (c : Nat) (cpu : SchedCpu) : Ticks :=
  { s with cpu := Function.update s.cpu c cpu }

@[simp] theorem setCpu_cpu_self (s : Ticks) (c : Nat) (cpu : SchedCpu) : (s.setCpu c cpu).cpu c = cpu :=
  Function.update_self ..

theorem setCpu_cpu_of_ne {s : Ticks} {c d : Nat} {cpu : SchedCpu} (h : d ≠ c) :
    (s.setCpu c cpu).cpu d = s.cpu d :=
  Function.update_of_ne h ..

/-- A step of `schedule` on CPU `c`. -/
def Ticks.sched (N : Nat) (s : Ticks) (c : Nat) (e : SchedEvent) : Option Ticks :=
  ((s.cpu c).step (getNextProc N s.tasks c) e).map (s.setCpu c)

/-- `irq_handler` charges task `i`. -/
def Ticks.charge (s : Ticks) (i : Nat) (user : Bool) : Ticks :=
  { s with tasks := Function.update s.tasks i (addTick user (s.tasks i)) }

/-- `irq_handler` for `IRQ_TIMER` on CPU `c`. -/
def irqTimer (N : Nat) (s : Ticks) (c : Nat) (user : Bool) : Option Ticks :=
  match (s.cpu c).current with
  | none => if user then none else s.sched N c .schedule
  | some i => if user then (s.charge i true).sched N c .schedule else some (s.charge i false)

/-- One step on a machine with `N` CPUs. -/
def tickStep (N : Nat) (img : KernelImage) (s : Ticks) : TickAction → Option Ticks
  | .tick c user => if c < N then irqTimer N s c user else none
  | .sched c e => if c < N ∧ (e = .schedule → (s.cpu c).current ≠ none) then s.sched N c e else none
  | .setTaskState i state => some { s with tasks := Kernel.setTaskState s.tasks (some i) state }
  | .getTaskSlot =>
      let (_, tasks, mem) := Kernel.getTaskSlot img s.tasks s.mem
      some { s with tasks := tasks, mem := mem }
  | .freeTaskSlot i => some { s with tasks := Kernel.freeTaskSlot s.tasks i }

/-- Every CPU is on its swapper, in no call of `schedule`. -/
def tickInit (tasks : TaskTable) (mem : Mem) : Ticks := { tasks := tasks, mem := mem, cpu := fun _ => {} }

/-- The state can come about, from any tasks. -/
def Ticks.Reached (N : Nat) (img : KernelImage) (s : Ticks) : Prop :=
  ∃ tasks mem as, runFrom (tickStep N img) (tickInit tasks mem) as = some s

variable {s s' t : Ticks} {a : TickAction} {c i j : Nat}

theorem Ticks.Reached.step (h : s.Reached N img) (hs : tickStep N img s a = some s') :
    s'.Reached N img := by
  obtain ⟨tasks, mem, as, hrun⟩ := h
  exact ⟨tasks, mem, as ++ [a], runFrom_append.2 ⟨s, hrun, runFrom_cons.2 ⟨s', hs, rfl⟩⟩⟩

theorem Ticks.Reached.run {as : List TickAction} (h : s.Reached N img)
    (hrun : runFrom (tickStep N img) s as = some t) : t.Reached N img :=
  runFrom_invariant (fun _ _ _ h hs => h.step hs) h hrun

/-! ## What a step can do -/

/-- The guard of each action and the state that it leads to. -/
inductive TickMove (N : Nat) (img : KernelImage) (s : Ticks) : TickAction → Ticks → Prop where
  | tickUser {c i : Nat} {cpu : SchedCpu} (hc : c < N) (hcurrent : (s.cpu c).current = some i)
      (hmove : SchedMove (s.cpu c) (getNextProc N (s.charge i true).tasks c) .schedule cpu) :
      TickMove N img s (.tick c true) ((s.charge i true).setCpu c cpu)
  | tickKernel {c i : Nat} (hc : c < N) (hcurrent : (s.cpu c).current = some i) :
      TickMove N img s (.tick c false) (s.charge i false)
  | tickIdle {c : Nat} {cpu : SchedCpu} (hc : c < N) (hcurrent : (s.cpu c).current = none)
      (hmove : SchedMove (s.cpu c) (getNextProc N s.tasks c) .schedule cpu) :
      TickMove N img s (.tick c false) (s.setCpu c cpu)
  | sched {c : Nat} {e : SchedEvent} {cpu : SchedCpu} (hc : c < N)
      (hmay : e = .schedule → (s.cpu c).current ≠ none)
      (hmove : SchedMove (s.cpu c) (getNextProc N s.tasks c) e cpu) :
      TickMove N img s (.sched c e) (s.setCpu c cpu)
  | setTaskState (i : Nat) (state : ProcessState) :
      TickMove N img s (.setTaskState i state)
        { s with tasks := Kernel.setTaskState s.tasks (some i) state }
  | getTaskSlot :
      TickMove N img s .getTaskSlot
        { s with
          tasks := (Kernel.getTaskSlot img s.tasks s.mem).2.1
          mem := (Kernel.getTaskSlot img s.tasks s.mem).2.2 }
  | freeTaskSlot (i : Nat) :
      TickMove N img s (.freeTaskSlot i) { s with tasks := Kernel.freeTaskSlot s.tasks i }

theorem Ticks.sched_move {e : SchedEvent} (hs : s.sched N c e = some s') :
    ∃ cpu, SchedMove (s.cpu c) (getNextProc N s.tasks c) e cpu ∧ s' = s.setCpu c cpu := by
  obtain ⟨cpu, hstep, rfl⟩ := Option.map_eq_some_iff.1 hs
  exact ⟨cpu, SchedCpu.step_move hstep, rfl⟩

theorem irqTimer_move {user : Bool} (hc : c < N) (hs : irqTimer N s c user = some s') :
    TickMove N img s (.tick c user) s' := by
  rw [irqTimer] at hs
  cases hcurrent : (s.cpu c).current with
  | none =>
      simp only [hcurrent] at hs
      cases user with
      | true => cases hs
      | false =>
          obtain ⟨cpu, hmove, rfl⟩ := Ticks.sched_move hs
          exact .tickIdle hc hcurrent hmove
  | some i =>
      simp only [hcurrent] at hs
      cases user with
      | true =>
          obtain ⟨cpu, hmove, rfl⟩ := Ticks.sched_move hs
          exact .tickUser hc hcurrent hmove
      | false =>
          cases hs
          exact .tickKernel hc hcurrent

theorem tickStep_move (hs : tickStep N img s a = some s') : TickMove N img s a s' := by
  cases a with
  | tick c user =>
      simp only [tickStep] at hs
      by_cases hc : c < N
      · rw [if_pos hc] at hs
        exact irqTimer_move hc hs
      · rw [if_neg hc] at hs
        cases hs
  | sched c e =>
      simp only [tickStep] at hs
      split_ifs at hs with hg
      obtain ⟨cpu, hmove, rfl⟩ := Ticks.sched_move hs
      exact .sched hg.1 hg.2 hmove
  | setTaskState i state =>
      cases hs
      exact .setTaskState i state
  | getTaskSlot =>
      cases hs
      exact .getTaskSlot
  | freeTaskSlot i =>
      cases hs
      exact .freeTaskSlot i

/-! ## The runs of the scheduler -/

/-- Every step is matched by steps of the scheduler's runs. -/
theorem TickMove.sched_run {t : Sched} (hm : TickMove N img s a s') (h : CpusSched N s.cpu t) :
    ∃ bs t', runFrom (schedStep N) t bs = some t' ∧ CpusSched N s'.cpu t' := by
  cases hm with
  | tickUser hc hcurrent hmove => exact h.move hc hmove
  | tickKernel hc hcurrent => exact ⟨[], t, rfl, h⟩
  | tickIdle hc hcurrent hmove => exact h.move hc hmove
  | sched hc hmay hmove => exact h.move hc hmove
  | setTaskState i state => exact ⟨[], t, rfl, h⟩
  | getTaskSlot => exact ⟨[], t, rfl, h⟩
  | freeTaskSlot i => exact ⟨[], t, rfl, h⟩

/-- What the timer interrupts and `schedule` do to the CPUs is a run of the scheduler. -/
theorem tickRun_sched {tasks : TaskTable} {mem : Mem} {as : List TickAction}
    (hrun : runFrom (tickStep N img) (tickInit tasks mem) as = some s) :
    ∃ bs t, runFrom (schedStep N) (schedInit tasks) bs = some t ∧ CpusSched N s.cpu t :=
  runFrom_refines (R := fun s => CpusSched N s.cpu)
    (fun _ _ _ _ h hs => (tickStep_move hs).sched_run h) (cpusSched_init N tasks) hrun

/-- A CPU runs tasks of its own, and has chosen such. -/
theorem Ticks.Reached.ofClass (h : s.Reached N img) (c : Nat) :
    (∀ i, (s.cpu c).current = some i → OfClass N c i) ∧
      ∀ x, ∀ call ∈ (s.cpu c).calls x, ∀ i, call.next = some (some i) → OfClass N c i := by
  obtain ⟨tasks, mem, as, hrun⟩ := h
  obtain ⟨bs, t, ht, hst⟩ := tickRun_sched hrun
  exact hst.ofClass (schedRun_inv ht) c

theorem Ticks.Reached.current (h : s.Reached N img) (hi : (s.cpu c).current = some i) : OfClass N c i :=
  (h.ofClass c).1 i hi

theorem Ticks.setCpu_oneCall {cpu : SchedCpu} (h : ∀ c, OneCall (s.cpu c)) (hcpu : OneCall cpu) (d : Nat) :
    OneCall ((s.setCpu c cpu).cpu d) := by
  by_cases hd : d = c
  · rw [hd, setCpu_cpu_self]
    exact hcpu
  · rw [setCpu_cpu_of_ne hd]
    exact h d

theorem TickMove.oneCall (hm : TickMove N img s a s') (h : ∀ c, OneCall (s.cpu c)) (d : Nat) :
    OneCall (s'.cpu d) := by
  cases hm with
  | tickUser hc hcurrent hmove => exact Ticks.setCpu_oneCall h (hmove.oneCall (h _)) d
  | tickKernel hc hcurrent => exact h d
  | tickIdle hc hcurrent hmove => exact Ticks.setCpu_oneCall h (hmove.oneCall (h _)) d
  | sched hc hmay hmove => exact Ticks.setCpu_oneCall h (hmove.oneCall (h _)) d
  | setTaskState i state => exact h d
  | getTaskSlot => exact h d
  | freeTaskSlot i => exact h d

theorem Ticks.Reached.oneCall (h : s.Reached N img) (c : Nat) : OneCall (s.cpu c) := by
  obtain ⟨tasks, mem, as, hrun⟩ := h
  have hinit : ∀ c, OneCall ((tickInit tasks mem).cpu c) := fun _ =>
    ⟨fun _ _ => rfl, fun _ => Nat.zero_le 1⟩
  exact runFrom_invariant (fun _ _ _ h hs => (tickStep_move hs).oneCall h) hinit hrun c

/-! ## Where a CPU goes on -/

/-- The thread that the CPU runs until it calls `get_next_proc` again: `none` if that is what it does
next, and `some none` for the swapper, whatever calls it is in. -/
def SchedCpu.target (cpu : SchedCpu) : Option (Option Nat) :=
  match cpu.current, cpu.top with
  | none, _ => some none
  | some i, [] => some (some i)
  | some _, call :: _ => call.next

theorem target_of_none {cpu : SchedCpu} (h : cpu.current = none) : cpu.target = some none := by
  rw [SchedCpu.target, h]

theorem target_of_nil {cpu : SchedCpu} (hcurrent : cpu.current = some i) (htop : cpu.top = []) :
    cpu.target = some (some i) := by
  rw [SchedCpu.target, hcurrent, htop]

theorem target_of_call {cpu : SchedCpu} {call : SchedCall} {calls : List SchedCall}
    (hcurrent : cpu.current = some i) (htop : cpu.top = call :: calls) : cpu.target = call.next := by
  rw [SchedCpu.target, hcurrent, htop]

theorem target_setTop {cpu : SchedCpu} {call : SchedCall} {calls : List SchedCall}
    (hcurrent : cpu.current = some i) : (cpu.setTop (call :: calls)).target = call.next :=
  target_of_call (hcurrent : (cpu.setTop (call :: calls)).current = some i) (setTop_top ..)

/-- What a task has chosen is where it goes on, before and after the switch. -/
theorem OneCall.target_switchTo {cpu : SchedCpu} {next : Option Nat} {calls : List SchedCall}
    (h : OneCall cpu) (hcurrent : cpu.current = some i) (htop : cpu.top = .loaded next :: calls) :
    SchedCpu.target { cpu.setTop calls with current := next } = cpu.target := by
  rw [target_of_call hcurrent htop]
  cases next with
  | none => exact target_of_none rfl
  | some k => exact target_of_nil rfl (h.switchTo_top htop k)

/-- A task that calls `schedule` has `get_next_proc` called next. -/
theorem SchedMove.target_schedule {cpu cpu' : SchedCpu} {choice : Option Nat}
    (hm : SchedMove cpu choice .schedule cpu') (hcurrent : cpu.current = some i) : cpu'.target = none := by
  cases hm with
  | schedule hg => exact target_setTop hcurrent

/-- A step leaves it as it is, or has the CPU call `get_next_proc` next, or takes what that has found;
nothing is said of a CPU that is on its swapper. -/
theorem SchedMove.target {cpu cpu' : SchedCpu} {choice : Option Nat} {e : SchedEvent}
    (hm : SchedMove cpu choice e cpu') (h : OneCall cpu) :
    cpu'.target = cpu.target ∨ cpu'.target = none ∨ cpu'.target = some choice ∨
      cpu.target = some none := by
  cases hcurrent : cpu.current with
  | none => exact Or.inr (Or.inr (Or.inr (target_of_none hcurrent)))
  | some i =>
      cases hm with
      | schedule hg => exact Or.inr (Or.inl (target_setTop hcurrent))
      | getNextProc htop => exact Or.inr (Or.inr (Or.inl (target_setTop hcurrent)))
      | @stay calls htop =>
          -- the task goes on with itself, and was in one call only
          refine Or.inl ?_
          rw [target_of_call hcurrent htop, SchedCall.next, hcurrent]
          exact target_of_nil hcurrent ((setTop_top ..).trans (h.top htop hcurrent))
      | @load next calls htop hne =>
          refine Or.inl ?_
          rw [target_of_call hcurrent htop]
          exact target_setTop hcurrent
      | switchTo htop => exact Or.inl (h.target_switchTo hcurrent htop)

theorem TickMove.target (hm : TickMove N img s a s') (h : ∀ c, OneCall (s.cpu c)) (c : Nat) :
    (s'.cpu c).target = (s.cpu c).target ∨ (s'.cpu c).target = none ∨
      (s'.cpu c).target = some (getNextProc N s.tasks c) ∨ (s.cpu c).target = some none := by
  have hother : ∀ {d : Nat} (s : Ticks) (cpu : SchedCpu), c ≠ d →
      ((s.setCpu d cpu).cpu c).target = (s.cpu c).target := by
    intro d s cpu hd
    rw [setCpu_cpu_of_ne hd]
  cases hm with
  | @tickUser d i cpu hd hcurrent hmove =>
      by_cases hcd : c = d
      · subst hcd
        rw [setCpu_cpu_self]
        exact Or.inr (Or.inl (hmove.target_schedule hcurrent))
      · exact Or.inl (hother _ _ hcd)
  | tickKernel hd hcurrent => exact Or.inl rfl
  | @tickIdle d cpu hd hcurrent hmove =>
      -- the swapper schedules in the interrupt
      by_cases hcd : c = d
      · exact Or.inr (Or.inr (Or.inr (hcd ▸ target_of_none hcurrent)))
      · exact Or.inl (hother _ _ hcd)
  | @sched d e cpu hd hmay hmove =>
      by_cases hcd : c = d
      · subst hcd
        rw [setCpu_cpu_self]
        exact hmove.target (h c)
      · exact Or.inl (hother _ _ hcd)
  | setTaskState i state => exact Or.inl rfl
  | getTaskSlot => exact Or.inl rfl
  | freeTaskSlot i => exact Or.inl rfl

theorem Ticks.Reached.target (h : s.Reached N img) (ht : (s.cpu c).target = some (some i)) :
    OfClass N c i := by
  rw [SchedCpu.target] at ht
  split at ht
  · cases ht
  · next k hcurrent htop =>
      cases ht
      exact h.current hcurrent
  · next k call calls hcurrent htop =>
      exact (h.ofClass c).2 _ call (htop ▸ List.mem_cons_self : call ∈ (s.cpu c).top) i ht

/-! ## The times -/

/-- `stime + utime` of the slots. -/
def Ticks.time (s : Ticks) (k : Nat) : Nat := procTime (s.tasks k)

/-- A tick more, or the counter has gone around. -/
theorem procTime_addTick (user : Bool) (t : TaskStruct) :
    procTime (addTick user t) = procTime t + 1 ∨ procTime (addTick user t) < procTime t := by
  have hmod : procTime (addTick user t) = (procTime t + 1) % 2 ^ 64 := by
    cases user with
    | true => simp only [procTime, addTick, if_true, Nat.add_mod_mod, Nat.mod_add_mod, Nat.add_assoc]
    | false =>
        simp only [procTime, addTick, Bool.false_eq_true, if_false, Nat.mod_add_mod]
        rw [Nat.add_right_comm]
  have hlt : procTime t < 2 ^ 64 := Nat.mod_lt _ (by decide)
  omega

/-- The timer interrupt charges the current task of the CPU, and nobody else.  After one in user mode
`schedule` is called. -/
theorem TickMove.charged {user : Bool} (hm : TickMove N img s (.tick c user) s')
    (hcurrent : (s.cpu c).current = some i) :
    (s'.time i = s.time i + 1 ∨ s'.time i < s.time i) ∧ (∀ k, k ≠ i → s'.time k = s.time k) ∧
      (user = true → (s.cpu c).target = some (some i) ∧ (s'.cpu c).target = none) ∧
      (user = false → s'.cpu = s.cpu) := by
  have hself : ∀ user, (s.charge i user).time i = s.time i + 1 ∨ (s.charge i user).time i < s.time i := by
    intro user
    simp only [Ticks.time, Ticks.charge, Function.update_self]
    exact procTime_addTick user (s.tasks i)
  have hothers : ∀ user k, k ≠ i → (s.charge i user).time k = s.time k := by
    intro user k hk
    simp only [Ticks.time, Ticks.charge, Function.update_of_ne hk]
  cases hm with
  | tickUser hc hi hmove =>
      obtain rfl := Option.some.inj (hi.symm.trans hcurrent)
      refine ⟨hself true, hothers true, fun _ => ⟨?_, ?_⟩, fun h => ?_⟩
      · -- a program in user mode is in no call of `schedule`
        cases hmove with
        | schedule hg =>
            exact target_of_nil hi (hg.resolve_left (by rw [hi]; exact Option.some_ne_none _))
      · rw [setCpu_cpu_self]
        exact hmove.target_schedule hi
      · cases h
  | tickKernel hc hi =>
      obtain rfl := Option.some.inj (hi.symm.trans hcurrent)
      exact ⟨hself false, hothers false, fun h => Bool.noConfusion h, fun _ => rfl⟩
  | tickIdle hc hi hmove =>
      rw [hcurrent] at hi
      cases hi

/-- `get_task_slot` clears slots, and changes the time of no other one. -/
theorem procTime_getTaskSlot (img : KernelImage) (tasks : TaskTable) (mem : Mem) (k : Nat) :
    procTime ((Kernel.getTaskSlot img tasks mem).2.1 k) = procTime (tasks k) ∨
      (Kernel.getTaskSlot img tasks mem).2.1 k = {} := by
  rcases hslot : Kernel.getTaskSlot img tasks mem with ⟨slot, tasks', mem'⟩
  have hcall := getTaskSlot_call hslot
  by_cases hk : slot = some k
  · -- the slot that it hands out has only been marked
    obtain ⟨-, -, htaken, -⟩ := hcall.found k hk
    have htime : procTime (tasks' k) = procTime (tasks k) := by
      rw [htaken]
      rfl
    exact Or.inl htime
  · by_cases hreap : Reapable tasks k
    · exact Or.inr (hcall.reaped k hreap)
    · exact Or.inl (congrArg procTime (hcall.same k hk hreap))

/-- A task of CPU `c` that is not charged keeps its time, unless its slot is cleared. -/
theorem TickMove.uncharged {k : Nat} (hm : TickMove N img s a s') (h : s.Reached N img)
    (hk : OfClass N c k) (hnot : ∀ user, a = .tick c user → (s.cpu c).current ≠ some k) :
    s'.time k = s.time k ∨ s'.tasks k = {} := by
  -- a tick charges a task of the CPU that it interrupts
  have htick : ∀ d user i, a = .tick d user → (s.cpu d).current = some i → k ≠ i := by
    rintro d user i ha hi rfl
    obtain rfl : c = d := hk.2.symm.trans (h.current hi).2
    exact hnot user ha hi
  cases hm with
  | @tickUser d i cpu hd hi hmove =>
      refine Or.inl ?_
      simp only [Ticks.time, Ticks.setCpu, Ticks.charge,
        Function.update_of_ne (htick d true i rfl hi)]
  | @tickKernel d i hd hi =>
      refine Or.inl ?_
      simp only [Ticks.time, Ticks.charge, Function.update_of_ne (htick d false i rfl hi)]
  | tickIdle hd hi hmove => exact Or.inl rfl
  | sched hd hmay hmove => exact Or.inl rfl
  | setTaskState i state =>
      refine Or.inl ?_
      by_cases hki : k = i
      · simp only [Ticks.time, hki, Kernel.setTaskState, Function.update_self, procTime]
      · simp only [Ticks.time, setTaskState_of_ne _ _ hki]
  | getTaskSlot => exact procTime_getTaskSlot img s.tasks s.mem k
  | freeTaskSlot i =>
      by_cases hki : k = i
      · rw [hki]
        exact Or.inr (Function.update_self ..)
      · refine Or.inl ?_
        simp only [Ticks.time, Kernel.freeTaskSlot, Function.update_of_ne hki]

theorem time_of_cleared {k : Nat} (h : s.tasks k = {}) : s.time k = 0 := by
  rw [Ticks.time, h]
  rfl

theorem not_ready_of_cleared {k : Nat} (h : s.tasks k = {}) : ¬ReadyOf N s.tasks c k := by
  rintro ⟨-, hready⟩
  rw [h] at hready
  cases hready

/-- `get_next_proc` finds a task that has had no more time than one that is ready. -/
theorem getNextProc_of_ready {tasks : TaskTable} (hc : c < N) (hj : ReadyOf N tasks c j) :
    ∃ b, getNextProc N tasks c = some b ∧ OfClass N c b ∧
      procTime (tasks b) ≤ procTime (tasks j) := by
  have hfirst := getNextProc_firstMin tasks hc
  cases hnext : getNextProc N tasks c with
  | none => exact absurd hj (hfirst.eq_none_iff.1 hnext j)
  | some b =>
      have hb := (hfirst.eq_some_iff).1 hnext
      refine ⟨b, rfl, hb.mem.1, ?_⟩
      rcases hb.least j hj with hlt | ⟨heq, -⟩
      · exact Nat.le_of_lt hlt
      · exact Nat.le_of_eq heq

/-! ## Waiting -/

/-- The task in slot `j` is ready, and CPU `c` runs another one. -/
def Waits (N c j : Nat) (s : Ticks) : Prop := ReadyOf N s.tasks c j ∧ (s.cpu c).current ≠ some j

instance : DecidablePred (Waits N c j) := fun _ => inferInstanceAs (Decidable (_ ∧ _))

/-- The other slots of the CPU. -/
def rivals (N c j : Nat) : Finset Nat :=
  (Finset.range maxNumProcesses).filter fun k => k % N = c ∧ k ≠ j

theorem mem_rivals {k : Nat} : k ∈ rivals N c j ↔ OfClass N c k ∧ k ≠ j := by
  simp only [rivals, Finset.mem_filter, Finset.mem_range, OfClass, and_assoc]

/-- How many rivals of slot `j` start again from zero in a step: the slot is cleared, or the counter
goes around. -/
def resets (N : Nat) (img : KernelImage) (c j : Nat) (s : Ticks) (a : TickAction) : Nat :=
  (tickStep N img s a).elim 0 fun s' => fallen s.time s'.time (rivals N c j)

/-- One for the swapper, and for a task that has had more than `T` ticks. -/
def ahead (T : Nat) (time : Nat → Nat) : Option Nat → Nat
  | none => 1
  | some k => if T < time k then 1 else 0

theorem ahead_le_one (T : Nat) (time : Nat → Nat) (x : Option Nat) : ahead T time x ≤ 1 := by
  cases x with
  | none => exact Nat.le_refl 1
  | some k =>
      rw [ahead]
      split_ifs
      · exact Nat.le_refl 1
      · exact Nat.zero_le 1

/-- What the CPU still owes for where it goes on without another call of `get_next_proc`. -/
def owed (T : Nat) (time : Nat → Nat) (target : Option (Option Nat)) : Nat :=
  target.elim 0 (ahead T time)

theorem owed_le_one (T : Nat) (time : Nat → Nat) (target : Option (Option Nat)) :
    owed T time target ≤ 1 := by
  cases target with
  | none => exact Nat.zero_le 1
  | some x => exact ahead_le_one T time x

/-- The ticks that the rivals of slot `j` may still get. -/
def Ticks.potential (N c j T : Nat) (s : Ticks) : Nat :=
  headroom T s.time (rivals N c j) + owed T s.time (s.cpu c).target

/-- A tick of a rival is paid for: by its own time, or by what the CPU owes. -/
theorem potential_charged {user : Bool} (hm : TickMove N img s (.tick c user) s') (h : s.Reached N img)
    (hi : (s.cpu c).current = some i) (hij : i ≠ j) (T : Nat) :
    (if user = true then 1 else 0) + s'.potential N c j T ≤
      s.potential N c j T + (T + 1) * fallen s.time s'.time (rivals N c j) := by
  obtain ⟨hself, hothers, huser, hkernel⟩ := hm.charged hi
  have hmem : i ∈ rivals N c j := mem_rivals.2 ⟨h.current hi, hij⟩
  rw [Ticks.potential, Ticks.potential]
  by_cases hle : s.time i ≤ T
  · -- the tick uses up a unit of the room that the task has
    have hless := headroom_lt hmem hle (fun k _ hk => hothers k hk) hself
    cases user with
    | true =>
        rw [if_pos rfl, (huser rfl).2, owed, Option.elim_none]
        omega
    | false =>
        have hone := owed_le_one T s'.time (s'.cpu c).target
        rw [if_neg Bool.false_ne_true]
        omega
  · have hrest : headroom T s'.time (rivals N c j) ≤
        headroom T s.time (rivals N c j) + (T + 1) * fallen s.time s'.time (rivals N c j) := headroom_le
    cases user with
    | true =>
        -- the task has had its share, and `get_next_proc` is called next
        have hone : owed T s.time (s.cpu c).target = 1 := by
          rw [(huser rfl).1]
          exact if_pos (Nat.lt_of_not_le hle)
        rw [if_pos rfl, (huser rfl).2, hone, owed, Option.elim_none]
        omega
    | false =>
        have hsame : owed T s'.time (s.cpu c).target ≤ owed T s.time (s.cpu c).target := by
          rcases htarget : (s.cpu c).target with _ | _ | k
          · exact Nat.le_refl 0
          · exact Nat.le_refl 1
          · by_cases hki : k = i
            · calc
                owed T s'.time (some (some k)) ≤ 1 := owed_le_one ..
                _ = owed T s.time (some (some k)) := by
                  rw [hki]
                  exact (if_pos (Nat.lt_of_not_le hle)).symm
            · simp only [owed, Option.elim_some, ahead, hothers k hki, Nat.le_refl]
        rw [if_neg Bool.false_ne_true, hkernel rfl]
        omega

/-- A step that charges no task of the CPU owes nothing more. -/
theorem potential_uncharged (hm : TickMove N img s a s') (h : s.Reached N img) (hc : c < N)
    (hj : ReadyOf N s.tasks c j) (hnot : ∀ user k, a = .tick c user → (s.cpu c).current ≠ some k) :
    s'.potential N c j (s.time j) ≤
      s.potential N c j (s.time j) + (s.time j + 1) * fallen s.time s'.time (rivals N c j) := by
  have hrest : headroom (s.time j) s'.time (rivals N c j) ≤ headroom (s.time j) s.time (rivals N c j) +
      (s.time j + 1) * fallen s.time s'.time (rivals N c j) := headroom_le
  have htime : ∀ k, OfClass N c k → s'.time k ≤ s.time k := by
    intro k hk
    rcases hm.uncharged h hk fun user ha => hnot user k ha with heq | hclear
    · exact Nat.le_of_eq heq
    · rw [time_of_cleared hclear]
      exact Nat.zero_le _
  have howed : owed (s.time j) s'.time (s'.cpu c).target ≤ owed (s.time j) s.time (s.cpu c).target := by
    rcases hm.target h.oneCall c with heq | heq | heq | heq
    · rw [heq]
      rcases htarget : (s.cpu c).target with _ | _ | k
      · exact Nat.le_refl 0
      · exact Nat.le_refl 1
      · have hk := htime k (h.target htarget)
        simp only [owed, Option.elim_some, ahead]
        split_ifs
        · exact Nat.le_refl 1
        · omega
        · exact Nat.zero_le 1
        · exact Nat.le_refl 0
    · rw [heq]
      exact Nat.zero_le _
    · -- what `get_next_proc` has found has had no more time than slot `j`
      obtain ⟨b, hb, hclass, hle⟩ := getNextProc_of_ready hc hj
      have hnot : ¬s.time j < s'.time b := Nat.not_lt.2 ((htime b hclass).trans hle)
      rw [heq, hb, owed, Option.elim_some, ahead, if_neg hnot]
      exact Nat.zero_le _
    · rw [heq]
      exact owed_le_one ..
  rw [Ticks.potential, Ticks.potential]
  omega

/-- The task that waits is not charged, and keeps its slot. -/
theorem TickMove.waits_time (hm : TickMove N img s a s') (h : s.Reached N img) (hs : Waits N c j s)
    (hs' : Waits N c j s') : s'.time j = s.time j := by
  rcases hm.uncharged h hs.1.1 fun _ _ => hs.2 with heq | hclear
  · exact heq
  · exact absurd hs'.1 (not_ready_of_cleared hclear)

theorem waits_step (hs : tickStep N img s a = some s') (h : s.Reached N img) (hc : c < N)
    (hw : Waits N c j s) :
    (if a = .tick c true then 1 else 0) + s'.potential N c j (s.time j) ≤
      s.potential N c j (s.time j) + (s.time j + 1) * resets N img c j s a := by
  have hm := tickStep_move hs
  rw [resets, hs, Option.elim_some]
  by_cases hcharged : ∃ user i, a = .tick c user ∧ (s.cpu c).current = some i
  · obtain ⟨user, i, rfl, hi⟩ := hcharged
    have hij : i ≠ j := fun hij => hw.2 (hij ▸ hi)
    have hpaid := potential_charged hm h hi hij (s.time j)
    simpa only [TickAction.tick.injEq, true_and] using hpaid
  · have hnot : ∀ user k, a = .tick c user → (s.cpu c).current ≠ some k := fun user k ha hk =>
      hcharged ⟨user, k, ha, hk⟩
    have hkernel : a ≠ .tick c true := by
      rintro rfl
      cases hm with
      | tickUser hc hcurrent hmove => exact hnot true _ rfl hcurrent
    rw [if_neg hkernel, Nat.zero_add]
    exact potential_uncharged hm h hc hw.1 hnot

/-- While a task is ready and waits for its CPU, the user programs on the CPU get at most one tick each
for what they have had less than the task, and one more; one at most for the task or the swapper that
the CPU is at; and no more than the time of the task and one for each time that a rival starts again
from zero.  The interrupts of the kernel, and whatever the other CPUs do, do not matter. -/
theorem ticks_while_waiting {as : List TickAction} (hc : c < N) (h : s.Reached N img)
    (hwait : Always (tickStep N img) (Waits N c j) s as)
    (hrun : runFrom (tickStep N img) s as = some t) :
    as.count (.tick c true) ≤
      headroom (s.time j) s.time (rivals N c j) + 1 +
        (s.time j + 1) * total (tickStep N img) (resets N img c j) s as := by
  have hpaid := runFrom_total_le (M := Ticks.potential N c j (s.time j))
    (I := fun s₁ => s₁.Reached N img ∧ s₁.time j = s.time j)
    (fun _ b => if b = .tick c true then 1 else 0)
    (fun s₁ b => (s.time j + 1) * resets N img c j s₁ b)
    (fun s₁ b s₂ hI hw hw' hb =>
      ⟨hI.1.step hb, ((tickStep_move hb).waits_time hI.1 hw hw').trans hI.2⟩)
    (fun s₁ b s₂ hI hw _ hb => hI.2 ▸ waits_step hb hI.1 hc hw) ⟨h, rfl⟩ hwait hrun
  rw [total_count hrun, total_mul] at hpaid
  have hone := owed_le_one (s.time j) s.time (s.cpu c).target
  calc
    as.count (.tick c true) ≤ s.potential N c j (s.time j) +
        (s.time j + 1) * total (tickStep N img) (resets N img c j) s as :=
      (Nat.le_add_right _ _).trans hpaid
    _ ≤ _ := by
      rw [Ticks.potential]
      omega

/-- Two tasks of CPU 0; the one in slot 2 has had a tick. -/
def samplePair : TaskTable := fun i =>
  { inUse := i = 0 ∨ i = 2, state := .running, utime := if i = 2 then 1 else 0 }

/-- Slot 0 gets two ticks before slot 2 is chosen. -/
def sampleSlices : List TickAction :=
  [.tick 0 false, .sched 0 .getNextProc, .sched 0 .writeTtbr0, .sched 0 .switchTo, .tick 0 true,
    .sched 0 .getNextProc, .sched 0 .writeTtbr0, .tick 0 true, .sched 0 .getNextProc]

theorem sampleSlices_waiting : ∃ t,
    runFrom (tickStep 2 sampleImage) (tickInit samplePair fun _ => 0) sampleSlices = some t ∧
      sampleSlices.count (.tick 0 true) ≤ headroom 1 (fun k => procTime (samplePair k)) (rivals 2 0 2) +
        1 + 2 * total (tickStep 2 sampleImage) (resets 2 sampleImage 0 2)
          (tickInit samplePair fun _ => 0) sampleSlices := by
  have hruns : (runFrom (tickStep 2 sampleImage) (tickInit samplePair fun _ => 0) sampleSlices).isSome =
      true := by decide +kernel
  obtain ⟨t, hrun⟩ := Option.isSome_iff_exists.1 hruns
  have htime : (tickInit samplePair fun _ => 0).time 2 = 1 := rfl
  have hbound := ticks_while_waiting (c := 0) (j := 2) (by decide) ⟨_, _, [], rfl⟩ (by decide +kernel) hrun
  rw [htime, show (tickInit samplePair fun _ => 0).time = fun k => procTime (samplePair k) from rfl,
    show 1 + 1 = 2 from rfl] at hbound
  exact ⟨t, hrun, hbound⟩

/-! ## The lag -/

/-- Task `i` is charged for the kernel. -/
def kernelTick (c i : Nat) (s : Ticks) (a : TickAction) : Nat :=
  if a = .tick c false ∧ (s.cpu c).current = some i then 1 else 0

/-- The CPU is on its swapper, or goes on with task `i` without another call of `get_next_proc`. -/
def MayRun (c i : Nat) (s : Ticks) : Prop :=
  (s.cpu c).target = some none ∨ (s.cpu c).target = some (some i)

/-- At most one tick more than `n`, and none before the tick comes. -/
def Lag (N : Nat) (img : KernelImage) (c i B n : Nat) (s : Ticks) : Prop :=
  s.Reached N img ∧ B ≤ n ∧ s.time i ≤ n + 1 ∧ (MayRun c i s → s.time i ≤ n)

/-- One task of the CPU is charged. -/
theorem lag_charged {user : Bool} {B n k : Nat} (hm : TickMove N img s (.tick c user) s')
    (hs' : s'.Reached N img) (hk : (s.cpu c).current = some k) (hlag : Lag N img c i B n s) :
    Lag N img c i B (n + kernelTick c i s (.tick c user)) s' := by
  obtain ⟨hself, hothers, huser, hkernel⟩ := hm.charged hk
  obtain ⟨-, hB, hle, hmay⟩ := hlag
  have hup : s'.time k ≤ s.time k + 1 := by omega
  cases user with
  | true =>
      have hgain : kernelTick c i s (.tick c true) = 0 := if_neg fun hg => by cases hg.1
      have hnot : ¬MayRun c i s' := by
        rw [MayRun, (huser rfl).2]
        simp
      rw [hgain]
      refine ⟨hs', hB, ?_, fun hrun => absurd hrun hnot⟩
      by_cases hik : i = k
      · have := hmay (Or.inr (by rw [(huser rfl).1, hik]))
        rw [hik] at this ⊢
        omega
      · rw [hothers i hik]
        exact hle
  | false =>
      have hsame : MayRun c i s' ↔ MayRun c i s := by rw [MayRun, MayRun, hkernel rfl]
      by_cases hik : i = k
      · have hgain : kernelTick c i s (.tick c false) = 1 := if_pos ⟨rfl, hik ▸ hk⟩
        rw [← hik] at hup
        rw [hgain]
        refine ⟨hs', by omega, by omega, fun hrun => ?_⟩
        have := hmay (hsame.1 hrun)
        omega
      · refine ⟨hs', by omega, ?_, fun hrun => ?_⟩
        · rw [hothers i hik]
          omega
        · have := hmay (hsame.1 hrun)
          rw [hothers i hik]
          omega

/-- No task of the CPU is charged. -/
theorem lag_uncharged {B n k : Nat} (hm : TickMove N img s a s') (h : s'.Reached N img) (hc : c < N)
    (hi : OfClass N c i) (hk : ReadyOf N s.tasks c k) (hB : s.time k ≤ B)
    (hnot : ∀ user x, a = .tick c user → (s.cpu c).current ≠ some x) (hlag : Lag N img c i B n s) :
    Lag N img c i B n s' := by
  obtain ⟨hs, hBn, hle, hmay⟩ := hlag
  have htime : s'.time i ≤ s.time i := by
    rcases hm.uncharged hs hi fun user ha => hnot user i ha with heq | hclear
    · exact Nat.le_of_eq heq
    · rw [time_of_cleared hclear]
      exact Nat.zero_le _
  refine ⟨h, hBn, htime.trans hle, fun hrun => htime.trans ?_⟩
  rcases hm.target hs.oneCall c with heq | heq | heq | heq
  · exact hmay (by rwa [MayRun, heq] at hrun)
  · rw [MayRun, heq] at hrun
    simp at hrun
  · -- task `i` has just been chosen, and slot `k` not
    obtain ⟨b, hb, -, hleast⟩ := getNextProc_of_ready hc hk
    rw [MayRun, heq, hb] at hrun
    rcases hrun with hrun | hrun
    · cases hrun
    · obtain rfl := Option.some.inj (Option.some.inj hrun)
      exact (hleast.trans hB).trans hBn
  · exact hmay (Or.inl heq)

/-- While one slot of a CPU is ready and its time is at most `B`, no task of the CPU gets further than
one tick beyond `B`, or beyond what it has had before, but for the ticks that it is charged for the
kernel. -/
theorem lag_bound {as : List TickAction} {B k : Nat} (hc : c < N) (h : s.Reached N img)
    (hi : OfClass N c i)
    (hready : Always (tickStep N img) (fun s => ReadyOf N s.tasks c k ∧ s.time k ≤ B) s as)
    (hrun : runFrom (tickStep N img) s as = some t) :
    t.time i ≤ max (s.time i) B + total (tickStep N img) (kernelTick c i) s as + 1 := by
  have hstart : Lag N img c i B (max (s.time i) B) s :=
    ⟨h, Nat.le_max_right .., Nat.le_succ_of_le (Nat.le_max_left ..), fun _ => Nat.le_max_left ..⟩
  refine (runFrom_total (I := Lag N img c i B) (kernelTick c i) (fun n s₁ a s₂ hlag hw _ hs => ?_)
    hstart hready hrun).2.2.1
  have hm := tickStep_move hs
  have hs₂ : s₂.Reached N img := hlag.1.step hs
  by_cases hcharged : ∃ user x, a = .tick c user ∧ (s₁.cpu c).current = some x
  · obtain ⟨user, x, rfl, hx⟩ := hcharged
    exact lag_charged hm hs₂ hx hlag
  · have hnot : ∀ user x, a = .tick c user → (s₁.cpu c).current ≠ some x := fun user x ha hx =>
      hcharged ⟨user, x, ha, hx⟩
    have hgain : kernelTick c i s₁ a = 0 := if_neg fun hg => hnot false i hg.1 hg.2
    rw [hgain]
    exact lag_uncharged hm hs₂ hc hi hw.1 hw.2 hnot hlag

/-- Slot 0 gets one tick further than slot 2 is. -/
theorem sampleSlices_lag : ∃ t,
    runFrom (tickStep 2 sampleImage) (tickInit samplePair fun _ => 0) sampleSlices = some t ∧
      t.time 0 ≤ max 0 1 + total (tickStep 2 sampleImage) (kernelTick 0 0)
        (tickInit samplePair fun _ => 0) sampleSlices + 1 := by
  have hruns : (runFrom (tickStep 2 sampleImage) (tickInit samplePair fun _ => 0) sampleSlices).isSome =
      true := by decide +kernel
  obtain ⟨t, hrun⟩ := Option.isSome_iff_exists.1 hruns
  have htime : (tickInit samplePair fun _ => 0).time 0 = 0 := rfl
  have hbound := lag_bound (c := 0) (i := 0) (k := 2) (B := 1) (by decide) ⟨_, _, [], rfl⟩ (by decide)
    (by decide +kernel) hrun
  rw [htime] at hbound
  exact ⟨t, hrun, hbound⟩

/-! ## Idle CPUs -/

/-- As long as some slot of a CPU is ready at any time, not always the same one, the CPU does not switch
to its swapper, unless it has chosen to before. -/
theorem busy_while_ready {as : List TickAction} (hc : c < N) (h : s.Reached N img)
    (hbusy : (s.cpu c).target ≠ some none)
    (hready : Always (tickStep N img) (fun s => ∃ k, ReadyOf N s.tasks c k) s as)
    (hrun : runFrom (tickStep N img) s as = some t) :
    (t.cpu c).target ≠ some none ∧ (t.cpu c).current ≠ none := by
  have hend := runFrom_total (fun _ _ => 0) (n := 0)
    (I := fun _ s => s.Reached N img ∧ (s.cpu c).target ≠ some none)
    (fun _ s₁ a s₂ hI hw _ hs => by
      refine ⟨hI.1.step hs, fun hidle => ?_⟩
      rcases (tickStep_move hs).target hI.1.oneCall c with heq | heq | heq | heq
      · exact hI.2 (heq ▸ hidle)
      · rw [heq] at hidle
        cases hidle
      · obtain ⟨k, hk⟩ := hw
        obtain ⟨b, hb, -, -⟩ := getNextProc_of_ready hc hk
        rw [heq, hb] at hidle
        cases hidle
      · exact hI.2 heq) ⟨h, hbusy⟩ hready hrun
  exact ⟨hend.2, fun hnone => hend.2 (target_of_none hnone)⟩

/-- CPU 0 has left its swapper, and its tasks share it. -/
theorem sampleSlices_busy : ∃ s t,
    runFrom (tickStep 2 sampleImage) (tickInit samplePair fun _ => 0) (sampleSlices.take 4) = some s ∧
      runFrom (tickStep 2 sampleImage) s (sampleSlices.drop 4) = some t ∧ (t.cpu 0).current ≠ none := by
  have hstart : ∃ s,
      runFrom (tickStep 2 sampleImage) (tickInit samplePair fun _ => 0) (sampleSlices.take 4) = some s ∧
        (s.cpu 0).target ≠ some none ∧
        (runFrom (tickStep 2 sampleImage) s (sampleSlices.drop 4)).isSome ∧
        Always (tickStep 2 sampleImage) (fun s => ReadyOf 2 s.tasks 0 2) s (sampleSlices.drop 4) :=
    ⟨_, rfl, by decide +kernel, by decide +kernel, by decide +kernel⟩
  obtain ⟨s, hs, htarget, hruns, hready⟩ := hstart
  obtain ⟨t, hrun⟩ := Option.isSome_iff_exists.1 hruns
  have hsome : Always (tickStep 2 sampleImage) (fun s => ∃ k, ReadyOf 2 s.tasks 0 k) s
      (sampleSlices.drop 4) := fun bs t hbs hbrun => ⟨2, hready bs t hbs hbrun⟩
  exact ⟨s, t, hs, hrun, (busy_while_ready (by decide) ⟨_, _, _, hs⟩ htarget hsome hrun).2⟩

end Kernel
end ToutOS
