import ToutOS.Base.FirstMin
import ToutOS.Base.Relate
import ToutOS.Kernel.Slots

/-!
# Scheduler — which task a CPU runs

* `getNextProc` — `get_next_proc`; `OfClass`, `ReadyOf` are the slots that a CPU looks at, and those of
  them that are ready, and `getNextProc_firstMin` is what it finds among them.
* `SchedCpu`, `SchedCpu.step` — the calls of `schedule` on one CPU, in pieces.  The timer interrupt calls
  `schedule` on the swapper with interrupts enabled, so the swapper may be in any number of calls, each
  with a choice of its own; `SchedMove` lists what a step can do.  Every machine of this development
  whose CPUs schedule takes these steps.
* `Sched`, `SchedAction`, `schedStep` — choices and switches of all CPUs, while the task table changes in
  any way; what a CPU switches to is any choice that it has made before.
* `schedRun_classes` — no task is ever current on two CPUs.
* `CpusSched.move` — the steps of `SchedCpu` are such runs.
-/

namespace ToutOS
namespace Kernel

open Base

/-! ## `get_next_proc` -/

/-- `stime + utime`. -/
def procTime (t : TaskStruct) : Nat := (t.stime + t.utime) % 2 ^ 64

/-- The loop of `get_next_proc` from slot `i` on, every `N`-th slot; `best` is `min_time_index`. -/
def getNextProcLoop (N : Nat) (tasks : TaskTable) : Nat → Nat → Option Nat → Option Nat
  | 0, _, best => best
  | left + 1, i, best =>
      if i < maxNumProcesses then
        getNextProcLoop N tasks left (i + N)
          (if isTaskReady (tasks i) then
            match best with
            | none => some i
            | some b => if procTime (tasks i) < procTime (tasks b) then some i else some b
          else best)
      else best

/-- `get_next_proc` on CPU `c`. -/
def getNextProc (N : Nat) (tasks : TaskTable) (c : Nat) : Option Nat :=
  getNextProcLoop N tasks maxNumProcesses c none

variable {N : Nat} {tasks : TaskTable} {c i j : Nat}

/-! ## The choice -/

/-- The slots of CPU `c`. -/
def OfClass (N c i : Nat) : Prop := i < maxNumProcesses ∧ i % N = c

/-- The slots of CPU `c` that are ready. -/
def ReadyOf (N : Nat) (tasks : TaskTable) (c i : Nat) : Prop :=
  OfClass N c i ∧ isTaskReady (tasks i) = true

instance : Decidable (OfClass N c i) := inferInstanceAs (Decidable (_ ∧ _))

instance : Decidable (ReadyOf N tasks c i) := inferInstanceAs (Decidable (_ ∧ _))

/-- The loop skips no slot of its class. -/
theorem eq_of_mod_eq (h : j % N = i % N) (hle : i ≤ j) (hlt : j < i + N) : j = i := by
  have hmod : (j - i) % N = 0 := Nat.sub_mod_eq_zero_of_mod_eq h
  rw [Nat.mod_eq_of_lt (by omega)] at hmod
  omega

/-- The ready slots before `i + N` are those before `i`, and slot `i`. -/
theorem readyOf_before (hi : i % N = c) (hlt : i < maxNumProcesses) (hN : 0 < N) :
    (j < i + N ∧ ReadyOf N tasks c j) ↔
      (j < i ∧ ReadyOf N tasks c j) ∨ (isTaskReady (tasks i) = true ∧ j = i) := by
  constructor
  · rintro ⟨hj, hready⟩
    by_cases hji : j < i
    · exact Or.inl ⟨hji, hready⟩
    · obtain rfl := eq_of_mod_eq (hready.1.2.trans hi.symm) (Nat.le_of_not_lt hji) hj
      exact Or.inr ⟨hready.2, rfl⟩
  · rintro (⟨hj, hready⟩ | ⟨hready, rfl⟩)
    · exact ⟨by omega, hready⟩
    · exact ⟨by omega, ⟨hlt, hi⟩, hready⟩

theorem getNextProcLoop_succ (left : Nat) (best : Option Nat) :
    getNextProcLoop N tasks (left + 1) i best =
      if i < maxNumProcesses then
        getNextProcLoop N tasks left (i + N)
          (if isTaskReady (tasks i) then better (fun j => procTime (tasks j)) i best else best)
      else best := by
  cases best with
  | none => rfl
  | some b => rfl

/-- The loop, from what it has found among the slots before `i`. -/
theorem getNextProcLoop_firstMin (hN : 0 < N) (left : Nat) :
    ∀ {i : Nat} {best : Option Nat}, i % N = c → maxNumProcesses ≤ i + left * N →
      FirstMinOf (fun j => j < i ∧ ReadyOf N tasks c j) (fun j => procTime (tasks j)) best →
      FirstMinOf (ReadyOf N tasks c) (fun j => procTime (tasks j))
        (getNextProcLoop N tasks left i best) := by
  -- behind the last slot everything has been looked at
  have hend : ∀ {i : Nat} {best : Option Nat}, maxNumProcesses ≤ i →
      FirstMinOf (fun j => j < i ∧ ReadyOf N tasks c j) (fun j => procTime (tasks j)) best →
      FirstMinOf (ReadyOf N tasks c) (fun j => procTime (tasks j)) best := by
    intro i best hi h
    exact h.congr fun j => ⟨And.right, fun hj => ⟨Nat.lt_of_lt_of_le hj.1.1 hi, hj⟩⟩
  induction left with
  | zero =>
      intro i best _ hfuel h
      exact hend (by omega) h
  | succ left ih =>
      intro i best hi hfuel h
      rw [getNextProcLoop_succ]
      by_cases hlt : i < maxNumProcesses
      · rw [if_pos hlt]
        refine ih (by rw [Nat.add_mod_right, hi]) (by rw [Nat.succ_mul] at hfuel; omega) ?_
        by_cases hready : isTaskReady (tasks i) = true
        · rw [if_pos hready]
          refine (h.extend fun j hj => hj.1).congr fun j => ?_
          rw [readyOf_before hi hlt hN, and_iff_right hready]
        · rw [if_neg hready]
          refine h.congr fun j => ?_
          rw [readyOf_before hi hlt hN, or_iff_left fun hj => hready hj.1]
      · rw [if_neg hlt]
        exact hend (Nat.le_of_not_lt hlt) h

/-- `get_next_proc` finds the ready slot of the CPU with the least time, the first of several. -/
theorem getNextProc_firstMin (tasks : TaskTable) (hc : c < N) :
    FirstMinOf (ReadyOf N tasks c) (fun j => procTime (tasks j)) (getNextProc N tasks c) := by
  have hN : 0 < N := Nat.zero_lt_of_lt hc
  refine getNextProcLoop_firstMin hN maxNumProcesses (Nat.mod_eq_of_lt hc) ?_ ?_
  · have := Nat.le_mul_of_pos_right maxNumProcesses hN
    omega
  · -- no slot of the class is before slot `c`
    rintro j ⟨hj, hready⟩
    have := hready.1.2
    rw [Nat.mod_eq_of_lt (by omega)] at this
    omega

/-- `get_next_proc` chooses a slot of its CPU that is ready. -/
theorem getNextProc_ready (hc : c < N) (h : getNextProc N tasks c = some j) : ReadyOf N tasks c j :=
  ((getNextProc_firstMin tasks hc).eq_some_iff.1 h).mem

/-! ## `schedule` on one CPU -/

/-- A call of `schedule` that has not come back yet. -/
inductive SchedCall
  /-- Before `get_next_proc`. -/
  | enter
  /-- `get_next_proc` has returned; `none` stands for the swapper of the CPU. -/
  | chosen (next : Option Nat)
  /-- `prev` is not `next`, and `TTBR0_EL1` has been written: about to call `cpu_switch_to`. -/
  | loaded (next : Option Nat)
  deriving DecidableEq, Repr

/-- What the call has chosen. -/
def SchedCall.next : SchedCall → Option (Option Nat)
  | .enter => none
  | .chosen next => some next
  | .loaded next => some next

structure SchedCpu where
  /-- The slot of `current`, `none` for the swapper of the CPU. -/
  current : Option Nat := none
  /-- The calls of `schedule` that the threads of the CPU are in, the innermost first. -/
  calls : Option Nat → List SchedCall := fun _ => []

/-- The calls that the current thread is in. -/
def SchedCpu.top (cpu : SchedCpu) : List SchedCall := cpu.calls cpu.current

/-- The current thread is in other calls. -/
def SchedCpu.setTop (cpu : SchedCpu) (calls : List SchedCall) : SchedCpu :=
  { cpu with calls := Function.update cpu.calls cpu.current calls }

@[simp] theorem setTop_current (cpu : SchedCpu) (calls : List SchedCall) :
    (cpu.setTop calls).current = cpu.current := rfl

@[simp] theorem setTop_top (cpu : SchedCpu) (calls : List SchedCall) : (cpu.setTop calls).top = calls :=
  Function.update_self ..

theorem setTop_calls_of_ne {cpu : SchedCpu} {calls : List SchedCall} {x : Option Nat}
    (hx : x ≠ cpu.current) : (cpu.setTop calls).calls x = cpu.calls x :=
  Function.update_of_ne hx ..

theorem mem_setTop {cpu : SchedCpu} {calls : List SchedCall} {x : Option Nat} {call : SchedCall}
    (h : call ∈ (cpu.setTop calls).calls x) : call ∈ calls ∨ call ∈ cpu.calls x := by
  by_cases hx : x = cpu.current
  · subst hx
    exact Or.inl (setTop_top cpu calls ▸ h)
  · exact Or.inr (setTop_calls_of_ne hx ▸ h)

/-- The task that the innermost call has chosen. -/
def SchedCpu.nextTask (cpu : SchedCpu) : Option Nat := cpu.top.head?.bind fun call => call.next.join

/-- What the current thread does next in `schedule`. -/
inductive SchedEvent
  /-- It calls `schedule`, or a timer interrupt does. -/
  | schedule
  /-- `get_next_proc`. -/
  | getNextProc
  /-- `prev` is compared with `next`, and `TTBR0_EL1` is written for `next`. -/
  | writeTtbr0
  /-- `cpu_switch_to`. -/
  | switchTo
  deriving DecidableEq, Repr

/-- One step of `schedule`; `choice` is what `get_next_proc` returns.  A task calls `schedule` when it is
in no call of it; `irq_handler` calls it for the swapper wherever this one has been interrupted, in
`schedule` as well. -/
def SchedCpu.step (cpu : SchedCpu) (choice : Option Nat) : SchedEvent → Option SchedCpu
  | .schedule =>
      if cpu.current = none ∨ cpu.top = [] then some (cpu.setTop (.enter :: cpu.top)) else none
  | .getNextProc =>
      match cpu.top with
      | .enter :: calls => some (cpu.setTop (.chosen choice :: calls))
      | _ => none
  | .writeTtbr0 =>
      match cpu.top with
      | .chosen next :: calls =>
          some (cpu.setTop (if next = cpu.current then calls else .loaded next :: calls))
      | _ => none
  | .switchTo =>
      match cpu.top with
      | .loaded next :: calls => some { cpu.setTop calls with current := next }
      | _ => none

/-- The guard of each step and the state that it leads to. -/
inductive SchedMove (cpu : SchedCpu) (choice : Option Nat) : SchedEvent → SchedCpu → Prop where
  | schedule (h : cpu.current = none ∨ cpu.top = []) :
      SchedMove cpu choice .schedule (cpu.setTop (.enter :: cpu.top))
  | getNextProc {calls : List SchedCall} (htop : cpu.top = .enter :: calls) :
      SchedMove cpu choice .getNextProc (cpu.setTop (.chosen choice :: calls))
  /-- `prev` is `next`: the call comes back. -/
  | stay {calls : List SchedCall} (htop : cpu.top = .chosen cpu.current :: calls) :
      SchedMove cpu choice .writeTtbr0 (cpu.setTop calls)
  | load {next : Option Nat} {calls : List SchedCall} (htop : cpu.top = .chosen next :: calls)
      (hne : next ≠ cpu.current) : SchedMove cpu choice .writeTtbr0 (cpu.setTop (.loaded next :: calls))
  | switchTo {next : Option Nat} {calls : List SchedCall} (htop : cpu.top = .loaded next :: calls) :
      SchedMove cpu choice .switchTo { cpu.setTop calls with current := next }

theorem SchedCpu.step_move {cpu cpu' : SchedCpu} {choice : Option Nat} {e : SchedEvent}
    (h : cpu.step choice e = some cpu') : SchedMove cpu choice e cpu' := by
  cases e with
  | schedule =>
      simp only [SchedCpu.step] at h
      split_ifs at h with hg
      cases h
      exact .schedule hg
  | getNextProc =>
      simp only [SchedCpu.step] at h
      split at h
      · next calls htop =>
          cases h
          exact .getNextProc htop
      · cases h
  | writeTtbr0 =>
      simp only [SchedCpu.step] at h
      split at h
      · next next calls htop =>
          cases h
          by_cases hnext : next = cpu.current
          · subst hnext
            rw [if_pos rfl]
            exact .stay htop
          · rw [if_neg hnext]
            exact .load htop hnext
      · cases h
  | switchTo =>
      simp only [SchedCpu.step] at h
      split at h
      · next next calls htop =>
          cases h
          exact .switchTo htop
      · cases h

/-- Every choice is an old one, or what `get_next_proc` has just returned. -/
theorem SchedMove.next {cpu cpu' : SchedCpu} {choice : Option Nat} {e : SchedEvent}
    (h : SchedMove cpu choice e cpu') {x next : Option Nat} {call : SchedCall}
    (hcall : call ∈ cpu'.calls x) (hnext : call.next = some next) :
    (∃ y, ∃ old ∈ cpu.calls y, old.next = some next) ∨ (e = .getNextProc ∧ next = choice) := by
  -- a call that was there before
  have hold : ∀ {old : SchedCall} (y), old ∈ cpu.calls y → old.next = some next →
      (∃ y, ∃ old ∈ cpu.calls y, old.next = some next) ∨ (e = .getNextProc ∧ next = choice) :=
    fun y hy heq => Or.inl ⟨y, _, hy, heq⟩
  cases h with
  | schedule hg =>
      rcases mem_setTop hcall with hnew | hmem
      · rcases List.mem_cons.1 hnew with rfl | htop
        · cases hnext
        · exact hold _ htop hnext
      · exact hold x hmem hnext
  | getNextProc htop =>
      rcases mem_setTop hcall with hnew | hmem
      · rcases List.mem_cons.1 hnew with rfl | hrest
        · exact Or.inr ⟨rfl, (Option.some.inj hnext).symm⟩
        · exact hold _ (htop ▸ List.mem_cons_of_mem _ hrest : call ∈ cpu.top) hnext
      · exact hold x hmem hnext
  | stay htop =>
      rcases mem_setTop hcall with hrest | hmem
      · exact hold _ (htop ▸ List.mem_cons_of_mem _ hrest : call ∈ cpu.top) hnext
      · exact hold x hmem hnext
  | @load later calls htop hne =>
      rcases mem_setTop hcall with hnew | hmem
      · rcases List.mem_cons.1 hnew with rfl | hrest
        · exact hold _ (htop ▸ List.mem_cons_self : .chosen later ∈ cpu.top) hnext
        · exact hold _ (htop ▸ List.mem_cons_of_mem _ hrest : call ∈ cpu.top) hnext
      · exact hold x hmem hnext
  | switchTo htop =>
      rcases mem_setTop hcall with hrest | hmem
      · exact hold _ (htop ▸ List.mem_cons_of_mem _ hrest : call ∈ cpu.top) hnext
      · exact hold x hmem hnext

/-- A task is in one call of `schedule` at most, and in none while it is not current. -/
structure OneCall (cpu : SchedCpu) : Prop where
  suspended : ∀ i, cpu.current ≠ some i → cpu.calls (some i) = []
  single : ∀ i, (cpu.calls (some i)).length ≤ 1

/-- The call that a task is in is its only one. -/
theorem OneCall.top {cpu : SchedCpu} {call : SchedCall} {calls : List SchedCall} (h : OneCall cpu)
    (htop : cpu.top = call :: calls) (hi : cpu.current = some i) : calls = [] := by
  have hlen := h.single i
  rw [← hi, ← SchedCpu.top, htop, List.length_cons] at hlen
  exact List.length_eq_zero_iff.1 (by omega)

theorem OneCall.setTop {cpu : SchedCpu} {calls : List SchedCall} (h : OneCall cpu)
    (hcalls : ∀ i, cpu.current = some i → calls.length ≤ 1) : OneCall (cpu.setTop calls) := by
  refine ⟨fun i hi => ?_, fun i => ?_⟩
  · have hne : some i ≠ cpu.current := Ne.symm hi
    rw [setTop_calls_of_ne hne, h.suspended i hi]
  · by_cases hi : some i = cpu.current
    · have htop : (cpu.setTop calls).calls (some i) = calls := hi ▸ setTop_top cpu calls
      rw [htop]
      exact hcalls i hi.symm
    · rw [setTop_calls_of_ne hi]
      exact h.single i

/-- A task that is switched to is in no call any more: it was not current, or leaves its only call. -/
theorem OneCall.switchTo_top {cpu : SchedCpu} {call : SchedCall} {calls : List SchedCall} (h : OneCall cpu)
    (htop : cpu.top = call :: calls) (j : Nat) :
    SchedCpu.top { cpu.setTop calls with current := some j } = [] := by
  by_cases hj : cpu.current = some j
  · calc
      (cpu.setTop calls).calls (some j) = calls := hj ▸ setTop_top cpu calls
      _ = [] := h.top htop hj
  · calc
      (cpu.setTop calls).calls (some j) = cpu.calls (some j) := setTop_calls_of_ne (Ne.symm hj)
      _ = [] := h.suspended j hj

theorem OneCall.switchTo {cpu : SchedCpu} {call : SchedCall} {calls : List SchedCall} (h : OneCall cpu)
    (htop : cpu.top = call :: calls) (next : Option Nat) :
    OneCall { cpu.setTop calls with current := next } := by
  have hset : OneCall (cpu.setTop calls) := h.setTop fun i hi => by simp [h.top htop hi]
  exact ⟨fun i _ => h.switchTo_top htop i, hset.single⟩

theorem SchedMove.oneCall {cpu cpu' : SchedCpu} {choice : Option Nat} {e : SchedEvent}
    (hm : SchedMove cpu choice e cpu') (h : OneCall cpu) : OneCall cpu' := by
  cases hm with
  | schedule hg =>
      refine h.setTop fun i hi => ?_
      have htop : cpu.top = [] := hg.resolve_left (by rw [hi]; exact Option.some_ne_none i)
      rw [htop, List.length_singleton]
  | getNextProc htop => exact h.setTop fun i hi => by rw [h.top htop hi, List.length_singleton]
  | stay htop => exact h.setTop fun i hi => by simp [h.top htop hi]
  | load htop hne => exact h.setTop fun i hi => by rw [h.top htop hi, List.length_singleton]
  | switchTo htop => exact h.switchTo htop _

/-! ## Runs -/

structure Sched where
  tasks : TaskTable
  /-- The slot of the task that is current on a CPU, `none` for its swapper. -/
  current : Nat → Option Nat := fun _ => none
  /-- History: the choices that a CPU has made, `none` for its swapper. -/
  chosen : Nat → List (Option Nat) := fun _ => []

inductive SchedAction
  /-- Anything else that happens to the task table. -/
  | change (tasks : TaskTable)
  /-- `schedule` on CPU `c` calls `get_next_proc`. -/
  | getNextProc (c : Nat)
  /-- `schedule` on CPU `c` goes on with a choice. -/
  | switchTo (c : Nat) (next : Option Nat)

/-- One step on a machine with `N` CPUs. -/
def schedStep (N : Nat) (s : Sched) : SchedAction → Option Sched
  | .change tasks => some { s with tasks := tasks }
  | .getNextProc c =>
      if c < N then
        some { s with
          chosen := Function.update s.chosen c (getNextProc N s.tasks c :: s.chosen c) }
      else none
  | .switchTo c next =>
      if c < N ∧ next ∈ s.chosen c then
        some { s with current := Function.update s.current c next }
      else none

/-- Every CPU is on its swapper. -/
def schedInit (tasks : TaskTable) : Sched := { tasks := tasks }

/-- A CPU has chosen, and runs, slots of its own. -/
structure SchedInv (N : Nat) (s : Sched) : Prop where
  current : ∀ c i, s.current c = some i → OfClass N c i
  chosen : ∀ c i, some i ∈ s.chosen c → OfClass N c i

theorem schedInit_inv (N : Nat) (tasks : TaskTable) : SchedInv N (schedInit tasks) :=
  ⟨fun _ _ h => (Option.some_ne_none _ h.symm).elim, fun _ _ h => (List.not_mem_nil h).elim⟩

theorem SchedInv.step {s s' : Sched} {a : SchedAction} (h : SchedInv N s)
    (hs : schedStep N s a = some s') : SchedInv N s' := by
  cases a with
  | change tasks =>
      cases hs
      exact ⟨h.current, h.chosen⟩
  | getNextProc c =>
      simp only [schedStep] at hs
      split_ifs at hs with hc
      cases hs
      refine ⟨h.current, fun d i hi => ?_⟩
      by_cases hd : d = c
      · subst hd
        simp only [Function.update_self, List.mem_cons] at hi
        rcases hi with hi | hi
        · exact ((getNextProc_firstMin s.tasks hc).eq_some_iff.1 hi.symm).mem.1
        · exact h.chosen d i hi
      · simp only [Function.update_of_ne hd] at hi
        exact h.chosen d i hi
  | switchTo c next =>
      simp only [schedStep] at hs
      split_ifs at hs with hg
      cases hs
      refine ⟨fun d i hi => ?_, h.chosen⟩
      by_cases hd : d = c
      · subst hd
        simp only [Function.update_self] at hi
        exact h.chosen d i (hi ▸ hg.2)
      · simp only [Function.update_of_ne hd] at hi
        exact h.current d i hi

theorem schedRun_inv {as : List SchedAction} {s : Sched}
    (hrun : runFrom (schedStep N) (schedInit tasks) as = some s) : SchedInv N s :=
  runFrom_invariant (fun _ _ _ h hs => h.step hs) (schedInit_inv N tasks) hrun

/-- `get_next_proc` on a CPU returns `NULL` exactly if no slot of the CPU is ready, and else the
ready slot with the least time, the first of several.  After any calls of `schedule`, while anything
happens to the task table, a CPU is on its swapper or on a slot of its own, and no task is current
on two CPUs. -/
theorem schedRun_classes (N : Nat) (tasks : TaskTable) {as : List SchedAction} {s : Sched}
    (hrun : runFrom (schedStep N) (schedInit tasks) as = some s) :
    (∀ tasks c, c < N → (getNextProc N tasks c = none ↔ ∀ i, ¬ReadyOf N tasks c i) ∧
      ∀ b, getNextProc N tasks c = some b ↔
        FirstMin (ReadyOf N tasks c) (fun j => procTime (tasks j)) b) ∧
    (∀ c i, s.current c = some i → OfClass N c i) ∧
    ∀ c d i, s.current c = some i → s.current d = some i → c = d := by
  have hinv := schedRun_inv hrun
  refine ⟨fun tasks c hc => ?_, hinv.current, fun c d i hci hdi => ?_⟩
  · have hfirst := getNextProc_firstMin tasks hc
    exact ⟨hfirst.eq_none_iff, fun b => hfirst.eq_some_iff⟩
  · calc
      c = i % N := (hinv.current c i hci).2.symm
      _ = d := (hinv.current d i hdi).2

/-- Two CPUs; slots 0, 1 and 3 are ready, slot 1 has run for longer than slot 3. -/
def sampleReady : TaskTable := fun i =>
  { inUse := true, state := if i ∈ [0, 1, 3] then .running else .sleeping, utime := 9 - i }

/-- CPU 0 is interrupted after its choice, and both CPUs switch. -/
theorem schedRun_classes_two :
    ∃ s, runFrom (schedStep 2) (schedInit sampleReady)
        [.getNextProc 0, .getNextProc 1, .switchTo 1 (some 3), .getNextProc 0, .switchTo 0 (some 0),
          .change fun _ => {}, .switchTo 0 (some 0)] = some s ∧
      s.current 0 = some 0 ∧ s.current 1 = some 3 ∧
      ∀ c d i, s.current c = some i → s.current d = some i → c = d := by
  have hend : (runFrom (schedStep 2) (schedInit sampleReady)
      [.getNextProc 0, .getNextProc 1, .switchTo 1 (some 3), .getNextProc 0, .switchTo 0 (some 0),
        .change fun _ => {}, .switchTo 0 (some 0)]).map (fun s => (s.current 0, s.current 1)) =
      some (some 0, some 3) := by decide +kernel
  obtain ⟨s, hrun, hs⟩ := Option.map_eq_some_iff.1 hend
  simp only [Prod.mk.injEq] at hs
  exact ⟨s, hrun, hs.1, hs.2, (schedRun_classes 2 sampleReady hrun).2.2⟩


/-! ## The CPUs of a machine -/

/-- The CPUs of a machine, and a state of the scheduler's runs. -/
structure CpusSched (N : Nat) (cpu : Nat → SchedCpu) (t : Sched) : Prop where
  current : ∀ c, t.current c = (cpu c).current
  chosen : ∀ c x, ∀ call ∈ (cpu c).calls x, ∀ next, call.next = some next → c < N ∧ next ∈ t.chosen c

variable {cpus : Nat → SchedCpu} {t t' : Sched}

theorem cpusSched_init (N : Nat) (tasks : TaskTable) : CpusSched N (fun _ => {}) (schedInit tasks) :=
  ⟨fun _ => rfl, fun _ _ _ h => (List.not_mem_nil h).elim⟩

/-- One CPU changes; the scheduler has made its choices. -/
theorem CpusSched.update {cpu : SchedCpu} (h : CpusSched N cpus t)
    (hcurrent : t'.current = Function.update t.current c cpu.current)
    (hchosen : ∀ d next, next ∈ t.chosen d → next ∈ t'.chosen d)
    (hcalls : ∀ x, ∀ call ∈ cpu.calls x, ∀ next, call.next = some next →
      c < N ∧ next ∈ t'.chosen c) : CpusSched N (Function.update cpus c cpu) t' := by
  refine ⟨fun d => ?_, fun d x call hd next hnext => ?_⟩
  · rw [hcurrent]
    by_cases hdc : d = c
    · rw [hdc, Function.update_self, Function.update_self]
    · rw [Function.update_of_ne hdc, Function.update_of_ne hdc, h.current]
  · by_cases hdc : d = c
    · subst hdc
      rw [Function.update_self] at hd
      exact hcalls x call hd next hnext
    · rw [Function.update_of_ne hdc] at hd
      exact (h.chosen d x call hd next hnext).imp_right (hchosen d next)

/-- A step of one CPU is matched by steps of the scheduler's runs. -/
theorem CpusSched.move {cpu : SchedCpu} {e : SchedEvent} (h : CpusSched N cpus t) (hc : c < N)
    (hm : SchedMove (cpus c) (getNextProc N tasks c) e cpu) :
    ∃ bs t', runFrom (schedStep N) t bs = some t' ∧ CpusSched N (Function.update cpus c cpu) t' := by
  have hfound : ∀ x, ∀ call ∈ cpu.calls x, ∀ next, call.next = some next →
      (∃ y, ∃ old ∈ (cpus c).calls y, old.next = some next) ∨
        (e = .getNextProc ∧ next = getNextProc N tasks c) :=
    fun _ _ hcall _ hnext => hm.next hcall hnext
  -- a step that neither chooses nor switches
  have hstay : cpu.current = (cpus c).current → e ≠ .getNextProc →
      ∃ bs t', runFrom (schedStep N) t bs = some t' ∧ CpusSched N (Function.update cpus c cpu) t' := by
    intro hcurrent hne
    refine ⟨[], t, rfl, h.update ?_ (fun _ _ hd => hd) fun x call hcall next hnext => ?_⟩
    · rw [hcurrent, ← h.current, Function.update_eq_self]
    · rcases hfound x call hcall next hnext with ⟨y, old, hold, heq⟩ | ⟨rfl, -⟩
      · exact h.chosen c y old hold next heq
      · exact absurd rfl hne
  cases hm with
  | schedule hg => exact hstay rfl SchedEvent.noConfusion
  | @getNextProc calls htop =>
      have hrun : runFrom (schedStep N) t [.change tasks, .getNextProc c] = some
          { t with
            tasks := tasks
            chosen := Function.update t.chosen c (getNextProc N tasks c :: t.chosen c) } :=
        runFrom_cons.2 ⟨_, rfl, runFrom_cons.2 ⟨_, if_pos hc, rfl⟩⟩
      have hkeep : ∀ d next, next ∈ t.chosen d →
          next ∈ Function.update t.chosen c (getNextProc N tasks c :: t.chosen c) d := by
        intro d next hd
        by_cases hdc : d = c
        · rw [hdc] at hd ⊢
          simpa only [Function.update_self] using List.mem_cons_of_mem _ hd
        · simpa only [Function.update_of_ne hdc] using hd
      refine ⟨_, _, hrun, h.update ?_ hkeep fun x call hcall next hnext => ⟨hc, ?_⟩⟩
      · rw [setTop_current, ← h.current, Function.update_eq_self]
      · rcases hfound x call hcall next hnext with ⟨y, old, hold, heq⟩ | ⟨-, rfl⟩
        · exact hkeep c next (h.chosen c y old hold next heq).2
        · simp only [Function.update_self, List.mem_cons_self]
  | stay htop => exact hstay rfl SchedEvent.noConfusion
  | load htop hne => exact hstay rfl SchedEvent.noConfusion
  | @switchTo next calls htop =>
      have hchosen := h.chosen c _ _ (htop ▸ List.mem_cons_self : .loaded next ∈ (cpus c).top) next rfl
      have hrun : runFrom (schedStep N) t [.switchTo c next] = some
          { t with current := Function.update t.current c next } :=
        runFrom_cons.2 ⟨_, if_pos hchosen, rfl⟩
      refine ⟨_, _, hrun, h.update rfl (fun _ _ hd => hd) fun x call hcall later hlater => ?_⟩
      rcases hfound x call hcall later hlater with ⟨y, old, hold, heq⟩ | ⟨hno, -⟩
      · exact h.chosen c y old hold later heq
      · cases hno

/-- A CPU of a run runs slots of its own, and has chosen such. -/
theorem CpusSched.ofClass (h : CpusSched N cpus t) (hinv : SchedInv N t) (c : Nat) :
    (∀ i, (cpus c).current = some i → OfClass N c i) ∧
      ∀ x, ∀ call ∈ (cpus c).calls x, ∀ i, call.next = some (some i) → OfClass N c i :=
  ⟨fun i hi => hinv.current c i (by rw [h.current, hi]), fun x call hcall i hi =>
    hinv.chosen c i (h.chosen c x call hcall _ hi).2⟩

end Kernel
end ToutOS
