import ToutOS.Kernel.Break
import ToutOS.Kernel.Smp

/-!
# Ttbr — the page directory in `TTBR0_EL1`

`schedule` writes `TTBR0_EL1` only when the next task has a page directory, so the register keeps the
directory of an earlier task while kernel threads and the swapper run.

* `Machine`, `machineStep` — `N` CPUs that run the tasks; what the kernel does for the current task of
  a CPU is one step of the kernel, and `schedule` is the scheduler's.
* `DirsKept` — the directories in the registers are pages in use, of the tasks they were written for;
* `machineRun_dirsKept_iff` — they are, in exactly the runs in which no task ends whose directory is in
  a register, and no register is written with the directory of a task that has ended.
-/

namespace ToutOS
namespace Kernel

open Base Mm

variable {κ : Type} {H : KernelHeap κ} {img : KernelImage} {u : UserImage} {s s' : KernelState κ}
  {N : Nat}

/-! ## The machine -/

/-- What was last written to `TTBR0_EL1`. -/
structure Loaded where
  /-- `pg_dir`. -/
  dir : Nat
  /-- History: the slot of the task that it belonged to. -/
  slot : Nat
  /-- History: which of the occupants of the slot that was. -/
  occupant : Nat
  deriving DecidableEq, Repr

structure CpuState extends SchedCpu where
  ttbr0 : Option Loaded := none

structure Machine (κ : Type) where
  kernel : KernelState κ
  cpu : Nat → CpuState
  /-- History: how often a task has come to life in the slot. -/
  occupant : Nat → Nat

inductive MachineAction (κ : Type)
  /-- A call of the kernel, or a store, by the current task of CPU `c`. -/
  | call (c : Nat) (a : Action κ)
  /-- The current thread goes on in `schedule`. -/
  | sched (c : Nat) (e : SchedEvent)
  /-- The current task sets itself `SLEEPING`. -/
  | sleep (c : Nat)
  /-- A sleeping task is set `RUNNING`. -/
  | wake (i : Nat)
  /-- A timer interrupt. -/
  | tick (c : Nat) (user : Bool)

/-- The numbers of the occupants after a step of the kernel. -/
def nextOccupant (s s' : KernelState κ) (occupant : Nat → Nat) (i : Nat) : Nat :=
  if (s.tasks i).live = false ∧ (s'.tasks i).live = true then occupant i + 1 else occupant i

/-- `write_ttbr0_el1(__pa(pg_dir), pid)` for the task in slot `i`. -/
def writeTtbr0 (s : KernelState κ) (occupant : Nat → Nat) (i : Nat) : Loaded :=
  { dir := (s.tasks i).pgDir, slot := i, occupant := occupant i }

/-- The register after a call: `user_test` writes it when it has a directory. -/
def ttbr0After (s' : KernelState κ) (occupant : Nat → Nat) (old : Option Loaded) :
    Action κ → Option Loaded
  | .userTest i => if (s'.tasks i).pgDir ≠ 0 then some (writeTtbr0 s' occupant i) else old
  | _ => old

/-- CPU `c` after a step of `schedule`, with the calls `sched`: the register is written if a task with a
directory goes on and it is not the current one. -/
def CpuState.sched (cpu : CpuState) (s : KernelState κ) (occupant : Nat → Nat) (sched : SchedCpu) :
    SchedEvent → CpuState
  | .writeTtbr0 =>
      match cpu.nextTask with
      | none => { cpu with toSchedCpu := sched }
      | some i =>
          if some i ≠ cpu.current ∧ (s.tasks i).pgDir ≠ 0 then
            { cpu with toSchedCpu := sched, ttbr0 := some (writeTtbr0 s occupant i) }
          else { cpu with toSchedCpu := sched }
  | _ => { cpu with toSchedCpu := sched }

/-- Change a task. -/
def KernelState.setTask (s : KernelState κ) (i : Nat) (t : TaskStruct) : KernelState κ :=
  { s with tasks := Function.update s.tasks i t }

/-- A timer interrupt adds to `utime` or `stime`. -/
def addTick (user : Bool) (t : TaskStruct) : TaskStruct :=
  if user then { t with utime := (t.utime + 1) % 2 ^ 64 } else { t with stime := (t.stime + 1) % 2 ^ 64 }

/-- CPU `c` is not in `schedule`, and the call is one of its current task. -/
def Callable (N : Nat) (m : Machine κ) (c : Nat) (a : Action κ) : Prop :=
  c < N ∧ (m.cpu c).top = [] ∧ (a.task = none ∨ a.task = (m.cpu c).current)

instance (N : Nat) (m : Machine κ) (c : Nat) (a : Action κ) : Decidable (Callable N m c a) :=
  inferInstanceAs (Decidable (_ ∧ _ ∧ _))

/-- One step on a machine with `N` CPUs. -/
def machineStep (N : Nat) (H : KernelHeap κ) (img : KernelImage) (u : UserImage) (m : Machine κ) :
    MachineAction κ → Option (Machine κ)
  | .call c a =>
      if Callable N m c a then
        (step H img u m.kernel a).map fun s =>
          let occupant := nextOccupant m.kernel s m.occupant
          { kernel := s
            cpu := Function.update m.cpu c
              { m.cpu c with ttbr0 := ttbr0After s occupant (m.cpu c).ttbr0 a }
            occupant := occupant }
      else none
  | .sched c e =>
      if c < N then
        ((m.cpu c).step (getNextProc N m.kernel.tasks c) e).map fun sched =>
          { m with
            cpu := Function.update m.cpu c ((m.cpu c).sched m.kernel m.occupant sched e) }
      else none
  | .sleep c =>
      (m.cpu c).current.bind fun i =>
        if (m.kernel.tasks i).live = true then
          some { m with kernel := m.kernel.setTask i { m.kernel.tasks i with state := .sleeping } }
        else none
  | .wake i =>
      if (m.kernel.tasks i).inUse = true ∧ (m.kernel.tasks i).state = .sleeping then
        some { m with kernel := m.kernel.setTask i { m.kernel.tasks i with state := .running } }
      else none
  | .tick c user =>
      (m.cpu c).current.bind fun i =>
        if (m.kernel.tasks i).inUse = true then
          some { m with kernel := m.kernel.setTask i (addTick user (m.kernel.tasks i)) }
        else none

/-- The machine after `main` has started its threads: all CPUs run their swappers. -/
def Machine.start (s : KernelState κ) : Machine κ :=
  { kernel := s, cpu := fun _ => {}, occupant := fun _ => 0 }

/-! ## The property -/

/-- The page of the directory is in use, and it is that of the task that it was written for. -/
structure DirKept (m : Machine κ) (l : Loaded) : Prop where
  used : ∃ k < maxNumPages, l.dir = pagePoolStart + pageSize * k ∧ m.kernel.vm.pagesUsage k = true
  live : (m.kernel.tasks l.slot).live = true
  pgDir : (m.kernel.tasks l.slot).pgDir = l.dir
  occupant : m.occupant l.slot = l.occupant

/-- So it is on all CPUs. -/
def DirsKept (N : Nat) (m : Machine κ) : Prop :=
  ∀ c < N, ∀ l, (m.cpu c).ttbr0 = some l → DirKept m l

/-- The action ends task `i`: it calls `do_exit`, or it has an exception outside of its vmas. -/
def Ends (s : KernelState κ) (i : Nat) : Action κ → Prop
  | .exit j => j = i
  | .exception j addr => j = i ∧ s.vmaOf j addr = none
  | _ => False

instance (s : KernelState κ) (i : Nat) : (a : Action κ) → Decidable (Ends s i a)
  | .exit j => inferInstanceAs (Decidable (j = i))
  | .exception _ _ => inferInstanceAs (Decidable (_ ∧ _))
  | .userTest _ => isFalse id
  | .fork _ _ => isFalse id
  | .brk _ _ _ => isFalse id
  | .userStore _ _ _ => isFalse id
  | .kmallocUse _ => isFalse id

/-- No task ends whose directory is in the register of a CPU. -/
def EndsUnloaded (N : Nat) (m : Machine κ) : MachineAction κ → Prop
  | .call c a => Callable N m c a → Enabled m.kernel a →
      ∀ d < N, ∀ l ∈ (m.cpu d).ttbr0, ¬Ends m.kernel l.slot a
  | _ => True

instance (N : Nat) (m : Machine κ) : (a : MachineAction κ) → Decidable (EndsUnloaded N m a)
  | .call c a => inferInstanceAs (Decidable (Callable N m c a → Enabled m.kernel a →
      ∀ d < N, ∀ l ∈ (m.cpu d).ttbr0, ¬Ends m.kernel l.slot a))
  | .sched .. | .sleep _ | .wake _ | .tick .. => isTrue trivial

/-- No call of `schedule` writes the directory of a task that has ended since it was chosen: a swapper
may have been interrupted in between, and the task may have run. -/
def LoadsLive (N : Nat) (m : Machine κ) : MachineAction κ → Prop
  | .sched c .writeTtbr0 => c < N → ∀ i ∈ (m.cpu c).nextTask,
      (m.cpu c).top.head? = some (.chosen (some i)) → some i ≠ (m.cpu c).current →
        (m.kernel.tasks i).pgDir ≠ 0 → (m.kernel.tasks i).live = true
  | _ => True

instance (N : Nat) (m : Machine κ) : (a : MachineAction κ) → Decidable (LoadsLive N m a)
  | .sched c .writeTtbr0 => inferInstanceAs (Decidable (c < N → ∀ i ∈ (m.cpu c).nextTask,
      (m.cpu c).top.head? = some (.chosen (some i)) → some i ≠ (m.cpu c).current →
        (m.kernel.tasks i).pgDir ≠ 0 → (m.kernel.tasks i).live = true))
  | .sched _ .schedule | .sched _ .getNextProc | .sched _ .switchTo => isTrue trivial
  | .call .. | .sleep _ | .wake _ | .tick .. => isTrue trivial

/-! ## Steps of the kernel -/

theorem setMm_live (s : KernelState κ) (i k : Nat) (r : MmStruct × VmState κ) :
    ((setMm s i r).tasks k).live = (s.tasks k).live ∧
      ((setMm s i r).tasks k).pgDir = (s.tasks k).pgDir := by
  by_cases hk : k = i
  · subst hk
    have htask : (setMm s k r).tasks k = { s.tasks k with mm := some r.1 } := Function.update_self ..
    rw [htask]
    exact ⟨rfl, rfl⟩
  · have htask : (setMm s i r).tasks k = s.tasks k := Function.update_of_ne hk ..
    rw [htask]
    exact ⟨rfl, rfl⟩

/-- A task goes on with its directory in every step that neither ends it nor gives it one. -/
theorem step_keeps {a : Action κ} {k : Nat} (h : Invariant img u s) (hk : (s.tasks k).live = true)
    (huser : a ≠ .userTest k) (hends : ¬Ends s k a) (ha : step H img u s a = some s') :
    (s'.tasks k).live = true ∧ (s'.tasks k).pgDir = (s.tasks k).pgDir := by
  obtain ⟨henabled, hexec⟩ := step_eq ha
  have hsame : s'.tasks k = s.tasks k →
      (s'.tasks k).live = true ∧ (s'.tasks k).pgDir = (s.tasks k).pgDir := fun heq => by
    rw [heq]
    exact ⟨hk, rfl⟩
  -- the step of a task leaves the others alone
  have hother : ∀ j, StepOf img u j s s' → k ≠ j →
      (s'.tasks k).live = true ∧ (s'.tasks k).pgDir = (s.tasks k).pgDir := by
    intro j hs hkj
    rcases hs.others k hkj with heq | ⟨-, hno⟩
    · exact hsame heq
    · rw [hk] at hno
      cases hno
  cases a with
  | userTest i =>
      rcases userTest_spec (H := H) h henabled.1 henabled.2.1 henabled.2.2 with
        herr | herr | ⟨t, hok, hstep, -⟩
      · rw [exec, herr] at hexec
        cases hexec
      · rw [exec, herr] at hexec
        cases hexec
      · rw [exec, hok] at hexec
        obtain rfl := Except.ok.inj hexec
        exact hother i hstep fun hki => huser (by rw [hki])
  | fork i regs =>
      obtain ⟨⟨t, slot⟩, hok, rfl⟩ := except_map_eq_ok.1 hexec
      rcases sysFork_spec (H := H) h henabled.1 henabled.2 with
        herr | herr | ⟨slot', t', hok', hfailed⟩ | ⟨c, d, parent, cm, t', hok', -, hforked⟩
      · rw [hok] at herr
        cases herr
      · rw [hok] at herr
        cases herr
      · rw [hok] at hok'
        cases hok'
        exact hsame (hfailed.slots.not_live hk).2
      · rw [hok] at hok'
        cases hok'
        exact hsame (hforked.slots.not_live hk).2
  | brk i regs addr =>
      obtain ⟨mm, mm', vm₁, vm', hb⟩ := brk_cases h henabled.1 henabled.2.1 henabled.2.2 hexec
      by_cases hki : k = i
      · subst hki
        rw [hb.tasks, Function.update_self]
        exact ⟨hk, rfl⟩
      · refine hsame ?_
        rw [hb.tasks, Function.update_of_ne hki]
  | exception i addr =>
      have hstep := exception_step (H := H) h henabled.1 addr
      rw [show doEl0Sync H i addr s = _ from hexec] at hstep
      by_cases hki : k = i
      · subst hki
        -- the address lies in a vma, so the task does not end
        obtain ⟨mm, hmm, -⟩ := (h.tasks k).process henabled.1.1 henabled.1.2
        have hfind : findVma mm.mmap addr ≠ none := fun hno => hends ⟨rfl, by
          rw [KernelState.vmaOf, hmm, Option.bind_some, hno]⟩
        have hok : doEl0Sync H k addr s = .ok s' := hexec
        simp only [doEl0Sync, hmm, if_neg hfind] at hok
        obtain ⟨r, -, rfl⟩ := except_map_eq_ok.1 hok
        obtain ⟨hlive, hdir⟩ := setMm_live s k k r
        exact ⟨hlive.trans hk, hdir⟩
      · exact hother i hstep.stepOf hki
  | exit i =>
      obtain ⟨t, hexit, hstep, -⟩ := exit_step (H := H) h henabled
      rw [exec, hexit] at hexec
      obtain rfl := Except.ok.inj hexec
      exact hother i hstep fun hki => hends hki.symm
  | userStore i virtAddr b =>
      obtain rfl := Except.ok.inj hexec
      exact hsame rfl
  | kmallocUse heap =>
      obtain rfl := Except.ok.inj hexec
      exact hsame rfl

/-- A step that ends a task can be taken, and the task has ended. -/
theorem step_ends {a : Action κ} {k : Nat} (h : Invariant img u s) (henabled : Enabled s a)
    (hends : Ends s k a) : ∃ s', step H img u s a = some s' ∧ (s'.tasks k).live = false := by
  -- in both cases the step is `do_exit`
  obtain ⟨hlive, hexec⟩ : (s.tasks k).live = true ∧ exec H img u s a = doExit H k s := by
    cases a with
    | exit i =>
        obtain rfl : i = k := hends
        exact ⟨henabled, rfl⟩
    | exception i addr =>
        obtain ⟨rfl, hnone⟩ : i = k ∧ s.vmaOf i addr = none := hends
        refine ⟨henabled.1.1, ?_⟩
        obtain ⟨mm, hmm, -⟩ := (h.tasks i).process henabled.1.1 henabled.1.2
        rw [KernelState.vmaOf, hmm, Option.bind_some] at hnone
        simp only [exec, doEl0Sync, hmm, if_pos hnone]
    | _ => exact hends.elim
  obtain ⟨s', hexit, -, htask⟩ := exit_step (H := H) h hlive
  refine ⟨s', ?_, ?_⟩
  · rw [step, if_pos henabled, hexec, hexit]
    rfl
  · rw [htask]
    simp [TaskStruct.live]

/-- The directory of a task that runs user code is a page in use. -/
theorem dir_used {k : Nat} (h : Invariant img u s) (hk : UserRuns s k) :
    ∃ n < maxNumPages, (s.tasks k).pgDir = pagePoolStart + pageSize * n ∧ s.vm.pagesUsage n = true := by
  obtain ⟨mm, hmm, hp⟩ := (h.tasks k).process hk.1 hk.2
  have hroot := root_mem_tableFrames s.vm.mem (physical true (s.tasks k).pgDir)
  have hpool := hp.space.holdings.tables_pool _ hroot
  obtain ⟨n, hn, hframe⟩ := exists_frame hpool (hp.space.holdings.tables.pages _ hroot).1
  have hused := h.used hk.1 hk.2 hmm _ (Or.inl hroot)
  refine ⟨n, hn, ?_, ?_⟩
  · rw [← linear_pgDir hp.dir_lt, hframe, linear_frame hn]
  · rw [hframe] at hused
    exact inPool_usage hn hused

/-- The scheduler changes fields of a task that the invariant does not speak of. -/
theorem Invariant.setTask {i : Nat} {t : TaskStruct} (h : Invariant img u s)
    (huse : (s.tasks i).inUse = true) (huse' : t.inUse = true) (hlive : t.live = (s.tasks i).live)
    (hstack : t.stack = (s.tasks i).stack) (hdir : t.pgDir = (s.tasks i).pgDir)
    (hmm : t.mm = (s.tasks i).mm) : Invariant img u (s.setTask i t) := by
  have hself : (s.setTask i t).tasks i = t := Function.update_self ..
  have hother : ∀ k, k ≠ i → (s.setTask i t).tasks k = s.tasks k := fun k hk =>
    Function.update_of_ne hk ..
  -- the pages of a task are a matter of its `mm` and directory
  have hfoot : ∀ k, taskFootprint s.vm.mem ((s.setTask i t).tasks k) =
      taskFootprint s.vm.mem (s.tasks k) := by
    intro k
    by_cases hk : k = i
    · subst hk
      unfold taskFootprint
      rw [hself, hlive, hdir, hmm]
    · rw [hother k hk]
  refine ⟨h.zero, fun k => ?_, ?_, fun k => ?_⟩
  · by_cases hk : k = i
    · subst hk
      rw [hself]
      refine ⟨fun _ => ?_, fun hno => ?_, fun hl => ?_⟩
      · rw [hstack]
        exact (h.tasks k).stack huse
      · rw [huse'] at hno
        cases hno
      · rw [hmm, hdir]
        exact (h.tasks k).mm (hlive ▸ hl)
    · rw [hother k hk]
      exact h.tasks k
  · change Owned (fun k => taskFootprint s.vm.mem ((s.setTask i t).tasks k)) s.vm.world
    simp only [hfoot]
    exact h.owned
  · by_cases hk : k = i
    · subst hk
      rw [hself]
      intro hl huser mm hm
      exact h.pool k (hlive ▸ hl) huser mm (hmm ▸ hm)
    · rw [hother k hk]
      exact h.pool k

/-! ## The invariant -/

variable {m m' : Machine κ} {c : Nat}

/-- The directory is that of the task that it was written for, and the task runs user code. -/
structure LoadedOk (s : KernelState κ) (occupant : Nat → Nat) (l : Loaded) : Prop where
  runs : UserRuns s l.slot
  pgDir : (s.tasks l.slot).pgDir = l.dir
  occupant : occupant l.slot = l.occupant

structure MachineInv (N : Nat) (img : KernelImage) (u : UserImage) (m : Machine κ) : Prop where
  kernel : Invariant img u m.kernel
  ttbr0 : ∀ c < N, ∀ l, (m.cpu c).ttbr0 = some l → LoadedOk m.kernel m.occupant l

theorem machineInv_start (hboot : Boot img s) : MachineInv N img u (Machine.start s) := by
  refine ⟨boot_invariant hboot, fun c _ l hno => ?_⟩
  cases hno

theorem MachineInv.dirsKept (h : MachineInv N img u m) : DirsKept N m := by
  intro c hc l hl
  obtain ⟨hruns, hdir, hocc⟩ := h.ttbr0 c hc l hl
  have hused := dir_used h.kernel hruns
  rw [hdir] at hused
  exact ⟨hused, hruns.1, hdir, hocc⟩

/-- The scheduler changes a task. -/
theorem LoadedOk.setTask {occupant : Nat → Nat} {i : Nat} {t : TaskStruct} {l : Loaded}
    (h : LoadedOk s occupant l) (hlive : t.live = (s.tasks i).live)
    (hdir : t.pgDir = (s.tasks i).pgDir) : LoadedOk (s.setTask i t) occupant l := by
  obtain ⟨⟨hl, hd⟩, hdir', hocc⟩ := h
  by_cases hk : l.slot = i
  · have htask : (s.setTask i t).tasks l.slot = t := by rw [hk]; exact Function.update_self ..
    rw [← hk] at hlive hdir
    refine ⟨⟨?_, ?_⟩, ?_, hocc⟩
    · rw [htask, hlive, hl]
    · rw [htask, hdir]
      exact hd
    · rw [htask, hdir, hdir']
  · have htask : (s.setTask i t).tasks l.slot = s.tasks l.slot := Function.update_of_ne hk ..
    refine ⟨⟨?_, ?_⟩, ?_, hocc⟩
    · rw [htask, hl]
    · rw [htask]
      exact hd
    · rw [htask, hdir']

theorem MachineInv.setTask {i : Nat} {t : TaskStruct} (h : MachineInv N img u m)
    (huse : (m.kernel.tasks i).inUse = true) (huse' : t.inUse = true)
    (hlive : t.live = (m.kernel.tasks i).live) (hstack : t.stack = (m.kernel.tasks i).stack)
    (hdir : t.pgDir = (m.kernel.tasks i).pgDir) (hmm : t.mm = (m.kernel.tasks i).mm) :
    MachineInv N img u { m with kernel := m.kernel.setTask i t } :=
  ⟨h.kernel.setTask huse huse' hlive hstack hdir hmm,
    fun d hd l hl => (h.ttbr0 d hd l hl).setTask hlive hdir⟩

/-- A CPU goes on. -/
theorem MachineInv.setCpu {cpu : CpuState} (h : MachineInv N img u m)
    (httbr0 : c < N → ∀ l, cpu.ttbr0 = some l → LoadedOk m.kernel m.occupant l) :
    MachineInv N img u { m with cpu := Function.update m.cpu c cpu } := by
  refine ⟨h.kernel, fun d hd l hl => ?_⟩
  by_cases hdc : d = c
  · subst hdc
    simp only [Function.update_self] at hl
    exact httbr0 hd l hl
  · simp only [Function.update_of_ne hdc] at hl
    exact h.ttbr0 d hd l hl

theorem nextOccupant_of_live {occupant : Nat → Nat} {i : Nat} (h : (s.tasks i).live = true) :
    nextOccupant s s' occupant i = occupant i := by
  rw [nextOccupant, if_neg]
  rw [h]
  rintro ⟨hno, -⟩
  cases hno

/-- A call by the current task of a CPU. -/
theorem MachineInv.call {a : Action κ} (h : MachineInv N img u m)
    (hends : ∀ d < N, ∀ l ∈ (m.cpu d).ttbr0, ¬Ends m.kernel l.slot a)
    (hstep : step H img u m.kernel a = some s') :
    MachineInv N img u
      { kernel := s'
        cpu := Function.update m.cpu c
          { m.cpu c with
            ttbr0 := ttbr0After s' (nextOccupant m.kernel s' m.occupant) (m.cpu c).ttbr0 a }
        occupant := nextOccupant m.kernel s' m.occupant } := by
  obtain ⟨henabled, hexec⟩ := step_eq hstep
  -- a directory that was in a register before
  have hold : ∀ d < N, ∀ l, (m.cpu d).ttbr0 = some l →
      LoadedOk s' (nextOccupant m.kernel s' m.occupant) l := by
    intro d hd l hl
    obtain ⟨hruns, hdir, hocc⟩ := h.ttbr0 d hd l hl
    have huser : a ≠ .userTest l.slot := by
      rintro rfl
      exact hruns.2 henabled.2.1
    obtain ⟨hlive', hdir'⟩ := step_keeps h.kernel hruns.1 huser (hends d hd l hl) hstep
    refine ⟨⟨hlive', ?_⟩, hdir'.trans hdir, (nextOccupant_of_live hruns.1).trans hocc⟩
    rw [hdir']
    exact hruns.2
  have hlater : MachineInv N img u
      { kernel := s', cpu := m.cpu, occupant := nextOccupant m.kernel s' m.occupant } :=
    ⟨step_invariant h.kernel hstep, hold⟩
  refine hlater.setCpu fun hc l hl => ?_
  cases a with
  | userTest i =>
      simp only [ttbr0After] at hl
      split_ifs at hl with hdir
      · obtain rfl := Option.some.inj hl
        obtain ⟨-, pgDir, mm, hfields⟩ := userTest_fields hexec
        refine ⟨⟨?_, hdir⟩, rfl, rfl⟩
        change (s'.tasks i).live = true
        rw [hfields, Function.update_self]
        exact henabled.1
      · exact hold c hc l hl
  | _ => exact hold c hc l hl

/-- The register keeps its value, or `schedule` writes it for a task that it has chosen. -/
theorem sched_ttbr0 {cpu : CpuState} {occupant : Nat → Nat} {sched : SchedCpu} {choice : Option Nat}
    {e : SchedEvent} {l : Loaded} (hm : SchedMove cpu.toSchedCpu choice e sched)
    (hl : (cpu.sched s occupant sched e).ttbr0 = some l) :
    cpu.ttbr0 = some l ∨ e = .writeTtbr0 ∧ ∃ i ∈ cpu.nextTask,
      cpu.top.head? = some (.chosen (some i)) ∧ some i ≠ cpu.current ∧ (s.tasks i).pgDir ≠ 0 ∧
        l = writeTtbr0 s occupant i := by
  cases hm with
  | schedule hg => exact Or.inl hl
  | getNextProc htop => exact Or.inl hl
  | switchTo htop => exact Or.inl hl
  | stay htop =>
      have hnext : cpu.nextTask = cpu.current := by
        rw [SchedCpu.nextTask, htop]
        rfl
      rw [CpuState.sched, hnext] at hl
      split at hl
      · exact Or.inl hl
      · next i hi =>
          rw [if_neg fun hg => hg.1 hi.symm] at hl
          exact Or.inl hl
  | @load next calls htop hne =>
      have hnext : cpu.nextTask = next := by
        rw [SchedCpu.nextTask, htop]
        rfl
      rw [CpuState.sched, hnext] at hl
      split at hl
      · exact Or.inl hl
      · next i =>
          split_ifs at hl with hg
          · exact Or.inr ⟨rfl, i, hnext, by rw [htop]; rfl, hg.1, hg.2, (Option.some.inj hl).symm⟩
          · exact Or.inl hl

theorem MachineInv.step {a : MachineAction κ} (h : MachineInv N img u m) (hends : EndsUnloaded N m a)
    (hloads : LoadsLive N m a) (ha : machineStep N H img u m a = some m') : MachineInv N img u m' := by
  cases a with
  | call c a =>
      simp only [machineStep] at ha
      split_ifs at ha with hcall
      obtain ⟨s', hstep, rfl⟩ := Option.map_eq_some_iff.1 ha
      exact h.call (hends hcall (step_eq hstep).1) hstep
  | sched c e =>
      simp only [machineStep] at ha
      split_ifs at ha with hc
      obtain ⟨sched, hstep, rfl⟩ := Option.map_eq_some_iff.1 ha
      refine h.setCpu fun hc l hl => ?_
      rcases sched_ttbr0 (SchedCpu.step_move hstep) hl with hold | ⟨rfl, i, hi, hhead, hne, hdir, rfl⟩
      · exact h.ttbr0 c hc l hold
      · exact ⟨⟨hloads hc i hi hhead hne hdir, hdir⟩, rfl, rfl⟩
  | sleep c =>
      obtain ⟨i, -, ha⟩ := Option.bind_eq_some_iff.1 ha
      split_ifs at ha with hlive
      obtain rfl := Option.some.inj ha
      have huse := (TaskStruct.live_iff.1 hlive).1
      refine h.setTask huse huse ?_ rfl rfl rfl
      rw [hlive, TaskStruct.live_iff]
      exact ⟨huse, ProcessState.noConfusion⟩
  | wake i =>
      simp only [machineStep] at ha
      split_ifs at ha with hsleep
      obtain rfl := Option.some.inj ha
      refine h.setTask hsleep.1 hsleep.1 ?_ rfl rfl rfl
      have hlive : (m.kernel.tasks i).live = true :=
        TaskStruct.live_iff.2 ⟨hsleep.1, by rw [hsleep.2]; exact ProcessState.noConfusion⟩
      rw [hlive, TaskStruct.live_iff]
      exact ⟨hsleep.1, ProcessState.noConfusion⟩
  | tick c user =>
      obtain ⟨i, -, ha⟩ := Option.bind_eq_some_iff.1 ha
      split_ifs at ha with huse
      obtain rfl := Option.some.inj ha
      cases user with
      | true => exact h.setTask huse huse rfl rfl rfl rfl
      | false => exact h.setTask huse huse rfl rfl rfl rfl

/-! ## Runs -/

/-- A task that ends leaves its directory in the register. -/
theorem not_dirsKept_of_ends {a : Action κ} {d : Nat} {l : Loaded} (h : MachineInv N img u m)
    (hcall : Callable N m c a) (henabled : Enabled m.kernel a) (hd : d < N)
    (hl : (m.cpu d).ttbr0 = some l) (hends : Ends m.kernel l.slot a) :
    ∃ m', machineStep N H img u m (.call c a) = some m' ∧ ¬DirsKept N m' := by
  obtain ⟨s', hstep, hdead⟩ := step_ends (H := H) h.kernel henabled hends
  refine ⟨_, by rw [machineStep, if_pos hcall, hstep]; rfl, fun hkept => ?_⟩
  have hlive := (hkept d hd l ?_).live
  · rw [hdead] at hlive
    cases hlive
  · by_cases hdc : d = c
    · subst hdc
      simp only [Function.update_self]
      cases a with
      | exit i => exact hl
      | exception i addr => exact hl
      | _ => exact hends.elim
    · simp only [Function.update_of_ne hdc]
      exact hl

/-- A call of `schedule` that writes the directory of a task that has ended. -/
theorem not_dirsKept_of_loads (H : KernelHeap κ) (img : KernelImage) (u : UserImage) {i : Nat}
    (hc : c < N) (hi : i ∈ (m.cpu c).nextTask)
    (hhead : (m.cpu c).top.head? = some (.chosen (some i))) (hne : some i ≠ (m.cpu c).current)
    (hdir : (m.kernel.tasks i).pgDir ≠ 0) (hdead : (m.kernel.tasks i).live ≠ true) :
    ∃ m', machineStep N H img u m (.sched c .writeTtbr0) = some m' ∧ ¬DirsKept N m' := by
  obtain ⟨calls, htop⟩ : ∃ calls, (m.cpu c).top = .chosen (some i) :: calls :=
    ⟨_, List.eq_cons_of_mem_head? hhead⟩
  refine ⟨_, by simp only [machineStep, if_pos hc, SchedCpu.step, htop]; rfl, fun hkept => hdead ?_⟩
  refine (hkept c hc (writeTtbr0 m.kernel m.occupant i) ?_).live
  simp only [Function.update_self, CpuState.sched, Option.mem_def.1 hi, if_pos (And.intro hne hdir)]

/-- The directories in the registers are pages in use that belong to the tasks they were written for,
after every step of a run, exactly if no task ends in the run whose directory is in a register, and no
call of `schedule` writes the directory of a task that has ended. -/
theorem machineRun_dirsKept_iff (N : Nat) (hboot : Boot img s) (as : List (MachineAction κ)) :
    Along (machineStep N H img u) (fun m a => ∀ m', machineStep N H img u m a = some m' → DirsKept N m')
        (.start s) as ↔
      Along (machineStep N H img u) (fun m a => EndsUnloaded N m a ∧ LoadsLive N m a) (.start s) as := by
  refine along_congr_of_invariant (I := MachineInv N img u) (fun m a h => ⟨fun hkept => ?_, ?_⟩)
    (fun m a m' h hq ha => h.step hq.1 hq.2 ha) (machineInv_start hboot) as
  · cases a with
    | call c a =>
        refine ⟨fun hcall henabled d hd l hl hends => ?_, trivial⟩
        obtain ⟨m', hstep, hno⟩ := not_dirsKept_of_ends (H := H) h hcall henabled hd hl hends
        exact hno (hkept m' hstep)
    | sched c e =>
        cases e with
        | writeTtbr0 =>
            refine ⟨trivial, fun hc i hi hhead hne hdir => ?_⟩
            by_contra hdead
            obtain ⟨m', hstep, hno⟩ := not_dirsKept_of_loads H img u hc hi hhead hne hdir hdead
            exact hno (hkept m' hstep)
        | _ => exact ⟨trivial, trivial⟩
    | _ => exact ⟨trivial, trivial⟩
  · intro hq m' ha
    exact (h.step hq.1 hq.2 ha).dirsKept

/-- The current thread of CPU `c` calls `schedule`, and switches. -/
def machineSchedule (c : Nat) : List (MachineAction (List Nat)) :=
  [.sched c .schedule, .sched c .getNextProc, .sched c .writeTtbr0, .sched c .switchTo]

/-- A child runs on the other CPU, and the swapper after it with the directory of the child. -/
def sampleMachine : List (MachineAction (List Nat)) :=
  machineSchedule 0 ++ [.call 0 (.userTest 0), .call 0 (.fork 0 sampleRegs)] ++ machineSchedule 1 ++
    [.call 1 (.exception 1 0x20000010), .sleep 1] ++ machineSchedule 1 ++
    [.call 0 (.brk 0 sampleRegs 0x0804E000)]

theorem sampleMachine_dirsKept :
    ((runFrom (machineStep 2 sampleHeap sampleImage sampleUser) (.start sampleBoot) sampleMachine).map
      fun m => ((m.cpu 1).current, (m.cpu 1).ttbr0.map Loaded.slot)) = some (none, some 1) ∧
    Along (machineStep 2 sampleHeap sampleImage sampleUser)
      (fun m a => ∀ m', machineStep 2 sampleHeap sampleImage sampleUser m a = some m' → DirsKept 2 m')
      (.start sampleBoot) sampleMachine :=
  ⟨by decide +kernel, (machineRun_dirsKept_iff 2 sampleBoot_boot sampleMachine).2 (by decide +kernel)⟩

/-- The only user task ends; the register of its CPU keeps the directory that has been freed. -/
theorem sampleMachine_freed : ∃ m m',
    runFrom (machineStep 1 sampleHeap sampleImage sampleUser) (.start sampleBoot)
        (machineSchedule 0 ++ [.call 0 (.userTest 0)]) = some m ∧
      machineStep 1 sampleHeap sampleImage sampleUser m (.call 0 (.exit 0)) = some m' ∧
      ¬DirsKept 1 m' := by
  have hend : (runFrom (machineStep 1 sampleHeap sampleImage sampleUser) (.start sampleBoot)
      (machineSchedule 0 ++ [.call 0 (.userTest 0)])).map (fun m =>
        (decide (Callable 1 m 0 (.exit 0) ∧ Enabled m.kernel (.exit 0)),
          (m.cpu 0).ttbr0.map Loaded.slot)) = some (true, some 0) := by decide +kernel
  obtain ⟨m, hrun, hm⟩ := Option.map_eq_some_iff.1 hend
  simp only [Prod.mk.injEq] at hm
  obtain ⟨hcan, hloaded⟩ := hm
  obtain ⟨hcall, henabled⟩ := of_decide_eq_true hcan
  obtain ⟨l, hl, hslot⟩ := Option.map_eq_some_iff.1 hloaded
  have hinv : MachineInv 1 sampleImage sampleUser m :=
    runFrom_invariant_along (fun _ _ _ h hq ha => h.step hq.1 hq.2 ha) (machineInv_start sampleBoot_boot)
      (P := fun m a => EndsUnloaded 1 m a ∧ LoadsLive 1 m a) (by decide +kernel) hrun
  obtain ⟨m', hstep, hno⟩ := not_dirsKept_of_ends (H := sampleHeap) hinv hcall henabled (by decide) hl
    hslot.symm
  exact ⟨m, m', hrun, hstep, hno⟩

end Kernel
end ToutOS
