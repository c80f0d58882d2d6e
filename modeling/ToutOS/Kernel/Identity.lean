import ToutOS.Kernel.Break

/-!
# Identity — the task of a kernel stack

`get_current_proc` finds the running task through the word at the base of the kernel stack.

* `kernelThread`, `getCurrentProc` — the functions of `kernel/sched.c` on the task table that
  `Process` does not have.
* `ThreadState`, `threadStep` — the kernel together with the calls that fill, clear and schedule slots.
* `SlotsOk` — a slot is zero, or its pid, its stack and the word at the base of the stack belong to it;
  a task that may be scheduled has an `mm_struct` and a context to start from.
* `KernelState.hide` — slots that are being filled are not alive yet: the invariant of the system
  holds when they are taken for slots of tasks that have exited (`exec_hide`).
* `threadRun_slots` — `SlotsOk` holds in every state that can be reached.
-/

namespace ToutOS
namespace Kernel

open Base Mm

/-! ## Starting threads -/

/-- `KERNEL_STACK_SIZE`. -/
def kernelStackSize : Nat := 4096

/-- Addresses of the kernel image that `kernel_thread` and `sys_fork` put into a context. -/
structure ThreadImage extends KernelImage where
  callThreadFunc : Nat
  callThreadFunc_ne : callThreadFunc ≠ 0
  childReturnsFromFork_ne : childReturnsFromFork ≠ 0
  tasks_le : tasks + sizeofTaskStruct * maxNumProcesses ≤ 2 ^ 64

/-- `get_current_proc`, executed with the stack pointer `sp`: `current_thread_info()->task`. -/
def getCurrentProc (m : Mem) (sp : Nat) : Nat := load m (sp / kernelStackSize * kernelStackSize) 8

section Heap

variable {κ : Type} (H : KernelHeap κ) (img : ThreadImage)

/-- `kernel_thread`; `none` is a name that is `NULL`. -/
def kernelThread (name : Option (List UInt8)) (fn args : Nat) (s : KernelState κ) :
    Int × KernelState κ :=
  match name with
  | none => (-1, s)
  | some name =>
      if fn = 0 then (-1, s)
      else
        let (slot, tasks, mem) := getTaskSlot img.toKernelImage s.tasks s.vm.mem
        match slot with
        | none => (-1, { s with tasks := tasks, vm := { s.vm with mem := mem } })
        | some c =>
            let t := tasks c
            let t :=
              { t with
                thread := { t.thread with fp := 0, pc := img.callThreadFunc }
                comm := strncpy t.comm name (taskCommLen - 1) }
            let tasks := Function.update tasks c t
            let (mm, heap) := H.kmalloc s.vm.heap sizeofMmStruct
            if mm = 0 then
              (-1, { s with
                tasks := freeTaskSlot tasks c
                vm := { s.vm with mem := mem, heap := heap } })
            else
              -- the function and its argument are pushed
              let sp := t.stack + kernelStackSize
              let mem := store (store mem (sp - 8) 8 fn) (sp - 16) 8 args
              let t :=
                { t with
                  mm := some { self := mm }
                  thread := { t.thread with sp := sp - 16 }
                  state := .running }
              (0, { s with
                tasks := Function.update tasks c t
                vm := { s.vm with mem := mem, heap := heap } })

/-! ## Steps -/

/-- The kernel, and for each slot whether its task has run since the slot was handed out. -/
structure ThreadState (κ : Type) where
  kernel : KernelState κ
  ran : Nat → Bool

inductive ThreadAction (κ : Type)
  /-- `user_test`, `sys_fork`, `sys_brk`, an exception, `do_exit`, or an action of another task. -/
  | kernel (a : Action κ)
  | getTaskSlot
  | freeTaskSlot (i : Nat)
  | kernelThread (name : Option (List UInt8)) (fn args : Nat)
  | setTaskState (i : Nat) (state : ProcessState)
  /-- `schedule` switches to the task in slot `i`. -/
  | dispatch (i : Nat)
  /-- `cpu_switch_to` saves the registers of the task in slot `i`. -/
  | save (i : Nat) (context : CpuContext)
  /-- A byte of the kernel stack of slot `i` is written. -/
  | push (i x : Nat) (b : UInt8)

/-- The task is `RUNNING` or `SLEEPING`. -/
def TaskStruct.ready (t : TaskStruct) : Bool :=
  t.inUse && (t.state = .running || t.state = .sleeping)

/-- The registers that the action refers to lie above the word at the base of the stack. -/
def AboveWord (s : KernelState κ) : Action κ → Prop
  | .fork i regs => (s.tasks i).stack + 8 ≤ regs
  | .brk i regs _ => (s.tasks i).stack + 8 ≤ regs
  | _ => True

instance (s : KernelState κ) : (a : Action κ) → Decidable (AboveWord s a)
  | .userTest _ => inferInstanceAs (Decidable True)
  | .fork _ _ => inferInstanceAs (Decidable (_ ≤ _))
  | .brk _ _ _ => inferInstanceAs (Decidable (_ ≤ _))
  | .exception _ _ => inferInstanceAs (Decidable True)
  | .exit _ => inferInstanceAs (Decidable True)
  | .userStore _ _ _ => inferInstanceAs (Decidable True)
  | .kmallocUse _ => inferInstanceAs (Decidable True)

/-- The acting task has been switched to, and it is ready. -/
def ThreadState.acts (s : ThreadState κ) : Option Nat → Bool
  | none => true
  | some i => (s.kernel.tasks i).ready && s.ran i

/-- The state after a step of the kernel: slots that were not in use have not run. -/
def ThreadState.next (s : ThreadState κ) (k : KernelState κ) : ThreadState κ :=
  { kernel := k, ran := fun i => s.ran i && (s.kernel.tasks i).inUse }

def threadStep (u : UserImage) (s : ThreadState κ) : ThreadAction κ → Option (ThreadState κ)
  | .kernel a =>
      if s.acts a.task = true ∧ AboveWord s.kernel a then
        (step H img.toKernelImage u s.kernel a).map s.next
      else none
  | .getTaskSlot =>
      let (_, tasks, mem) := Kernel.getTaskSlot img.toKernelImage s.kernel.tasks s.kernel.vm.mem
      some (s.next { s.kernel.withMem mem with tasks := tasks })
  | .freeTaskSlot i =>
      some (s.next { s.kernel with tasks := Kernel.freeTaskSlot s.kernel.tasks i })
  | .kernelThread name fn args => some (s.next (Kernel.kernelThread H img name fn args s.kernel).2)
  | .setTaskState i state =>
      if (s.kernel.tasks i).ready = true then
        some { s with kernel := { s.kernel with
          tasks := Kernel.setTaskState s.kernel.tasks (some i) state } }
      else none
  | .dispatch i =>
      if isTaskReady (s.kernel.tasks i) = true then
        some { s with ran := Function.update s.ran i true }
      else none
  | .save i context =>
      if (s.kernel.tasks i).inUse = true ∧ s.ran i = true then
        some { s with kernel := { s.kernel with
          tasks := Function.update s.kernel.tasks i { s.kernel.tasks i with thread := context } } }
      else none
  | .push i x b =>
      if i < maxNumProcesses ∧ img.stack i + 8 ≤ x ∧ x < img.stack i + kernelStackSize then
        some { s with kernel := s.kernel.withMem (Function.update s.kernel.vm.mem x b) }
      else none

/-- The kernel before `main` starts its threads: `tasks` is zero. -/
structure ThreadBoot (s : ThreadState κ) : Prop where
  zero : ZeroPage s.kernel.vm.mem
  user : s.kernel.userTask = none
  tasks : ∀ i, s.kernel.tasks i = {}

/-- The slots and the stacks belong together. -/
structure SlotsOk (s : ThreadState κ) : Prop where
  unused : ∀ i, (s.kernel.tasks i).inUse = false → s.kernel.tasks i = {}
  lt : ∀ i, (s.kernel.tasks i).inUse = true → i < maxNumProcesses
  pid : ∀ i, (s.kernel.tasks i).inUse = true → (s.kernel.tasks i).pid = i + 1 ∧
    pidToTask ((s.kernel.tasks i).pid : Int) = some i
  stack : ∀ i, (s.kernel.tasks i).inUse = true → (s.kernel.tasks i).stack = img.stack i
  info : ∀ i, (s.kernel.tasks i).inUse = true → load s.kernel.vm.mem (img.stack i) 8 = img.task i
  current : ∀ i, (s.kernel.tasks i).inUse = true → ∀ sp, img.stack i ≤ sp →
    sp < img.stack i + kernelStackSize → getCurrentProc s.kernel.vm.mem sp = img.task i
  mm : ∀ i, (s.kernel.tasks i).ready = true → (s.kernel.tasks i).mm ≠ none
  context : ∀ i, (s.kernel.tasks i).ready = true → s.ran i = false →
    (s.kernel.tasks i).thread.pc ≠ 0 ∧ img.stack i ≤ (s.kernel.tasks i).thread.sp ∧
      (s.kernel.tasks i).thread.sp < img.stack i + kernelStackSize

end Heap

variable {κ : Type} {H : KernelHeap κ} {img : ThreadImage} {u : UserImage} {s s' : KernelState κ} {i : Nat}

/-! ## Slots that are being filled -/

/-- A slot that is being filled is shown as that of a task that has exited. -/
def hideTask (t : TaskStruct) : TaskStruct :=
  if t.inUse = true ∧ t.state = .initializing then { t with state := .stopped } else t

def KernelState.hide (s : KernelState κ) : KernelState κ :=
  { s with tasks := fun k => hideTask (s.tasks k) }

@[simp] theorem hideTask_empty : hideTask {} = {} := rfl

@[simp] theorem hide_vm (s : KernelState κ) : s.hide.vm = s.vm := rfl

@[simp] theorem hide_userTask (s : KernelState κ) : s.hide.userTask = s.userTask := rfl

@[simp] theorem hide_tasks (s : KernelState κ) (k : Nat) : s.hide.tasks k = hideTask (s.tasks k) := rfl

@[simp] theorem hideTask_inUse (t : TaskStruct) : (hideTask t).inUse = t.inUse := by
  rw [hideTask]
  split_ifs <;> rfl

theorem ready_iff {t : TaskStruct} :
    t.ready = true ↔ t.inUse = true ∧ (t.state = .running ∨ t.state = .sleeping) := by
  simp [TaskStruct.ready]

theorem hideTask_of_state {t : TaskStruct} (h : t.state ≠ .initializing) : hideTask t = t :=
  if_neg fun hno => h hno.2

theorem not_initializing_of_ready {t : TaskStruct} (h : t.ready = true) : t.state ≠ .initializing := by
  intro hstate
  rcases (ready_iff.1 h).2 with hno | hno <;> rw [hstate] at hno <;> cases hno

theorem hideTask_of_ready {t : TaskStruct} (h : t.ready = true) : hideTask t = t :=
  hideTask_of_state (not_initializing_of_ready h)

theorem live_of_ready {t : TaskStruct} (h : t.ready = true) : t.live = true := by
  refine TaskStruct.live_iff.2 ⟨(ready_iff.1 h).1, fun hstate => ?_⟩
  rcases (ready_iff.1 h).2 with hno | hno <;> rw [hstate] at hno <;> cases hno

/-- The tasks that are seen alive are those that may be scheduled. -/
theorem live_hideTask (t : TaskStruct) : (hideTask t).live = t.ready := by
  rw [hideTask, TaskStruct.ready]
  cases hstate : t.state <;> cases hin : t.inUse <;> simp [TaskStruct.live, hstate, hin]

/-! ## Calls that work on one task -/

/-- The call reads and writes no slot but `i`, and does not make its task one that is being filled. -/
structure LocalCall (i : Nat) (F : KernelState κ → Except Halt (KernelState κ)) : Prop where
  congr : ∀ s f, f i = s.tasks i → F { s with tasks := f } =
    (F s).map fun s' => { s' with tasks := Function.update f i (s'.tasks i) }
  others : ∀ s s', F s = .ok s' → ∀ k, k ≠ i → s'.tasks k = s.tasks k
  task : ∀ s s', F s = .ok s' → ∃ state pgDir mm,
    s'.tasks i = { s.tasks i with state := state, pgDir := pgDir, mm := mm } ∧
      (state = (s.tasks i).state ∨ state = .stopped)

/-- Such a call does not see the slots that are hidden. -/
theorem LocalCall.hide {F : KernelState κ → Except Halt (KernelState κ)} (h : LocalCall i F)
    (hready : (s.tasks i).ready = true) (hok : F s = .ok s') : F s.hide = .ok s'.hide := by
  have hrun := h.congr s (fun k => hideTask (s.tasks k)) (hideTask_of_ready hready)
  rw [hok, except_map_ok] at hrun
  rw [show s.hide = { s with tasks := fun k => hideTask (s.tasks k) } from rfl, hrun]
  refine congrArg Except.ok ?_
  rw [KernelState.hide]
  congr 1
  funext k
  by_cases hk : k = i
  · subst hk
    rw [Function.update_self, hideTask_of_state]
    obtain ⟨state, pgDir, mm, htask, hstate | hstate⟩ := h.task s s' hok
    · rw [htask, hstate]
      rintro (hno : (s.tasks k).state = .initializing)
      exact not_initializing_of_ready hready hno
    · rw [htask, hstate]
      rintro (hno : ProcessState.stopped = .initializing)
      cases hno
  · rw [Function.update_of_ne hk, h.others s s' hok k hk]

theorem localCall_doExit (i : Nat) : LocalCall i (doExit H i) := by
  refine ⟨fun s f hf => ?_, fun s s' hok k hk => ?_, fun s s' hok => ?_⟩
  · simp only [doExit, hf]
    cases exitMm H (s.tasks i).pgDir (s.tasks i).mm s.vm with
    | error e => rfl
    | ok vm => simp only [except_map_ok, Function.update_self]
  · obtain ⟨vm, -, rfl⟩ := except_map_eq_ok.1 hok
    exact Function.update_of_ne hk ..
  · obtain ⟨vm, -, rfl⟩ := except_map_eq_ok.1 hok
    exact ⟨.stopped, (s.tasks i).pgDir, (s.tasks i).mm, Function.update_self .., Or.inr rfl⟩

theorem setMm_congr {f : TaskTable} (hf : f i = s.tasks i) (r : MmStruct × VmState κ) :
    setMm { s with tasks := f } i r =
      { setMm s i r with tasks := Function.update f i ((setMm s i r).tasks i) } := by
  simp only [setMm, hf, Function.update_self]

theorem setMm_task (r : MmStruct × VmState κ) : ∃ state pgDir mm,
    (setMm s i r).tasks i = { s.tasks i with state := state, pgDir := pgDir, mm := mm } ∧
      (state = (s.tasks i).state ∨ state = .stopped) :=
  ⟨(s.tasks i).state, (s.tasks i).pgDir, some r.1, Function.update_self .., Or.inl rfl⟩

theorem setMm_others (r : MmStruct × VmState κ) {k : Nat} (hk : k ≠ i) :
    (setMm s i r).tasks k = s.tasks k :=
  Function.update_of_ne hk ..

theorem localCall_doEl0Sync (i addr : Nat) : LocalCall i (doEl0Sync H i addr) := by
  have hexit := localCall_doExit (H := H) i
  -- without a vma for the address it is `do_exit`; else only the task's `mm` changes
  refine ⟨fun s f hf => ?_, fun s s' hok k hk => ?_, fun s s' hok => ?_⟩
  · have hcongr := hexit.congr s f hf
    simp only [doEl0Sync, hf]
    cases hmm : (s.tasks i).mm with
    | none => exact hcongr
    | some mm =>
        simp only
        split_ifs with hvma
        · exact hcongr
        · cases handleFault H (s.tasks i).pgDir addr mm s.vm with
          | error e => rfl
          | ok r => simp only [except_map_ok, setMm_congr hf]
  · rw [doEl0Sync] at hok
    cases hmm : (s.tasks i).mm with
    | none =>
        simp only [hmm] at hok
        exact hexit.others s s' hok k hk
    | some mm =>
        simp only [hmm] at hok
        split_ifs at hok with hvma
        · exact hexit.others s s' hok k hk
        · obtain ⟨r, -, rfl⟩ := except_map_eq_ok.1 hok
          exact setMm_others r hk
  · rw [doEl0Sync] at hok
    cases hmm : (s.tasks i).mm with
    | none =>
        simp only [hmm] at hok
        exact hexit.task s s' hok
    | some mm =>
        simp only [hmm] at hok
        split_ifs at hok with hvma
        · exact hexit.task s s' hok
        · obtain ⟨r, -, rfl⟩ := except_map_eq_ok.1 hok
          exact setMm_task r

theorem localCall_doBrk (i regs : Nat) : LocalCall i (doBrk H i regs) := by
  refine ⟨fun s f hf => ?_, fun s s' hok k hk => ?_, fun s s' hok => ?_⟩
  · simp only [doBrk, hf]
    cases hmm : (s.tasks i).mm with
    | none => rfl
    | some mm =>
        simp only
        cases sysBrk H (s.tasks i).pgDir (load s.vm.mem regs 8) mm s.vm with
        | error e => rfl
        | ok r => simp only [except_map_ok, setMm_congr hf]
  · rw [doBrk] at hok
    cases hmm : (s.tasks i).mm with
    | none =>
        simp only [hmm] at hok
        cases hok
    | some mm =>
        simp only [hmm] at hok
        obtain ⟨r, -, rfl⟩ := except_map_eq_ok.1 hok
        exact setMm_others _ hk
  · rw [doBrk] at hok
    cases hmm : (s.tasks i).mm with
    | none =>
        simp only [hmm] at hok
        cases hok
    | some mm =>
        simp only [hmm] at hok
        obtain ⟨r, -, rfl⟩ := except_map_eq_ok.1 hok
        exact setMm_task _

theorem localCall_userTest (i : Nat) : LocalCall i (userTest H u i) := by
  refine ⟨fun s f hf => ?_, fun s s' hok k hk => ?_, fun s s' hok => ?_⟩
  · simp only [userTest, hf]
    split_ifs with hpage haligned
    · simp only [except_map_ok]
      rw [← hf, Function.update_eq_self]
    · rfl
    · cases hmm : (s.tasks i).mm with
      | none => rfl
      | some mm =>
          simp only
          cases setupUserPageMappings (getZeroedPages 0 s.vm.mem s.vm.pagesUsage).1
            (setupVmas H u.areas mm.mmap s.vm.heap).1
            { mem := (getZeroedPages 0 s.vm.mem s.vm.pagesUsage).2.1
              pagesUsage := (getZeroedPages 0 s.vm.mem s.vm.pagesUsage).2.2
              heap := (setupVmas H u.areas mm.mmap s.vm.heap).2 } with
          | error e => rfl
          | ok vm =>
              simp only [except_bind_ok]
              split_ifs with htext
              · rfl
              · cases clearUser vm.mem (getZeroedPages 0 s.vm.mem s.vm.pagesUsage).1 u.bssStart
                  ((u.bssEnd - u.bssStart) / 4) with
                | error e => rfl
                | ok mem => simp only [except_map_ok, Function.update_self]
  · obtain ⟨-, pgDir, mm, htasks⟩ := userTest_fields hok
    rw [htasks, Function.update_of_ne hk]
  · obtain ⟨-, pgDir, mm, htasks⟩ := userTest_fields hok
    exact ⟨(s.tasks i).state, pgDir, mm, by rw [htasks, Function.update_self], Or.inl rfl⟩

/-! ## `sys_fork` and the hidden slots -/

/-- `t` is what is seen of `t'`, or `t'` is being filled and `t` is zero. -/
def SeenAs (t' t : TaskStruct) : Prop := t = hideTask t' ∨ (t = {} ∧ (hideTask t').live = false)

theorem getTaskSlot_hide {tasks tasks' : TaskTable} {m m' : Mem} {slot : Option Nat} {I : KernelImage}
    (h : getTaskSlot I tasks m = (slot, tasks', m')) :
    ∃ tasks'', getTaskSlot I (fun k => hideTask (tasks k)) m = (slot, tasks'', m') ∧
      (∀ c, slot = some c → tasks'' c = tasks' c) ∧
      ∀ k, slot ≠ some k → SeenAs (tasks' k) (tasks'' k) := by
  have hcall := getTaskSlot_call h
  rcases h₂ : getTaskSlot I (fun k => hideTask (tasks k)) m with ⟨slot', tasks'', m''⟩
  have hcall' := getTaskSlot_call h₂
  have hslot : slot' = slot := by
    cases slot with
    | none =>
        cases slot' with
        | none => rfl
        | some c =>
            obtain ⟨hvis, hfree, -⟩ := hcall'.found c rfl
            rw [hideTask_inUse, (hcall.full rfl).1 c (by have := hvis.2.1; omega)] at hfree
            cases hfree
    | some c =>
        obtain ⟨hvis, hfree, -⟩ := hcall.found c rfl
        cases slot' with
        | none =>
            have := (hcall'.full rfl).1 c (by have := hvis.2.1; omega)
            rw [hideTask_inUse, hfree] at this
            cases this
        | some c' =>
            -- both are the first slot that is not in use
            obtain ⟨hvis', hfree', -⟩ := hcall'.found c' rfl
            rw [hideTask_inUse] at hfree'
            rcases Nat.lt_trichotomy c c' with hlt | heq | hlt
            · have := hvis'.2.2 c hlt (Nat.zero_le c)
              rw [hideTask_inUse, hfree] at this
              cases this
            · rw [heq]
            · have := hvis.2.2 c' hlt (Nat.zero_le c')
              rw [hfree'] at this
              cases this
  subst hslot
  have hvisit : ∀ k, SlotVisited (fun k => hideTask (tasks k)) k ↔ SlotVisited tasks k := by
    intro k
    simp only [SlotVisited, VisitedFrom, hideTask_inUse]
  have hunused : ∀ c, (tasks c).inUse = false → hideTask (tasks c) = tasks c := by
    intro c hc
    refine if_neg fun hno => ?_
    rw [hc] at hno
    cases hno.1
  refine ⟨tasks'', ?_, fun c hc => ?_, fun k hk => ?_⟩
  · cases slot' with
    | none => rw [(hcall.full rfl).2, (hcall'.full rfl).2]
    | some c => rw [(hcall.found c rfl).2.2.2, (hcall'.found c rfl).2.2.2]
  · rw [(hcall.found c hc).2.2.1, (hcall'.found c hc).2.2.1, hunused c (hcall.found c hc).2.1]
  · by_cases hreap : Reapable tasks k
    · have hstopped : hideTask (tasks k) = tasks k := hideTask_of_state (by rw [hreap.2.2]; decide)
      have hreap' : Reapable (fun k => hideTask (tasks k)) k :=
        ⟨(hvisit k).2 hreap.1, by change (hideTask (tasks k)).exited; rw [hstopped]; exact hreap.2⟩
      rw [hcall.reaped k hreap, hcall'.reaped k hreap']
      exact Or.inl rfl
    · rw [hcall.same k hk hreap]
      by_cases hreap' : Reapable (fun k => hideTask (tasks k)) k
      · rw [hcall'.reaped k hreap']
        refine Or.inr ⟨rfl, ?_⟩
        rw [TaskStruct.live, Bool.and_eq_false_iff]
        exact Or.inr (by rw [hreap'.2.2]; rfl)
      · rw [hcall'.same k hk hreap']
        exact Or.inl rfl

/-- The part of `sys_fork` that builds the address space reads the slot of the child only. -/
theorem forkSpace_tasks {I : KernelImage} {regs c mm : Nat} {parent : TaskStruct}
    {tasks : TaskTable} {vm : VmState κ} {s s₂ s' : KernelState κ} {r : Option Nat}
    (tasks₂ : TaskTable) (hc : tasks₂ c = tasks c) (huser : s₂.userTask = s.userTask)
    (hok : forkSpace H I regs c mm parent tasks vm s = .ok (s', r)) :
    ∃ s₂', forkSpace H I regs c mm parent tasks₂ vm s₂ = .ok (s₂', r) ∧ s₂'.vm = s'.vm ∧
      s₂'.userTask = s'.userTask ∧ ∃ t, s'.tasks = Function.update tasks c t ∧
        s₂'.tasks = Function.update tasks₂ c t ∧ (t = {} ∨ (t.state = .running ∧ r = some c)) := by
  unfold forkSpace at hok ⊢
  dsimp only at hok ⊢
  split_ifs at hok ⊢ with hpage
  · obtain ⟨vm', hexit, heq⟩ := except_map_eq_ok.1 hok
    cases heq
    rw [hexit, except_map_ok]
    exact ⟨_, rfl, rfl, huser, {}, rfl, rfl, Or.inl rfl⟩
  · cases hmm : parent.mm with
    | none =>
        simp only [hmm] at hok
        cases hok
    | some parentMm =>
        simp only [hmm] at hok ⊢
        obtain ⟨fs, hfs, hok⟩ := except_bind_eq_ok.1 hok
        rw [hfs, except_bind_ok]
        split_ifs at hok ⊢ with hfork
        · obtain ⟨vm', hmap, heq⟩ := except_map_eq_ok.1 hok
          cases heq
          rw [hmap, except_map_ok, hc]
          exact ⟨_, rfl, rfl, huser, _, rfl, rfl, Or.inr ⟨rfl, rfl⟩⟩
        · obtain ⟨vm', hexit, heq⟩ := except_map_eq_ok.1 hok
          cases heq
          rw [hexit, except_map_ok]
          exact ⟨_, rfl, rfl, huser, {}, rfl, rfl, Or.inl rfl⟩

/-- `sys_fork` does not see the slots that are hidden, and it keeps or clears all slots but that of the
child. -/
theorem sysFork_hide {I : KernelImage} {regs : Nat} {r : Option Nat}
    (hready : (s.tasks i).ready = true) (hok : sysFork H I i regs s = .ok (s', r)) :
    ∃ s₂, sysFork H I i regs s.hide = .ok (s₂, r) ∧ s₂.vm = s'.vm ∧ s₂.userTask = s'.userTask ∧
      ∀ k, SeenAs (s'.tasks k) (s₂.tasks k) ∧
        (r ≠ some k → s'.tasks k = s.tasks k ∨ s'.tasks k = {}) := by
  rcases hcall : getTaskSlot I s.tasks s.vm.mem with ⟨slot, tasks, mem⟩
  obtain ⟨tasks₂, hcall₂, hslot, hothers⟩ := getTaskSlot_hide hcall
  have hslotcall := getTaskSlot_call hcall
  have hslotcall₂ := getTaskSlot_call hcall₂
  obtain ⟨hne, hparent⟩ := hslotcall.not_live (live_of_ready hready)
  have hparent₂ : tasks₂ i = s.tasks i := by
    have hself := hideTask_of_ready hready
    rw [hslotcall₂.same i hne (not_reapable_of_live (by rw [hself]; exact live_of_ready hready)), hself]
  have hkept : ∀ k, slot ≠ some k → SeenAs (tasks k) (tasks₂ k) ∧
      (tasks k = s.tasks k ∨ tasks k = {}) := by
    intro k hk
    refine ⟨hothers k hk, ?_⟩
    by_cases hreap : Reapable s.tasks k
    · exact Or.inr (hslotcall.reaped k hreap)
    · exact Or.inl (hslotcall.same k hk hreap)
  -- a new slot `c` on top of tables that agree otherwise
  have hupdate : ∀ (c : Nat) (t : TaskStruct), slot = some c →
      (t = {} ∨ (t.state = .running ∧ r = some c)) → ∀ k,
      SeenAs (Function.update tasks c t k) (Function.update tasks₂ c t k) ∧
        (r ≠ some k → Function.update tasks c t k = s.tasks k ∨ Function.update tasks c t k = {}) := by
    intro c t hc ht k
    by_cases hk : k = c
    · subst hk
      rw [Function.update_self, Function.update_self]
      rcases ht with rfl | ⟨ht, hr⟩
      · exact ⟨Or.inl rfl, fun _ => Or.inr rfl⟩
      · refine ⟨Or.inl (hideTask_of_state ?_).symm, fun hno => absurd hr hno⟩
        rw [ht]
        decide
    · rw [Function.update_of_ne hk, Function.update_of_ne hk]
      obtain ⟨hseen, htask⟩ := hkept k fun hno => hk (Option.some.inj (hc.symm.trans hno)).symm
      exact ⟨hseen, fun _ => htask⟩
  unfold sysFork at hok ⊢
  simp only [hcall] at hok
  simp only [hide_vm, show s.hide.tasks = fun k => hideTask (s.tasks k) from rfl, hcall₂]
  cases slot with
  | none =>
      cases hok
      exact ⟨_, rfl, rfl, rfl, fun k => ⟨(hkept k (Option.some_ne_none k).symm).1,
        fun _ => (hkept k (Option.some_ne_none k).symm).2⟩⟩
  | some c =>
      simp only [hparent] at hok
      simp only [hparent₂, hslot c rfl]
      split_ifs at hok ⊢ with hmm
      · cases hok
        refine ⟨_, rfl, rfl, rfl, fun k => ?_⟩
        simp only [freeTaskSlot, Function.update_idem]
        exact hupdate c {} rfl (Or.inl rfl) k
      · generalize htask : ({ tasks c with
          thread := (s.tasks i).thread
          comm := strncpy (tasks c).comm (s.tasks i).comm (taskCommLen - 1) } : TaskStruct) = f at hok ⊢
        have hsame : Function.update tasks₂ c f c = Function.update tasks c f c := by
          rw [Function.update_self, Function.update_self]
        obtain ⟨s₂, hrun, hvm, huser, t, ht, ht₂, hstate⟩ :=
          forkSpace_tasks (Function.update tasks₂ c f) hsame (hide_userTask s) hok
        refine ⟨s₂, hrun, hvm, huser, fun k => ?_⟩
        rw [ht, ht₂, Function.update_idem, Function.update_idem]
        exact hupdate c t rfl hstate k

/-! ## Actions and the hidden slots -/

/-- The slot is kept or cleared, or it is that of the task that acts, whose identity is kept. -/
def SlotKept (a : Action κ) (s s' : KernelState κ) (k : Nat) : Prop :=
  s'.tasks k = s.tasks k ∨ s'.tasks k = {} ∨ (a.task = some k ∧ ∃ state pgDir mm,
    s'.tasks k = { s.tasks k with state := state, pgDir := pgDir, mm := mm })

theorem LocalCall.exec {F : KernelState κ → Except Halt (KernelState κ)} {a : Action κ}
    (h : LocalCall i F) (htask : a.task = some i) (hready : (s.tasks i).ready = true)
    (hok : F s = .ok s') :
    ∃ s₂, F s.hide = .ok s₂ ∧ s₂.vm = s'.vm ∧ s₂.userTask = s'.userTask ∧
      ∀ k, SeenAs (s'.tasks k) (s₂.tasks k) ∧ SlotKept a s s' k := by
  refine ⟨_, h.hide hready hok, rfl, rfl, fun k => ⟨Or.inl rfl, ?_⟩⟩
  by_cases hk : k = i
  · subst hk
    obtain ⟨state, pgDir, mm, heq, -⟩ := h.task s s' hok
    exact Or.inr (Or.inr ⟨htask, state, pgDir, mm, heq⟩)
  · exact Or.inl (h.others s s' hok k hk)

/-- A step from the state in which slots are hidden: it does the same. -/
theorem step_hide {I : KernelImage} {a : Action κ} (hacts : ∀ i, a.task = some i → (s.tasks i).ready = true)
    (ha : step H I u s a = some s') :
    ∃ s₂, step H I u s.hide a = some s₂ ∧ s₂.vm = s'.vm ∧ s₂.userTask = s'.userTask ∧
      ∀ k, SeenAs (s'.tasks k) (s₂.tasks k) ∧
        (SlotKept a s s' k ∨ ∃ i regs, a = .fork i regs ∧ sysFork H I i regs s.hide = .ok (s₂, some k)) := by
  obtain ⟨henabled, hok⟩ := step_eq ha
  -- the guard and the call are looked at one action at a time, the step only once
  suffices hrun : Enabled s.hide a ∧ ∃ s₂, exec H I u s.hide a = .ok s₂ ∧ s₂.vm = s'.vm ∧
      s₂.userTask = s'.userTask ∧ ∀ k, SeenAs (s'.tasks k) (s₂.tasks k) ∧
        (SlotKept a s s' k ∨ ∃ i regs, a = .fork i regs ∧
          sysFork H I i regs s.hide = .ok (s₂, some k)) by
    obtain ⟨henabled', s₂, hok₂, hrest⟩ := hrun
    refine ⟨s₂, ?_, hrest⟩
    rw [step, if_pos henabled', hok₂]
    rfl
  -- a call that changes no other slot than that of its own task
  have hlocal : ∀ {i : Nat} {F : KernelState κ → Except Halt (KernelState κ)} {t : KernelState κ},
      LocalCall i F → a.task = some i → t.tasks = s.tasks → F t = .ok s' →
      ∃ s₂, F t.hide = .ok s₂ ∧ s₂.vm = s'.vm ∧ s₂.userTask = s'.userTask ∧
        ∀ k, SeenAs (s'.tasks k) (s₂.tasks k) ∧
          (SlotKept a s s' k ∨ ∃ i regs, a = .fork i regs ∧
            sysFork H I i regs s.hide = .ok (s₂, some k)) := by
    intro i F t hcall htask htasks hF
    obtain ⟨s₂, hrun, hvm, huser, hslots⟩ := hcall.exec htask (by rw [htasks]; exact hacts i htask) hF
    refine ⟨s₂, hrun, hvm, huser, fun k => ⟨(hslots k).1, Or.inl ?_⟩⟩
    have hkept := (hslots k).2
    rw [SlotKept, htasks] at hkept
    exact hkept
  cases a with
  | userTest i =>
      have hself := hideTask_of_ready (hacts i rfl)
      exact ⟨by simpa only [Enabled, hide_tasks, hide_userTask, hself] using henabled,
        hlocal (localCall_userTest i) rfl rfl hok⟩
  | fork i regs =>
      have hself := hideTask_of_ready (hacts i rfl)
      obtain ⟨⟨s'', r⟩, hfork, rfl⟩ := except_map_eq_ok.1 hok
      obtain ⟨s₂, hrun, hvm, huser, hslots⟩ := sysFork_hide (hacts i rfl) hfork
      refine ⟨by simpa only [Enabled, UserRuns, RegsOk, hide_tasks, hself] using henabled, s₂,
        by rw [exec, hrun, except_map_ok], hvm, huser, fun k => ⟨(hslots k).1, ?_⟩⟩
      -- the slot that is handed out is the only one that `sys_fork` may not keep
      by_cases hr : r = some k
      · exact Or.inr ⟨i, regs, rfl, by rw [hrun, hr]⟩
      · rcases (hslots k).2 hr with hk | hk
        · exact Or.inl (Or.inl hk)
        · exact Or.inl (Or.inr (Or.inl hk))
  | brk i regs addr =>
      have hself := hideTask_of_ready (hacts i rfl)
      refine ⟨by simpa only [Enabled, UserRuns, RegsOk, hide_tasks, hself] using henabled, ?_⟩
      rw [exec] at hok ⊢
      rw [show s.hide.withMem (store s.hide.vm.mem regs 8 addr) =
        (s.withMem (store s.vm.mem regs 8 addr)).hide from rfl]
      have htasks : (s.withMem (store s.vm.mem regs 8 addr)).tasks = s.tasks := rfl
      generalize s.withMem (store s.vm.mem regs 8 addr) = t at hok htasks ⊢
      exact hlocal (localCall_doBrk i regs) rfl htasks hok
  | exception i addr =>
      have hself := hideTask_of_ready (hacts i rfl)
      exact ⟨by simpa only [Enabled, UserRuns, hide_tasks, hself] using henabled,
        hlocal (localCall_doEl0Sync i addr) rfl rfl hok⟩
  | exit i =>
      have hself := hideTask_of_ready (hacts i rfl)
      exact ⟨by simpa only [Enabled, hide_tasks, hself] using henabled,
        hlocal (localCall_doExit i) rfl rfl hok⟩
  | userStore i virtAddr b =>
      have hself := hideTask_of_ready (hacts i rfl)
      refine ⟨by simpa only [Enabled, UserRuns, hide_tasks, hide_vm, hself] using henabled, s'.hide, ?_,
        rfl, rfl, fun k => ⟨Or.inl rfl, Or.inl ?_⟩⟩
      · cases hok
        simp only [exec, hide_tasks, hide_vm, hself]
        rfl
      · cases hok
        exact Or.inl rfl
  | kmallocUse heap =>
      cases hok
      exact ⟨trivial, _, rfl, rfl, rfl, fun k => ⟨Or.inl rfl, Or.inl (Or.inl rfl)⟩⟩

/-! ## The words at the base of the stacks -/

/-- Address spaces do not reach into kernel stacks. -/
theorem stack_of_local {I : KernelImage} {own own' : Set Nat} {vm vm' : VmState κ}
    (h : Local pageOf own own' vm.world vm'.world) (hown : ∀ a ∈ own, InPool a) {k x : Nat}
    (hk : k < maxNumProcesses) (hx : InStack I k x) : vm'.mem x = vm.mem x := by
  have hout := (I.stack_outside hk hx.1 hx.2).1
  exact h.same x (fun hin => hout (hown _ hin)) fun hfree => hout (FreeFrame.inPool hfree)

/-- Kernel stacks are not in the memory of the user program. -/
theorem stack_not_image {I : KernelImage} {k x a : Nat} (hk : k < maxNumProcesses) (hx : InStack I k x)
    (ha : InImage a) : pageOf x ≠ a := by
  rintro rfl
  have hge := I.stacks_ge
  have hle := I.stacks_le
  obtain ⟨h₁, h₂⟩ := hx
  simp only [KernelImage.stack, va, add64, pageOffset, pageSize, maxNumProcesses] at *
  simp only [InImage, lmaUser, userSize, uartBase, pageOf, pa, sub64, pageAddr, pageSize,
    pageOffset] at ha
  omega

section Words

variable {I : KernelImage} {k x : Nat}

theorem word_inStack (h₁ : I.stack k ≤ x) (h₂ : x < I.stack k + 8) : InStack I k x :=
  ⟨h₁, by simp only [pageSize]; omega⟩

/-- The saved registers of a task do not lie in the word at the base of a stack. -/
theorem word_not_regs {regs : Nat} (h : Invariant I u s) (hlive : (s.tasks i).live = true)
    (hregs : RegsOk s i regs) (habove : (s.tasks i).stack + 8 ≤ regs) (h₁ : I.stack k ≤ x)
    (h₂ : x < I.stack k + 8) : ¬(regs ≤ x ∧ x < regs + 8) := by
  rintro ⟨h₃, h₄⟩
  obtain ⟨hstack, -⟩ := (h.tasks i).stack (TaskStruct.live_iff.1 hlive).1
  obtain ⟨-, hle⟩ := hregs
  rw [hstack] at habove hle
  simp only [sizeofPtRegs] at hle
  have hin : InStack I i x := ⟨by omega, by omega⟩
  have hki := inStack_unique (word_inStack h₁ h₂) hin
  subst hki
  omega

/-- The memory of the slots that are in use keeps the words at the bases of their stacks. -/
theorem step_word {a : Action κ} (h : Invariant I u s) (ha : step H I u s a = some s')
    (habove : AboveWord s a) (hin : (s.tasks k).inUse = true) (h₁ : I.stack k ≤ x)
    (h₂ : x < I.stack k + 8) : s'.vm.mem x = s.vm.mem x := by
  obtain ⟨henabled, hok⟩ := step_eq ha
  obtain ⟨-, hk⟩ := (h.tasks k).stack hin
  have hx := word_inStack h₁ h₂
  have hout := (I.stack_outside hk hx.1 hx.2).1
  have hspace : ∀ {i : Nat} {mm mm' : MmStruct} {m : Mem} {vm vm' : VmState κ},
      SpaceOk m (physical true (s.tasks i).pgDir) mm → m = vm.mem →
      SpaceStep (physical true (s.tasks i).pgDir) mm vm mm' vm' → vm'.mem x = vm.mem x := by
    rintro i mm mm' m vm vm' hp rfl hs
    exact stack_of_local hs.moves (fun a ha => (hp.holdings.footprint_pool ha).1) hk hx
  have hexit : ∀ {i : Nat}, (s.tasks i).live = true → doExit H i s = .ok s' →
      s'.vm.mem x = s.vm.mem x := by
    intro i hlive hrun
    obtain ⟨vm, hvm, rfl⟩ := except_map_eq_ok.1 hrun
    obtain ⟨mm, hmm, hnil, hproc⟩ := (h.tasks i).mm hlive
    by_cases hdir : (s.tasks i).pgDir = 0
    · rw [hmm, hdir, exitMm_kernel (hnil hdir)] at hvm
      obtain rfl := Except.ok.inj hvm
      rfl
    · obtain ⟨vm', hrun', hmem, -, -⟩ := exitMm_spec (H := H) (hproc hdir).space.holdings
        (h.used hlive hdir hmm)
      rw [linear_pgDir (hproc hdir).dir_lt, ← hmm, hvm] at hrun'
      obtain rfl := Except.ok.inj hrun'
      exact congrFun hmem x
  cases a with
  | userTest i =>
      obtain ⟨hlive, hdir, -⟩ := henabled
      rcases userTest_cases (H := H) h hlive hdir with
        herr | herr | hrun | ⟨t, d, mm', vm₁, vm, hrun, ht⟩
      · rw [exec, herr] at hok
        cases hok
      · rw [exec, herr] at hok
        cases hok
      · rw [exec, hrun] at hok
        cases hok
        rfl
      · rw [exec, hrun] at hok
        obtain rfl := Except.ok.inj hok
        rcases @newSpace_spec κ d vm₁ mm' ht.new ht.dir.zero with
          herr | ⟨vm₂, T', hmap, -, -, -, -, hlocal, -⟩
        · rw [ht.map] at herr
          cases herr
        rw [ht.map] at hmap
        obtain rfl := Except.ok.inj hmap
        rw [blockFrames, ht.blocks] at hlocal
        calc t.vm.mem x = vm.mem x := ht.cleared fun a ha => stack_not_image hk hx ha
          _ = vm₁.mem x := stack_of_local hlocal (by
              rintro a (rfl | hno)
              · exact ht.dir.pool.1
              · cases hno) hk hx
          _ = s.vm.mem x := stack_of_local ht.dir.moves (fun a hno => hno.elim) hk hx
  | fork i regs =>
      obtain ⟨hruns, hregs⟩ := henabled
      have hnot := word_not_regs h hruns.1 hregs habove h₁ h₂
      -- the slot that is handed out is not in use
      have hchild : ∀ c tasks slot, SlotsKept s.tasks tasks slot → slot = some c → ¬InStack I c x := by
        intro c tasks slot hkept hc hxc
        have hfree := (hkept.taken c hc).2
        rw [← inStack_unique hx hxc, hin] at hfree
        cases hfree
      rcases sysFork_spec (H := H) h hruns hregs with
        herr | herr | ⟨slot, t, hrun, hf⟩ | ⟨c, d, parent, cm, t, hrun, -, hf⟩
      · rw [exec, herr] at hok
        cases hok
      · rw [exec, herr] at hok
        cases hok
      · rw [exec, hrun] at hok
        cases hok
        exact hf.mem x hnot (fun c hc => hchild c _ _ hf.slots hc) fun hno => hout (FreeFrame.inPool hno)
      · rw [exec, hrun] at hok
        cases hok
        obtain ⟨vm, vm', hmem, -, hspace', -, hmem'⟩ := hf.space
        have hxc := hchild c _ _ hf.slots rfl
        rw [hmem' x hxc hnot, stack_of_local hspace'.moves (fun a hno => hno.elim) hk hx, hmem x hxc]
  | brk i regs addr =>
      obtain ⟨hruns, hregs, haddr⟩ := henabled
      have hnot := word_not_regs h hruns.1 hregs habove h₁ h₂
      obtain ⟨mm, mm', vm₁, vm', hr⟩ := brk_cases h hruns hregs haddr hok
      have hcases := sysBrk_spec (H := H) hr.process.space hr.zero hr.used addr
      rw [linear_pgDir hr.process.dir_lt, hr.run] at hcases
      obtain ⟨mm₁, vm₂, hpair, hs⟩ := hcases.resolve_left fun hno => by cases hno.1
      cases hpair
      rw [hr.stored, store_same hnot, hspace hr.process.space rfl hs, hr.loaded, store_same hnot]
  | exception i addr =>
      obtain ⟨hruns, -⟩ := henabled
      obtain ⟨mm, hmm, hp⟩ := (h.tasks i).process hruns.1 hruns.2
      rw [exec] at hok
      simp only [doEl0Sync, hmm] at hok
      split_ifs at hok with hvma
      · exact hexit hruns.1 hok
      · have hcases := handleFault_spec (H := H) hp.space (h.used hruns.1 hruns.2 hmm) hvma
        rw [linear_pgDir hp.dir_lt] at hcases
        rcases hcases with herr | ⟨mm', vm', hrun, hs⟩
        · rw [herr] at hok
          cases hok
        · rw [hrun, except_map_ok] at hok
          obtain rfl := Except.ok.inj hok
          have hmem := hspace hp.space rfl hs
          exact hmem
  | exit i => exact hexit henabled hok
  | userStore i virtAddr b =>
      obtain ⟨hruns, -, hmapped⟩ := henabled
      obtain ⟨mm, -, hp⟩ := (h.tasks i).process hruns.1 hruns.2
      obtain ⟨f, hf⟩ := Option.isSome_iff_exists.1 hmapped
      have hstore := userByteAddr_inPage hf
      rw [exec] at hok
      generalize userByteAddr s.vm.mem (s.tasks i).pgDir virtAddr = y at hstore hok
      have hpage := pageOf_of_inPage (isPage_of_lookup hf) hstore
      cases hok
      refine update_other fun heq => ?_
      rw [hpage] at heq
      rcases hp.space.maps.place virtAddr f hf with hpool | himage
      · exact hout (heq ▸ hpool)
      · exact stack_not_image hk hx himage heq
  | kmallocUse heap =>
      cases hok
      rfl

end Words

/-! ## Other changes of the task table -/

/-- The tasks that are alive keep their address spaces, or have none yet. -/
theorem Invariant.retask {I : KernelImage} (h : Invariant I u s) (hmem : s'.vm.mem = s.vm.mem)
    (husage : s'.vm.pagesUsage = s.vm.pagesUsage) (huser : s'.userTask = s.userTask)
    (hstack : ∀ k, (s'.tasks k).inUse = true → (s'.tasks k).stack = I.stack k ∧ k < maxNumProcesses)
    (hunused : ∀ k, (s'.tasks k).inUse = false → s'.tasks k = {})
    (hlive : ∀ k, (s'.tasks k).live = true →
      ((s.tasks k).live = true ∧ (s'.tasks k).pgDir = (s.tasks k).pgDir ∧
        (s'.tasks k).mm = (s.tasks k).mm) ∨
      ((s'.tasks k).pgDir = 0 ∧ ∃ mm, (s'.tasks k).mm = some mm ∧ mm.mmap = [])) :
    Invariant I u s' := by
  have hfoot : ∀ k, taskFootprint s'.vm.mem (s'.tasks k) ⊆ taskFootprint s.vm.mem (s.tasks k) := by
    rintro k a ⟨hk, hdir, mm, hmm, ha⟩
    rcases hlive k hk with ⟨hlive', hdir', hmm'⟩ | ⟨hno, -⟩
    · rw [hdir', hmem] at ha
      rw [hdir'] at hdir
      rw [hmm'] at hmm
      exact ⟨hlive', hdir, mm, hmm, ha⟩
    · exact absurd hno hdir
  refine ⟨hmem ▸ h.zero, fun k => ⟨hstack k, hunused k, fun hk => ?_⟩, ⟨fun i j a hij ha ha' => ?_,
    fun i a ha hfree => ?_⟩, fun k hk hne mm hmm => ?_⟩
  · rcases hlive k hk with ⟨hlive', hdir', hmm'⟩ | ⟨hdir, mm, hmm, hnil⟩
    · rw [hdir', hmm', hmem]
      exact (h.tasks k).mm hlive'
    · exact ⟨mm, hmm, fun _ => hnil, fun hno => absurd hdir hno⟩
  · exact h.owned.apart i j a hij (hfoot i ha) (hfoot j ha')
  · refine h.owned.held i a (hfoot i ha) ?_
    rwa [VmState.world, husage] at hfree
  · rcases hlive k hk with ⟨hlive', -, hmm'⟩ | ⟨-, mm', hmm', hnil⟩
    · rw [hmm'] at hmm
      rw [huser] at hne
      exact h.pool k hlive' hne mm hmm
    · rw [hmm'] at hmm
      cases hmm
      intro x hx
      rw [hnil] at hx
      cases hx

/-! ## The invariant -/

/-- What slot `k` and the word at the base of its stack hold. -/
structure ThreadSlot (img : ThreadImage) (m : Mem) (k : Nat) (ran : Bool) (t : TaskStruct) : Prop where
  pid : t.inUse = true → t.pid = k + 1
  info : t.inUse = true → load m (img.stack k) 8 = img.task k
  context : t.ready = true → ran = false → t.thread.pc ≠ 0 ∧ img.stack k ≤ t.thread.sp ∧
    t.thread.sp < img.stack k + kernelStackSize

structure ThreadInv (img : ThreadImage) (u : UserImage) (s : ThreadState κ) : Prop where
  invariant : Invariant img.toKernelImage u s.kernel.hide
  slot : ∀ k, ThreadSlot img s.kernel.vm.mem k (s.ran k) (s.kernel.tasks k)

section Inv

variable {t t' : ThreadState κ} {k : Nat}

theorem hideTask_stack (t : TaskStruct) : (hideTask t).stack = t.stack := by
  rw [hideTask]
  split_ifs <;> rfl

theorem ThreadInv.stack (h : ThreadInv img u t) (hin : (t.kernel.tasks k).inUse = true) :
    (t.kernel.tasks k).stack = img.stack k ∧ k < maxNumProcesses := by
  have hstack := (h.invariant.tasks k).stack
  rw [hide_tasks, hideTask_inUse, hideTask_stack] at hstack
  exact hstack hin

theorem hideTask_of_not_inUse {t : TaskStruct} (h : t.inUse = false) : hideTask t = t := by
  refine if_neg fun hno => ?_
  rw [h] at hno
  cases hno.1

theorem ThreadInv.unused (h : ThreadInv img u t) (hin : (t.kernel.tasks k).inUse = false) :
    t.kernel.tasks k = {} := by
  have hunused := (h.invariant.tasks k).unused
  rw [hide_tasks, hideTask_inUse, hideTask_of_not_inUse hin] at hunused
  exact hunused hin

/-- The stack pointer leads to the task. -/
theorem ThreadInv.slotsOk (h : ThreadInv img u t) : SlotsOk img t := by
  refine ⟨fun i hi => h.unused hi, fun i hi => (h.stack hi).2, fun i hi => ?_, fun i hi => (h.stack hi).1,
    fun i hi => (h.slot i).info hi, fun i hi sp hge hlt => ?_, fun i hi => ?_, fun i hi => (h.slot i).context hi⟩
  · have hpid := (h.slot i).pid hi
    refine ⟨hpid, ?_⟩
    rw [hpid]
    exact_mod_cast pidToTask_succ (h.stack hi).2
  · have hbase : sp / kernelStackSize * kernelStackSize = img.stack i := by
      obtain ⟨n, hn⟩ := img_stack_dvd img.toKernelImage i
      simp only [kernelStackSize, pageSize] at *
      omega
    rw [getCurrentProc, hbase]
    exact (h.slot i).info hi
  · have hlive : (t.kernel.hide.tasks i).live = true := by
      rw [hide_tasks, live_hideTask]
      exact hi
    obtain ⟨mm, hmm, -⟩ := (h.invariant.tasks i).mm hlive
    rw [hide_tasks, hideTask_of_ready hi] at hmm
    rw [hmm]
    exact Option.some_ne_none mm

/-- Forgetting that the tasks of empty slots have run. -/
theorem ThreadInv.next (h : ThreadInv img u t) : ThreadInv img u (t.next t.kernel) := by
  refine ⟨h.invariant, fun k => ⟨(h.slot k).pid, (h.slot k).info, fun hready hran => ?_⟩⟩
  refine (h.slot k).context hready ?_
  rcases Bool.and_eq_false_iff.1 hran with hno | hno
  · exact hno
  · have hin : (t.kernel.tasks k).inUse = true := (ready_iff.1 hready).1
    rw [hin] at hno
    cases hno

/-- One slot, and the stack that belongs to it above its first word, have changed. -/
structure SlotChange (img : ThreadImage) (c : Nat) (s s' : KernelState κ) : Prop where
  tasks : s'.tasks = Function.update s.tasks c (s'.tasks c)
  mem : ∀ x, ¬(InStack img.toKernelImage c x ∧ img.stack c + 8 ≤ x) → s'.vm.mem x = s.vm.mem x
  /-- Only the stack of a slot that exists is written. -/
  lt : c < maxNumProcesses ∨ s'.vm.mem = s.vm.mem
  usage : s'.vm.pagesUsage = s.vm.pagesUsage
  user : s'.userTask = s.userTask
  inUse : (s'.tasks c).inUse = true → (s.tasks c).inUse = true ∧ (s'.tasks c).pid = (s.tasks c).pid ∧
    (s'.tasks c).stack = (s.tasks c).stack
  unused : (s'.tasks c).inUse = false → s'.tasks c = {}
  space : (s'.tasks c).ready = true →
    ((s.tasks c).ready = true ∧ (s'.tasks c).pgDir = (s.tasks c).pgDir ∧ (s'.tasks c).mm = (s.tasks c).mm) ∨
    ((s'.tasks c).pgDir = 0 ∧ ∃ mm, (s'.tasks c).mm = some mm ∧ mm.mmap = [])

theorem SlotChange.word {c x : Nat} (hc : SlotChange img c s s') (h₁ : img.stack k ≤ x)
    (h₂ : x < img.stack k + 8) : s'.vm.mem x = s.vm.mem x := by
  refine hc.mem x fun hin => ?_
  have hkc := inStack_unique (word_inStack h₁ h₂) hin.1
  subst hkc
  omega

theorem ThreadInv.change {c : Nat} (h : ThreadInv img u t) {s' : KernelState κ}
    (hc : SlotChange img c t.kernel s')
    (hcontext : (s'.tasks c).ready = true → t.ran c = false → (s'.tasks c).thread.pc ≠ 0 ∧
      img.stack c ≤ (s'.tasks c).thread.sp ∧ (s'.tasks c).thread.sp < img.stack c + kernelStackSize) :
    ThreadInv img u { t with kernel := s' } := by
  have hothers : ∀ k, k ≠ c → s'.tasks k = t.kernel.tasks k := fun k hk => by
    rw [hc.tasks, Function.update_of_ne hk]
  have hword : ∀ k, load s'.vm.mem (img.stack k) 8 = load t.kernel.vm.mem (img.stack k) 8 := fun k =>
    load_congr fun x h₁ h₂ => hc.word h₁ h₂
  -- first the stack is written
  have hwrite : Invariant img.toKernelImage u (t.kernel.hide.withMem s'.vm.mem) := by
    refine h.invariant.step (StepOf.write h.invariant c fun x hx => ?_)
    rcases hc.lt with hlt | hsame
    · exact hc.mem x fun hin => hx (img.stack_outside hlt hin.1.1 hin.1.2)
    · rw [hsame]
      rfl
  refine ⟨hwrite.retask rfl hc.usage hc.user (fun k hin => ?_) (fun k hin => ?_) fun k hlive => ?_,
    fun k => ?_⟩
  · change (hideTask (s'.tasks k)).inUse = true at hin
    change (hideTask (s'.tasks k)).stack = _ ∧ _
    rw [hideTask_inUse] at hin
    rw [hideTask_stack]
    by_cases hk : k = c
    · subst hk
      obtain ⟨hin', -, hstack⟩ := hc.inUse hin
      rw [hstack]
      exact h.stack hin'
    · rw [hothers k hk] at hin ⊢
      exact h.stack hin
  · change (hideTask (s'.tasks k)).inUse = false at hin
    change hideTask (s'.tasks k) = {}
    rw [hideTask_inUse] at hin
    rw [hideTask_of_not_inUse hin]
    by_cases hk : k = c
    · subst hk
      exact hc.unused hin
    · rw [hothers k hk] at hin ⊢
      exact h.unused hin
  · change (hideTask (s'.tasks k)).live = true at hlive
    change ((hideTask (t.kernel.tasks k)).live = true ∧ (hideTask (s'.tasks k)).pgDir =
      (hideTask (t.kernel.tasks k)).pgDir ∧ (hideTask (s'.tasks k)).mm = (hideTask (t.kernel.tasks k)).mm) ∨
      ((hideTask (s'.tasks k)).pgDir = 0 ∧ ∃ mm, (hideTask (s'.tasks k)).mm = some mm ∧ mm.mmap = [])
    by_cases hk : k = c
    · subst hk
      rw [live_hideTask] at hlive
      rw [hideTask_of_ready hlive]
      rcases hc.space hlive with ⟨hready, hdir, hmm⟩ | hnew
      · rw [live_hideTask, hideTask_of_ready hready]
        exact Or.inl ⟨hready, hdir, hmm⟩
      · exact Or.inr hnew
    · rw [hothers k hk] at hlive ⊢
      exact Or.inl ⟨hlive, rfl, rfl⟩
  · change ThreadSlot img s'.vm.mem k (t.ran k) (s'.tasks k)
    by_cases hk : k = c
    · subst hk
      refine ⟨fun hin => ?_, fun hin => ?_, hcontext⟩
      · rw [(hc.inUse hin).2.1]
        exact (h.slot k).pid (hc.inUse hin).1
      · rw [hword]
        exact (h.slot k).info (hc.inUse hin).1
    · rw [hothers k hk]
      refine ⟨(h.slot k).pid, fun hin => ?_, (h.slot k).context⟩
      rw [hword]
      exact (h.slot k).info hin

/-- The task `f` is put into slot `c`, and its stack is written. -/
theorem slot_change {c : Nat} {f : TaskStruct} {m : Mem} {heap : κ}
    (hmem : ∀ x, ¬(InStack img.toKernelImage c x ∧ img.stack c + 8 ≤ x) → m x = s.vm.mem x)
    (hlt : c < maxNumProcesses ∨ m = s.vm.mem)
    (hin : f.inUse = true →
      (s.tasks c).inUse = true ∧ f.pid = (s.tasks c).pid ∧ f.stack = (s.tasks c).stack)
    (hunused : f.inUse = false → f = {})
    (hspace : f.ready = true →
      ((s.tasks c).ready = true ∧ f.pgDir = (s.tasks c).pgDir ∧ f.mm = (s.tasks c).mm) ∨
      (f.pgDir = 0 ∧ ∃ mm, f.mm = some mm ∧ mm.mmap = [])) :
    SlotChange img c s
      { s with vm := { s.vm with mem := m, heap := heap }, tasks := Function.update s.tasks c f } := by
  have hself : Function.update s.tasks c f c = f := Function.update_self ..
  constructor
  case tasks => simp only [hself]
  case mem => exact hmem
  case lt => exact hlt
  case usage => rfl
  case user => rfl
  case inUse => simpa only [hself] using hin
  case unused => simpa only [hself] using hunused
  case space => simpa only [hself] using hspace

theorem freeTaskSlot_change (c : Nat) (heap : κ) : SlotChange img c s
    { s with vm := { s.vm with heap := heap }, tasks := freeTaskSlot s.tasks c } := by
  refine slot_change (f := {}) (fun _ _ => rfl) (Or.inr rfl) (fun hin => ?_) (fun _ => rfl) fun hno => ?_
  · cases hin
  · cases hno

/-- Changes of a task that keep its identity and its address space. -/
theorem update_change {c : Nat} {f : TaskStruct} (hin : (s.tasks c).inUse = true)
    (hf : f.inUse = true ∧ f.pid = (s.tasks c).pid ∧ f.stack = (s.tasks c).stack)
    (hspace : f.ready = true →
      (s.tasks c).ready = true ∧ f.pgDir = (s.tasks c).pgDir ∧ f.mm = (s.tasks c).mm) :
    SlotChange img c s { s with tasks := Function.update s.tasks c f } := by
  refine slot_change (fun _ _ => rfl) (Or.inr rfl) (fun _ => ⟨hin, hf.2⟩) (fun hno => ?_)
    fun hready => Or.inl (hspace hready)
  rw [hf.1] at hno
  cases hno

/-! ## Handing out a slot -/

/-- The state after `get_task_slot`. -/
def withSlots (s : KernelState κ) (tasks : TaskTable) (mem : Mem) : KernelState κ :=
  { s.withMem mem with tasks := tasks }

/-- The slot that is handed out is not in use before, and it is being filled afterwards. -/
theorem ThreadInv.getTaskSlot (h : ThreadInv img u t) {slot : Option Nat} {tasks : TaskTable} {mem : Mem}
    (hcall : getTaskSlot img.toKernelImage t.kernel.tasks t.kernel.vm.mem = (slot, tasks, mem)) :
    ThreadInv img u (t.next (withSlots t.kernel tasks mem)) ∧
      ∀ c, slot = some c → c < maxNumProcesses ∧ tasks c = takenSlot img.toKernelImage c {} := by
  have hslot := getTaskSlot_call hcall
  have hlt : ∀ c, slot = some c → c < maxNumProcesses := fun c hc => by
    have := (hslot.found c hc).1.2.1
    omega
  have htaken : ∀ c, slot = some c → tasks c = takenSlot img.toKernelImage c {} := fun c hc => by
    rw [(hslot.found c hc).2.2.1, h.unused (hslot.found c hc).2.1]
  refine ⟨?_, fun c hc => ⟨hlt c hc, htaken c hc⟩⟩
  -- a slot that is not handed out is kept, or it is cleared
  have hkept : ∀ k, slot ≠ some k → tasks k = t.kernel.tasks k ∨ tasks k = {} := by
    intro k hk
    by_cases hreap : Reapable t.kernel.tasks k
    · exact Or.inr (hslot.reaped k hreap)
    · exact Or.inl (hslot.same k hk hreap)
  have hword : ∀ k, slot ≠ some k → load mem (img.stack k) 8 = load t.kernel.vm.mem (img.stack k) 8 := by
    intro k hk
    refine load_congr fun x h₁ h₂ => ?_
    cases slot with
    | none => rw [(hslot.full rfl).2]
    | some c =>
        rw [(hslot.found c rfl).2.2.2]
        refine store_same fun hin => hk ?_
        rw [inStack_unique (word_inStack h₁ h₂) (word_inStack hin.1 hin.2)]
  have hwrite : Invariant img.toKernelImage u (t.kernel.hide.withMem mem) := by
    refine h.invariant.step (StepOf.write h.invariant 0 fun x hx => ?_)
    cases slot with
    | none =>
        rw [(hslot.full rfl).2]
        rfl
    | some c =>
        rw [(hslot.found c rfl).2.2.2]
        refine store_same fun hin => hx ?_
        obtain ⟨h₁, h₂⟩ := word_inStack hin.1 hin.2
        exact img.stack_outside (hlt c rfl) h₁ h₂
  refine ⟨hwrite.retask rfl rfl rfl (fun k hin => ?_) (fun k hin => ?_) fun k hlive => ?_, fun k => ?_⟩
  · change (hideTask (tasks k)).inUse = true at hin
    change (hideTask (tasks k)).stack = _ ∧ _
    rw [hideTask_inUse] at hin
    rw [hideTask_stack]
    by_cases hk : slot = some k
    · rw [htaken k hk]
      exact ⟨rfl, hlt k hk⟩
    · rcases hkept k hk with heq | heq
      · rw [heq] at hin ⊢
        exact h.stack hin
      · rw [heq] at hin
        cases hin
  · change (hideTask (tasks k)).inUse = false at hin
    change hideTask (tasks k) = {}
    rw [hideTask_inUse] at hin
    rw [hideTask_of_not_inUse hin]
    by_cases hk : slot = some k
    · rw [htaken k hk] at hin
      cases hin
    · rcases hkept k hk with heq | heq
      · rw [heq] at hin ⊢
        exact h.unused hin
      · exact heq
  · change (hideTask (tasks k)).live = true at hlive
    by_cases hk : slot = some k
    · rw [live_hideTask, htaken k hk] at hlive
      cases hlive
    · rcases hkept k hk with heq | heq
      · refine Or.inl ?_
        change (hideTask (t.kernel.tasks k)).live = true ∧ (hideTask (tasks k)).pgDir = _ ∧
          (hideTask (tasks k)).mm = _
        rw [heq] at hlive ⊢
        exact ⟨hlive, rfl, rfl⟩
      · rw [heq] at hlive
        cases hlive
  · change ThreadSlot img mem k (t.ran k && (t.kernel.tasks k).inUse) (tasks k)
    by_cases hk : slot = some k
    · rw [htaken k hk]
      refine ⟨fun _ => rfl, fun _ => ?_, fun hready => ?_⟩
      · rw [(hslot.found k hk).2.2.2]
        refine load_store_same ?_
        have hle := img.tasks_le
        have hk' := hlt k hk
        simp only [KernelImage.task, sizeofTaskStruct, maxNumProcesses] at *
        omega
      · cases hready
    · rcases hkept k hk with heq | heq
      · rw [heq]
        refine ⟨(h.slot k).pid, fun hin => ?_, (h.next.slot k).context⟩
        rw [hword k hk]
        exact (h.slot k).info hin
      · rw [heq]
        refine ⟨?_, ?_, ?_⟩
        · intro hin
          cases hin
        · intro hin
          cases hin
        · intro hin
          cases hin

/-- The slot that `kernel_thread` fills or clears, after `get_task_slot` has handed it out. -/
theorem ThreadInv.kernelThread (h : ThreadInv img u t) (name : Option (List UInt8)) (fn args : Nat) :
    ThreadInv img u (t.next (kernelThread H img name fn args t.kernel).2) := by
  cases name with
  | none => exact h.next
  | some name =>
      rcases hcall : Kernel.getTaskSlot img.toKernelImage t.kernel.tasks t.kernel.vm.mem with ⟨slot, tasks, mem⟩
      obtain ⟨hinv, hslot⟩ := h.getTaskSlot hcall
      rcases hkm : H.kmalloc t.kernel.vm.heap sizeofMmStruct with ⟨mm, heap⟩
      simp only [Kernel.kernelThread, hcall, hkm]
      by_cases hfn : fn = 0
      · rw [if_pos hfn]
        exact h.next
      rw [if_neg hfn]
      cases slot with
      | none => exact hinv
      | some c =>
          obtain ⟨hc, htaken⟩ := hslot c rfl
          simp only [htaken, takenSlot, freeTaskSlot, Function.update_idem]
          by_cases hmm : mm = 0
          · rw [if_pos hmm]
            refine hinv.change (freeTaskSlot_change c heap) fun hno => ?_
            simp only [Function.update_self] at hno
            cases hno
          rw [if_neg hmm]
          generalize hf : ({ inUse := true
                             pid := c + 1
                             stack := img.stack c
                             comm := strncpy (List.replicate 16 0) name (taskCommLen - 1)
                             mm := some { self := mm }
                             state := .running
                             thread := { fp := 0
                                         pc := img.callThreadFunc
                                         sp := img.stack c + kernelStackSize - 16 } } : TaskStruct) = f
          refine hinv.change (slot_change (f := f) (fun x hx => ?_) (Or.inl hc) (fun _ => ?_)
            (fun hno => ?_) fun _ => Or.inr ?_) fun _ _ => ?_
          · -- what is pushed lies at the other end of the stack
            have hrange : ¬(img.stack c + 4080 ≤ x ∧ x < img.stack c + 4096) := by
              rintro ⟨h₁, h₂⟩
              exact hx ⟨⟨by omega, by simp only [pageSize]; omega⟩, by omega⟩
            simp only [kernelStackSize]
            rw [store_same (by omega), store_same (by omega)]
            rfl
          · change (tasks c).inUse = true ∧ f.pid = (tasks c).pid ∧ f.stack = (tasks c).stack
            rw [htaken, ← hf]
            exact ⟨rfl, rfl, rfl⟩
          · rw [← hf] at hno
            cases hno
          · rw [← hf]
            exact ⟨rfl, _, rfl, rfl⟩
          · simp only [Function.update_self]
            rw [← hf]
            exact ⟨img.callThreadFunc_ne, by simp only [kernelStackSize]; omega,
              by simp only [kernelStackSize]; omega⟩

/-! ## Steps -/

/-- The child of `sys_fork`, seen in the state in which slots are hidden. -/
theorem forked_slot {I : KernelImage} {regs : Nat} {s s₂ : KernelState κ} (h : Invariant I u s)
    (henabled : UserRuns s i ∧ RegsOk s i regs) (hrun : sysFork H I i regs s = .ok (s₂, some k)) :
    ∃ d parent cm, Forked I i regs k d parent cm s s₂ := by
  rcases sysFork_spec (H := H) h henabled.1 henabled.2 with
    herr | herr | ⟨slot, s', hok, -⟩ | ⟨c, d, parent, cm, s', hok, -, hf⟩
  · rw [herr] at hrun
    cases hrun
  · rw [herr] at hrun
    cases hrun
  · rw [hok] at hrun
    cases hrun
  · rw [hok] at hrun
    cases hrun
    exact ⟨d, parent, cm, hf⟩

/-- The child is not hidden. -/
theorem seenAs_running {t' f : TaskStruct} (h : SeenAs t' f) (hin : f.inUse = true)
    (hstate : f.state = .running) : t' = f := by
  rcases h with heq | ⟨heq, -⟩
  · rw [heq, hideTask_of_state]
    intro hno
    rw [heq, hideTask, if_pos ⟨by rw [heq, hideTask_inUse] at hin; exact hin, hno⟩] at hstate
    cases hstate
  · rw [heq] at hin
    cases hin

/-- A call of the kernel. -/
theorem ThreadInv.kernelStep (h : ThreadInv img u t) {a : Action κ} (hacts : t.acts a.task = true)
    (habove : AboveWord t.kernel a) {s' : KernelState κ}
    (ha : step H img.toKernelImage u t.kernel a = some s') : ThreadInv img u (t.next s') := by
  have hready : ∀ i, a.task = some i → (t.kernel.tasks i).ready = true ∧ t.ran i = true := by
    intro i hi
    rw [hi] at hacts
    exact Bool.and_eq_true_iff.1 hacts
  obtain ⟨s₂, hstep₂, hvm, huser, hslots⟩ := step_hide (fun i hi => (hready i hi).1) ha
  have h₂ := step_invariant h.invariant hstep₂
  have habove₂ : AboveWord t.kernel.hide a := by
    cases a <;> first
      | exact trivial
      | simpa only [AboveWord, hide_tasks, hideTask_stack] using habove
  -- what is in a slot after the step
  have hkept : ∀ k, SlotKept a t.kernel s' k ∨ ∃ i regs d parent cm, a = .fork i regs ∧
      (t.kernel.tasks i).stack + 8 ≤ regs ∧ RegsOk t.kernel.hide i regs ∧
      s'.tasks k = s₂.tasks k ∧ Forked img.toKernelImage i regs k d parent cm t.kernel.hide s₂ := by
    intro k
    rcases (hslots k).2 with hkept | ⟨i, regs, rfl, hrun⟩
    · exact Or.inl hkept
    · obtain ⟨henabled, -⟩ := step_eq hstep₂
      obtain ⟨d, parent, cm, hf⟩ := forked_slot h.invariant henabled hrun
      exact Or.inr ⟨i, regs, d, parent, cm, rfl, habove, henabled.2,
        seenAs_running (hslots k).1 hf.inUse hf.running, hf⟩
  have hword : ∀ k, (t.kernel.tasks k).inUse = true →
      load s'.vm.mem (img.stack k) 8 = load t.kernel.vm.mem (img.stack k) 8 := by
    intro k hin
    have hin' : (t.kernel.hide.tasks k).inUse = true := by rwa [hide_tasks, hideTask_inUse]
    rw [← hvm, ← hide_vm t.kernel]
    refine load_congr fun x h₁ h₂ => ?_
    exact step_word h.invariant hstep₂ habove₂ hin' h₁ h₂
  have hstack : ∀ k, (s'.tasks k).inUse = true → (s'.tasks k).stack = img.stack k ∧ k < maxNumProcesses := by
    intro k hin
    rcases hkept k with (heq | heq | ⟨-, state, pgDir, mm, heq⟩) |
      ⟨i, regs, d, parent, cm, -, -, -, heq, hf⟩
    · rw [heq] at hin ⊢
      exact h.stack hin
    · rw [heq] at hin
      cases hin
    · rw [heq] at hin ⊢
      exact h.stack hin
    · rw [heq]
      exact ⟨hf.stack, by have := (hf.slots.taken k rfl).1.2.1; omega⟩
  refine ⟨h₂.retask (congrArg VmState.mem hvm.symm) (congrArg VmState.pagesUsage hvm.symm) huser.symm
    (fun k hin => ?_) (fun k hin => ?_) fun k hlive => ?_, fun k => ?_⟩
  · change (hideTask (s'.tasks k)).inUse = true at hin
    change (hideTask (s'.tasks k)).stack = _ ∧ _
    rw [hideTask_inUse] at hin
    rw [hideTask_stack]
    exact hstack k hin
  · change (hideTask (s'.tasks k)).inUse = false at hin
    change hideTask (s'.tasks k) = {}
    rw [hideTask_inUse] at hin
    rw [hideTask_of_not_inUse hin]
    rcases hkept k with (heq | heq | ⟨htask, state, pgDir, mm, heq⟩) |
      ⟨i, regs, d, parent, cm, -, -, -, heq, hf⟩
    · rw [heq] at hin ⊢
      exact h.unused hin
    · exact heq
    · rw [heq] at hin
      have huse := (ready_iff.1 (hready k htask).1).1
      rw [show (t.kernel.tasks k).inUse = false from hin] at huse
      cases huse
    · rw [heq, hf.inUse] at hin
      cases hin
  · change (hideTask (s'.tasks k)).live = true at hlive
    change ((s₂.tasks k).live = true ∧ (hideTask (s'.tasks k)).pgDir = _ ∧
      (hideTask (s'.tasks k)).mm = _) ∨ _
    rcases (hslots k).1 with heq | ⟨-, hno⟩
    · rw [heq]
      exact Or.inl ⟨hlive, rfl, rfl⟩
    · rw [hno] at hlive
      cases hlive
  · change ThreadSlot img s'.vm.mem k (t.ran k && (t.kernel.tasks k).inUse) (s'.tasks k)
    rcases hkept k with (heq | heq | ⟨htask, state, pgDir, mm, heq⟩) |
      ⟨i, regs, d, parent, cm, rfl, hregs, ⟨hge, hle⟩, heq, hf⟩
    · rw [heq]
      refine ⟨(h.slot k).pid, fun hin => ?_, (h.next.slot k).context⟩
      rw [hword k hin]
      exact (h.slot k).info hin
    · rw [heq]
      refine ⟨fun hin => ?_, fun hin => ?_, fun hin => ?_⟩ <;> cases hin
    · -- the task that acts has run
      obtain ⟨hacting, hran⟩ := hready k htask
      have huse := (ready_iff.1 hacting).1
      rw [heq]
      refine ⟨fun _ => (h.slot k).pid huse, fun _ => ?_, fun _ hno => ?_⟩
      · rw [hword k huse]
        exact (h.slot k).info huse
      · rw [hran, huse] at hno
        cases hno
    · obtain ⟨hstack, -⟩ := h.stack (ready_iff.1 (hready i rfl).1).1
      rw [hide_tasks, hideTask_stack, hstack] at hge hle
      rw [hstack] at hregs
      obtain ⟨n, hn⟩ := img_stack_dvd img.toKernelImage i
      have hk := (hf.slots.taken k rfl).1.2.1
      have hoffset : 8 ≤ regs % pageSize ∧ regs % pageSize < pageSize := by
        simp only [pageSize, sizeofPtRegs] at *
        omega
      rw [heq]
      refine ⟨fun _ => hf.pid, fun _ => ?_, fun _ _ => ⟨?_, ?_, ?_⟩⟩
      · rw [← hvm, hf.info hoffset.1]
        have hle := img.tasks_le
        refine Nat.mod_eq_of_lt ?_
        simp only [KernelImage.task, sizeofTaskStruct, maxNumProcesses] at *
        omega
      · rw [hf.pc]
        exact img.childReturnsFromFork_ne
      · rw [hf.sp]
        omega
      · rw [hf.sp]
        simp only [pageSize, kernelStackSize] at *
        omega

theorem ThreadInv.step (h : ThreadInv img u t) {a : ThreadAction κ} (ha : threadStep H img u t a = some t') :
    ThreadInv img u t' := by
  cases a with
  | kernel a =>
      simp only [threadStep] at ha
      split_ifs at ha with henabled
      obtain ⟨s', hstep, rfl⟩ := Option.map_eq_some_iff.1 ha
      exact h.kernelStep henabled.1 henabled.2 hstep
  | getTaskSlot =>
      rcases hcall : Kernel.getTaskSlot img.toKernelImage t.kernel.tasks t.kernel.vm.mem with
        ⟨slot, tasks, mem⟩
      simp only [threadStep, hcall] at ha
      cases ha
      exact (h.getTaskSlot hcall).1
  | freeTaskSlot i =>
      cases ha
      refine h.next.change (freeTaskSlot_change i t.kernel.vm.heap) fun hno => ?_
      simp only [Kernel.freeTaskSlot, Function.update_self] at hno
      cases hno
  | kernelThread name fn args =>
      cases ha
      exact h.kernelThread name fn args
  | setTaskState i state =>
      simp only [threadStep] at ha
      split_ifs at ha with hready
      cases ha
      have hin := (ready_iff.1 hready).1
      refine h.change (update_change hin ⟨hin, rfl, rfl⟩ fun _ => ⟨hready, rfl, rfl⟩) fun _ hran => ?_
      simp only [Kernel.setTaskState, Function.update_self]
      exact (h.slot i).context hready hran
  | dispatch i =>
      simp only [threadStep] at ha
      split_ifs at ha
      cases ha
      refine ⟨h.invariant, fun k => ⟨(h.slot k).pid, (h.slot k).info, fun hready hran => ?_⟩⟩
      -- from here on the context of the task is in the registers
      by_cases hk : k = i
      · subst hk
        simp only [Function.update_self] at hran
        cases hran
      · simp only [Function.update_of_ne hk] at hran
        exact (h.slot k).context hready hran
  | save i context =>
      simp only [threadStep] at ha
      split_ifs at ha with hsaved
      cases ha
      refine h.change (update_change hsaved.1 ⟨hsaved.1, rfl, rfl⟩ fun hready => ⟨hready, rfl, rfl⟩)
        fun _ hran => ?_
      rw [hsaved.2] at hran
      cases hran
  | push i x b =>
      simp only [threadStep] at ha
      split_ifs at ha with hpush
      cases ha
      obtain ⟨hi, hge, hlt⟩ := hpush
      refine h.change (c := i) ⟨(Function.update_eq_self ..).symm, fun y hy => ?_, Or.inl hi, rfl, rfl,
        fun hin => ⟨hin, rfl, rfl⟩, fun hin => h.unused hin, fun hready => Or.inl ⟨hready, rfl, rfl⟩⟩
        (h.slot i).context
      -- the byte lies on the stack of the task, above the word at its base
      refine Function.update_of_ne (fun hyx => hy ?_) ..
      rw [hyx]
      exact ⟨⟨by omega, hlt⟩, hge⟩

theorem threadBoot_inv (hb : ThreadBoot t) : ThreadInv img u t := by
  have htask : ∀ k, t.kernel.hide.tasks k = {} := fun k => by
    rw [hide_tasks, hb.tasks k]
    rfl
  refine ⟨boot_invariant ⟨hb.zero, hb.user, fun i _ => ?_, fun i _ => htask i, fun i hin => ?_, fun i => ?_,
    fun i hin => ?_⟩, fun k => ?_⟩
  · rw [htask i]
  · rw [htask i] at hin
    cases hin
  · rw [htask i]
  · rw [htask i] at hin
    cases hin
  · rw [hb.tasks k]
    refine ⟨fun hin => ?_, fun hin => ?_, fun hin => ?_⟩ <;> cases hin

end Inv

/-- Whatever sequence of calls has been made, every slot is empty or belongs to its stack. -/
theorem threadRun_slots {t₀ t : ThreadState κ} {as : List (ThreadAction κ)} (hb : ThreadBoot t₀)
    (hrun : runFrom (threadStep H img u) t₀ as = some t) : SlotsOk img t := by
  have hinv : ThreadInv img u t :=
    runFrom_invariant (fun _ _ _ h ha => h.step ha) (threadBoot_inv hb) hrun
  exact hinv.slotsOk

def sampleThreadImage : ThreadImage where
  toKernelImage := sampleImage
  callThreadFunc := va 0x40010400
  callThreadFunc_ne := by decide
  childReturnsFromFork_ne := by decide
  tasks_le := by decide

/-- A pool of pages and a task table that are empty. -/
def sampleThreadBoot : ThreadState (List Nat) where
  kernel := { vm := { mem := fun _ => 0, pagesUsage := fun _ => false, heap := [] }
              tasks := fun _ => {}
              userTask := none }
  ran _ := false

/-- A thread runs a user program and forks; `kmalloc` fails for the next thread. -/
def sampleThreads : List (ThreadAction (List Nat)) :=
  [ .kernelThread (some [105]) 4096 0, .dispatch 0, .kernel (.userTest 0),
    .kernel (.fork 0 (sampleImage.stack 0 + 3000)), .push 0 (sampleImage.stack 0 + 8) 255,
    .setTaskState 0 .sleeping, .kernel (.kmallocUse [0]), .kernelThread (some [106]) 4096 0, .getTaskSlot ]

theorem sampleThreads_slots : ∃ t,
    runFrom (threadStep sampleHeap sampleThreadImage sampleUser) sampleThreadBoot sampleThreads = some t ∧
      (t.kernel.tasks 1).ready = true ∧ (t.kernel.tasks 2).inUse = true ∧ SlotsOk sampleThreadImage t := by
  have hend : (runFrom (threadStep sampleHeap sampleThreadImage sampleUser) sampleThreadBoot
      sampleThreads).map (fun t => ((t.kernel.tasks 1).ready, (t.kernel.tasks 2).inUse)) =
      some (true, true) := by decide +kernel
  obtain ⟨t, hrun, hready⟩ := Option.map_eq_some_iff.1 hend
  simp only [Prod.mk.injEq] at hready
  exact ⟨t, hrun, hready.1, hready.2, threadRun_slots ⟨fun _ _ => rfl, rfl, fun _ => rfl⟩ hrun⟩

end Kernel
end ToutOS
