import ToutOS.Kernel.Threads

/-!
# Swapper — the threads of the kernel

Besides the tasks of the table there is a swapper on every CPU, which runs from boot on and whenever no
task is ready.

* `SwapperImage` — where the linker has put the records and the stacks of the swappers;
* `SwapperImage.placement` — no two threads share memory;
* `initSched` — `init_sched`, and `initSched_boot`: the machine that `Threads` starts from;
* `SmpView`, `cpuSwitchTo_refines` — the step `switchTo` of the scheduler is what the instructions of
  `cpu_switch_to` do.
-/

namespace ToutOS
namespace Kernel

open Base Mm

/-- `swapper_task_struct` and `swapper_stacks` of a machine with `N` CPUs, apart from the arrays of the
tasks. -/
structure SwapperImage (N : Nat) extends ThreadImage where
  swapperTaskStruct : Nat
  swapperStacks : Nat
  swapperStacks_dvd : pageSize ∣ swapperStacks
  swapperStacks_le : swapperStacks + pageSize * N < 2 ^ 64
  swapperTaskStruct_le : swapperTaskStruct + sizeofTaskStruct * N ≤ 2 ^ 64
  stacks_apart : swapperStacks + pageSize * N ≤ procKernelStacks ∨
    procKernelStacks + pageSize * maxNumProcesses ≤ swapperStacks
  records_apart : swapperTaskStruct + sizeofTaskStruct * N ≤ tasks ∨
    tasks + sizeofTaskStruct * maxNumProcesses ≤ swapperTaskStruct
  tasks_stacks : tasks + sizeofTaskStruct * maxNumProcesses ≤ procKernelStacks ∨
    procKernelStacks + pageSize * maxNumProcesses ≤ tasks
  tasks_swapperStacks : tasks + sizeofTaskStruct * maxNumProcesses ≤ swapperStacks ∨
    swapperStacks + pageSize * N ≤ tasks
  swapper_stacks : swapperTaskStruct + sizeofTaskStruct * N ≤ procKernelStacks ∨
    procKernelStacks + pageSize * maxNumProcesses ≤ swapperTaskStruct
  swapper_swapperStacks : swapperTaskStruct + sizeofTaskStruct * N ≤ swapperStacks ∨
    swapperStacks + pageSize * N ≤ swapperTaskStruct

/-- A task of the table, or the swapper of a CPU. -/
abbrev KernelThread (N : Nat) := Fin maxNumProcesses ⊕ Fin N

variable {N : Nat}

/-- `&tasks[i]`, or `&swapper_task_struct[i]`. -/
def SwapperImage.record (img : SwapperImage N) : KernelThread N → Nat
  | .inl i => img.task i
  | .inr i => img.swapperTaskStruct + sizeofTaskStruct * i

/-- `&proc_kernel_stacks[i]`, or `&swapper_stacks[i]`. -/
def SwapperImage.stackOf (img : SwapperImage N) : KernelThread N → Nat
  | .inl i => img.stack i
  | .inr i => img.swapperStacks + pageSize * i

/-- Two elements of an array. -/
theorem elements_apart {a size i j : Nat} (h : i ≠ j) :
    a + size * i + size ≤ a + size * j ∨ a + size * j + size ≤ a + size * i := by
  rcases Nat.lt_or_gt_of_ne h with hlt | hlt
  · have := Nat.mul_le_mul_left size (Nat.succ_le_of_lt hlt)
    rw [Nat.mul_succ] at this
    omega
  · have := Nat.mul_le_mul_left size (Nat.succ_le_of_lt hlt)
    rw [Nat.mul_succ] at this
    omega

/-- An element lies inside its array. -/
theorem element_le {a size i n : Nat} (h : i < n) :
    a ≤ a + size * i ∧ a + size * i + size ≤ a + size * n := by
  have := Nat.mul_le_mul_left size (Nat.succ_le_of_lt h)
  rw [Nat.mul_succ] at this
  omega

section Placement

variable (img : SwapperImage N)

/-- The records of the table, and those of the swappers. -/
theorem record_range (t : KernelThread N) :
    (t.isLeft = true ∧ img.tasks ≤ img.record t ∧
      img.record t + sizeofTaskStruct ≤ img.tasks + sizeofTaskStruct * maxNumProcesses) ∨
    (t.isLeft = false ∧ img.swapperTaskStruct ≤ img.record t ∧
      img.record t + sizeofTaskStruct ≤ img.swapperTaskStruct + sizeofTaskStruct * N) := by
  rcases t with i | i
  · exact .inl ⟨rfl, element_le i.isLt⟩
  · exact .inr ⟨rfl, element_le i.isLt⟩

/-- The stacks of the tasks, and those of the swappers. -/
theorem stackOf_range (t : KernelThread N) :
    (t.isLeft = true ∧ img.procKernelStacks ≤ img.stackOf t ∧
      img.stackOf t + pageSize ≤ img.procKernelStacks + pageSize * maxNumProcesses) ∨
    (t.isLeft = false ∧ img.swapperStacks ≤ img.stackOf t ∧
      img.stackOf t + pageSize ≤ img.swapperStacks + pageSize * N) := by
  rcases t with i | i
  · exact .inl ⟨rfl, element_le i.isLt⟩
  · exact .inr ⟨rfl, element_le i.isLt⟩

theorem record_apart {t u : KernelThread N} (hne : t ≠ u) :
    img.record t + sizeofTaskStruct ≤ img.record u ∨ img.record u + sizeofTaskStruct ≤ img.record t := by
  have ht := record_range img t
  have hu := record_range img u
  have happart := img.records_apart
  rcases t with i | i <;> rcases u with j | j
  · exact elements_apart fun he => hne (by rw [Fin.ext he])
  · simp only [Sum.isLeft_inl, Sum.isLeft_inr, true_and, false_and, or_false, false_or, reduceCtorEq] at ht hu
    omega
  · simp only [Sum.isLeft_inl, Sum.isLeft_inr, true_and, false_and, or_false, false_or, reduceCtorEq] at ht hu
    omega
  · exact elements_apart fun he => hne (by rw [Fin.ext he])

theorem stackOf_apart {t u : KernelThread N} (hne : t ≠ u) :
    img.stackOf t + pageSize ≤ img.stackOf u ∨ img.stackOf u + pageSize ≤ img.stackOf t := by
  have ht := stackOf_range img t
  have hu := stackOf_range img u
  have happart := img.stacks_apart
  rcases t with i | i <;> rcases u with j | j
  · exact elements_apart fun he => hne (by rw [Fin.ext he])
  · simp only [Sum.isLeft_inl, Sum.isLeft_inr, true_and, false_and, or_false, false_or, reduceCtorEq] at ht hu
    omega
  · simp only [Sum.isLeft_inl, Sum.isLeft_inr, true_and, false_and, or_false, false_or, reduceCtorEq] at ht hu
    omega
  · exact elements_apart fun he => hne (by rw [Fin.ext he])

/-- The stacks and the records of all threads are apart. -/
def SwapperImage.placement : Placement (KernelThread N) where
  record := img.record
  stack := img.stackOf
  record_le t := by
    have ht := record_range img t
    have htasks := img.tasks_le
    have hswapper := img.swapperTaskStruct_le
    omega
  stack_le t := by
    have ht := stackOf_range img t
    have hstacks := img.stacks_le
    have hswapper := img.swapperStacks_le
    have hva : va 0x40080000 < 2 ^ 64 := by decide
    have hsize : kernelStackSize = pageSize := rfl
    omega
  stack_dvd t := by
    rcases t with i | i
    · exact Nat.dvd_add img.stacks_dvd (Nat.dvd_mul_right pageSize i)
    · exact Nat.dvd_add img.swapperStacks_dvd (Nat.dvd_mul_right pageSize i)
  records_apart _ _ hne := record_apart img hne
  stacks_apart _ _ hne := stackOf_apart img hne
  apart t u := by
    have ht := record_range img t
    have hu := stackOf_range img u
    have h₁ := img.tasks_stacks
    have h₂ := img.tasks_swapperStacks
    have h₃ := img.swapper_stacks
    have h₄ := img.swapper_swapperStacks
    have hsize : kernelStackSize = pageSize := rfl
    omega

end Placement

/-! ## `init_sched` -/

/-- The loop of `init_sched`, as far as the memory goes: the word at the base of each swapper's stack. -/
def initSchedLoop (img : SwapperImage N) : Nat → Nat → Mem → Mem
  | 0, _, m => m
  | left + 1, i, m =>
      initSchedLoop img left (i + 1)
        (storeWord m (img.swapperStacks + pageSize * i)
          (BitVec.ofNat 64 (img.swapperTaskStruct + sizeofTaskStruct * i)))

/-- `init_sched`: the words and the records of the swappers. -/
def initSched (img : SwapperImage N) (m : Mem) : Mem × (Fin N → TaskStruct) :=
  (initSchedLoop img N 0 m, fun i =>
    { state := .running
      stack := img.stackOf (.inr i)
      pid := 0
      inUse := true
      comm := strncpy (List.replicate taskCommLen 0) "swapper".toUTF8.toList (taskCommLen - 1) })

/-- The loop keeps the words that it has written. -/
theorem initSchedLoop_word (img : SwapperImage N) (left i : Nat) (m : Mem) {j : Nat}
    (hj : j < i + left)
    (hm : j < i → loadWord m (img.swapperStacks + pageSize * j) =
      BitVec.ofNat 64 (img.swapperTaskStruct + sizeofTaskStruct * j)) :
    loadWord (initSchedLoop img left i m) (img.swapperStacks + pageSize * j) =
      BitVec.ofNat 64 (img.swapperTaskStruct + sizeofTaskStruct * j) := by
  induction left generalizing i m with
  | zero => exact hm hj
  | succ left ih =>
      refine ih (i + 1) _ (by omega) fun hlt => ?_
      by_cases he : j = i
      · rw [he, loadWord_storeWord_same]
      · have happart := @elements_apart img.swapperStacks pageSize _ _ he
        have hsize : pageSize = 4096 := rfl
        rw [loadWord_storeWord_ne (by omega), hm (by omega)]

/-- The machine after `init_sched`: every CPU executes its swapper, with the stack pointer on the stack of
the swapper and nothing saved for any thread. -/
theorem initSched_boot (img : SwapperImage N) (m : Mem) {cpu : Fin N → ArmRegs}
    (hlow : ∀ c, img.stackOf (.inr c) + 8 ≤ (cpu c).sp.toNat)
    (hhigh : ∀ c, (cpu c).sp.toNat ≤ img.stackOf (.inr c) + kernelStackSize) :
    ThreadsBoot img.placement
      { cpu := cpu, mem := (initSched img m).1, current := .inr, history := fun _ => {} } where
  history _ := rfl
  low := hlow
  high := hhigh
  apart _ _ he := Sum.inr.inj he
  info c := initSchedLoop_word img N 0 m (by omega) fun h => absurd h (Nat.not_lt_zero _)

/-- Numbers stand for the two CPUs. -/
instance neZeroCpus : NeZero 2 := ⟨by decide⟩

/-- One way to link the swappers of two CPUs. -/
def sampleSwapperImage : SwapperImage 2 where
  toThreadImage := sampleThreadImage
  swapperTaskStruct := va 0x40058000
  swapperStacks := va 0x40060000
  swapperStacks_dvd := by decide
  swapperStacks_le := by decide
  swapperTaskStruct_le := by decide
  stacks_apart := by decide
  records_apart := by decide
  tasks_stacks := by decide
  tasks_swapperStacks := by decide
  swapper_stacks := by decide
  swapper_swapperStacks := by decide

/-- Two CPUs that execute their swappers with interrupts on. -/
def sampleCores : Cores (KernelThread 2) 2 where
  cpu c :=
    { x := fun k => BitVec.ofNat 64 k
      sp := BitVec.ofNat 64 (sampleSwapperImage.stackOf (.inr c) + kernelStackSize - 64)
      sys := fun _ => 0
      pc := 0xFFFF000040010000
      pstate := 5 }
  mem := (initSched sampleSwapperImage fun _ => 0).1
  current := .inr
  history _ := {}

theorem sampleCores_boot : ThreadsBoot sampleSwapperImage.placement sampleCores :=
  initSched_boot sampleSwapperImage (fun _ => 0) (by decide) (by decide)

def sampleStarts : Starts where
  callThreadFunc := 0xFFFF000040010400
  childReturnsFromFork := 0xFFFF000040010800

/-- The steps of the samples. -/
def sampleStep :
    Cores (KernelThread 2) 2 → ThreadsAction (KernelThread 2) 2 → Option (Cores (KernelThread 2) 2) :=
  threadsStep sampleSwapperImage.placement sampleLabels sampleStarts

/-- A property of the end of a sample run, checked by running it. -/
theorem sample_end {s s' : Cores (KernelThread 2) 2} {as : List (ThreadsAction (KernelThread 2) 2)}
    {P : Cores (KernelThread 2) 2 → Prop} [DecidablePred P] (hrun : runFrom sampleStep s as = some s')
    (hP : (runFrom sampleStep s as).all P = true) : P s' := by
  rw [hrun] at hP
  exact of_decide_eq_true hP

def sampleTask : KernelThread 2 := .inl ⟨0, by decide⟩
def sampleChildThread : KernelThread 2 := .inl ⟨1, by decide⟩

/-- The registers of a call of `cpu_switch_to`, with the stack pointer `o` bytes below the top. -/
def sampleCall (t u : KernelThread 2) (o : Nat) : ArmRegs where
  x k :=
    if k = 0 then BitVec.ofNat 64 (sampleSwapperImage.record t)
    else if k = 1 then BitVec.ofNat 64 (sampleSwapperImage.record u)
    else BitVec.ofNat 64 (1000 + k)
  sp := BitVec.ofNat 64 (sampleSwapperImage.stackOf t + kernelStackSize - o)
  sys _ := 0
  pc := 0xFFFF000040012000
  pstate := 5

/-- A swapper makes a thread and switches to it. -/
def sampleFirst : List (ThreadsAction (KernelThread 2) 2) :=
  [.kernelThread sampleTask 0xFFFF000040013000 5, .compute 0 (sampleCall (.inr 0) sampleTask 64),
    .switchTo 0 sampleTask]

/-! ## The scheduler -/

/-- The thread that is `current` on CPU `c`. -/
def IsThread (c : Fin N) (current : Option Nat) (t : KernelThread N) : Prop :=
  match current with
  | none => t = .inr c
  | some i => ∃ h : i < maxNumProcesses, t = .inl ⟨i, h⟩

theorem IsThread.unique {c : Fin N} {o : Option Nat} {t u : KernelThread N} (h : IsThread c o t)
    (h' : IsThread c o u) : t = u := by
  cases o with
  | none => exact h.trans h'.symm
  | some i =>
      obtain ⟨_, rfl⟩ := h
      obtain ⟨_, rfl⟩ := h'
      rfl

/-- The context that is saved for a thread. -/
def Smp.saved (s : Smp) : KernelThread N → CpuContext
  | .inl i => (s.tasks i).thread
  | .inr c => s.swapper c

/-- The scheduler sees the machine: the threads that run, their registers and the saved contexts. -/
structure SmpView (img : SwapperImage N) (s : Smp) (k : Cores (KernelThread N) N) : Prop where
  current : ∀ c : Fin N, IsThread c (s.cpu c).current (k.current c)
  regs : ∀ c : Fin N, (s.cpu c).regs = contextOf (k.cpu c)
  saved : ∀ t : KernelThread N, s.saved t = contextAt k.mem (img.record t)

/-- The scheduler's view of a machine in which CPU `c` is about to switch to `next`. -/
def Cores.view (img : SwapperImage N) (k : Cores (KernelThread N) N) (c : Nat) (next : Option Nat) : Smp where
  tasks i := if h : i < maxNumProcesses then { thread := contextAt k.mem (img.record (.inl ⟨i, h⟩)) } else {}
  mem := k.mem
  cpu d :=
    if h : d < N then
      { current := (k.current ⟨d, h⟩).elim (fun i => some i.val) fun _ => none
        calls := fun _ => if d = c then [.loaded next] else []
        regs := contextOf (k.cpu ⟨d, h⟩) }
    else {}
  swapper d := if h : d < N then contextAt k.mem (img.record (.inr ⟨d, h⟩)) else {}
  occupant _ := 0

theorem Cores.view_smpView (img : SwapperImage N) (k : Cores (KernelThread N) N) (c : Nat) (next : Option Nat)
    (hswapper : ∀ d e, k.current d = .inr e → e = d) : SmpView img (k.view img c next) k where
  current d := by
    simp only [Cores.view, Fin.is_lt, dite_true, Fin.eta]
    cases hd : k.current d with
    | inl i => exact ⟨i.isLt, rfl⟩
    | inr e => exact congrArg Sum.inr (hswapper d e hd)
  regs d := by simp only [Cores.view, Fin.is_lt, dite_true, Fin.eta]
  saved t := by
    rcases t with i | d
    · simp only [Smp.saved, Cores.view, Fin.is_lt, dite_true, Fin.eta]
    · simp only [Smp.saved, Cores.view, Fin.is_lt, dite_true, Fin.eta]

theorem saved_of_isThread {s : Smp} {c : Fin N} {o : Option Nat} {t : KernelThread N} (h : IsThread c o t) :
    s.context c o = s.saved t := by
  cases o with
  | none =>
      cases h
      rfl
  | some i =>
      obtain ⟨_, rfl⟩ := h
      rfl

/-- What is saved after `saveContext`. -/
theorem saveContext_saved {s : Smp} {c : Fin N} {t u : KernelThread N}
    (h : IsThread c (s.cpu c).current t) :
    (s.saveContext c).saved u = if u = t then (s.cpu c).regs else s.saved u := by
  rw [Smp.saveContext]
  cases hcurrent : (s.cpu c).current with
  | none =>
      rw [hcurrent] at h
      cases h
      rcases u with i | d
      · rfl
      · simp [Smp.saved, Function.update_apply, Fin.val_inj]
  | some i =>
      rw [hcurrent] at h
      obtain ⟨hi, rfl⟩ := h
      rcases u with j | d
      · simp only [Smp.saved, Smp.setTask, Function.update_apply, Sum.inl.injEq, Fin.ext_iff]
        split_ifs <;> rfl
      · rfl

/-- The instructions of `cpu_switch_to` do what the step `switchTo` of the scheduler says. -/
theorem cpuSwitchTo_refines {img : SwapperImage N} {kimg : KernelImage} {L : Labels} {st : Starts}
    {s : Smp} {k k' : Cores (KernelThread N) N} {c : Fin N} {next : Option Nat} {calls : List SchedCall}
    {t : KernelThread N}
    (hview : SmpView img s k) (htop : (s.cpu c).top = .loaded next :: calls) (hnext : IsThread c next t)
    (hstep : threadsStep img.placement L st k (.switchTo c t) = some k') :
    ∃ s', smpStep N kimg s (.sched c .switchTo) = some s' ∧ SmpView img s' k' := by
  cases threadsStep_move img.placement hstep with
  | switchTo _ _ _ hne _ h₀ h₁ =>
      -- the instructions have been executed: only what they have done matters from here on
      have hspec := @cpuSwitchTo_threads _ _ img.placement k c t hne h₀ h₁
      generalize run cpuSwitchTo (k.arm c) = m at hspec ⊢
      have hcurrent := hview.current c
      refine ⟨smpSwitchTo s c { (s.cpu c).setTop calls with current := next },
        by simp [smpStep, SchedCpu.step, htop, smpSched], ?_⟩
      rw [smpSwitchTo]
      refine ⟨fun d => ?_, fun d => ?_, fun u => ?_⟩
      · by_cases hd : d = c
        · subst hd
          simpa [Smp.setCpu, Smp.switchCpu, Cpu.setHere, Cores.next] using hnext
        · have hdc : (d : Nat) ≠ c := fun he => hd (Fin.ext he)
          simpa [Smp.setCpu, Function.update_of_ne hdc, saveContext_cpu, Cores.next, Function.update_of_ne hd]
            using hview.current d
      · by_cases hd : d = c
        · subst hd
          have hloaded : (s.switchCpu d { (s.cpu d).setTop calls with current := next } (s.cpu d)).regs =
              s.context d next := rfl
          simp only [Smp.setCpu, saveContext_cpu, Cores.next, Function.update_self, hloaded]
          rw [saved_of_isThread hnext, hview.saved t, hspec.context]
          rfl
        · have hdc : (d : Nat) ≠ c := fun he => hd (Fin.ext he)
          simpa [Smp.setCpu, Function.update_of_ne hdc, saveContext_cpu, Cores.next, Function.update_of_ne hd]
            using hview.regs d
      · change (s.saveContext c).saved u = contextAt m.mem (img.record u)
        rw [saveContext_saved hcurrent]
        split_ifs with hu
        · rw [hu, hview.regs c]
          exact hspec.saved.symm
        · rw [hview.saved u]
          -- the context of a third thread is in another record
          refine (contextAt_congr fun y h₁ h₂ => hspec.mem y ?_).symm
          have hfits : threadCpuContext + sizeofContext ≤ sizeofTaskStruct := by decide
          have happart : img.record (k.current c) + sizeofTaskStruct ≤ img.record u ∨
              img.record u + sizeofTaskStruct ≤ img.record (k.current c) := record_apart img (Ne.symm hu)
          change y < img.record (k.current c) + _ ∨ img.record (k.current c) + _ + _ ≤ y
          omega

theorem sampleFirst_refines : ∃ k k' s', runFrom sampleStep sampleCores (sampleFirst.take 2) = some k ∧
    sampleStep k (.switchTo 0 sampleTask) = some k' ∧
    smpStep 2 sampleImage (k.view sampleSwapperImage 0 (some 0)) (.sched 0 .switchTo) = some s' ∧
      SmpView sampleSwapperImage s' k' := by
  have hall : (runFrom sampleStep sampleCores (sampleFirst.take 2 ++ [.switchTo 0 sampleTask])).isSome =
      true := by decide +kernel
  obtain ⟨k', hrun⟩ := Option.isSome_iff_exists.1 hall
  obtain ⟨k, h₁, hlast⟩ := runFrom_append.1 hrun
  obtain ⟨k'', h₂, hnil⟩ := runFrom_cons.1 hlast
  cases hnil
  have hswapper := sample_end h₁ (P := fun k => ∀ d e, k.current d = .inr e → e = d) (by decide +kernel)
  have hnext : IsThread (N := 2) 0 (some 0) sampleTask := ⟨by decide, rfl⟩
  obtain ⟨s', hs', hview⟩ := @cpuSwitchTo_refines 2 sampleSwapperImage sampleImage _ _ _ k k' 0 (some 0)
    [] sampleTask (k.view_smpView sampleSwapperImage 0 (some 0) hswapper) rfl hnext h₂
  exact ⟨k, k', s', h₁, h₂, hs', hview⟩

end Kernel
end ToutOS
