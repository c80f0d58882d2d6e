import ToutOS.Kernel.Copying

/-!
# System — the invariant of the whole system

Every task that is alive owns the pages of its address space, and no two tasks own the same page.

* `VmasOf` — the vmas of a process are those of `user_test` and the heap;
* `Invariant` — all address spaces are in order, and what they own is disjoint and in use;
* `StepOf` — what a step does to the pages of one task, and `Invariant.step` — it keeps the
  invariant;
* the steps that stay inside of one address space, the end of a task, and stores to kernel stacks.
-/

namespace ToutOS
namespace Kernel

open Base Mm

variable {κ : Type} {H : KernelHeap κ} {img : KernelImage} {u : UserImage} {s s' s'' : KernelState κ}

/-! ## The vmas of a process -/

/-- What a vma has in common with the call of `setup_vma` that made it. -/
def Area.area (a : Area) : Nat × Nat × Nat × Bool := (a.vmStart, a.vmEnd, a.vmFlags, a.lma = noLma)

/-- The vma stands for an area of `user_test`, or it is the heap. -/
def VmArea.From (u : UserImage) (x : VmArea) : Prop :=
  (∃ a ∈ u.areas, x.area = a.area) ∨ (x.vmStart = u.bssEnd ∧ x.lma = noLma ∧ x.shared = false)

structure VmasOf (u : UserImage) (mm : MmStruct) : Prop where
  start : mm.startBrk = u.bssEnd
  vma : ∀ x ∈ mm.mmap, x.From u

theorem VmasOf.step {d : Nat} {mm mm' : MmStruct} {vm vm' : VmState κ} (h : VmasOf u mm)
    (hs : SpaceStep d mm vm mm' vm') : VmasOf u mm' := by
  refine ⟨hs.start.trans h.start, fun x hx => ?_⟩
  rcases hs.kept x hx with ⟨y, hy, hbare⟩ | ⟨hstart, hlma, hshared⟩
  · rcases h.vma y hy with ⟨a, ha, harea⟩ | ⟨hstart, hlma, hshared⟩
    · exact Or.inl ⟨a, ha, (area_of_bare hbare).symm.trans harea⟩
    · refine Or.inr ⟨(range_congr hbare).1 ▸ hstart, lma_congr hbare ▸ hlma, ?_⟩
      rw [← shared_congr hbare, hshared]
  · exact Or.inr ⟨hstart.trans h.start, hlma, hshared⟩

/-- A shared vma holds text, read-only data or the UART. -/
theorem VmArea.From.of_shared {x : VmArea} (h : x.From u) (hshared : x.shared = true) :
    x.vmEnd ≤ u.dataStart ∨ maxBrkAddr + userStackStart ≤ x.vmStart := by
  have hrodata := u.data_ge
  have htext := u.rodata_ge
  have hle := u.rodata_le
  rcases h with ⟨a, ha, harea⟩ | ⟨-, -, hno⟩
  · simp only [VmArea.area, Area.area, Prod.mk.injEq] at harea
    obtain ⟨hs, he, hf, -⟩ := harea
    rw [VmArea.shared, hf] at hshared
    simp only [UserImage.areas, List.mem_cons, List.not_mem_nil, or_false] at ha
    rcases ha with rfl | rfl | rfl | rfl | rfl | rfl
    · exact Or.inl (by simp only at he; omega)
    · exact Or.inl (by simp only at he; omega)
    · simp [vmRead, vmWrite, vmShared] at hshared
    · simp [vmRead, vmWrite, vmShared] at hshared
    · simp [vmRead, vmWrite, vmShared] at hshared
    · refine Or.inr ?_
      rw [hs]
      decide
  · rw [hno] at hshared
    cases hshared

/-- The other vmas begin behind the read-only data, and before the UART. -/
theorem VmArea.From.of_not_shared {x : VmArea} (h : x.From u) (hshared : x.shared = false) :
    u.dataStart ≤ x.vmStart ∧ x.vmStart < maxBrkAddr + userStackStart := by
  have hdata := u.data_le
  have hbss := u.bss_ge
  have hbss' := u.bss_le
  have hend := u.bssEnd_le
  simp only [vmaUser, userSize, maxBrkAddr, userStackStart] at *
  rcases h with ⟨a, ha, harea⟩ | ⟨hstart, -, -⟩
  · simp only [VmArea.area, Area.area, Prod.mk.injEq] at harea
    obtain ⟨hs, -, hf, -⟩ := harea
    rw [VmArea.shared, hf] at hshared
    simp only [UserImage.areas, List.mem_cons, List.not_mem_nil, or_false] at ha
    rcases ha with rfl | rfl | rfl | rfl | rfl | rfl
    · simp [vmRead, vmExec, vmShared] at hshared
    · simp [vmRead, vmShared] at hshared
    · simp only at hs
      omega
    · simp only at hs
      omega
    · simp only [userStackStart] at hs
      omega
    · simp [vmRead, vmWrite, vmShared] at hshared
  · omega

theorem VmasOf.sharedApart {mm : MmStruct} (h : VmasOf u mm) : SharedApart mm.mmap := by
  intro x hx y hy hshared hno
  obtain ⟨h₁, h₂⟩ := (h.vma y hy).of_not_shared hno
  by_contra hcov
  rw [Bool.not_eq_false, VmArea.covers_iff] at hcov
  rcases (h.vma x hx).of_shared hshared with hend | hstart <;> omega

/-! ## The invariant -/

/-- The pages that a task owns. -/
def taskFootprint (m : Mem) (t : TaskStruct) : Set Nat := fun a =>
  t.live = true ∧ t.pgDir ≠ 0 ∧
    ∃ mm, t.mm = some mm ∧ a ∈ footprint m (physical true t.pgDir) mm.mmap

/-- The address space of a process. -/
structure ProcessOk (u : UserImage) (m : Mem) (pgDir : Nat) (mm : MmStruct) : Prop where
  dir_lt : pgDir < 2 ^ 64
  space : SpaceOk m (physical true pgDir) mm
  vmas : VmasOf u mm

structure TaskOk (img : KernelImage) (u : UserImage) (i : Nat) (m : Mem) (t : TaskStruct) : Prop where
  stack : t.inUse = true → t.stack = img.stack i ∧ i < maxNumProcesses
  unused : t.inUse = false → t = {}
  mm : t.live = true → ∃ mm, t.mm = some mm ∧ (t.pgDir = 0 → mm.mmap = []) ∧
    (t.pgDir ≠ 0 → ProcessOk u m t.pgDir mm)

/-- The vmas that are not shared are mapped to pages of the pool. -/
def OwnPages (mm : MmStruct) : Prop :=
  ∀ x ∈ mm.mmap, x.Private → ∀ p, x.covers p = true → InPool (x.target (pageAddr p))

/-- Only the task that has run `user_test` has pages of the image to itself. -/
def OwnsPool (userTask : Option Nat) (i : Nat) (t : TaskStruct) : Prop :=
  t.live = true → userTask ≠ some i → ∀ mm, t.mm = some mm → OwnPages mm

structure Invariant (img : KernelImage) (u : UserImage) (s : KernelState κ) : Prop where
  zero : ZeroPage s.vm.mem
  tasks : ∀ i, TaskOk img u i s.vm.mem (s.tasks i)
  owned : Owned (fun i => taskFootprint s.vm.mem (s.tasks i)) s.vm.world
  pool : ∀ i, OwnsPool s.userTask i (s.tasks i)

/-! ## Single tasks -/

section Task

variable {m m' : Mem} {t : TaskStruct} {i : Nat}

theorem linear_pgDir {pgDir : Nat} (h : pgDir < 2 ^ 64) : linear true (physical true pgDir) = pgDir :=
  linear_physical h

theorem taskFootprint_of_not_live (h : t.live = false) : taskFootprint m t = ∅ := by
  ext a
  refine ⟨fun ha => ?_, fun ha => ha.elim⟩
  rw [ha.1] at h
  cases h

theorem taskFootprint_of_pgDir (h : t.pgDir = 0) : taskFootprint m t = ∅ := by
  ext a
  exact ⟨fun ha => absurd h ha.2.1, fun ha => ha.elim⟩

theorem taskFootprint_eq {mm : MmStruct} (hlive : t.live = true) (hdir : t.pgDir ≠ 0)
    (hmm : t.mm = some mm) : taskFootprint m t = footprint m (physical true t.pgDir) mm.mmap := by
  ext a
  constructor
  · rintro ⟨-, -, mm', hmm', ha⟩
    rw [hmm] at hmm'
    cases hmm'
    exact ha
  · intro ha
    exact ⟨hlive, hdir, mm, hmm, ha⟩

/-- The address space of a task that runs user code. -/
theorem TaskOk.process (h : TaskOk img u i m t) (hlive : t.live = true) (hdir : t.pgDir ≠ 0) :
    ∃ mm, t.mm = some mm ∧ ProcessOk u m t.pgDir mm := by
  obtain ⟨mm, hmm, -, hspace⟩ := h.mm hlive
  exact ⟨mm, hmm, hspace hdir⟩

/-- The same for a given address space. -/
theorem TaskOk.process_of {mm : MmStruct} (h : TaskOk img u i m t) (hlive : t.live = true)
    (hdir : t.pgDir ≠ 0) (hmm : t.mm = some mm) : ProcessOk u m t.pgDir mm := by
  obtain ⟨mm', hmm', hp⟩ := h.process hlive hdir
  obtain rfl := Option.some.inj (hmm.symm.trans hmm')
  exact hp

theorem TaskOk.footprint_pool (h : TaskOk img u i m t) {a : Nat} (ha : a ∈ taskFootprint m t) :
    InPool a ∧ IsPage a := by
  obtain ⟨hlive, hdir, mm, hmm, ha⟩ := ha
  have hp := h.process_of hlive hdir hmm
  exact hp.space.holdings.footprint_pool ha

/-- The tables of a task are unchanged. -/
def SameTaskTables (m m' : Mem) (t : TaskStruct) : Prop :=
  t.live = true → t.pgDir ≠ 0 → SameTables m m' (physical true t.pgDir)

/-- A task depends on memory only through its tables. -/
theorem TaskOk.frame (h : TaskOk img u i m t) (hsame : SameTaskTables m m' t) :
    TaskOk img u i m' t ∧ taskFootprint m' t = taskFootprint m t := by
  constructor
  · refine ⟨h.stack, h.unused, fun hlive => ?_⟩
    obtain ⟨mm, hmm, hempty, hp⟩ := h.mm hlive
    exact ⟨mm, hmm, hempty, fun hdir => ⟨(hp hdir).dir_lt,
      spaceOk_frame (hp hdir).space (hsame hlive hdir), (hp hdir).vmas⟩⟩
  · by_cases hlive : t.live = true
    · by_cases hdir : t.pgDir = 0
      · rw [taskFootprint_of_pgDir hdir, taskFootprint_of_pgDir hdir]
      · obtain ⟨mm, hmm, hp⟩ := h.process hlive hdir
        rw [taskFootprint_eq hlive hdir hmm, taskFootprint_eq hlive hdir hmm,
          footprint_frame hp.space.holdings.tables (hsame hlive hdir)]
    · rw [Bool.not_eq_true] at hlive
      rw [taskFootprint_of_not_live hlive, taskFootprint_of_not_live hlive]

theorem taskOk_empty (img : KernelImage) (u : UserImage) (i : Nat) (m : Mem) :
    TaskOk img u i m {} := by
  refine ⟨?_, fun _ => rfl, ?_⟩
  · intro h
    cases h
  · intro h
    cases h

end Task

/-! ## Steps -/

/-- The pages that are not in the pool, but for the one at address 0. -/
def outside : Set Nat := fun n => ¬InPool n ∧ n ≠ 0

/-- A step that is local to the pages of task `j`; it may also write memory outside of the pool, and
clear the slots of tasks that are not alive. -/
structure StepOf (img : KernelImage) (u : UserImage) (j : Nat) (s s' : KernelState κ) : Prop where
  moves : Local pageOf (taskFootprint s.vm.mem (s.tasks j) ∪ outside)
    (taskFootprint s'.vm.mem (s'.tasks j) ∪ outside) s.vm.world s'.vm.world
  others : ∀ k, k ≠ j → s'.tasks k = s.tasks k ∨ (s'.tasks k = {} ∧ (s.tasks k).live = false)
  task : TaskOk img u j s'.vm.mem (s'.tasks j)
  pool : OwnsPool s'.userTask j (s'.tasks j)
  user : s'.userTask = s.userTask ∨ s.userTask = none

/-- The page 0 is neither owned nor free. -/
theorem not_inPool_zero : ¬InPool 0 := by
  simp only [InPool, Mm.frame, pageSize]
  omega

theorem ZeroPage.frame {m m' : Mem} (h : ZeroPage m)
    (hsame : ∀ x, InPage true 0 x → m' x = m x) : ZeroPage m' := by
  intro x hx
  rw [hsame x hx, h x hx]

theorem not_outside {n : Nat} (h : InPool n) : n ∉ outside := fun hno => hno.1 h

/-- A step that is local to pages of the pool. -/
theorem local_outside {own own' : Set Nat} {vm vm' : VmState κ}
    (h : Local pageOf own own' vm.world vm'.world) (hown : ∀ a ∈ own, InPool a) :
    Local pageOf (own ∪ outside) (own' ∪ outside) vm.world vm'.world :=
  h.frame (fun _ ha hfree => ha.1 (FreeFrame.inPool hfree)) fun a ha hin => absurd (hown a hin) ha.1

section Step

variable {j : Nat}

/-- The tables of the other tasks are unchanged. -/
theorem StepOf.tables (hs : StepOf img u j s s') (h : Invariant img u s) {k : Nat} (hk : k ≠ j) :
    SameTaskTables s.vm.mem s'.vm.mem (s.tasks k) := by
  intro hlive hdir n hn x hx
  obtain ⟨mm, hmm, hp⟩ := (h.tasks k).process hlive hdir
  have hpage := pageOf_of_inPage (hp.space.holdings.tables.pages n hn) hx
  refine h.owned.same hs.moves hk ?_ ?_
  · rw [hpage]
    exact ⟨hlive, hdir, mm, hmm, Or.inl hn⟩
  · rw [hpage]
    exact not_outside (hp.space.holdings.tables_pool n hn)

theorem StepOf.other (hs : StepOf img u j s s') (h : Invariant img u s) {k : Nat} (hk : k ≠ j) :
    TaskOk img u k s'.vm.mem (s'.tasks k) ∧
      taskFootprint s'.vm.mem (s'.tasks k) = taskFootprint s.vm.mem (s.tasks k) := by
  rcases hs.others k hk with heq | ⟨heq, hlive⟩
  · rw [heq]
    exact (h.tasks k).frame (hs.tables h hk)
  · rw [heq, taskFootprint_of_not_live hlive, taskFootprint_of_not_live rfl]
    exact ⟨taskOk_empty img u k _, rfl⟩

theorem StepOf.zero (hs : StepOf img u j s s') (h : Invariant img u s) : ZeroPage s'.vm.mem := by
  refine h.zero.frame fun x hx => ?_
  have hpage := pageOf_of_inPage ⟨Nat.dvd_zero _, by decide⟩ hx
  refine hs.moves.same x ?_ ?_
  · rw [hpage]
    rintro (hin | hin)
    · exact not_inPool_zero ((h.tasks j).footprint_pool hin).1
    · exact hin.2 rfl
  · rw [hpage]
    exact fun hfree => not_inPool_zero (FreeFrame.inPool hfree)

/-- Such a step keeps the invariant. -/
theorem Invariant.step (h : Invariant img u s) (hs : StepOf img u j s s') : Invariant img u s' := by
  refine ⟨hs.zero h, fun k => ?_, ?_, fun k => ?_⟩
  · by_cases hk : k = j
    · exact hk ▸ hs.task
    · exact (hs.other h hk).1
  · have hstep := h.owned.step hs.moves
      (fun k _ a ha => not_outside ((h.tasks k).footprint_pool ha).1)
      fun a ha => not_outside (hs.task.footprint_pool ha).1
    have hfam : (fun k => taskFootprint s'.vm.mem (s'.tasks k)) =
        Function.update (fun k => taskFootprint s.vm.mem (s.tasks k)) j
          (taskFootprint s'.vm.mem (s'.tasks j)) := by
      funext k
      by_cases hk : k = j
      · subst hk
        rw [Function.update_self]
      · rw [Function.update_of_ne hk, (hs.other h hk).2]
    rw [hfam]
    exact hstep
  · by_cases hk : k = j
    · exact hk ▸ hs.pool
    · intro hlive hne mm hmm
      rcases hs.others k hk with heq | ⟨heq, -⟩
      · rw [heq] at hlive hmm
        refine h.pool k hlive ?_ mm hmm
        rcases hs.user with huser | huser
        · rwa [← huser]
        · rw [huser]
          exact (Option.some_ne_none k).symm
      · rw [heq] at hlive
        cases hlive

theorem StepOf.trans (h₁ : StepOf img u j s s') (h₂ : StepOf img u j s' s'') :
    StepOf img u j s s'' := by
  refine ⟨h₁.moves.trans h₂.moves, fun k hk => ?_, h₂.task, h₂.pool, ?_⟩
  · rcases h₂.others k hk with heq | ⟨heq, hlive⟩
    · rw [heq]
      exact h₁.others k hk
    · refine Or.inr ⟨heq, ?_⟩
      rcases h₁.others k hk with heq' | ⟨-, hlive'⟩
      · rwa [← heq']
      · exact hlive'
  · rcases h₂.user with heq | heq
    · rw [heq]
      exact h₁.user
    · rcases h₁.user with heq' | heq'
      · exact Or.inr (heq'.symm.trans heq)
      · exact Or.inr heq'

end Step

/-! ## Steps inside of one address space -/

section Own

variable {i : Nat} {mm mm' : MmStruct} {vm' : VmState κ}

theorem Invariant.used (h : Invariant img u s) (hlive : (s.tasks i).live = true)
    (hdir : (s.tasks i).pgDir ≠ 0) (hmm : (s.tasks i).mm = some mm) :
    ∀ a ∈ footprint s.vm.mem (physical true (s.tasks i).pgDir) mm.mmap, ¬FreeFrame s.vm.pagesUsage a :=
  fun a ha => h.owned.held i a (taskFootprint_eq hlive hdir hmm ▸ ha)

theorem OwnPages.step {d : Nat} {vm : VmState κ} (h : OwnPages mm) (hs : SpaceStep d mm vm mm' vm') :
    OwnPages mm' := by
  intro x hx hpriv p hcov
  rcases hs.kept x hx with ⟨y, hy, hbare⟩ | ⟨-, hlma, -⟩
  · rw [← target_congr hbare]
    exact h y hy ((private_of_bare hbare).2 hpriv) p (by rwa [covers_congr hbare])
  · exact absurd hlma hpriv.2

/-- An exception or a call of `sys_brk`. -/
theorem StepOf.space (h : Invariant img u s) (hlive : (s.tasks i).live = true)
    (hdir : (s.tasks i).pgDir ≠ 0) (hmm : (s.tasks i).mm = some mm)
    (hs : SpaceStep (physical true (s.tasks i).pgDir) mm s.vm mm' vm') :
    StepOf img u i s (setMm s i (mm', vm')) := by
  have hp := (h.tasks i).process_of hlive hdir hmm
  have htask : (setMm s i (mm', vm')).tasks i = { s.tasks i with mm := some mm' } :=
    Function.update_self ..
  refine ⟨?_, fun k hk => Or.inl (Function.update_of_ne hk ..), ?_, ?_, Or.inl rfl⟩
  · rw [htask, taskFootprint_eq hlive hdir hmm,
      @taskFootprint_eq _ { s.tasks i with mm := some mm' } mm' hlive hdir rfl]
    exact local_outside hs.moves fun a ha => (hp.space.holdings.footprint_pool ha).1
  · rw [htask]
    refine ⟨(h.tasks i).stack, fun hno => ?_, fun _ => ⟨mm', rfl, fun hno => absurd hno hdir, fun _ =>
      ⟨hp.dir_lt, hs.ok, hp.vmas.step hs⟩⟩⟩
    rw [TaskStruct.live, show (s.tasks i).inUse = false from hno] at hlive
    cases hlive
  · rw [htask]
    intro _ huser mm₁ hmm₁
    cases hmm₁
    exact (h.pool i hlive huser mm hmm).step hs

/-- The end of a task. -/
theorem StepOf.exit (h : Invariant img u s)
    (hmoves : Local pageOf (taskFootprint s.vm.mem (s.tasks i)) ∅ s.vm.world vm'.world)
    (hlive : (s.tasks i).live = true) :
    StepOf img u i s
      { s with vm := vm', tasks := Function.update s.tasks i { s.tasks i with state := .stopped } } := by
  have hstopped : ({ s.tasks i with state := .stopped } : TaskStruct).live = false := by
    simp [TaskStruct.live]
  have hin : (s.tasks i).inUse = true := by
    rw [TaskStruct.live, Bool.and_eq_true] at hlive
    exact hlive.1
  refine ⟨?_, fun k hk => Or.inl (Function.update_of_ne hk ..), ?_, ?_, Or.inl rfl⟩
  · simp only [Function.update_self]
    rw [taskFootprint_of_not_live hstopped]
    exact local_outside hmoves fun a ha => ((h.tasks i).footprint_pool ha).1
  · simp only [Function.update_self]
    refine ⟨(h.tasks i).stack, fun hno => ?_, fun hno => ?_⟩
    · rw [show (s.tasks i).inUse = false from hno] at hin
      cases hin
    · rw [hstopped] at hno
      cases hno
  · simp only [Function.update_self]
    intro hno
    rw [hstopped] at hno
    cases hno

/-- Writing memory that is neither page 0 nor in the pool. -/
theorem StepOf.write (h : Invariant img u s) (i : Nat) {m' : Mem}
    (hsame : ∀ x, pageOf x ∉ outside → m' x = s.vm.mem x) : StepOf img u i s (s.withMem m') := by
  have htables : SameTaskTables s.vm.mem m' (s.tasks i) := by
    intro hlive hdir n hn x hx
    obtain ⟨mm, -, hp⟩ := (h.tasks i).process hlive hdir
    refine hsame x ?_
    rw [pageOf_of_inPage (hp.space.holdings.tables.pages n hn) hx]
    exact not_outside (hp.space.holdings.tables_pool n hn)
  obtain ⟨htask, hfoot⟩ := (h.tasks i).frame htables
  refine ⟨?_, fun k _ => Or.inl rfl, htask, h.pool i, Or.inl rfl⟩
  rw [show taskFootprint (s.withMem m').vm.mem ((s.withMem m').tasks i) =
    taskFootprint s.vm.mem (s.tasks i) from hfoot]
  refine Local.write (fun x hx => hsame x fun hin => hx (Or.inr hin)) rfl ?_
  rintro a (ha | ha) hfree
  · exact h.owned.held i a ha hfree
  · exact ha.1 (FreeFrame.inPool hfree)

end Own

/-! ## Kernel stacks -/

/-- Kernel stacks are in the kernel image. -/
theorem KernelImage.stack_outside (img : KernelImage) {i x : Nat} (hi : i < maxNumProcesses)
    (h₁ : img.stack i ≤ x) (h₂ : x < img.stack i + pageSize) : pageOf x ∈ outside := by
  have hge := img.stacks_ge
  have hle := img.stacks_le
  change ¬InPool (pageOf x) ∧ pageOf x ≠ 0
  simp only [KernelImage.stack, va, add64, pageOffset, pageSize, maxNumProcesses] at *
  simp only [InPool, pageOf, pa, sub64, pageAddr, Mm.frame, pageSize, pageOffset]
  omega

/-- The saved registers are in the kernel image. -/
theorem Invariant.regs_outside (h : Invariant img u s) {i regs x : Nat}
    (hlive : (s.tasks i).live = true) (hregs : RegsOk s i regs) (h₁ : regs ≤ x) (h₂ : x < regs + 8) :
    pageOf x ∈ outside := by
  have hin : (s.tasks i).inUse = true := by
    rw [TaskStruct.live, Bool.and_eq_true] at hlive
    exact hlive.1
  obtain ⟨hstack, hi⟩ := (h.tasks i).stack hin
  obtain ⟨hge, hle⟩ := hregs
  rw [hstack] at hge hle
  simp only [sizeofPtRegs] at hle
  exact img.stack_outside hi (by omega) (by omega)

theorem store_same {m : Mem} {a n v x : Nat} (h : ¬(a ≤ x ∧ x < a + n)) : store m a n v x = m x := by
  simp only [store, if_neg h]

/-- Storing the first of the saved registers. -/
theorem StepOf.storeRegs (h : Invariant img u s) {i regs : Nat} (j v : Nat)
    (hlive : (s.tasks i).live = true) (hregs : RegsOk s i regs) :
    StepOf img u j s (s.withMem (store s.vm.mem regs 8 v)) :=
  StepOf.write h j fun _ hx => store_same fun hin => hx (h.regs_outside hlive hregs hin.1 hin.2)

end Kernel
end ToutOS
