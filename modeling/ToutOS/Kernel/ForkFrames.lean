import ToutOS.Kernel.ForkResults
import ToutOS.Kernel.Identity

/-!
# ForkFrames — the saved registers of parent and child

`sys_fork` copies the kernel stack of the parent as a whole, repairs the word at its base, and stores
the results into the two copies of the saved registers.

* `sysFork_stacks` — the two stacks after a call that has returned a child;
* `ForkCall` — the kernel executes `sys_fork` on the stack of the parent;
* `ForkFrames`, `forkRun_frames` — in every state that can be reached, parent and child differ in
  `x0`, and in nothing else that they return with.
-/

namespace ToutOS
namespace Kernel

open Base Mm

variable {κ : Type} {H : KernelHeap κ} {img : KernelImage} {u : UserImage} {s s' : KernelState κ}
  {i c regs : Nat}

/-! ## The stacks -/

/-- The two stacks after a call of `sys_fork` that has returned a child: first the stack of the child
is written, then the results. -/
theorem sysFork_stacks (h : Invariant img u s) (hruns : UserRuns s i)
    (hrun : sysFork H img i regs s = .ok (s', some c)) :
    c < maxNumProcesses ∧ i ≠ c ∧ ∃ m : Mem,
      s'.vm.mem = store (store m (img.stack c + regs % pageSize) 8 0) regs 8 (c + 1) ∧
      (∀ x, InStack img i x → m x = s.vm.mem x) ∧
      ∀ j, 8 ≤ j → j < pageSize → m (img.stack c + j) = s.vm.mem (img.stack i + j) := by
  obtain ⟨hlive, hdir⟩ := hruns
  obtain ⟨parent, hmm, hp⟩ := (h.tasks i).process hlive hdir
  obtain ⟨histack, hi⟩ := (h.tasks i).stack (TaskStruct.live_iff.1 hlive).1
  rcases sysFork_cases H img regs hlive with ⟨tasks', -, heq⟩ | ⟨k, tasks', m, t, self, heap, hb, -, heq⟩
  · rw [heq] at hrun
    cases hrun
  · rw [heq] at hrun
    split_ifs at hrun with hself
    · cases hrun
    obtain ⟨hp', hused⟩ := h.process_offStack hlive hdir hmm hb.lt hb.mem
    rcases @forkSpace_spec κ H img u ⟨m, s.vm.pagesUsage, heap⟩ parent regs k self (s.tasks i)
      (Function.update tasks' k t) s hmm hp' hused with
      herr | herr | ⟨vm', hok, -⟩ | ⟨vm', d, cm, hok, hchild⟩
    · rw [herr] at hrun
      cases hrun
    · rw [herr] at hrun
      cases hrun
    · rw [hok] at hrun
      cases hrun
    · rw [hok] at hrun
      cases hrun
      -- the address space of the child is built in pages of the pool
      have hkeep : ∀ x j, j < maxNumProcesses → InStack img j x → vm'.mem x = m x := by
        intro x j hj hx
        refine hchild.moves.same x (fun hno => hno) fun hno => ?_
        exact (img.stack_outside hj hx.1 hx.2).1 (FreeFrame.inPool hno)
      refine ⟨hb.lt, hb.ne, vm'.mem, ?_, fun x hx => ?_, fun j h₁ h₂ => ?_⟩
      · simp only [Function.update_self, hb.stack, hb.pid]
      · rw [hkeep x i hi hx]
        exact hb.mem x fun hno => hb.ne (inStack_unique hx hno)
      · rw [hkeep (img.stack c + j) c hb.lt ⟨by omega, by omega⟩]
        exact hb.copied histack j h₁ h₂

/-! ## The saved registers -/

/-- The kernel executes `sys_fork` for task `i` with the stack pointer `sp`: the frame of the call,
with the caller's frame pointer and the return address, and then the saved registers lie above it on
the stack of the task. -/
structure ForkCall (img : KernelImage) (s : KernelState κ) (i sp regs : Nat) : Prop where
  base : img.stack i ≤ sp
  frame : sp + 16 ≤ regs
  regs : RegsOk s i regs

/-- What parent and child return to the user with. -/
structure ForkFrames (img : KernelImage) (s s' : KernelState κ) (regs c : Nat) : Prop where
  pid : 1 ≤ (s'.tasks c).pid ∧ (s'.tasks c).pid ≤ maxNumProcesses
  distinct : ∀ k, k ≠ c → (s'.tasks k).inUse = true → (s'.tasks k).pid ≠ (s'.tasks c).pid
  parentResult : load s'.vm.mem regs 8 = (s'.tasks c).pid
  parentFrame : ∀ j, 8 ≤ j → j < sizeofPtRegs → s'.vm.mem (regs + j) = s.vm.mem (regs + j)
  childStack : (s'.tasks c).stack = img.stack c ∧ img.stack c ≤ (s'.tasks c).thread.sp ∧
    (s'.tasks c).thread.sp + sizeofPtRegs ≤ img.stack c + pageSize
  childResult : load s'.vm.mem (s'.tasks c).thread.sp 8 = 0
  childFrame : ∀ j, 8 ≤ j → j < sizeofPtRegs →
    s'.vm.mem ((s'.tasks c).thread.sp + j) = s.vm.mem (regs + j)
  info : load s'.vm.mem (s'.tasks c).stack 8 = img.task c
  pc : (s'.tasks c).thread.pc = img.childReturnsFromFork

/-- The saved registers are as far from the base of the child's stack as from that of the parent. -/
theorem regs_offset (h : img.stack i ≤ regs) (hlt : regs < img.stack i + pageSize) :
    regs = img.stack i + regs % pageSize := by
  obtain ⟨n, hn⟩ := img_stack_dvd img i
  simp only [pageSize] at *
  omega

/-- The frames after a call that has returned a child. -/
theorem forkFrames_mem (h : Invariant img u s) (hruns : UserRuns s i) (hregs : RegsOk s i regs)
    (hrun : sysFork H img i regs s = .ok (s', some c)) :
    load s'.vm.mem regs 8 = c + 1 ∧
      (∀ j, 8 ≤ j → j < sizeofPtRegs → s'.vm.mem (regs + j) = s.vm.mem (regs + j)) ∧
      load s'.vm.mem (img.stack c + regs % pageSize) 8 = 0 ∧
      ∀ j, 8 ≤ j → j < sizeofPtRegs →
        s'.vm.mem (img.stack c + regs % pageSize + j) = s.vm.mem (regs + j) := by
  obtain ⟨hcmax, hne, m, hmem, hparent, hchild⟩ := sysFork_stacks h hruns hrun
  obtain ⟨hge, hle⟩ := hregs
  rw [((h.tasks i).stack (TaskStruct.live_iff.1 hruns.1).1).1] at hge hle
  have hoffset := @regs_offset img i regs hge (by simp only [sizeofPtRegs] at hle; omega)
  have hapart := @stacks_apart img i c hne
  generalize regs % pageSize = o at hmem hoffset ⊢
  subst hoffset
  have hfit : o + sizeofPtRegs ≤ pageSize := by omega
  simp only [sizeofPtRegs, pageSize] at hfit hapart ⊢
  rw [hmem]
  refine ⟨?_, fun j h₁ h₂ => ?_, ?_, fun j h₁ h₂ => ?_⟩
  · have hsmall : c + 1 < 256 ^ 8 := by
      simp only [maxNumProcesses] at hcmax
      omega
    exact load_store_same hsmall
  · rw [store_same (by omega), store_same (by omega)]
    refine hparent _ ⟨by omega, ?_⟩
    simp only [pageSize]
    omega
  · rw [load_store_ne (by omega)]
    exact load_store_same (by decide)
  · rw [store_same (by omega), store_same (by omega), Nat.add_assoc, Nat.add_assoc]
    refine hchild (o + j) (by omega) ?_
    simp only [pageSize]
    omega

/-! ## Runs -/

/-- In every state that can be reached, a call of `sys_fork` that returns a child gives it a pid of its
own, and leaves parent and child with the registers that the parent has saved, but for the two
results in `x0`. -/
theorem forkRun_frames {I : ThreadImage} {t₀ t : ThreadState κ} {as : List (ThreadAction κ)} {sp : Nat}
    (hb : ThreadBoot t₀) (hrun : runFrom (threadStep H I u) t₀ as = some t)
    (hacts : t.acts (some i) = true) (hdir : (t.kernel.tasks i).pgDir ≠ 0)
    (hcall : ForkCall I.toKernelImage t.kernel i sp regs)
    (hfork : sysFork H I.toKernelImage i regs t.kernel = .ok (s', some c)) :
    ForkFrames I.toKernelImage t.kernel s' regs c := by
  have hinv : ThreadInv I u t :=
    runFrom_invariant (fun _ _ _ h ha => h.step ha) (threadBoot_inv hb) hrun
  have hready : (t.kernel.tasks i).ready = true := (Bool.and_eq_true_iff.1 hacts).1
  have hlive := live_of_ready hready
  have hstack := (hinv.stack (ready_iff.1 hready).1).1
  -- the call is a step of the kernel, which keeps the slots in order
  have hstep : step H I.toKernelImage u t.kernel (.fork i regs) = some s' := by
    rw [step, if_pos ⟨⟨hlive, hdir⟩, hcall.regs⟩, exec, hfork]
    rfl
  have habove : AboveWord t.kernel (.fork i regs) := by
    have := hcall.base
    have := hcall.frame
    rw [AboveWord, hstack]
    omega
  have hslots := (hinv.kernelStep (a := .fork i regs) hacts habove hstep).slotsOk
  -- and it does the same where the slots that are being filled are hidden
  obtain ⟨s₂, hfork₂, hvm, -, hseen⟩ := sysFork_hide hready hfork
  have htask := hideTask_of_ready hready
  have hruns₂ : UserRuns t.kernel.hide i := by
    rw [UserRuns, hide_tasks, htask]
    exact ⟨hlive, hdir⟩
  have hregs₂ : RegsOk t.kernel.hide i regs := by
    rw [RegsOk, hide_tasks, htask]
    exact hcall.regs
  obtain ⟨d, parent, cm, hforked⟩ := forked_slot hinv.invariant ⟨hruns₂, hregs₂⟩ hfork₂
  have hchild : s'.tasks c = s₂.tasks c := seenAs_running (hseen c).1 hforked.inUse hforked.running
  obtain ⟨hresult, hparent, hzero, hframe⟩ := forkFrames_mem hinv.invariant hruns₂ hregs₂ hfork₂
  rw [hvm] at hresult hparent hzero hframe
  rw [hide_vm] at hparent hframe
  have hpid : (s'.tasks c).pid = c + 1 := by rw [hchild, hforked.pid]
  have hsp : (s'.tasks c).thread.sp = I.stack c + regs % pageSize := by rw [hchild, hforked.sp]
  have hin : (s'.tasks c).inUse = true := by rw [hchild, hforked.inUse]
  have hlt := hslots.lt c hin
  refine ⟨⟨by omega, by omega⟩, fun k hk huse => ?_, ?_, hparent, ⟨hslots.stack c hin, ?_⟩, ?_, ?_, ?_, ?_⟩
  · have hpidk := (hslots.pid k huse).1
    change (s'.tasks k).pid = k + 1 at hpidk
    omega
  · rw [hresult, hpid]
  · have hoffset : regs % pageSize + sizeofPtRegs ≤ pageSize := by
      obtain ⟨hge, hle⟩ := hcall.regs
      rw [hstack] at hge hle
      have := @regs_offset I.toKernelImage i regs hge (by simp only [sizeofPtRegs] at hle; omega)
      omega
    rw [hsp]
    omega
  · rw [hsp, hzero]
  · rw [hsp]
    exact hframe
  · rw [show (s'.tasks c).stack = I.stack c from hslots.stack c hin]
    exact hslots.info c hin
  · rw [hchild, hforked.pc]

/-- A thread that runs a user program. -/
def sampleUserThread : List (ThreadAction (List Nat)) :=
  [.kernelThread (some [105]) 4096 0, .dispatch 0, .kernel (.userTest 0)]

/-- What of a call of `sys_fork` after these actions is compared. -/
def forkSeen (as : List (ThreadAction (List Nat))) (regs : Nat) : Option (Bool × Bool × Bool × Option Nat) :=
  (runFrom (threadStep sampleHeap sampleThreadImage sampleUser) sampleThreadBoot as).bind fun t =>
    (sysFork sampleHeap sampleImage 0 regs t.kernel).toOption.map fun r =>
      (t.acts (some 0), (t.kernel.tasks 0).pgDir ≠ 0, (t.kernel.tasks 0).stack = sampleImage.stack 0, r.2)

/-- It forks with its registers saved 3000 bytes up its stack. -/
theorem sampleFork_frames : ∃ t s',
    runFrom (threadStep sampleHeap sampleThreadImage sampleUser) sampleThreadBoot sampleUserThread =
        some t ∧
      sysFork sampleHeap sampleImage 0 (sampleImage.stack 0 + 3000) t.kernel = .ok (s', some 1) ∧
      ForkFrames sampleImage t.kernel s' (sampleImage.stack 0 + 3000) 1 := by
  have hseen : forkSeen sampleUserThread (sampleImage.stack 0 + 3000) =
      some (true, true, true, some 1) := by decide +kernel
  obtain ⟨t, hrun, hseen⟩ := Option.bind_eq_some_iff.1 hseen
  obtain ⟨⟨s', r⟩, hfork, hseen⟩ := Option.map_eq_some_iff.1 hseen
  simp only [Prod.mk.injEq, decide_eq_true_eq] at hseen
  obtain ⟨hacts, hdir, hstack, rfl⟩ := hseen
  have hfork' := except_toOption_eq_some.1 hfork
  refine ⟨t, s', hrun, hfork', ?_⟩
  refine @forkRun_frames _ sampleHeap sampleUser s' 0 1 (sampleImage.stack 0 + 3000) sampleThreadImage
    sampleThreadBoot t sampleUserThread (sampleImage.stack 0 + 2000) ⟨fun _ _ => rfl, rfl, fun _ => rfl⟩ hrun
    hacts hdir ⟨Nat.le_add_right _ _, ?_, ?_⟩ hfork'
  · decide
  · rw [RegsOk, hstack]
    decide

end Kernel
end ToutOS
