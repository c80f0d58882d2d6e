import ToutOS.Base.Run
import ToutOS.Lib.Strings
import ToutOS.Kernel.Vm

/-!
# Process — user processes: `user_test`, `sys_fork`, `sys_brk`, `do_el0_sync` and `do_exit`

The life of the user processes as runs of a step function.  Each action is one call of the kernel,
taken as atomic, or a store of a user program.

* `KernelImage`, `UserImage` — what `boot_kernel.ld` lays down of the two images.
* `KernelState` — memory, `pages_usage`, the state of `kmalloc` and the task table.  Kernel stacks
  and user memory are part of memory; the records from `kmalloc` are in the task table.
* `Action`, `exec`, `step` — one step; an action of a task that does not exist or does not run user
  code is not enabled.
* `Boot` — the state after `main` has started its threads.

`printk`, the locks of the task table and the TLB are left out.
-/

namespace ToutOS
namespace Kernel

open Base Mm

/-! ## The images -/

/-- Addresses of the kernel image.  The kernel is linked into the memory `lma_kernel`. -/
structure KernelImage where
  procKernelStacks : Nat
  tasks : Nat
  childReturnsFromFork : Nat
  stacks_dvd : pageSize ∣ procKernelStacks
  stacks_ge : va 0x40010000 ≤ procKernelStacks
  stacks_le : procKernelStacks + pageSize * maxNumProcesses ≤ va 0x40080000

/-- `sizeof (struct task_struct)`. -/
def sizeofTaskStruct : Nat := 176

/-- `&proc_kernel_stacks[i]`. -/
def KernelImage.stack (img : KernelImage) (i : Nat) : Nat := img.procKernelStacks + pageSize * i

/-- One way to link the kernel. -/
def sampleImage : KernelImage where
  procKernelStacks := va 0x40020000
  tasks := va 0x40050000
  childReturnsFromFork := va 0x40010800
  stacks_dvd := by decide
  stacks_ge := by decide
  stacks_le := by decide

/-- `&tasks[i]`. -/
def KernelImage.task (img : KernelImage) (i : Nat) : Nat := img.tasks + sizeofTaskStruct * i

/-- `_vma_user`. -/
def vmaUser : Nat := 0x08048000

/-- `_user_size`. -/
def userSize : Nat := 128 * 1024

/-- `_lma_user`. -/
def lmaUser : Nat := 0x40080000

/-- `UART_BASE`. -/
def uartBase : Nat := 0x09000000

/-- `__uva`. -/
def uva (x : Nat) : Nat := x + 0x100000000

/-- `USER_STACK_START`. -/
def userStackStart : Nat := 0x20000000

/-- `USER_STACK_SIZE`. -/
def userStackSize : Nat := 0x800000

/-- `MAX_BRK_ADDR`. -/
def maxBrkAddr : Nat := 0x0C000000

/-- The sections of the user program, in the memory `vma_user`. -/
structure UserImage where
  textStart : Nat
  textEnd : Nat
  rodataStart : Nat
  rodataEnd : Nat
  dataStart : Nat
  dataEnd : Nat
  bssStart : Nat
  bssEnd : Nat
  text_ge : vmaUser ≤ textStart
  text_le : textStart ≤ textEnd
  rodata_ge : textEnd ≤ rodataStart
  rodata_le : rodataStart ≤ rodataEnd
  data_ge : rodataEnd ≤ dataStart
  data_le : dataStart ≤ dataEnd
  bss_ge : dataEnd ≤ bssStart
  bss_le : bssStart ≤ bssEnd
  bssEnd_le : bssEnd ≤ vmaUser + userSize

/-- A program with one page each of text, data and bss. -/
def sampleUser : UserImage where
  textStart := 0x08048000
  textEnd := 0x08049000
  rodataStart := 0x08049000
  rodataEnd := 0x08049000
  dataStart := 0x08049000
  dataEnd := 0x0804A000
  bssStart := 0x0804A000
  bssEnd := 0x0804B000
  text_ge := by decide
  text_le := by decide
  rodata_ge := by decide
  rodata_le := by decide
  data_ge := by decide
  data_le := by decide
  bss_ge := by decide
  bss_le := by decide
  bssEnd_le := by decide

/-- The assertions of `user_test`. -/
def UserImage.aligned (u : UserImage) : Bool :=
  [u.textStart, u.textEnd, u.rodataStart, u.rodataEnd, u.dataStart, u.dataEnd, u.bssStart,
    u.bssEnd].all fun x => x % pageSize = 0

/-- The arguments of `setup_vma`. -/
structure Area where
  vmStart : Nat
  vmEnd : Nat
  vmFlags : Nat
  lma : Nat
  deriving DecidableEq, Repr

/-- The areas that `user_test` sets up, in its order. -/
def UserImage.areas (u : UserImage) : List Area :=
  [ ⟨u.textStart, u.textEnd, vmRead ||| vmExec ||| vmShared, lmaUser⟩,
    ⟨u.rodataStart, u.rodataEnd, vmRead ||| vmShared, lmaUser + (u.rodataStart - u.textStart)⟩,
    ⟨u.dataStart, u.dataEnd, vmRead ||| vmWrite, lmaUser + (u.dataStart - u.textStart)⟩,
    ⟨u.bssStart, u.bssEnd, vmRead ||| vmWrite, lmaUser + (u.bssStart - u.textStart)⟩,
    ⟨userStackStart, userStackStart + userStackSize, vmRead ||| vmWrite, noLma⟩,
    ⟨uva uartBase, uva uartBase + pageSize, vmRead ||| vmWrite ||| vmShared, uartBase⟩ ]

/-! ## The state -/

structure KernelState (κ : Type) where
  vm : VmState κ
  tasks : TaskTable
  /-- The task that has run `user_test`, if one has. -/
  userTask : Option Nat

/-- The slot is in use and its task has not exited. -/
def TaskStruct.live (t : TaskStruct) : Bool := t.inUse && t.state ≠ .stopped

section Heap

variable {κ : Type} (H : KernelHeap κ) (img : KernelImage)

/-! ## Task slots -/

/-- The loop of `get_task_slot`: slots of tasks that have exited are cleared on the way. -/
def getTaskSlotLoop : Nat → Nat → TaskTable → Mem → Option Nat × TaskTable × Mem
  | 0, _, tasks, mem => (none, tasks, mem)
  | left + 1, i, tasks, mem =>
      if (tasks i).inUse = false then
        (some i,
          Function.update tasks i { tasks i with inUse := true, pid := i + 1, stack := img.stack i },
          store mem (img.stack i) 8 (img.task i))
      else if (tasks i).state = .stopped then
        getTaskSlotLoop left (i + 1) (Function.update tasks i {}) mem
      else getTaskSlotLoop left (i + 1) tasks mem

/-- `get_task_slot`. -/
def getTaskSlot (tasks : TaskTable) (mem : Mem) : Option Nat × TaskTable × Mem :=
  getTaskSlotLoop img maxNumProcesses 0 tasks mem

/-- `free_task_slot`. -/
def freeTaskSlot (tasks : TaskTable) (i : Nat) : TaskTable := Function.update tasks i {}

/-- `TASK_COMM_LEN`. -/
def taskCommLen : Nat := 16

/-- `strncpy`, from array to array. -/
def strncpy (dst src : List UInt8) (n : Nat) : List UInt8 :=
  let text := (src.take n).takeWhile fun c => c ≠ 0
  text ++ List.replicate (n - text.length) 0 ++ dst.drop n

/-- Of an array that holds the string `s`. -/
theorem strncpy_array {n : Nat} {s rest dst : List UInt8} (hs : (0 : UInt8) ∉ s) :
    strncpy dst (s ++ 0 :: rest) n = Lib.padded s n ++ dst.drop n := by
  have hnul : ∀ c ∈ s.take n, decide (c ≠ 0) = true := fun c hc =>
    decide_eq_true fun hzero => hs (hzero ▸ List.mem_of_mem_take hc)
  have htext : ((s ++ 0 :: rest).take n).takeWhile (fun c => decide (c ≠ 0)) = s.take n := by
    rw [List.take_append, List.takeWhile_append_of_pos hnul]
    cases n - s.length with
    | zero => rw [List.take_zero, List.takeWhile_nil, List.append_nil]
    | succ k => rw [List.take_succ_cons, List.takeWhile_cons_of_neg (by simp), List.append_nil]
  have hpad : n - (s.take n).length = n - s.length := by
    rw [List.length_take]
    omega
  simp only [strncpy, htext, hpad, Lib.padded]

/-- `strncpy` of `include/string.h` does to memory what this function does to arrays. -/
theorem strncpy_memory {m : Mem} {p d n : Nat} {s rest dst : List UInt8} (hs : StringAt m p s)
    (hsep : Lib.Separate d p n s.length) (hdst : place m d dst = m) (hn : n ≤ dst.length) :
    Lib.strncpy m d p n = (d, place m d (strncpy dst (s ++ 0 :: rest) n)) := by
  have hlen : (Lib.padded s n).length = n := Lib.length_padded
  have hplace := place_append_drop hdst (hlen.trans_le hn)
  rw [hlen] at hplace
  rw [Lib.strncpy_eq hs hsep, strncpy_array hs.zero_notMem, hplace]

/-! ## `user_test` -/

/-- Calls of `setup_vma`; `user_test` only prints that one has failed. -/
def setupVmas : List Area → List VmArea → κ → List VmArea × κ
  | [], mmap, heap => (mmap, heap)
  | a :: rest, mmap, heap =>
      let (_, mmap, heap) := setupVma H heap mmap a.vmStart a.vmEnd a.vmFlags a.lma
      setupVmas rest mmap heap

/-- `user_test` up to the switch to user mode.  The length given to `memset` is a difference of
pointers to `int`. -/
def userTest (u : UserImage) (i : Nat) (s : KernelState κ) : Except Halt (KernelState κ) :=
  let t := s.tasks i
  let (pgDir, mem, usage) := getZeroedPages 0 s.vm.mem s.vm.pagesUsage
  if pgDir = 0 then .ok { s with userTask := some i }
  else if u.aligned = false then .error .assertFailed
  else
    match t.mm with
    | none => .error .kernelPanic
    | some mm =>
        let (mmap, heap) := setupVmas H u.areas mm.mmap s.vm.heap
        let mm := { mm with mmap := mmap, startBrk := u.bssEnd, brk := u.bssEnd + pageSize }
        (setupUserPageMappings pgDir mmap { mem := mem, pagesUsage := usage, heap := heap }).bind
          fun vm =>
            if userFrame vm.mem pgDir vmaUser = none then .error .kernelPanic
            else
              (clearUser vm.mem pgDir u.bssStart ((u.bssEnd - u.bssStart) / 4)).map fun mem =>
                { vm := { vm with mem := mem }
                  tasks := Function.update s.tasks i { t with pgDir := pgDir, mm := some mm }
                  userTask := some i }

/-! ## `sys_fork` -/

/-- The end of `sys_fork` on failure: `-1` is returned. -/
def forkFailed (regs : Nat) (tasks : TaskTable) (vm : VmState κ) (s : KernelState κ) :
    KernelState κ × Option Nat :=
  ({ s with vm := { vm with mem := store vm.mem regs 8 (2 ^ 64 - 1) }, tasks := tasks }, none)

/-- The end of `sys_fork` on success, for the child in slot `c`. -/
def forkDone (regs c : Nat) (tasks : TaskTable) (child : TaskStruct) (vm : VmState κ)
    (s : KernelState κ) : KernelState κ × Option Nat :=
  let sp := child.stack + regs % pageSize
  let child :=
    { child with
      thread := { child.thread with pc := img.childReturnsFromFork, sp := sp }
      state := .running }
  ({ s with
      vm := { vm with mem := store (store vm.mem sp 8 0) regs 8 child.pid }
      tasks := Function.update tasks c child },
    some c)

/-- The part of `sys_fork` that builds the address space of the child; `mm` is the new
`mm_struct`. -/
def forkSpace (regs c mm : Nat) (parent : TaskStruct) (tasks : TaskTable) (vm : VmState κ)
    (s : KernelState κ) : Except Halt (KernelState κ × Option Nat) :=
  let child := tasks c
  let (pgDir, mem, usage) := getZeroedPages 0 vm.mem vm.pagesUsage
  if pgDir = 0 then
    (exitMm H 0 (some { self := mm }) { vm with mem := mem, pagesUsage := usage }).map fun vm =>
      forkFailed regs (freeTaskSlot tasks c) vm s
  else
    match parent.mm with
    | none => .error .kernelPanic
    | some parentMm =>
        (forkVmas H parent.pgDir parentMm.mmap { vm with mem := mem, pagesUsage := usage } []).bind
          fun fs =>
            if fs.ok then
              (setupUserPageMappings pgDir fs.mmap fs.vm).map fun vm =>
                let childMm : MmStruct :=
                  { self := mm, mmap := fs.mmap, startBrk := parentMm.startBrk, brk := parentMm.brk }
                forkDone img regs c tasks { child with pgDir := pgDir, mm := some childMm } vm s
            else
              (exitMm H pgDir (some { self := mm, mmap := fs.mmap }) fs.vm).map fun vm =>
                forkFailed regs (freeTaskSlot tasks c) vm s

/-- `sys_fork` of task `i`; the slot of the child on success. -/
def sysFork (i regs : Nat) (s : KernelState κ) : Except Halt (KernelState κ × Option Nat) :=
  let (slot, tasks, mem) := getTaskSlot img s.tasks s.vm.mem
  match slot with
  | none => .ok (forkFailed regs tasks { s.vm with mem := mem } s)
  | some c =>
      let parent := tasks i
      let child := tasks c
      let mem := store (copy mem child.stack parent.stack pageSize) child.stack 8 (img.task c)
      let child :=
        { child with
          thread := parent.thread
          comm := strncpy child.comm parent.comm (taskCommLen - 1) }
      let tasks := Function.update tasks c child
      let (mm, heap) := H.kmalloc s.vm.heap sizeofMmStruct
      let vm := { s.vm with mem := mem, heap := heap }
      if mm = 0 then .ok (forkFailed regs (freeTaskSlot tasks c) vm s)
      else forkSpace H img regs c mm parent tasks vm s

/-! ## `sys_brk` -/

/-- `UPPER_PAGE_ADDR`. -/
def upperPageAddr (addr : Nat) : Nat := add64 addr (pageSize - 1) / pageSize * pageSize

/-- The loop of `sys_brk` that deletes the entries of the pages in `[newbrk, oldbrk)`. -/
def dropBlocks (newbrk oldbrk : Nat) (vma : VmArea) : VmArea :=
  { vma with
    pagesBlockList := vma.pagesBlockList.filter fun pb =>
      !(newbrk ≤ pb.userVirtAddr && pb.userVirtAddr < oldbrk) }

/-- The end of `sys_brk`. -/
def brkOut (mm : MmStruct) (vm : VmState κ) : MmStruct × VmState κ :=
  match findVma mm.mmap mm.startBrk with
  | none =>
      let (_, mmap, heap) :=
        setupVma H vm.heap mm.mmap mm.startBrk mm.brk (vmRead ||| vmWrite) noLma
      ({ mm with mmap := mmap }, { vm with heap := heap })
  | some _ =>
      ({ mm with mmap := updateVma mm.startBrk (fun vma => { vma with vmEnd := mm.brk }) mm.mmap }, vm)

/-- `sys_brk` on the address space of the caller. -/
def sysBrk (pgDir addr : Nat) (mm : MmStruct) (vm : VmState κ) :
    Except Halt (MmStruct × VmState κ) :=
  if addr = 0 ∨ addr < mm.startBrk ∨ maxBrkAddr < addr then .ok (brkOut H mm vm)
  else
    let newbrk := upperPageAddr addr
    let oldbrk := upperPageAddr mm.brk
    if newbrk < oldbrk then
      (unmapUserPageMapping pgDir newbrk (oldbrk - newbrk) vm).bind fun vm =>
        if findVma mm.mmap mm.startBrk = none then .error .kernelPanic
        else
          .ok (brkOut H
            { mm with
              mmap := updateVma mm.startBrk (dropBlocks newbrk oldbrk) mm.mmap
              brk := addr % 2 ^ 32 } vm)
    else .ok (brkOut H { mm with brk := addr % 2 ^ 32 } vm)

/-! ## Exceptions and exit -/

/-- `do_el0_sync` for an exception that is not a system call, on the address space of the task; the
vma of the address exists. -/
def handleFault (pgDir addr : Nat) (mm : MmStruct) (vm : VmState κ) :
    Except Halt (MmStruct × VmState κ) :=
  let (page, usage) := getFreePages vm.pagesUsage 0
  if page = 0 then .ok (mm, vm)
  else
    (setupUserPageMapping pgDir (pageAddr addr) (pa page) pageSize false
      { vm with pagesUsage := usage }).map fun vm =>
        let (_, mmap, heap) := addPagesBlock H vm.heap mm.mmap addr (pageAddr addr) page 0
        ({ mm with mmap := mmap }, { vm with heap := heap })

/-- `do_exit` of task `i`. -/
def doExit (i : Nat) (s : KernelState κ) : Except Halt (KernelState κ) :=
  let t := s.tasks i
  (exitMm H t.pgDir t.mm s.vm).map fun vm =>
    { s with vm := vm, tasks := Function.update s.tasks i { t with state := .stopped } }

/-- The state after a call that changes the address space of task `i`. -/
def setMm (s : KernelState κ) (i : Nat) (r : MmStruct × VmState κ) : KernelState κ :=
  { s with vm := r.2, tasks := Function.update s.tasks i { s.tasks i with mm := some r.1 } }

/-- `do_el0_sync` of task `i` for an exception at `addr` that is not a system call. -/
def doEl0Sync (i addr : Nat) (s : KernelState κ) : Except Halt (KernelState κ) :=
  let t := s.tasks i
  match t.mm with
  | none => doExit H i s
  | some mm =>
      if findVma mm.mmap addr = none then doExit H i s
      else (handleFault H t.pgDir addr mm s.vm).map (setMm s i)

/-- `sys_brk` of task `i`, with the argument and the result in `regs[0]`. -/
def doBrk (i regs : Nat) (s : KernelState κ) : Except Halt (KernelState κ) :=
  let t := s.tasks i
  match t.mm with
  | none => .error .kernelPanic
  | some mm =>
      (sysBrk H t.pgDir (load s.vm.mem regs 8) mm s.vm).map fun r =>
        setMm s i (r.1, { r.2 with mem := store r.2.mem regs 8 r.1.brk })

/-! ## Steps -/

/-- What can happen; `regs` points to the registers saved on the kernel stack of the task. -/
inductive Action (κ : Type)
  | userTest (i : Nat)
  | fork (i regs : Nat)
  | brk (i regs addr : Nat)
  | exception (i addr : Nat)
  | exit (i : Nat)
  /-- A user program stores a byte. -/
  | userStore (i virtAddr : Nat) (b : UInt8)
  /-- Other code of the kernel allocates or frees memory with `kmalloc` and `kfree`. -/
  | kmallocUse (heap : κ)

/-- The task that acts. -/
def Action.task {κ : Type} : Action κ → Option Nat
  | .userTest i => some i
  | .fork i _ => some i
  | .brk i _ _ => some i
  | .exception i _ => some i
  | .exit i => some i
  | .userStore i _ _ => some i
  | .kmallocUse _ => none

/-- `sizeof (struct pt_regs)`. -/
def sizeofPtRegs : Nat := 288

/-- Task `i` runs user code. -/
def UserRuns (s : KernelState κ) (i : Nat) : Prop :=
  (s.tasks i).live = true ∧ (s.tasks i).pgDir ≠ 0

/-- The saved registers are on the kernel stack of task `i`. -/
def RegsOk (s : KernelState κ) (i regs : Nat) : Prop :=
  (s.tasks i).stack ≤ regs ∧ regs + sizeofPtRegs ≤ (s.tasks i).stack + pageSize

instance (s : KernelState κ) (i : Nat) : Decidable (UserRuns s i) :=
  inferInstanceAs (Decidable (_ ∧ _))

instance (s : KernelState κ) (i regs : Nat) : Decidable (RegsOk s i regs) :=
  inferInstanceAs (Decidable (_ ∧ _))

/-- The action can happen in this state. -/
def Enabled (s : KernelState κ) : Action κ → Prop
  | .userTest i => (s.tasks i).live = true ∧ (s.tasks i).pgDir = 0 ∧ s.userTask = none
  | .fork i regs => UserRuns s i ∧ RegsOk s i regs
  | .brk i regs addr => UserRuns s i ∧ RegsOk s i regs ∧ addr < 2 ^ 64
  | .exception i addr => UserRuns s i ∧ addr < 2 ^ 64
  | .exit i => (s.tasks i).live = true
  | .userStore i virtAddr _ =>
      UserRuns s i ∧ virtAddr < 2 ^ 39 ∧
        (userFrame s.vm.mem (s.tasks i).pgDir virtAddr).isSome = true
  | .kmallocUse _ => True

instance (s : KernelState κ) : (a : Action κ) → Decidable (Enabled s a)
  | .userTest _ => inferInstanceAs (Decidable (_ ∧ _ ∧ _))
  | .fork _ _ => inferInstanceAs (Decidable (_ ∧ _))
  | .brk _ _ _ => inferInstanceAs (Decidable (_ ∧ _ ∧ _))
  | .exception _ _ => inferInstanceAs (Decidable (_ ∧ _))
  | .exit _ => inferInstanceAs (Decidable (_ = _))
  | .userStore _ _ _ => inferInstanceAs (Decidable (_ ∧ _ ∧ _))
  | .kmallocUse _ => inferInstanceAs (Decidable True)

/-- Replace the contents of memory. -/
def KernelState.withMem (s : KernelState κ) (mem : Mem) : KernelState κ :=
  { s with vm := { s.vm with mem := mem } }

/-- The effect of an action. -/
def exec (u : UserImage) (s : KernelState κ) : Action κ → Except Halt (KernelState κ)
  | .userTest i => userTest H u i s
  | .fork i regs => (sysFork H img i regs s).map Prod.fst
  | .brk i regs addr => doBrk H i regs (s.withMem (store s.vm.mem regs 8 addr))
  | .exception i addr => doEl0Sync H i addr s
  | .exit i => doExit H i s
  | .userStore i virtAddr b =>
      .ok (s.withMem (Function.update s.vm.mem
        (userByteAddr s.vm.mem (s.tasks i).pgDir virtAddr) b))
  | .kmallocUse heap => .ok { s with vm := { s.vm with heap := heap } }

def step (u : UserImage) (s : KernelState κ) (a : Action κ) : Option (KernelState κ) :=
  if Enabled s a then (exec H img u s a).toOption else none

/-- The physical page 0 reads as zero. -/
def ZeroPage (m : Mem) : Prop := ∀ x, InPage true 0 x → m x = 0

/-- The state in which `main` has started its threads: no task has user memory yet. -/
structure Boot (s : KernelState κ) : Prop where
  zero : ZeroPage s.vm.mem
  user : s.userTask = none
  slots : ∀ i, maxNumProcesses ≤ i → (s.tasks i).inUse = false
  unused : ∀ i, (s.tasks i).inUse = false → s.tasks i = {}
  stack : ∀ i, (s.tasks i).inUse = true → (s.tasks i).stack = img.stack i
  pgDir : ∀ i, (s.tasks i).pgDir = 0
  mm : ∀ i, (s.tasks i).inUse = true → ∃ mm, (s.tasks i).mm = some mm ∧ mm.mmap = []

end Heap

/-- The results of the next calls of `kmalloc`; after them all calls succeed. -/
def sampleHeap : KernelHeap (List Nat) where
  kmalloc
    | [], _ => (16, [])
    | p :: rest, _ => (p, rest)
  kfree heap _ := heap

/-- A state after boot with one thread and an empty pool. -/
def sampleBoot : KernelState (List Nat) where
  vm := { mem := fun _ => 0, pagesUsage := fun _ => false, heap := [] }
  tasks i :=
    if i = 0 then
      { inUse := true
        state := .running
        stack := sampleImage.stack 0
        mm := some { self := 16 } }
    else {}
  userTask := none

theorem sampleBoot_boot : Boot sampleImage sampleBoot := by
  have hfree : ∀ i, i ≠ 0 → sampleBoot.tasks i = {} := fun i hi => if_neg hi
  refine ⟨fun _ _ => rfl, rfl, fun i hi => ?_, fun i hi => ?_, fun i hi => ?_, fun i => ?_, fun i hi => ?_⟩
  · have hne : i ≠ 0 := by
      rintro rfl
      exact absurd hi (by decide)
    rw [hfree i hne]
  · by_cases h0 : i = 0
    · subst h0
      exact absurd hi (by decide)
    · exact hfree i h0
  · by_cases h0 : i = 0
    · subst h0
      rfl
    · rw [hfree i h0] at hi
      cases hi
  · by_cases h0 : i = 0
    · subst h0
      rfl
    · rw [hfree i h0]
  · by_cases h0 : i = 0
    · subst h0
      exact ⟨{ self := 16 }, rfl, rfl⟩
    · rw [hfree i h0] at hi
      cases hi

end Kernel
end ToutOS
