import ToutOS.Mm.PagePool
import ToutOS.Mm.Mapping
import ToutOS.Kernel.Task

/-!
# Vm — address spaces: `kernel/sched.c` from `free_page_tables` to `unmap_user_page_mapping`, and the
copying loop of `sys_fork`

An address space consists of a list of vmas and a page table.  A vma whose `lma` is `-1` is filled
on demand, page by page, and its `pages_block_list` keeps the pages; the other vmas are mapped as a
whole when the address space is set up.

* `VmState` — what the functions work on: memory, `pages_usage` and the state of `kmalloc`.
* `kmalloc` and `kfree` are parameters (`KernelHeap`), so that any call may fail.
* Reading or writing user memory in the kernel goes through the page table of the current task; a
  page that is not mapped is a data abort at EL1.
-/

namespace ToutOS
namespace Kernel

open Base Mm

/-! ## The state -/

structure KernelHeap (κ : Type) where
  kmalloc : κ → Nat → Nat × κ
  kfree : κ → Nat → κ

structure VmState (κ : Type) where
  /-- By the linear addresses of the kernel. -/
  mem : Mem
  pagesUsage : PagesUsage
  heap : κ

/-- `VM_READ`. -/
def vmRead : Nat := 1

/-- `VM_WRITE`. -/
def vmWrite : Nat := 2

/-- `VM_EXEC`. -/
def vmExec : Nat := 4

/-- `VM_SHARED`. -/
def vmShared : Nat := 8

/-- `(unsigned long)(-1)`. -/
def noLma : Nat := 2 ^ 64 - 1

def VmArea.shared (vma : VmArea) : Bool := vma.vmFlags &&& vmShared ≠ 0

def VmArea.writable (vma : VmArea) : Bool := vma.vmFlags &&& vmWrite ≠ 0

/-- The test of `find_vma`. -/
def VmArea.covers (vma : VmArea) (addr : Nat) : Bool := vma.vmStart ≤ addr && addr < vma.vmEnd

/-! ## Vmas -/

/-- `find_vma`. -/
def findVma (mmap : List VmArea) (addr : Nat) : Option VmArea := mmap.find? fun vma => vma.covers addr

/-- The list after a change to the vma that `find_vma` returns. -/
def updateVma (addr : Nat) (f : VmArea → VmArea) : List VmArea → List VmArea
  | [] => []
  | vma :: rest => if vma.covers addr then f vma :: rest else vma :: updateVma addr f rest

/-- `sizeof (struct vm_area_struct)`. -/
def sizeofVmArea : Nat := 80

/-- `sizeof (struct pages_block)`. -/
def sizeofPagesBlock : Nat := 40

/-- `sizeof (struct mm_struct)`. -/
def sizeofMmStruct : Nat := 24

section Heap

variable {κ : Type} (H : KernelHeap κ)

/-- `setup_vma`: whether it succeeded, the new list and the new state of `kmalloc`. -/
def setupVma (heap : κ) (mmap : List VmArea) (vmStart vmEnd vmFlags lma : Nat) :
    Bool × List VmArea × κ :=
  let (vma, heap) := H.kmalloc heap sizeofVmArea
  if vma = 0 then (false, mmap, heap)
  else
    let new : VmArea :=
      { self := vma
        vmStart := vmStart
        vmEnd := vmEnd
        vmFlags := vmFlags
        lma := lma
        pagesBlockList := [] }
    (true, new :: mmap, heap)

/-- `add_pages_block` on the vma that `find_vma` returns for `addr`. -/
def addPagesBlock (heap : κ) (mmap : List VmArea) (addr userVirtAddr linearAddr order : Nat) :
    Bool × List VmArea × κ :=
  if findVma mmap addr = none ∨ userVirtAddr = 0 ∨ linearAddr = 0 then (false, mmap, heap)
  else
    let (pb, heap) := H.kmalloc heap sizeofPagesBlock
    if pb = 0 then (false, mmap, heap)
    else
      let new : PagesBlock :=
        { self := pb, userVirtAddr := userVirtAddr, linearAddr := linearAddr, order := order }
      (true,
        updateVma addr (fun vma => { vma with pagesBlockList := vma.pagesBlockList ++ [new] }) mmap,
        heap)

/-! ## Mapping and unmapping -/

/-- The attributes of a user mapping: normal memory, accessible from EL0, inner shareable, not
global. -/
def userAttrs (rdonly : Bool) : Nat :=
  (4 <<< 2) ||| (1 <<< 6) ||| (3 <<< 8) ||| (1 <<< 11) ||| (if rdonly then 1 <<< 7 else 0)

/-- `setup_user_page_mapping`. -/
def setupUserPageMapping (pgDir virtAddr phyAddr size : Nat) (rdonly : Bool) (vm : VmState κ) :
    Except Halt (VmState κ) :=
  if pgDir = 0 then .ok vm
  else if phyAddr = noLma then .ok vm
  else
    let map : MemoryMap :=
      { phyAddr := phyAddr, virtAddr := virtAddr, size := size, attrs := userAttrs rdonly }
    (addSingleMap (getZeroedPages 0) true pgDir map { mem := vm.mem, alloc := vm.pagesUsage }).map
      fun pt => { vm with mem := pt.mem, pagesUsage := pt.alloc }

/-- `setup_user_page_mappings`. -/
def setupUserPageMappings (pgDir : Nat) : List VmArea → VmState κ → Except Halt (VmState κ)
  | [], vm => .ok vm
  | vma :: rest, vm =>
      (setupUserPageMapping pgDir vma.vmStart vma.lma (vma.vmEnd - vma.vmStart) (!vma.writable)
        vm).bind fun vm => setupUserPageMappings pgDir rest vm

/-- `unmap_one_user_page`; it goes down the tables without looking whether an entry is empty. -/
def unmapOneUserPage (pgDir virtAddr : Nat) (vm : VmState κ) : Except Halt (VmState κ) :=
  let table := [30, 21].foldl (fun table layer =>
    linear true (getPhyAddr (load vm.mem (entryAddr table (getPgEntryIndex virtAddr layer)) 8))) pgDir
  let entry := entryAddr table (getPgEntryIndex virtAddr 12)
  let descriptor := load vm.mem entry 8
  (if descriptor ≠ 0 then freePages vm.pagesUsage (va (getPhyAddr descriptor)) 0
    else .ok vm.pagesUsage).map fun usage =>
      { vm with mem := store vm.mem entry 8 0, pagesUsage := usage }

/-- The loop of `unmap_user_page_mapping` over `n` pages. -/
def unmapLoop (pgDir : Nat) : Nat → Nat → VmState κ → Except Halt (VmState κ)
  | 0, _, vm => .ok vm
  | n + 1, addr, vm =>
      (unmapOneUserPage pgDir addr vm).bind fun vm => unmapLoop pgDir n (addr + pageSize) vm

/-- `unmap_user_page_mapping`; its caller only prints that it failed. -/
def unmapUserPageMapping (pgDir virtAddr size : Nat) (vm : VmState κ) : Except Halt (VmState κ) :=
  if pgDir = 0 then .ok vm
  else if virtAddr = 0 ∨ size % pageSize ≠ 0 then .ok vm
  else unmapLoop pgDir (size / pageSize) virtAddr vm

/-! ## Giving an address space back -/

/-- `free_pages_blocks`. -/
def freePagesBlocks (pbs : List PagesBlock) (usage : PagesUsage) : Except Halt PagesUsage :=
  pbs.foldlM (fun usage pb => freePages usage pb.linearAddr pb.order) usage

/-- Free what the entries of a table point to. -/
def freeEntries (m : Mem) (table : Nat) (free : Nat → PagesUsage → Except Halt PagesUsage)
    (usage : PagesUsage) : Except Halt PagesUsage :=
  (List.finRange 512).foldlM (fun usage i =>
    let descriptor := load m (entryAddr table i) 8
    if descriptor ≠ 0 then free (va (getPhyAddr descriptor)) usage else .ok usage) usage

/-- `free_page_tables_layer1`. -/
def freePageTablesLayer1 (m : Mem) (pageTable : Nat) (usage : PagesUsage) : Except Halt PagesUsage :=
  if pageTable = 0 then .ok usage
  else
    (freeEntries m pageTable (fun entry usage => freePages usage entry 0) usage).bind fun usage =>
      freePages usage pageTable 0

/-- `free_page_tables`. -/
def freePageTables (m : Mem) (pgDir : Nat) (usage : PagesUsage) : Except Halt PagesUsage :=
  if pgDir = 0 then .ok usage
  else
    (freeEntries m pgDir (freePageTablesLayer1 m) usage).bind fun usage => freePages usage pgDir 0

/-- The loop of `exit_mm` over the vmas. -/
def exitVmas : List VmArea → VmState κ → Except Halt (VmState κ)
  | [], vm => .ok vm
  | vma :: rest, vm =>
      (if vma.shared then .ok vm.pagesUsage
        else freePagesBlocks vma.pagesBlockList vm.pagesUsage).bind fun usage =>
          exitVmas rest { vm with pagesUsage := usage, heap := H.kfree vm.heap vma.self }

/-- `exit_mm`. -/
def exitMm (pgDir : Nat) (mm : Option MmStruct) (vm : VmState κ) : Except Halt (VmState κ) :=
  match mm with
  | none => .ok vm
  | some mm =>
      (exitVmas H mm.mmap vm).bind fun vm =>
        (freePageTables vm.mem pgDir vm.pagesUsage).map fun usage =>
          { vm with pagesUsage := usage, heap := H.kfree vm.heap mm.self }

/-! ## User memory -/

/-- The frame of the page of a user address in the tables at `pgDir`. -/
def userFrame (m : Mem) (pgDir virtAddr : Nat) : Option Nat :=
  lookup true m (physical true pgDir) virtAddr

/-- The linear address of the byte at a user address. -/
def userByteAddr (m : Mem) (pgDir virtAddr : Nat) : Nat :=
  va ((userFrame m pgDir virtAddr).getD 0) + virtAddr % pageSize

/-- All pages of `[virtAddr, virtAddr + n)` are mapped. -/
def userRangeMapped (m : Mem) (pgDir virtAddr n : Nat) : Bool :=
  (List.range (n / pageSize + 2)).all fun i =>
    virtAddr + n ≤ pageAddr virtAddr + pageSize * i ||
      (userFrame m pgDir (pageAddr virtAddr + pageSize * i)).isSome

/-- `memcpy(dst, virtAddr, n)` from user memory to a linear address that overlaps neither the pages
read nor the tables. -/
def copyFromUser (m : Mem) (pgDir dst virtAddr n : Nat) : Except Halt Mem :=
  if userRangeMapped m pgDir virtAddr n then
    .ok fun x =>
      if dst ≤ x ∧ x < dst + n then m (userByteAddr m pgDir (virtAddr + (x - dst))) else m x
  else .error .kernelPanic

/-- `memset(virtAddr, 0, n)` on user memory. -/
def clearUser (m : Mem) (pgDir virtAddr n : Nat) : Except Halt Mem :=
  if userRangeMapped m pgDir virtAddr n then
    .ok fun x =>
      if (List.range (n / pageSize + 2)).any fun i =>
        let page := pageAddr virtAddr + pageSize * i
        match userFrame m pgDir page with
        | none => false
        | some a =>
            va a ≤ x && x < va a + pageSize && virtAddr ≤ page + (x - va a) &&
              page + (x - va a) < virtAddr + n
      then 0 else m x
  else .error .kernelPanic

/-! ## Copying an address space -/

/-- What the loops of `sys_fork` work on: the flag is cleared when they are left with an error. -/
structure ForkState (κ : Type) where
  ok : Bool
  vm : VmState κ
  /-- The vmas of the child. -/
  mmap : List VmArea

/-- The loop of `sys_fork` over the pages of a vma that is filled on demand. -/
def forkBlocks (vmStart : Nat) :
    List PagesBlock → VmState κ → List VmArea → Except Halt (ForkState κ)
  | [], vm, mmap => .ok { ok := true, vm := vm, mmap := mmap }
  | pb :: rest, vm, mmap =>
      let (page, usage) := getFreePages vm.pagesUsage 0
      if page = 0 then .ok { ok := false, vm := vm, mmap := mmap }
      else
        let (ok, mmap, heap) := addPagesBlock H vm.heap mmap vmStart pb.userVirtAddr page 0
        if ok then
          forkBlocks vmStart rest
            { mem := copy vm.mem page pb.linearAddr pageSize, pagesUsage := usage, heap := heap } mmap
        else
          (freePages usage page 0).map fun usage =>
            { ok := false, vm := { vm with pagesUsage := usage, heap := heap }, mmap := mmap }

/-- A vma that `sys_fork` copies as a whole. -/
def forkStatic (pgDir : Nat) (vma : VmArea) (vm : VmState κ) (mmap : List VmArea) :
    Except Halt (ForkState κ) :=
  let size := vma.vmEnd - vma.vmStart
  let order := getOrder size
  let (page, usage) := getFreePages vm.pagesUsage order
  if page = 0 then .ok { ok := false, vm := vm, mmap := mmap }
  else
    let (ok, mmap, heap) := setupVma H vm.heap mmap vma.vmStart vma.vmEnd vma.vmFlags (pa page)
    if ok then
      let (ok, mmap, heap) := addPagesBlock H heap mmap vma.vmStart vma.vmStart page order
      if ok then
        (copyFromUser vm.mem pgDir page vma.vmStart size).map fun mem =>
          { ok := true, vm := { mem := mem, pagesUsage := usage, heap := heap }, mmap := mmap }
      else
        (freePages usage page order).map fun usage =>
          { ok := false, vm := { vm with pagesUsage := usage, heap := heap }, mmap := mmap }
    else
      (freePages usage page order).map fun usage =>
        { ok := false, vm := { vm with pagesUsage := usage, heap := heap }, mmap := mmap }

/-- The body of the loop of `sys_fork` over the vmas of the parent, whose tables are at `pgDir`. -/
def forkVma (pgDir : Nat) (vma : VmArea) (vm : VmState κ) (mmap : List VmArea) :
    Except Halt (ForkState κ) :=
  if vma.shared then
    let (ok, mmap, heap) := setupVma H vm.heap mmap vma.vmStart vma.vmEnd vma.vmFlags vma.lma
    .ok { ok := ok, vm := { vm with heap := heap }, mmap := mmap }
  else if vma.lma ≠ noLma then forkStatic H pgDir vma vm mmap
  else
    let (ok, mmap, heap) := setupVma H vm.heap mmap vma.vmStart vma.vmEnd vma.vmFlags noLma
    if ok then forkBlocks H vma.vmStart vma.pagesBlockList { vm with heap := heap } mmap
    else .ok { ok := false, vm := { vm with heap := heap }, mmap := mmap }

/-- The loop of `sys_fork` over the vmas of the parent. -/
def forkVmas (pgDir : Nat) : List VmArea → VmState κ → List VmArea → Except Halt (ForkState κ)
  | [], vm, mmap => .ok { ok := true, vm := vm, mmap := mmap }
  | vma :: rest, vm, mmap =>
      (forkVma H pgDir vma vm mmap).bind fun fs =>
        if fs.ok then forkVmas pgDir rest fs.vm fs.mmap else .ok fs

end Heap

end Kernel
end ToutOS
