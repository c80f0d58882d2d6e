import ToutOS.Mm.TableCount
import ToutOS.Kernel.Kmalloc
import ToutOS.Kernel.Requests
import ToutOS.Kernel.Balance

/-!
# Records — what a process holds of the kernel's pool

An address space is kept in three kinds of records: the `mm_struct`, a `vm_area_struct` for each vma, and
a `pages_block` for each entry of the lists.  `exit_mm` frees the first two kinds; nothing frees a
`pages_block`.

* `Adds` — a part of a call has made records for the vmas of a list, and a number of blocks.
* `forkVmas_adds`, `handleFault_adds`, `sysBrk_adds`, `exitMm_gives` — the calls.
* `sysFork_adds`, `childStep_adds` — the steps of a child, from the `sys_fork` that makes it on.
* `childRun_tally` — the blocks that a whole life leaves behind; `childRun_live` says it of the pool.
-/

namespace ToutOS
namespace Kernel

open Base Mm

variable {κ : Type} {H : KernelHeap κ} {Holds : List Nat → κ → Prop} {heap heap' heap'' : κ}
  {mmap mmap' mmap'' : List VmArea} {vm vm' : VmState κ} {mm mm' : MmStruct} {n k : Nat}

/-! ## The records of an address space -/

def vmaRecords (mmap : List VmArea) : List Nat := mmap.map VmArea.self

/-- The records that `exit_mm` frees. -/
def MmStruct.records (mm : MmStruct) : List Nat := mm.self :: vmaRecords mm.mmap

@[simp] theorem vmaRecords_nil : vmaRecords [] = [] := rfl

@[simp] theorem vmaRecords_cons (vma : VmArea) (mmap : List VmArea) :
    vmaRecords (vma :: mmap) = vma.self :: vmaRecords mmap := rfl

/-- Changing a vma does not change which record it is. -/
theorem vmaRecords_updateVma {f : VmArea → VmArea} (hf : ∀ vma, (f vma).self = vma.self) (addr : Nat) :
    ∀ mmap, vmaRecords (updateVma addr f mmap) = vmaRecords mmap
  | [] => rfl
  | vma :: mmap => by
      by_cases hcov : vma.covers addr = true
      · rw [updateVma, if_pos hcov, vmaRecords_cons, vmaRecords_cons, hf]
      · rw [updateVma, if_neg hcov, vmaRecords_cons, vmaRecords_cons, vmaRecords_updateVma hf addr mmap]

/-- The vmas have become `mmap'`, and `n` blocks have been made. -/
def Adds (Holds : List Nat → κ → Prop) (n : Nat) (mmap : List VmArea) (heap : κ) (mmap' : List VmArea)
    (heap' : κ) : Prop :=
  ∀ l, Holds (vmaRecords mmap ++ l) heap →
    ∃ new, new.length = n ∧ Holds (vmaRecords mmap' ++ (new ++ l)) heap'

theorem Adds.same (h : vmaRecords mmap' = vmaRecords mmap) : Adds Holds 0 mmap heap mmap' heap :=
  fun l hl => ⟨[], rfl, by rwa [h]⟩

/-- One part after the other. -/
theorem Adds.trans (h₁ : Adds Holds n mmap heap mmap' heap') (h₂ : Adds Holds k mmap' heap' mmap'' heap'') :
    Adds Holds (n + k) mmap heap mmap'' heap'' := by
  intro l hl
  obtain ⟨new, hlen, hmid⟩ := h₁ l hl
  obtain ⟨more, hlen', hend⟩ := h₂ (new ++ l) hmid
  refine ⟨more ++ new, ?_, ?_⟩
  · rw [List.length_append, hlen, hlen', Nat.add_comm]
  · rwa [List.append_assoc]

section Calls

variable (hH : HeapLaws H Holds)

include hH

/-! ## The parts of the calls -/

/-- A vma has a record, if it has been made. -/
theorem setupVma_adds {vmStart vmEnd vmFlags lma : Nat} {ok : Bool}
    (hcall : setupVma H heap mmap vmStart vmEnd vmFlags lma = (ok, mmap', heap')) :
    Adds Holds 0 mmap heap mmap' heap' := by
  have hsize : sizeofVmArea < 2 ^ 64 := by decide
  intro l hl
  rcases hkm : H.kmalloc heap sizeofVmArea with ⟨self, heap₁⟩
  have hfail := hH.fail hl hsize
  have htake := hH.take hl hsize
  rw [hkm] at hfail htake
  simp only [setupVma, hkm] at hcall
  by_cases hself : self = 0
  · rw [if_pos hself] at hcall
    simp only [Prod.mk.injEq] at hcall
    obtain ⟨-, rfl, rfl⟩ := hcall
    exact ⟨[], rfl, hfail hself⟩
  · rw [if_neg hself] at hcall
    simp only [Prod.mk.injEq] at hcall
    obtain ⟨-, rfl, rfl⟩ := hcall
    exact ⟨[], rfl, htake hself⟩

/-- A block has a record, if it has been made. -/
theorem addPagesBlock_adds {addr userVirtAddr linearAddr order : Nat} {ok : Bool}
    (hcall : addPagesBlock H heap mmap addr userVirtAddr linearAddr order = (ok, mmap', heap')) :
    Adds Holds (if ok then 1 else 0) mmap heap mmap' heap' := by
  have hsize : sizeofPagesBlock < 2 ^ 64 := by decide
  intro l hl
  rw [addPagesBlock] at hcall
  by_cases hnull : findVma mmap addr = none ∨ userVirtAddr = 0 ∨ linearAddr = 0
  · rw [if_pos hnull] at hcall
    simp only [Prod.mk.injEq] at hcall
    obtain ⟨rfl, rfl, rfl⟩ := hcall
    exact ⟨[], rfl, hl⟩
  rw [if_neg hnull] at hcall
  rcases hkm : H.kmalloc heap sizeofPagesBlock with ⟨pb, heap₁⟩
  have hfail := hH.fail hl hsize
  have htake := hH.take hl hsize
  rw [hkm] at hfail htake
  simp only [hkm] at hcall
  by_cases hpb : pb = 0
  · rw [if_pos hpb] at hcall
    simp only [Prod.mk.injEq] at hcall
    obtain ⟨rfl, rfl, rfl⟩ := hcall
    exact ⟨[], rfl, hfail hpb⟩
  · rw [if_neg hpb] at hcall
    simp only [Prod.mk.injEq] at hcall
    obtain ⟨rfl, rfl, rfl⟩ := hcall
    have hsame := @vmaRecords_updateVma (appendBlock ⟨pb, userVirtAddr, linearAddr, order⟩)
      (fun _ => rfl) addr mmap
    refine ⟨[pb], rfl, ?_⟩
    change Holds (vmaRecords (updateVma addr (appendBlock ⟨pb, userVirtAddr, linearAddr, order⟩) mmap) ++
      ([pb] ++ l)) heap₁
    rw [hsame]
    exact hH.perm List.perm_middle.symm (htake hpb)

/-- The loop of `sys_fork` over the blocks of a vma. -/
theorem forkBlocks_adds {vmStart : Nat} {pbs : List PagesBlock} :
    ∀ {vm : VmState κ} {mmap : List VmArea} {fs : ForkState κ}, forkBlocks H vmStart pbs vm mmap = .ok fs →
      fs.ok = true → Adds Holds pbs.length mmap vm.heap fs.mmap fs.vm.heap := by
  induction pbs with
  | nil =>
      intro vm mmap fs hrun _
      obtain rfl := Except.ok.inj hrun
      exact Adds.same rfl
  | cons pb pbs ih =>
      intro vm mmap fs hrun hok
      rcases hget : getFreePages vm.pagesUsage 0 with ⟨page, usage⟩
      simp only [forkBlocks, hget] at hrun
      by_cases hpage : page = 0
      · rw [if_pos hpage] at hrun
        obtain rfl := Except.ok.inj hrun
        cases hok
      rw [if_neg hpage] at hrun
      rcases hadd : addPagesBlock H vm.heap mmap vmStart pb.userVirtAddr page 0 with ⟨added, mmap₁, heap₁⟩
      simp only [hadd] at hrun
      have hfirst := addPagesBlock_adds hH hadd
      by_cases hadded : added = true
      · rw [if_pos hadded] at hrun hfirst
        rw [List.length_cons, Nat.add_comm]
        exact hfirst.trans (ih hrun hok)
      · rw [if_neg hadded] at hrun
        obtain ⟨usage', -, rfl⟩ := except_map_eq_ok.1 hrun
        cases hok

/-- A vma that is copied as a whole gets one block. -/
theorem forkStatic_adds {pgDir : Nat} {x : VmArea} {fs : ForkState κ}
    (hrun : forkStatic H pgDir x vm mmap = .ok fs) (hok : fs.ok = true) :
    Adds Holds 1 mmap vm.heap fs.mmap fs.vm.heap := by
  generalize horder : getOrder (x.vmEnd - x.vmStart) = order at hrun
  rcases hget : getFreePages vm.pagesUsage order with ⟨page, usage⟩
  simp only [forkStatic, horder, hget] at hrun
  by_cases hpage : page = 0
  · rw [if_pos hpage] at hrun
    obtain rfl := Except.ok.inj hrun
    cases hok
  rw [if_neg hpage] at hrun
  rcases hsetup : setupVma H vm.heap mmap x.vmStart x.vmEnd x.vmFlags (pa page) with ⟨made, mmap₁, heap₁⟩
  simp only [hsetup] at hrun
  by_cases hmade : made = true
  swap
  · rw [if_neg hmade] at hrun
    obtain ⟨usage', -, rfl⟩ := except_map_eq_ok.1 hrun
    cases hok
  rw [if_pos hmade] at hrun
  rcases hadd : addPagesBlock H heap₁ mmap₁ x.vmStart x.vmStart page order with ⟨added, mmap₂, heap₂⟩
  simp only [hadd] at hrun
  have hfirst := setupVma_adds hH hsetup
  have hsecond := addPagesBlock_adds hH hadd
  by_cases hadded : added = true
  · rw [if_pos hadded] at hrun hsecond
    obtain ⟨m', -, rfl⟩ := except_map_eq_ok.1 hrun
    exact hfirst.trans hsecond
  · rw [if_neg hadded] at hrun
    obtain ⟨usage', -, rfl⟩ := except_map_eq_ok.1 hrun
    cases hok

/-- The copy of a vma has as many blocks as there are addresses to copy. -/
theorem forkVma_adds {pgDir : Nat} {x : VmArea} {fs : ForkState κ}
    (hrun : forkVma H pgDir x vm mmap = .ok fs) (hok : fs.ok = true) :
    Adds Holds x.copiedAt.length mmap vm.heap fs.mmap fs.vm.heap := by
  rw [forkVma] at hrun
  rw [VmArea.copiedAt]
  by_cases hshared : x.shared = true
  · rw [if_pos hshared] at hrun ⊢
    rcases hsetup : setupVma H vm.heap mmap x.vmStart x.vmEnd x.vmFlags x.lma with ⟨made, mmap₁, heap₁⟩
    simp only [hsetup] at hrun
    obtain rfl := Except.ok.inj hrun
    exact setupVma_adds hH hsetup
  rw [if_neg hshared] at hrun ⊢
  by_cases hlma : x.lma ≠ noLma
  · rw [if_pos hlma] at hrun ⊢
    exact forkStatic_adds hH hrun hok
  rw [if_neg hlma] at hrun ⊢
  rcases hsetup : setupVma H vm.heap mmap x.vmStart x.vmEnd x.vmFlags noLma with ⟨made, mmap₁, heap₁⟩
  simp only [hsetup] at hrun
  by_cases hmade : made = true
  · rw [if_pos hmade] at hrun
    rw [List.length_map, ← Nat.zero_add x.pagesBlockList.length]
    exact (setupVma_adds hH hsetup).trans (forkBlocks_adds hH hrun hok)
  · rw [if_neg hmade] at hrun
    obtain rfl := Except.ok.inj hrun
    cases hok

/-- The loop of `sys_fork` over the vmas of the parent. -/
theorem forkVmas_adds {pgDir : Nat} {rest : List VmArea} :
    ∀ {vm : VmState κ} {mmap : List VmArea} {fs : ForkState κ}, forkVmas H pgDir rest vm mmap = .ok fs →
      fs.ok = true → Adds Holds (rest.flatMap VmArea.copiedAt).length mmap vm.heap fs.mmap fs.vm.heap := by
  induction rest with
  | nil =>
      intro vm mmap fs hrun _
      obtain rfl := Except.ok.inj hrun
      exact Adds.same rfl
  | cons x rest ih =>
      intro vm mmap fs hrun hok
      rw [forkVmas] at hrun
      obtain ⟨fs₁, hfirst, hrest⟩ := except_bind_eq_ok.1 hrun
      by_cases hok₁ : fs₁.ok = true
      · rw [if_pos hok₁] at hrest
        rw [List.flatMap_cons, List.length_append]
        exact (forkVma_adds hH hfirst hok₁).trans (ih hrest hok)
      · rw [if_neg hok₁] at hrest
        obtain rfl := Except.ok.inj hrest
        exact absurd hok hok₁

omit hH

/-! ## Exceptions and `sys_brk` -/

theorem setupUserPageMapping_heap {pgDir virtAddr phyAddr size : Nat} {rdonly : Bool}
    (hrun : setupUserPageMapping pgDir virtAddr phyAddr size rdonly vm = .ok vm') : vm'.heap = vm.heap := by
  rw [setupUserPageMapping] at hrun
  split_ifs at hrun
  · rw [← Except.ok.inj hrun]
  · rw [← Except.ok.inj hrun]
  · obtain ⟨pt, -, rfl⟩ := except_map_eq_ok.1 hrun
    rfl

theorem setupUserPageMappings_heap {pgDir : Nat} {mmap : List VmArea} :
    ∀ {vm : VmState κ}, setupUserPageMappings pgDir mmap vm = .ok vm' → vm'.heap = vm.heap := by
  induction mmap with
  | nil =>
      intro vm hrun
      rw [← Except.ok.inj hrun]
  | cons vma mmap ih =>
      intro vm hrun
      rw [setupUserPageMappings] at hrun
      obtain ⟨vm₁, hfirst, hrest⟩ := except_bind_eq_ok.1 hrun
      exact (ih hrest).trans (setupUserPageMapping_heap hfirst)

theorem unmapLoop_heap {pgDir : Nat} :
    ∀ {n addr : Nat} {vm : VmState κ}, unmapLoop pgDir n addr vm = .ok vm' → vm'.heap = vm.heap := by
  intro n
  induction n with
  | zero =>
      intro addr vm hrun
      rw [← Except.ok.inj hrun]
  | succ n ih =>
      intro addr vm hrun
      rw [unmapLoop] at hrun
      obtain ⟨vm₁, hfirst, hrest⟩ := except_bind_eq_ok.1 hrun
      rw [unmapOneUserPage] at hfirst
      obtain ⟨usage, -, hvm⟩ := except_map_eq_ok.1 hfirst
      rw [ih hrest, ← hvm]

theorem unmapUserPageMapping_heap {pgDir virtAddr size : Nat}
    (hrun : unmapUserPageMapping pgDir virtAddr size vm = .ok vm') : vm'.heap = vm.heap := by
  rw [unmapUserPageMapping] at hrun
  split_ifs at hrun
  · rw [← Except.ok.inj hrun]
  · rw [← Except.ok.inj hrun]
  · exact unmapLoop_heap hrun

/-- When `add_pages_block` does not make a block. -/
theorem addPagesBlock_fails_iff {addr userVirtAddr linearAddr order : Nat} (hvma : findVma mmap addr ≠ none)
    (huser : userVirtAddr ≠ 0) (hlinear : linearAddr ≠ 0) :
    (addPagesBlock H heap mmap addr userVirtAddr linearAddr order).1 = false ↔
      (H.kmalloc heap sizeofPagesBlock).1 = 0 := by
  rw [addPagesBlock, if_neg (by tauto)]
  rcases H.kmalloc heap sizeofPagesBlock with ⟨pb, heap₁⟩
  by_cases hpb : pb = 0 <;> simp [hpb]

theorem poolFull_iff {usage usage' : PagesUsage} {page : Nat} (h : getFreePages usage 0 = (page, usage')) :
    page = 0 ↔ PoolFull usage := by
  rw [PoolFull, ← freeCount_eq_zero]
  rcases getFreePages_one_cases h with ⟨hpage, hcount⟩ | ⟨hpage, hcount⟩
  · exact iff_of_true hpage hcount
  · exact iff_of_false hpage (by omega)

/-- An exception makes a block, unless no page is free or `kmalloc` fails. -/
theorem handleFault_adds (hH : HeapLaws H Holds) {pgDir addr : Nat} (hvma : findVma mm.mmap addr ≠ none)
    (haddr : pageAddr addr ≠ 0) (hrun : handleFault H pgDir addr mm vm = .ok (mm', vm')) :
    mm'.self = mm.self ∧ ∃ n, Adds Holds n mm.mmap vm.heap mm'.mmap vm'.heap ∧
      (n = 0 ↔ PoolFull vm.pagesUsage ∨ (H.kmalloc vm.heap sizeofPagesBlock).1 = 0) := by
  rcases hget : getFreePages vm.pagesUsage 0 with ⟨page, usage⟩
  simp only [handleFault, hget] at hrun
  by_cases hpage : page = 0
  · rw [if_pos hpage] at hrun
    obtain ⟨rfl, rfl⟩ := Prod.mk.inj (Except.ok.inj hrun)
    exact ⟨rfl, 0, Adds.same rfl, iff_of_true rfl (Or.inl ((poolFull_iff hget).1 hpage))⟩
  rw [if_neg hpage] at hrun
  obtain ⟨vm₁, hmap, hrest⟩ := except_map_eq_ok.1 hrun
  have hheap := setupUserPageMapping_heap hmap
  dsimp only at hheap
  rcases hadd : addPagesBlock H vm₁.heap mm.mmap addr (pageAddr addr) page 0 with ⟨added, mmap₁, heap₁⟩
  simp only [hadd, Prod.mk.injEq] at hrest
  obtain ⟨rfl, rfl⟩ := hrest
  have hiff : added = false ↔ (H.kmalloc vm.heap sizeofPagesBlock).1 = 0 := by
    have hfails := @addPagesBlock_fails_iff κ H vm₁.heap mm.mmap addr (pageAddr addr) page 0 hvma haddr hpage
    rwa [hadd, hheap] at hfails
  have hadds := addPagesBlock_adds hH hadd
  rw [hheap] at hadds
  refine ⟨rfl, if added then 1 else 0, hadds, ?_⟩
  rw [← hiff, or_iff_right (fun hfull => hpage ((poolFull_iff hget).2 hfull))]
  cases added <;> simp

/-- `sys_brk` makes no block; the records of those that it deletes stay out. -/
theorem sysBrk_adds (hH : HeapLaws H Holds) {pgDir addr : Nat}
    (hrun : sysBrk H pgDir addr mm vm = .ok (mm', vm')) :
    mm'.self = mm.self ∧ Adds Holds 0 mm.mmap vm.heap mm'.mmap vm'.heap := by
  -- all branches end alike: the heap vma is made, or it gets its new end
  have hout : ∀ {mm₁ : MmStruct} {vm₁ : VmState κ}, brkOut H mm₁ vm₁ = (mm', vm') →
      mm'.self = mm₁.self ∧ Adds Holds 0 mm₁.mmap vm₁.heap mm'.mmap vm'.heap := by
    intro mm₁ vm₁ hcall
    rw [brkOut] at hcall
    cases hfind : findVma mm₁.mmap mm₁.startBrk with
    | none =>
        rcases hsetup : setupVma H vm₁.heap mm₁.mmap mm₁.startBrk mm₁.brk (vmRead ||| vmWrite) noLma with
          ⟨made, mmap₁, heap₁⟩
        simp only [hfind, hsetup, Prod.mk.injEq] at hcall
        obtain ⟨rfl, rfl⟩ := hcall
        exact ⟨rfl, setupVma_adds hH hsetup⟩
    | some vma =>
        simp only [hfind, Prod.mk.injEq] at hcall
        obtain ⟨rfl, rfl⟩ := hcall
        refine ⟨rfl, Adds.same ?_⟩
        exact @vmaRecords_updateVma (fun vma => { vma with vmEnd := mm₁.brk }) (fun _ => rfl) _ _
  rw [sysBrk] at hrun
  by_cases hrefused : addr = 0 ∨ addr < mm.startBrk ∨ maxBrkAddr < addr
  · rw [if_pos hrefused] at hrun
    exact hout (Except.ok.inj hrun)
  rw [if_neg hrefused] at hrun
  by_cases hshrinks : upperPageAddr addr < upperPageAddr mm.brk
  · simp only [if_pos hshrinks] at hrun
    obtain ⟨vm₁, hunmap, hrest⟩ := except_bind_eq_ok.1 hrun
    have hheap : vm₁.heap = vm.heap := unmapUserPageMapping_heap hunmap
    by_cases hfind : findVma mm.mmap mm.startBrk = none
    · rw [if_pos hfind] at hrest
      cases hrest
    rw [if_neg hfind] at hrest
    obtain ⟨hself, hadds⟩ := hout (Except.ok.inj hrest)
    -- the blocks go off the list without being freed
    have hdrop := @vmaRecords_updateVma (dropBlocks (upperPageAddr addr) (upperPageAddr mm.brk))
      (fun _ => rfl) mm.startBrk mm.mmap
    dsimp only at hadds
    rw [hheap] at hadds
    exact ⟨hself, (Adds.same hdrop).trans hadds⟩
  · simp only [if_neg hshrinks] at hrun
    obtain ⟨hself, hadds⟩ := hout (Except.ok.inj hrun)
    exact ⟨hself, hadds⟩

/-! ## `exit_mm` -/

theorem exitVmas_gives (hH : HeapLaws H Holds) {l : List Nat} {mmap : List VmArea} :
    ∀ {vm : VmState κ}, Holds (vmaRecords mmap ++ l) vm.heap → exitVmas H mmap vm = .ok vm' →
      Holds l vm'.heap := by
  induction mmap with
  | nil =>
      intro vm hl hrun
      rwa [← Except.ok.inj hrun]
  | cons vma mmap ih =>
      intro vm hl hrun
      rw [exitVmas] at hrun
      obtain ⟨usage, -, hrest⟩ := except_bind_eq_ok.1 hrun
      have hgive : Holds (vmaRecords mmap ++ l) (H.kfree vm.heap vma.self) := hH.give hl
      exact @ih { vm with pagesUsage := usage, heap := H.kfree vm.heap vma.self } hgive hrest

/-- `exit_mm` frees the `mm_struct` and the vmas, and nothing else. -/
theorem exitMm_gives (hH : HeapLaws H Holds) {pgDir : Nat} {l : List Nat} (hl : Holds (mm.records ++ l) vm.heap)
    (hrun : exitMm H pgDir (some mm) vm = .ok vm') : Holds l vm'.heap := by
  rw [exitMm] at hrun
  obtain ⟨vm₁, hvmas, hrest⟩ := except_bind_eq_ok.1 hrun
  obtain ⟨usage, -, rfl⟩ := except_map_eq_ok.1 hrest
  have hperm : (mm.records ++ l).Perm (vmaRecords mm.mmap ++ mm.self :: l) := List.perm_middle.symm
  exact hH.give (exitVmas_gives hH (hH.perm hperm hl) hvmas)

end Calls

/-! ## Steps of a child -/

section Child

variable {img : KernelImage} {u : UserImage} {s s' : KernelState κ} {l : List Nat} {i regs c addr : Nat}

/-- The records that `exit_mm` will free when the task ends. -/
def ownRecords (t : TaskStruct) : List Nat :=
  if t.live = true then (t.mm.map MmStruct.records).getD [] else []

theorem ownRecords_eq {t : TaskStruct} (hlive : t.live = true) (hmm : t.mm = some mm) :
    ownRecords t = mm.records := by
  rw [ownRecords, if_pos hlive, hmm]
  rfl

theorem ownRecords_of_not_live {t : TaskStruct} (h : t.live = false) : ownRecords t = [] :=
  if_neg (by rw [h]; exact Bool.false_ne_true)

/-- The records of a task after a change to its vmas. -/
theorem Adds.records (hH : HeapLaws H Holds) (h : Adds Holds n mm.mmap heap mm'.mmap heap')
    (hself : mm'.self = mm.self) (hl : Holds (mm.records ++ l) heap) :
    ∃ new, new.length = n ∧ Holds (mm'.records ++ (new ++ l)) heap' := by
  have hperm : (mm.records ++ l).Perm (vmaRecords mm.mmap ++ mm.self :: l) := List.perm_middle.symm
  obtain ⟨new, hlen, hnew⟩ := h (mm.self :: l) (hH.perm hperm hl)
  refine ⟨new, hlen, hH.perm ?_ hnew⟩
  calc vmaRecords mm'.mmap ++ (new ++ mm.self :: l)
      = (vmaRecords mm'.mmap ++ new) ++ mm.self :: l := (List.append_assoc ..).symm
    List.Perm _ (mm.self :: ((vmaRecords mm'.mmap ++ new) ++ l)) := List.perm_middle
    _ = mm'.records ++ (new ++ l) := by
        rw [MmStruct.records, hself, List.append_assoc, List.cons_append]

theorem forkSpace_adds (hH : HeapLaws H Holds) {self c' : Nat} {t : TaskStruct} {parent : MmStruct}
    {tasks : TaskTable} (hmm : t.mm = some parent) (hl : Holds (self :: l) vm.heap)
    (hrun : forkSpace H img regs c self t tasks vm s = .ok (s', some c')) :
    ∃ cm new, (s'.tasks c').mm = some cm ∧ new.length = (parent.mmap.flatMap VmArea.copiedAt).length ∧
      Holds (cm.records ++ (new ++ l)) s'.vm.heap := by
  have hfailed : ∀ {tasks : TaskTable} {vm : VmState κ}, forkFailed regs tasks vm s ≠ (s', some c') := by
    intro tasks vm heq
    have hnone : none = some c' := congrArg Prod.snd heq
    cases hnone
  rcases hcall : getZeroedPages 0 vm.mem vm.pagesUsage with ⟨p, m', usage'⟩
  by_cases hp : p = 0
  · simp only [forkSpace, hcall, if_pos hp] at hrun
    obtain ⟨vm₁, -, heq⟩ := except_map_eq_ok.1 hrun
    exact absurd heq hfailed
  simp only [forkSpace, hcall, if_neg hp, hmm] at hrun
  obtain ⟨fs, hfs, hrest⟩ := except_bind_eq_ok.1 hrun
  by_cases hok : fs.ok = true
  · rw [if_pos hok] at hrest
    obtain ⟨vm₁, hmap, heq⟩ := except_map_eq_ok.1 hrest
    obtain ⟨new, hlen, hnew⟩ := forkVmas_adds hH hfs hok (self :: l) hl
    rw [← setupUserPageMappings_heap hmap] at hnew
    obtain ⟨rfl, hc⟩ := Prod.mk.inj heq
    obtain rfl := Option.some.inj hc
    refine ⟨⟨self, fs.mmap, parent.startBrk, parent.brk⟩, new, ?_, hlen, hH.perm ?_ hnew⟩
    · simp only [Function.update_self]
    calc vmaRecords fs.mmap ++ (new ++ self :: l)
        = (vmaRecords fs.mmap ++ new) ++ self :: l := (List.append_assoc ..).symm
      List.Perm _ (self :: ((vmaRecords fs.mmap ++ new) ++ l)) := List.perm_middle
      _ = self :: (vmaRecords fs.mmap ++ (new ++ l)) := by rw [List.append_assoc]
  · rw [if_neg hok] at hrest
    obtain ⟨vm₁, -, heq⟩ := except_map_eq_ok.1 hrest
    exact absurd heq hfailed

/-- A successful `sys_fork` of a task with the vmas `parent`. -/
theorem sysFork_adds (hH : HeapLaws H Holds) {parent : MmStruct} (hruns : UserRuns s i)
    (hmm : (s.tasks i).mm = some parent) (hl : Holds l s.vm.heap)
    (hrun : sysFork H img i regs s = .ok (s', some c)) :
    ∃ cm new, (s'.tasks c).mm = some cm ∧ new.length = (parent.mmap.flatMap VmArea.copiedAt).length ∧
      Holds (cm.records ++ (new ++ l)) s'.vm.heap := by
  have hsize : sizeofMmStruct < 2 ^ 64 := by decide
  have hfailed : ∀ {tasks : TaskTable} {vm : VmState κ}, forkFailed regs tasks vm s ≠ (s', some c) := by
    intro tasks vm heq
    have hnone : none = some c := congrArg Prod.snd heq
    cases hnone
  rcases sysFork_cases H img regs hruns.1 with ⟨tasks', -, heq⟩ | ⟨k, tasks', m, t, self, heap, -, hkm, heq⟩
  · rw [heq] at hrun
    exact absurd (Except.ok.inj hrun) hfailed
  · have htake := hH.take hl hsize
    rw [hkm] at htake
    rw [heq] at hrun
    by_cases hself : self = 0
    · rw [if_pos hself] at hrun
      exact absurd (Except.ok.inj hrun) hfailed
    rw [if_neg hself] at hrun
    exact forkSpace_adds hH hmm (htake hself) hrun

/-- After a successful `sys_fork` the child is alive and holds its records. -/
theorem sysFork_child (hH : HeapLaws H Holds) {parent : MmStruct} (h : Invariant img u s)
    (ha : Enabled s (.fork i regs)) (hmm : (s.tasks i).mm = some parent) (hl : Holds l s.vm.heap)
    (hrun : sysFork H img i regs s = .ok (s', some c)) :
    Invariant img u s' ∧ ∃ cm new, (s'.tasks c).live = true ∧ (s'.tasks c).mm = some cm ∧
      new.length = (parent.mmap.flatMap VmArea.copiedAt).length ∧
      Holds (ownRecords (s'.tasks c) ++ (new ++ l)) s'.vm.heap := by
  obtain ⟨cm, new, hcm, hlen, hnew⟩ := sysFork_adds hH ha.1 hmm hl hrun
  rcases sysFork_spec (H := H) h ha.1 ha.2 with
    herr | herr | ⟨slot, t, hok, -⟩ | ⟨c', d, parent', cm', t, hok, hmm', hf⟩
  · exact absurd (hrun.symm.trans herr) (except_ok_ne_error _ _)
  · exact absurd (hrun.symm.trans herr) (except_ok_ne_error _ _)
  · have hslot := congrArg Prod.snd (Except.ok.inj (hrun.symm.trans hok))
    cases hslot
  · obtain ⟨rfl, hc⟩ := Prod.mk.inj (Except.ok.inj (hrun.symm.trans hok))
    obtain rfl := Option.some.inj hc
    have hlive : (s'.tasks c).live = true := TaskStruct.live_iff.2 ⟨hf.inUse, by rw [hf.running]; decide⟩
    refine ⟨h.step (StepOf.forked h ha.1 ha.2 hmm' hf), cm, new, hlive, hcm, hlen, ?_⟩
    rwa [ownRecords_eq hlive hcm]

/-- The actions of task `c` that make no block: an exception is not in a vma, or no page is free, or
`kmalloc` fails. -/
def NoBlock (H : KernelHeap κ) (c : Nat) (s : KernelState κ) : Action κ → Prop
  | .exception i addr => i = c → ∀ vma ∈ s.vmaOf c addr,
      PoolFull s.vm.pagesUsage ∨ (H.kmalloc s.vm.heap sizeofPagesBlock).1 = 0
  | _ => True

instance (s : KernelState κ) : (a : Action κ) → Decidable (NoBlock H c s a)
  | .exception _ addr => inferInstanceAs (Decidable (_ → ∀ vma ∈ s.vmaOf c addr, _))
  | .brk _ _ _ => isTrue trivial
  | .userTest _ => isTrue trivial
  | .fork _ _ => isTrue trivial
  | .exit _ => isTrue trivial
  | .userStore _ _ _ => isTrue trivial
  | .kmallocUse _ => isTrue trivial

/-- The child acts, or somebody else does something without calling `kmalloc` or `kfree`. -/
def HeapAlone (H : KernelHeap κ) (img : KernelImage) (u : UserImage) (c : Nat) (s : KernelState κ)
    (a : Action κ) : Prop :=
  a.InUser c ∨ a.task ≠ some c ∧ ∀ s', step H img u s a = some s' → s'.vm.heap = s.vm.heap

theorem exit_gives (hH : HeapLaws H Holds) (h : Invariant img u s) (hlive : (s.tasks c).live = true)
    (hl : Holds (ownRecords (s.tasks c) ++ l) s.vm.heap) (hok : doExit H c s = .ok s') :
    Holds (ownRecords (s'.tasks c) ++ l) s'.vm.heap := by
  obtain ⟨mm, hmm, -⟩ := (h.tasks c).mm hlive
  obtain ⟨t, hexit, -, htask⟩ := exit_step (H := H) h hlive
  obtain rfl := Except.ok.inj (hok.symm.trans hexit)
  have hstopped : (s'.tasks c).live = false := by
    rw [htask]
    simp [TaskStruct.live]
  rw [ownRecords_eq hlive hmm] at hl
  simp only [doExit, hmm] at hok
  obtain ⟨vm', hrun, hs'⟩ := except_map_eq_ok.1 hok
  rw [ownRecords_of_not_live hstopped, ← hs']
  exact exitMm_gives hH hl hrun

theorem exception_adds (hH : HeapLaws H Holds) (h : Invariant img u s) (hruns : UserRuns s c)
    (hl : Holds (ownRecords (s.tasks c) ++ l) s.vm.heap) (hok : doEl0Sync H c addr s = .ok s') :
    ∃ new, Holds (ownRecords (s'.tasks c) ++ (new ++ l)) s'.vm.heap ∧
      (new = [] ↔ NoBlock H c s (.exception c addr)) := by
  obtain ⟨hlive, hdir⟩ := hruns
  obtain ⟨mm, hmm, hp⟩ := (h.tasks c).process hlive hdir
  have hvmaOf : s.vmaOf c addr = findVma mm.mmap addr := by rw [KernelState.vmaOf, hmm, Option.bind_some]
  simp only [doEl0Sync, hmm] at hok
  cases hfind : findVma mm.mmap addr with
  | none =>
      -- the child exits
      rw [hfind, if_pos rfl] at hok
      refine ⟨[], exit_gives hH h hlive hl hok, iff_of_true rfl fun _ vma hvma => ?_⟩
      rw [hvmaOf, hfind] at hvma
      cases hvma
  | some vma =>
      have hvma : findVma mm.mmap addr ≠ none := by
        rw [hfind]
        exact Option.some_ne_none vma
      -- vmas do not start at address 0
      have haddr : pageAddr addr ≠ 0 := by
        obtain ⟨hmem, hcov⟩ := findVma_mem hfind
        have hok := hp.space.layout.vma vma hmem
        have hpos := hok.start_pos
        have hdvd := hok.start_dvd
        rw [VmArea.covers_iff] at hcov
        simp only [pageAddr, pageSize] at hdvd ⊢
        omega
      rw [if_neg hvma] at hok
      obtain ⟨⟨mm', vm'⟩, hrun, rfl⟩ := except_map_eq_ok.1 hok
      obtain ⟨hself, n, hadds, hiff⟩ := handleFault_adds hH hvma haddr hrun
      rw [ownRecords_eq hlive hmm] at hl
      obtain ⟨new, hlen, hnew⟩ := hadds.records hH hself hl
      have htask : (setMm s c (mm', vm')).tasks c = { s.tasks c with mm := some mm' } :=
        Function.update_self ..
      refine ⟨new, ?_, ?_⟩
      · rw [htask, @ownRecords_eq mm' { s.tasks c with mm := some mm' } hlive rfl]
        exact hnew
      · rw [← List.length_eq_zero_iff, hlen, hiff]
        constructor
        · exact fun hno _ _ _ => hno
        · intro hno
          exact hno rfl vma (hvmaOf.trans hfind)

theorem brk_adds (hH : HeapLaws H Holds) (h : Invariant img u s) (hruns : UserRuns s c)
    (hregs : RegsOk s c regs) (haddr : addr < 2 ^ 64) (hl : Holds (ownRecords (s.tasks c) ++ l) s.vm.heap)
    (hok : doBrk H c regs (s.withMem (store s.vm.mem regs 8 addr)) = .ok s') :
    Holds (ownRecords (s'.tasks c) ++ l) s'.vm.heap := by
  obtain ⟨mm, mm', vm₁, vm', hr⟩ := brk_cases h hruns hregs haddr hok
  have hlive := hruns.1
  obtain ⟨hself, hadds⟩ := sysBrk_adds hH hr.run
  rw [ownRecords_eq hlive hr.space, ← hr.heap] at hl
  obtain ⟨new, hlen, hnew⟩ := hadds.records hH hself hl
  obtain rfl := List.length_eq_zero_iff.1 hlen
  have htask : s'.tasks c = { s.tasks c with mm := some mm' } := by
    rw [hr.tasks, Function.update_self]
  rw [htask, @ownRecords_eq mm' { s.tasks c with mm := some mm' } hlive rfl, hr.heap']
  exact hnew

/-- Somebody else leaves the records of task `c` alone. -/
theorem other_adds (hH : HeapLaws H Holds) (h : Invariant img u s) {a : Action κ} (ha : Enabled s a)
    (hother : a.task ≠ some c) (hexec : exec H img u s a = .ok s') (hheap : s'.vm.heap = s.vm.heap)
    (hl : Holds (ownRecords (s.tasks c) ++ l) s.vm.heap) :
    Holds (ownRecords (s'.tasks c) ++ l) s'.vm.heap := by
  obtain ⟨j, hstep, hj⟩ := exec_other h ha hother hexec
  by_cases hc : c = j
  · -- the slot is taken, and the new task would have records
    obtain ⟨hdead, i, regs, rfl, hfork⟩ := hj hc.symm
    rw [ownRecords_of_not_live hdead, List.nil_append] at hl
    obtain ⟨parent, hmm, -⟩ := (h.tasks i).process ha.1.1 ha.1.2
    obtain ⟨-, cm, new, hlive, hcm, -, hnew⟩ := sysFork_child hH h ha hmm hl hfork
    rw [hheap, ownRecords_eq hlive hcm] at hnew
    have hlen := (hH.unique hl hnew).length_eq
    simp only [MmStruct.records, List.length_append, List.length_cons] at hlen
    omega
  · rcases hstep.others c hc with heq | ⟨heq, hdead⟩
    · rwa [heq, hheap]
    · rw [ownRecords_of_not_live hdead] at hl
      rwa [heq, ownRecords_of_not_live rfl, hheap]

/-- One step of a run: how many blocks the child makes. -/
theorem childStep_adds (hH : HeapLaws H Holds) {a : Action κ} (h : Invariant img u s)
    (halone : HeapAlone H img u c s a) (hl : Holds (ownRecords (s.tasks c) ++ l) s.vm.heap)
    (ha : step H img u s a = some s') :
    ∃ new, Holds (ownRecords (s'.tasks c) ++ (new ++ l)) s'.vm.heap ∧ (new = [] ↔ NoBlock H c s a) := by
  obtain ⟨henabled, hexec⟩ := step_eq ha
  rcases halone with hin | ⟨hother, hheap⟩
  · cases a with
    | userTest i => exact hin.elim
    | fork i regs => exact hin.elim
    | brk i regs addr =>
        obtain rfl : i = c := hin
        refine ⟨[], ?_, iff_of_true rfl trivial⟩
        exact brk_adds hH h henabled.1 henabled.2.1 henabled.2.2 hl hexec
    | exception i addr =>
        obtain rfl : i = c := hin
        exact exception_adds hH h henabled.1 hl hexec
    | exit i =>
        obtain rfl : i = c := hin
        exact ⟨[], exit_gives hH h henabled hl hexec, iff_of_true rfl trivial⟩
    | userStore i virtAddr b =>
        obtain rfl : i = c := hin
        cases hexec
        exact ⟨[], hl, iff_of_true rfl trivial⟩
    | kmallocUse heap => exact hin.elim
  · refine ⟨[], other_adds hH h henabled hother hexec (hheap s' ha) hl, iff_of_true rfl ?_⟩
    cases a with
    | exception i addr => exact fun hi => absurd (congrArg some hi) hother
    | _ => trivial

/-! ## A whole life -/

/-- The blocks that a child leaves behind: those that `sys_fork` has copied, and those of its exceptions. -/
theorem childRun_tally (hH : HeapLaws H Holds) {parent : MmStruct} {s₀ : KernelState κ}
    (h : Invariant img u s₀) (ha : Enabled s₀ (.fork i regs)) (hmm : (s₀.tasks i).mm = some parent)
    (hl : Holds [] s₀.vm.heap) (hfork : sysFork H img i regs s₀ = .ok (s, some c)) {as : List (Action κ)}
    (hrun : runFrom (step H img u) s as = some s') (halone : Along (step H img u) (HeapAlone H img u c) s as)
    (hexited : (s'.tasks c).live = false) :
    ∃ left, Holds left s'.vm.heap ∧
      (left = [] ↔ (∀ vma ∈ parent.mmap, vma.copiedAt = []) ∧ Along (step H img u) (NoBlock H c) s as) := by
  obtain ⟨hs, cm, copied, hlive, hcm, hlen, hcopied⟩ := sysFork_child hH h ha hmm hl hfork
  rw [List.append_nil] at hcopied
  obtain ⟨new, ⟨-, hend⟩, hiff⟩ := runFrom_tally
    (I := fun l s => Invariant img u s ∧ Holds (ownRecords (s.tasks c) ++ l) s.vm.heap)
    (fun l t a t' hI hP hstep => by
      obtain ⟨new, hnew, hblock⟩ := childStep_adds hH hI.1 hP hI.2 hstep
      exact ⟨new, ⟨step_invariant hI.1 hstep, hnew⟩, hblock⟩)
    ⟨hs, hcopied⟩ halone hrun
  rw [ownRecords_of_not_live hexited, List.nil_append] at hend
  refine ⟨new ++ copied, hend, ?_⟩
  rw [List.append_eq_nil_iff, hiff, and_comm, ← List.length_eq_zero_iff, hlen, List.length_eq_zero_iff,
    List.flatMap_eq_nil_iff]

end Child

/-! ## The pool before and after -/

section Pool

variable {img : KernelImage} {u : UserImage} {s₀ s s' : KernelState (PoolSys MockSbrk)} {i regs c : Nat}

/-- Nobody else calls `kmalloc` or `kfree` between a successful `sys_fork` and the end of the child: then
the live blocks are those from before the `sys_fork` exactly when no `pages_block` has been made, neither
for the copies nor for an exception. -/
theorem childRun_live {parent : MmStruct} (h : Reachable kmallocFree img u s₀) (hpool : KmallocOk s₀.vm.heap)
    (ha : Enabled s₀ (.fork i regs)) (hmm : (s₀.tasks i).mm = some parent)
    (hfork : sysFork kmallocFree img i regs s₀ = .ok (s, some c)) {as : List (Action (PoolSys MockSbrk))}
    (hrun : runFrom (step kmallocFree img u) s as = some s')
    (halone : Along (step kmallocFree img u) (HeapAlone kmallocFree img u c) s as)
    (hexited : (s'.tasks c).live = false) :
    liveBlocks s'.vm.heap = liveBlocks s₀.vm.heap ↔
      (∀ vma ∈ parent.mmap, vma.copiedAt = []) ∧
        Along (step kmallocFree img u) (NoBlock kmallocFree c) s as := by
  obtain ⟨left, hleft, hiff⟩ := childRun_tally (kmallocFree_laws _) h.invariant ha hmm hpool.holds hfork hrun
    halone hexited
  rw [hleft.ledger.eq_iff, hiff]

end Pool

/-! ## A sample -/

/-- A state after boot: the pool has one record, the `mm_struct` of the only thread. -/
def sampleKernel : KernelState (PoolSys MockSbrk) where
  vm :=
    { mem := fun _ => 0
      pagesUsage := fun _ => false
      heap := (kmallocFree.kmalloc { st := kmallocPool, live := [] } sizeofMmStruct).2 }
  tasks i :=
    if i = 0 then
      { inUse := true
        state := .running
        stack := sampleImage.stack 0
        mm := some { self := memPoolStart + 32 } }
    else {}
  userTask := none

theorem sampleKernel_boot : Boot sampleImage sampleKernel := by
  have htasks : sampleKernel.tasks 0 = { inUse := true
                                         state := .running
                                         stack := sampleImage.stack 0
                                         mm := some { self := memPoolStart + 32 } } := rfl
  have hfree : ∀ i, i ≠ 0 → sampleKernel.tasks i = {} := fun i hi => if_neg hi
  refine ⟨fun _ _ => rfl, rfl, fun i hi => ?_, fun i hi => ?_, fun i hi => ?_, fun i => ?_, fun i hi => ?_⟩
  · have hne : i ≠ 0 := by
      rintro rfl
      exact absurd hi (by decide)
    rw [hfree i hne]
  · by_cases h0 : i = 0
    · rw [h0, htasks] at hi
      cases hi
    · exact hfree i h0
  · by_cases h0 : i = 0
    · rw [h0, htasks]
    · rw [hfree i h0] at hi
      cases hi
  · by_cases h0 : i = 0
    · rw [h0, htasks]
    · rw [hfree i h0]
  · by_cases h0 : i = 0
    · rw [h0, htasks]
      exact ⟨_, rfl, rfl⟩
    · rw [hfree i h0] at hi
      cases hi

theorem sampleKernel_ok : KmallocOk sampleKernel.vm.heap := by
  have hinit : KmallocReached { st := kmallocPool, live := [] } :=
    ⟨_, _, [], kmallocPool_init, trivial, rfl⟩
  exact hinit.ok.kmalloc (by decide)

theorem setupVmas_ok {areas : List Area} :
    ∀ {mmap : List VmArea} {heap : PoolSys MockSbrk}, KmallocOk heap →
      KmallocOk (setupVmas kmallocFree areas mmap heap).2 := by
  induction areas with
  | nil => exact fun h => h
  | cons a areas ih =>
      intro mmap heap h
      have hcall : KmallocOk (kmallocFree.kmalloc heap sizeofVmArea).2 := h.kmalloc (by decide)
      rw [setupVmas]
      rcases hsetup : setupVma kmallocFree heap mmap a.vmStart a.vmEnd a.vmFlags a.lma with ⟨made, mmap₁, heap₁⟩
      have hheap : heap₁ = (kmallocFree.kmalloc heap sizeofVmArea).2 := by
        rcases hkm : kmallocFree.kmalloc heap sizeofVmArea with ⟨self, heap₂⟩
        simp only [setupVma, hkm] at hsetup
        split_ifs at hsetup
        · exact (congrArg (fun r => r.2.2) hsetup).symm
        · exact (congrArg (fun r => r.2.2) hsetup).symm
      exact ih (hheap ▸ hcall)

/-- `user_test` only makes records. -/
theorem userTest_ok {u : UserImage} {i : Nat} {s s' : KernelState (PoolSys MockSbrk)}
    (h : KmallocOk s.vm.heap) (hrun : userTest kmallocFree u i s = .ok s') : KmallocOk s'.vm.heap := by
  rcases hcall : getZeroedPages 0 s.vm.mem s.vm.pagesUsage with ⟨p, m', usage'⟩
  simp only [userTest, hcall] at hrun
  by_cases hp : p = 0
  · rw [if_pos hp] at hrun
    rwa [← Except.ok.inj hrun]
  rw [if_neg hp] at hrun
  by_cases haligned : u.aligned = false
  · rw [if_pos haligned] at hrun
    cases hrun
  rw [if_neg haligned] at hrun
  cases hmm : (s.tasks i).mm with
  | none =>
      rw [hmm] at hrun
      cases hrun
  | some mm =>
      rw [hmm] at hrun
      have hvmas : KmallocOk (setupVmas kmallocFree u.areas mm.mmap s.vm.heap).2 := setupVmas_ok h
      rcases hset : setupVmas kmallocFree u.areas mm.mmap s.vm.heap with ⟨mmap, heap⟩
      rw [hset] at hvmas
      simp only [hset] at hrun
      obtain ⟨vm, hmap, hrest⟩ := except_bind_eq_ok.1 hrun
      have hheap := setupUserPageMappings_heap hmap
      dsimp only at hheap hvmas
      by_cases hframe : userFrame vm.mem p vmaUser = none
      · rw [if_pos hframe] at hrest
        cases hrest
      · rw [if_neg hframe] at hrest
        obtain ⟨m, -, hs'⟩ := except_map_eq_ok.1 hrest
        rw [← hs']
        dsimp only
        rwa [hheap]

/-- A program forks, and the child exits. -/
theorem sampleKernel_life : ∃ (s₀ s s' : KernelState (PoolSys MockSbrk)) (parent : MmStruct),
    runFrom (step kmallocFree sampleImage sampleUser) sampleKernel [.userTest 0] = some s₀ ∧
      KmallocOk s₀.vm.heap ∧ Enabled s₀ (.fork 0 sampleRegs) ∧ (s₀.tasks 0).mm = some parent ∧
      (¬∀ vma ∈ parent.mmap, vma.copiedAt = []) ∧
      sysFork kmallocFree sampleImage 0 sampleRegs s₀ = .ok (s, some 1) ∧
      runFrom (step kmallocFree sampleImage sampleUser) s [.exit 1] = some s' ∧
      Along (step kmallocFree sampleImage sampleUser)
        (HeapAlone kmallocFree sampleImage sampleUser 1) s [.exit 1] ∧
      (s'.tasks 1).live = false := by
  have hend : (forkAfter kmallocFree sampleImage sampleUser sampleKernel [.userTest 0] 0 sampleRegs).map
      (fun r => (r.2.2, (r.2.1.tasks 1).live, (r.1.tasks 0).mm.map fun mm =>
        decide (∀ vma ∈ mm.mmap, vma.copiedAt = []))) = some (some 1, true, some false) := by
    decide +kernel
  obtain ⟨⟨s₀, s, r⟩, hcall, hr⟩ := Option.map_eq_some_iff.1 hend
  simp only [Prod.mk.injEq] at hr
  obtain ⟨rfl, hlive, hparent⟩ := hr
  obtain ⟨parent, hmm, hno⟩ := Option.map_eq_some_iff.1 hparent
  obtain ⟨hrun₀, henabled, hfork⟩ := forkAfter_eq hcall
  obtain ⟨hreach, hs⟩ := forkAfter_invariant sampleKernel_boot hcall
  have hnil : runFrom (step kmallocFree sampleImage sampleUser) s [] = some s := rfl
  obtain ⟨s', hrun, -, hexited⟩ := exit_run hs hnil hlive
  have hok : KmallocOk s₀.vm.heap := by
    obtain ⟨t, hstep, hrest⟩ := runFrom_cons.1 hrun₀
    rw [runFrom_nil, Option.some.injEq] at hrest
    rw [hrest] at hstep
    have hexec : userTest kmallocFree sampleUser 0 sampleKernel = .ok s₀ := (step_eq hstep).2
    exact @userTest_ok sampleUser 0 sampleKernel s₀ sampleKernel_ok hexec
  exact ⟨s₀, s, s', parent, hrun₀, hok, henabled, hmm, of_decide_eq_false hno, hfork, hrun,
    ⟨Or.inl rfl, fun _ _ => trivial⟩, hexited⟩

theorem sampleKernel_live : ∃ (s₀ s s' : KernelState (PoolSys MockSbrk)) (parent : MmStruct),
    runFrom (step kmallocFree sampleImage sampleUser) sampleKernel [.userTest 0] = some s₀ ∧
      sysFork kmallocFree sampleImage 0 sampleRegs s₀ = .ok (s, some 1) ∧
      runFrom (step kmallocFree sampleImage sampleUser) s [.exit 1] = some s' ∧
      (liveBlocks s'.vm.heap = liveBlocks s₀.vm.heap ↔ (∀ vma ∈ parent.mmap, vma.copiedAt = []) ∧
        Along (step kmallocFree sampleImage sampleUser) (NoBlock kmallocFree 1) s [.exit 1]) := by
  obtain ⟨s₀, s, s', parent, hrun₀, hok, henabled, hmm, -, hfork, hrun, halone, hexited⟩ :=
    sampleKernel_life
  exact ⟨s₀, s, s', parent, hrun₀, hfork, hrun, childRun_live ⟨sampleKernel, _, sampleKernel_boot, hrun₀⟩ hok
    henabled hmm hfork hrun halone hexited⟩

/-- The blocks of the child's data and bss are never freed. -/
theorem sampleKernel_leaks : ∃ s₀ s s',
    runFrom (step kmallocFree sampleImage sampleUser) sampleKernel [.userTest 0] = some s₀ ∧
      KmallocOk s₀.vm.heap ∧ sysFork kmallocFree sampleImage 0 sampleRegs s₀ = .ok (s, some 1) ∧
      runFrom (step kmallocFree sampleImage sampleUser) s [.exit 1] = some s' ∧
      (s'.tasks 1).live = false ∧ liveBlocks s'.vm.heap ≠ liveBlocks s₀.vm.heap := by
  obtain ⟨s₀, s, s', parent, hrun₀, hok, henabled, hmm, hcopies, hfork, hrun, halone, hexited⟩ :=
    sampleKernel_life
  have hreach : Reachable kmallocFree sampleImage sampleUser s₀ := ⟨sampleKernel, _, sampleKernel_boot, hrun₀⟩
  obtain ⟨left, hleft, hiff⟩ := childRun_tally (kmallocFree_laws _) hreach.invariant henabled hmm hok.holds
    hfork hrun halone hexited
  refine ⟨s₀, s, s', hrun₀, hok, hfork, hrun, hexited, fun hsame => hcopies ?_⟩
  exact (hiff.1 (hleft.ledger.eq_iff.1 hsame)).1

end Kernel
end ToutOS
