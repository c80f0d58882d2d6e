import ToutOS.Kernel.Copying

/-!
# Requests — what copying an address space asks for

The loops of `sys_fork` over the vmas of the parent ask for pages and for records, and are left with an
error when one of them is refused.  The two kinds come from different pools, so that the lists of both
decide together whether the loops get to their end.

* `kmallocs`, `getPages` — lists of requests, all of which have to be granted.
* `copyRecords`, `copyOrders` — the requests for one vma; `attaches` — the test of `add_pages_block`.
* `forkVmas_asked` — the loops end well exactly when everything is granted.
* `forkVmas_ok` — they never run into a page of the parent that is not mapped.
-/

namespace ToutOS
namespace Kernel

open Base Mm

variable {κ : Type} {H : KernelHeap κ} {vm vm' : VmState κ} {mmap : List VmArea}

/-! ## Requests -/

/-- Calls of `kmalloc` for records of these sizes, none of which fails. -/
def kmallocs (H : KernelHeap κ) : List Nat → κ → Option κ
  | [], heap => some heap
  | size :: rest, heap =>
      let (p, heap) := H.kmalloc heap size
      if p = 0 then none else kmallocs H rest heap

/-- Calls of `get_free_pages` with these orders, none of which fails. -/
def getPages : List Nat → PagesUsage → Option PagesUsage
  | [], usage => some usage
  | order :: rest, usage =>
      let (page, usage) := getFreePages usage order
      if page = 0 then none else getPages rest usage

/-- The user addresses for which `sys_fork` enters blocks in the copy of the vma. -/
def VmArea.copiedAt (vma : VmArea) : List Nat :=
  if vma.shared then []
  else if vma.lma ≠ noLma then [vma.vmStart]
  else vma.pagesBlockList.map PagesBlock.userVirtAddr

/-- The orders of the pages for the copy of the vma. -/
def VmArea.copyOrders (vma : VmArea) : List Nat :=
  if vma.shared then []
  else if vma.lma ≠ noLma then [getOrder (vma.vmEnd - vma.vmStart)]
  else vma.pagesBlockList.map fun _ => 0

/-- The sizes of the records for the copy of the vma. -/
def VmArea.copyRecords (vma : VmArea) : List Nat :=
  sizeofVmArea :: vma.copiedAt.map fun _ => sizeofPagesBlock

/-- `add_pages_block` gets a vma and an address for every block of the copy of `vma`; `seen` has the vmas
that have been copied before, the last one first. -/
def VmArea.attaches (seen : List VmArea) (vma : VmArea) : Prop :=
  ∀ a ∈ vma.copiedAt, a ≠ 0 ∧ findVma (vma :: seen) vma.vmStart ≠ none

instance (seen : List VmArea) (vma : VmArea) : Decidable (vma.attaches seen) :=
  inferInstanceAs (Decidable (∀ a ∈ vma.copiedAt, a ≠ 0 ∧ findVma (vma :: seen) vma.vmStart ≠ none))

/-- It does so for all vmas of a list. -/
def attachAll : List VmArea → List VmArea → Prop
  | _, [] => True
  | seen, vma :: rest => vma.attaches seen ∧ attachAll (vma :: seen) rest

theorem kmallocs_append (l₁ l₂ : List Nat) (heap : κ) :
    kmallocs H (l₁ ++ l₂) heap = (kmallocs H l₁ heap).bind (kmallocs H l₂) := by
  induction l₁ generalizing heap with
  | nil => rfl
  | cons size l₁ ih =>
      simp only [List.cons_append, kmallocs]
      split_ifs
      · rfl
      · exact ih _

theorem getPages_append (l₁ l₂ : List Nat) (usage : PagesUsage) :
    getPages (l₁ ++ l₂) usage = (getPages l₁ usage).bind (getPages l₂) := by
  induction l₁ generalizing usage with
  | nil => rfl
  | cons order l₁ ih =>
      simp only [List.cons_append, getPages]
      split_ifs
      · rfl
      · exact ih _

/-- A part of the loops has asked for these records and pages: it has got all of them, or it has
given up. -/
inductive Asked (H : KernelHeap κ) (attach : Prop) (sizes orders : List Nat) (vm : VmState κ) :
    ForkState κ → Prop
  | granted (vm' : VmState κ) (mmap : List VmArea) (hattach : attach)
      (hheap : kmallocs H sizes vm.heap = some vm'.heap)
      (hpages : getPages orders vm.pagesUsage = some vm'.pagesUsage) :
      Asked H attach sizes orders vm ⟨true, vm', mmap⟩
  | refused (vm' : VmState κ) (mmap : List VmArea)
      (h : ¬attach ∨ kmallocs H sizes vm.heap = none ∨ getPages orders vm.pagesUsage = none) :
      Asked H attach sizes orders vm ⟨false, vm', mmap⟩

section Asked

variable {attach attach' : Prop} {sizes sizes' orders orders' : List Nat} {fs fs' : ForkState κ}

theorem Asked.nil (hattach : attach) (vm : VmState κ) (mmap : List VmArea) :
    Asked H attach [] [] vm ⟨true, vm, mmap⟩ := .granted vm mmap hattach rfl rfl

theorem Asked.congr (h : Asked H attach sizes orders vm fs) (hattach : attach ↔ attach') :
    Asked H attach' sizes orders vm fs := propext hattach ▸ h

/-- What has been refused stays refused when more is asked for. -/
theorem Asked.stop (h : Asked H attach sizes orders vm fs) (hfail : fs.ok = false) :
    Asked H (attach ∧ attach') (sizes ++ sizes') (orders ++ orders') vm fs := by
  cases h with
  | granted => cases hfail
  | refused vm₁ mmap₁ hno =>
      refine .refused vm₁ mmap₁ ?_
      rcases hno with hno | hno | hno
      · exact Or.inl fun h => hno h.1
      · rw [kmallocs_append, hno]
        exact Or.inr (Or.inl rfl)
      · rw [getPages_append, hno]
        exact Or.inr (Or.inr rfl)

/-- One part after the other. -/
theorem Asked.next (h : Asked H attach sizes orders vm fs) (hok : fs.ok = true)
    (h' : Asked H attach' sizes' orders' fs.vm fs') :
    Asked H (attach ∧ attach') (sizes ++ sizes') (orders ++ orders') vm fs' := by
  cases h with
  | refused => cases hok
  | granted vm₁ mmap₁ hattach hheap hpages =>
      have hsizes : kmallocs H (sizes ++ sizes') vm.heap = kmallocs H sizes' vm₁.heap := by
        rw [kmallocs_append, hheap, Option.bind_some]
      have horders : getPages (orders ++ orders') vm.pagesUsage = getPages orders' vm₁.pagesUsage := by
        rw [getPages_append, hpages, Option.bind_some]
      cases h' with
      | granted vm₂ mmap₂ hattach' hheap' hpages' =>
          exact .granted vm₂ mmap₂ ⟨hattach, hattach'⟩ (hsizes.trans hheap') (horders.trans hpages')
      | refused vm₂ mmap₂ hno =>
          refine .refused vm₂ mmap₂ ?_
          rw [hsizes, horders]
          exact hno.imp_left fun hno h => hno h.2

end Asked

/-! ## The parts of the loops -/

/-- `find_vma` finds something in the one list when it does in the other. -/
def SameCover (mmap seen : List VmArea) : Prop := ∀ a, findVma mmap a = none ↔ findVma seen a = none

theorem SameCover.cons {seen : List VmArea} {x y : VmArea} (h : SameCover mmap seen)
    (hstart : x.vmStart = y.vmStart) (hend : x.vmEnd = y.vmEnd) : SameCover (x :: mmap) (y :: seen) := by
  intro a
  have hcov : x.covers a = y.covers a := by rw [VmArea.covers, VmArea.covers, hstart, hend]
  have ha := h a
  simp only [findVma_eq_none] at ha ⊢
  rw [List.forall_mem_cons, List.forall_mem_cons, ha, hcov]

/-- Entering a block does not move a vma. -/
theorem SameCover.append {seen : List VmArea} (h : SameCover mmap seen) (addr : Nat) (pb : PagesBlock) :
    SameCover (updateVma addr (appendBlock pb) mmap) seen := by
  intro a
  rw [← h a, findVma_eq_none, findVma_eq_none]
  have hbare := @map_bare_updateVma addr (appendBlock pb) (fun _ => rfl) mmap
  constructor
  · intro hno x hx
    obtain ⟨y, hy, heq⟩ := bare_mem hbare.symm hx
    rw [← covers_congr heq]
    exact hno y hy
  · intro hno x hx
    obtain ⟨y, hy, heq⟩ := bare_mem hbare hx
    rw [← covers_congr heq]
    exact hno y hy

theorem getPages_one {usage usage' : PagesUsage} {order page : Nat}
    (h : getFreePages usage order = (page, usage')) :
    getPages [order] usage = if page = 0 then none else some usage' := by
  simp only [getPages, h]

theorem setupVma_asked (heap : κ) (mmap : List VmArea) (vmStart vmEnd vmFlags lma : Nat) :
    (∃ heap', setupVma H heap mmap vmStart vmEnd vmFlags lma = (false, mmap, heap') ∧
      kmallocs H [sizeofVmArea] heap = none) ∨
    ∃ heap' self, setupVma H heap mmap vmStart vmEnd vmFlags lma =
        (true, ⟨self, vmStart, vmEnd, vmFlags, lma, []⟩ :: mmap, heap') ∧
      kmallocs H [sizeofVmArea] heap = some heap' := by
  rcases hcall : H.kmalloc heap sizeofVmArea with ⟨self, heap'⟩
  by_cases hself : self = 0
  · refine Or.inl ⟨heap', ?_, ?_⟩
    · simp only [setupVma, hcall, if_pos hself]
    · simp only [kmallocs, hcall, if_pos hself]
  · refine Or.inr ⟨heap', self, ?_, ?_⟩
    · simp only [setupVma, hcall, if_neg hself]
    · simp only [kmallocs, hcall, if_neg hself]

theorem addPagesBlock_asked (heap : κ) (mmap : List VmArea) (addr userVirtAddr : Nat)
    {linearAddr : Nat} (order : Nat) (hlinear : linearAddr ≠ 0) :
    (∃ heap', addPagesBlock H heap mmap addr userVirtAddr linearAddr order = (false, mmap, heap') ∧
      (¬(userVirtAddr ≠ 0 ∧ findVma mmap addr ≠ none) ∨ kmallocs H [sizeofPagesBlock] heap = none)) ∨
    ∃ heap' pb, addPagesBlock H heap mmap addr userVirtAddr linearAddr order =
        (true, updateVma addr (appendBlock pb) mmap, heap') ∧
      (userVirtAddr ≠ 0 ∧ findVma mmap addr ≠ none) ∧ kmallocs H [sizeofPagesBlock] heap = some heap' := by
  by_cases hnull : findVma mmap addr = none ∨ userVirtAddr = 0 ∨ linearAddr = 0
  · refine Or.inl ⟨heap, by rw [addPagesBlock, if_pos hnull], Or.inl fun h => ?_⟩
    rcases hnull with hno | hno | hno
    · exact h.2 hno
    · exact h.1 hno
    · exact hlinear hno
  rcases hcall : H.kmalloc heap sizeofPagesBlock with ⟨self, heap'⟩
  by_cases hself : self = 0
  · refine Or.inl ⟨heap', ?_, Or.inr ?_⟩
    · rw [addPagesBlock, if_neg hnull]
      simp only [hcall, if_pos hself]
    · simp only [kmallocs, hcall, if_pos hself]
  · rw [not_or, not_or] at hnull
    refine Or.inr ⟨heap', ⟨self, userVirtAddr, linearAddr, order⟩, ?_, ⟨hnull.2.1, hnull.1⟩, ?_⟩
    · rw [addPagesBlock, if_neg (by rw [not_or, not_or]; exact hnull)]
      simp only [hcall, if_neg hself]
      rfl
    · simp only [kmallocs, hcall, if_neg hself]

/-- The loop over the blocks of a vma. -/
theorem forkBlocks_asked {vmStart : Nat} {seen : List VmArea} :
    ∀ {pbs : List PagesBlock} {vm : VmState κ} {mmap : List VmArea} {fs : ForkState κ},
      SameCover mmap seen → forkBlocks H vmStart pbs vm mmap = .ok fs →
      Asked H (∀ pb ∈ pbs, pb.userVirtAddr ≠ 0 ∧ findVma seen vmStart ≠ none)
          (pbs.map fun _ => sizeofPagesBlock) (pbs.map fun _ => 0) vm fs ∧
        (fs.ok = true → SameCover fs.mmap seen) := by
  intro pbs
  induction pbs with
  | nil =>
      intro vm mmap fs hsame hrun
      obtain rfl := Except.ok.inj hrun
      exact ⟨Asked.nil (by simp) vm mmap, fun _ => hsame⟩
  | cons pb pbs ih =>
      intro vm mmap fs hsame hrun
      have hsplit : (∀ p ∈ pb :: pbs, p.userVirtAddr ≠ 0 ∧ findVma seen vmStart ≠ none) ↔
          (pb.userVirtAddr ≠ 0 ∧ findVma seen vmStart ≠ none) ∧
            ∀ p ∈ pbs, p.userVirtAddr ≠ 0 ∧ findVma seen vmStart ≠ none := List.forall_mem_cons
      rcases hget : getFreePages vm.pagesUsage 0 with ⟨page, usage⟩
      have hpages := getPages_one hget
      simp only [forkBlocks, hget] at hrun
      by_cases hpage : page = 0
      · rw [if_pos hpage] at hrun hpages
        obtain rfl := Except.ok.inj hrun
        have hfirst : Asked H (pb.userVirtAddr ≠ 0 ∧ findVma seen vmStart ≠ none) [sizeofPagesBlock] [0] vm
            ⟨false, vm, mmap⟩ := .refused vm mmap (Or.inr (Or.inr hpages))
        exact ⟨(hfirst.stop rfl).congr hsplit.symm, fun hok => by cases hok⟩
      rw [if_neg hpage] at hrun hpages
      -- the page is there; the block of it is refused if its vma is not found, or by `kmalloc`
      rcases addPagesBlock_asked (H := H) vm.heap mmap vmStart pb.userVirtAddr 0 hpage with
        ⟨heap', hadd, hno⟩ | ⟨heap', new, hadd, hattach, hheap⟩
      · simp only [hadd, Bool.false_eq_true, if_false] at hrun
        obtain ⟨usage', -, rfl⟩ := except_map_eq_ok.1 hrun
        have hfirst : Asked H (pb.userVirtAddr ≠ 0 ∧ findVma seen vmStart ≠ none) [sizeofPagesBlock] [0] vm
            ⟨false, { vm with pagesUsage := usage', heap := heap' }, mmap⟩ := by
          refine .refused _ _ ?_
          rw [ne_eq, ne_eq, hsame vmStart] at hno
          exact hno.imp_right Or.inl
        exact ⟨(hfirst.stop rfl).congr hsplit.symm, fun hok => by cases hok⟩
      · simp only [hadd, if_true] at hrun
        rw [ne_eq, ne_eq, hsame vmStart] at hattach
        obtain ⟨hrest, hcover⟩ := ih (hsame.append vmStart new) hrun
        have hfirst : Asked H (pb.userVirtAddr ≠ 0 ∧ findVma seen vmStart ≠ none) [sizeofPagesBlock] [0] vm
            ⟨true, { mem := copy vm.mem page pb.linearAddr pageSize, pagesUsage := usage, heap := heap' },
              mmap⟩ := .granted _ _ hattach hheap hpages
        exact ⟨(hfirst.next rfl hrest).congr hsplit.symm, hcover⟩

/-- A vma that is copied as a whole. -/
theorem forkStatic_asked {pgDir : Nat} {x : VmArea} {seen : List VmArea} {fs : ForkState κ}
    (hsame : SameCover mmap seen) (hrun : forkStatic H pgDir x vm mmap = .ok fs) :
    Asked H (x.vmStart ≠ 0 ∧ findVma (x :: seen) x.vmStart ≠ none) [sizeofVmArea, sizeofPagesBlock]
        [getOrder (x.vmEnd - x.vmStart)] vm fs ∧
      (fs.ok = true → SameCover fs.mmap (x :: seen)) := by
  generalize horder : getOrder (x.vmEnd - x.vmStart) = order at hrun ⊢
  rcases hget : getFreePages vm.pagesUsage order with ⟨page, usage⟩
  have hpages := getPages_one hget
  simp only [forkStatic, horder, hget] at hrun
  by_cases hpage : page = 0
  · rw [if_pos hpage] at hrun hpages
    obtain rfl := Except.ok.inj hrun
    exact ⟨.refused _ _ (Or.inr (Or.inr hpages)), fun hok => by cases hok⟩
  rw [if_neg hpage] at hrun hpages
  -- the vma and the block are two calls of `kmalloc`
  have hsizes : ∀ heap, kmallocs H [sizeofVmArea, sizeofPagesBlock] heap =
      (kmallocs H [sizeofVmArea] heap).bind (kmallocs H [sizeofPagesBlock]) := fun heap =>
    kmallocs_append [sizeofVmArea] [sizeofPagesBlock] heap
  rcases setupVma_asked (H := H) vm.heap mmap x.vmStart x.vmEnd x.vmFlags (pa page) with
    ⟨heap₁, hsetup, hno⟩ | ⟨heap₁, self, hsetup, hheap₁⟩
  · simp only [hsetup, Bool.false_eq_true, if_false] at hrun
    obtain ⟨usage', -, rfl⟩ := except_map_eq_ok.1 hrun
    refine ⟨.refused _ _ (Or.inr (Or.inl ?_)), fun hok => by cases hok⟩
    rw [hsizes, hno, Option.bind_none]
  simp only [hsetup, if_true] at hrun
  have hcover : SameCover (⟨self, x.vmStart, x.vmEnd, x.vmFlags, pa page, []⟩ :: mmap) (x :: seen) :=
    hsame.cons rfl rfl
  rcases addPagesBlock_asked (H := H) heap₁ (⟨self, x.vmStart, x.vmEnd, x.vmFlags, pa page, []⟩ :: mmap)
    x.vmStart x.vmStart order hpage with ⟨heap₂, hadd, hno⟩ | ⟨heap₂, pb, hadd, hattach, hheap₂⟩
  · simp only [hadd, Bool.false_eq_true, if_false] at hrun
    obtain ⟨usage', -, rfl⟩ := except_map_eq_ok.1 hrun
    refine ⟨.refused _ _ ?_, fun hok => by cases hok⟩
    rw [ne_eq, ne_eq, hcover x.vmStart] at hno
    refine hno.imp_right fun hnull => Or.inl ?_
    rw [hsizes, hheap₁, Option.bind_some, hnull]
  · simp only [hadd, if_true] at hrun
    obtain ⟨m', -, rfl⟩ := except_map_eq_ok.1 hrun
    rw [ne_eq, ne_eq, hcover x.vmStart] at hattach
    refine ⟨.granted _ _ hattach ?_ hpages, fun _ => hcover.append x.vmStart pb⟩
    rw [hsizes, hheap₁, Option.bind_some, hheap₂]

/-- The body of the loop over the vmas. -/
theorem forkVma_asked {pgDir : Nat} {x : VmArea} {seen : List VmArea} {fs : ForkState κ}
    (hsame : SameCover mmap seen) (hrun : forkVma H pgDir x vm mmap = .ok fs) :
    Asked H (x.attaches seen) x.copyRecords x.copyOrders vm fs ∧
      (fs.ok = true → SameCover fs.mmap (x :: seen)) := by
  rw [forkVma] at hrun
  by_cases hshared : x.shared = true
  · -- only the vma itself
    have hat : x.copiedAt = [] := if_pos hshared
    have horders : x.copyOrders = [] := if_pos hshared
    have hattach : x.attaches seen := by
      rw [VmArea.attaches, hat]
      exact fun a ha => by cases ha
    rw [VmArea.copyRecords, hat, horders]
    rw [if_pos hshared] at hrun
    rcases setupVma_asked (H := H) vm.heap mmap x.vmStart x.vmEnd x.vmFlags x.lma with
      ⟨heap', hsetup, hno⟩ | ⟨heap', self, hsetup, hheap⟩
    · simp only [hsetup] at hrun
      obtain rfl := Except.ok.inj hrun
      exact ⟨.refused _ _ (Or.inr (Or.inl hno)), fun hok => by cases hok⟩
    · simp only [hsetup] at hrun
      obtain rfl := Except.ok.inj hrun
      exact ⟨.granted _ _ hattach hheap rfl, fun _ => hsame.cons rfl rfl⟩
  rw [if_neg hshared] at hrun
  by_cases hlma : x.lma ≠ noLma
  · have hat : x.copiedAt = [x.vmStart] := by rw [VmArea.copiedAt, if_neg hshared, if_pos hlma]
    have horders : x.copyOrders = [getOrder (x.vmEnd - x.vmStart)] := by
      rw [VmArea.copyOrders, if_neg hshared, if_pos hlma]
    rw [if_pos hlma] at hrun
    obtain ⟨hasked, hcover⟩ := forkStatic_asked hsame hrun
    rw [VmArea.copyRecords, hat, horders]
    refine ⟨hasked.congr ?_, hcover⟩
    rw [VmArea.attaches, hat]
    simp
  · have hat : x.copiedAt = x.pagesBlockList.map PagesBlock.userVirtAddr := by
      rw [VmArea.copiedAt, if_neg hshared, if_neg hlma]
    have horders : x.copyOrders = x.pagesBlockList.map fun _ => 0 := by
      rw [VmArea.copyOrders, if_neg hshared, if_neg hlma]
    have hattach : x.attaches seen ↔
        ∀ pb ∈ x.pagesBlockList, pb.userVirtAddr ≠ 0 ∧ findVma (x :: seen) x.vmStart ≠ none := by
      rw [VmArea.attaches, hat]
      simp
    rw [VmArea.copyRecords, hat, horders, List.map_map]
    rw [if_neg hlma] at hrun
    rcases setupVma_asked (H := H) vm.heap mmap x.vmStart x.vmEnd x.vmFlags noLma with
      ⟨heap', hsetup, hno⟩ | ⟨heap', self, hsetup, hheap⟩
    · simp only [hsetup, Bool.false_eq_true, if_false] at hrun
      obtain rfl := Except.ok.inj hrun
      refine ⟨.refused _ _ (Or.inr (Or.inl ?_)), fun hok => by cases hok⟩
      rw [← List.singleton_append, kmallocs_append, hno, Option.bind_none]
    · simp only [hsetup, if_true] at hrun
      have hself : Asked H True [sizeofVmArea] [] vm
          ⟨true, { vm with heap := heap' }, ⟨self, x.vmStart, x.vmEnd, x.vmFlags, noLma, []⟩ :: mmap⟩ :=
        .granted _ _ trivial hheap rfl
      have hcons : SameCover (⟨self, x.vmStart, x.vmEnd, x.vmFlags, noLma, []⟩ :: mmap) (x :: seen) :=
        hsame.cons rfl rfl
      obtain ⟨hrest, hcover⟩ := forkBlocks_asked hcons hrun
      refine ⟨(hself.next rfl hrest).congr ?_, hcover⟩
      rw [true_and, hattach]

/-- The loop over the vmas ends well exactly when everything is granted. -/
theorem forkVmas_asked {pgDir : Nat} :
    ∀ {rest seen : List VmArea} {vm : VmState κ} {mmap : List VmArea} {fs : ForkState κ},
      SameCover mmap seen → forkVmas H pgDir rest vm mmap = .ok fs →
      Asked H (attachAll seen rest) (rest.flatMap VmArea.copyRecords) (rest.flatMap VmArea.copyOrders) vm
        fs := by
  intro rest
  induction rest with
  | nil =>
      intro seen vm mmap fs _ hrun
      obtain rfl := Except.ok.inj hrun
      exact Asked.nil trivial vm mmap
  | cons x rest ih =>
      intro seen vm mmap fs hsame hrun
      rw [forkVmas] at hrun
      obtain ⟨fs₁, hfirst, hrest⟩ := except_bind_eq_ok.1 hrun
      obtain ⟨hasked, hcover⟩ := forkVma_asked hsame hfirst
      rw [List.flatMap_cons, List.flatMap_cons, attachAll]
      by_cases hok : fs₁.ok = true
      · rw [if_pos hok] at hrest
        exact hasked.next hok (ih (hcover hok) hrest)
      · rw [if_neg hok] at hrest
        obtain rfl := Except.ok.inj hrest
        exact hasked.stop (by simpa using hok)

/-! ## The memory of the parent is there -/

section Parent

variable {vm₀ : VmState κ} {pgDir : Nat} {parent : MmStruct} {vmas : List VmArea}
  (hp : SpaceOk vm₀.mem (physical true pgDir) parent)
  (hused : ∀ a ∈ footprint vm₀.mem (physical true pgDir) parent.mmap, ¬FreeFrame vm₀.pagesUsage a)

include hp hused

/-- A vma that is mapped as a whole can be read. -/
theorem copyFromUser_static (hfilled : Filled vm₀ vm mmap) {x : VmArea} (hx : x ∈ parent.mmap)
    (hlma : x.lma ≠ noLma) (dst : Nat) :
    ∃ m', copyFromUser vm.mem pgDir dst x.vmStart (x.vmEnd - x.vmStart) = .ok m' := by
  have hok := hp.layout.vma x hx
  have hdvd := hok.start_dvd
  have hend := hok.end_le
  have hmapped : userRangeMapped vm.mem pgDir x.vmStart (x.vmEnd - x.vmStart) = true := by
    have hstart : pageAddr x.vmStart = x.vmStart := by
      simp only [pageAddr, pageSize] at hdvd ⊢
      omega
    refine List.all_eq_true.2 fun i _ => ?_
    have hpage : pageAddr (x.vmStart + pageSize * i) = x.vmStart + pageSize * i := by
      simp only [pageAddr, pageSize] at hdvd ⊢
      omega
    have hge : x.vmStart ≤ x.vmStart + pageSize * i := Nat.le_add_right _ _
    rw [Bool.or_eq_true, decide_eq_true_eq, hstart]
    generalize x.vmStart + pageSize * i = v at hpage hge ⊢
    by_cases hout : x.vmStart + (x.vmEnd - x.vmStart) ≤ v
    · exact Or.inl hout
    · -- a page inside the vma
      have hcov : x.covers (pageAddr v) = true := by
        rw [hpage, VmArea.covers_iff]
        omega
      have hlook := hp.maps.static x hx hlma v (by omega) hcov
      rw [← (hfilled.keeps hp hused).1 v] at hlook
      exact Or.inr (Option.isSome_iff_exists.2 ⟨_, hlook⟩)
  rw [copyFromUser, if_pos hmapped]
  exact ⟨_, rfl⟩

theorem forkVma_ok (hsep : SharedApart parent.mmap) (hvmas : ∀ x ∈ vmas, x ∈ parent.mmap)
    (hc : Copied vm₀ pgDir vmas vm mmap) {x : VmArea} (hx : x ∈ parent.mmap) :
    ∃ fs, forkVma H pgDir x vm mmap = .ok fs ∧ ForkOk vm₀ pgDir (vmas ++ [x]) fs := by
  refine (forkVma_spec hp hused hsep hvmas hc hx).resolve_left fun herr => ?_
  -- a panic is what `forkVma_spec` leaves open: none of the three kinds of vma gets there
  rw [forkVma] at herr
  by_cases hshared : x.shared = true
  · rw [if_pos hshared] at herr
    cases herr
  rw [if_neg hshared] at herr
  by_cases hlma : x.lma ≠ noLma
  · rw [if_pos hlma] at herr
    rcases hget : getFreePages vm.pagesUsage (getOrder (x.vmEnd - x.vmStart)) with ⟨page, usage⟩
    simp only [forkStatic, hget] at herr
    by_cases hpage : page = 0
    · rw [if_pos hpage] at herr
      cases herr
    rw [if_neg hpage] at herr
    obtain ⟨m', hcopy⟩ := copyFromUser_static hp hused hc.filled hx hlma page
    rw [freePages_undo hget hpage, hcopy] at herr
    simp only [except_map_ok] at herr
    split_ifs at herr
  · rw [if_neg hlma] at herr
    rcases setupVma_cases (H := H) vm.heap mmap x.vmStart x.vmEnd x.vmFlags noLma with
      ⟨heap', hsetup⟩ | ⟨heap', self, hsetup⟩
    · simp only [hsetup, Bool.false_eq_true, if_false] at herr
      cases herr
    · simp only [hsetup, if_true] at herr
      have hc' := hc.push (hp.layout.vma x hx).start_dvd (fun hpriv => hlma hpriv.2) self heap'
      rw [not_not.1 hlma] at hc'
      -- no shared vma of the child covers the start of this one
      have hstart : ∀ w ∈ vmas ++ [x], w.shared = true → w.covers x.vmStart = false := by
        intro w hw hsh
        rcases List.mem_append.1 hw with hw | hw
        · exact hsep w (hvmas w hw) x hx hsh (by simpa using hshared)
        · rw [List.mem_singleton] at hw
          rw [hw] at hsh
          exact absurd hsh hshared
      have hblocks : ∃ fs, forkBlocks H x.vmStart x.pagesBlockList _ _ = .ok fs ∧ _ :=
        forkBlocks_spec x.vmStart hstart hc'
      obtain ⟨fs, hok, -⟩ := hblocks
      rw [hok] at herr
      cases herr

/-- The loop over the vmas of the parent does not run into a page that is not mapped. -/
theorem forkVmas_ok (hsep : SharedApart parent.mmap) :
    ∀ {rest vmas : List VmArea} {vm : VmState κ} {mmap : List VmArea},
      (∀ x ∈ rest, x ∈ parent.mmap) → (∀ x ∈ vmas, x ∈ parent.mmap) → Copied vm₀ pgDir vmas vm mmap →
      ∃ fs, forkVmas H pgDir rest vm mmap = .ok fs := by
  intro rest
  induction rest with
  | nil => exact fun _ _ _ => ⟨_, rfl⟩
  | cons x rest ih =>
      intro vmas vm mmap hrest hvmas hc
      have hx := hrest x (by simp)
      obtain ⟨fs, hrun, -, hcopied⟩ := forkVma_ok (H := H) hp hused hsep hvmas hc hx
      rw [forkVmas, hrun, except_bind_ok]
      by_cases hok : fs.ok = true
      · rw [if_pos hok]
        refine ih (fun z hz => hrest z (by simp [hz])) (fun z hz => ?_) (hcopied hok)
        rcases List.mem_append.1 hz with hz | hz
        · exact hvmas z hz
        · exact List.mem_singleton.1 hz ▸ hx
      · rw [if_neg hok]
        exact ⟨fs, rfl⟩

end Parent

end Kernel
end ToutOS
