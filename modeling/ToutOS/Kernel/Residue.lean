import ToutOS.Kernel.Agree
import ToutOS.Kernel.ForkResults

/-!
# Residue — what is left in a free page

Two states differ in pages of the pool that are not in use.  The same exceptions and calls of
`sys_brk` and `sys_fork` then show the same memory to user programs, as long as no exception is
served with a page that differs: `do_el0_sync` takes its page from `get_free_pages`, which does not
clear it.  Page tables are cleared, and what `sys_fork` maps into a child has been overwritten with
bytes of the parent.

* `Within` — what is reached through a directory lies in a set of pages;
* `handleFault_agree`, `sysBrk_agree`, `forkSpace_agree` — the calls on two memories;
* `Alike` — two states that agree on all pages that a user program can reach;
* `exec_alike`, `residue_unseen` — steps and runs keep states alike.
-/

namespace ToutOS
namespace Kernel

open Base Mm

variable {κ : Type} {H : KernelHeap κ} {img : KernelImage} {u : UserImage} {C : Set Nat} {m m' : Mem}
  {d : Nat} {mm : MmStruct} {vm vm₂ : VmState κ}

/-! ## What is reached through a directory -/

/-- The tables below `d` and the pages that they map are in `C`. -/
structure Within (C : Set Nat) (m : Mem) (d : Nat) : Prop where
  tables : tableFrames m d ⊆ C
  mapped : ∀ v a, lookup true m d v = some a → a ∈ C

theorem Within.mono {C' : Set Nat} (h : Within C m d) (hC : C ⊆ C') : Within C' m d :=
  ⟨h.tables.trans hC, fun v a ha => hC (h.mapped v a ha)⟩

theorem Within.frame (h : Within C m d) (htables : PtWf true m d (tableFrames m d))
    (hsame : SameTables m m' d) : Within C m' d := by
  refine ⟨?_, fun v a ha => h.mapped v a ?_⟩
  · rw [tableFrames_frame htables hsame]
    exact h.tables
  · rwa [lookup_frame htables hsame] at ha

/-- It is enough to look at addresses of user memory. -/
theorem Within.of_window (htables : tableFrames m d ⊆ C)
    (hmapped : ∀ v a, v < 2 ^ 39 → lookup true m d v = some a → a ∈ C) : Within C m d := by
  refine ⟨htables, fun v a ha => hmapped _ a (mod_window_lt v) ?_⟩
  rwa [lookup_mod]

/-! ## Exceptions -/

/-- Page `k` is the first one that is not in use. -/
def FirstFree (usage : PagesUsage) (k : Nat) : Prop :=
  k < maxNumPages ∧ usage k = false ∧ ∀ l < k, usage l = true

theorem scanFreePages_first {usage : PagesUsage} {last : Nat} :
    ∀ {left i : Nat}, scanFreePages usage 1 left i 0 = some last →
      ∀ l, i ≤ l → l < last → usage l = true := by
  intro left
  induction left with
  | zero =>
      intro i h
      cases h
  | succ left ih =>
      intro i h l h₁ h₂
      simp only [scanFreePages, Nat.zero_add, if_true] at h
      split_ifs at h with hfree
      · cases h
        omega
      · rcases Nat.eq_or_lt_of_le h₁ with rfl | hlt
        · simpa using hfree
        · exact ih h l hlt h₂

/-- `get_free_pages` takes the first page. -/
theorem getFreePages_first {usage usage' : PagesUsage} {p : Nat}
    (h : getFreePages usage 0 = (p, usage')) (hp : p ≠ 0) :
    ∃ k, p = pagePoolStart + pageSize * k ∧ FirstFree usage k ∧ usage' = markPages usage k 1 true := by
  obtain ⟨k, hpk, hlt, hfree, husage⟩ := getFreePages_one h hp
  refine ⟨k, hpk, ⟨hlt, hfree, fun l hl => ?_⟩, husage⟩
  rw [getFreePages, findFreePages, numOfOrder_zero, if_neg Nat.one_ne_zero] at h
  cases hscan : scanFreePages usage 1 maxNumPages 0 0 with
  | none =>
      rw [hscan] at h
      exact absurd (congrArg Prod.fst h).symm hp
  | some last =>
      rw [hscan] at h
      have hlast : pagePoolStart + pageSize * last = p := congrArg Prod.fst h
      rw [hpk] at hlast
      have hkl : last = k := by
        simp only [pageSize] at hlast
        omega
      exact scanFreePages_first hscan l (Nat.zero_le l) (by omega)

/-- An exception at an address with a vma.  A page that is mapped stays, and for another one the
memories must agree on the page that is taken. -/
theorem handleFault_agree {addr : Nat} (h : SpaceOk vm.mem d mm)
    (hused : ∀ a ∈ footprint vm.mem d mm.mmap, ¬FreeFrame vm.pagesUsage a)
    (hvma : findVma mm.mmap addr ≠ none) (hC : Within C vm.mem d) (hvm : VmAgree C vm vm₂)
    (hclean : lookup true vm.mem d addr = none → ∀ k, FirstFree vm.pagesUsage k →
      AgreeOn {frame k} vm.mem vm₂.mem) :
    Together (fun r r₂ => r₂.1 = r.1 ∧ ∃ C', C ⊆ C' ∧ VmAgree C' r.2 r₂.2 ∧ Within C' r.2.mem d)
      (handleFault H (linear true d) addr mm vm) (handleFault H (linear true d) addr mm vm₂) := by
  obtain ⟨vma, hfind⟩ := Option.ne_none_iff_exists'.1 hvma
  obtain ⟨hcov, l₁, l₂, hsplit, -, -⟩ := findVma_split hfind
  have hok := h.layout.vma vma (by simp [hsplit])
  have hcovp := VmArea.covers_iff.1 (hok.covers_pageAddr hcov)
  have hwindow : pageAddr addr + pageSize ≤ 2 ^ 39 := by
    have := hok.end_le
    simp only [pageAddr, pageSize] at *
    omega
  rcases hget : getFreePages vm.pagesUsage 0 with ⟨page, usage⟩
  simp only [handleFault, hvm.usage, hget]
  by_cases hpage : page = 0
  · rw [if_pos hpage, if_pos hpage]
    exact .ok ⟨rfl, C, subset_rfl, hvm, hC⟩
  rw [if_neg hpage, if_neg hpage]
  obtain ⟨k, hpagek, hfirst, rfl⟩ := getFreePages_first hget hpage
  have hk := hfirst.1
  rw [show pa page = frame k by rw [hpagek, pa_pagePool hk]]
  have hT : tableFrames vm.mem d ⊆ usedFrames (markPages vm.pagesUsage k 1 true) := fun n hn =>
    (usedFrame_markPages (show k + 1 ≤ maxNumPages by omega)).2
      (Or.inl (tableFrames_used h.holdings hused hn))
  -- the new page joins the others when it is going to be mapped
  obtain ⟨C₁, hCC₁, hagree, hnew⟩ : ∃ C₁, C ⊆ C₁ ∧ AgreeOn C₁ vm.mem vm₂.mem ∧
      (lookup true vm.mem d addr = none → frame k ∈ C₁) := by
    by_cases hnone : lookup true vm.mem d addr = none
    · refine ⟨C ∪ {frame k}, Set.subset_union_left, ?_, fun _ => Or.inr rfl⟩
      rintro n (hn | hn)
      · exact hvm.mem n hn
      · exact hclean hnone k hfirst n hn
    · exact ⟨C, subset_rfl, hvm.mem, fun hno => absurd hno hnone⟩
  have hphys := physOk_frame hk
  have hle : frame k + pageSize ≤ 2 ^ 48 := by
    simp only [frame, pageSize, maxNumPages] at *
    omega
  have hcall := @setupUserPageMapping_agree κ C₁ d (tableFrames vm.mem d)
    { vm with pagesUsage := markPages vm.pagesUsage k 1 true }
    { vm₂ with pagesUsage := markPages vm.pagesUsage k 1 true } (pageAddr addr) (frame k) pageSize false
    (fun _ => ⟨hphys.1, hle⟩) h.holdings.tables hT (hC.tables.trans hCC₁) ⟨rfl, hvm.heap, hagree⟩
  refine hcall.map ?_
  rintro vm' vm₂' hrun - hvm'
  rcases @setupOnePage_spec κ d addr { vm with pagesUsage := markPages vm.pagesUsage k 1 true }
    (tableFrames vm.mem d) k (linear_ne_zero h.holdings) hk hwindow h.holdings.tables hT with
    herr | ⟨vm'', T', hrun', -, hwf, hgrow, hlookup⟩
  · rw [herr] at hrun
    cases hrun
  obtain rfl : vm'' = vm' := Except.ok.inj (hrun'.symm.trans hrun)
  rw [hvm'.heap]
  refine ⟨rfl, _, hCC₁.trans Set.subset_union_left, ⟨hvm'.usage, rfl, hvm'.mem⟩, Within.of_window ?_ ?_⟩
  · exact (tableFrames_subset hwf).trans (tablesGrow_clean hgrow (hC.tables.trans hCC₁))
  · intro v a hv ha
    refine Or.inl ?_
    change lookup true vm''.mem d v = some a at ha
    rw [hlookup v hv] at ha
    split_ifs at ha with hpv
    · rw [Option.some.injEq] at ha
      cases hold : lookup true vm.mem d v with
      | some b =>
          rw [hold, Option.getD_some] at ha
          exact hCC₁ (hC.mapped v a (ha ▸ hold))
      | none =>
          rw [hold, Option.getD_none] at ha
          rw [← ha]
          exact hnew ((lookup_of_pageAddr hpv.symm).trans hold)
    · exact hCC₁ (hC.mapped v a ha)

/-! ## `sys_brk` -/

theorem brkOut_agree (mm : MmStruct) (hvm : VmAgree C vm vm₂) :
    (brkOut H mm vm₂).1 = (brkOut H mm vm).1 ∧ VmAgree C (brkOut H mm vm).2 (brkOut H mm vm₂).2 := by
  rw [brkOut, brkOut]
  cases findVma mm.mmap mm.startBrk with
  | none =>
      simp only [hvm.heap]
      exact ⟨trivial, hvm.usage, rfl, hvm.mem⟩
  | some _ => exact ⟨rfl, hvm⟩

theorem unmapUserPageMapping_agree (hu : Unmappable vm.mem vm.pagesUsage d)
    (hC : tableFrames vm.mem d ⊆ C) (h0 : 0 ∈ C) (hvm : VmAgree C vm vm₂) (virtAddr size : Nat) :
    Together (VmAgree C) (unmapUserPageMapping (linear true d) virtAddr size vm)
      (unmapUserPageMapping (linear true d) virtAddr size vm₂) := by
  rw [unmapUserPageMapping, unmapUserPageMapping]
  split_ifs
  · exact .ok hvm
  · exact .ok hvm
  · exact unmapLoop_agree h0 hu hC hvm

theorem sysBrk_agree (hu : Unmappable vm.mem vm.pagesUsage d) (hC : tableFrames vm.mem d ⊆ C)
    (h0 : 0 ∈ C) (hvm : VmAgree C vm vm₂) (mm : MmStruct) (addr : Nat) :
    Together (fun r r₂ => r₂.1 = r.1 ∧ VmAgree C r.2 r₂.2) (sysBrk H (linear true d) addr mm vm)
      (sysBrk H (linear true d) addr mm vm₂) := by
  rw [sysBrk, sysBrk]
  by_cases hout : addr = 0 ∨ addr < mm.startBrk ∨ maxBrkAddr < addr
  · rw [if_pos hout, if_pos hout]
    exact .ok (brkOut_agree mm hvm)
  rw [if_neg hout, if_neg hout]
  dsimp only
  by_cases hshrink : upperPageAddr addr < upperPageAddr mm.brk
  · rw [if_pos hshrink, if_pos hshrink]
    refine (unmapUserPageMapping_agree hu hC h0 hvm _ _).bind ?_
    rintro vm' vm₂' - - hvm'
    by_cases hheap : findVma mm.mmap mm.startBrk = none
    · rw [if_pos hheap, if_pos hheap]
      exact .error _
    · rw [if_neg hheap, if_neg hheap]
      exact .ok (brkOut_agree _ hvm')
  · rw [if_neg hshrink, if_neg hshrink]
    exact .ok (brkOut_agree _ hvm)

/-- The call maps no page. -/
theorem sysBrk_within {addr : Nat} {r : MmStruct × VmState κ} (h : SpaceOk vm.mem d mm)
    (hzero : ZeroPage vm.mem) (hused : ∀ a ∈ footprint vm.mem d mm.mmap, ¬FreeFrame vm.pagesUsage a)
    (hC : Within C vm.mem d) (hrun : sysBrk H (linear true d) addr mm vm = .ok r) :
    Within C r.2.mem d := by
  rcases sysBrk_cases (H := H) h hzero hused addr with
    ⟨herr, -⟩ | ⟨b, hok, -⟩ | ⟨lo, n, vm₁, hok, hs⟩
  · rw [herr] at hrun
    cases hrun
  · obtain rfl := Except.ok.inj (hok.symm.trans hrun)
    rwa [brkOut_mem]
  · obtain rfl := Except.ok.inj (hok.symm.trans hrun)
    rw [brkOut_mem]
    refine ⟨hs.unmapped.tables_subset.trans hC.tables, fun v a ha => hC.mapped v a ?_⟩
    exact (hs.unmapped.old ha).1

/-! ## `sys_fork` -/

section Fork

variable {vm' vm₁ vm₁₂ : VmState κ} {pgDir : Nat} {parent : MmStruct} {mmap : List VmArea}

/-- The vmas of the copy are mapped into the new directory. -/
theorem childSpace_agree (hp : Layout parent) (hd : NewDir vm vm' d)
    (hc : Copied vm' pgDir parent.mmap vm₁ mmap) (hdC : d ∈ C) (hvm : VmAgree C vm₁ vm₁₂) :
    Together (fun w w₂ => (∃ C', C ⊆ C' ∧ VmAgree C' w w₂ ∧ tableFrames w.mem d ⊆ C') ∧
        PtWf true w.mem d (tableFrames w.mem d) ∧ ∀ n ∈ tableFrames w.mem d, InPool n)
      (setupUserPageMappings (linear true d) mmap vm₁)
      (setupUserPageMappings (linear true d) mmap vm₁₂) := by
  have hnew := hc.newSpace hp 0 hd.pool hd.used
  have hzero : ∀ x, InPage true d x → vm₁.mem x = 0 := fun x hx => hc.filled.empty hd hx
  have hdir : linear true d ≠ 0 := by
    simpa only [linear, if_true] using ne_zero_of_inPool hd.pool.1
  have hpages : Pages {d} := by
    rintro n rfl
    exact hd.pool.2
  have hwf := (ptWf_empty (Set.mem_singleton d) hpages hzero).1
  have hT : ({d} : Set Nat) ⊆ usedFrames vm₁.pagesUsage := by
    rintro n rfl
    exact usedFrame_of_not_freeFrame hnew.dir_pool.1 hnew.dir_pool.2.1 hnew.dir_used
  have hTC : ({d} : Set Nat) ⊆ C := by
    rintro n rfl
    exact hdC
  have hspec := newSpace_spec hnew hzero
  refine (setupUserPageMappings_agree hdir hnew.layout.vma hwf hT hTC hvm).strengthen ?_
  rintro w w₂ hrun - hw
  rcases hspec with herr | ⟨w', T', hrun', -, hspace, hwf', hgrow, -, -⟩
  · rw [herr] at hrun
    cases hrun
  obtain rfl : w' = w := Except.ok.inj (hrun'.symm.trans hrun)
  exact ⟨⟨_, Set.subset_union_left, hw, (tableFrames_subset hwf').trans (tablesGrow_clean hgrow hTC)⟩,
    hspace.holdings.tables, hspace.holdings.tables_pool⟩

/-- `exit_mm` for a child that has not been completed. -/
theorem childGone_agree (hd : NewDir vm vm' d) (hf : Filled vm' vm₁ mmap) (hdC : d ∈ C)
    (hvm : VmAgree C vm₁ vm₁₂) (mm : Option MmStruct) :
    Together (VmAgree C) (exitMm H (linear true d) mm vm₁) (exitMm H (linear true d) mm vm₁₂) := by
  obtain ⟨hholdings, -, -⟩ := hf.holdings hd
  refine exitMm_agree hvm mm (freePageTables_agree hvm.mem hholdings.tables hholdings.tables_pool ?_)
  -- the directory is the only table
  have hpages : Pages {d} := by
    rintro n rfl
    exact hd.pool.2
  have hwf := (ptWf_empty (Set.mem_singleton d) hpages fun x hx => hf.empty hd hx).1
  intro n hn
  obtain rfl : n = d := tableFrames_subset hwf hn
  exact hdC

/-- Two states with the same tasks, whose memories agree on the pages of `C`. -/
structure StateAgree (C : Set Nat) (s s₂ : KernelState κ) : Prop where
  tasks : s₂.tasks = s.tasks
  user : s₂.userTask = s.userTask
  vms : VmAgree C s.vm s₂.vm

/-- Two calls of `sys_fork` have had the same result, and memory agrees on the tables of the child. -/
def ForkTogether (C : Set Nat) (r r₂ : KernelState κ × Option Nat) : Prop :=
  r₂.2 = r.2 ∧ ∃ C', C ⊆ C' ∧ StateAgree C' r.1 r₂.1 ∧
    ∀ c, r.2 = some c → tableFrames r.1.vm.mem (physical true (r.1.tasks c).pgDir) ⊆ C'

variable {s s₂ : KernelState κ} {regs c : Nat}

theorem forkFailed_agree (tasks : TaskTable) (hvm : VmAgree C vm vm₂)
    (huser : s₂.userTask = s.userTask) :
    ForkTogether C (forkFailed regs tasks vm s) (forkFailed regs tasks vm₂ s₂) := by
  refine ⟨rfl, C, subset_rfl, ⟨rfl, huser, hvm.usage, hvm.heap, hvm.mem.store _ _ _⟩, ?_⟩
  intro c hc
  cases hc

theorem forkDone_agree {C' : Set Nat} (tasks : TaskTable) {t : TaskStruct} (hC : C ⊆ C')
    (hvm : VmAgree C' vm vm₂) (huser : s₂.userTask = s.userTask) (hdir : t.pgDir = linear true d)
    (hd : IsPage d) (htables : tableFrames vm.mem d ⊆ C')
    (hwf : PtWf true vm.mem d (tableFrames vm.mem d)) (hpool : ∀ n ∈ tableFrames vm.mem d, InPool n)
    (hstores : ∀ (m : Mem) x, pageOf x ∉ outside →
      store (store m (t.stack + regs % pageSize) 8 0) regs 8 t.pid x = m x) :
    ForkTogether C (forkDone img regs c tasks t vm s) (forkDone img regs c tasks t vm₂ s₂) := by
  refine ⟨rfl, C', hC, ⟨rfl, huser, hvm.usage, hvm.heap, (hvm.mem.store _ _ _).store _ _ _⟩, ?_⟩
  intro c' hc'
  cases hc'
  simp only [forkDone, Function.update_self, hdir]
  rw [physical_linear true hd.2, tableFrames_frame hwf]
  · exact htables
  -- the results are not stored in the tables
  · intro n hn x hx
    refine hstores vm.mem x ?_
    rw [pageOf_of_inPage (hwf.pages n hn) hx]
    exact not_outside (hpool n hn)

/-- The address space of the child. -/
theorem forkSpace_agree {self : Nat} {t : TaskStruct} (tasks : TaskTable) (hmm : t.mm = some parent)
    (hp : ProcessOk u vm.mem t.pgDir parent)
    (hused : ∀ a ∈ footprint vm.mem (physical true t.pgDir) parent.mmap, ¬FreeFrame vm.pagesUsage a)
    (hC : tableFrames vm.mem (physical true t.pgDir) ⊆ C)
    (hpages : ∀ a ∈ C, IsPage a ∧ ¬FreeFrame vm.pagesUsage a) (hvm : VmAgree C vm vm₂)
    (huser : s₂.userTask = s.userTask)
    (hstores : ∀ (m : Mem) x, pageOf x ∉ outside →
      store (store m ((tasks c).stack + regs % pageSize) 8 0) regs 8 (tasks c).pid x = m x) :
    Together (ForkTogether C) (forkSpace H img regs c self t tasks vm s)
      (forkSpace H img regs c self t tasks vm₂ s₂) := by
  rcases getZeroedPages_both vm.mem vm₂.mem vm.pagesUsage with ⟨h, h₂⟩ | ⟨k, hk, hfree, h, h₂⟩
  · -- there is no page for the directory
    simp only [forkSpace, hvm.usage, h, h₂, if_true]
    rw [exitMm_kernel rfl, exitMm_kernel rfl, except_map_ok, except_map_ok]
    exact .ok (forkFailed_agree _ ⟨rfl, by rw [hvm.heap], hvm.mem⟩ huser)
  have hfill := hvm.mem.fill (frame k)
  generalize fill vm.mem (linear true (frame k)) pageSize 0 = m at h hfill
  generalize fill vm₂.mem (linear true (frame k)) pageSize 0 = m₂ at h₂ hfill
  rcases getZeroedPages_cases h vm.heap vm.heap with ⟨hno, -, -⟩ | ⟨d, hpd, hp0, hd⟩
  · rw [linear_frame hk] at hno
    exact absurd hno (pagePool_ne_zero k)
  obtain rfl : frame k = d := linear_inj true (isPage_frame hk).2 hd.pool.2.2 hpd
  have hsame := sameTables_bystander hd.moves hp.space hused
  obtain ⟨hp', hused'⟩ := space_bystander hd.moves hp.space hused
  have hpages' : ∀ a ∈ insert (frame k) C, IsPage a ∧ ¬FreeFrame (markPages vm.pagesUsage k 1 true) a := by
    rintro a (rfl | ha)
    · exact ⟨hd.pool.2, hd.used⟩
    · refine ⟨(hpages a ha).1, fun hno => (hpages a ha).2 ?_⟩
      exact (hd.moves.released a hno).elim id fun hno' => hno'.elim
  have hfirst : VmAgree (insert (frame k) C) (⟨m, markPages vm.pagesUsage k 1 true, vm.heap⟩ : VmState κ)
      ⟨m₂, markPages vm.pagesUsage k 1 true, vm₂.heap⟩ := ⟨rfl, hvm.heap, hfill⟩
  simp only [forkSpace, hvm.usage, h, h₂, if_neg hp0, hmm]
  refine (forkVmas_agree (fun a ha => (hpages' a ha).1) (hC.trans (Set.subset_insert _ _)) (fun x hx => ?_)
    (ptWf_frame hp.space.holdings.tables hsame) hfirst fun a ha => (hpages' a ha).2).bind ?_
  · have := (hp.space.layout.vma x hx).end_le
    omega
  rintro fs fs₂ hrun - hfs
  rcases @forkVmas_spec κ H ⟨_, _, vm.heap⟩ t.pgDir parent hp' hused' hp.vmas.sharedApart parent.mmap
    [] ⟨_, _, vm.heap⟩ [] (fun x hx => hx) (by simp) (copied_nil _ _) with
    herr | ⟨fs', hrun', hfilled, hcopied⟩
  · rw [herr] at hrun
    cases hrun
  obtain rfl : fs' = fs := Except.ok.inj (hrun'.symm.trans hrun)
  rw [hfs.ok, hfs.mmap]
  by_cases hok : fs'.ok = true
  · rw [if_pos hok, if_pos hok]
    refine (childSpace_agree hp.space.layout hd (by simpa using hcopied hok) (Set.mem_insert _ _)
      hfs.vms).map ?_
    rintro w w₂ - - ⟨⟨C', hsub, hw, htables⟩, hwf, hpool⟩
    exact forkDone_agree tasks ((Set.subset_insert _ _).trans hsub) hw huser rfl hd.pool.2 htables hwf hpool
      hstores
  · rw [if_neg hok, if_neg hok]
    refine (childGone_agree hd hfilled (Set.mem_insert _ _) hfs.vms _).map ?_
    rintro w w₂ - - hw
    exact forkFailed_agree _ (hw.mono (Set.subset_insert _ _)) huser

/-- `get_task_slot` does not look at memory. -/
theorem getTaskSlotLoop_agree (img : KernelImage) {m m₂ : Mem} (hm : AgreeOn C m m₂) :
    ∀ (left i : Nat) (tasks : TaskTable), ∃ slot tasks' m' m₂',
      getTaskSlotLoop img left i tasks m = (slot, tasks', m') ∧
        getTaskSlotLoop img left i tasks m₂ = (slot, tasks', m₂') ∧ AgreeOn C m' m₂' := by
  intro left
  induction left with
  | zero =>
      intro i tasks
      exact ⟨none, tasks, m, m₂, rfl, rfl, hm⟩
  | succ left ih =>
      intro i tasks
      rw [getTaskSlotLoop, getTaskSlotLoop]
      split_ifs
      · exact ⟨_, _, _, _, rfl, rfl, hm.store _ _ _⟩
      · exact ih _ _
      · exact ih _ _

/-- The kernel stack of the caller is copied. -/
theorem AgreeOn.copy {m m₂ : Mem} (hm : AgreeOn C m m₂) {dst src n : Nat}
    (hsrc : ∀ k < n, m₂ (src + k) = m (src + k)) :
    AgreeOn C (Base.copy m dst src n) (Base.copy m₂ dst src n) := by
  intro a ha x hx
  simp only [Base.copy]
  split_ifs with hin
  · exact hsrc _ (by omega)
  · exact hm a ha x hx

end Fork

/-! ## States -/

section States

variable {s s' s₂ s₂' : KernelState κ} {i j : Nat}

/-- The pages outside of the pool are in `C`, and so is all that user programs reach. -/
structure Covers (C : Set Nat) (s : KernelState κ) : Prop where
  outside : ∀ a, IsPage a → ¬InPool a → a ∈ C
  within : ∀ i, UserRuns s i → Within C s.vm.mem (physical true (s.tasks i).pgDir)

/-- Two states that cannot be told apart by user programs. -/
structure Alike (img : KernelImage) (u : UserImage) (s s₂ : KernelState κ) : Prop where
  invariant : Invariant img u s
  agree : ∃ C, Covers C s ∧ StateAgree C s s₂

/-- What is reached through a directory is in use, or it is not in the pool. -/
theorem Invariant.within_used (h : Invariant img u s) (hruns : UserRuns s i) :
    Within {a | IsPage a ∧ ¬FreeFrame s.vm.pagesUsage a} s.vm.mem (physical true (s.tasks i).pgDir) := by
  obtain ⟨mm, hmm, hp⟩ := (h.tasks i).process hruns.1 hruns.2
  have hused := h.used hruns.1 hruns.2 hmm
  refine ⟨fun n hn => ⟨hp.space.holdings.tables.pages n hn, hused n (Or.inl hn)⟩, fun v a ha => ?_⟩
  refine ⟨isPage_of_lookup ha, fun hfree => ?_⟩
  exact hused a (Or.inr (Or.inr ⟨FreeFrame.inPool hfree, v, ha⟩)) hfree

/-- Pages that are free can be left out. -/
theorem Covers.used (hc : Covers C s) (h : Invariant img u s) :
    Covers {a | a ∈ C ∧ IsPage a ∧ ¬FreeFrame s.vm.pagesUsage a} s := by
  refine ⟨fun a hpage hpool => ⟨hc.outside a hpage hpool, hpage, fun hfree => ?_⟩, fun i hruns => ?_⟩
  · exact hpool (FreeFrame.inPool hfree)
  · have hin := hc.within i hruns
    have hused := h.within_used hruns
    exact ⟨fun n hn => ⟨hin.tables hn, hused.tables hn⟩, fun v a ha => ⟨hin.mapped v a ha,
      hused.mapped v a ha⟩⟩

/-- The other tasks reach what they have reached before. -/
theorem Covers.step {C' : Set Nat} (hc : Covers C s) (h : Invariant img u s)
    (hs : StepOf img u j s s') (hC : C ⊆ C')
    (hj : UserRuns s' j → Within C' s'.vm.mem (physical true (s'.tasks j).pgDir)) : Covers C' s' := by
  refine ⟨fun a hpage hpool => hC (hc.outside a hpage hpool), fun k hruns => ?_⟩
  by_cases hk : k = j
  · subst hk
    exact hj hruns
  · rcases hs.others k hk with heq | ⟨heq, -⟩
    · rw [UserRuns, heq] at hruns
      obtain ⟨mm, -, hp⟩ := (h.tasks k).process hruns.1 hruns.2
      rw [heq]
      exact ((hc.within k hruns).frame hp.space.holdings.tables (hs.tables h hk hruns.1 hruns.2)).mono hC
    · have := hruns.1
      rw [heq] at this
      cases this

/-- The second state is in order when the first one is. -/
theorem StateAgree.invariant (ha : StateAgree C s s₂) (hc : Covers C s) (h : Invariant img u s) :
    Invariant img u s₂ := by
  have hframe : ∀ i, TaskOk img u i s₂.vm.mem (s.tasks i) ∧
      taskFootprint s₂.vm.mem (s.tasks i) = taskFootprint s.vm.mem (s.tasks i) := fun i =>
    (h.tasks i).frame fun hlive hdir n hn => ha.vms.mem n ((hc.within i ⟨hlive, hdir⟩).tables hn)
  refine ⟨h.zero.frame fun x hx => ?_, fun i => ?_, ⟨?_, ?_⟩, fun i => ?_⟩
  · exact ha.vms.mem 0 (hc.outside 0 ⟨Nat.dvd_zero _, by decide⟩ not_inPool_zero) x hx
  · rw [ha.tasks]
    exact (hframe i).1
  · intro i k a hne hi hk
    rw [ha.tasks, (hframe _).2] at hi hk
    exact h.owned.apart i k a hne hi hk
  · intro i a hi hfree
    rw [ha.tasks, (hframe _).2] at hi
    refine h.owned.held i a hi ?_
    rw [VmState.world, ha.vms.usage] at hfree
    exact hfree
  · rw [ha.tasks, ha.user]
    exact h.pool i

/-! ### Exceptions -/

theorem doExit_alike (h : Alike img u s s₂) (hruns : UserRuns s i) :
    Together (Alike img u) (doExit H i s) (doExit H i s₂) := by
  have hinv := h.invariant
  obtain ⟨C, hc, ha⟩ := h.agree
  obtain ⟨mm, hmm, hp⟩ := (hinv.tasks i).process hruns.1 hruns.2
  have hfree : ∀ usage, freePageTables s₂.vm.mem (s.tasks i).pgDir usage =
      freePageTables s.vm.mem (s.tasks i).pgDir usage := by
    have hsame := freePageTables_agree ha.vms.mem hp.space.holdings.tables hp.space.holdings.tables_pool
      (hc.within i hruns).tables
    rwa [linear_pgDir hp.dir_lt] at hsame
  obtain ⟨s', hexit, hstep, hstopped⟩ := exit_step (H := H) hinv hruns.1
  refine Together.strengthen (R := StateAgree C) ?_ ?_
  · rw [doExit, doExit, ha.tasks]
    refine (exitMm_agree ha.vms (s.tasks i).mm hfree).map ?_
    rintro vm' vm₂' - - hvm'
    exact ⟨rfl, ha.user, hvm'⟩
  · rintro t t₂ hrun - hagree
    obtain rfl : s' = t := Except.ok.inj (hexit.symm.trans hrun)
    refine ⟨hinv.step hstep, C, hc.step hinv hstep subset_rfl fun hno => ?_, hagree⟩
    -- the task is not alive any more
    have := hno.1
    rw [hstopped, TaskStruct.live] at this
    simp at this

/-- When the page is not mapped, the one that is going to be taken has the same contents. -/
def CleanFault (i addr : Nat) (s s₂ : KernelState κ) : Prop :=
  s.vmaOf i addr ≠ none → userFrame s.vm.mem (s.tasks i).pgDir addr = none →
    ∀ k, FirstFree s.vm.pagesUsage k → ∀ x, InPage true (frame k) x → s₂.vm.mem x = s.vm.mem x

theorem setMm_pgDir (s : KernelState κ) (i : Nat) (r : MmStruct × VmState κ) :
    ((setMm s i r).tasks i).pgDir = (s.tasks i).pgDir := by
  rw [setMm]
  simp only [Function.update_self]

theorem exception_alike {addr : Nat} (h : Alike img u s s₂) (hruns : UserRuns s i)
    (hclean : CleanFault i addr s s₂) :
    Together (Alike img u) (doEl0Sync H i addr s) (doEl0Sync H i addr s₂) := by
  have hinv := h.invariant
  obtain ⟨C, hc, ha⟩ := h.agree
  obtain ⟨mm, hmm, hp⟩ := (hinv.tasks i).process hruns.1 hruns.2
  have hsteps := exception_step (H := H) hinv hruns addr
  have hrun : ∀ w : KernelState κ, w.tasks = s.tasks → doEl0Sync H i addr w =
      if findVma mm.mmap addr = none then doExit H i w
      else (handleFault H (s.tasks i).pgDir addr mm w.vm).map (setMm w i) := by
    intro w hw
    simp only [doEl0Sync, hw, hmm]
  rw [hrun s rfl] at hsteps
  rw [hrun s rfl, hrun s₂ ha.tasks]
  by_cases hvma : findVma mm.mmap addr = none
  · rw [if_pos hvma, if_pos hvma]
    exact doExit_alike h hruns
  rw [if_neg hvma] at hsteps
  rw [if_neg hvma, if_neg hvma]
  have hvmaOf : s.vmaOf i addr ≠ none := by
    rwa [KernelState.vmaOf, hmm, Option.bind_some]
  have hcall := handleFault_agree (H := H) hp.space (hinv.used hruns.1 hruns.2 hmm) hvma
    (hc.within i hruns) ha.vms fun hnone k hk n hn x hx =>
      hclean hvmaOf hnone k hk x (Set.mem_singleton_iff.1 hn ▸ hx)
  rw [linear_pgDir hp.dir_lt] at hcall
  refine hcall.map ?_
  rintro ⟨mm', vm'⟩ ⟨mm₂', vm₂'⟩ hok - ⟨hmm', C', hsub, hvm', hwithin⟩
  rw [hok, except_map_ok] at hsteps
  have hstep := hsteps.stepOf
  dsimp only at hmm' hvm' hwithin
  subst hmm'
  refine ⟨hinv.step hstep, C', hc.step hinv hstep hsub fun _ => ?_, ?_, ha.user, hvm'⟩
  · rw [setMm_pgDir]
    exact hwithin
  · simp only [setMm, ha.tasks]

/-! ### `sys_brk` -/

/-- Memory outside of the pool may be written. -/
theorem Covers.withMem (hc : Covers C s) (h : Invariant img u s)
    (hsame : ∀ x, pageOf x ∉ Kernel.outside → m' x = s.vm.mem x) : Covers C (s.withMem m') := by
  refine ⟨hc.outside, fun i hruns => ?_⟩
  obtain ⟨mm, -, hp⟩ := (h.tasks i).process hruns.1 hruns.2
  exact (hc.within i hruns).frame hp.space.holdings.tables (sameTables_outside hp.space hsame)

/-- The result of a call is stored. -/
theorem Alike.storeRegs {regs : Nat} (h : Alike img u s s₂) (hlive : (s.tasks i).live = true)
    (hregs : RegsOk s i regs) (v : Nat) :
    Alike img u (s.withMem (store s.vm.mem regs 8 v)) (s₂.withMem (store s₂.vm.mem regs 8 v)) := by
  obtain ⟨C, hc, ha⟩ := h.agree
  refine ⟨h.invariant.step (StepOf.storeRegs h.invariant i v hlive hregs), C, hc.withMem h.invariant ?_,
    ha.tasks, ha.user, ha.vms.usage, ha.vms.heap, ha.vms.mem.store _ _ _⟩
  exact fun x hx => store_same fun hin => hx (h.invariant.regs_outside hlive hregs hin.1 hin.2)

theorem brk_alike {regs addr : Nat} (h : Alike img u s s₂) (hruns : UserRuns s i)
    (hregs : RegsOk s i regs) (haddr : addr < 2 ^ 64) :
    Together (Alike img u) (doBrk H i regs (s.withMem (store s.vm.mem regs 8 addr)))
      (doBrk H i regs (s₂.withMem (store s₂.vm.mem regs 8 addr))) := by
  have hload : ∀ m : Mem, load (store m regs 8 addr) regs 8 = addr := fun m =>
    load_store_same (by simpa using haddr)
  have h₁ := h.storeRegs hruns.1 hregs addr
  have hruns₁ : UserRuns (s.withMem (store s.vm.mem regs 8 addr)) i := hruns
  have hregs₁ : RegsOk (s.withMem (store s.vm.mem regs 8 addr)) i regs := hregs
  have hload₁ := hload s.vm.mem
  have hload₂ := hload s₂.vm.mem
  rw [← show (s.withMem (store s.vm.mem regs 8 addr)).vm.mem = store s.vm.mem regs 8 addr from rfl]
    at hload₁
  rw [← show (s₂.withMem (store s₂.vm.mem regs 8 addr)).vm.mem = store s₂.vm.mem regs 8 addr from rfl]
    at hload₂
  generalize s.withMem (store s.vm.mem regs 8 addr) = t at h₁ hruns₁ hregs₁ hload₁ ⊢
  generalize s₂.withMem (store s₂.vm.mem regs 8 addr) = t₂ at h₁ hload₂ ⊢
  have hinv := h₁.invariant
  obtain ⟨C, hc, ha⟩ := h₁.agree
  obtain ⟨mm, hmm, hp⟩ := (hinv.tasks i).process hruns₁.1 hruns₁.2
  have hused := hinv.used hruns₁.1 hruns₁.2 hmm
  simp only [doBrk, ha.tasks, hmm, hload₁, hload₂]
  have h0 : 0 ∈ C := hc.outside 0 ⟨Nat.dvd_zero _, by decide⟩ not_inPool_zero
  have hcall := sysBrk_agree (H := H) (unmappable_of_spaceOk hp.space hinv.zero hused)
    (hc.within i hruns₁).tables h0 ha.vms mm addr
  have hspec := sysBrk_spec (H := H) hp.space hinv.zero hused addr
  have hwithin := fun r => @sysBrk_within κ H C _ mm t.vm addr r hp.space hinv.zero hused
    (hc.within i hruns₁)
  rw [linear_pgDir hp.dir_lt] at hcall hspec hwithin
  refine hcall.map ?_
  rintro ⟨mm', vm'⟩ ⟨mm₂', vm₂'⟩ hok - ⟨hmm', hvm'⟩
  dsimp only at hmm' hvm'
  subst hmm'
  rw [hok] at hspec
  obtain ⟨mm₁, vm₁, hpair, hs⟩ := hspec.resolve_left fun hno => by cases hno.1
  cases hpair
  have hstep := StepOf.space hinv hruns₁.1 hruns₁.2 hmm hs
  -- the states before the result is stored
  have hmid : Alike img u (setMm t i (mm₂', vm')) (setMm t₂ i (mm₂', vm₂')) := by
    refine ⟨hinv.step hstep, C, hc.step hinv hstep subset_rfl fun _ => ?_, ?_, ha.user, hvm'⟩
    · rw [setMm_pgDir]
      exact hwithin _ hok
    · simp only [setMm, ha.tasks]
  have htask : (setMm t i (mm₂', vm')).tasks i = { t.tasks i with mm := some mm₂' } :=
    Function.update_self ..
  refine hmid.storeRegs (i := i) ?_ ?_ mm₂'.brk
  · rw [htask]
    exact hruns₁.1
  · rw [RegsOk, htask]
    exact hregs₁

/-! ### `sys_fork` -/

/-- The byte that task `i` sees at address `v`. -/
def userContents (s : KernelState κ) (i v : Nat) : Option UInt8 :=
  (userFrame s.vm.mem (s.tasks i).pgDir v).map fun a => s.vm.mem (va a + v % pageSize)

theorem userContents_eq {v a : Nat} (ha : userFrame s.vm.mem (s.tasks i).pgDir v = some a) :
    userContents s i v = some (s.vm.mem (userByteAddr s.vm.mem (s.tasks i).pgDir v)) := by
  rw [userContents, ha, Option.map_some, userByteAddr, ha, Option.getD_some]

theorem StateAgree.userRuns (ha : StateAgree C s s₂) : UserRuns s₂ i ↔ UserRuns s i := by
  rw [UserRuns, UserRuns, ha.tasks]

theorem StateAgree.regsOk {regs : Nat} (ha : StateAgree C s s₂) : RegsOk s₂ i regs ↔ RegsOk s i regs := by
  rw [RegsOk, RegsOk, ha.tasks]

/-- A task whose tables are in `C` has the same page table. -/
theorem StateAgree.userFrame (ha : StateAgree C s s₂) (h : Invariant img u s) (hruns : UserRuns s i)
    (htables : tableFrames s.vm.mem (physical true (s.tasks i).pgDir) ⊆ C) (v : Nat) :
    Kernel.userFrame s₂.vm.mem (s₂.tasks i).pgDir v = Kernel.userFrame s.vm.mem (s.tasks i).pgDir v := by
  obtain ⟨mm, -, hp⟩ := (h.tasks i).process hruns.1 hruns.2
  rw [ha.tasks]
  exact lookup_frame hp.space.holdings.tables (fun n hn => ha.vms.mem n (htables hn)) v

theorem StateAgree.userContents (ha : StateAgree C s s₂) (h : Invariant img u s) (hruns : UserRuns s i)
    (hw : Within C s.vm.mem (physical true (s.tasks i).pgDir)) (v : Nat) :
    Kernel.userContents s₂ i v = Kernel.userContents s i v := by
  have hframe := ha.userFrame h hruns hw.tables v
  cases hv : Kernel.userFrame s.vm.mem (s.tasks i).pgDir v with
  | none => rw [Kernel.userContents, Kernel.userContents, hframe, hv, Option.map_none, Option.map_none]
  | some a =>
      have hin := userByteAddr_inPage hv
      rw [userByteAddr, hv, Option.getD_some] at hin
      rw [Kernel.userContents, Kernel.userContents, hframe, hv, Option.map_some, Option.map_some,
        ha.vms.mem a (hw.mapped v a hv) _ hin]

/-- The pages that an address lies in. -/
theorem inPage_pageOf {x : Nat} (hx : x < 2 ^ 64) : IsPage (pageOf x) ∧ InPage true (pageOf x) x := by
  simp only [IsPage, InPage, linear, if_true, pageOf, pa, va, sub64, add64, pageAddr, pageSize, pageOffset]
  omega

/-- Memory outside of the pool is the same. -/
theorem Covers.stack (hc : Covers C s) {m m₂ : Mem} (hm : AgreeOn C m m₂) (hi : i < maxNumProcesses)
    {x : Nat} (hx : InStack img i x) : m₂ x = m x := by
  have hle := img.stacks_le
  have hlt : x < 2 ^ 64 := by
    simp only [InStack, KernelImage.stack, va, add64, pageOffset, pageSize, maxNumProcesses] at *
    omega
  obtain ⟨hpage, hin⟩ := inPage_pageOf hlt
  exact hm _ (hc.outside _ hpage (img.stack_outside hi hx.1 hx.2).1) x hin

/-- The results of `sys_fork` are stored outside of the pool. -/
theorem Invariant.forkStores (h : Invariant img u s) {regs c : Nat} (hlive : (s.tasks i).live = true)
    (hregs : RegsOk s i regs) (hc : c < maxNumProcesses) (v w : Nat) (m : Mem) {x : Nat}
    (hx : pageOf x ∉ outside) :
    store (store m (img.stack c + regs % pageSize) 8 v) regs 8 w x = m x := by
  have hdvd := img_stack_dvd img i
  have hstack := ((h.tasks i).stack (TaskStruct.live_iff.1 hlive).1).1
  have hchild : ¬(img.stack c + regs % pageSize ≤ x ∧ x < img.stack c + regs % pageSize + 8) := by
    rintro ⟨h₁, h₂⟩
    refine hx (img.stack_outside hc (by omega) ?_)
    obtain ⟨hge, hle⟩ := hregs
    rw [hstack] at hge hle
    simp only [sizeofPtRegs, pageSize] at *
    omega
  rw [store_same fun hin => hx (h.regs_outside hlive hregs hin.1 hin.2), store_same hchild]

/-- The call has the same result on both states. -/
theorem sysFork_agree {regs : Nat} (h : Invariant img u s) (hc : Covers C s) (ha : StateAgree C s s₂)
    (hpages : ∀ a ∈ C, IsPage a ∧ ¬FreeFrame s.vm.pagesUsage a) (hruns : UserRuns s i)
    (hregs : RegsOk s i regs) :
    Together (ForkTogether C) (sysFork H img i regs s) (sysFork H img i regs s₂) := by
  obtain ⟨hlive, hdir⟩ := hruns
  obtain ⟨parent, hmm, -⟩ := (h.tasks i).process hlive hdir
  obtain ⟨hi_stack, hi⟩ := (h.tasks i).stack (TaskStruct.live_iff.1 hlive).1
  obtain ⟨slot, tasks', m', m₂', hcall, hcall₂, hm'⟩ :=
    getTaskSlotLoop_agree img ha.vms.mem maxNumProcesses 0 s.tasks
  have hslot : SlotCall img s.tasks s.vm.mem slot tasks' m' := getTaskSlot_call hcall
  obtain ⟨hparent, hti⟩ := hslot.not_live hlive
  rcases hkm : H.kmalloc s.vm.heap sizeofMmStruct with ⟨self, heap⟩
  simp only [sysFork, getTaskSlot, ha.tasks, hcall, hcall₂, ha.vms.heap, hkm]
  cases slot with
  | none => exact .ok (forkFailed_agree tasks' ⟨ha.vms.usage, rfl, hm'⟩ ha.user)
  | some c =>
      obtain ⟨hvis, hfree, htaken, hm'_eq⟩ := hslot.found c rfl
      have hcmax : c < maxNumProcesses := by
        have := hvis.2.1
        omega
      have hstack : (tasks' c).stack = img.stack c := by rw [htaken, takenSlot]
      dsimp only
      rw [hti, hstack]
      -- the stack of the child is a copy of that of the parent
      have hm : AgreeOn C (store (copy m' (img.stack c) (s.tasks i).stack pageSize) (img.stack c) 8
          (img.task c)) (store (copy m₂' (img.stack c) (s.tasks i).stack pageSize) (img.stack c) 8
          (img.task c)) := by
        refine (hm'.copy fun k hk => ?_).store _ _ _
        rw [hi_stack]
        exact hc.stack hm' hi (show InStack img i _ from ⟨by omega, by omega⟩)
      have hmem : ∀ x, ¬InStack img c x → store (copy m' (img.stack c) (s.tasks i).stack pageSize)
          (img.stack c) 8 (img.task c) x = s.vm.mem x := fun x hx => by
        rw [hm'_eq]
        exact copyStack_same hx
      generalize store (copy m' (img.stack c) (s.tasks i).stack pageSize) (img.stack c) 8 (img.task c) = m
        at hm hmem ⊢
      generalize store (copy m₂' (img.stack c) (s.tasks i).stack pageSize) (img.stack c) 8 (img.task c) = m₂
        at hm ⊢
      have hvm : VmAgree C (⟨m, s.vm.pagesUsage, heap⟩ : VmState κ) ⟨m₂, s₂.vm.pagesUsage, heap⟩ :=
        ⟨ha.vms.usage, rfl, hm⟩
      by_cases hself : self = 0
      · rw [if_pos hself, if_pos hself]
        exact .ok (forkFailed_agree _ hvm ha.user)
      rw [if_neg hself, if_neg hself]
      obtain ⟨hp, hused⟩ := h.process_offStack hlive hdir hmm hcmax hmem
      obtain ⟨mm, -, hp₀⟩ := (h.tasks i).process hlive hdir
      have hsame : SameTables s.vm.mem m (physical true (s.tasks i).pgDir) :=
        sameTables_outside hp₀.space fun x hx => hmem x fun hin =>
          hx (img.stack_outside hcmax hin.1 hin.2)
      refine forkSpace_agree _ hmm hp hused ?_ hpages hvm ha.user fun m₀ x hx => ?_
      · rw [tableFrames_frame hp₀.space.holdings.tables hsame]
        exact (hc.within i ⟨hlive, hdir⟩).tables
      · simp only [Function.update_self]
        exact h.forkStores hlive hregs hcmax _ _ m₀ hx

/-- What is mapped in a child is a copy of what its parent sees, and the parents see the same. -/
theorem forkedPages_agree {regs c d d₂ : Nat} {parent parent₂ cm cm₂ : MmStruct} {C' : Set Nat}
    (h : Invariant img u s) (hc : Covers C s) (ha : StateAgree C s s₂) (hruns : UserRuns s i)
    (hregs : RegsOk s i regs) (hmm : (s.tasks i).mm = some parent)
    (hmm₂ : (s₂.tasks i).mm = some parent₂) (hf : Forked img i regs c d parent cm s s')
    (hf₂ : Forked img i regs c d₂ parent₂ cm₂ s₂ s₂') (h' : Invariant img u s')
    (ha' : StateAgree C' s' s₂') (hruns' : UserRuns s' c)
    (htables : tableFrames s'.vm.mem (physical true (s'.tasks c).pgDir) ⊆ C') {v b x : Nat}
    (hb : userFrame s'.vm.mem (s'.tasks c).pgDir v = some b) (hx : InPage true b x) :
    s₂'.vm.mem x = s'.vm.mem x := by
  have hinv₂ := ha.invariant hc h
  have hruns₂ := ha.userRuns.2 hruns
  have hregs₂ := ha.regsOk.2 hregs
  have hframe := ha'.userFrame h' hruns' htables
  -- the address in the page of `v` at which the child sees `x`
  obtain ⟨w, hw, hwb, hwx⟩ : ∃ w, w < 2 ^ 39 ∧ userFrame s'.vm.mem (s'.tasks c).pgDir w = some b ∧
      va b + w % pageSize = x := by
    refine ⟨pageAddr (v % 2 ^ 39) + (x - va b), ?_, ?_, ?_⟩
    · have := mod_window_lt v
      simp only [InPage, linear, if_true, pageAddr, pageSize] at *
      omega
    · rw [userFrame, ← hb, userFrame, ← lookup_mod _ _ v]
      refine lookup_of_pageAddr ?_
      simp only [InPage, linear, if_true, pageAddr, pageSize] at *
      omega
    · simp only [InPage, linear, if_true, pageAddr, pageSize] at *
      omega
  have hwb₂ : userFrame s₂'.vm.mem (s₂'.tasks c).pgDir w = some b := (hframe w).trans hwb
  obtain ⟨y, hy, hlma, hcov, -, -, hbyte⟩ := hf.mapped h hruns hregs hmm hw hwb
  obtain ⟨-, -, -, -, -, -, hbyte₂⟩ := hf₂.mapped hinv₂ hruns₂ hregs₂ hmm₂ hw hwb₂
  have hbyte := hbyte w rfl
  have hbyte₂ := hbyte₂ w rfl
  rw [userByteAddr, hwb, Option.getD_some, hwx] at hbyte
  rw [userByteAddr, hwb₂, Option.getD_some, hwx] at hbyte₂
  rw [hbyte, hbyte₂]
  -- the page of the parent
  have hp := (h.tasks i).process_of hruns.1 hruns.2 hmm
  have hparent : userFrame s.vm.mem (s.tasks i).pgDir w = some (y.target (pageAddr w)) :=
    hp.space.maps.static y hy hlma w hw hcov
  have hsame := ha.userContents h hruns (hc.within i hruns) w
  rw [userContents_eq hparent,
    userContents_eq ((ha.userFrame h hruns (hc.within i hruns).tables w).trans hparent)] at hsame
  exact Option.some.inj hsame

theorem fork_alike {regs : Nat} (h : Alike img u s s₂) (hruns : UserRuns s i) (hregs : RegsOk s i regs) :
    Together (Alike img u) ((sysFork H img i regs s).map Prod.fst)
      ((sysFork H img i regs s₂).map Prod.fst) := by
  have hinv := h.invariant
  obtain ⟨C₀, hc₀, ha₀⟩ := h.agree
  have hc := hc₀.used hinv
  generalize hC : {a | a ∈ C₀ ∧ IsPage a ∧ ¬FreeFrame s.vm.pagesUsage a} = C at hc
  have hsub : C ⊆ C₀ := fun a ha => (hC ▸ ha).1
  have hpages : ∀ a ∈ C, IsPage a ∧ ¬FreeFrame s.vm.pagesUsage a := fun a ha => (hC ▸ ha).2
  have ha : StateAgree C s s₂ := ⟨ha₀.tasks, ha₀.user, ha₀.vms.mono hsub⟩
  have hruns₂ := ha.userRuns.2 hruns
  have hregs₂ := ha.regsOk.2 hregs
  refine (sysFork_agree hinv hc ha hpages hruns hregs).map ?_
  rintro ⟨t, r⟩ ⟨t₂, r₂⟩ hok hok₂ ⟨hr, C', hCC', ha', htables⟩
  dsimp only at hr ha' htables ⊢
  subst hr
  rcases sysFork_spec (H := H) hinv hruns hregs with
    herr | herr | ⟨slot, t', hok', hf⟩ | ⟨c, d, parent, cm, t', hok', hmm, hf⟩
  · rw [herr] at hok
    cases hok
  · rw [herr] at hok
    cases hok
  · -- nothing is left of the call
    rw [hok'] at hok
    cases hok
    have hstep := StepOf.forkFailed hinv hruns.1 hregs hf
    obtain ⟨-, hti⟩ := hf.slots.not_live hruns.1
    have hslot : ∀ c, slot = some c → c < maxNumProcesses := fun c hc => by
      have := (hf.slots.taken c hc).1.2.1
      omega
    obtain ⟨mm, -, hp⟩ := (hinv.tasks i).process hruns.1 hruns.2
    refine ⟨hinv.step hstep, C', hc.step hinv hstep hCC' fun _ => ?_, ha'⟩
    rw [hti]
    exact ((hc.within i hruns).frame hp.space.holdings.tables
      (forkWrites_tables hinv hruns hregs hf.mem hslot)).mono hCC'
  · rw [hok'] at hok
    cases hok
    obtain ⟨d₂, parent₂, cm₂, hmm₂, hf₂⟩ : ∃ d₂ parent₂ cm₂, (s₂.tasks i).mm = some parent₂ ∧
        Forked img i regs c d₂ parent₂ cm₂ s₂ t₂ := by
      rcases sysFork_spec (H := H) (ha.invariant hc hinv) hruns₂ hregs₂ with
        herr | herr | ⟨slot, t₂', hok₂', -⟩ | ⟨c₂, d₂, parent₂, cm₂, t₂', hok₂', hmm₂, hf₂⟩
      · rw [herr] at hok₂
        cases hok₂
      · rw [herr] at hok₂
        cases hok₂
      · rw [hok₂'] at hok₂
        cases hok₂
      · rw [hok₂'] at hok₂
        cases hok₂
        exact ⟨d₂, parent₂, cm₂, hmm₂, hf₂⟩
    have hstep := StepOf.forked hinv hruns hregs hmm hf
    have hinv' := hinv.step hstep
    have htab := htables c rfl
    -- the pages of the child join the others
    refine ⟨hinv', C' ∪ {b | UserRuns t c ∧ ∃ v, userFrame t.vm.mem (t.tasks c).pgDir v = some b},
      hc.step hinv hstep (hCC'.trans Set.subset_union_left) fun hruns' =>
        ⟨htab.trans Set.subset_union_left, fun v b hb => Or.inr ⟨hruns', v, hb⟩⟩,
      ha'.tasks, ha'.user, ha'.vms.usage, ha'.vms.heap, ?_⟩
    rintro n (hn | ⟨hruns', v, hb⟩) x hx
    · exact ha'.vms.mem n hn x hx
    · exact forkedPages_agree hinv hc ha hruns hregs hmm hmm₂ hf hf₂ hinv' ha' hruns' htab hb hx

/-! ## Runs -/

/-- An exception or a call of `sys_brk` or `sys_fork`. -/
def Action.IsFaultOrCall : Action κ → Prop
  | .fork _ _ => True
  | .brk _ _ _ => True
  | .exception _ _ => True
  | _ => False

/-- The pages that exceptions enter have the same contents in both states. -/
def CleanStep (p : KernelState κ × KernelState κ) : Action κ → Prop
  | .exception i addr => CleanFault i addr p.1 p.2
  | _ => True

theorem step_alike (h : Alike img u s s₂) {a : Action κ} (ha : a.IsFaultOrCall)
    (hclean : CleanStep (s, s₂) a) :
    Option.Rel (Alike img u) (step H img u s a) (step H img u s₂ a) := by
  obtain ⟨C, -, hagree⟩ := h.agree
  have hiff : Enabled s₂ a ↔ Enabled s a := by
    cases a with
    | fork i regs => exact and_congr hagree.userRuns hagree.regsOk
    | brk i regs addr => exact and_congr hagree.userRuns (and_congr_left' hagree.regsOk)
    | exception i addr => exact and_congr_left' hagree.userRuns
    | _ => exact ha.elim
  rw [step, step]
  by_cases henabled : Enabled s a
  · rw [if_pos henabled, if_pos (hiff.2 henabled)]
    refine Together.toOption ?_
    cases a with
    | fork i regs => exact fork_alike h henabled.1 henabled.2
    | brk i regs addr => exact brk_alike h henabled.1 henabled.2.1 henabled.2.2
    | exception i addr => exact exception_alike h henabled.1 hclean
    | _ => exact ha.elim
  · rw [if_neg henabled, if_neg fun hno => henabled (hiff.1 hno)]
    exact .none

/-- The states differ in nothing but the contents of pages that are not in use. -/
structure DifferInFree (s s₂ : KernelState κ) : Prop where
  tasks : s₂.tasks = s.tasks
  user : s₂.userTask = s.userTask
  usage : s₂.vm.pagesUsage = s.vm.pagesUsage
  heap : s₂.vm.heap = s.vm.heap
  mem : ∀ x, (∀ a, FreeFrame s.vm.pagesUsage a → ¬InPage true a x) → s₂.vm.mem x = s.vm.mem x

theorem DifferInFree.alike (hd : DifferInFree s s₂) (h : Invariant img u s) : Alike img u s s₂ := by
  refine ⟨h, {a | IsPage a ∧ ¬FreeFrame s.vm.pagesUsage a}, ⟨fun a hpage hpool => ⟨hpage, fun hfree => ?_⟩,
    fun i hruns => h.within_used hruns⟩, hd.tasks, hd.user, hd.usage, hd.heap, ?_⟩
  · exact hpool (FreeFrame.inPool hfree)
  · rintro n ⟨hpage, hused⟩ x hx
    refine hd.mem x fun a hfree hin => hused ?_
    obtain ⟨k, hk, -, rfl⟩ := id hfree
    rwa [inPage_unique hpage (isPage_frame hk) hx hin]

/-- The same tasks run user code, and each of them sees the same bytes. -/
def SeeSame (s s₂ : KernelState κ) : Prop :=
  s₂.tasks = s.tasks ∧ ∀ i, UserRuns s i → ∀ v, userContents s₂ i v = userContents s i v

theorem Alike.seeSame (h : Alike img u s s₂) : SeeSame s s₂ := by
  obtain ⟨C, hc, ha⟩ := h.agree
  exact ⟨ha.tasks, fun i hruns v => ha.userContents h.invariant hruns (hc.within i hruns) v⟩

/-- What is left in free pages is not seen in a run in which no exception enters such a page. -/
theorem residue_unseen {as : List (Action κ)} (h : Reachable H img u s) (hd : DifferInFree s s₂)
    (has : ∀ a ∈ as, a.IsFaultOrCall) (hclean : Along (pairStep (step H img u)) CleanStep (s, s₂) as) :
    Option.Rel SeeSame (runFrom (step H img u) s as) (runFrom (step H img u) s₂ as) := by
  have hboth : Along (pairStep (step H img u)) (fun p a => a.IsFaultOrCall ∧ CleanStep p a) (s, s₂) as :=
    along_iff.2 fun bs a cs p hsplit hrun =>
      ⟨has a (by simp [hsplit]), along_iff.1 hclean bs a cs p hsplit hrun⟩
  have hrel := runFrom_related (fun _ _ _ hs ha => step_alike hs ha.1 ha.2) (hd.alike h.invariant) hboth
  exact optionRel_mono hrel fun _ _ ha => ha.seeSame

end States

/-! ## Sample runs -/

/-- A byte has been left at the beginning of page `k` of the pool. -/
def leaveByte (k : Nat) (s : KernelState κ) : KernelState κ :=
  s.withMem (Function.update s.vm.mem (linear true (frame k)) 1)

theorem leaveByte_same {s : KernelState κ} {k x : Nat} (hx : ¬InPage true (frame k) x) :
    (leaveByte k s).vm.mem x = s.vm.mem x := by
  have hne : x ≠ linear true (frame k) := by
    intro heq
    simp only [InPage, heq, pageSize] at hx
    omega
  simp only [leaveByte, KernelState.withMem]
  exact Function.update_of_ne hne ..

theorem leaveByte_differs {s : KernelState κ} {k : Nat} (hk : k < maxNumPages)
    (hfree : s.vm.pagesUsage k = false) : DifferInFree s (leaveByte k s) :=
  ⟨rfl, rfl, rfl, rfl, fun _ hx => leaveByte_same (hx (frame k) ⟨k, hk, hfree, rfl⟩)⟩

/-- The stack is used, the process is copied and its heap grows. -/
def sampleFaults : List (Action (List Nat)) :=
  [.exception 0 0x20000010, .fork 0 sampleRegs, .brk 0 sampleRegs 0x0804D000]

/-- The exception is served with page 5, and the byte has been left in page 100. -/
theorem sampleResidue_unseen : ∃ s t t₂,
    runFrom (step sampleHeap sampleImage sampleUser) sampleBoot [.userTest 0] = some s ∧
      DifferInFree s (leaveByte 100 s) ∧
      runFrom (step sampleHeap sampleImage sampleUser) s sampleFaults = some t ∧
      runFrom (step sampleHeap sampleImage sampleUser) (leaveByte 100 s) sampleFaults = some t₂ ∧
      SeeSame t t₂ := by
  have hend : ((runFrom (step sampleHeap sampleImage sampleUser) sampleBoot [.userTest 0]).bind fun s =>
      (runFrom (step sampleHeap sampleImage sampleUser) s sampleFaults).map fun _ =>
        decide (s.vm.pagesUsage 5 = false ∧ s.vm.pagesUsage 100 = false)) = some true := by decide +kernel
  obtain ⟨s, hrun, hend⟩ := Option.bind_eq_some_iff.1 hend
  obtain ⟨t, hrun', hfree⟩ := Option.map_eq_some_iff.1 hend
  obtain ⟨hfive, hhundred⟩ := of_decide_eq_true hfree
  have hdiffer : DifferInFree s (leaveByte 100 s) := leaveByte_differs (by decide) hhundred
  have hclean : Along (pairStep (step sampleHeap sampleImage sampleUser)) CleanStep
      (s, leaveByte 100 s) sampleFaults := by
    refine ⟨fun _ _ k hk x hx => leaveByte_same fun hin => ?_, fun _ _ => ⟨trivial, fun _ _ => ⟨trivial,
      fun _ _ => trivial⟩⟩⟩
    -- the page is not behind page 5
    have hle : k ≤ 5 := by
      by_contra hlt
      rw [hk.2.2 5 (by omega)] at hfive
      cases hfive
    have := frame_inj (inPage_unique (isPage_frame hk.1) (isPage_frame (by decide)) hx hin)
    omega
  have hrel := residue_unseen ⟨sampleBoot, _, sampleBoot_boot, hrun⟩ hdiffer (by simp [sampleFaults,
    Action.IsFaultOrCall]) hclean
  rw [hrun'] at hrel
  generalize hrun₂ : runFrom (step sampleHeap sampleImage sampleUser) (leaveByte 100 s) sampleFaults = o
    at hrel
  cases hrel with
  | some hsee => exact ⟨s, t, _, hrun, hdiffer, hrun', hrun₂, hsee⟩

/-- The first task sees the byte that has been left in the page that is entered for its stack. -/
theorem sampleResidue_seen : ∃ s t t₂,
    runFrom (step sampleHeap sampleImage sampleUser) sampleBoot [.userTest 0] = some s ∧
      DifferInFree s (leaveByte 5 s) ∧
      runFrom (step sampleHeap sampleImage sampleUser) s [.exception 0 0x20000010] = some t ∧
      runFrom (step sampleHeap sampleImage sampleUser) (leaveByte 5 s) [.exception 0 0x20000010] =
        some t₂ ∧
      UserRuns t 0 ∧ userContents t 0 0x20000000 = some 0 ∧ userContents t₂ 0 0x20000000 = some 1 ∧
      ¬SeeSame t t₂ := by
  have hend : ((runFrom (step sampleHeap sampleImage sampleUser) sampleBoot [.userTest 0]).bind fun s =>
      (runFrom (step sampleHeap sampleImage sampleUser) s [.exception 0 0x20000010]).bind fun t =>
        (runFrom (step sampleHeap sampleImage sampleUser) (leaveByte 5 s) [.exception 0 0x20000010]).map
          fun t₂ => decide (s.vm.pagesUsage 5 = false ∧ UserRuns t 0 ∧
            userContents t 0 0x20000000 = some 0 ∧ userContents t₂ 0 0x20000000 = some 1)) =
      some true := by decide +kernel
  obtain ⟨s, hrun, hend⟩ := Option.bind_eq_some_iff.1 hend
  obtain ⟨t, hrun', hend⟩ := Option.bind_eq_some_iff.1 hend
  obtain ⟨t₂, hrun₂, hfacts⟩ := Option.map_eq_some_iff.1 hend
  obtain ⟨hfree, hruns, hbyte, hbyte₂⟩ := of_decide_eq_true hfacts
  refine ⟨s, t, t₂, hrun, leaveByte_differs (by decide) hfree, hrun', hrun₂, hruns, hbyte, hbyte₂,
    fun hsee => ?_⟩
  have := hsee.2 0 hruns 0x20000000
  rw [hbyte, hbyte₂] at this
  simp at this

end Kernel
end ToutOS
