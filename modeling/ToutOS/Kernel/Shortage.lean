import ToutOS.Kernel.Break
import ToutOS.Kernel.Requests
import ToutOS.Mm.TableCount

/-!
# Shortage — running out of memory

When `get_free_pages` or `kmalloc` fails, the entries of the kernel from user mode give up and return:
`sys_fork` with an error, `do_el0_sync` to the instruction that has failed, and `sys_brk` as if nothing
had happened.  The pages of the tables are different: `setup_pg_for_addr` has no way to fail, and an
assertion in it stops the machine.

* `setupUserPageMappings_spends` — mapping vmas takes a page for each table that is missing.
* `Starves` — the states in which an entry gets as far as the tables and there are too few pages left for
  them: the assertion fails in exactly these states.
* `Short` — the states in which something that the entry asks for is refused; `Handles` — the entry
  returns an error then, or ends the task.
* `entry_handles_iff` — for which states it does.
-/

namespace ToutOS
namespace Kernel

open Base Mm

variable {κ : Type} {H : KernelHeap κ} {img : KernelImage} {u : UserImage} {s : KernelState κ}
  {vm : VmState κ} {d : Nat}

/-! ## The tables of an address space -/

/-- The tables below the directory for a vma that is mapped as a whole. -/
def VmArea.tables (vma : VmArea) : Finset (List (Fin 512)) :=
  if vma.lma = noLma then ∅ else rangePaths vma.vmStart (numPages (vma.vmEnd - vma.vmStart))

/-- The tables for all vmas. -/
def mmapTables : List VmArea → Finset (List (Fin 512))
  | [] => ∅
  | vma :: rest => vma.tables ∪ mmapTables rest

/-- What pays for the tables at `d`, and which of them are there. -/
abbrev VmSpends (d : Nat) (S : Finset (List (Fin 512))) (vm : VmState κ) :
    Except Halt (VmState κ) → Prop :=
  Spends (fun vm => freeCount vm.pagesUsage) (fun vm => hasTable vm.mem d) Halt.assertFailed S vm

theorem mem_mmapTables {mmap : List VmArea} {π : List (Fin 512)} :
    π ∈ mmapTables mmap ↔ ∃ vma ∈ mmap, π ∈ vma.tables := by
  induction mmap with
  | nil => simp [mmapTables]
  | cons x mmap ih => rw [mmapTables, Finset.mem_union, ih, List.exists_mem_cons_iff]

theorem tables_of_area {x y : VmArea} (h : x.area = y.area) : x.tables = y.tables := by
  obtain ⟨h₁, h₂, -, h₃⟩ := area_eq h
  rw [VmArea.tables, VmArea.tables, h₁, h₂]
  exact if_congr h₃ rfl rfl

/-- A copy needs the same tables. -/
theorem mmapTables_reverse {l₁ l₂ : List VmArea}
    (h : l₁.map VmArea.area = (l₂.map VmArea.area).reverse) : mmapTables l₁ = mmapTables l₂ := by
  have hsub : ∀ {l l' : List VmArea}, (∀ a ∈ l.map VmArea.area, a ∈ l'.map VmArea.area) →
      mmapTables l ⊆ mmapTables l' := by
    intro l l' hmem π hπ
    obtain ⟨x, hx, hπx⟩ := mem_mmapTables.1 hπ
    obtain ⟨y, hy, harea⟩ := List.mem_map.1 (hmem _ (List.mem_map_of_mem hx))
    exact mem_mmapTables.2 ⟨y, hy, by rwa [tables_of_area harea]⟩
  refine Finset.Subset.antisymm (hsub fun a ha => ?_) (hsub fun a ha => ?_)
  · rwa [h, List.mem_reverse] at ha
  · rwa [h, List.mem_reverse]

/-- The tables belong to an empty directory. -/
theorem missing_mmapTables {m : Mem} {mmap : List VmArea} (hzero : ∀ x, InPage true d x → m x = 0) :
    missing (hasTable m d) (mmapTables mmap) = (mmapTables mmap).card := by
  refine missing_eq_card fun π hπ => ?_
  obtain ⟨x, -, hπx⟩ := mem_mmapTables.1 hπ
  rw [VmArea.tables] at hπx
  split_ifs at hπx
  · cases hπx
  · obtain ⟨j, -, hj⟩ := mem_rangePaths.1 hπx
    exact hasTable_empty hzero hj

section Mapping

variable {T : Set Nat}

/-- One range of user memory. -/
theorem setupUserPageMapping_spends {virtAddr phyAddr size : Nat} {rdonly : Bool}
    (hd : linear true d ≠ 0) (hphy : phyAddr ≠ noLma) (hphy_dvd : pageSize ∣ phyAddr)
    (hvirt_dvd : pageSize ∣ virtAddr) (hphy_le : phyAddr + pageSize * numPages size ≤ 2 ^ 48)
    (hvirt_le : virtAddr + pageSize * numPages size ≤ 2 ^ 39) (hwf : PtWf true vm.mem d T)
    (hT : T ⊆ usedFrames vm.pagesUsage) :
    VmSpends d (rangePaths virtAddr (numPages size)) vm
      (setupUserPageMapping (linear true d) virtAddr phyAddr size rdonly vm) := by
  obtain ⟨hattrs, h64⟩ := attrsOk_userAttrs rdonly
  have hm : MapOk 0 ⟨phyAddr, virtAddr, size, userAttrs rdonly⟩ :=
    ⟨hphy_dvd, hvirt_dvd, hphy_le, Nat.zero_le _, by simpa using hvirt_le, hattrs, h64⟩
  rw [setupUserPageMapping, if_neg hd, if_neg hphy]
  have hmap := @addSingleMap_spends d 0 _ hm ⟨vm.mem, vm.pagesUsage⟩ T hwf hT
  exact hmap.map rfl rfl fun _ => ⟨rfl, rfl⟩

/-- `setup_user_page_mappings` takes a page for each table that is missing. -/
theorem setupUserPageMappings_spends {startBrk brk : Nat} (hd : linear true d ≠ 0) :
    ∀ {mmap : List VmArea} {vm : VmState κ} {T : Set Nat}, (∀ vma ∈ mmap, vma.Ok startBrk brk) →
      PtWf true vm.mem d T → T ⊆ usedFrames vm.pagesUsage →
      VmSpends d (mmapTables mmap) vm (setupUserPageMappings (linear true d) mmap vm) := by
  intro mmap
  induction mmap with
  | nil => exact fun _ _ _ => Spends.refl _
  | cons x mmap ih =>
      intro vm T hok hwf hT
      have hokx := hok x (by simp)
      have hrest := fun y hy => hok y (List.mem_cons_of_mem x hy)
      rw [setupUserPageMappings, mmapTables, VmArea.tables]
      by_cases hlma : x.lma = noLma
      · -- a vma that is filled on demand
        have hskip : setupUserPageMapping (linear true d) x.vmStart x.lma (x.vmEnd - x.vmStart)
            (!x.writable) vm = .ok vm := by
          rw [setupUserPageMapping, if_neg hd, if_pos hlma]
        rw [if_pos hlma, hskip, Finset.empty_union, except_bind_ok]
        exact ih hrest hwf hT
      · have hsize := hokx.pages hlma
        have hphy_le : x.lma + pageSize * numPages (x.vmEnd - x.vmStart) ≤ 2 ^ 48 := by
          rw [hsize]
          exact hokx.lma_le hlma
        have hvirt_le : x.vmStart + pageSize * numPages (x.vmEnd - x.vmStart) ≤ 2 ^ 39 := by
          have hle := hokx.start_le
          have hend := hokx.end_le
          rw [hsize]
          omega
        have hone := @setupUserPageMapping_spec κ d x.vmStart x.lma (x.vmEnd - x.vmStart) (!x.writable) vm
          T hd hlma (hokx.lma_dvd hlma) hokx.start_dvd hphy_le hvirt_le hwf hT
        rw [if_neg hlma]
        refine (setupUserPageMapping_spends hd hlma (hokx.lma_dvd hlma) hokx.start_dvd hphy_le hvirt_le hwf
          hT).seq fun vm₁ hrun => ?_
        rcases hone with herr | ⟨vm₂, T₂, hrun₂, -, hwf₂, hgrow₂, -⟩
        · rw [herr] at hrun
          cases hrun
        rw [hrun₂] at hrun
        obtain rfl := Except.ok.inj hrun
        exact ih hrest hwf₂ hgrow₂.tables_given

end Mapping

/-- The vmas of a new address space are mapped if there are enough pages for its tables. -/
theorem newSpace_short_iff {mm : MmStruct} (hnew : NewSpace vm.pagesUsage d mm)
    (hzero : ∀ x, InPage true d x → vm.mem x = 0) :
    setupUserPageMappings (linear true d) mm.mmap vm = .error .assertFailed ↔
      freeCount vm.pagesUsage < (mmapTables mm.mmap).card := by
  obtain ⟨hdir, hwf, -, hT⟩ := hnew.directory hzero
  have hspends := setupUserPageMappings_spends hdir hnew.layout.vma hwf hT
  rw [hspends.short_iff, missing_mmapTables hzero]

/-! ## Exceptions -/

theorem rangePaths_page (addr : Nat) : rangePaths (pageAddr addr) 1 = tablePaths addr := by
  have hpath : tablePaths (pageAddr addr) = tablePaths addr := tablePaths_congr <| by
    rw [pathOf_eq_iff]
    simp only [pageAddr, pageSize]
    omega
  rw [rangePaths_succ, hpath]
  exact Finset.union_empty _

/-- An exception takes one page, and then those for the tables. -/
theorem handleFault_short_iff {addr : Nat} {mm : MmStruct} (h : SpaceOk vm.mem d mm)
    (hused : ∀ a ∈ footprint vm.mem d mm.mmap, ¬FreeFrame vm.pagesUsage a)
    (hvma : findVma mm.mmap addr ≠ none) :
    handleFault H (linear true d) addr mm vm = .error .assertFailed ↔
      0 < freeCount vm.pagesUsage ∧
        freeCount vm.pagesUsage ≤ missing (hasTable vm.mem d) (tablePaths addr) := by
  obtain ⟨vma, hfind⟩ := Option.ne_none_iff_exists'.1 hvma
  obtain ⟨hmem, hcov⟩ := findVma_mem hfind
  have hend := (h.layout.vma vma hmem).end_le
  have hcovp := VmArea.covers_iff.1 hcov
  rcases hget : getFreePages vm.pagesUsage 0 with ⟨page, usage⟩
  simp only [handleFault, hget]
  rcases getFreePages_one_cases hget with ⟨hpage, hcount⟩ | ⟨hpage, hcount⟩
  · -- without a page the call ends before it needs a table
    rw [if_pos hpage, hcount]
    exact iff_of_false (fun hno => by cases hno) fun hno => absurd hno.1 (Nat.lt_irrefl 0)
  rw [if_neg hpage]
  obtain ⟨k, hpagek, hk, hfree, rfl⟩ := getFreePages_one hget hpage
  have hframe : pa page = frame k := by rw [hpagek, pa_pagePool hk]
  have hphys := physOk_frame hk
  have hone : pageSize * numPages pageSize = pageSize := by decide
  have hne : frame k ≠ noLma := by
    have := hphys.2
    simp only [noLma]
    omega
  have hphy_le : frame k + pageSize * numPages pageSize ≤ 2 ^ 48 := by
    rw [hone]
    simp only [frame, pageSize, maxNumPages] at *
    omega
  have hvirt_le : pageAddr addr + pageSize * numPages pageSize ≤ 2 ^ 39 := by
    rw [hone]
    simp only [pageAddr, pageSize]
    omega
  have hdvd : pageSize ∣ pageAddr addr := by
    rw [pageAddr]
    exact Nat.dvd_mul_left _ _
  have hT : tableFrames vm.mem d ⊆ usedFrames (markPages vm.pagesUsage k 1 true) := by
    intro n hn
    have := tableFrames_used h.holdings hused hn
    exact (usedFrame_markPages (show k + 1 ≤ maxNumPages by omega)).2 (Or.inl this)
  -- the page is taken, and the tables come out of what is left
  have hspends := @setupUserPageMapping_spends κ { vm with pagesUsage := markPages vm.pagesUsage k 1 true } d
    _ (pageAddr addr) (frame k) pageSize false (linear_ne_zero h.holdings) hne hphys.1 hdvd hphy_le hvirt_le
    h.holdings.tables hT
  rw [show numPages pageSize = 1 by decide, rangePaths_page] at hspends
  have hshort := hspends.short_iff
  rw [hframe]
  generalize setupUserPageMapping (linear true d) (pageAddr addr) (frame k) pageSize false
    { vm with pagesUsage := markPages vm.pagesUsage k 1 true } = result at hshort ⊢
  rw [except_map_eq_error, hshort]
  dsimp only
  omega

/-! ## `sys_fork` -/

theorem getFreePages_of_zeroed {m m' : Mem} {usage usage' : PagesUsage} {p : Nat}
    (h : getZeroedPages 0 m usage = (p, m', usage')) : getFreePages usage 0 = (p, usage') := by
  rcases hget : getFreePages usage 0 with ⟨q, u₁⟩
  simp only [getZeroedPages, hget] at h
  split_ifs at h with hq
  · simp only [Prod.mk.injEq] at h
    rw [h.1, h.2.2]
  · simp only [Prod.mk.injEq] at h
    rw [not_not.1 hq, h.1, h.2.2]

/-- The part of `sys_fork` that builds the address space of the child: something is refused and it returns
an error, or everything is granted and the tables decide. -/
theorem forkSpace_asked {regs c self : Nat} {t : TaskStruct} {parent : MmStruct} (tasks : TaskTable)
    (s : KernelState κ) (hmm : t.mm = some parent) (hp : ProcessOk u vm.mem t.pgDir parent)
    (hused : ∀ a ∈ footprint vm.mem (physical true t.pgDir) parent.mmap, ¬FreeFrame vm.pagesUsage a) :
    ((∃ s', forkSpace H img regs c self t tasks vm s = .ok (s', none)) ∧
      (¬attachAll [] parent.mmap ∨ kmallocs H (parent.mmap.flatMap VmArea.copyRecords) vm.heap = none ∨
        getPages (0 :: parent.mmap.flatMap VmArea.copyOrders) vm.pagesUsage = none)) ∨
    ∃ usage, attachAll [] parent.mmap ∧
      kmallocs H (parent.mmap.flatMap VmArea.copyRecords) vm.heap ≠ none ∧
      getPages (0 :: parent.mmap.flatMap VmArea.copyOrders) vm.pagesUsage = some usage ∧
      (forkSpace H img regs c self t tasks vm s = .error .assertFailed ↔
        freeCount usage < (mmapTables parent.mmap).card) := by
  rcases hcall : getZeroedPages 0 vm.mem vm.pagesUsage with ⟨p, m', usage'⟩
  have hget := getFreePages_of_zeroed hcall
  rcases getZeroedPages_cases hcall vm.heap vm.heap with ⟨hp0, rfl, rfl⟩ | ⟨d, hpd, hp0, hd⟩
  · -- there is no page for the directory
    refine Or.inl ⟨?_, Or.inr (Or.inr ?_)⟩
    · simp only [forkSpace, hcall, if_pos hp0]
      rw [exitMm_kernel rfl, except_map_ok]
      exact ⟨_, rfl⟩
    · rw [getPages, hget]
      simp only [if_pos hp0]
  obtain ⟨hp', hused'⟩ := space_bystander hd.moves hp.space hused
  have hsep := hp.vmas.sharedApart
  obtain ⟨fs, hfs⟩ := @forkVmas_ok κ H ⟨m', usage', vm.heap⟩ t.pgDir parent hp' hused' hsep parent.mmap
    [] ⟨m', usage', vm.heap⟩ [] (fun x hx => hx) (by simp) (copied_nil _ _)
  rcases @forkVmas_spec κ H ⟨m', usage', vm.heap⟩ t.pgDir parent hp' hused' hsep parent.mmap
    [] ⟨m', usage', vm.heap⟩ [] (fun x hx => hx) (by simp) (copied_nil _ _) with
    herr | ⟨fs₂, hfs₂, hfilled, hcopied⟩
  · rw [hfs] at herr
    cases herr
  rw [hfs] at hfs₂
  obtain rfl := Except.ok.inj hfs₂
  have hasked : Asked H _ _ _ _ fs := forkVmas_asked (fun _ => Iff.rfl) hfs
  have hpages : getPages (0 :: parent.mmap.flatMap VmArea.copyOrders) vm.pagesUsage =
      getPages (parent.mmap.flatMap VmArea.copyOrders) usage' := by
    rw [getPages, hget]
    simp only [if_neg hp0]
  rw [forkSpace_eq hmm hcall hp0 hpd, hfs, except_bind_ok, hpages]
  cases hasked with
  | granted vm' mmap hattach hheap husage =>
      have hcopy := hcopied rfl
      rw [List.nil_append] at hcopy
      have hnew : NewSpace vm'.pagesUsage d ⟨self, mmap, parent.startBrk, parent.brk⟩ :=
        hcopy.newSpace hp.space.layout self hd.pool hd.used
      have hshort := newSpace_short_iff hnew fun x hx => hfilled.empty hd hx
      rw [mmapTables_reverse hcopy.areas] at hshort
      refine Or.inr ⟨vm'.pagesUsage, hattach, ?_, husage, ?_⟩
      · rw [hheap]
        exact Option.some_ne_none _
      · rw [if_pos rfl, except_map_eq_error, hshort]
  | refused vm' mmap hno =>
      obtain ⟨vm₁, hexit, -, -⟩ := hfilled.giveBack (H := H) hd self 0 0
      refine Or.inl ⟨?_, hno⟩
      rw [if_neg Bool.false_ne_true, hexit, except_map_ok]
      exact ⟨_, rfl⟩

/-- `sys_fork` of a task with the vmas `parent` gets a slot, all records and all pages for the copies;
`usage` is what is left of the pages. -/
structure ForkGranted (H : KernelHeap κ) (s : KernelState κ) (parent : MmStruct) (usage : PagesUsage) :
    Prop where
  slot : ∃ c < maxNumProcesses, (s.tasks c).inUse = false
  attach : attachAll [] parent.mmap
  records : kmallocs H (sizeofMmStruct :: parent.mmap.flatMap VmArea.copyRecords) s.vm.heap ≠ none
  pages : getPages (0 :: parent.mmap.flatMap VmArea.copyOrders) s.vm.pagesUsage = some usage

/-- All of this is granted, and then there are too few pages for the tables of the child. -/
def ForkStarves (H : KernelHeap κ) (s : KernelState κ) (parent : MmStruct) : Prop :=
  ∃ usage, ForkGranted H s parent usage ∧ freeCount usage < (mmapTables parent.mmap).card

theorem sysFork_asked (regs : Nat) {i : Nat} {parent : MmStruct} (h : Invariant img u s) (hruns : UserRuns s i)
    (hmm : (s.tasks i).mm = some parent) :
    ((∃ s', sysFork H img i regs s = .ok (s', none)) ∧ ∀ usage, ¬ForkGranted H s parent usage) ∨
    ∃ usage, ForkGranted H s parent usage ∧
      (sysFork H img i regs s = .error .assertFailed ↔
        freeCount usage < (mmapTables parent.mmap).card) := by
  obtain ⟨hlive, hdir⟩ := hruns
  rcases sysFork_cases H img regs hlive with
    ⟨tasks', hslot, hrun⟩ | ⟨c, tasks', m, t, self, heap, hb, hkm, hrun⟩
  · refine Or.inl ⟨⟨_, hrun⟩, fun usage hgranted => ?_⟩
    obtain ⟨c, hc, hfree⟩ := hgranted.slot
    rw [(hslot.full rfl).1 c hc] at hfree
    cases hfree
  · have hrecords : kmallocs H (sizeofMmStruct :: parent.mmap.flatMap VmArea.copyRecords) s.vm.heap =
        if self = 0 then none else kmallocs H (parent.mmap.flatMap VmArea.copyRecords) heap := by
      rw [kmallocs, hkm]
    rw [hrun]
    by_cases hself : self = 0
    · -- there is no memory for the `mm_struct`
      rw [if_pos hself]
      refine Or.inl ⟨⟨_, rfl⟩, fun usage hgranted => hgranted.records ?_⟩
      rw [hrecords, if_pos hself]
    rw [if_neg hself]
    rw [if_neg hself] at hrecords
    obtain ⟨hp', hused⟩ := h.process_offStack hlive hdir hmm hb.lt hb.mem
    rcases @forkSpace_asked κ H img u ⟨m, s.vm.pagesUsage, heap⟩ regs c self (s.tasks i) parent
      (Function.update tasks' c t) s hmm hp' hused with ⟨hfailed, hno⟩ | ⟨usage, hattach, hheap, hpages, hiff⟩
    · refine Or.inl ⟨hfailed, fun usage hgranted => ?_⟩
      rcases hno with hno | hno | hno
      · exact hno hgranted.attach
      · exact hgranted.records (hrecords.trans hno)
      · have hpages := hgranted.pages
        rw [hno] at hpages
        cases hpages
    · exact Or.inr ⟨usage, ⟨⟨c, hb.lt, hb.unused⟩, hattach, hrecords ▸ hheap, hpages⟩, hiff⟩

theorem sysFork_short_iff {i regs : Nat} {parent : MmStruct} (h : Invariant img u s) (hruns : UserRuns s i)
    (hmm : (s.tasks i).mm = some parent) :
    sysFork H img i regs s = .error .assertFailed ↔ ForkStarves H s parent := by
  rcases sysFork_asked (H := H) regs h hruns hmm with ⟨⟨s', hok⟩, hno⟩ | ⟨usage, hgranted, hiff⟩
  · rw [hok]
    refine iff_of_false (except_ok_ne_error _ _) ?_
    rintro ⟨usage, hgranted, -⟩
    exact hno usage hgranted
  · rw [hiff]
    refine ⟨fun hlt => ⟨usage, hgranted, hlt⟩, ?_⟩
    rintro ⟨usage', hgranted', hlt⟩
    have hsame := hgranted.pages.symm.trans hgranted'.pages
    rwa [Option.some.inj hsame]

/-! ## All entries -/

/-- The entry gets as far as the tables, and there are too few pages left for those that are missing. -/
def Starves (H : KernelHeap κ) (s : KernelState κ) : Action κ → Prop
  | .exception i addr => ∃ mm, (s.tasks i).mm = some mm ∧ findVma mm.mmap addr ≠ none ∧
      0 < freeCount s.vm.pagesUsage ∧
      freeCount s.vm.pagesUsage ≤
        missing (hasTable s.vm.mem (physical true (s.tasks i).pgDir)) (tablePaths addr)
  | .fork i _ => ∃ mm, (s.tasks i).mm = some mm ∧ ForkStarves H s mm
  | _ => False

theorem Invariant.exception_short_iff {i addr : Nat} (h : Invariant img u s)
    (ha : Enabled s (.exception i addr)) :
    exec H img u s (.exception i addr) = .error .assertFailed ↔ Starves H s (.exception i addr) := by
  obtain ⟨⟨hlive, hdir⟩, -⟩ := ha
  obtain ⟨mm, hmm, hp⟩ := (h.tasks i).process hlive hdir
  have hone : ∀ mm', (s.tasks i).mm = some mm' → mm' = mm := fun mm' hmm' => by
    rw [hmm] at hmm'
    exact (Option.some.inj hmm').symm
  simp only [exec, doEl0Sync, hmm, Starves]
  by_cases hfind : findVma mm.mmap addr = none
  · -- the task exits
    obtain ⟨s', hexit, -⟩ := exit_step (H := H) h hlive
    rw [if_pos hfind, hexit]
    refine iff_of_false (except_ok_ne_error _ _) ?_
    rintro ⟨mm', hmm', hno, -⟩
    rw [hone mm' (hmm.trans hmm')] at hno
    exact hno hfind
  · have hshort := handleFault_short_iff (H := H) hp.space (h.used hlive hdir hmm) hfind
    rw [linear_pgDir hp.dir_lt] at hshort
    rw [if_neg hfind, except_map_eq_error, hshort]
    constructor
    · exact fun hlt => ⟨mm, rfl, hfind, hlt⟩
    · rintro ⟨mm', -, -, hlt⟩
      exact hlt

/-- For every entry from user mode: the assertion in `setup_pg_for_addr` does not fail, unless the entry
gets as far as the tables and there are too few pages left for them. -/
theorem Invariant.starves_iff {a : Action κ} (hinv : Invariant img u s) (ha : Enabled s a)
    (huser : ∀ i, a ≠ .userTest i) : exec H img u s a = .error .assertFailed ↔ Starves H s a := by
  cases a with
  | userTest i => exact absurd rfl (huser i)
  | exception i addr => exact hinv.exception_short_iff ha
  | fork i regs =>
      obtain ⟨mm, hmm, -⟩ := (hinv.tasks i).process ha.1.1 ha.1.2
      rw [exec, except_map_eq_error, sysFork_short_iff hinv ha.1 hmm]
      constructor
      · exact fun hstarve => ⟨mm, hmm, hstarve⟩
      · rintro ⟨mm', hmm', hstarve⟩
        rw [hmm] at hmm'
        rwa [Option.some.inj hmm']
  | brk i regs addr =>
      -- nothing is mapped
      obtain ⟨hruns, hregs, haddr⟩ := ha
      obtain ⟨mm, hc⟩ := doBrk_call (H := H) hinv hruns hregs haddr
      refine iff_of_false (fun herr => ?_) id
      rw [exec] at herr
      generalize s.withMem (store s.vm.mem regs 8 addr) = s₁ at hc herr
      obtain ⟨h₁, -, -, hp, hused, hrun⟩ := hc
      rw [hrun, except_map_eq_error, ← linear_pgDir hp.dir_lt] at herr
      rcases sysBrk_spec (H := H) hp.space h₁.zero hused addr with ⟨hpanic, -⟩ | ⟨mm', vm', hok, -⟩
      · rw [hpanic] at herr
        cases herr
      · exact except_ok_ne_error _ _ (hok.symm.trans herr)
  | exit i =>
      obtain ⟨s', hexit, -⟩ := exit_step (H := H) hinv ha
      refine iff_of_false ?_ id
      rw [exec, hexit]
      exact except_ok_ne_error _ _
  | userStore i virtAddr b => exact iff_of_false (except_ok_ne_error _ _) id
  | kmallocUse heap => exact iff_of_false (except_ok_ne_error _ _) id

/-! ## What becomes of a shortage -/

/-- The pages for the page at `addr` and for the tables on its way are there, and so is the memory for
its `pages_block`, if `add_pages_block` asks for it. -/
def FaultFed (H : KernelHeap κ) (s : KernelState κ) (i addr : Nat) : Prop :=
  missing (hasTable s.vm.mem (physical true (s.tasks i).pgDir)) (tablePaths addr) <
      freeCount s.vm.pagesUsage ∧
    (pageAddr addr = 0 ∨ (H.kmalloc s.vm.heap sizeofPagesBlock).1 ≠ 0)

/-- Something that the entry asks for is refused: a page, or memory for a record. -/
def Short (H : KernelHeap κ) (s : KernelState κ) : Action κ → Prop
  | .exception i addr => ∃ mm, (s.tasks i).mm = some mm ∧ findVma mm.mmap addr ≠ none ∧
      ¬FaultFed H s i addr
  | .fork i _ => ∃ mm, (s.tasks i).mm = some mm ∧
      (kmallocs H (sizeofMmStruct :: mm.mmap.flatMap VmArea.copyRecords) s.vm.heap = none ∨
        getPages (0 :: mm.mmap.flatMap VmArea.copyOrders) s.vm.pagesUsage = none ∨
        ∃ usage, getPages (0 :: mm.mmap.flatMap VmArea.copyOrders) s.vm.pagesUsage = some usage ∧
          freeCount usage < (mmapTables mm.mmap).card)
  | .brk i _ addr => ∃ mm, (s.tasks i).mm = some mm ∧ findVma mm.mmap mm.startBrk = none ∧
      ¬Shrinks mm addr ∧ (H.kmalloc s.vm.heap sizeofVmArea).1 = 0
  | _ => False

/-- The task has ended, or it gets an error: `-1` from `sys_fork`, from `sys_brk` another break than the
one that it has asked for. -/
def ErrorOrEnded (s' : KernelState κ) : Action κ → Prop
  | .exception i _ => (s'.tasks i).live = false
  | .fork i regs => (s'.tasks i).live = false ∨ load s'.vm.mem regs 8 = 2 ^ 64 - 1
  | .brk i regs addr => (s'.tasks i).live = false ∨ addr ≠ 0 ∧ load s'.vm.mem regs 8 ≠ addr
  | _ => True

/-- The assertion does not fail, and a shortage is answered with an error or the end of the task. -/
structure Handles (H : KernelHeap κ) (img : KernelImage) (u : UserImage) (s : KernelState κ)
    (a : Action κ) : Prop where
  asserts : exec H img u s a ≠ .error .assertFailed
  outcome : Short H s a → ∃ s', exec H img u s a = .ok s' ∧ ErrorOrEnded s' a

/-- An exception has its memory; the copies of `sys_fork` leave enough pages for the tables, if it gets
there; and `sys_brk` has memory for the vma of the heap when it makes one, if its result counts. -/
def Provided (H : KernelHeap κ) (s : KernelState κ) : Action κ → Prop
  | .exception i addr => ∀ mm, (s.tasks i).mm = some mm → findVma mm.mmap addr ≠ none → FaultFed H s i addr
  | .fork i _ => ∀ mm, (s.tasks i).mm = some mm → ¬ForkStarves H s mm
  | .brk i _ addr => ∀ mm, (s.tasks i).mm = some mm → findVma mm.mmap mm.startBrk = none →
      ¬Shrinks mm addr → (H.kmalloc s.vm.heap sizeofVmArea).1 ≠ 0 ∨ addr ≠ 0 ∧ KeepsBrk mm addr
  | _ => True

/-- A fault in a vma neither ends the task nor returns an error. -/
theorem Invariant.exception_handles_iff {i addr : Nat} (h : Invariant img u s)
    (ha : Enabled s (.exception i addr)) :
    Handles H img u s (.exception i addr) ↔ Provided H s (.exception i addr) := by
  constructor
  · intro hhandles mm hmm hfind
    by_contra hshort
    obtain ⟨s', hexec, hended⟩ := hhandles.outcome ⟨mm, hmm, hfind, hshort⟩
    simp only [exec, doEl0Sync, hmm, if_neg hfind] at hexec
    obtain ⟨r, -, rfl⟩ := except_map_eq_ok.1 hexec
    -- the task goes on
    have htask : (setMm s i r).tasks i = { s.tasks i with mm := some r.1 } := Function.update_self ..
    rw [ErrorOrEnded, htask] at hended
    exact Bool.noConfusion (ha.1.1.symm.trans hended)
  · intro hfed
    refine ⟨fun hassert => ?_, ?_⟩
    · obtain ⟨mm, hmm, hfind, -, hle⟩ := (h.exception_short_iff ha).1 hassert
      exact absurd (hfed mm hmm hfind).1 (Nat.not_lt.2 hle)
    · rintro ⟨mm, hmm, hfind, hshort⟩
      exact absurd (hfed mm hmm hfind) hshort

/-- `sys_fork` returns an error whenever something is refused before the tables. -/
theorem Invariant.fork_handles_iff {i regs : Nat} (h : Invariant img u s)
    (ha : Enabled s (.fork i regs)) :
    Handles H img u s (.fork i regs) ↔ Provided H s (.fork i regs) := by
  obtain ⟨mm, hmm, -⟩ := (h.tasks i).process ha.1.1 ha.1.2
  have hone : ∀ mm', (s.tasks i).mm = some mm' → mm' = mm := fun mm' hmm' =>
    Option.some.inj (hmm'.symm.trans hmm)
  constructor
  · intro hhandles mm' hmm' hstarve
    exact hhandles.asserts ((h.starves_iff ha fun _ hno => by cases hno).2 ⟨mm', hmm', hstarve⟩)
  · intro hfed
    have hnot := hfed mm hmm
    refine ⟨fun hassert => ?_, ?_⟩
    · obtain ⟨mm', hmm', hstarve⟩ := (h.starves_iff ha fun _ hno => by cases hno).1 hassert
      exact hfed mm' hmm' hstarve
    rintro ⟨mm', hmm', hshort⟩
    obtain rfl := hone mm' hmm'
    rcases sysFork_asked (H := H) regs h ha.1 hmm with ⟨⟨s', hok⟩, -⟩ | ⟨usage, hgranted, -⟩
    · -- the call fails and stores `-1`
      rcases sysFork_spec (H := H) h ha.1 ha.2 with
        herr | herr | ⟨slot, s₁, hok', hfailed⟩ | ⟨c, d, parent, cm, s₁, hok', -⟩
      · rw [hok] at herr
        cases herr
      · rw [hok] at herr
        cases herr
      · rw [hok] at hok'
        cases hok'
        refine ⟨s', ?_, Or.inr hfailed.result⟩
        rw [exec, hok, except_map_ok]
      · rw [hok] at hok'
        cases hok'
    · rcases hshort with hno | hno | ⟨usage', husage, hlt⟩
      · exact absurd hno hgranted.records
      · rw [hgranted.pages] at hno
        cases hno
      · rw [hgranted.pages] at husage
        obtain rfl := Option.some.inj husage
        exact absurd ⟨_, hgranted, hlt⟩ hnot

/-- The break that `sys_brk` returns is the one asked for, if it is in range, whether the vma of the heap
could be made or not. -/
theorem Layout.nextBrk_eq_iff {mm : MmStruct} {addr : Nat} (h : Layout mm) (haddr : addr ≠ 0) :
    nextBrk mm addr ≠ addr ↔ KeepsBrk mm addr := by
  have hge := h.brk_ge
  have hle := h.brk_le
  rw [nextBrk]
  by_cases hkeeps : KeepsBrk mm addr
  · rw [if_pos hkeeps]
    refine iff_of_true ?_ hkeeps
    simp only [KeepsBrk] at hkeeps
    omega
  · rw [if_neg hkeeps]
    exact iff_of_false (fun hno => hno rfl) hkeeps

theorem Invariant.brk_handles_iff {i regs addr : Nat} (h : Invariant img u s)
    (ha : Enabled s (.brk i regs addr)) :
    Handles H img u s (.brk i regs addr) ↔ Provided H s (.brk i regs addr) := by
  obtain ⟨hruns, hregs, haddr⟩ := ha
  -- what a call that comes back has returned
  have hresult : ∀ s' mm, exec H img u s (.brk i regs addr) = .ok s' → (s.tasks i).mm = some mm →
      (ErrorOrEnded s' (.brk i regs addr) ↔ addr ≠ 0 ∧ KeepsBrk mm addr) := by
    intro s' mm hexec hmm
    obtain ⟨mm₁, mm', vm₁, vm', hb⟩ := brk_cases h hruns hregs haddr hexec
    obtain rfl : mm = mm₁ := Option.some.inj (hmm.symm.trans hb.space)
    have hl := hb.process.space.layout
    have hbrk := (sysBrk_set hb.run).brk
    have hlt : mm'.brk < 256 ^ 8 := by
      have hle := hl.brk_le
      rw [hbrk, nextBrk]
      simp only [maxBrkAddr] at hle
      split_ifs <;> omega
    have hlive : (s'.tasks i).live = true := by
      rw [hb.tasks, Function.update_self]
      exact hruns.1
    rw [ErrorOrEnded, hlive, hb.stored, load_store_same hlt, hbrk]
    simp only [Bool.true_eq_false, false_or]
    exact and_congr_right fun hne => hl.nextBrk_eq_iff hne
  constructor
  · intro hhandles mm hmm hfind hno
    by_cases hself : (H.kmalloc s.vm.heap sizeofVmArea).1 = 0
    · obtain ⟨s', hexec, hended⟩ := hhandles.outcome ⟨mm, hmm, hfind, hno, hself⟩
      exact Or.inr ((hresult s' mm hexec hmm).1 hended)
    · exact Or.inl hself
  · intro hfed
    refine ⟨(h.starves_iff (a := .brk i regs addr) ⟨hruns, hregs, haddr⟩ fun _ hno => by cases hno).1, ?_⟩
    rintro ⟨mm, hmm, hfind, hno, hself⟩
    -- the call comes back
    obtain ⟨mm₁, hc⟩ := doBrk_call (H := H) h hruns hregs haddr
    obtain rfl : mm = mm₁ := Option.some.inj (hmm.symm.trans hc.space)
    obtain ⟨s', hexec⟩ : ∃ s', exec H img u s (.brk i regs addr) = .ok s' := by
      rw [exec, hc.run, ← linear_pgDir hc.process.dir_lt]
      rcases sysBrk_spec (H := H) hc.process.space hc.invariant.zero hc.used addr with
        ⟨-, hshrinks, -⟩ | ⟨mm', vm', hok, -⟩
      · exact absurd hshrinks hno
      · exact ⟨_, by rw [hok, except_map_ok]⟩
    refine ⟨s', hexec, (hresult s' mm hexec hmm).2 ?_⟩
    exact (hfed mm hmm hfind hno).resolve_left fun hne => hne hself

/-- For every entry from user mode in every state that can be reached: the assertion in
`setup_pg_for_addr` does not fail and a shortage is answered with an error or the end of the task, in
exactly the states in which the memory of an exception is there, `sys_fork` does not run out of pages at
its tables, and `sys_brk` can make the vma of a heap. -/
theorem entry_handles_iff {a : Action κ} (h : Reachable H img u s) (ha : Enabled s a)
    (huser : ∀ i, a ≠ .userTest i) : Handles H img u s a ↔ Provided H s a := by
  have hinv := h.invariant
  -- nothing is asked for elsewhere
  have hnone : ∀ b, a = b → ¬Short H s b → Provided H s b → ¬Starves H s b →
      (Handles H img u s b ↔ Provided H s b) := by
    rintro b rfl hshort hfed hstarve
    exact iff_of_true ⟨fun hassert => hstarve ((hinv.starves_iff ha huser).1 hassert),
      fun hs => absurd hs hshort⟩ hfed
  cases a with
  | userTest i => exact absurd rfl (huser i)
  | exception i addr => exact hinv.exception_handles_iff ha
  | fork i regs => exact hinv.fork_handles_iff ha
  | brk i regs addr => exact hinv.brk_handles_iff ha
  | exit i => exact hnone _ rfl id trivial id
  | userStore i virtAddr b => exact hnone _ rfl id trivial id
  | kmallocUse heap => exact hnone _ rfl id trivial id

/-- The first page of a stack, with an empty pool. -/
theorem sampleFault_fed : ∃ s,
    runFrom (step sampleHeap sampleImage sampleUser) sampleBoot [.userTest 0] = some s ∧
      Enabled s (.exception 0 userStackStart) ∧
      Handles sampleHeap sampleImage sampleUser s (.exception 0 userStackStart) := by
  have hend : (runFrom (step sampleHeap sampleImage sampleUser) sampleBoot [.userTest 0]).map
      (fun s => (decide (Enabled s (.exception 0 userStackStart)), s.vm.pagesUsage 1000,
        decide ((sampleHeap.kmalloc s.vm.heap sizeofPagesBlock).1 = 0),
        match exec sampleHeap sampleImage sampleUser s (.exception 0 userStackStart) with
        | .ok _ => true
        | .error _ => false)) = some (true, false, false, true) := by decide +kernel
  obtain ⟨s, hrun, hs⟩ := Option.map_eq_some_iff.1 hend
  simp only [Prod.mk.injEq, decide_eq_true_eq, decide_eq_false_iff_not] at hs
  obtain ⟨henabled, hfree, hkmalloc, hok⟩ := hs
  have hreach : Reachable sampleHeap sampleImage sampleUser s := ⟨sampleBoot, _, sampleBoot_boot, hrun⟩
  have hpos : 0 < freeCount s.vm.pagesUsage :=
    Finset.card_pos.2 ⟨1000, Finset.mem_filter.2 ⟨Finset.mem_range.2 (by decide), hfree⟩⟩
  refine ⟨s, hrun, henabled, (entry_handles_iff hreach henabled fun i hno => by cases hno).2 ?_⟩
  refine fun mm hmm hfind => ⟨Nat.lt_of_not_le fun hle => ?_, Or.inr hkmalloc⟩
  -- the assertion does not fail
  rw [(hreach.invariant.exception_short_iff henabled).2 ⟨mm, hmm, hfind, hpos, hle⟩] at hok
  cases hok

/-! ## The last page -/

/-- A state after boot in which six pages of the pool are free. -/
def sampleShort : KernelState (List Nat) :=
  { sampleBoot with vm := { sampleBoot.vm with pagesUsage := fun k => decide (6 ≤ k) } }

theorem sampleShort_boot : Boot sampleImage sampleShort :=
  ⟨sampleBoot_boot.zero, sampleBoot_boot.user, sampleBoot_boot.slots, sampleBoot_boot.unused,
    sampleBoot_boot.stack, sampleBoot_boot.pgDir, sampleBoot_boot.mm⟩

/-- A step of a task without user memory gives no page back. -/
theorem StepOf.used {j k : Nat} {s' : KernelState κ} (hs : StepOf img u j s s')
    (hempty : (s.tasks j).pgDir = 0) (hk : k < maxNumPages) (hused : s.vm.pagesUsage k = true) :
    s'.vm.pagesUsage k = true := by
  refine inPool_usage hk fun hfree => ?_
  rcases hs.moves.released (frame k) hfree with hold | hown | hout
  · have hfree' := (freeFrame_frame hk).1 hold
    rw [hused] at hfree'
    cases hfree'
  · rw [taskFootprint_of_pgDir hempty] at hown
    exact hown
  · exact hout.1 (inPool_frame.2 hk)

theorem sampleFault_starves : ∃ s,
    runFrom (step sampleHeap sampleImage sampleUser) sampleShort [.userTest 0] = some s ∧
      Enabled s (.exception 0 userStackStart) ∧
      exec sampleHeap sampleImage sampleUser s (.exception 0 userStackStart) = .error .assertFailed ∧
      ¬Handles sampleHeap sampleImage sampleUser s (.exception 0 userStackStart) := by
  have hend : (runFrom (step sampleHeap sampleImage sampleUser) sampleShort [.userTest 0]).map
      (fun s => (decide (Enabled s (.exception 0 userStackStart)), (s.tasks 0).mm.map fun mm =>
        ((findVma mm.mmap userStackStart).isSome,
          (List.range 5).all s.vm.pagesUsage, s.vm.pagesUsage 5,
          missing (hasTable s.vm.mem (physical true (s.tasks 0).pgDir)) (tablePaths userStackStart)))) =
      some (true, some (true, true, false, 1)) := by decide +kernel
  obtain ⟨s, hrun, hs⟩ := Option.map_eq_some_iff.1 hend
  obtain ⟨henabled, hmm⟩ := Prod.mk.inj hs
  obtain ⟨mm, hmm, hvalues⟩ := Option.map_eq_some_iff.1 hmm
  simp only [Prod.mk.injEq, List.all_eq_true, List.mem_range] at hvalues
  obtain ⟨hfind, hbelow, hlast, hmissing⟩ := hvalues
  have hreach : Reachable sampleHeap sampleImage sampleUser s := ⟨sampleShort, _, sampleShort_boot, hrun⟩
  -- the other pages have been in use from the start
  have hstep : StepOf sampleImage sampleUser 0 sampleShort s := by
    obtain ⟨s₁, hfirst, hnil⟩ := runFrom_cons.1 hrun
    obtain rfl := Option.some.inj hnil
    obtain ⟨⟨hlive, hdir, huser⟩, hexec⟩ := step_eq hfirst
    have hsteps := userTest_step (H := sampleHeap) (u := sampleUser) (boot_invariant sampleShort_boot) hlive hdir huser
    rw [show userTest sampleHeap sampleUser 0 sampleShort = _ from hexec] at hsteps
    exact hsteps.stepOf
  have hcount : freeCount s.vm.pagesUsage = 1 := by
    have hsingle : (Finset.range maxNumPages).filter (fun k => s.vm.pagesUsage k = false) = {5} := by
      ext k
      rw [Finset.mem_filter, Finset.mem_range, Finset.mem_singleton]
      constructor
      · rintro ⟨hk, hfree⟩
        by_contra hne
        rcases Nat.lt_or_ge k 5 with hlt | hge
        · rw [hbelow k hlt] at hfree
          cases hfree
        · have hused : 6 ≤ k := by omega
          rw [hstep.used rfl hk (decide_eq_true hused)] at hfree
          cases hfree
      · rintro rfl
        exact ⟨by decide, hlast⟩
    rw [freeCount, hsingle, Finset.card_singleton]
  suffices hstarve : Starves sampleHeap s (.exception 0 userStackStart) by
    have hassert := (hreach.invariant.exception_short_iff (of_decide_eq_true henabled)).2 hstarve
    exact ⟨s, hrun, of_decide_eq_true henabled, hassert, fun hhandles => hhandles.asserts hassert⟩
  refine ⟨mm, hmm, fun hno => ?_, ?_, ?_⟩
  · rw [hno] at hfind
    cases hfind
  · rw [hcount]
    exact Nat.one_pos
  · rw [hcount, hmissing]

end Kernel
end ToutOS
