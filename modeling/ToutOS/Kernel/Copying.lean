import ToutOS.Kernel.Brk

/-!
# Copying — new address spaces: what `user_test` and `sys_fork` build

* `NewSpace`, `newSpace_spec` — when the vmas of a new address space are mapped into an empty
  directory, the invariant holds;
* `Filled` — the blocks of the vmas that `sys_fork` has set up so far, all from free pages;
* `Copied` — the vmas of the parent that have been dealt with and their copies;
* `forkVmas_spec` — the loop of `sys_fork`, also when it is left with an error.
-/

namespace ToutOS
namespace Kernel

open Base Mm

variable {κ : Type} {H : KernelHeap κ} {d : Nat} {vm : VmState κ} {mm : MmStruct}

/-! ## Mapping the vmas of a new address space -/

/-- The vmas `mm` can be mapped into the empty directory `d`. -/
structure NewSpace (usage : PagesUsage) (d : Nat) (mm : MmStruct) : Prop where
  layout : Layout mm
  blocks_valid : ∀ pb ∈ blocks mm.mmap, pb.Valid
  blocks_nodup : (blockFrames mm.mmap).Nodup
  blocks_used : ∀ a ∈ blockFrames mm.mmap, ¬FreeFrame usage a
  dir_pool : InPool d ∧ IsPage d
  dir_used : ¬FreeFrame usage d
  dir_blocks : d ∉ blockFrames mm.mmap
  target : ∀ x ∈ mm.mmap, x.lma ≠ noLma → ∀ p, x.covers p = true →
    InImage (x.target (pageAddr p)) ∨ x.target (pageAddr p) ∈ blockFrames mm.mmap
  target_inj : ∀ x ∈ mm.mmap, ∀ y ∈ mm.mmap, x.lma ≠ noLma → y.lma ≠ noLma → ∀ p q,
    x.covers p = true → y.covers q = true → x.target (pageAddr p) = y.target (pageAddr q) →
    InPool (x.target (pageAddr p)) → pageAddr p = pageAddr q

theorem not_inPool_of_inImage {a : Nat} (h : InImage a) : ¬InPool a := by
  simp only [InImage, InPool, lmaUser, userSize, uartBase, pageSize, frame] at *
  omega

theorem pageAddr_pageAddr (v : Nat) : pageAddr (pageAddr v) = pageAddr v := by
  simp only [pageAddr, pageSize]
  omega

/-- What is mapped afterwards. -/
theorem mapped_of_empty {m m' : Mem}
    (hempty : ∀ v, lookup true m d v = none)
    (hlook : ∀ v, v < 2 ^ 39 →
      (lookup true m d v = none → ∀ x ∈ mm.mmap, x.lma ≠ noLma → x.covers (pageAddr v) = true →
        lookup true m' d v = some (x.target (pageAddr v))) ∧
      ((∀ x ∈ mm.mmap, x.lma ≠ noLma → x.covers (pageAddr v) = false) →
        lookup true m' d v = lookup true m d v)) {v a : Nat} (ha : lookup true m' d v = some a) :
    ∃ x ∈ mm.mmap, x.lma ≠ noLma ∧ x.covers (pageAddr (v % 2 ^ 39)) = true ∧
      a = x.target (pageAddr (v % 2 ^ 39)) := by
  rw [← lookup_mod] at ha
  obtain ⟨h₁, h₂⟩ := hlook _ (mod_window_lt v)
  by_contra hno
  have hnone : ∀ x ∈ mm.mmap, x.lma ≠ noLma → x.covers (pageAddr (v % 2 ^ 39)) = false := by
    intro x hx hlma
    by_contra hcov
    rw [Bool.not_eq_false] at hcov
    have := h₁ (hempty _) x hx hlma hcov
    rw [ha] at this
    exact hno ⟨x, hx, hlma, hcov, Option.some.inj this⟩
  rw [h₂ hnone, hempty] at ha
  cases ha

/-- A directory that is zero is an empty table. -/
theorem NewSpace.directory {usage : PagesUsage} {m : Mem} (hnew : NewSpace usage d mm)
    (hzero : ∀ x, InPage true d x → m x = 0) :
    linear true d ≠ 0 ∧ PtWf true m d {d} ∧ (∀ v, lookup true m d v = none) ∧
      ({d} : Set Nat) ⊆ usedFrames usage := by
  have hpages : Pages {d} := by
    rintro n rfl
    exact hnew.dir_pool.2
  obtain ⟨hwf, hempty⟩ := ptWf_empty (Set.mem_singleton d) hpages hzero
  refine ⟨?_, hwf, hempty, ?_⟩
  · simpa only [linear, if_true] using ne_zero_of_inPool hnew.dir_pool.1
  · rintro n rfl
    exact usedFrame_of_not_freeFrame hnew.dir_pool.1 hnew.dir_pool.2.1 hnew.dir_used

/-- The vmas of a new address space are mapped. -/
theorem newSpace_spec (hnew : NewSpace vm.pagesUsage d mm)
    (hzero : ∀ x, InPage true d x → vm.mem x = 0) :
    setupUserPageMappings (linear true d) mm.mmap vm = .error .assertFailed ∨
    ∃ vm' T', setupUserPageMappings (linear true d) mm.mmap vm = .ok vm' ∧ vm'.heap = vm.heap ∧
      SpaceOk vm'.mem d mm ∧ PtWf true vm'.mem d T' ∧
      TablesGrow true usedFrames d ⟨vm.mem, vm.pagesUsage⟩ ⟨vm'.mem, vm'.pagesUsage⟩ {d} T' ∧
      Local pageOf ({d} ∪ {a | a ∈ blockFrames mm.mmap}) (footprint vm'.mem d mm.mmap) vm.world
        vm'.world ∧
      ∀ v a, v < 2 ^ 39 → lookup true vm'.mem d v = some a → ∃ x ∈ mm.mmap, x.lma ≠ noLma ∧
        x.covers (pageAddr v) = true ∧ a = x.target (pageAddr v) := by
  obtain ⟨hdir, hwf, hempty, hT⟩ := hnew.directory hzero
  rcases setupUserPageMappings_spec hdir hnew.layout.vma hnew.layout.apart hwf hT with
    herr | ⟨vm', T', hrun, hheap, hwf', hgrow, hlook⟩
  · exact Or.inl herr
  have hmapped : ∀ {v a}, lookup true vm'.mem d v = some a → ∃ x ∈ mm.mmap, x.lma ≠ noLma ∧
      x.covers (pageAddr (v % 2 ^ 39)) = true ∧ a = x.target (pageAddr (v % 2 ^ 39)) := fun ha =>
    mapped_of_empty hempty (fun v hv => ⟨(hlook v hv).2.1, (hlook v hv).2.2⟩) ha
  -- the tables are the directory and pages that were free
  have htable : ∀ n ∈ T', n = d ∨ FreeFrame vm.pagesUsage n := by
    intro n hn
    have hused := hgrow.tables_given hn
    rcases hgrow.new n hn with hn' | hn'
    · exact Or.inl hn'
    · refine Or.inr (Classical.byContradiction fun hno => hn' ?_)
      exact usedFrame_of_not_freeFrame (UsedFrame.inPool hused) (UsedFrame.page hused).1 hno
  have hnoblock : ∀ n ∈ T', n ∉ blockFrames mm.mmap := by
    intro n hn hin
    rcases htable n hn with rfl | hfree
    · exact hnew.dir_blocks hin
    · exact hnew.blocks_used n hin hfree
  have hpool : ∀ n ∈ T', InPool n := fun n hn => UsedFrame.inPool (hgrow.tables_given hn)
  have hsub := tableFrames_subset hwf'
  have htarget : ∀ {v a}, lookup true vm'.mem d v = some a →
      InImage a ∨ a ∈ blockFrames mm.mmap := by
    intro v a ha
    obtain ⟨x, hx, hlma, hcov, rfl⟩ := hmapped ha
    have := hnew.target x hx hlma _ hcov
    rwa [pageAddr_pageAddr] at this
  have hblockpool : ∀ a ∈ blockFrames mm.mmap, InPool a := by
    intro a ha
    obtain ⟨pb, hpb, ha⟩ := List.mem_flatMap.1 ha
    exact ((hnew.blocks_valid pb hpb).mem_frames ha).1
  refine Or.inr ⟨vm', T', hrun, hheap, ⟨hnew.layout, ⟨ptWf_self hwf', fun n hn => hpool n (hsub hn),
    hnew.blocks_valid, hnew.blocks_nodup, fun n hn => hnoblock n (hsub hn), ?_, ?_⟩,
    ⟨?_, ?_, ?_, ?_, ?_⟩⟩, hwf', hgrow, ?_, ?_⟩
  · intro v a ha hin
    rcases htarget ha with himage | hblock
    · exact not_inPool_of_inImage himage (hpool a (hsub hin))
    · exact hnoblock a (hsub hin) hblock
  · intro v v' a ha ha' ha_pool
    obtain ⟨x, hx, hlma, hcov, rfl⟩ := hmapped ha
    obtain ⟨y, hy, hlma', hcov', heq⟩ := hmapped ha'
    have hpage := hnew.target_inj x hx y hy hlma hlma' _ _ hcov hcov'
      (by rw [pageAddr_pageAddr, pageAddr_pageAddr, heq]) (by rwa [pageAddr_pageAddr])
    rw [pageAddr_pageAddr, pageAddr_pageAddr] at hpage
    rw [pathOf_eq_iff]
    simp only [pageAddr, pageSize] at hpage
    omega
  · intro v a ha
    exact (htarget ha).symm.imp_left (hblockpool a)
  · intro v a hv ha
    obtain ⟨x, hx, -, hcov, -⟩ := hmapped ha
    rw [Nat.mod_eq_of_lt hv] at hcov
    exact ⟨x, hx, hcov⟩
  · intro x hx hlma v hv hcov
    exact (hlook v hv).2.1 (hempty v) x hx hlma hcov
  · -- a page that is filled on demand is not mapped yet
    intro x hx hlma v a hv hcov ha
    obtain ⟨y, hy, hlma', hcov', -⟩ := hmapped ha
    rw [Nat.mod_eq_of_lt hv] at hcov'
    rw [hnew.layout.unique hx hy hcov hcov'] at hlma
    exact absurd hlma hlma'
  · intro v a hge hlt ha x hx pb hpb hmem
    obtain ⟨y, hy, hlma', hcov', -⟩ := hmapped ha
    have hdvd := hnew.layout.brk_dvd
    rw [Nat.mod_eq_of_lt (hlt.trans (by decide))] at hcov'
    have hpage : mm.startBrk ≤ pageAddr v ∧ pageAddr v < maxBrkAddr := by
      simp only [pageAddr, pageSize, maxBrkAddr] at *
      omega
    exact absurd ((hnew.layout.vma y hy).heap hpage.1 hpage.2 hcov').2.1 hlma'
  · have hrest : ∀ a ∈ {a | a ∈ blockFrames mm.mmap}, ¬FreeFrame vm.pagesUsage a := hnew.blocks_used
    have hlocal := (local_of_tablesGrow hgrow hwf'.pages).frame hrest fun a ha hd => by
      obtain rfl : a = d := hd
      exact absurd ha hnew.dir_blocks
    refine hlocal.weaken subset_rfl ?_
    rintro a (ha | ha | ⟨ha_pool, v, ha⟩)
    · exact Or.inl (hsub ha)
    · exact Or.inr ha
    · rcases htarget ha with himage | hblock
      · exact absurd ha_pool (not_inPool_of_inImage himage)
      · exact Or.inr hblock
  · intro v a hv ha
    obtain ⟨x, hx, hlma, hcov, rfl⟩ := hmapped ha
    rw [Nat.mod_eq_of_lt hv] at hcov ⊢
    exact ⟨x, hx, hlma, hcov, rfl⟩

/-- The entries say whether a vma may be written. -/
theorem newSpace_leaf {vm' : VmState κ} (hnew : NewSpace vm.pagesUsage d mm)
    (hzero : ∀ x, InPage true d x → vm.mem x = 0)
    (hrun : setupUserPageMappings (linear true d) mm.mmap vm = .ok vm') {x : VmArea} (hx : x ∈ mm.mmap)
    (hlma : x.lma ≠ noLma) {v : Nat} (hv : v < 2 ^ 39) (hcov : x.covers (pageAddr v) = true) :
    leafPte true vm'.mem d v = some (descriptor (x.target (pageAddr v)) (userAttrs (!x.writable))) := by
  obtain ⟨hdir, hwf, hempty, hT⟩ := hnew.directory hzero
  exact setupUserPageMappings_leaf hdir hnew.layout.vma hnew.layout.apart hwf hT hrun x hx hlma v hv hcov
    (hempty v)

/-! ## Blocks from free pages -/

/-- A run of pages that is given back at once. -/
theorem freePages_undo {usage usage' : PagesUsage} {order page : Nat}
    (h : getFreePages usage order = (page, usage')) (hpage : page ≠ 0) :
    freePages usage' page order = .ok usage := by
  rcases getFreePages_spec h with ⟨hzero, -⟩ | ⟨first, rfl, hend, hpos, hfree, rfl⟩
  · exact absurd hzero hpage
  rw [freePages_spec hend hpos fun k h₁ h₂ => by simp [markPages, h₁, h₂]]
  congr 1
  funext k
  simp only [markPages]
  split_ifs with hk
  · exact (hfree k hk.1 hk.2).symm
  · rfl

/-- The pages of a block that has just been taken from the pool. -/
structure Taken (usage usage' : PagesUsage) (first order page : Nat) : Prop where
  page_eq : page = pagePoolStart + pageSize * first
  last_le : first + numOfOrder order ≤ maxNumPages
  pos : 0 < numOfOrder order
  free : ∀ k, first ≤ k → k < first + numOfOrder order → usage k = false
  usage_eq : usage' = markPages usage first (numOfOrder order) true

theorem taken_of_getFreePages {usage usage' : PagesUsage} {order page : Nat}
    (h : getFreePages usage order = (page, usage')) (hpage : page ≠ 0) :
    ∃ first, Taken usage usage' first order page := by
  rcases getFreePages_spec h with ⟨hzero, -⟩ | ⟨first, h₁, h₂, h₃, h₄, h₅⟩
  · exact absurd hzero hpage
  · exact ⟨first, h₁, h₂, h₃, h₄, h₅⟩

section Taken

variable {usage usage' : PagesUsage} {first order page : Nat} {pb : PagesBlock}

theorem Taken.mem_frames (h : Taken usage usage' first order page) (hlin : pb.linearAddr = page)
    (horder : pb.order = order) {a : Nat} :
    a ∈ pb.frames ↔ ∃ k, first ≤ k ∧ k < first + numOfOrder order ∧ a = frame k := by
  have hframes := PagesBlock.Valid.frames_eq (hlin.trans h.page_eq) (by rw [horder]; exact h.last_le)
    (by rw [horder]; exact h.pos)
  rw [hframes, horder, List.mem_map]
  constructor
  · rintro ⟨j, hj, rfl⟩
    have := List.mem_range.1 hj
    exact ⟨first + j, by omega, by omega, rfl⟩
  · rintro ⟨k, h₁, h₂, rfl⟩
    refine ⟨k - first, List.mem_range.2 (by omega), ?_⟩
    congr 1
    omega

theorem Taken.valid (h : Taken usage usage' first order page) (hlin : pb.linearAddr = page)
    (horder : pb.order = order) : pb.Valid ∧ pb.frames.Nodup := by
  have hend : first + numOfOrder pb.order ≤ maxNumPages := by rw [horder]; exact h.last_le
  have hpos : 0 < numOfOrder pb.order := by rw [horder]; exact h.pos
  refine ⟨⟨first, hlin.trans h.page_eq, hend, hpos⟩, ?_⟩
  rw [PagesBlock.Valid.frames_eq (hlin.trans h.page_eq) hend hpos]
  refine List.Nodup.map (fun i j hij => ?_) List.nodup_range
  have := frame_inj hij
  omega

/-- The bytes of the run. -/
theorem Taken.pageOf (h : Taken usage usage' first order page) {x : Nat} (h₁ : page ≤ x)
    (h₂ : x < page + pageSize * numOfOrder order) :
    ∃ k, first ≤ k ∧ k < first + numOfOrder order ∧ InPage true (frame k) x ∧ pageOf x = frame k := by
  have hend := h.last_le
  rw [h.page_eq] at h₁ h₂
  have hk : first ≤ (x - pagePoolStart) / pageSize ∧
      (x - pagePoolStart) / pageSize < first + numOfOrder order := by
    simp only [pageSize] at *
    omega
  have hlt : (x - pagePoolStart) / pageSize < maxNumPages := by omega
  have hin : InPage true (frame ((x - pagePoolStart) / pageSize)) x := by
    rw [InPage, linear_frame hlt]
    simp only [pageSize] at *
    omega
  exact ⟨_, hk.1, hk.2, hin, pageOf_of_inPage (isPage_frame hlt) hin⟩

end Taken

/-- The blocks of the vmas `mmap` have been filled from pages that were free in `vm₀`. -/
structure Filled (vm₀ vm : VmState κ) (mmap : List VmArea) : Prop where
  moves : Local pageOf ∅ {a | a ∈ blockFrames mmap} vm₀.world vm.world
  lossless : Lossless ∅ {a | a ∈ blockFrames mmap} vm₀.world vm.world
  valid : ∀ pb ∈ blocks mmap, pb.Valid
  nodup : (blockFrames mmap).Nodup
  unshared : ∀ x ∈ mmap, x.shared = true → x.pagesBlockList = []

variable {vm₀ : VmState κ} {mmap mmap' : List VmArea}

theorem filled_nil (vm₀ : VmState κ) : Filled vm₀ vm₀ [] := by
  have hempty : {a | a ∈ blockFrames []} = (∅ : Set Nat) := by
    ext a
    simp [blockFrames, blocks]
  refine ⟨?_, ?_, by simp [blocks], by simp [blockFrames, blocks], by simp⟩
  · rw [hempty]
    exact Local.refl fun a ha => ha.elim
  · rw [hempty]
    exact Lossless.refl _ _

theorem Filled.heap (h : Filled vm₀ vm mmap) (heap' : κ) : Filled vm₀ { vm with heap := heap' } mmap :=
  ⟨h.moves, h.lossless, h.valid, h.nodup, h.unshared⟩

/-- A vma without blocks is added. -/
theorem Filled.cons (h : Filled vm₀ vm mmap) {y : VmArea} (hy : y.pagesBlockList = []) (heap' : κ) :
    Filled vm₀ { vm with heap := heap' } (y :: mmap) := by
  have hblocks : blocks (y :: mmap) = blocks mmap := by simp [blocks, hy]
  obtain ⟨h₁, h₂, h₃, h₄, h₅⟩ := h
  unfold blockFrames at h₁ h₂ h₄
  rw [← hblocks] at h₁ h₂ h₃ h₄
  refine ⟨h₁, h₂, h₃, h₄, fun x hx hshared => ?_⟩
  rcases List.mem_cons.1 hx with rfl | hx
  · exact hy
  · exact h₅ x hx hshared

/-- The pages of the blocks are in use. -/
theorem Filled.used (h : Filled vm₀ vm mmap) {a : Nat} (ha : a ∈ blockFrames mmap) :
    ¬FreeFrame vm.pagesUsage a := h.moves.held a ha

/-- What was neither free nor taken is unchanged. -/
theorem Filled.same (h : Filled vm₀ vm mmap) {x : Nat} (hx : ¬FreeFrame vm₀.pagesUsage (pageOf x)) :
    vm.mem x = vm₀.mem x := h.moves.same x (fun hno => hno) hx

/-- A new block is added and its pages are written. -/
theorem Filled.add {usage' : PagesUsage} {first order page addr : Nat} {pb : PagesBlock} {m' : Mem}
    (h : Filled vm₀ vm mmap) (ht : Taken vm.pagesUsage usage' first order page)
    (hlin : pb.linearAddr = page) (horder : pb.order = order) (hfind : findVma mmap addr ≠ none)
    (hunshared : ∀ x ∈ mmap, x.covers addr = true → x.shared = false)
    (hmem : ∀ x, ¬(page ≤ x ∧ x < page + pageSize * numOfOrder order) → m' x = vm.mem x)
    (heap' : κ) :
    Filled vm₀ { mem := m', pagesUsage := usage', heap := heap' }
      (updateVma addr (appendBlock pb) mmap) := by
  have hperm := @blocks_appendBlock mmap addr pb hfind
  have hframes : (blockFrames (updateVma addr (appendBlock pb) mmap)).Perm
      (pb.frames ++ blockFrames mmap) := by
    have hflat := hperm.flatMap_right PagesBlock.frames
    rw [List.flatMap_cons] at hflat
    exact hflat
  have hnew : ∀ a ∈ pb.frames, FreeFrame vm.pagesUsage a := by
    intro a ha
    obtain ⟨k, h₁, h₂, rfl⟩ := (ht.mem_frames hlin horder).1 ha
    have := ht.last_le
    exact ⟨k, by omega, ht.free k h₁ h₂, rfl⟩
  obtain ⟨hvalid, hnodup⟩ := ht.valid hlin horder
  refine ⟨?_, ?_, ?_, ?_, ?_⟩
  · -- the pages are taken, then written
    have htake := @local_markPages vm.mem _ first (numOfOrder order) _ ht.last_le ht.free
      fun a ha => h.used ha
    have hwrite : Local pageOf
        ({a | a ∈ blockFrames mmap} ∪ {a | ∃ k, first ≤ k ∧ k < first + numOfOrder order ∧ a = frame k})
        {a | a ∈ blockFrames (updateVma addr (appendBlock pb) mmap)}
        { mem := vm.mem, free := FreeFrame (markPages vm.pagesUsage first (numOfOrder order) true) }
        { mem := m', free := FreeFrame (markPages vm.pagesUsage first (numOfOrder order) true) } := by
      have hsub : ∀ a ∈ blockFrames (updateVma addr (appendBlock pb) mmap),
          a ∈ {a | a ∈ blockFrames mmap} ∪
            {a | ∃ k, first ≤ k ∧ k < first + numOfOrder order ∧ a = frame k} := by
        intro a ha
        rcases List.mem_append.1 (hframes.mem_iff.1 ha) with ha | ha
        · exact Or.inr ((ht.mem_frames hlin horder).1 ha)
        · exact Or.inl ha
      refine ⟨?_, fun a ha => Or.inl (hsub a ha), fun a ha => Or.inl ha, fun a ha =>
        htake.held a (hsub a ha)⟩
      intro x hx _
      refine hmem x fun hin => hx (Or.inr ?_)
      obtain ⟨k, h₁, h₂, -, hpage⟩ := ht.pageOf hin.1 hin.2
      exact ⟨k, h₁, h₂, hpage⟩
    have hworld : VmState.world { mem := m', pagesUsage := usage', heap := heap' } =
        { mem := m', free := FreeFrame (markPages vm.pagesUsage first (numOfOrder order) true) } := by
      rw [VmState.world, ht.usage_eq]
    rw [hworld]
    exact h.moves.trans (htake.trans hwrite)
  · intro a ha
    have htake := @lossless_markPages vm.mem vm.pagesUsage first (numOfOrder order)
      {a | a ∈ blockFrames mmap} a (h.lossless a ha)
    rw [← ht.usage_eq] at htake
    refine htake.imp_right fun hin => hframes.mem_iff.2 (List.mem_append.2 ?_)
    exact hin.symm.imp_left (ht.mem_frames hlin horder).2
  · intro p hp
    rcases List.mem_cons.1 (hperm.mem_iff.1 hp) with rfl | hp
    · exact hvalid
    · exact h.valid p hp
  · rw [hframes.nodup_iff, List.nodup_append]
    refine ⟨hnodup, h.nodup, fun a ha b hb hab => ?_⟩
    subst hab
    exact h.used hb (hnew a ha)
  · intro x hx hshared
    rcases mem_updateVma hx with hx | ⟨y, hy, rfl⟩
    · exact h.unshared x hx hshared
    · obtain ⟨hmem', hcov⟩ := findVma_mem hy
      have hno := hunshared y hmem' hcov
      rw [show (appendBlock pb y).shared = y.shared from rfl, hno] at hshared
      cases hshared

/-! ## The calls of the loop -/

theorem setupVma_cases (heap : κ) (mmap : List VmArea) (vmStart vmEnd vmFlags lma : Nat) :
    (∃ heap', setupVma H heap mmap vmStart vmEnd vmFlags lma = (false, mmap, heap')) ∨
    ∃ heap' self, setupVma H heap mmap vmStart vmEnd vmFlags lma =
      (true, ⟨self, vmStart, vmEnd, vmFlags, lma, []⟩ :: mmap, heap') := by
  rcases hcall : H.kmalloc heap sizeofVmArea with ⟨self, heap'⟩
  by_cases hself : self = 0
  · exact Or.inl ⟨heap', by simp only [setupVma, hcall, if_pos hself]⟩
  · exact Or.inr ⟨heap', self, by simp only [setupVma, hcall, if_neg hself]⟩

theorem addPagesBlock_cases (heap : κ) (mmap : List VmArea) (addr userVirtAddr linearAddr order : Nat) :
    (∃ heap', addPagesBlock H heap mmap addr userVirtAddr linearAddr order = (false, mmap, heap')) ∨
    ∃ heap' pb, findVma mmap addr ≠ none ∧ pb.linearAddr = linearAddr ∧ pb.order = order ∧
      addPagesBlock H heap mmap addr userVirtAddr linearAddr order =
        (true, updateVma addr (appendBlock pb) mmap, heap') := by
  by_cases hnull : findVma mmap addr = none ∨ userVirtAddr = 0 ∨ linearAddr = 0
  · exact Or.inl ⟨heap, by rw [addPagesBlock, if_pos hnull]⟩
  · rw [not_or, not_or] at hnull
    rcases addPagesBlock_spec (H := H) heap order hnull.1 hnull.2.1 hnull.2.2 with
      ⟨heap', hadd, -⟩ | ⟨-, heap', pb, -, h₂, h₃, hadd⟩
    · exact Or.inl ⟨heap', hadd⟩
    · exact Or.inr ⟨heap', pb, hnull.1, h₂, h₃, hadd⟩

/-! ## Copies of vmas -/

/-- What a vma and its copy have in common. -/
def VmArea.area (x : VmArea) : Nat × Nat × Nat × Bool := (x.vmStart, x.vmEnd, x.vmFlags, x.lma = noLma)

/-- The vma is mapped as a whole, to pages of its own. -/
def VmArea.Private (x : VmArea) : Prop := x.shared = false ∧ x.lma ≠ noLma

/-- The pages of `y` are among `frames` and hold what the pages of the parent held in `vm₀`. -/
structure PrivateCopy (vm₀ vm : VmState κ) (pgDir : Nat) (frames : List Nat) (y : VmArea) : Prop where
  lma_dvd : pageSize ∣ y.lma
  lma_le : y.lma + (y.vmEnd - y.vmStart) ≤ 2 ^ 48
  target : ∀ p, y.covers p = true → y.target (pageAddr p) ∈ frames
  content : ∀ p, y.covers p = true →
    vm.mem (va (y.target (pageAddr p)) + p % pageSize) = vm₀.mem (userByteAddr vm₀.mem pgDir p)

/-- The vmas `vmas` of the parent have been copied to `mmap`, the last one first. -/
structure Copied (vm₀ : VmState κ) (pgDir : Nat) (vmas : List VmArea) (vm : VmState κ)
    (mmap : List VmArea) : Prop where
  filled : Filled vm₀ vm mmap
  areas : mmap.map VmArea.area = (vmas.map VmArea.area).reverse
  shared : ∀ y ∈ mmap, y.shared = true → ∃ x ∈ vmas, x.area = y.area ∧ y.lma = x.lma
  private_ : ∀ y ∈ mmap, y.Private → PrivateCopy vm₀ vm pgDir (blockFrames mmap) y
  inj : ∀ y ∈ mmap, ∀ z ∈ mmap, y.Private → z.Private → ∀ p q, y.covers p = true →
    z.covers q = true → y.target (pageAddr p) = z.target (pageAddr q) → pageAddr p = pageAddr q

theorem area_of_bare {x y : VmArea} (h : y.bare = x.bare) : y.area = x.area := by
  have := congrArg VmArea.area h
  exact this

theorem map_area_of_bare (h : mmap'.map VmArea.bare = mmap.map VmArea.bare) :
    mmap'.map VmArea.area = mmap.map VmArea.area := by
  have hcomp : VmArea.area = VmArea.area ∘ VmArea.bare := rfl
  rw [hcomp, ← List.map_map, ← List.map_map, h]

theorem private_of_bare {x y : VmArea} (h : y.bare = x.bare) : y.Private ↔ x.Private := by
  rw [VmArea.Private, VmArea.Private, shared_congr h, lma_congr h]

/-- A page of a vma, seen in the list in which it has no blocks yet. -/
theorem bare_page {l : List VmArea} (h : mmap'.map VmArea.bare = l.map VmArea.bare) {z : VmArea} {p : Nat}
    (hz : z ∈ mmap') (hp : z.Private) (hcov : z.covers p = true) :
    ∃ w ∈ l, w.Private ∧ w.covers p = true ∧ w.target (pageAddr p) = z.target (pageAddr p) := by
  obtain ⟨w, hw, hb⟩ := bare_mem h hz
  exact ⟨w, hw, (private_of_bare hb).2 hp, (covers_congr hb p).trans hcov, target_congr hb _⟩

theorem PrivateCopy.mono {vm' : VmState κ} {pgDir : Nat} {frames frames' : List Nat} {y z : VmArea}
    (h : PrivateCopy vm₀ vm pgDir frames y) (hb : y.bare = z.bare) (hsub : frames ⊆ frames')
    (hsame : ∀ a ∈ frames, ∀ x, InPage true a x → vm'.mem x = vm.mem x) :
    PrivateCopy vm₀ vm' pgDir frames' z := by
  have hlma := lma_congr hb
  obtain ⟨hstart, hend⟩ := range_congr hb
  refine ⟨hlma ▸ h.lma_dvd, ?_, ?_, ?_⟩
  · rw [← hlma, ← hstart, ← hend]
    exact h.lma_le
  · intro p hp
    rw [← covers_congr hb] at hp
    rw [← target_congr hb]
    exact hsub (h.target p hp)
  · intro p hp
    rw [← covers_congr hb] at hp
    rw [← target_congr hb, hsame _ (h.target p hp), h.content p hp]
    have := Nat.mod_lt p (show 0 < pageSize by decide)
    simp only [InPage, linear, if_true]
    omega

section Grow

variable {pgDir : Nat} {vmas : List VmArea} {vm' : VmState κ}

/-- One more vma has been copied: `y` stands for `x`. -/
theorem Copied.grow (hc : Copied vm₀ pgDir vmas vm mmap) (hfilled : Filled vm₀ vm' mmap') {x y : VmArea}
    (hbare : mmap'.map VmArea.bare = (y :: mmap).map VmArea.bare)
    (hsub : blockFrames mmap ⊆ blockFrames mmap')
    (hsame : ∀ a ∈ blockFrames mmap, ∀ z, InPage true a z → vm'.mem z = vm.mem z)
    (harea : y.area = x.area) (hshared : y.shared = true → y.lma = x.lma)
    (hstart : pageSize ∣ y.vmStart)
    (hpriv : y.Private → PrivateCopy vm₀ vm' pgDir (blockFrames mmap') y ∧
      ∀ p, y.covers p = true → y.target (pageAddr p) ∉ blockFrames mmap) :
    Copied vm₀ pgDir (vmas ++ [x]) vm' mmap' := by
  refine ⟨hfilled, ?_, ?_, ?_, ?_⟩
  · rw [map_area_of_bare hbare, List.map_cons, hc.areas, harea]
    simp
  · intro z hz hsh
    obtain ⟨w, hw, hb⟩ := bare_mem hbare hz
    rw [← shared_congr hb] at hsh
    rcases List.mem_cons.1 hw with rfl | hw
    · exact ⟨x, by simp, harea.symm.trans (area_of_bare hb), (lma_congr hb).symm.trans (hshared hsh)⟩
    · obtain ⟨u, hu, harea', hlma⟩ := hc.shared w hw hsh
      exact ⟨u, by simp [hu], harea'.trans (area_of_bare hb), (lma_congr hb).symm.trans hlma⟩
  · intro z hz hp
    obtain ⟨w, hw, hb⟩ := bare_mem hbare hz
    rw [← private_of_bare hb] at hp
    rcases List.mem_cons.1 hw with rfl | hw
    · exact (hpriv hp).1.mono hb (List.Subset.refl _) fun _ _ _ _ => rfl
    · exact (hc.private_ w hw hp).mono hb hsub hsame
  · intro z hz z' hz' hp hp' p q hcov hcov' heq
    obtain ⟨w, hw, hp, hcov, ht⟩ := bare_page hbare hz hp hcov
    obtain ⟨w', hw', hp', hcov', ht'⟩ := bare_page hbare hz' hp' hcov'
    rw [← ht, ← ht'] at heq
    rcases List.mem_cons.1 hw with rfl | hw₁ <;> rcases List.mem_cons.1 hw' with rfl | hw₂
    · -- two pages of one vma
      rw [VmArea.covers_iff] at hcov hcov'
      simp only [VmArea.target, pageAddr, pageSize] at *
      omega
    · exact absurd ((hc.private_ w' hw₂ hp').target q hcov') (heq ▸ (hpriv hp).2 p hcov)
    · exact absurd ((hc.private_ w hw₁ hp).target p hcov) (heq ▸ (hpriv hp').2 q hcov')
    · exact hc.inj w hw₁ w' hw₂ hp hp' p q hcov hcov' heq

/-- Blocks have been added to vmas that had been copied before. -/
theorem Copied.fill (hc : Copied vm₀ pgDir vmas vm mmap) (hfilled : Filled vm₀ vm' mmap')
    (hbare : mmap'.map VmArea.bare = mmap.map VmArea.bare)
    (hsub : blockFrames mmap ⊆ blockFrames mmap')
    (hsame : ∀ a ∈ blockFrames mmap, ∀ z, InPage true a z → vm'.mem z = vm.mem z) :
    Copied vm₀ pgDir vmas vm' mmap' := by
  refine ⟨hfilled, (map_area_of_bare hbare).trans hc.areas, ?_, ?_, ?_⟩
  · intro z hz hsh
    obtain ⟨w, hw, hb⟩ := bare_mem hbare hz
    rw [← shared_congr hb] at hsh
    obtain ⟨u, hu, harea, hlma⟩ := hc.shared w hw hsh
    exact ⟨u, hu, harea.trans (area_of_bare hb), (lma_congr hb).symm.trans hlma⟩
  · intro z hz hp
    obtain ⟨w, hw, hb⟩ := bare_mem hbare hz
    rw [← private_of_bare hb] at hp
    exact (hc.private_ w hw hp).mono hb hsub hsame
  · intro z hz z' hz' hp hp' p q hcov hcov' heq
    obtain ⟨w, hw, hp, hcov, ht⟩ := bare_page hbare hz hp hcov
    obtain ⟨w', hw', hp', hcov', ht'⟩ := bare_page hbare hz' hp' hcov'
    rw [← ht, ← ht'] at heq
    exact hc.inj w hw w' hw' hp hp' p q hcov hcov' heq

end Grow

/-! ## The loop of `sys_fork` -/

section Fork

variable {pgDir : Nat} {vmas : List VmArea} {parent : MmStruct}

/-- The vmas of a copy are where those of the parent are. -/
theorem Copied.original (hc : Copied vm₀ pgDir vmas vm mmap) {y : VmArea} (hy : y ∈ mmap) :
    ∃ x ∈ vmas, x.area = y.area := by
  have hmem : y.area ∈ (vmas.map VmArea.area).reverse :=
    hc.areas ▸ List.mem_map_of_mem hy
  rw [List.mem_reverse] at hmem
  obtain ⟨x, hx, harea⟩ := List.mem_map.1 hmem
  exact ⟨x, hx, harea⟩

theorem Copied.copy (hc : Copied vm₀ pgDir vmas vm mmap) {x : VmArea} (hx : x ∈ vmas) :
    ∃ y ∈ mmap, y.area = x.area := by
  have hmem : x.area ∈ mmap.map VmArea.area := by
    rw [hc.areas, List.mem_reverse]
    exact List.mem_map_of_mem hx
  obtain ⟨y, hy, harea⟩ := List.mem_map.1 hmem
  exact ⟨y, hy, harea⟩

theorem area_eq {x y : VmArea} (h : x.area = y.area) :
    x.vmStart = y.vmStart ∧ x.vmEnd = y.vmEnd ∧ x.vmFlags = y.vmFlags ∧
      (x.lma = noLma ↔ y.lma = noLma) := by
  simpa [VmArea.area] using h

theorem covers_of_area {x y : VmArea} (h : x.area = y.area) (p : Nat) : x.covers p = y.covers p := by
  obtain ⟨h₁, h₂, -, -⟩ := area_eq h
  rw [VmArea.covers, VmArea.covers, h₁, h₂]

theorem shared_of_area {x y : VmArea} (h : x.area = y.area) : x.shared = y.shared := by
  obtain ⟨-, -, h₃, -⟩ := area_eq h
  rw [VmArea.shared, VmArea.shared, h₃]

/-- The vma that gets the blocks of a vma that is not shared is not shared. -/
theorem Copied.unshared (hc : Copied vm₀ pgDir vmas vm mmap) {addr : Nat}
    (haddr : ∀ x ∈ vmas, x.shared = true → x.covers addr = false) :
    ∀ z ∈ mmap, z.covers addr = true → z.shared = false := by
  intro z hz hcov
  obtain ⟨x, hx, harea⟩ := hc.original hz
  by_contra hshared
  rw [Bool.not_eq_false, ← shared_of_area harea] at hshared
  rw [← covers_of_area harea, haddr x hx hshared] at hcov
  cases hcov

/-- What the copying of a vma may end with: an address space to give back, or one more vma. -/
def ForkOk (vm₀ : VmState κ) (pgDir : Nat) (vmas : List VmArea) (fs : ForkState κ) : Prop :=
  Filled vm₀ fs.vm fs.mmap ∧ (fs.ok = true → Copied vm₀ pgDir vmas fs.vm fs.mmap)

/-- Nothing but blocks is added to the lists of `mmap`, and their pages are the only ones written. -/
theorem blockFrames_append_subset {addr : Nat} {pb : PagesBlock} (hfind : findVma mmap addr ≠ none) :
    blockFrames mmap ⊆ blockFrames (updateVma addr (appendBlock pb) mmap) := by
  intro a ha
  obtain ⟨p, hp, ha⟩ := List.mem_flatMap.1 ha
  exact List.mem_flatMap.2 ⟨p, (blocks_appendBlock hfind).mem_iff.2 (List.mem_cons_of_mem _ hp), ha⟩

/-- The pages of a run that has just been taken hold no page in use. -/
theorem Taken.inPage {usage usage' : PagesUsage} {first order page a x : Nat}
    (h : Taken usage usage' first order page) (ha : ¬FreeFrame usage a) (hpage : IsPage a)
    (hx : InPage true a x) : ¬(page ≤ x ∧ x < page + pageSize * numOfOrder order) := by
  rintro ⟨h₁, h₂⟩
  obtain ⟨k, hk₁, hk₂, hin, -⟩ := h.pageOf h₁ h₂
  have hlt : k < maxNumPages := by
    have := h.last_le
    omega
  rw [inPage_unique hpage (isPage_frame hlt) hx hin] at ha
  exact ha ⟨k, hlt, h.free k hk₁ hk₂, rfl⟩

theorem Filled.isPage (h : Filled vm₀ vm mmap) {a : Nat} (ha : a ∈ blockFrames mmap) : IsPage a := by
  obtain ⟨pb, hpb, ha⟩ := List.mem_flatMap.1 ha
  exact ((h.valid pb hpb).mem_frames ha).2

/-- The pages of a vma that is filled on demand. -/
theorem forkBlocks_spec (vmStart : Nat)
    (hstart : ∀ x ∈ vmas, x.shared = true → x.covers vmStart = false) :
    ∀ {pbs : List PagesBlock} {vm : VmState κ} {mmap : List VmArea},
      Copied vm₀ pgDir vmas vm mmap →
      ∃ fs, forkBlocks H vmStart pbs vm mmap = .ok fs ∧ ForkOk vm₀ pgDir vmas fs := by
  intro pbs
  induction pbs with
  | nil =>
      intro vm mmap hc
      exact ⟨_, rfl, hc.filled, fun _ => hc⟩
  | cons pb pbs ih =>
      intro vm mmap hc
      rcases hget : getFreePages vm.pagesUsage 0 with ⟨page, usage⟩
      simp only [forkBlocks, hget]
      by_cases hpage : page = 0
      · rw [if_pos hpage]
        exact ⟨_, rfl, hc.filled, fun hok => by cases hok⟩
      rw [if_neg hpage]
      obtain ⟨first, ht⟩ := taken_of_getFreePages hget hpage
      rcases addPagesBlock_cases (H := H) vm.heap mmap vmStart pb.userVirtAddr page 0 with
        ⟨heap', hadd⟩ | ⟨heap', new, hfind, hlin, horder, hadd⟩
      · simp only [hadd, Bool.false_eq_true, if_false, freePages_undo hget hpage, except_map_ok]
        exact ⟨_, rfl, hc.filled.heap _, fun hok => by cases hok⟩
      · simp only [hadd, if_true]
        have hmem : ∀ x, ¬(page ≤ x ∧ x < page + pageSize * numOfOrder 0) →
            copy vm.mem page pb.linearAddr pageSize x = vm.mem x := by
          intro x hx
          rw [numOfOrder_zero, Nat.mul_one] at hx
          simp only [copy, if_neg hx]
        refine ih (hc.fill (hc.filled.add ht hlin horder hfind (hc.unshared hstart) hmem heap')
          (map_bare_updateVma (f := appendBlock new) (fun _ => rfl) mmap)
          (blockFrames_append_subset hfind) ?_)
        intro a ha x hx
        exact hmem x (ht.inPage (hc.filled.used ha) (hc.filled.isPage ha) hx)

/-- The parent does not notice what happens in free pages. -/
theorem Filled.keeps (h : Filled vm₀ vm mmap) (hp : SpaceOk vm₀.mem d parent)
    (hused : ∀ a ∈ footprint vm₀.mem d parent.mmap, ¬FreeFrame vm₀.pagesUsage a) :
    (∀ v, lookup true vm.mem d v = lookup true vm₀.mem d v) ∧
      ∀ v a, lookup true vm₀.mem d v = some a → ∀ x, InPage true a x → vm.mem x = vm₀.mem x := by
  constructor
  · intro v
    refine lookup_frame hp.holdings.tables (fun n hn x hx => h.same ?_) v
    rw [pageOf_of_inPage (hp.holdings.tables.pages n hn) hx]
    exact hused n (Or.inl hn)
  · intro v a ha x hx
    refine h.same fun hfree => ?_
    rw [pageOf_of_inPage (isPage_of_lookup ha) hx] at hfree
    exact hused a (Or.inr (Or.inr ⟨FreeFrame.inPool hfree, v, ha⟩)) hfree

/-- A user byte of the parent. -/
theorem Filled.userByte (h : Filled vm₀ vm mmap) (hp : SpaceOk vm₀.mem (physical true pgDir) parent)
    (hused : ∀ a ∈ footprint vm₀.mem (physical true pgDir) parent.mmap, ¬FreeFrame vm₀.pagesUsage a)
    {p a : Nat} (ha : lookup true vm₀.mem (physical true pgDir) p = some a) :
    vm.mem (userByteAddr vm.mem pgDir p) = vm₀.mem (userByteAddr vm₀.mem pgDir p) := by
  obtain ⟨hlook, hbytes⟩ := h.keeps hp hused
  have hframe : userFrame vm.mem pgDir p = userFrame vm₀.mem pgDir p := hlook p
  have hsome : userFrame vm₀.mem pgDir p = some a := ha
  rw [userByteAddr, userByteAddr, hframe, hsome, Option.getD_some]
  refine hbytes p a ha _ ?_
  have := Nat.mod_lt p (show 0 < pageSize by decide)
  simp only [InPage, linear, if_true]
  omega

theorem copyFromUser_ok {m m' : Mem} {dst virtAddr n : Nat}
    (h : copyFromUser m pgDir dst virtAddr n = .ok m') :
    (∀ x, dst ≤ x → x < dst + n → m' x = m (userByteAddr m pgDir (virtAddr + (x - dst)))) ∧
      ∀ x, ¬(dst ≤ x ∧ x < dst + n) → m' x = m x := by
  unfold copyFromUser at h
  split_ifs at h
  obtain rfl := Except.ok.inj h
  exact ⟨fun x h₁ h₂ => if_pos ⟨h₁, h₂⟩, fun x hx => if_neg hx⟩

/-- The page in the run of a copy that stands for a page of the vma. -/
theorem Taken.target {usage usage' : PagesUsage} {first order page p : Nat} {y : VmArea}
    (h : Taken usage usage' first order page) (hlma : y.lma = pa page)
    (hstart : pageSize ∣ y.vmStart) (hsize : y.vmEnd - y.vmStart ≤ pageSize * numOfOrder order)
    (hcov : y.covers p = true) :
    ∃ k, first ≤ k ∧ k < first + numOfOrder order ∧ y.target (pageAddr p) = frame k ∧
      va (y.target (pageAddr p)) + p % pageSize = page + (p - y.vmStart) := by
  have hend := h.last_le
  have hpos := h.pos
  have hframe : y.lma = frame first := by rw [hlma, h.page_eq, pa_pagePool (by omega)]
  rw [VmArea.covers_iff] at hcov
  have hk : (pageAddr p - y.vmStart) / pageSize < numOfOrder order ∧
      pageAddr p - y.vmStart = pageSize * ((pageAddr p - y.vmStart) / pageSize) ∧
      pageAddr p - y.vmStart + p % pageSize = p - y.vmStart := by
    simp only [pageAddr, pageSize] at *
    omega
  have htarget : y.target (pageAddr p) = frame (first + (pageAddr p - y.vmStart) / pageSize) := by
    rw [VmArea.target, hframe]
    simp only [frame, pageSize] at *
    omega
  have hlt := Nat.add_lt_add_left hk.1 first
  refine ⟨first + (pageAddr p - y.vmStart) / pageSize, Nat.le_add_right _ _, hlt, htarget, ?_⟩
  rw [htarget, va_frame (hlt.trans_le hend), h.page_eq]
  simp only [pageSize] at *
  omega

/-- A vma that is mapped as a whole, to pages of its own. -/
theorem forkStatic_spec (hp : SpaceOk vm₀.mem (physical true pgDir) parent)
    (hused : ∀ a ∈ footprint vm₀.mem (physical true pgDir) parent.mmap, ¬FreeFrame vm₀.pagesUsage a)
    (hsep : SharedApart parent.mmap) (hvmas : ∀ x ∈ vmas, x ∈ parent.mmap)
    (hc : Copied vm₀ pgDir vmas vm mmap) {x : VmArea} (hx : x ∈ parent.mmap) (hpriv : x.Private) :
    forkStatic H pgDir x vm mmap = .error .kernelPanic ∨
    ∃ fs, forkStatic H pgDir x vm mmap = .ok fs ∧ ForkOk vm₀ pgDir (vmas ++ [x]) fs := by
  have hok := hp.layout.vma x hx
  have hend := hok.end_le
  rcases hget : getFreePages vm.pagesUsage (getOrder (x.vmEnd - x.vmStart)) with ⟨page, usage⟩
  simp only [forkStatic, hget]
  by_cases hpage : page = 0
  · rw [if_pos hpage]
    exact Or.inr ⟨_, rfl, hc.filled, fun hok => by cases hok⟩
  rw [if_neg hpage]
  obtain ⟨first, ht⟩ := taken_of_getFreePages hget hpage
  have hsize := getOrder_spec (show x.vmEnd - x.vmStart ≤ 2 ^ 43 by omega)
  rcases setupVma_cases (H := H) vm.heap mmap x.vmStart x.vmEnd x.vmFlags (pa page) with
    ⟨heap₁, hsetup⟩ | ⟨heap₁, self, hsetup⟩
  · simp only [hsetup, Bool.false_eq_true, if_false, freePages_undo hget hpage, except_map_ok]
    exact Or.inr ⟨_, rfl, hc.filled.heap _, fun hok => by cases hok⟩
  simp only [hsetup, if_true]
  generalize hy : (⟨self, x.vmStart, x.vmEnd, x.vmFlags, pa page, []⟩ : VmArea) = y
  have hyarea : y.vmStart = x.vmStart ∧ y.vmEnd = x.vmEnd ∧ y.vmFlags = x.vmFlags ∧ y.lma = pa page ∧
      y.pagesBlockList = [] := by
    rw [← hy]
    exact ⟨rfl, rfl, rfl, rfl, rfl⟩
  obtain ⟨hys, hye, hyf, hyl, hyb⟩ := hyarea
  have hblocks : blocks (y :: mmap) = blocks mmap := by simp [blocks, hyb]
  rcases addPagesBlock_cases (H := H) heap₁ (y :: mmap) x.vmStart x.vmStart page
    (getOrder (x.vmEnd - x.vmStart)) with ⟨heap₂, hadd⟩ | ⟨heap₂, pb, hfind, hlin, horder, hadd⟩
  · simp only [hadd, Bool.false_eq_true, if_false, freePages_undo hget hpage, except_map_ok]
    exact Or.inr ⟨_, rfl, hc.filled.cons hyb _, fun hok => by cases hok⟩
  simp only [hadd, if_true]
  cases hcopy : copyFromUser vm.mem pgDir page x.vmStart (x.vmEnd - x.vmStart) with
  | error e =>
      refine Or.inl ?_
      unfold copyFromUser at hcopy
      split_ifs at hcopy
      rw [← hcopy, except_map_error]
  | ok m' =>
      obtain ⟨hin, hout⟩ := copyFromUser_ok hcopy
      rw [except_map_ok]
      have hmem : ∀ z, ¬(page ≤ z ∧ z < page + pageSize * numOfOrder (getOrder (x.vmEnd - x.vmStart))) →
          m' z = vm.mem z := fun z hz => hout z (by omega)
      -- no vma that is shared holds the start of this one
      have hunshared : ∀ z ∈ y :: mmap, z.covers x.vmStart = true → z.shared = false := by
        intro z hz hcov
        rcases List.mem_cons.1 hz with rfl | hz
        · rw [VmArea.shared, hyf]
          exact hpriv.1
        · exact hc.unshared (fun w hw hshared => hsep w (hvmas w hw) x hx hshared hpriv.1) z hz hcov
      have hfilled := (hc.filled.cons hyb heap₁).add ht hlin horder hfind hunshared hmem heap₂
      have hframes : ∀ a ∈ blockFrames mmap, a ∈ blockFrames (y :: mmap) := by
        intro a ha
        rwa [blockFrames, hblocks]
      refine Or.inr ⟨_, rfl, hfilled, fun _ => hc.grow hfilled
        (map_bare_updateVma (f := appendBlock pb) (fun _ => rfl) (y :: mmap))
        (fun a ha => blockFrames_append_subset hfind (hframes a ha)) ?_ ?_ ?_ ?_ ?_⟩
      · intro a ha z hz
        exact hmem z (ht.inPage (hc.filled.used ha) (hc.filled.isPage ha) hz)
      · have hne : (y.lma = noLma) = False := by
          have hpos := ht.pos
          have hlast := ht.last_le
          rw [hyl, ht.page_eq, pa_pagePool (by omega)]
          simp only [frame, noLma, pageSize, maxNumPages, eq_iff_iff, iff_false] at *
          omega
        simp [VmArea.area, hys, hye, hyf, hne, hpriv.2]
      · intro hsh
        have : x.shared = true := by
          rw [VmArea.shared, ← hyf]
          exact hsh
        rw [hpriv.1] at this
        cases this
      · rw [hys]
        exact hok.start_dvd
      · intro _
        have hstart : pageSize ∣ y.vmStart := by
          rw [hys]
          exact hok.start_dvd
        have hsize' : y.vmEnd - y.vmStart ≤
            pageSize * numOfOrder (getOrder (x.vmEnd - x.vmStart)) := by rwa [hys, hye]
        have hpos := ht.pos
        have hlast := ht.last_le
        have hlma : y.lma = frame first := by rw [hyl, ht.page_eq, pa_pagePool (by omega)]
        have hphys := physOk_frame (show first < maxNumPages by omega)
        refine ⟨⟨?_, ?_, ?_, ?_⟩, ?_⟩
        · rw [hlma]
          exact hphys.1
        · rw [hlma, hys, hye]
          simp only [frame, pageSize, maxNumPages] at *
          omega
        · intro p hcov
          obtain ⟨k, h₁, h₂, htarget, -⟩ := ht.target hyl hstart hsize' hcov
          rw [htarget]
          refine List.mem_flatMap.2 ⟨pb, (blocks_appendBlock hfind).mem_iff.2 (by simp), ?_⟩
          exact (ht.mem_frames hlin horder).2 ⟨k, h₁, h₂, rfl⟩
        · -- the byte was copied from the page of the parent
          intro p hcov
          obtain ⟨k, -, -, -, haddr⟩ := ht.target hyl hstart hsize' hcov
          have hcov' : x.vmStart ≤ p ∧ p < x.vmEnd := by
            rw [VmArea.covers_iff, hys, hye] at hcov
            exact hcov
          have hcovx := hok.covers_pageAddr (VmArea.covers_iff.2 hcov')
          rw [haddr, hys]
          dsimp only
          rw [hin _ (by omega) (by omega)]
          have hp' : x.vmStart + (page + (p - x.vmStart) - page) = p := by omega
          rw [hp']
          exact hc.filled.userByte hp hused (hp.maps.static x hx hpriv.2 p (by omega) hcovx)
        · intro p hcov hin'
          obtain ⟨k, h₁, h₂, htarget, -⟩ := ht.target hyl hstart hsize' hcov
          rw [htarget] at hin'
          exact hc.filled.used hin' ⟨k, by omega, ht.free k h₁ h₂, rfl⟩

/-- A vma whose copy has no pages yet. -/
theorem Copied.push (hc : Copied vm₀ pgDir vmas vm mmap) {x : VmArea} (hstart : pageSize ∣ x.vmStart)
    (hpriv : ¬x.Private) (self : Nat) (heap' : κ) :
    Copied vm₀ pgDir (vmas ++ [x]) { vm with heap := heap' }
      (⟨self, x.vmStart, x.vmEnd, x.vmFlags, x.lma, []⟩ :: mmap) := by
  have hblocks : blocks (⟨self, x.vmStart, x.vmEnd, x.vmFlags, x.lma, []⟩ :: mmap) = blocks mmap := by
    simp [blocks]
  refine hc.grow (hc.filled.cons rfl heap') rfl ?_ (fun _ _ _ _ => rfl) rfl (fun _ => rfl) hstart
    fun hno => absurd hno hpriv
  intro a ha
  rwa [blockFrames, hblocks]

/-- The body of the loop. -/
theorem forkVma_spec (hp : SpaceOk vm₀.mem (physical true pgDir) parent)
    (hused : ∀ a ∈ footprint vm₀.mem (physical true pgDir) parent.mmap, ¬FreeFrame vm₀.pagesUsage a)
    (hsep : SharedApart parent.mmap) (hvmas : ∀ x ∈ vmas, x ∈ parent.mmap)
    (hc : Copied vm₀ pgDir vmas vm mmap) {x : VmArea} (hx : x ∈ parent.mmap) :
    forkVma H pgDir x vm mmap = .error .kernelPanic ∨
    ∃ fs, forkVma H pgDir x vm mmap = .ok fs ∧ ForkOk vm₀ pgDir (vmas ++ [x]) fs := by
  have hstart := (hp.layout.vma x hx).start_dvd
  rw [forkVma]
  by_cases hshared : x.shared = true
  · rw [if_pos hshared]
    rcases setupVma_cases (H := H) vm.heap mmap x.vmStart x.vmEnd x.vmFlags x.lma with
      ⟨heap', hsetup⟩ | ⟨heap', self, hsetup⟩
    · simp only [hsetup]
      exact Or.inr ⟨_, rfl, hc.filled.heap _, fun hok => by cases hok⟩
    · simp only [hsetup]
      have hc' := hc.push hstart (fun hno => by rw [hno.1] at hshared; cases hshared) self heap'
      exact Or.inr ⟨_, rfl, hc'.filled, fun _ => hc'⟩
  rw [if_neg hshared]
  by_cases hlma : x.lma ≠ noLma
  · rw [if_pos hlma]
    exact forkStatic_spec hp hused hsep hvmas hc hx ⟨by simpa using hshared, hlma⟩
  rw [if_neg hlma]
  have hno : x.lma = noLma := not_not.1 hlma
  rcases setupVma_cases (H := H) vm.heap mmap x.vmStart x.vmEnd x.vmFlags noLma with
    ⟨heap', hsetup⟩ | ⟨heap', self, hsetup⟩
  · simp only [hsetup, Bool.false_eq_true, if_false]
    exact Or.inr ⟨_, rfl, hc.filled.heap _, fun hok => by cases hok⟩
  · simp only [hsetup, if_true]
    have hc' := hc.push hstart (fun hpriv => hpriv.2 hno) self heap'
    rw [hno] at hc'
    refine Or.inr (forkBlocks_spec x.vmStart (fun w hw hsh => ?_) hc')
    -- a shared vma of the parent does not cover the start of a private one
    have hw' : w ∈ parent.mmap := by
      rcases List.mem_append.1 hw with hw | hw
      · exact hvmas w hw
      · exact List.mem_singleton.1 hw ▸ hx
    exact hsep w hw' x hx hsh (by simpa using hshared)

/-- The loop of `sys_fork` over the vmas of the parent. -/
theorem forkVmas_spec (hp : SpaceOk vm₀.mem (physical true pgDir) parent)
    (hused : ∀ a ∈ footprint vm₀.mem (physical true pgDir) parent.mmap, ¬FreeFrame vm₀.pagesUsage a)
    (hsep : SharedApart parent.mmap) :
    ∀ {rest vmas : List VmArea} {vm : VmState κ} {mmap : List VmArea},
      (∀ x ∈ rest, x ∈ parent.mmap) → (∀ x ∈ vmas, x ∈ parent.mmap) → Copied vm₀ pgDir vmas vm mmap →
      forkVmas H pgDir rest vm mmap = .error .kernelPanic ∨
      ∃ fs, forkVmas H pgDir rest vm mmap = .ok fs ∧ ForkOk vm₀ pgDir (vmas ++ rest) fs := by
  intro rest
  induction rest with
  | nil =>
      intro vmas vm mmap _ _ hc
      refine Or.inr ⟨_, rfl, hc.filled, fun _ => ?_⟩
      rwa [List.append_nil]
  | cons x rest ih =>
      intro vmas vm mmap hrest hvmas hc
      rw [forkVmas]
      rcases forkVma_spec (H := H) hp hused hsep hvmas hc (hrest x (by simp)) with
        herr | ⟨fs, hrun, hfilled, hcopied⟩
      · exact Or.inl (by rw [herr, except_bind_error])
      rw [hrun, except_bind_ok]
      by_cases hok : fs.ok = true
      · rw [if_pos hok]
        have hvmas' : ∀ z ∈ vmas ++ [x], z ∈ parent.mmap := by
          intro z hz
          rcases List.mem_append.1 hz with hz | hz
          · exact hvmas z hz
          · exact List.mem_singleton.1 hz ▸ hrest x (by simp)
        have := ih (fun z hz => hrest z (by simp [hz])) hvmas' (hcopied hok)
        rwa [List.append_assoc] at this
      · rw [if_neg hok]
        exact Or.inr ⟨fs, rfl, hfilled, fun h => absurd h hok⟩

theorem copied_nil (vm₀ : VmState κ) (pgDir : Nat) : Copied vm₀ pgDir [] vm₀ [] :=
  ⟨filled_nil vm₀, rfl, by simp, by simp, by simp⟩

/-! ## The address space of the child -/

theorem target_of_area {x y : VmArea} (h : x.area = y.area) (hlma : y.lma = x.lma) (p : Nat) :
    y.target p = x.target p := by
  obtain ⟨h₁, -, -, -⟩ := area_eq h
  rw [VmArea.target, VmArea.target, h₁, hlma]

/-- The vmas of the child are in place. -/
theorem Copied.layout (hc : Copied vm₀ pgDir parent.mmap vm mmap) (hp : Layout parent) (self : Nat) :
    Layout { self := self, mmap := mmap, startBrk := parent.startBrk, brk := parent.brk } := by
  refine ⟨hp.brk_dvd, hp.brk_pos, hp.brk_lt, hp.brk_ge, hp.brk_le, ?_, ?_⟩
  · intro y hy
    obtain ⟨x, hx, harea⟩ := hc.original hy
    have hok := hp.vma x hx
    obtain ⟨hs, he, -, hlma⟩ := area_eq harea
    -- the physical pages of a copy: those of the original, or new ones
    have hphys : y.lma ≠ noLma → pageSize ∣ y.lma ∧ y.lma + (y.vmEnd - y.vmStart) ≤ 2 ^ 48 := by
      intro hno
      by_cases hsh : y.shared = true
      · obtain ⟨z, hz, harea', hlma'⟩ := hc.shared y hy hsh
        obtain ⟨hs', he', -, -⟩ := area_eq harea'
        rw [hlma', ← hs', ← he']
        rw [hlma'] at hno
        exact ⟨(hp.vma z hz).lma_dvd hno, (hp.vma z hz).lma_le hno⟩
      · have hcopy := hc.private_ y hy ⟨by simpa using hsh, hno⟩
        exact ⟨hcopy.lma_dvd, hcopy.lma_le⟩
    refine ⟨hs ▸ hok.start_dvd, hs ▸ hok.start_pos, ?_, he ▸ hok.end_le, ?_, fun h => (hphys h).1,
      fun h => (hphys h).2, ?_, ?_⟩
    · rw [← hs, ← he]
      exact hok.start_le
    · intro hno
      rw [← he]
      exact hok.end_dvd fun h => hno (hlma.1 h)
    · intro hsh
      obtain ⟨z, hz, harea', hlma'⟩ := hc.shared y hy hsh
      obtain ⟨hzlma, himage⟩ := (hp.vma z hz).shared (by rwa [shared_of_area harea'])
      refine ⟨by rwa [hlma'], fun p hcov => ?_⟩
      rw [target_of_area harea' hlma']
      exact himage p (by rwa [covers_of_area harea'])
    · rw [VmArea.InPlace, ← hs, ← he, ← hlma]
      exact hok.place
  · -- being apart is a matter of the areas
    let R : Nat × Nat × Nat × Bool → Nat × Nat × Nat × Bool → Prop := fun a b =>
      ∀ p, a.1 ≤ p ∧ p < a.2.1 → ¬(b.1 ≤ p ∧ p < b.2.1)
    have hR : ∀ x y : VmArea, x.Apart y ↔ R x.area y.area := by
      intro x y
      simp only [VmArea.Apart, VmArea.covers_iff, ← Bool.not_eq_true, R, VmArea.area]
    have hpw : (parent.mmap.map VmArea.area).Pairwise R :=
      List.pairwise_map.2 (hp.apart.imp fun {a b} h => (hR a b).1 h)
    have hrev : (mmap.map VmArea.area).Pairwise R := by
      rw [hc.areas, List.pairwise_reverse]
      refine hpw.imp fun {a b} h p h₁ h₂ => h p h₂ h₁
    exact (List.pairwise_map.1 hrev).imp fun {a b} h => (hR a b).2 h

/-- The vmas of the child can be mapped. -/
theorem Copied.newSpace (hc : Copied vm₀ pgDir parent.mmap vm mmap) (hp : Layout parent) (self : Nat)
    (hdir : InPool d ∧ IsPage d) (hdir_used : ¬FreeFrame vm₀.pagesUsage d) :
    NewSpace vm.pagesUsage d
      { self := self, mmap := mmap, startBrk := parent.startBrk, brk := parent.brk } := by
  have hlayout := hc.layout hp self
  refine ⟨hlayout, hc.filled.valid, hc.filled.nodup, fun a ha => hc.filled.used ha, hdir, ?_, ?_, ?_, ?_⟩
  · intro hfree
    exact (hc.filled.moves.released d hfree).elim hdir_used fun hno => hno
  · intro hin
    exact (hc.filled.moves.taken d hin).elim (fun hno => hno) hdir_used
  · intro y hy hlma p hcov
    by_cases hsh : y.shared = true
    · exact Or.inl (((hlayout.vma y hy).shared hsh).2 p hcov)
    · exact Or.inr ((hc.private_ y hy ⟨by simpa using hsh, hlma⟩).target p hcov)
  · intro y hy z hz hlma hlma' p q hcov hcov' heq hpool
    -- the pages of a shared vma are not in the pool
    have hpriv : ∀ w ∈ mmap, w.lma ≠ noLma → ∀ r, w.covers r = true →
        InPool (w.target (pageAddr r)) → w.Private := by
      intro w hw hwlma r hr hwpool
      refine ⟨?_, hwlma⟩
      by_contra hsh
      exact not_inPool_of_inImage (((hlayout.vma w hw).shared (by simpa using hsh)).2 r hr) hwpool
    exact hc.inj y hy z hz (hpriv y hy hlma p hcov hpool)
      (hpriv z hz hlma' q hcov' (heq ▸ hpool)) p q hcov hcov' heq

end Fork

end Kernel
end ToutOS
