import ToutOS.Kernel.ForkResults

/-!
# Balance — what a child takes, and what it gives back

* `Balanced` — the pages that were free before `sys_fork` are free, or the child owns them and
  `exit_mm` will find them;
* `dropHeap_lossless`, `brkOut_lossless`, `Faulted.returnable`, `exit_balanced` — the calls of the
  child;
* `GivesBack` — when they lose nothing: an exception is not in a shared vma and gets a `pages_block`,
  and the entries that `sys_brk` deletes are mapped;
* `childRun_usage` — a child that has only made such calls leaves the pool as it was.
-/

namespace ToutOS
namespace Kernel

open Base Mm

variable {κ : Type} {H : KernelHeap κ} {img : KernelImage} {u : UserImage} {s s' s₀ : KernelState κ}
  {d : Nat} {mm mm' : MmStruct} {vm vm' : VmState κ}

/-! ## Exceptions -/

/-- The page that an exception has entered in a vma that is not shared is found by `exit_mm`. -/
theorem Faulted.returnable {addr k : Nat} {mmap' : List VmArea} {T' : Set Nat} {z : VmArea}
    (hf : Faulted H d addr k mm vm mmap' vm' T') (hret : Returnable vm.mem d mm.mmap)
    (hfind : findVma mm.mmap addr = some z) (hshared : z.shared = false)
    (hlisted : (H.kmalloc vm.heap sizeofPagesBlock).1 ≠ 0) : Returnable vm'.mem d mmap' := by
  have hvma : findVma mm.mmap addr ≠ none := by
    rw [hfind]
    exact Option.some_ne_none z
  have hperm : (Kernel.blockFrames mmap').Perm (frame k :: Kernel.blockFrames mm.mmap) := by
    rcases hf.blocks with ⟨-, hnull⟩ | ⟨-, pb, -, hlin, horder, rfl⟩
    · exact absurd hnull hlisted
    · exact blockFrames_appendPage hf.lt hlin horder hvma
  constructor
  · intro x hx hsh
    rcases hf.blocks with ⟨rfl, -⟩ | ⟨-, pb, -, -, -, rfl⟩
    · exact hret.unshared x hx hsh
    · rcases mem_updateVma hx with hx | ⟨y, hy, rfl⟩
      · exact hret.unshared x hx hsh
      · rw [hfind] at hy
        cases hy
        have hzshared : z.shared = true := hsh
        rw [hshared] at hzshared
        cases hzshared
  · intro v a ha hpool
    rw [hperm.mem_iff, List.mem_cons]
    rcases hf.mapped ha with hold | ⟨rfl, -, -⟩
    · exact Or.inr (hret.listed v a hold hpool)
    · exact Or.inl rfl

/-! ## `sys_brk` -/

section Brk

variable {lo n b : Nat}

/-- An entry is kept, or it is one of the range. -/
theorem dropHeap_block {lo hi : Nat} {pb : PagesBlock} (hpb : pb ∈ blocks mm.mmap) :
    pb ∈ blocks (dropHeap lo hi mm).mmap ∨ ∃ z, findVma mm.mmap mm.startBrk = some z ∧
      pb ∈ z.pagesBlockList ∧ lo ≤ pb.userVirtAddr ∧ pb.userVirtAddr < hi := by
  cases hfind : findVma mm.mmap mm.startBrk with
  | none =>
      rw [dropHeap, updateVma_of_none hfind]
      exact Or.inl hpb
  | some z =>
      obtain ⟨-, l₁, l₂, hsplit, -, hupdate⟩ := findVma_split hfind
      rw [hsplit] at hpb
      simp only [dropHeap, hupdate, blocks, List.flatMap_append, List.flatMap_cons,
        List.mem_append] at hpb ⊢
      rcases hpb with hpb | hpb | hpb
      · exact Or.inl (Or.inl hpb)
      · by_cases hin : lo ≤ pb.userVirtAddr ∧ pb.userVirtAddr < hi
        · exact Or.inr ⟨z, rfl, hpb, hin⟩
        · refine Or.inl (Or.inr (Or.inl (List.mem_filter.2 ⟨hpb, ?_⟩)))
          simp only [Bool.not_eq_true', Bool.and_eq_false_iff, decide_eq_false_iff_not]
          omega
      · exact Or.inl (Or.inr (Or.inr hpb))

/-- Every page of the entries of `z` in the range is mapped at the address of the entry. -/
def EntriesMapped (m : Mem) (d lo hi : Nat) (z : VmArea) : Prop :=
  ∀ pb ∈ z.pagesBlockList, lo ≤ pb.userVirtAddr → pb.userVirtAddr < hi →
    ∀ a ∈ pb.frames, lookup true m d pb.userVirtAddr = some a

/-- Unmapping the range frees the pages whose entries are deleted, if they are mapped. -/
theorem dropHeap_lossless (h : SpaceOk vm.mem d mm) (hret : Returnable vm.mem d mm.mmap)
    (hdvd : pageSize ∣ lo) (hu : Unmapped d lo n vm vm')
    (hmapped : ∀ z, findVma mm.mmap mm.startBrk = some z →
      EntriesMapped vm.mem d lo (lo + pageSize * n) z) :
    Lossless (footprint vm.mem d mm.mmap)
        (footprint vm'.mem d (dropHeap lo (lo + pageSize * n) mm).mmap) vm.world vm'.world ∧
      Returnable vm'.mem d (dropHeap lo (lo + pageSize * n) mm).mmap := by
  obtain ⟨l, husage, hl⟩ := hu.usage
  -- an address of the range is on one of the pages that have been unmapped
  have hpage : ∀ v, lo ≤ v → v < lo + pageSize * n →
      ∃ j < n, pathOf v = pathOf (lo + pageSize * j) := by
    intro v hge hlt
    refine ⟨(v - lo) / pageSize, ?_, ?_⟩
    · simp only [pageSize] at *
      omega
    · rw [pathOf_eq_iff]
      simp only [pageSize] at *
      omega
  -- a page of an entry is still owned, or it has been freed
  have hblock : ∀ a ∈ blockFrames mm.mmap,
      a ∈ blockFrames (dropHeap lo (lo + pageSize * n) mm).mmap ∨
        ∃ v, lookup true vm.mem d v = some a ∧ ∃ j < n, pathOf v = pathOf (lo + pageSize * j) := by
    intro a ha
    obtain ⟨pb, hpb, ha⟩ := List.mem_flatMap.1 ha
    rcases @dropHeap_block mm lo (lo + pageSize * n) pb hpb with hkept | ⟨z, hz, hin, hge, hlt⟩
    · exact Or.inl (List.mem_flatMap.2 ⟨pb, hkept, ha⟩)
    · exact Or.inr ⟨_, hmapped z hz pb hin hge hlt a ha, hpage _ hge hlt⟩
  have hfreed : ∀ a ∈ footprint vm.mem d mm.mmap, ∀ v, lookup true vm.mem d v = some a →
      (∃ j < n, pathOf v = pathOf (lo + pageSize * j)) → FreeFrame vm'.pagesUsage a := by
    rintro a ha v hv ⟨j, hj, hpath⟩
    obtain ⟨hpool, hispage⟩ := h.holdings.footprint_pool ha
    rw [husage]
    exact freeFrame_freed_of_mem hpool hispage ((hl a).2 ⟨j, hj, lookup_congr hpath ▸ hv⟩)
  constructor
  · rintro a (ha | ha)
    · left
      change FreeFrame vm'.pagesUsage a
      rw [husage]
      exact freeFrame_freed_of_free ha
    have ha' := ha
    rcases ha with ha | ha | ⟨hpool, v, ha⟩
    · rw [← hu.tables_eq] at ha
      exact Or.inr (Or.inl ha)
    · rcases hblock a ha with hkept | ⟨v, hv, hin⟩
      · exact Or.inr (Or.inr (Or.inl hkept))
      · exact Or.inl (hfreed a ha' v hv hin)
    · by_cases hin : ∃ j < n, pathOf v = pathOf (lo + pageSize * j)
      · exact Or.inl (hfreed a ha' v ha hin)
      · refine Or.inr (Or.inr (Or.inr ⟨hpool, v, ?_⟩))
        rw [hu.other v fun j hj hpath => hin ⟨j, hj, hpath⟩, ha]
  · constructor
    · intro x hx hshared
      obtain ⟨y, hy, hbare, hsub, -, -⟩ := dropHeap_vma h.layout hx
      have hnil := hret.unshared y hy (shared_congr hbare ▸ hshared)
      rw [hnil] at hsub
      exact List.sublist_nil.1 hsub
    · intro v a ha hpool
      have hout : ∀ j < n, pathOf v ≠ pathOf (lo + pageSize * j) := by
        intro j hj hpath
        rw [hu.gone v ⟨j, hj, hpath⟩] at ha
        cases ha
      rw [hu.other v hout] at ha
      rcases hblock a (hret.listed v a ha hpool) with hkept | ⟨w, hw, j, hj, hpath⟩
      · exact hkept
      · -- the page would be mapped twice
        exact absurd ((h.holdings.mapped_inj v w a ha hw hpool).trans hpath) (hout j hj)

/-- The end of `sys_brk` does not concern pages. -/
theorem brkOut_lossless (hret : Returnable vm.mem d mm.mmap) (b : Nat) :
    Lossless (footprint vm.mem d mm.mmap)
        (footprint (brkOut H { mm with brk := b } vm).2.mem d (brkOut H { mm with brk := b } vm).1.mmap)
        vm.world (brkOut H { mm with brk := b } vm).2.world ∧
      Returnable (brkOut H { mm with brk := b } vm).2.mem d (brkOut H { mm with brk := b } vm).1.mmap := by
  -- it is enough that the blocks are the same
  have hsame : ∀ {mmap' : List VmArea} (heap' : κ), blocks mmap' = blocks mm.mmap →
      (∀ x ∈ mmap', x.shared = true → x.pagesBlockList = []) →
      Lossless (footprint vm.mem d mm.mmap) (footprint vm.mem d mmap') vm.world
          (VmState.world { vm with heap := heap' }) ∧ Returnable vm.mem d mmap' := by
    intro mmap' heap' hblocks hshared
    rw [footprint_congr hblocks]
    refine ⟨Lossless.refl _ _, hshared, fun v a ha hpool => ?_⟩
    rw [blockFrames, hblocks]
    exact hret.listed v a ha hpool
  rcases brkOut_cases (H := H) mm vm b with
    ⟨heap', hout, -⟩ | ⟨x, heap', hout, -, -, -, -, -, hlist⟩ | ⟨z, hout, hfind⟩
  · rw [hout]
    exact hsame heap' rfl hret.unshared
  · rw [hout]
    refine hsame heap' (by simp [blocks, hlist]) fun y hy hshared => ?_
    rcases List.mem_cons.1 hy with rfl | hy
    · exact hlist
    · exact hret.unshared y hy hshared
  · rw [hout]
    obtain ⟨-, l₁, l₂, hsplit, -, hupdate⟩ := findVma_split hfind
    have hz : z ∈ mm.mmap := by simp [hsplit]
    refine hsame vm.heap ?_ fun y hy hshared => ?_
    · rw [hupdate]
      simp [blocks, hsplit]
    · rcases mem_updateVma hy with hy | ⟨z', hz', rfl⟩
      · exact hret.unshared y hy hshared
      · rw [hfind] at hz'
        cases hz'
        exact hret.unshared z hz hshared

/-- The range of entries that `sys_brk` deletes. -/
def BrkGivesBack (m : Mem) (d addr : Nat) (mm : MmStruct) : Prop :=
  mm.startBrk ≤ addr → addr ≤ maxBrkAddr → ∀ z ∈ findVma mm.mmap mm.startBrk,
    EntriesMapped m d (upperPageAddr addr) (upperPageAddr mm.brk) z

theorem sysBrk_lossless (h : SpaceOk vm.mem d mm) (hzero : ZeroPage vm.mem)
    (hused : ∀ a ∈ footprint vm.mem d mm.mmap, ¬FreeFrame vm.pagesUsage a)
    (hret : Returnable vm.mem d mm.mmap) {addr : Nat} (hcond : BrkGivesBack vm.mem d addr mm)
    (hrun : sysBrk H (linear true d) addr mm vm = .ok (mm', vm')) :
    Lossless (footprint vm.mem d mm.mmap) (footprint vm'.mem d mm'.mmap) vm.world vm'.world ∧
      Returnable vm'.mem d mm'.mmap := by
  rcases sysBrk_cases (H := H) h hzero hused addr with
    ⟨herr, -⟩ | ⟨b, hok, -, -, -⟩ | ⟨lo, n, vm₁, hok, hs⟩
  · rw [hrun] at herr
    cases herr
  · rw [hrun] at hok
    have hpair := Except.ok.inj hok
    have hout := brkOut_lossless (H := H) hret b
    rw [← hpair] at hout
    exact hout
  · rw [hrun] at hok
    have hpair := Except.ok.inj hok
    have hlo := hs.le_lo
    have hhi := hs.hi_le
    have hmapped := hcond hs.ge (by omega)
    rw [← hs.lo_eq, ← hs.hi_eq] at hmapped
    obtain ⟨hfirst, hret₁⟩ := dropHeap_lossless h hret hs.lo_dvd hs.unmapped hmapped
    obtain ⟨hsecond, hret₂⟩ := @brkOut_lossless κ H d (dropHeap lo (lo + pageSize * n) mm) vm₁ hret₁ addr
    rw [← hpair] at hsecond hret₂
    exact ⟨hfirst.trans hsecond, hret₂⟩

end Brk

/-! ## The child and the pool -/

/-- What was free in `s₀` is free in `s` or belongs to task `c`, and `exit_mm` gives all of it back. -/
structure Balanced (c : Nat) (s₀ s : KernelState κ) : Prop where
  balance : ∀ a, FreeFrame s.vm.pagesUsage a ∨ a ∈ taskFootprint s.vm.mem (s.tasks c) ↔
    FreeFrame s₀.vm.pagesUsage a
  returnable : (s.tasks c).live = true → (s.tasks c).pgDir ≠ 0 → ∀ mm, (s.tasks c).mm = some mm →
    Returnable s.vm.mem (physical true (s.tasks c).pgDir) mm.mmap

section Child

variable {c i regs addr : Nat}

/-- A step of the child in which nothing is lost. -/
theorem Balanced.step (hb : Balanced c s₀ s) (hs : StepOf img u c s s')
    (hl : Lossless (taskFootprint s.vm.mem (s.tasks c)) (taskFootprint s'.vm.mem (s'.tasks c))
      s.vm.world s'.vm.world)
    (hret : (s'.tasks c).live = true → (s'.tasks c).pgDir ≠ 0 → ∀ mm, (s'.tasks c).mm = some mm →
      Returnable s'.vm.mem (physical true (s'.tasks c).pgDir) mm.mmap) : Balanced c s₀ s' := by
  have hpool : ∀ a, FreeFrame s.vm.pagesUsage a ∨
      a ∈ taskFootprint s.vm.mem (s.tasks c) ∪ outside →
      InPool a → FreeFrame s.vm.pagesUsage a ∨ a ∈ taskFootprint s.vm.mem (s.tasks c) := by
    rintro a (ha | ha | ha) hin
    · exact Or.inl ha
    · exact Or.inr ha
    · exact absurd hin ha.1
  refine ⟨fun a => (Iff.intro (fun ha => ?_) (hl a)).trans (hb.balance a), hret⟩
  rcases ha with ha | ha
  · exact hpool a (hs.moves.released a ha) (FreeFrame.inPool ha)
  · exact hpool a (hs.moves.taken a (Or.inl ha)).symm (hs.task.footprint_pool ha).1

/-- A step that changes neither `pages_usage` nor the child and its tables. -/
theorem Balanced.same (hb : Balanced c s₀ s) (h : Invariant img u s)
    (husage : ∀ k < maxNumPages, s'.vm.pagesUsage k = s.vm.pagesUsage k)
    (htask : s'.tasks c = s.tasks c) (htables : SameTaskTables s.vm.mem s'.vm.mem (s.tasks c)) :
    Balanced c s₀ s' := by
  obtain ⟨-, hfoot⟩ := (h.tasks c).frame htables
  refine ⟨fun a => ?_, fun hlive hdir mm hmm => ?_⟩
  · rw [freeFrame_congr husage, htask, hfoot]
    exact hb.balance a
  · rw [htask] at hlive hdir hmm ⊢
    obtain ⟨mm', -, hp⟩ := (h.tasks c).process hlive hdir
    obtain ⟨hunshared, hlisted⟩ := hb.returnable hlive hdir mm hmm
    refine ⟨hunshared, fun v a ha => hlisted v a ?_⟩
    rwa [← lookup_frame hp.space.holdings.tables (htables hlive hdir) v]

/-- The end of the child: all that it owns is given back. -/
theorem exit_balanced (hb : Balanced c s₀ s) (h : Invariant img u s)
    (hlive : (s.tasks c).live = true) (hok : doExit H c s = .ok s') : Balanced c s₀ s' := by
  obtain ⟨t, hexit, hstep, htask⟩ := exit_step (H := H) h hlive
  rw [hok] at hexit
  cases hexit
  have hstopped : (s'.tasks c).live = false := by
    rw [htask]
    simp [TaskStruct.live]
  refine hb.step hstep ?_ fun hno => ?_
  · rw [taskFootprint_of_not_live hstopped]
    obtain ⟨mm, hmm, hnil, -⟩ := (h.tasks c).mm hlive
    by_cases hdir : (s.tasks c).pgDir = 0
    · rw [taskFootprint_of_pgDir hdir]
      simp only [doExit, hmm, hdir, exitMm_kernel (hnil hdir), except_map_ok] at hok
      cases hok
      exact Lossless.refl _ _
    · have hp := (h.tasks c).process_of hlive hdir hmm
      obtain ⟨vm', hexit, -, husage, -⟩ := exitMm_spec (H := H) hp.space.holdings (h.used hlive hdir hmm)
      rw [linear_pgDir hp.dir_lt] at hexit
      simp only [doExit, hmm, hexit, except_map_ok] at hok
      cases hok
      rw [taskFootprint_eq hlive hdir hmm]
      exact exit_lossless hp.space.holdings (hb.returnable hlive hdir mm hmm) husage
  · rw [hstopped] at hno
    cases hno

/-- The exceptions and calls of `sys_brk` of task `c` that lose no page. -/
def GivesBack (H : KernelHeap κ) (c : Nat) (s : KernelState κ) : Action κ → Prop
  | .exception i addr => i = c → ∀ vma ∈ s.vmaOf c addr,
      (vma.shared = false ∧ (H.kmalloc s.vm.heap sizeofPagesBlock).1 ≠ 0) ∨ PoolFull s.vm.pagesUsage
  | .brk i _ addr => i = c → ∀ mm ∈ (s.tasks c).mm,
      BrkGivesBack s.vm.mem (physical true (s.tasks c).pgDir) addr mm
  | _ => True

instance (m : Mem) (d lo hi : Nat) (z : VmArea) : Decidable (EntriesMapped m d lo hi z) :=
  inferInstanceAs (Decidable (∀ pb ∈ z.pagesBlockList, _))

instance (m : Mem) (d addr : Nat) (mm : MmStruct) : Decidable (BrkGivesBack m d addr mm) :=
  inferInstanceAs (Decidable (_ → _ → ∀ z ∈ findVma mm.mmap mm.startBrk, _))

instance (s : KernelState κ) : (a : Action κ) → Decidable (GivesBack H c s a)
  | .exception _ addr => inferInstanceAs (Decidable (_ → ∀ vma ∈ s.vmaOf c addr, _))
  | .brk _ _ _ => inferInstanceAs (Decidable (_ → ∀ mm ∈ (s.tasks c).mm, _))
  | .userTest _ => isTrue trivial
  | .fork _ _ => isTrue trivial
  | .exit _ => isTrue trivial
  | .userStore _ _ _ => isTrue trivial
  | .kmallocUse _ => isTrue trivial

theorem exception_balanced (hb : Balanced c s₀ s) (h : Invariant img u s) (hruns : UserRuns s c)
    (hcond : GivesBack H c s (.exception c addr)) (hok : doEl0Sync H c addr s = .ok s') :
    Balanced c s₀ s' := by
  have hstep : StepOf img u c s s' := by
    have hsteps := exception_step (H := H) h hruns addr
    rw [hok] at hsteps
    exact hsteps.stepOf
  obtain ⟨hlive, hdir⟩ := hruns
  rcases exception_cases h ⟨hlive, hdir⟩ hok with hexit | ⟨mm, z, hmm, hfind, hrest⟩
  · exact exit_balanced hb h hlive hexit
  rcases hrest with rfl | ⟨k, mmap', vm', T', rfl, hf⟩
  · refine hb.same h (fun _ _ => rfl) ?_ fun _ _ _ _ _ _ => rfl
    simp only [setMm, Function.update_self, ← hmm]
  · have hvma : findVma mm.mmap addr ≠ none := by
      rw [hfind]
      exact Option.some_ne_none z
    -- the page is entered in a list that `exit_mm` reads
    have hlisted : z.shared = false ∧ (H.kmalloc s.vm.heap sizeofPagesBlock).1 ≠ 0 := by
      rcases hcond rfl z (KernelState.vmaOf_eq hmm hfind) with hin | hfull
      · exact hin
      · have := hf.free
        rw [hfull k hf.lt] at this
        cases this
    have htask : (setMm s c ({ mm with mmap := mmap' }, vm')).tasks c =
        { s.tasks c with mm := some { mm with mmap := mmap' } } := Function.update_self ..
    refine hb.step hstep ?_ fun _ _ mm' hmm' => ?_
    · rw [htask, taskFootprint_eq hlive hdir hmm, @taskFootprint_eq _
        { s.tasks c with mm := some { mm with mmap := mmap' } } { mm with mmap := mmap' } hlive hdir rfl]
      exact hf.lossless hvma hlisted.2
    · rw [htask] at hmm' ⊢
      cases hmm'
      exact hf.returnable (hb.returnable hlive hdir mm hmm) hfind hlisted.1 hlisted.2

theorem brk_balanced (hb : Balanced c s₀ s) (h : Invariant img u s) (hruns : UserRuns s c)
    (hregs : RegsOk s c regs) (haddr : addr < 2 ^ 64) (hcond : GivesBack H c s (.brk c regs addr))
    (hok : doBrk H c regs (s.withMem (store s.vm.mem regs 8 addr)) = .ok s') : Balanced c s₀ s' := by
  have hstep : StepOf img u c s s' := by
    have hsteps := brk_step (H := H) h hruns hregs haddr
    rw [hok] at hsteps
    exact hsteps.stepOf
  obtain ⟨mm, mm', vm₁, vm', hr⟩ := brk_cases h hruns hregs haddr hok
  obtain ⟨hlive, hdir⟩ := hruns
  have hp := (h.tasks c).process_of hlive hdir hr.space
  have hsame := hr.tables h ⟨hlive, hdir⟩
  have hlook := lookup_frame hp.space.holdings.tables hsame
  obtain ⟨hunshared, hlisted⟩ := hb.returnable hlive hdir mm hr.space
  have hret : Returnable vm₁.mem (physical true (s.tasks c).pgDir) mm.mmap :=
    ⟨hunshared, fun v a ha => hlisted v a (by rwa [← hlook])⟩
  -- the condition on the step, for the tables with the word of the registers written
  have hbrk : BrkGivesBack vm₁.mem (physical true (s.tasks c).pgDir) addr mm := by
    intro hge hle z hz pb hpb hlo hhi a ha
    rw [hlook]
    exact hcond rfl mm hr.space hge hle z hz pb hpb hlo hhi a ha
  have hrun := hr.run
  rw [← linear_pgDir hp.dir_lt] at hrun
  obtain ⟨hlossless, hret'⟩ := sysBrk_lossless hr.process.space hr.zero hr.used hret hbrk hrun
  have hspace := hr.space_ok
  have hsame' := hr.tables'
  have htask : s'.tasks c = { s.tasks c with mm := some mm' } := by
    rw [hr.tasks, Function.update_self]
  refine hb.step hstep ?_ fun _ _ mm₂ hmm₂ => ?_
  · rw [htask, taskFootprint_eq hlive hdir hr.space,
      @taskFootprint_eq _ { s.tasks c with mm := some mm' } mm' hlive hdir rfl,
      footprint_frame hspace.holdings.tables hsame', ← footprint_frame hp.space.holdings.tables hsame]
    have hworld : vm₁.world.free = s.vm.world.free := congrArg FreeFrame hr.usage
    have hworld' : s'.vm.world.free = vm'.world.free := congrArg FreeFrame hr.usage'
    intro a ha
    rw [← hworld] at ha
    rw [hworld']
    exact hlossless a ha
  · rw [htask] at hmm₂ ⊢
    cases hmm₂
    refine ⟨hret'.unshared, fun v a ha => hret'.listed v a ?_⟩
    rwa [← lookup_frame hspace.holdings.tables hsame' v]

/-! ## Runs -/

/-- An action of task `c` between the `sys_fork` that has made it and its end. -/
def Action.InUser (c : Nat) : Action κ → Prop
  | .brk i _ _ => i = c
  | .exception i _ => i = c
  | .exit i => i = c
  | .userStore i _ _ => i = c
  | _ => False

/-- The step allocates no page and frees none. -/
def Quiet (H : KernelHeap κ) (img : KernelImage) (u : UserImage) (s : KernelState κ) (a : Action κ) :
    Prop :=
  ∀ s', step H img u s a = some s' → ∀ k < maxNumPages, s'.vm.pagesUsage k = s.vm.pagesUsage k

/-- The child acts, or something else happens that neither allocates nor frees pages. -/
def ChildAlone (H : KernelHeap κ) (img : KernelImage) (u : UserImage) (c : Nat) (s : KernelState κ)
    (a : Action κ) : Prop :=
  a.InUser c ∨ a.task ≠ some c ∧ Quiet H img u s a

/-- The action is a `sys_fork` that has made task `c`. -/
def Makes (H : KernelHeap κ) (img : KernelImage) (s s' : KernelState κ) (a : Action κ) (c : Nat) : Prop :=
  ∃ i regs, a = .fork i regs ∧ sysFork H img i regs s = .ok (s', some c)

/-- A step of somebody else is no step of task `c`, unless `c` is a slot that it has taken. -/
theorem exec_other (h : Invariant img u s) {a : Action κ} (ha : Enabled s a) (hc : a.task ≠ some c)
    (hexec : exec H img u s a = .ok s') :
    ∃ j, StepOf img u j s s' ∧ (j = c → (s.tasks c).live = false ∧ Makes H img s s' a c) := by
  -- all calls but `sys_fork` are steps of the task that makes them
  have hother : ∀ {i}, some i ≠ some c → StepsOf img u i s (exec H img u s a) →
      ∃ j, StepOf img u j s s' ∧ (j = c → (s.tasks c).live = false ∧ Makes H img s s' a c) := by
    intro i hi hsteps
    rw [hexec] at hsteps
    exact ⟨i, hsteps.stepOf, fun heq => absurd (congrArg some heq) hi⟩
  cases a with
  | userTest i => exact hother hc (userTest_step h ha.1 ha.2.1 ha.2.2)
  | brk i regs addr => exact hother hc (brk_step h ha.1 ha.2.1 ha.2.2)
  | exception i addr => exact hother hc (exception_step h ha.1 addr)
  | exit i =>
      obtain ⟨t, hexit, hstep, -⟩ := exit_step (H := H) h ha
      exact hother hc (Or.inr (Or.inr ⟨t, hexit, hstep⟩))
  | userStore i virtAddr b =>
      exact hother hc (Or.inr (Or.inr ⟨_, rfl, userStore_step h ha.1 ha.2.2 b⟩))
  | fork i regs =>
      rcases sysFork_spec (H := H) h ha.1 ha.2 with
        herr | herr | ⟨slot, t, hok, hf⟩ | ⟨c', d, parent, cm, t, hok, hmm, hf⟩
      · rw [exec, herr] at hexec
        cases hexec
      · rw [exec, herr] at hexec
        cases hexec
      · exact hother hc (Or.inr (Or.inr ⟨t, by rw [exec, hok, except_map_ok],
          StepOf.forkFailed h ha.1.1 ha.2 hf⟩))
      · rw [exec, hok, except_map_ok] at hexec
        cases hexec
        -- a `sys_fork` is a step of the child
        refine ⟨c', StepOf.forked h ha.1 ha.2 hmm hf, ?_⟩
        rintro rfl
        refine ⟨?_, i, regs, rfl, hok⟩
        rw [TaskStruct.live, (hf.slots.taken c' rfl).2, Bool.false_and]
  | kmallocUse heap =>
      -- nobody's step: any task other than `c` will do
      refine ⟨c + 1, ?_, fun hno => by omega⟩
      cases hexec
      refine ⟨?_, fun k _ => Or.inl rfl, h.tasks _, h.pool _, Or.inl rfl⟩
      refine Local.write (fun _ _ => rfl) rfl ?_
      rintro n (hn | hn) hfree
      · exact h.owned.held _ n hn hfree
      · exact hn.1 (FreeFrame.inPool hfree)

/-- What others do does not concern the child as long as `pages_usage` stays the same. -/
theorem Balanced.other {j : Nat} (hb : Balanced c s₀ s) (h : Invariant img u s)
    (hs : StepOf img u j s s') (hj : j = c → (s.tasks c).live = false)
    (husage : ∀ k < maxNumPages, s'.vm.pagesUsage k = s.vm.pagesUsage k) : Balanced c s₀ s' := by
  by_cases hc : c = j
  · subst hc
    -- the slot has been taken: the new task would own a page that was free and still is
    have hdead := hj rfl
    have hfoot : taskFootprint s'.vm.mem (s'.tasks c) = ∅ := by
      ext a
      refine ⟨fun ha => ?_, fun ha => ha.elim⟩
      have hfree : FreeFrame s.vm.pagesUsage a := by
        have htaken := hs.moves.taken a (Or.inl ha)
        rw [taskFootprint_of_not_live hdead] at htaken
        rcases htaken with (hno | hno) | hfree
        · exact hno.elim
        · exact absurd (hs.task.footprint_pool ha).1 hno.1
        · exact hfree
      rw [← freeFrame_congr husage] at hfree
      exact hs.moves.held a (Or.inl ha) hfree
    refine ⟨fun a => ?_, fun hlive hdir mm hmm => ?_⟩
    · rw [freeFrame_congr husage, hfoot, ← taskFootprint_of_not_live hdead]
      exact hb.balance a
    · have hroot : physical true (s'.tasks c).pgDir ∈ taskFootprint s'.vm.mem (s'.tasks c) :=
        ⟨hlive, hdir, mm, hmm, Or.inl (root_mem_tableFrames _ _)⟩
      rw [hfoot] at hroot
      exact hroot.elim
  · rcases hs.others c hc with heq | ⟨heq, hdead⟩
    · exact hb.same h husage heq (hs.tables h hc)
    · refine ⟨fun a => ?_, fun hlive => ?_⟩
      · rw [freeFrame_congr husage, heq, taskFootprint_of_not_live rfl,
          ← taskFootprint_of_not_live hdead]
        exact hb.balance a
      · rw [heq] at hlive
        cases hlive

/-- One step of a run. -/
theorem step_balanced {a : Action κ} (hb : Balanced c s₀ s) (h : Invariant img u s)
    (halone : ChildAlone H img u c s a) (hcond : GivesBack H c s a)
    (ha : step H img u s a = some s') : Balanced c s₀ s' := by
  obtain ⟨henabled, hexec⟩ := step_eq ha
  rcases halone with hin | ⟨hother, hquiet⟩
  · cases a with
    | userTest i => exact hin.elim
    | fork i regs => exact hin.elim
    | brk i regs addr =>
        obtain rfl : i = c := hin
        exact brk_balanced hb h henabled.1 henabled.2.1 henabled.2.2 hcond hexec
    | exception i addr =>
        obtain rfl : i = c := hin
        exact exception_balanced hb h henabled.1 hcond hexec
    | exit i =>
        obtain rfl : i = c := hin
        exact exit_balanced hb h henabled hexec
    | userStore i virtAddr b =>
        obtain rfl : i = c := hin
        cases hexec
        exact hb.same h (fun _ _ => rfl) rfl (userStore_tables h henabled.2.2 b)
    | kmallocUse heap => exact hin.elim
  · obtain ⟨j, hstep, hj⟩ := exec_other h henabled hother hexec
    exact hb.other h hstep (fun heq => (hj heq).1) (hquiet s' ha)

/-- After a successful `sys_fork` the child has all the pages that have been taken. -/
theorem Forked.balanced {d : Nat} {parent cm : MmStruct} (h : Invariant img u s) (hruns : UserRuns s i)
    (hregs : RegsOk s i regs) (hmm : (s.tasks i).mm = some parent)
    (hf : Forked img i regs c d parent cm s s') : Balanced c s s' := by
  obtain ⟨hspace, hmoves, hlossless, hret⟩ := hf.spaceOk h hruns.1 hregs
  have hstep := StepOf.forked h hruns hregs hmm hf
  have hfree : (s.tasks c).live = false := by
    rw [TaskStruct.live, (hf.slots.taken c rfl).2, Bool.false_and]
  have hlive : (s'.tasks c).live = true := by
    rw [TaskStruct.live_iff, hf.running]
    exact ⟨hf.inUse, by decide⟩
  have hdpage := hspace.holdings.tables.pages d (root_mem_tableFrames _ d)
  have hphys : physical true (s'.tasks c).pgDir = d := by
    rw [hf.pgDir]
    exact physical_linear true hdpage.2
  have hdir : (s'.tasks c).pgDir ≠ 0 := by
    rw [hf.pgDir]
    exact linear_ne_zero hspace.holdings
  have hstart : Balanced c s s := by
    refine ⟨fun a => ?_, fun hno => ?_⟩
    · rw [taskFootprint_of_not_live hfree]
      exact or_iff_left fun hno => hno
    · rw [hfree] at hno
      cases hno
  refine hstart.step hstep ?_ fun _ _ mm hmm' => ?_
  · rw [taskFootprint_of_not_live hfree, taskFootprint_eq hlive hdir hf.mm, hphys]
    exact hlossless
  · rw [hf.mm] at hmm'
    cases hmm'
    rwa [hphys]

/-- A child whose exceptions and calls of `sys_brk` lose no page leaves the pool as it has been before
the `sys_fork`. -/
theorem childRun_usage (h : Reachable H img u s₀) (ha : Enabled s₀ (.fork i regs))
    (hfork : sysFork H img i regs s₀ = .ok (s, some c)) {as : List (Action κ)}
    (hrun : runFrom (step H img u) s as = some s') (halone : Along (step H img u) (ChildAlone H img u c) s as)
    (hcond : Along (step H img u) (GivesBack H c) s as) (hexited : (s'.tasks c).live = false) :
    ∀ k < maxNumPages, s'.vm.pagesUsage k = s₀.vm.pagesUsage k := by
  have hi := h.invariant
  have hstart : Invariant img u s ∧ Balanced c s₀ s := by
    rcases sysFork_spec (H := H) hi ha.1 ha.2 with
      herr | herr | ⟨slot, t, hok, -⟩ | ⟨c', d, parent, cm, t, hok, hmm, hf⟩
    · rw [hfork] at herr
      cases herr
    · rw [hfork] at herr
      cases herr
    · rw [hfork] at hok
      cases hok
    · rw [hfork] at hok
      cases hok
      exact ⟨hi.step (StepOf.forked hi ha.1 ha.2 hmm hf), hf.balanced hi ha.1 ha.2 hmm⟩
  have hboth : Along (step H img u) (fun s a => ChildAlone H img u c s a ∧ GivesBack H c s a) s as :=
    along_iff.2 fun bs a cs t hsplit hbs =>
      ⟨along_iff.1 halone bs a cs t hsplit hbs, along_iff.1 hcond bs a cs t hsplit hbs⟩
  obtain ⟨-, hend⟩ := runFrom_invariant_along (I := fun s => Invariant img u s ∧ Balanced c s₀ s)
    (fun s a s' hi hP ha => ⟨step_invariant hi.1 ha, step_balanced hi.2 hi.1 hP.1 hP.2 ha⟩)
    hstart hboth hrun
  -- nothing belongs to the child any more
  refine usage_eq_of_free ?_
  ext a
  have hbalance := hend.balance a
  rw [taskFootprint_of_not_live hexited] at hbalance
  exact (or_iff_left fun hno => hno).symm.trans hbalance

/-! ## Sample runs -/

/-- A task that is alive can exit at the end of a run. -/
theorem exit_run {as : List (Action κ)} {t : KernelState κ} (h : Invariant img u t)
    (hrun : runFrom (step H img u) s as = some t) (hlive : (t.tasks c).live = true) :
    ∃ s', runFrom (step H img u) s (as ++ [.exit c]) = some s' ∧ doExit H c t = .ok s' ∧
      (s'.tasks c).live = false := by
  obtain ⟨s', hexit, -, htask⟩ := exit_step (H := H) h hlive
  have hstep : step H img u t (.exit c) = some s' := by
    rw [step, if_pos (show Enabled t (.exit c) from hlive), exec, hexit]
    rfl
  refine ⟨s', runFrom_append.2 ⟨t, hrun, runFrom_cons.2 ⟨s', hstep, rfl⟩⟩, hexit, ?_⟩
  rw [htask]
  simp [TaskStruct.live]

/-- A page that is mapped and in no list is not given back. -/
theorem exit_leaks {v a : Nat} (h : Invariant img u s) (hlive : (s.tasks c).live = true)
    (hdir : (s.tasks c).pgDir ≠ 0) (hmm : (s.tasks c).mm = some mm) (hpool : InPool a)
    (ha : userFrame s.vm.mem (s.tasks c).pgDir v = some a) (hno : a ∉ ownFrames mm.mmap)
    (hok : doExit H c s = .ok s') : ¬FreeFrame s'.vm.pagesUsage a := by
  have hp := (h.tasks c).process_of hlive hdir hmm
  obtain ⟨vm', hexit, -, husage, -⟩ := exitMm_spec (H := H) hp.space.holdings (h.used hlive hdir hmm)
  rw [linear_pgDir hp.dir_lt] at hexit
  simp only [doExit, hmm, hexit, except_map_ok] at hok
  cases hok
  rw [husage]
  refine not_freeFrame_freed (h.used hlive hdir hmm a (Or.inr (Or.inr ⟨hpool, v, ha⟩))) fun hin => ?_
  rcases List.mem_append.1 hin with hin | hin
  · exact hno hin
  · exact hp.space.holdings.tables_mapped v a ha (mem_tableList.1 hin)

end Child

/-- The child uses its stack, and its heap grows, gets a page and loses it again. -/
def sampleChild : List (Action (List Nat)) :=
  [ .exception 1 0x20000010, .brk 1 (sampleImage.stack 1 + 3000) 0x08050000,
    .exception 1 0x0804E000, .brk 1 (sampleImage.stack 1 + 3000) 0x0804D000 ]

theorem sampleChild_usage : ∃ s₀ s s',
    runFrom (step sampleHeap sampleImage sampleUser) sampleBoot
        [.userTest 0, .exception 0 0x20000010] = some s₀ ∧
      sysFork sampleHeap sampleImage 0 sampleRegs s₀ = .ok (s, some 1) ∧
      runFrom (step sampleHeap sampleImage sampleUser) s (sampleChild ++ [.exit 1]) = some s' ∧
      ∀ k < maxNumPages, s'.vm.pagesUsage k = s₀.vm.pagesUsage k := by
  have hend : ((forkAfter sampleHeap sampleImage sampleUser sampleBoot
      [.userTest 0, .exception 0 0x20000010] 0 sampleRegs).bind fun r =>
        (runFrom (step sampleHeap sampleImage sampleUser) r.2.1 sampleChild).map fun t =>
          (r.2.2, decide (Along (step sampleHeap sampleImage sampleUser) (GivesBack sampleHeap 1) r.2.1
            sampleChild), (t.tasks 1).live)) = some (some 1, true, true) := by decide +kernel
  obtain ⟨⟨s₀, s, r⟩, hcall, hrest⟩ := Option.bind_eq_some_iff.1 hend
  obtain ⟨t, hrun, ht⟩ := Option.map_eq_some_iff.1 hrest
  simp only [Prod.mk.injEq, decide_eq_true_eq] at ht
  obtain ⟨rfl, hcond, hlive⟩ := ht
  obtain ⟨hrun₀, henabled, hfork⟩ := forkAfter_eq hcall
  obtain ⟨hreach, hs⟩ := forkAfter_invariant sampleBoot_boot hcall
  have ht : Invariant sampleImage sampleUser t :=
    runFrom_invariant (fun _ _ _ hi ha => step_invariant hi ha) hs hrun
  obtain ⟨s', hrun', -, hexited⟩ := exit_run ht hrun hlive
  refine ⟨s₀, s, s', hrun₀, hfork, hrun', childRun_usage hreach henabled hfork hrun' ?_ ?_ hexited⟩
  · refine along_of_forall fun a ha t => Or.inl ?_
    simp only [sampleChild, List.cons_append, List.nil_append, List.mem_cons, List.not_mem_nil,
      or_false] at ha
    rcases ha with rfl | rfl | rfl | rfl | rfl <;> exact rfl
  · exact along_append.2 ⟨hcond, fun _ _ => ⟨trivial, fun _ _ => trivial⟩⟩

/-- `kmalloc` fails for the `pages_block` of the first page of the child's stack: the page is mapped,
and it is lost when the child exits. -/
theorem sampleChild_leaks : ∃ s₀ s s',
    runFrom (step sampleHeap sampleImage sampleUser) sampleBoot
        [.userTest 0, .kmallocUse (List.replicate 9 16 ++ [0])] = some s₀ ∧
      sysFork sampleHeap sampleImage 0 sampleRegs s₀ = .ok (s, some 1) ∧
      runFrom (step sampleHeap sampleImage sampleUser) s
        [.exception 1 0x20000010, .exit 1] = some s' ∧
      (s'.tasks 1).live = false ∧ ¬∀ k < maxNumPages, s'.vm.pagesUsage k = s₀.vm.pagesUsage k := by
  have hend : ((forkAfter sampleHeap sampleImage sampleUser sampleBoot
      [.userTest 0, .kmallocUse (List.replicate 9 16 ++ [0])] 0 sampleRegs).bind fun r =>
        (runFrom (step sampleHeap sampleImage sampleUser) r.2.1 [.exception 1 0x20000010]).map fun t =>
          (r.2.2, decide (r.1.vm.pagesUsage 12 = false ∧ (t.tasks 1).live = true ∧
            (t.tasks 1).pgDir ≠ 0 ∧
            userFrame t.vm.mem (t.tasks 1).pgDir 0x20000010 = some (frame 12)),
            (t.tasks 1).mm.map fun mm => decide (frame 12 ∈ ownFrames mm.mmap))) =
      some (some 1, true, some false) := by decide +kernel
  obtain ⟨⟨s₀, s, r⟩, hcall, hrest⟩ := Option.bind_eq_some_iff.1 hend
  obtain ⟨t, hrun, ht⟩ := Option.map_eq_some_iff.1 hrest
  simp only [Prod.mk.injEq, decide_eq_true_eq] at ht
  obtain ⟨hr, ⟨hfree, hlive, hdir, hframe⟩, hlists⟩ := ht
  obtain ⟨mm, hmm, hno⟩ := Option.map_eq_some_iff.1 hlists
  rw [decide_eq_false_iff_not] at hno
  obtain ⟨hrun₀, henabled, hfork⟩ := forkAfter_eq hcall
  rw [hr] at hfork
  obtain ⟨hreach, hs⟩ := forkAfter_invariant sampleBoot_boot hcall
  have ht : Invariant sampleImage sampleUser t :=
    runFrom_invariant (fun _ _ _ hi ha => step_invariant hi ha) hs hrun
  obtain ⟨s', hrun', hexit, hexited⟩ := exit_run ht hrun hlive
  refine ⟨s₀, s, s', hrun₀, hfork, hrun', hexited, fun hsame => ?_⟩
  have hk : 12 < maxNumPages := by decide
  have hused := exit_leaks ht hlive hdir hmm (inPool_frame.2 hk) hframe hno hexit
  rw [freeFrame_frame hk, hsame 12 hk] at hused
  exact hused hfree

end Kernel
end ToutOS
