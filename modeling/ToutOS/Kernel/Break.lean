import ToutOS.Kernel.ForkResults

/-!
# Break — the vma of the heap over whole runs

`sys_brk` makes the vma of the heap on its way out, when `find_vma` does not find one at `start_brk`,
while the break is a page above `start_brk` from the beginning.  An empty heap is not found either.

* `nextBrk`, `Shrinks`, `BrkSet` — what a call of `sys_brk` does to the break and to the vmas;
* `SpaceOrigin`, `step_origin` — where the vmas of a task come from, in every step; so what depends
  on their ranges only is kept by all steps but those of `sys_brk` and `user_test`
  (`step_allSpaces`);
* `shrinkRun_findsHeap` — the heap is found when it shrinks, unless its vma could not be made or the
  whole heap is given back before there is a vma;
* `heapRun_oneHeap` — a task has one vma for its heap, unless `sys_brk` is called on an empty heap.
-/

namespace ToutOS
namespace Kernel

open Base Mm

variable {κ : Type} {H : KernelHeap κ} {img : KernelImage} {u : UserImage} {s s' : KernelState κ}
  {mm mm' : MmStruct} {vm vm' : VmState κ}

/-! ## One call -/

/-- The ranges of the vmas. -/
def ranges (mmap : List VmArea) : List (Nat × Nat) := mmap.map fun vma => (vma.vmStart, vma.vmEnd)

theorem ranges_of_bare {mmap mmap' : List VmArea}
    (h : mmap'.map VmArea.bare = mmap.map VmArea.bare) : ranges mmap' = ranges mmap := by
  have := congrArg ranges h
  simp only [ranges, List.map_map] at this
  exact this

/-- Whether `find_vma` finds a vma depends on the ranges. -/
theorem findVma_none_iff {mmap : List VmArea} {addr : Nat} :
    findVma mmap addr = none ↔ ∀ r ∈ ranges mmap, ¬(r.1 ≤ addr ∧ addr < r.2) := by
  rw [findVma_eq_none]
  simp only [ranges, List.forall_mem_map, ← Bool.not_eq_true, VmArea.covers_iff]

/-- What a call of `sys_brk` does to the break and to the vmas; `heap` is the state of `kmalloc`. -/
inductive BrkSet (H : KernelHeap κ) (heap : κ) (addr : Nat) (mm mm' : MmStruct) : Prop
  | noMemory (hfind : findVma mm.mmap mm.startBrk = none) (hno : ¬Shrinks mm addr)
      (hself : (H.kmalloc heap sizeofVmArea).1 = 0) (hstart : mm'.startBrk = mm.startBrk)
      (hbrk : mm'.brk = nextBrk mm addr) (hranges : ranges mm'.mmap = ranges mm.mmap)
  | made (hfind : findVma mm.mmap mm.startBrk = none) (hno : ¬Shrinks mm addr)
      (hself : (H.kmalloc heap sizeofVmArea).1 ≠ 0) (hstart : mm'.startBrk = mm.startBrk)
      (hbrk : mm'.brk = nextBrk mm addr)
      (hranges : ranges mm'.mmap = (mm.startBrk, nextBrk mm addr) :: ranges mm.mmap)
  | moved (l₁ l₂ : List (Nat × Nat)) (r : Nat × Nat) (hold : ranges mm.mmap = l₁ ++ r :: l₂)
      (hin : r.1 ≤ mm.startBrk ∧ mm.startBrk < r.2) (hstart : mm'.startBrk = mm.startBrk)
      (hbrk : mm'.brk = nextBrk mm addr)
      (hranges : ranges mm'.mmap = l₁ ++ (r.1, nextBrk mm addr) :: l₂)

theorem BrkSet.start {heap : κ} {addr : Nat} (h : BrkSet H heap addr mm mm') :
    mm'.startBrk = mm.startBrk := by
  cases h <;> assumption

theorem BrkSet.brk {heap : κ} {addr : Nat} (h : BrkSet H heap addr mm mm') :
    mm'.brk = nextBrk mm addr := by
  cases h <;> assumption

/-- The end of `sys_brk`, for vmas that lie where those of the caller did. -/
theorem brkOut_set {addr : Nat} {mmap : List VmArea} (hmmap : ranges mmap = ranges mm.mmap)
    (hno : findVma mm.mmap mm.startBrk = none → ¬Shrinks mm addr)
    (hout : brkOut H { mm with mmap := mmap, brk := nextBrk mm addr } vm = (mm', vm')) :
    BrkSet H vm.heap addr mm mm' := by
  have hiff : findVma mmap mm.startBrk = none ↔ findVma mm.mmap mm.startBrk = none := by
    rw [findVma_none_iff, findVma_none_iff, hmmap]
  cases hfind : findVma mmap mm.startBrk with
  | none =>
      rcases hcall : H.kmalloc vm.heap sizeofVmArea with ⟨self, heap'⟩
      simp only [brkOut, hfind, setupVma, hcall] at hout
      by_cases hself : self = 0
      · rw [if_pos hself, Prod.mk.injEq] at hout
        obtain ⟨rfl, -⟩ := hout
        exact .noMemory (hiff.1 hfind) (hno (hiff.1 hfind)) (by rw [hcall, hself]) rfl rfl hmmap
      · rw [if_neg hself, Prod.mk.injEq] at hout
        obtain ⟨rfl, -⟩ := hout
        refine .made (hiff.1 hfind) (hno (hiff.1 hfind)) (by rwa [hcall]) rfl rfl ?_
        rw [← hmmap]
        rfl
  | some x =>
      obtain ⟨hcov, l₁, l₂, hsplit, -, hupdate⟩ := findVma_split hfind
      simp only [brkOut, hfind, Prod.mk.injEq] at hout
      obtain ⟨rfl, -⟩ := hout
      refine .moved (ranges l₁) (ranges l₂) (x.vmStart, x.vmEnd) ?_ (VmArea.covers_iff.1 hcov) rfl rfl ?_
      · rw [← hmmap, hsplit]
        simp [ranges]
      · simp [hupdate, ranges]

theorem BrkSet.congr_heap {heap heap' : κ} {addr : Nat} (h : BrkSet H heap addr mm mm')
    (hheap : findVma mm.mmap mm.startBrk = none → heap = heap') : BrkSet H heap' addr mm mm' := by
  cases h with
  | noMemory hfind hno hself hstart hbrk hranges =>
      exact .noMemory hfind hno (hheap hfind ▸ hself) hstart hbrk hranges
  | made hfind hno hself hstart hbrk hranges =>
      exact .made hfind hno (hheap hfind ▸ hself) hstart hbrk hranges
  | moved l₁ l₂ r hold hin hstart hbrk hranges =>
      exact .moved l₁ l₂ r hold hin hstart hbrk hranges

/-- A call of `sys_brk` that returns. -/
theorem sysBrk_set {pgDir addr : Nat} (hrun : sysBrk H pgDir addr mm vm = .ok (mm', vm')) :
    BrkSet H vm.heap addr mm mm' := by
  unfold sysBrk at hrun
  change (if KeepsBrk mm addr then _ else _) = _ at hrun
  by_cases hout : KeepsBrk mm addr
  · rw [if_pos hout] at hrun
    have hpair := Except.ok.inj hrun
    refine brkOut_set rfl (fun _ hs => hs.1 hout) (Eq.trans ?_ hpair)
    rw [nextBrk, if_pos hout]
  have hmod : addr % 2 ^ 32 = addr := by
    simp only [KeepsBrk, maxBrkAddr] at hout
    omega
  have hnext : nextBrk mm addr = addr := if_neg hout
  rw [if_neg hout] at hrun
  simp only [hmod] at hrun
  by_cases hlt : upperPageAddr addr < upperPageAddr mm.brk
  · rw [if_pos hlt] at hrun
    obtain ⟨vm₁, -, hrun⟩ := except_bind_eq_ok.1 hrun
    split_ifs at hrun with hnone
    -- the vma is there, so nothing is allocated
    have hbare : ∀ x, (dropBlocks (upperPageAddr addr) (upperPageAddr mm.brk) x).bare = x.bare :=
      fun _ => rfl
    have hranges := ranges_of_bare (@map_bare_updateVma mm.startBrk _ hbare mm.mmap)
    generalize updateVma mm.startBrk _ mm.mmap = mmap at hrun hranges
    have hpair := Except.ok.inj hrun
    rw [← hnext] at hpair
    exact (brkOut_set hranges (fun hno => absurd hno hnone) hpair).congr_heap
      fun hno => absurd hno hnone
  · rw [if_neg hlt] at hrun
    have hpair := Except.ok.inj hrun
    rw [← hnext] at hpair
    exact brkOut_set rfl (fun _ hs => hlt hs.2) hpair

/-! ## All address spaces -/

/-- `Q` holds of the address spaces of the tasks that run user code. -/
def AllSpaces (Q : MmStruct → Prop) (s : KernelState κ) : Prop :=
  ∀ i, UserRuns s i → ∀ mm, (s.tasks i).mm = some mm → Q mm

/-- The same break and the same ranges, in any order. -/
structure SameRanges (mm mm' : MmStruct) : Prop where
  start : mm'.startBrk = mm.startBrk
  brk : mm'.brk = mm.brk
  ranges : (ranges mm'.mmap).Perm (ranges mm.mmap)

/-- What `user_test` sets up: some of the calls of `setup_vma` may have failed. -/
structure UserSpace (u : UserImage) (mm : MmStruct) : Prop where
  start : mm.startBrk = u.bssEnd
  brk : mm.brk = u.bssEnd + pageSize
  ranges : ∃ l : List Area, l.Sublist u.areas ∧
    ranges mm.mmap = (l.map fun a => (a.vmStart, a.vmEnd)).reverse

theorem userTest_space {i : Nat} (hnil : ∀ mm, (s.tasks i).mm = some mm → mm.mmap = [])
    (hdir : (s.tasks i).pgDir = 0) (hok : userTest H u i s = .ok s') (hdir' : (s'.tasks i).pgDir ≠ 0)
    (hmm : (s'.tasks i).mm = some mm) : UserSpace u mm := by
  unfold userTest at hok
  dsimp only at hok
  split_ifs at hok with hpage haligned
  · obtain rfl := Except.ok.inj hok
    exact absurd hdir hdir'
  cases hold : (s.tasks i).mm with
  | none =>
      rw [hold] at hok
      cases hok
  | some old =>
      rw [hold] at hok
      obtain ⟨vm, -, hok⟩ := except_bind_eq_ok.1 hok
      split_ifs at hok
      obtain ⟨mem, -, rfl⟩ := except_map_eq_ok.1 hok
      obtain ⟨l, hl, hvmas⟩ := setupVmas_spec (H := H) u.areas old.mmap s.vm.heap
      rw [hnil old hold, List.append_nil] at hvmas
      simp only [Function.update_self] at hmm
      obtain rfl := Option.some.inj hmm
      refine ⟨rfl, rfl, l.map Prod.snd, hl, ?_⟩
      change ranges (setupVmas H u.areas old.mmap s.vm.heap).1 = _
      rw [hnil old hold, hvmas]
      simp [ranges, Area.vma, Function.comp_def]

theorem not_userRuns_of_exit {i : Nat} (h : Invariant img u s) (hlive : (s.tasks i).live = true)
    (hexit : doExit H i s = .ok s') : StepOf img u i s s' ∧ ¬UserRuns s' i := by
  obtain ⟨t, hexit', hstep, htask⟩ := exit_step (H := H) h hlive
  rw [hexit] at hexit'
  obtain rfl := Except.ok.inj hexit'
  refine ⟨hstep, fun hruns => ?_⟩
  have hlive' := hruns.1
  rw [htask] at hlive'
  simp [TaskStruct.live] at hlive'

/-- The vmas lie where they were after an exception. -/
theorem Faulted.ranges {d addr k : Nat} {mmap' : List VmArea} {T' : Set Nat}
    (hf : Faulted H d addr k mm vm mmap' vm' T') : ranges mmap' = ranges mm.mmap := by
  rcases hf.blocks with ⟨rfl, -⟩ | ⟨-, pb, -, -, -, rfl⟩
  · rfl
  · have hbare : ∀ x, (appendBlock pb x).bare = x.bare := fun _ => rfl
    exact ranges_of_bare (map_bare_updateVma hbare _)

theorem ranges_of_area {mmap mmap' : List VmArea}
    (h : mmap'.map VmArea.area = (mmap.map VmArea.area).reverse) :
    Kernel.ranges mmap' = (Kernel.ranges mmap).reverse := by
  have := congrArg (List.map fun p : Nat × Nat × Nat × Bool => (p.1, p.2.1)) h
  simp only [List.map_map, List.map_reverse] at this
  rw [Kernel.ranges, Kernel.ranges]
  exact this

/-- Where the address space `mm'` of task `i` after the action `a` comes from. -/
inductive SpaceOrigin (H : KernelHeap κ) (u : UserImage) (s : KernelState κ) (a : Action κ) (i : Nat)
    (mm' : MmStruct) : Prop
  /-- The task had it before, or it is a copy of that of its parent `j`. -/
  | same (j : Nat) (mm : MmStruct) (hruns : UserRuns s j) (hmm : (s.tasks j).mm = some mm)
      (hself : UserRuns s i → j = i) (hsame : SameRanges mm mm')
  | fresh (ha : a = .userTest i) (hspace : UserSpace u mm')
  | brk (regs addr : Nat) (mm : MmStruct) (ha : a = .brk i regs addr) (hruns : UserRuns s i)
      (hmm : (s.tasks i).mm = some mm) (hlayout : Layout mm)
      (hset : BrkSet H s.vm.heap addr mm mm')

theorem SameRanges.refl (mm : MmStruct) : SameRanges mm mm := ⟨rfl, rfl, List.Perm.refl _⟩

section Origin

variable {a : Action κ} {i j : Nat}

/-- A task that the step leaves alone. -/
theorem SpaceOrigin.of_task (htask : s'.tasks i = s.tasks i) (hruns : UserRuns s' i)
    (hmm : (s'.tasks i).mm = some mm) : SpaceOrigin H u s a i mm := by
  rw [UserRuns, htask] at hruns
  rw [htask] at hmm
  exact .same i mm hruns hmm (fun _ => rfl) (SameRanges.refl mm)

/-- So it is for all tasks but the one whose step it is. -/
theorem SpaceOrigin.of_step (hs : StepOf img u j s s') (hruns : UserRuns s' i)
    (hmm : (s'.tasks i).mm = some mm) (hj : i = j → SpaceOrigin H u s a i mm) :
    SpaceOrigin H u s a i mm := by
  by_cases hij : i = j
  · exact hj hij
  rcases hs.others i hij with heq | ⟨heq, -⟩
  · exact .of_task heq hruns hmm
  · rw [UserRuns, heq] at hruns
    cases hruns.1

/-- Every address space after a step comes from one before, but for that of `user_test`. -/
theorem step_origin (h : Invariant img u s) (ha : step H img u s a = some s') (hruns : UserRuns s' i)
    (hmm : (s'.tasks i).mm = some mm) : SpaceOrigin H u s a i mm := by
  obtain ⟨henabled, hexec⟩ := step_eq ha
  cases a with
  | userTest j =>
      rcases userTest_spec (H := H) h henabled.1 henabled.2.1 henabled.2.2 with
        herr | herr | ⟨t, hok, hstep, -⟩
      · rw [exec, herr] at hexec
        cases hexec
      · rw [exec, herr] at hexec
        cases hexec
      · rw [exec, hok] at hexec
        obtain rfl := Except.ok.inj hexec
        refine .of_step hstep hruns hmm ?_
        rintro rfl
        refine .fresh rfl (userTest_space (fun old hold => ?_) henabled.2.1 hok hruns.2 hmm)
        obtain ⟨mm₀, hmm₀, hnil, -⟩ := (h.tasks i).mm henabled.1
        rw [hold] at hmm₀
        obtain rfl := Option.some.inj hmm₀
        exact hnil henabled.2.1
  | fork j regs =>
      obtain ⟨⟨t, slot⟩, hok, rfl⟩ := except_map_eq_ok.1 hexec
      rcases sysFork_spec (H := H) h henabled.1 henabled.2 with
        herr | herr | ⟨slot', t', hok', hfailed⟩ | ⟨c, d, parent, cm, t', hok', hparent, hforked⟩
      · rw [hok] at herr
        cases herr
      · rw [hok] at herr
        cases herr
      · rw [hok] at hok'
        cases hok'
        refine .of_step (StepOf.forkFailed h henabled.1.1 henabled.2 hfailed) hruns hmm ?_
        rintro rfl
        exact .of_task (hfailed.slots.not_live henabled.1.1).2 hruns hmm
      · rw [hok] at hok'
        cases hok'
        refine .of_step (StepOf.forked h henabled.1 henabled.2 hparent hforked) hruns hmm ?_
        rintro rfl
        obtain ⟨vm, vm', -, -, hchild, -⟩ := hforked.space
        rw [hforked.mm] at hmm
        obtain rfl := Option.some.inj hmm
        refine .same j parent henabled.1 hparent (fun hc => ?_) ⟨hchild.start, hchild.brk, ?_⟩
        · -- the slot of the child was free
          have hfree := (hforked.slots.taken i rfl).2
          rw [(TaskStruct.live_iff.1 hc.1).1] at hfree
          cases hfree
        · rw [ranges_of_area hchild.areas]
          exact List.reverse_perm _
  | brk j regs addr =>
      obtain ⟨mm₀, mm', vm₁, vm', hb⟩ := brk_cases h henabled.1 henabled.2.1 henabled.2.2 hexec
      have hstep := brk_step (H := H) h henabled.1 henabled.2.1 henabled.2.2
      rw [show doBrk H j regs _ = _ from hexec] at hstep
      refine .of_step hstep.stepOf hruns hmm ?_
      rintro rfl
      rw [hb.tasks, Function.update_self] at hmm
      obtain rfl := Option.some.inj hmm
      have hset := sysBrk_set hb.run
      rw [hb.heap] at hset
      exact .brk regs addr mm₀ rfl henabled.1 hb.space hb.process.space.layout hset
  | exception j addr =>
      have hstep := exception_step (H := H) h henabled.1 addr
      rw [show doEl0Sync H j addr s = _ from hexec] at hstep
      refine .of_step hstep.stepOf hruns hmm ?_
      rintro rfl
      rcases exception_cases h henabled.1 hexec with hexit | ⟨mm₀, vma, hmm₀, -, hrest⟩
      · exact absurd hruns (not_userRuns_of_exit h henabled.1.1 hexit).2
      refine .same i mm₀ henabled.1 hmm₀ (fun _ => rfl) ?_
      rcases hrest with rfl | ⟨k, mmap', vm', T', rfl, hf⟩
      · simp only [setMm, Function.update_self, Option.some.injEq] at hmm
        rw [hmm]
        exact SameRanges.refl mm
      · simp only [setMm, Function.update_self, Option.some.injEq] at hmm
        subst hmm
        exact ⟨rfl, rfl, by rw [hf.ranges]⟩
  | exit j =>
      obtain ⟨hstep, hno⟩ := not_userRuns_of_exit h henabled hexec
      refine .of_step hstep hruns hmm ?_
      rintro rfl
      exact absurd hruns hno
  | userStore j virtAddr b =>
      obtain rfl := Except.ok.inj hexec
      exact .of_task rfl hruns hmm
  | kmallocUse heap =>
      obtain rfl := Except.ok.inj hexec
      exact .of_task rfl hruns hmm

/-- What depends on the break and the ranges of the vmas is kept by all steps but two. -/
theorem step_allSpaces {Q : MmStruct → Prop} (h : Invariant img u s) (hQ : AllSpaces Q s)
    (hsame : ∀ mm mm', SameRanges mm mm' → Q mm → Q mm')
    (huser : ∀ i mm, a = .userTest i → (s'.tasks i).mm = some mm → UserSpace u mm → Q mm)
    (hbrk : ∀ i regs addr mm mm', a = .brk i regs addr → (s.tasks i).mm = some mm → Layout mm →
      BrkSet H s.vm.heap addr mm mm' → Q mm → Q mm')
    (ha : step H img u s a = some s') : AllSpaces Q s' := by
  intro i hruns mm' hmm'
  cases step_origin h ha hruns hmm' with
  | same j mm hruns hmm _ hranges => exact hsame mm mm' hranges (hQ j hruns mm hmm)
  | fresh ha hspace => exact huser i mm' ha hmm' hspace
  | brk regs addr mm ha hruns hmm hlayout hset =>
      exact hbrk i regs addr mm mm' ha hmm hlayout hset (hQ i hruns mm hmm)

end Origin

/-! ## The heap is found -/

/-- As long as there is no vma for the heap, the break is on the first page. -/
def FirstPage (mm : MmStruct) : Prop :=
  findVma mm.mmap mm.startBrk = none → mm.brk ≤ mm.startBrk + pageSize

theorem FirstPage.congr (hs : SameRanges mm mm') (h : FirstPage mm) : FirstPage mm' := by
  intro hfind
  rw [hs.start, hs.brk]
  refine h ?_
  rw [findVma_none_iff, hs.start] at hfind
  rw [findVma_none_iff]
  exact fun r hr => hfind r (hs.ranges.mem_iff.2 hr)

/-- When `sys_brk` does not find a vma for the heap, the break is not taken down to `start_brk`, and
there is memory for the vma unless the break stays on the first page. -/
def KeepsHeap (H : KernelHeap κ) (s : KernelState κ) : Action κ → Prop
  | .brk i _ addr => ∀ mm ∈ (s.tasks i).mm, findVma mm.mmap mm.startBrk = none →
      (addr = mm.startBrk → mm.brk = mm.startBrk) ∧
        ((H.kmalloc s.vm.heap sizeofVmArea).1 ≠ 0 ∨ nextBrk mm addr ≤ mm.startBrk + pageSize)
  | _ => True

instance (s : KernelState κ) : (a : Action κ) → Decidable (KeepsHeap H s a)
  | .brk i _ _ => inferInstanceAs (Decidable (∀ mm ∈ (s.tasks i).mm, _))
  | .userTest _ => isTrue trivial
  | .fork _ _ => isTrue trivial
  | .exception _ _ => isTrue trivial
  | .exit _ => isTrue trivial
  | .userStore _ _ _ => isTrue trivial
  | .kmallocUse _ => isTrue trivial

/-- `sys_brk` finds the vma whose list it goes through. -/
def FindsHeap (s : KernelState κ) : Action κ → Prop
  | .brk i _ addr => UserRuns s i → ∀ mm ∈ (s.tasks i).mm, Shrinks mm addr →
      findVma mm.mmap mm.startBrk ≠ none
  | _ => True

/-- The break is on the first page, so only a call that takes it to `start_brk` shrinks the heap. -/
theorem FirstPage.shrinks {addr : Nat} (h : FirstPage mm) (hl : Layout mm)
    (hfind : findVma mm.mmap mm.startBrk = none) (hs : Shrinks mm addr) :
    addr = mm.startBrk ∧ mm.brk ≠ mm.startBrk := by
  have hbrk := h hfind
  have hdvd := hl.brk_dvd
  obtain ⟨hout, hlt⟩ := hs
  simp only [KeepsBrk] at hout
  obtain ⟨hnew₁, hnew₂, -, -⟩ := upperPageAddr_spec (show addr ≤ maxBrkAddr by omega)
  obtain ⟨hold₁, -, hold₃, -⟩ := upperPageAddr_spec hl.brk_le
  simp only [pageSize] at *
  omega

theorem BrkSet.firstPage {heap : κ} {addr : Nat} (hset : BrkSet H heap addr mm mm')
    (hcond : findVma mm.mmap mm.startBrk = none →
      (H.kmalloc heap sizeofVmArea).1 ≠ 0 ∨ nextBrk mm addr ≤ mm.startBrk + pageSize) :
    FirstPage mm' := by
  intro hfind
  rw [hset.start, hset.brk]
  rw [findVma_none_iff, hset.start] at hfind
  cases hset with
  | noMemory hnone _ hself _ _ _ => exact (hcond hnone).resolve_left fun hno => hno hself
  | made _ _ _ _ _ hranges =>
      have := hfind (mm.startBrk, nextBrk mm addr) (by simp [hranges])
      omega
  | moved l₁ l₂ r _ hin _ _ hranges =>
      have := hfind (r.1, nextBrk mm addr) (by simp [hranges])
      omega

theorem step_firstPage {a : Action κ} (h : Invariant img u s) (hQ : AllSpaces FirstPage s)
    (hcond : KeepsHeap H s a) (ha : step H img u s a = some s') : AllSpaces FirstPage s' := by
  refine step_allSpaces h hQ (fun _ _ => FirstPage.congr) ?_ ?_ ha
  · intro i mm _ _ hspace _
    rw [hspace.start, hspace.brk]
  · rintro i regs addr mm mm' rfl hmm _ hset _
    exact hset.firstPage fun hfind => (hcond mm hmm hfind).2

theorem boot_allSpaces {Q : MmStruct → Prop} (hboot : Boot img s) : AllSpaces Q s :=
  fun i hruns => absurd (hboot.pgDir i) hruns.2

/-- `sys_brk` never goes through the list of a vma that is not there, provided that a task does not
give its whole heap back before it has a vma, and that there is memory for the vma. -/
theorem shrinkRun_findsHeap {s₀ : KernelState κ} {as : List (Action κ)} (hboot : Boot img s₀)
    (hcond : Along (step H img u) (KeepsHeap H) s₀ as) : Along (step H img u) FindsHeap s₀ as := by
  refine along_mono_of_invariant (I := fun s => Invariant img u s ∧ AllSpaces FirstPage s) ?_ ?_
    ⟨boot_invariant hboot, boot_allSpaces hboot⟩ hcond
  · rintro s a ⟨hi, hQ⟩ hP
    cases a with
    | brk i regs _ =>
        intro hruns mm hmm hshrinks hfind
        have hp := (hi.tasks i).process_of hruns.1 hruns.2 hmm
        obtain ⟨haddr, hbrk⟩ := (hQ i hruns mm hmm).shrinks hp.space.layout hfind hshrinks
        exact hbrk ((hP mm hmm hfind).1 haddr)
    | _ => trivial
  · rintro s a s' ⟨hi, hQ⟩ hP ha
    exact ⟨step_invariant hi ha, step_firstPage hi hQ hP ha⟩

/-- The heap grows and shrinks again. -/
def sampleShrink : List (Action (List Nat)) :=
  [ .userTest 0, .brk 0 sampleRegs 0x0804E000, .exception 0 0x0804C000,
    .brk 0 sampleRegs 0x0804B800 ]

theorem sampleShrink_findsHeap :
    (runFrom (step sampleHeap sampleImage sampleUser) sampleBoot sampleShrink).isSome = true ∧
      Along (step sampleHeap sampleImage sampleUser) FindsHeap sampleBoot sampleShrink :=
  ⟨by decide +kernel, shrinkRun_findsHeap sampleBoot_boot (by decide +kernel)⟩

/-- The first call of a program is `brk(start_brk)`. -/
theorem sampleShrink_panics : ∃ s,
    runFrom (step sampleHeap sampleImage sampleUser) sampleBoot [.userTest 0] = some s ∧
      Enabled s (.brk 0 sampleRegs sampleUser.bssEnd) ∧
      ¬FindsHeap s (.brk 0 sampleRegs sampleUser.bssEnd) ∧
      exec sampleHeap sampleImage sampleUser s (.brk 0 sampleRegs sampleUser.bssEnd) =
        .error .kernelPanic := by
  have hend : (runFrom (step sampleHeap sampleImage sampleUser) sampleBoot [.userTest 0]).map
      (fun s => (decide (Enabled s (.brk 0 sampleRegs sampleUser.bssEnd)),
        (s.tasks 0).mm.any fun mm =>
          decide (Shrinks mm sampleUser.bssEnd ∧ findVma mm.mmap mm.startBrk = none),
        match exec sampleHeap sampleImage sampleUser s (.brk 0 sampleRegs sampleUser.bssEnd) with
        | .error .kernelPanic => true
        | _ => false)) = some (true, true, true) := by decide +kernel
  obtain ⟨s, hrun, hs⟩ := Option.map_eq_some_iff.1 hend
  simp only [Prod.mk.injEq] at hs
  obtain ⟨henabled, hmm, hpanic⟩ := hs
  have henabled := of_decide_eq_true henabled
  obtain ⟨mm, hmm, hbad⟩ := (Option.any_eq_true _ _).1 hmm
  obtain ⟨hshrinks, hfind⟩ := of_decide_eq_true hbad
  refine ⟨s, hrun, henabled, fun hfinds => hfinds henabled.1 mm hmm hshrinks hfind, ?_⟩
  · split at hpanic
    · assumption
    · cases hpanic

/-! ## One vma for the heap -/

/-- At most one range begins at `start_brk`, it ends at the break, and there are at most `n` others. -/
structure OneHeap (n : Nat) (mm : MmStruct) : Prop where
  once : ((ranges mm.mmap).filter fun r => r.1 = mm.startBrk).length ≤ 1
  ends : ∀ r ∈ ranges mm.mmap, r.1 = mm.startBrk → r.2 = mm.brk
  others : ((ranges mm.mmap).filter fun r => r.1 ≠ mm.startBrk).length ≤ n

theorem OneHeap.congr {n : Nat} (hs : SameRanges mm mm') (h : OneHeap n mm) : OneHeap n mm' := by
  refine ⟨?_, fun r hr => ?_, ?_⟩
  · rw [hs.start, (hs.ranges.filter _).length_eq]
    exact h.once
  · rw [hs.start, hs.brk]
    exact h.ends r (hs.ranges.mem_iff.1 hr)
  · rw [hs.start, (hs.ranges.filter _).length_eq]
    exact h.others

/-- The vmas of a task: one for the heap at most, that ends at the break, besides `n` others. -/
structure HeapVma (n : Nat) (mm : MmStruct) : Prop where
  once : (mm.mmap.filter fun vma => vma.vmStart = mm.startBrk).length ≤ 1
  ends : ∀ vma ∈ mm.mmap, vma.vmStart = mm.startBrk → vma.vmEnd = mm.brk
  apart : mm.mmap.Pairwise VmArea.Apart
  count : mm.mmap.length ≤ n + 1

theorem length_filter_ranges (p : Nat → Bool) (mmap : List VmArea) :
    ((ranges mmap).filter fun r => p r.1).length = (mmap.filter fun vma => p vma.vmStart).length := by
  rw [ranges, List.filter_map, List.length_map]
  rfl

theorem OneHeap.heapVma {n : Nat} (h : OneHeap n mm) (hl : Layout mm) : HeapVma n mm := by
  have honce := h.once
  have hothers := h.others
  rw [length_filter_ranges (fun x => decide (x = mm.startBrk))] at honce
  rw [length_filter_ranges (fun x => decide (x ≠ mm.startBrk))] at hothers
  refine ⟨honce, fun vma hvma hstart => h.ends _ (List.mem_map_of_mem hvma) hstart, hl.apart, ?_⟩
  have hsum := List.length_eq_length_filter_add (l := mm.mmap) fun vma =>
    decide (vma.vmStart = mm.startBrk)
  simp only [ne_eq, decide_not] at hothers
  omega

/-- `sys_brk` is not called on an empty heap, unless there is no memory for another vma and the break
stays where it is. -/
def KeepsOneHeap (H : KernelHeap κ) (s : KernelState κ) : Action κ → Prop
  | .brk i _ addr => ∀ mm ∈ (s.tasks i).mm, mm.brk = mm.startBrk →
      (H.kmalloc s.vm.heap sizeofVmArea).1 = 0 ∧ nextBrk mm addr = mm.brk
  | _ => True

instance (s : KernelState κ) : (a : Action κ) → Decidable (KeepsOneHeap H s a)
  | .brk i _ _ => inferInstanceAs (Decidable (∀ mm ∈ (s.tasks i).mm, _))
  | .userTest _ => isTrue trivial
  | .fork _ _ => isTrue trivial
  | .exception _ _ => isTrue trivial
  | .exit _ => isTrue trivial
  | .userStore _ _ _ => isTrue trivial
  | .kmallocUse _ => isTrue trivial

theorem BrkSet.oneHeap {heap : κ} {addr n : Nat} (hset : BrkSet H heap addr mm mm') (hl : Layout mm)
    (hcond : mm.brk = mm.startBrk → (H.kmalloc heap sizeofVmArea).1 = 0 ∧ nextBrk mm addr = mm.brk)
    (h : OneHeap n mm) : OneHeap n mm' := by
  have hge := hl.brk_ge
  -- a heap that is not found is empty
  have hempty : findVma mm.mmap mm.startBrk = none → ∀ r ∈ ranges mm.mmap, r.1 = mm.startBrk →
      r.2 = mm.brk ∧ mm.brk = mm.startBrk := by
    intro hfind r hr hstart
    have hend := h.ends r hr hstart
    have := findVma_none_iff.1 hfind r hr
    omega
  cases hset with
  | noMemory hfind _ _ hstart hbrk hranges =>
      refine ⟨?_, fun r hr hr' => ?_, ?_⟩
      · rw [hranges, hstart]
        exact h.once
      · rw [hranges] at hr
        rw [hstart] at hr'
        obtain ⟨hend, hbrk'⟩ := hempty hfind r hr hr'
        rw [hbrk, hend, (hcond hbrk').2]
      · rw [hranges, hstart]
        exact h.others
  | made hfind _ hself hstart hbrk hranges =>
      -- there was no vma for the heap
      have hnone : ∀ r ∈ ranges mm.mmap, r.1 ≠ mm.startBrk := fun r hr hr' =>
        hself (hcond (hempty hfind r hr hr').2).1
      refine ⟨?_, fun r hr hr' => ?_, ?_⟩
      · rw [hranges, hstart, List.filter_cons_of_pos (by simp),
          List.filter_eq_nil_iff.2 fun r hr => by simpa using hnone r hr]
        exact Nat.le_refl 1
      · rw [hranges] at hr
        rw [hstart] at hr'
        rcases List.mem_cons.1 hr with rfl | hr
        · exact hbrk.symm
        · exact absurd hr' (hnone r hr)
      · rw [hranges, hstart, List.filter_cons_of_neg (by simp)]
        exact h.others
  | moved l₁ l₂ r hold hin hstart hbrk hranges =>
      have hr : r.1 = mm.startBrk := by
        obtain ⟨vma, hvma, rfl⟩ := List.mem_map.1 (show r ∈ ranges mm.mmap by simp [hold])
        exact ((hl.vma vma hvma).heap (Nat.le_refl _) hl.brk_lt (VmArea.covers_iff.2 hin)).1
      obtain ⟨honce, -, hothers⟩ := h
      rw [hold] at honce hothers
      have hnone : ∀ q, q ∈ l₁ ∨ q ∈ l₂ → q.1 ≠ mm.startBrk := by
        intro q hq hq'
        rw [List.filter_append, List.filter_cons_of_pos (by simpa using hr), List.length_append,
          List.length_cons] at honce
        have hpos : ∀ l : List (Nat × Nat), q ∈ l →
            0 < (l.filter fun r => decide (r.1 = mm.startBrk)).length := fun l hql =>
          List.length_pos_of_mem (List.mem_filter.2 ⟨hql, decide_eq_true hq'⟩)
        rcases hq with hq | hq
        · have := hpos l₁ hq
          omega
        · have := hpos l₂ hq
          omega
      refine ⟨?_, fun q hq hq' => ?_, ?_⟩
      · rw [hranges, hstart]
        simpa [List.filter_append, List.filter_cons, hr] using honce
      · rw [hranges] at hq
        rw [hstart] at hq'
        simp only [List.mem_append, List.mem_cons] at hq
        rcases hq with hq | rfl | hq
        · exact absurd hq' (hnone q (Or.inl hq))
        · exact hbrk.symm
        · exact absurd hq' (hnone q (Or.inr hq))
      · rw [hranges, hstart]
        simpa [List.filter_append, List.filter_cons, hr] using hothers

theorem step_oneHeap {n : Nat} {a : Action κ} (h : Invariant img u s) (huser : s.userTask ≠ none)
    (hQ : AllSpaces (OneHeap n) s) (hcond : KeepsOneHeap H s a) (ha : step H img u s a = some s') :
    s'.userTask ≠ none ∧ AllSpaces (OneHeap n) s' := by
  obtain ⟨henabled, hexec⟩ := step_eq ha
  obtain ⟨j, hsteps⟩ := exec_step (H := H) h henabled
  rw [hexec] at hsteps
  refine ⟨?_, step_allSpaces h hQ (fun _ _ => OneHeap.congr) ?_ ?_ ha⟩
  · rcases hsteps.stepOf.user with heq | hno
    · rwa [heq]
    · exact absurd hno huser
  · rintro i mm rfl
    exact absurd henabled.2.2 huser
  · rintro i regs addr mm mm' rfl hmm hl hset hold
    exact hset.oneHeap hl (hcond mm hmm) hold

/-- The slot that `user_test` changes. -/
theorem userTest_fields {i : Nat} (hok : userTest H u i s = .ok s') :
    s'.userTask = some i ∧ ∃ pgDir mm,
      s'.tasks = Function.update s.tasks i { s.tasks i with pgDir := pgDir, mm := mm } := by
  unfold userTest at hok
  dsimp only at hok
  split_ifs at hok
  · obtain rfl := Except.ok.inj hok
    exact ⟨rfl, (s.tasks i).pgDir, (s.tasks i).mm, (Function.update_eq_self ..).symm⟩
  cases hmm : (s.tasks i).mm with
  | none =>
      rw [hmm] at hok
      cases hok
  | some mm =>
      rw [hmm] at hok
      obtain ⟨vm, -, hok⟩ := except_bind_eq_ok.1 hok
      split_ifs at hok
      obtain ⟨mem, -, rfl⟩ := except_map_eq_ok.1 hok
      exact ⟨rfl, _, _, rfl⟩

/-- Before `user_test` no task runs user code. -/
def NoUsers (s : KernelState κ) : Prop := s.userTask = none → AllSpaces (fun _ => False) s

theorem step_noUsers {a : Action κ} (h : Invariant img u s) (hQ : NoUsers s)
    (ha : step H img u s a = some s') : NoUsers s' := by
  intro huser'
  obtain ⟨henabled, hexec⟩ := step_eq ha
  obtain ⟨j, hsteps⟩ := exec_step (H := H) h henabled
  rw [hexec] at hsteps
  have huser : s.userTask = none := by
    rcases hsteps.stepOf.user with heq | hnone
    · rwa [← heq]
    · exact hnone
  refine step_allSpaces h (hQ huser) (fun _ _ _ => id) ?_ (fun _ _ _ _ _ _ _ _ _ => id) ha
  rintro i mm rfl - -
  have := (userTest_fields hexec).1
  rw [huser'] at this
  cases this

/-- The number of vmas of a task. -/
def numVmas (s : KernelState κ) (i : Nat) : Nat := ((s.tasks i).mm.map fun mm => mm.mmap.length).getD 0

/-- The vmas of `user_test` itself. -/
theorem UserSpace.oneHeap (h : UserSpace u mm) (hbss : u.bssStart < u.bssEnd) :
    OneHeap mm.mmap.length mm := by
  obtain ⟨l, hl, hranges⟩ := h.ranges
  have hnone : ∀ r ∈ Kernel.ranges mm.mmap, r.1 ≠ mm.startBrk := by
    intro r hr
    rw [hranges, List.mem_reverse] at hr
    obtain ⟨a, ha, rfl⟩ := List.mem_map.1 hr
    have hmem := hl.subset ha
    have h₁ := u.text_le
    have h₂ := u.rodata_ge
    have h₃ := u.rodata_le
    have h₄ := u.data_ge
    have h₅ := u.data_le
    have h₆ := u.bss_ge
    have h₈ := u.bssEnd_le
    rw [h.start]
    simp only [UserImage.areas, List.mem_cons, List.not_mem_nil, or_false] at hmem
    simp only [vmaUser, userSize, userStackStart, uva, uartBase] at *
    rcases hmem with rfl | rfl | rfl | rfl | rfl | rfl <;> simp only <;> omega
  refine ⟨?_, fun r hr hr' => absurd hr' (hnone r hr), ?_⟩
  · rw [List.filter_eq_nil_iff.2 fun r hr => by simpa using hnone r hr]
    exact Nat.zero_le 1
  · refine (List.length_filter_le _ _).trans ?_
    rw [Kernel.ranges, List.length_map]

/-- As long as `sys_brk` is not called on an empty heap, a task has one vma for its heap besides those
that `user_test` has made. -/
theorem heapRun_oneHeap {s₀ s₁ s₂ : KernelState κ} {before after : List (Action κ)} {i j : Nat}
    (hboot : Boot img s₀) (hbefore : runFrom (step H img u) s₀ before = some s₁)
    (htest : step H img u s₁ (.userTest i) = some s₂) (hbss : u.bssStart < u.bssEnd)
    (hcond : Along (step H img u) (KeepsOneHeap H) s₂ after)
    (hafter : runFrom (step H img u) s₂ after = some s) (hruns : UserRuns s j)
    (hmm : (s.tasks j).mm = some mm) : HeapVma (numVmas s₂ i) mm := by
  -- up to `user_test`
  have hfirst : Invariant img u s₁ ∧ NoUsers s₁ :=
    runFrom_invariant (I := fun s => Invariant img u s ∧ NoUsers s)
      (fun s a s' hi ha => ⟨step_invariant hi.1 ha, step_noUsers hi.1 hi.2 ha⟩)
      ⟨boot_invariant hboot, fun _ => boot_allSpaces hboot⟩ hbefore
  obtain ⟨henabled, hexec⟩ := step_eq htest
  have huser : s₂.userTask ≠ none := by
    rw [(userTest_fields hexec).1]
    exact Option.some_ne_none i
  have hsecond : AllSpaces (OneHeap (numVmas s₂ i)) s₂ := by
    refine step_allSpaces hfirst.1 (fun k hk mm hmm => (hfirst.2 henabled.2.2 k hk mm hmm).elim)
      (fun _ _ => OneHeap.congr) ?_ ?_ htest
    · rintro i' mm hi hmm hspace
      obtain rfl := Action.userTest.inj hi
      have hnum : numVmas s₂ i = mm.mmap.length := by rw [numVmas, hmm, Option.map_some, Option.getD_some]
      rw [hnum]
      exact hspace.oneHeap hbss
    · rintro i' regs addr mm mm' hno
      cases hno
  -- from there on
  obtain ⟨hi, -, hQ⟩ : Invariant img u s ∧ s.userTask ≠ none ∧ AllSpaces (OneHeap (numVmas s₂ i)) s :=
    runFrom_invariant_along
      (I := fun s => Invariant img u s ∧ s.userTask ≠ none ∧ AllSpaces (OneHeap (numVmas s₂ i)) s)
      (fun s a s' hi hP ha => ⟨step_invariant hi.1 ha, step_oneHeap hi.1 hi.2.1 hi.2.2 hP ha⟩)
      ⟨step_invariant hfirst.1 htest, huser, hsecond⟩ hcond hafter
  have hp := (hi.tasks j).process_of hruns.1 hruns.2 hmm
  exact (hQ j hruns mm hmm).heapVma hp.space.layout

theorem sampleHeap_oneHeap : ∃ s₁ s₂ s mm,
    step sampleHeap sampleImage sampleUser s₁ (.userTest 0) = some s₂ ∧
      runFrom (step sampleHeap sampleImage sampleUser) s₂
        [.brk 0 sampleRegs 0x0804E000, .fork 0 sampleRegs, .brk 0 sampleRegs 0x0804B800] = some s ∧
      (s.tasks 1).mm = some mm ∧ HeapVma (numVmas s₂ 0) mm := by
  have hend : ((step sampleHeap sampleImage sampleUser sampleBoot (.userTest 0)).bind fun s₂ =>
      (runFrom (step sampleHeap sampleImage sampleUser) s₂
        [.brk 0 sampleRegs 0x0804E000, .fork 0 sampleRegs, .brk 0 sampleRegs 0x0804B800]).map fun s =>
      (decide (Along (step sampleHeap sampleImage sampleUser) (KeepsOneHeap sampleHeap) s₂
        [.brk 0 sampleRegs 0x0804E000, .fork 0 sampleRegs, .brk 0 sampleRegs 0x0804B800]),
        decide (UserRuns s 1), (s.tasks 1).mm.isSome)) = some (true, true, true) := by decide +kernel
  obtain ⟨s₂, htest, hrest⟩ := Option.bind_eq_some_iff.1 hend
  obtain ⟨s, hrun, hs⟩ := Option.map_eq_some_iff.1 hrest
  simp only [Prod.mk.injEq] at hs
  obtain ⟨hcond, hruns, hsome⟩ := hs
  obtain ⟨mm, hmm⟩ := Option.isSome_iff_exists.1 hsome
  exact ⟨sampleBoot, s₂, s, mm, htest, hrun, hmm, heapRun_oneHeap sampleBoot_boot (runFrom_nil _ _) htest
    (by decide) (of_decide_eq_true hcond) hrun (of_decide_eq_true hruns) hmm⟩

/-- A query after the whole heap has been given back makes a second vma. -/
theorem sampleHeap_twice : ∃ s₂ s mm,
    step sampleHeap sampleImage sampleUser sampleBoot (.userTest 0) = some s₂ ∧
      runFrom (step sampleHeap sampleImage sampleUser) s₂
        [.brk 0 sampleRegs 0, .brk 0 sampleRegs sampleUser.bssEnd, .brk 0 sampleRegs 0] = some s ∧
      UserRuns s 0 ∧ (s.tasks 0).mm = some mm ∧ ¬HeapVma (numVmas s₂ 0) mm := by
  have hend : ((step sampleHeap sampleImage sampleUser sampleBoot (.userTest 0)).bind fun s₂ =>
      (runFrom (step sampleHeap sampleImage sampleUser) s₂
        [.brk 0 sampleRegs 0, .brk 0 sampleRegs sampleUser.bssEnd, .brk 0 sampleRegs 0]).map fun s =>
      (decide (UserRuns s 0), (s.tasks 0).mm.any fun mm =>
        decide ((mm.mmap.filter fun vma => vma.vmStart = mm.startBrk).length = 2))) =
      some (true, true) := by decide +kernel
  obtain ⟨s₂, htest, hrest⟩ := Option.bind_eq_some_iff.1 hend
  obtain ⟨s, hrun, hs⟩ := Option.map_eq_some_iff.1 hrest
  simp only [Prod.mk.injEq] at hs
  obtain ⟨hruns, hany⟩ := hs
  obtain ⟨mm, hmm, htwo⟩ := (Option.any_eq_true _ _).1 hany
  refine ⟨s₂, s, mm, htest, hrun, of_decide_eq_true hruns, hmm, fun h => ?_⟩
  have honce := h.once
  rw [of_decide_eq_true htwo] at honce
  omega

end Kernel
end ToutOS
