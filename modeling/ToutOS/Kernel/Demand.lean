import ToutOS.Kernel.Isolation

/-!
# Demand — vmas that are filled on demand

An exception enters a page in the page table and in the list of the vma, and `sys_brk` takes pages
out of both.

* `Listed` — the list of a vma and the page table agree;
* `demand_fault`, `demand_dropHeap`, `demand_brkOut` — what changes one of the two changes the other,
  provided that the exception finds no page and gets a `pages_block`, or finds one and gets none;
* `DemandTracked`, `demandRun_tracked` — runs without `sys_fork` whose exceptions are such.
-/

namespace ToutOS
namespace Kernel

open Base Mm

variable {κ : Type} {H : KernelHeap κ} {img : KernelImage} {u : UserImage} {s s' : KernelState κ}
  {m m' : Mem} {d : Nat} {mm mm' : MmStruct} {vm vm' : VmState κ}

/-! ## Lists and tables -/

/-- The page of `page` has addresses of the vma. -/
def VmArea.overlaps (vma : VmArea) (page : Nat) : Prop :=
  page < vma.vmEnd ∧ vma.vmStart < page + pageSize

/-- The entries of the vma are different pages, and they are the pages of the vma that are mapped. -/
structure DemandTracked (m : Mem) (pgDir : Nat) (vma : VmArea) : Prop where
  distinct : (vma.pagesBlockList.map PagesBlock.userVirtAddr).Nodup
  mapped_iff : ∀ v, v < 2 ^ 39 → pageSize ∣ v → vma.overlaps v →
    (userFrame m pgDir v ≠ none ↔ ∃ pb ∈ vma.pagesBlockList, pb.userVirtAddr = v)
  frame : ∀ v, v < 2 ^ 39 → pageSize ∣ v → vma.overlaps v → ∀ pb ∈ vma.pagesBlockList,
    pb.userVirtAddr = v → userFrame m pgDir v = some (pa pb.linearAddr)

/-- The same in a form that the steps keep. -/
structure Listed (m : Mem) (d : Nat) (vma : VmArea) : Prop where
  distinct : (vma.pagesBlockList.map PagesBlock.userVirtAddr).Nodup
  inside : ∀ pb ∈ vma.pagesBlockList, vma.covers pb.userVirtAddr = true ∧ pageSize ∣ pb.userVirtAddr
  mapped : ∀ pb ∈ vma.pagesBlockList, lookup true m d pb.userVirtAddr = some (pa pb.linearAddr)
  listed : ∀ v a, v < 2 ^ 39 → vma.covers (pageAddr v) = true → lookup true m d v = some a →
    ∃ pb ∈ vma.pagesBlockList, pb.userVirtAddr = pageAddr v

/-- So it is in all vmas that are filled on demand. -/
def DemandListed (m : Mem) (d : Nat) (mm : MmStruct) : Prop :=
  ∀ x ∈ mm.mmap, x.lma = noLma → Listed m d x

theorem pageAddr_of_dvd {v : Nat} (h : pageSize ∣ v) : pageAddr v = v := Nat.div_mul_cancel h

theorem Listed.tracked {pgDir : Nat} {x : VmArea} {startBrk brk : Nat}
    (h : Listed m (physical true pgDir) x) (hok : x.Ok startBrk brk) : DemandTracked m pgDir x := by
  have hcov : ∀ v, pageSize ∣ v → x.overlaps v → x.covers (pageAddr v) = true := by
    rintro v hdvd ⟨hlt, hge⟩
    have hstart := hok.start_dvd
    rw [pageAddr_of_dvd hdvd, VmArea.covers_iff]
    simp only [pageSize] at *
    omega
  refine ⟨h.distinct, fun v hv hdvd hin => ⟨fun hsome => ?_, ?_⟩, ?_⟩
  · obtain ⟨a, ha⟩ := Option.ne_none_iff_exists'.1 hsome
    obtain ⟨pb, hpb, heq⟩ := h.listed v a hv (hcov v hdvd hin) ha
    exact ⟨pb, hpb, heq.trans (pageAddr_of_dvd hdvd)⟩
  · rintro ⟨pb, hpb, rfl⟩
    rw [userFrame, h.mapped pb hpb]
    exact Option.some_ne_none _
  · rintro v - - - pb hpb rfl
    exact h.mapped pb hpb

theorem DemandListed.frame (h : DemandListed m d mm)
    (hsame : ∀ v, lookup true m' d v = lookup true m d v) : DemandListed m' d mm := by
  intro x hx hlma
  obtain ⟨h₁, h₂, h₃, h₄⟩ := h x hx hlma
  simp only [← hsame] at h₃ h₄
  exact ⟨h₁, h₂, h₃, h₄⟩

/-- A vma of which no page has been entered. -/
theorem listed_empty {x : VmArea} (hempty : x.pagesBlockList = [])
    (hnone : ∀ v a, v < 2 ^ 39 → x.covers (pageAddr v) = true → lookup true m d v ≠ some a) :
    Listed m d x := by
  refine ⟨by simp [hempty], by simp [hempty], by simp [hempty], fun v a hv hcov ha => ?_⟩
  exact absurd ha (hnone v a hv hcov)

/-! ## Exceptions -/

section Fault

variable {addr k : Nat} {mmap' : List VmArea} {T' : Set Nat} {z : VmArea}

/-- The vmas after an exception: those that do not hold the address are as they were. -/
theorem Faulted.other (hf : Faulted H d addr k mm vm mmap' vm' T') (h : SpaceOk vm.mem d mm)
    (hfind : findVma mm.mmap addr = some z) {x : VmArea} (hx : x ∈ mmap') :
    (x ∈ mm.mmap ∧ (x.covers addr = false ∨ x = z ∧ (H.kmalloc vm.heap sizeofPagesBlock).1 = 0)) ∨
      (H.kmalloc vm.heap sizeofPagesBlock).1 ≠ 0 ∧ ∃ pb : PagesBlock,
        pb.userVirtAddr = pageAddr addr ∧ pa pb.linearAddr = frame k ∧ x = appendBlock pb z := by
  obtain ⟨hcov, l₁, l₂, hsplit, hl₁, hupdate⟩ := findVma_split hfind
  have hapart := h.layout.apart
  rw [hsplit, List.pairwise_append, List.pairwise_cons] at hapart
  have hl₂ : ∀ y ∈ l₂, y.covers addr = false := fun y hy => hapart.2.1.1 y hy _ hcov
  rcases hf.blocks with ⟨rfl, hnull⟩ | ⟨hsome, pb, huser, hlin, -, rfl⟩
  · refine Or.inl ⟨hx, ?_⟩
    rw [hsplit] at hx
    simp only [List.mem_append, List.mem_cons] at hx
    rcases hx with hx | rfl | hx
    · exact Or.inl (hl₁ x hx)
    · exact Or.inr ⟨rfl, hnull⟩
    · exact Or.inl (hl₂ x hx)
  · rw [hupdate] at hx
    rw [hsplit]
    simp only [List.mem_append, List.mem_cons] at hx ⊢
    rcases hx with hx | rfl | hx
    · exact Or.inl ⟨Or.inl hx, Or.inl (hl₁ x hx)⟩
    · exact Or.inr ⟨hsome, pb, huser, by rw [hlin, pa_pagePool hf.lt], rfl⟩
    · exact Or.inl ⟨Or.inr (Or.inr hx), Or.inl (hl₂ x hx)⟩

/-- An exception that enters a page in one of the two enters it in the other. -/
theorem demand_fault (hf : Faulted H d addr k mm vm mmap' vm' T') (h : SpaceOk vm.mem d mm)
    (hfind : findVma mm.mmap addr = some z) (hd : DemandListed vm.mem d mm)
    (hcond : z.lma = noLma →
      (lookup true vm.mem d addr = none ↔ (H.kmalloc vm.heap sizeofPagesBlock).1 ≠ 0)) :
    DemandListed vm'.mem d { mm with mmap := mmap' } := by
  obtain ⟨hz, hcovz⟩ := findVma_mem hfind
  have hokz := h.layout.vma z hz
  have hwindow : addr < 2 ^ 39 := by
    have hend := hokz.end_le
    rw [VmArea.covers_iff] at hcovz
    omega
  have hpage : ∀ v, pageAddr v = pageAddr addr → v < 2 ^ 39 → lookup true vm'.mem d v =
      some ((lookup true vm.mem d v).getD (frame k)) := by
    intro v hv hlt
    rw [hf.lookup v hlt, if_pos hv]
  have hsame : ∀ v, pageAddr v = pageAddr addr → lookup true vm.mem d v = lookup true vm.mem d addr := by
    intro v hv
    refine lookup_congr ?_
    rw [pathOf_eq_iff]
    simp only [pageAddr, pageSize] at hv
    omega
  have hinside : ∀ {y : VmArea} {p : Nat}, y ∈ mm.mmap → y.covers p = true → p < 2 ^ 39 := by
    intro y p hy hcov
    have hend := (h.layout.vma y hy).end_le
    rw [VmArea.covers_iff] at hcov
    omega
  -- the pages of a vma whose table entries have not changed
  have hkeep : ∀ x ∈ mm.mmap, x.lma = noLma →
      (∀ v, v < 2 ^ 39 → x.covers (pageAddr v) = true →
        lookup true vm'.mem d v = lookup true vm.mem d v) → Listed vm'.mem d x := by
    intro x hx hlma hlook
    obtain ⟨h₁, h₂, h₃, h₄⟩ := hd x hx hlma
    refine ⟨h₁, h₂, fun pb hpb => ?_, fun v a hv hcov ha => h₄ v a hv hcov (by rwa [← hlook v hv hcov])⟩
    obtain ⟨hcov, hdvd⟩ := h₂ pb hpb
    rw [hlook _ (hinside hx hcov) (by rwa [pageAddr_of_dvd hdvd])]
    exact h₃ pb hpb
  intro x hx hlma
  rcases hf.other h hfind hx with ⟨hmem, hno | ⟨rfl, hnull⟩⟩ | ⟨hentry, pb, huser, hlin, rfl⟩
  · -- another vma
    refine hkeep x hmem hlma fun v hv hcov => ?_
    rw [hf.lookup v hv, if_neg]
    intro hv'
    rw [hv'] at hcov
    have := h.layout.unique hmem hz hcov (hokz.covers_pageAddr hcovz)
    rw [this, hcovz] at hno
    cases hno
  · -- the page was mapped before, and there is no entry for it
    have hsome : lookup true vm.mem d addr ≠ none := fun hnone =>
      ((hcond hlma).1 hnone) hnull
    refine hkeep x hmem hlma fun v hv _ => ?_
    rw [hf.lookup v hv]
    split_ifs with hv'
    · obtain ⟨a, ha⟩ := Option.ne_none_iff_exists'.1 hsome
      rw [hsame v hv', ha, Option.getD_some]
    · rfl
  · -- the page is new in both
    have hlmaz : z.lma = noLma := hlma
    obtain ⟨h₁, h₂, h₃, h₄⟩ := hd z hz hlmaz
    have hnone := (hcond hlmaz).2 hentry
    have hpageAddr : pageAddr (pageAddr addr) = pageAddr addr := pageAddr_pageAddr addr
    have hnew : ∀ p ∈ z.pagesBlockList, p.userVirtAddr ≠ pageAddr addr := by
      intro p hp heq
      have := h₃ p hp
      rw [heq, hsame _ hpageAddr, hnone] at this
      cases this
    refine ⟨?_, fun p hp => ?_, fun p hp => ?_, fun v a hv hcov ha => ?_⟩
    · simp only [appendBlock, List.map_append, List.map_cons, List.map_nil]
      rw [List.nodup_append]
      refine ⟨h₁, List.nodup_singleton _, fun a ha b hb heq => ?_⟩
      obtain ⟨p, hp, rfl⟩ := List.mem_map.1 ha
      rw [List.mem_singleton.1 hb, huser] at heq
      exact hnew p hp heq
    · rcases List.mem_append.1 hp with hp | hp
      · exact h₂ p hp
      · rw [List.mem_singleton.1 hp, huser]
        exact ⟨hokz.covers_pageAddr hcovz, by rw [pageAddr]; exact Nat.dvd_mul_left _ _⟩
    · rcases List.mem_append.1 hp with hp | hp
      · obtain ⟨hcov, hdvd⟩ := h₂ p hp
        rw [hf.lookup _ (hinside hz hcov), if_neg, h₃ p hp]
        rw [pageAddr_of_dvd hdvd]
        exact hnew p hp
      · rw [List.mem_singleton.1 hp, huser, hlin,
          hpage _ hpageAddr (hinside hz (hokz.covers_pageAddr hcovz)), hsame _ hpageAddr, hnone,
          Option.getD_none]
    · by_cases hv' : pageAddr v = pageAddr addr
      · exact ⟨pb, List.mem_append_right _ (List.mem_singleton_self pb), huser.trans hv'.symm⟩
      · rw [hf.lookup v hv, if_neg hv'] at ha
        obtain ⟨p, hp, heq⟩ := h₄ v a hv hcov ha
        exact ⟨p, List.mem_append_left _ hp, heq⟩

end Fault

/-! ## `sys_brk` -/

section Brk

variable {lo n b : Nat}

/-- The pages above the new break are taken out of both. -/
theorem demand_dropHeap (h : SpaceOk vm.mem d mm) (hd : DemandListed vm.mem d mm)
    (hlo : mm.startBrk ≤ lo) (hhi : lo + pageSize * n ≤ maxBrkAddr) (hdvd : pageSize ∣ lo)
    (hu : Unmapped d lo n vm vm') : DemandListed vm'.mem d (dropHeap lo (lo + pageSize * n) mm) := by
  intro x hx hlma
  obtain ⟨y, hy, hbare, hsub, hdrop, hkeep⟩ := dropHeap_vma h.layout hx
  obtain ⟨h₁, h₂, h₃, h₄⟩ := hd y hy (lma_congr hbare ▸ hlma)
  -- an address of the range belongs to the heap
  have hheap : ∀ p, y.covers p = true → lo ≤ p → p < lo + pageSize * n → y.covers mm.startBrk = true := by
    intro p hcov hge hlt
    obtain ⟨hs, -, -⟩ := (h.layout.vma y hy).heap (by omega) (by omega) hcov
    rw [VmArea.covers_iff] at hcov ⊢
    omega
  have hwindow : ∀ p, y.covers p = true → p < 2 ^ 39 := by
    intro p hcov
    have := (h.layout.vma y hy).end_le
    rw [VmArea.covers_iff] at hcov
    omega
  have hrange : ∀ p, pageSize ∣ p → p < 2 ^ 39 → ¬(lo ≤ p ∧ p < lo + pageSize * n) →
      ∀ j < n, pathOf p ≠ pathOf (lo + pageSize * j) := by
    intro p hp hlt hno j hj hpath
    rw [pathOf_eq_iff] at hpath
    simp only [pageSize, maxBrkAddr] at *
    omega
  refine ⟨(hsub.map _).nodup h₁, fun pb hpb => ?_, fun pb hpb => ?_, fun v a hv hcov ha => ?_⟩
  · rw [← covers_congr hbare]
    exact h₂ pb (hsub.subset hpb)
  · obtain ⟨hcov, hp⟩ := h₂ pb (hsub.subset hpb)
    rw [hu.other _ (hrange _ hp (hwindow _ hcov) fun hin =>
      hdrop (hheap _ hcov hin.1 hin.2) pb hpb hin)]
    exact h₃ pb (hsub.subset hpb)
  · have hout : ∀ j < n, pathOf v ≠ pathOf (lo + pageSize * j) := by
      intro j hj hpath
      rw [hu.gone v ⟨j, hj, hpath⟩] at ha
      cases ha
    rw [hu.other v hout] at ha
    rw [← covers_congr hbare] at hcov
    obtain ⟨pb, hpb, heq⟩ := h₄ v a hv hcov ha
    refine ⟨pb, hkeep pb hpb fun hin => ?_, heq⟩
    -- the page is one of those unmapped
    rw [heq] at hin
    refine hout ((pageAddr v - lo) / pageSize) ?_ ?_
    · have := hin.2
      simp only [pageAddr, pageSize] at *
      omega
    · have := hin.2
      rw [pathOf_eq_iff]
      simp only [pageAddr, pageSize] at *
      omega

/-- Moving the break does not change what is entered. -/
theorem demand_brkOut (h : SpaceOk vm.mem d mm) (hd : DemandListed vm.mem d mm) (hle : b ≤ maxBrkAddr)
    (hbelow : ∀ v a, mm.startBrk ≤ v → v < maxBrkAddr → lookup true vm.mem d v = some a →
      pageAddr v < b) :
    DemandListed (brkOut H { mm with brk := b } vm).2.mem d (brkOut H { mm with brk := b } vm).1 := by
  -- a page of the heap that is mapped belongs to the heap there was
  have hheap : ∀ v a, v < 2 ^ 39 → mm.startBrk ≤ pageAddr v → pageAddr v < b →
      lookup true vm.mem d v = some a →
      ∃ y ∈ mm.mmap, y.covers (pageAddr v) = true ∧ y.covers mm.startBrk = true := by
    intro v a hv h₁ h₂ ha
    obtain ⟨y, hy, hcov⟩ := h.maps.covered v a hv ha
    obtain ⟨hs, -, -⟩ := (h.layout.vma y hy).heap h₁ (by omega) hcov
    refine ⟨y, hy, hcov, ?_⟩
    rw [VmArea.covers_iff] at hcov ⊢
    omega
  rcases brkOut_cases (H := H) mm vm b with
    ⟨heap', hout, -⟩ | ⟨x, heap', hout, hfind, hs, he, hlma, -, hlist⟩ | ⟨z, hout, hfind⟩
  · rw [hout]
    exact hd
  · rw [hout]
    intro y hy hlmay
    rcases List.mem_cons.1 hy with rfl | hy
    · refine listed_empty hlist fun v a hv hcov ha => ?_
      rw [VmArea.covers_iff] at hcov
      obtain ⟨z, hz, -, hcovz⟩ := hheap v a hv (by omega) (by omega) ha
      rw [findVma_eq_none.1 hfind z hz] at hcovz
      cases hcovz
    · exact hd y hy hlmay
  · rw [hout]
    obtain ⟨hz, hcovz⟩ := findVma_mem hfind
    obtain ⟨hs, hlmaz, -⟩ := (h.layout.vma z hz).heap (Nat.le_refl _) h.layout.brk_lt hcovz
    intro y hy hlmay
    rcases mem_updateVma hy with hy | ⟨z', hfind', rfl⟩
    · exact hd y hy hlmay
    · rw [hfind] at hfind'
      cases hfind'
      obtain ⟨h₁, h₂, h₃, h₄⟩ := hd z hz hlmaz
      refine ⟨h₁, fun pb hpb => ?_, h₃, fun v a hv hcov ha => ?_⟩
      · obtain ⟨hcov, hdvd⟩ := h₂ pb hpb
        refine ⟨?_, hdvd⟩
        have hplace := (h.layout.vma z hz).place
        have hend := h.layout.brk_le
        rw [VmArea.covers_iff] at hcov
        have hlt := hbelow pb.userVirtAddr _ (by omega) (by
          have := (h.layout.vma z hz).heap (Nat.le_refl _) h.layout.brk_lt hcovz
          omega) (h₃ pb hpb)
        rw [pageAddr_of_dvd hdvd] at hlt
        exact VmArea.covers_iff.2 ⟨hcov.1, hlt⟩
      · rw [VmArea.covers_iff] at hcov
        have hge' : z.vmStart ≤ pageAddr v := hcov.1
        have hlt' : pageAddr v < b := hcov.2
        obtain ⟨y, hy, hcovy, hbrk⟩ := hheap v a hv (by omega) hlt' ha
        rw [h.layout.unique hy hz hbrk hcovz] at hcovy
        exact h₄ v a hv hcovy ha

/-- `sys_brk` changes both alike. -/
theorem demand_brk (h : SpaceOk vm.mem d mm) (hzero : ZeroPage vm.mem)
    (hused : ∀ a ∈ footprint vm.mem d mm.mmap, ¬FreeFrame vm.pagesUsage a)
    (hd : DemandListed vm.mem d mm) {addr : Nat}
    (hrun : sysBrk H (linear true d) addr mm vm = .ok (mm', vm')) : DemandListed vm'.mem d mm' := by
  rcases sysBrk_cases (H := H) h hzero hused addr with
    ⟨herr, -⟩ | ⟨b, hok, hge, hle, hbelow⟩ | ⟨lo, n, vm₁, hok, hs⟩
  · rw [hrun] at herr
    cases herr
  · rw [hrun] at hok
    have hpair := Except.ok.inj hok
    have hout := demand_brkOut (H := H) h hd hle hbelow
    rw [← hpair] at hout
    exact hout
  · rw [hrun] at hok
    have hpair := Except.ok.inj hok
    have hge := hs.ge
    have hlo := hs.le_lo
    have hhi := hs.hi_le
    have hfirst := dropHeap_step h hused (by omega) hhi hs.lo_dvd hs.unmapped
    have hdrop := demand_dropHeap h hd (by omega) hhi hs.lo_dvd hs.unmapped
    have hout := @demand_brkOut κ H d (dropHeap lo (lo + pageSize * n) mm) vm₁ addr hfirst.ok hdrop
      (by omega) fun v a h₁ h₂ ha => hs.below h h₁ h₂ ha
    rw [← hpair] at hout
    exact hout

end Brk

/-! ## Runs -/

/-- So it is in all address spaces. -/
def AllListed (s : KernelState κ) : Prop :=
  ∀ i, (s.tasks i).live = true → (s.tasks i).pgDir ≠ 0 → ∀ mm, (s.tasks i).mm = some mm →
    DemandListed s.vm.mem (physical true (s.tasks i).pgDir) mm

/-- No call of `sys_fork`. -/
def Action.NoFork : Action κ → Prop
  | .fork _ _ => False
  | _ => True

/-- An exception in a vma that is filled on demand finds the page not mapped exactly if there is a
`pages_block` for it, or it finds no free page. -/
def EntersBoth (H : KernelHeap κ) (s : KernelState κ) : Action κ → Prop
  | .exception i addr => ∀ vma ∈ s.vmaOf i addr, vma.lma = noLma →
      (userFrame s.vm.mem (s.tasks i).pgDir addr = none ↔
        (H.kmalloc s.vm.heap sizeofPagesBlock).1 ≠ 0) ∨ PoolFull s.vm.pagesUsage
  | _ => True

instance (a : Action κ) : Decidable a.NoFork := by
  cases a <;> unfold Action.NoFork <;> infer_instance

instance (s : KernelState κ) : (a : Action κ) → Decidable (EntersBoth H s a)
  | .exception i addr => inferInstanceAs (Decidable (∀ vma ∈ s.vmaOf i addr, _))
  | .userTest _ => isTrue trivial
  | .fork _ _ => isTrue trivial
  | .brk _ _ _ => isTrue trivial
  | .exit _ => isTrue trivial
  | .userStore _ _ _ => isTrue trivial
  | .kmallocUse _ => isTrue trivial

/-- A step of task `j` that leaves the lists of `j` in order. -/
theorem AllListed.step {j : Nat} (h : Invariant img u s) (hd : AllListed s) (hs : StepOf img u j s s')
    (hj : (s'.tasks j).live = true → (s'.tasks j).pgDir ≠ 0 → ∀ mm, (s'.tasks j).mm = some mm →
      DemandListed s'.vm.mem (physical true (s'.tasks j).pgDir) mm) : AllListed s' := by
  intro k hlive hdir mm hmm
  by_cases hk : k = j
  · subst hk
    exact hj hlive hdir mm hmm
  rcases hs.others k hk with heq | ⟨heq, -⟩
  · rw [heq] at hlive hdir hmm ⊢
    obtain ⟨mm', hmm', hp⟩ := (h.tasks k).process hlive hdir
    refine (hd k hlive hdir mm hmm).frame fun v => ?_
    exact lookup_frame hp.space.holdings.tables (hs.tables h hk hlive hdir) v
  · rw [heq] at hlive
    cases hlive

/-- A step that changes neither the task nor its tables. -/
theorem AllListed.same {j : Nat} (h : Invariant img u s) (hd : AllListed s) (hs : StepOf img u j s s')
    (htask : s'.tasks j = s.tasks j) (htables : SameTaskTables s.vm.mem s'.vm.mem (s.tasks j)) :
    AllListed s' := by
  refine hd.step h hs fun hlive hdir mm hmm => ?_
  rw [htask] at hlive hdir hmm ⊢
  obtain ⟨mm', -, hp⟩ := (h.tasks j).process hlive hdir
  exact (hd j hlive hdir mm hmm).frame
    (lookup_frame hp.space.holdings.tables (htables hlive hdir))

theorem exception_allListed {i addr : Nat} (h : Invariant img u s) (hd : AllListed s)
    (hruns : UserRuns s i) (hcond : EntersBoth H s (.exception i addr))
    (hok : doEl0Sync H i addr s = .ok s') : AllListed s' := by
  have hstep : StepOf img u i s s' := by
    have hsteps := exception_step (H := H) h hruns addr
    rw [hok] at hsteps
    exact hsteps.stepOf
  obtain ⟨hlive, hdir⟩ := hruns
  refine hd.step h hstep fun hlive' _ mm' hmm' => ?_
  rcases exception_cases h ⟨hlive, hdir⟩ hok with hexit | ⟨mm, vma, hmm, hfind, hrest⟩
  · -- the task has exited
    obtain ⟨t, hexit', -, htask⟩ := exit_step (H := H) h hlive
    rw [hexit] at hexit'
    cases hexit'
    rw [htask] at hlive'
    simp [TaskStruct.live] at hlive'
  rcases hrest with rfl | ⟨k, mmap', vm', T', rfl, hf⟩
  · simp only [setMm, Function.update_self] at hmm' ⊢
    rw [← Option.some.inj hmm']
    exact hd i hlive hdir mm hmm
  · have hp := (h.tasks i).process_of hlive hdir hmm
    simp only [setMm, Function.update_self] at hmm' ⊢
    cases hmm'
    refine demand_fault hf hp.space hfind (hd i hlive hdir mm hmm) fun hlma => ?_
    rcases hcond vma (KernelState.vmaOf_eq hmm hfind) hlma with hiff | hfull
    · exact hiff
    · -- there was a free page
      have := hf.free
      rw [hfull k hf.lt] at this
      cases this

theorem brk_allListed {i regs addr : Nat} (h : Invariant img u s) (hd : AllListed s)
    (hruns : UserRuns s i) (hregs : RegsOk s i regs) (haddr : addr < 2 ^ 64)
    (hok : doBrk H i regs (s.withMem (store s.vm.mem regs 8 addr)) = .ok s') : AllListed s' := by
  have hstep : StepOf img u i s s' := by
    have hsteps := brk_step (H := H) h hruns hregs haddr
    rw [hok] at hsteps
    exact hsteps.stepOf
  obtain ⟨mm, mm', vm₁, vm', hb⟩ := brk_cases h hruns hregs haddr hok
  obtain ⟨hlive, hdir⟩ := hruns
  refine hd.step h hstep fun _ _ mm₂ hmm₂ => ?_
  rw [hb.tasks, Function.update_self] at hmm₂ ⊢
  cases hmm₂
  have hp := (h.tasks i).process_of hlive hdir hb.space
  have hbefore : DemandListed vm₁.mem (physical true (s.tasks i).pgDir) mm :=
    (hd i hlive hdir mm hb.space).frame
      (lookup_frame hp.space.holdings.tables (hb.tables h ⟨hlive, hdir⟩))
  have hrun := hb.run
  rw [← linear_pgDir hp.dir_lt] at hrun
  exact (demand_brk hb.process.space hb.zero hb.used hbefore hrun).frame
    (lookup_frame hb.space_ok.holdings.tables hb.tables')

/-- One step of a run. -/
theorem step_allListed {a : Action κ} (h : Invariant img u s) (hd : AllListed s) (hno : a.NoFork)
    (hcond : EntersBoth H s a) (ha : step H img u s a = some s') : AllListed s' := by
  obtain ⟨henabled, hexec⟩ := step_eq ha
  cases a with
  | userTest i =>
      rcases userTest_spec (H := H) h henabled.1 henabled.2.1 henabled.2.2 with
        herr | herr | ⟨t, hok, hstep, hfresh⟩
      · rw [exec, herr] at hexec
        cases hexec
      · rw [exec, herr] at hexec
        cases hexec
      · rw [exec, hok] at hexec
        cases hexec
        refine hd.step h hstep fun hlive hdir mm hmm x hx hlma => ?_
        obtain ⟨hblocks, hmapped⟩ := hfresh hdir mm hmm
        obtain ⟨-, hp⟩ := ((h.step hstep).tasks i).process_of_vma hlive hmm hx
        -- a new address space maps the image only, so a vma without one has no page
        refine listed_empty (List.flatMap_eq_nil_iff.1 hblocks x hx) fun v a hv hcov ha => ?_
        obtain ⟨y, hy, hlmay, hcovy⟩ := hmapped v a hv ha
        rw [hp.space.layout.unique hy hx hcovy hcov] at hlmay
        exact hlmay hlma
  | fork i regs => exact hno.elim
  | brk i regs addr => exact brk_allListed h hd henabled.1 henabled.2.1 henabled.2.2 hexec
  | exception i addr => exact exception_allListed h hd henabled.1 hcond hexec
  | exit i =>
      obtain ⟨t, hexit, hstep, htask⟩ := exit_step (H := H) h henabled
      rw [exec, hexit] at hexec
      cases hexec
      refine hd.step h hstep fun hlive => ?_
      rw [htask] at hlive
      simp [TaskStruct.live] at hlive
  | userStore i virtAddr b =>
      cases hexec
      exact hd.same h (userStore_step h henabled.1 henabled.2.2 b) rfl
        (userStore_tables h henabled.2.2 b)
  | kmallocUse heap =>
      cases hexec
      exact hd

/-- Without `sys_fork`, and as long as every exception enters its page in both places or in none,
the lists and the page tables agree. -/
theorem demandRun_tracked {s₀ : KernelState κ} {as : List (Action κ)} (hboot : Boot img s₀)
    (hrun : runFrom (step H img u) s₀ as = some s) (hno : ∀ a ∈ as, a.NoFork)
    (hcond : Along (step H img u) (EntersBoth H) s₀ as) {i : Nat} (hlive : (s.tasks i).live = true)
    (hdir : (s.tasks i).pgDir ≠ 0) {mm : MmStruct} (hmm : (s.tasks i).mm = some mm) {x : VmArea}
    (hx : x ∈ mm.mmap) (hlma : x.lma = noLma) : DemandTracked s.vm.mem (s.tasks i).pgDir x := by
  have hstart : AllListed s₀ := fun j _ hno => absurd (hboot.pgDir j) hno
  have hend : Invariant img u s ∧ AllListed s := by
    have hboth : Along (step H img u) (fun s a => a.NoFork ∧ EntersBoth H s a) s₀ as :=
      along_iff.2 fun bs a cs t hsplit hbs =>
        ⟨hno a (by simp [hsplit]), along_iff.1 hcond bs a cs t hsplit hbs⟩
    exact runFrom_invariant_along (I := fun s => Invariant img u s ∧ AllListed s)
      (fun s a s' hi hP ha => ⟨step_invariant hi.1 ha, step_allListed hi.1 hi.2 hP.1 hP.2 ha⟩)
      ⟨boot_invariant hboot, hstart⟩ hboth hrun
  obtain ⟨hi, hd⟩ := hend
  obtain ⟨-, hp⟩ := (hi.tasks i).process_of_vma hlive hmm hx
  exact (hd i hlive hdir mm hmm x hx hlma).tracked (hp.space.layout.vma x hx)

/-- The heap grows, gets a page and loses it again. -/
def sampleDemand : List (Action (List Nat)) :=
  [ .userTest 0, .exception 0 0x20000010, .brk 0 (sampleImage.stack 0 + 3000) 0x08050000,
    .exception 0 0x0804E000, .brk 0 (sampleImage.stack 0 + 3000) 0x0804D000 ]

theorem sampleDemand_tracked :
    ∃ s mm, runFrom (step sampleHeap sampleImage sampleUser) sampleBoot sampleDemand = some s ∧
      (s.tasks 0).mm = some mm ∧
      ∀ x ∈ mm.mmap, x.lma = noLma → DemandTracked s.vm.mem (s.tasks 0).pgDir x := by
  have hend : (runFrom (step sampleHeap sampleImage sampleUser) sampleBoot sampleDemand).map
      (fun s => ((s.tasks 0).live, decide ((s.tasks 0).pgDir = 0), (s.tasks 0).mm.isSome)) =
      some (true, false, true) := by decide +kernel
  obtain ⟨s, hrun, hs⟩ := Option.map_eq_some_iff.1 hend
  simp only [Prod.mk.injEq, decide_eq_false_iff_not] at hs
  obtain ⟨hlive, hdir, hsome⟩ := hs
  obtain ⟨mm, hmm⟩ := Option.isSome_iff_exists.1 hsome
  refine ⟨s, mm, hrun, hmm, fun x hx hlma => ?_⟩
  exact demandRun_tracked sampleBoot_boot hrun (by decide) (by decide +kernel) hlive hdir hmm hx hlma

/-- A second exception on a page of the stack enters the page a second time in the list. -/
theorem sampleDemand_twice :
    ∃ s mm x, runFrom (step sampleHeap sampleImage sampleUser) sampleBoot
        [.userTest 0, .exception 0 0x20000010, .exception 0 0x20000018] = some s ∧
      (s.tasks 0).mm = some mm ∧ x ∈ mm.mmap ∧ x.lma = noLma ∧
      ¬DemandTracked s.vm.mem (s.tasks 0).pgDir x := by
  have hend : (runFrom (step sampleHeap sampleImage sampleUser) sampleBoot
      [.userTest 0, .exception 0 0x20000010, .exception 0 0x20000018]).map
        (fun s => (s.tasks 0).mm.map fun mm => mm.mmap.any fun x =>
          decide (x.lma = noLma ∧ ¬(x.pagesBlockList.map PagesBlock.userVirtAddr).Nodup)) =
      some (some true) := by decide +kernel
  obtain ⟨s, hrun, hs⟩ := Option.map_eq_some_iff.1 hend
  obtain ⟨mm, hmm, hany⟩ := Option.map_eq_some_iff.1 hs
  obtain ⟨x, hx, hbad⟩ := List.any_eq_true.1 hany
  obtain ⟨hlma, hdup⟩ := of_decide_eq_true hbad
  exact ⟨s, mm, x, hrun, hmm, hx, hlma, fun h => hdup h.distinct⟩

end Kernel
end ToutOS
