import ToutOS.Kernel.Forking

/-!
# Steps — every action is a step of one task

* `setupVmas_spec`, `areas_newSpace` — the vmas of `user_test`; some of the calls of `setup_vma` may
  have failed;
* `userTest_step`, `fork_step`, `brk_step`, `exception_step`, `exit_step`, `userStore_step` — the
  actions;
* `exec_step`, `invariant_run` — the invariant holds in every state that is reached.
-/

namespace ToutOS
namespace Kernel

open Base Mm

variable {κ : Type} {H : KernelHeap κ} {img : KernelImage} {u : UserImage} {s s' : KernelState κ}
  {vm vm' : VmState κ} {i : Nat}

/-! ## `user_test` -/

/-- The vma that `setup_vma` makes. -/
def Area.vma (self : Nat) (a : Area) : VmArea :=
  { self := self
    vmStart := a.vmStart
    vmEnd := a.vmEnd
    vmFlags := a.vmFlags
    lma := a.lma
    pagesBlockList := [] }

/-- The calls of `setup_vma` that have succeeded, the last one first. -/
theorem setupVmas_spec :
    ∀ (areas : List Area) (mmap : List VmArea) (heap : κ), ∃ l : List (Nat × Area),
      (l.map Prod.snd).Sublist areas ∧
        (setupVmas H areas mmap heap).1 = (l.map fun p => p.2.vma p.1).reverse ++ mmap := by
  intro areas
  induction areas with
  | nil =>
      intro mmap heap
      exact ⟨[], List.Sublist.refl _, rfl⟩
  | cons a areas ih =>
      intro mmap heap
      rcases setupVma_cases (H := H) heap mmap a.vmStart a.vmEnd a.vmFlags a.lma with
        ⟨heap', hcall⟩ | ⟨heap', self, hcall⟩
      · obtain ⟨l, hl, hrun⟩ := ih mmap heap'
        refine ⟨l, hl.cons a, ?_⟩
        simp only [setupVmas, hcall, hrun]
      · obtain ⟨l, hl, hrun⟩ := ih (a.vma self :: mmap) heap'
        refine ⟨(self, a) :: l, hl.cons_cons a, ?_⟩
        simp only [setupVmas, hcall]
        rw [show (⟨self, a.vmStart, a.vmEnd, a.vmFlags, a.lma, []⟩ : VmArea) = a.vma self from rfl, hrun]
        simp

/-- The areas lie one behind the other. -/
theorem areas_ordered (u : UserImage) : u.areas.Pairwise fun a b => a.vmEnd ≤ b.vmStart := by
  have h₁ := u.text_le
  have h₂ := u.rodata_ge
  have h₃ := u.rodata_le
  have h₄ := u.data_ge
  have h₅ := u.data_le
  have h₆ := u.bss_ge
  have h₇ := u.bss_le
  have h₈ := u.bssEnd_le
  simp only [UserImage.areas, List.pairwise_cons, List.mem_cons, List.not_mem_nil, or_false,
    forall_eq_or_imp, forall_eq, List.Pairwise.nil, and_true, false_implies, implies_true,
    vmaUser, userSize, userStackStart, userStackSize, uva, uartBase] at *
  omega

theorem aligned_iff {u : UserImage} : u.aligned = true ↔
    pageSize ∣ u.textStart ∧ pageSize ∣ u.textEnd ∧ pageSize ∣ u.rodataStart ∧ pageSize ∣ u.rodataEnd ∧
      pageSize ∣ u.dataStart ∧ pageSize ∣ u.dataEnd ∧ pageSize ∣ u.bssStart ∧ pageSize ∣ u.bssEnd := by
  simp [UserImage.aligned, Nat.dvd_iff_mod_eq_zero]

/-- An area that is mapped as a whole is mapped to the images. -/
theorem area_target {a : Area} (ha : a ∈ u.areas) (hlma : a.lma ≠ noLma) {p : Nat}
    (hp : a.vmStart ≤ p ∧ p < a.vmEnd) : InImage (a.lma + (p - a.vmStart)) := by
  have h₀ := u.text_ge
  have h₁ := u.text_le
  have h₂ := u.rodata_ge
  have h₃ := u.rodata_le
  have h₄ := u.data_ge
  have h₅ := u.data_le
  have h₆ := u.bss_ge
  have h₇ := u.bss_le
  have h₈ := u.bssEnd_le
  simp only [UserImage.areas, List.mem_cons, List.not_mem_nil, or_false] at ha
  simp only [InImage, lmaUser, userSize, vmaUser, uartBase, pageSize, noLma] at *
  rcases ha with rfl | rfl | rfl | rfl | rfl | rfl
  · simp only at hp ⊢
    omega
  · simp only at hp ⊢
    omega
  · simp only at hp ⊢
    omega
  · simp only at hp ⊢
    omega
  · exact absurd rfl hlma
  · simp only [uva] at hp ⊢
    omega

/-- Where an area lies. -/
theorem area_facts (hu : u.aligned = true) {a : Area} (ha : a ∈ u.areas) :
    pageSize ∣ a.vmStart ∧ 0 < a.vmStart ∧ a.vmStart ≤ a.vmEnd ∧ a.vmEnd ≤ 2 ^ 39 ∧
      pageSize ∣ a.vmEnd ∧ (a.lma ≠ noLma → pageSize ∣ a.lma) ∧
      (a.lma ≠ noLma → a.lma + (a.vmEnd - a.vmStart) ≤ 2 ^ 48) ∧
      (a.vmEnd ≤ u.bssEnd ∨ maxBrkAddr ≤ a.vmStart) := by
  obtain ⟨g₁, g₂, g₃, g₄, g₅, g₆, g₇, g₈⟩ := aligned_iff.1 hu
  have h₀ := u.text_ge
  have h₁ := u.text_le
  have h₂ := u.rodata_ge
  have h₃ := u.rodata_le
  have h₄ := u.data_ge
  have h₅ := u.data_le
  have h₆ := u.bss_ge
  have h₇ := u.bss_le
  have h₈ := u.bssEnd_le
  simp only [UserImage.areas, List.mem_cons, List.not_mem_nil, or_false] at ha
  simp only [lmaUser, userSize, vmaUser, uartBase, userStackStart, userStackSize, uva, maxBrkAddr,
    pageSize, noLma] at *
  rcases ha with rfl | rfl | rfl | rfl | rfl | rfl <;> simp only <;> omega

theorem area_ok (hu : u.aligned = true) {a : Area} (ha : a ∈ u.areas) (self : Nat) :
    (a.vma self).Ok u.bssEnd (u.bssEnd + pageSize) := by
  obtain ⟨hs_dvd, hs_pos, hle, he_le, he_dvd, hl_dvd, hl_le, hplace⟩ := area_facts hu ha
  refine ⟨hs_dvd, hs_pos, hle, he_le, fun _ => he_dvd, hl_dvd, hl_le, fun hshared => ?_, Or.inr hplace⟩
  have hlma : a.lma ≠ noLma := by
    simp only [UserImage.areas, List.mem_cons, List.not_mem_nil, or_false] at ha
    rcases ha with rfl | rfl | rfl | rfl | rfl | rfl
    · simp only [lmaUser, noLma]
      omega
    · have h₁ := u.rodata_le
      have h₂ := u.data_ge
      have h₃ := u.data_le
      have h₄ := u.bss_ge
      have h₅ := u.bss_le
      have h₆ := u.bssEnd_le
      simp only [lmaUser, noLma, vmaUser, userSize] at *
      omega
    · simp [VmArea.shared, Area.vma, vmRead, vmWrite, vmShared] at hshared
    · simp [VmArea.shared, Area.vma, vmRead, vmWrite, vmShared] at hshared
    · simp [VmArea.shared, Area.vma, vmRead, vmWrite, vmShared] at hshared
    · decide
  refine ⟨hlma, fun p hcov => area_target ha hlma ?_⟩
  rw [VmArea.covers_iff] at hcov
  simp only [Area.vma, pageAddr, pageSize] at *
  omega

/-- The vmas that `user_test` has set up. -/
theorem areas_newSpace (hu : u.aligned = true) {l : List (Nat × Area)} {mm : MmStruct}
    (hl : (l.map Prod.snd).Sublist u.areas) (hmmap : mm.mmap = (l.map fun p => p.2.vma p.1).reverse)
    (hstart : mm.startBrk = u.bssEnd) (hbrk : mm.brk = u.bssEnd + pageSize) {usage : PagesUsage} {d : Nat}
    (hdir : InPool d ∧ IsPage d) (hused : ¬FreeFrame usage d) :
    NewSpace usage d mm ∧ VmasOf u mm ∧ blocks mm.mmap = [] := by
  have hmem : ∀ x ∈ mm.mmap, ∃ a ∈ u.areas, ∃ self, x = a.vma self := by
    intro x hx
    rw [hmmap, List.mem_reverse] at hx
    obtain ⟨⟨self, a⟩, hp, rfl⟩ := List.mem_map.1 hx
    exact ⟨a, hl.subset (List.mem_map.2 ⟨(self, a), hp, rfl⟩), self, rfl⟩
  have hblocks : blocks mm.mmap = [] := by
    rw [blocks, List.flatMap_eq_nil_iff]
    intro x hx
    obtain ⟨a, -, self, rfl⟩ := hmem x hx
    rfl
  have hframes : blockFrames mm.mmap = [] := by rw [blockFrames, hblocks, List.flatMap_nil]
  have himage : ∀ x ∈ mm.mmap, x.lma ≠ noLma → ∀ p, x.covers p = true →
      InImage (x.target (pageAddr p)) := by
    intro x hx hlma p hcov
    obtain ⟨a, ha, self, rfl⟩ := hmem x hx
    -- an area starts on a page, so it covers the whole page of what it covers
    have hdvd := (area_facts hu ha).1
    refine area_target ha hlma ?_
    rw [VmArea.covers_iff] at hcov
    simp only [Area.vma, pageAddr, pageSize] at *
    omega
  -- the areas lie one after the other, and the list of vmas grows at its head
  have hapart : mm.mmap.Pairwise VmArea.Apart := by
    rw [hmmap, List.pairwise_reverse, List.pairwise_map]
    have hordered := List.pairwise_map.1 ((areas_ordered u).sublist hl)
    refine hordered.imp fun {a b} hab p hcov => ?_
    by_contra hno
    rw [Bool.not_eq_false] at hno
    rw [VmArea.covers_iff] at hcov hno
    simp only [Area.vma] at hcov hno
    omega
  have hend := u.bssEnd_le
  have hge : vmaUser ≤ u.bssEnd := by
    have h₀ := u.text_ge
    have h₁ := u.text_le
    have h₂ := u.rodata_ge
    have h₃ := u.rodata_le
    have h₄ := u.data_ge
    have h₅ := u.data_le
    have h₆ := u.bss_ge
    have h₇ := u.bss_le
    omega
  have hdvd := (aligned_iff.1 hu).2.2.2.2.2.2.2
  have hlayout : Layout mm := by
    refine ⟨?_, ?_, ?_, ?_, ?_, ?_, hapart⟩
    · rwa [hstart]
    · rw [hstart]
      simp only [vmaUser] at hge
      omega
    · rw [hstart]
      simp only [vmaUser, userSize, maxBrkAddr] at *
      omega
    · rw [hstart, hbrk]
      omega
    · rw [hbrk]
      simp only [vmaUser, userSize, maxBrkAddr, pageSize] at *
      omega
    · intro x hx
      obtain ⟨a, ha, self, rfl⟩ := hmem x hx
      rw [hstart, hbrk]
      exact area_ok hu ha self
  -- no vma has a block yet, so what is said of blocks holds of none
  refine ⟨⟨hlayout, ?_, ?_, ?_, hdir, hused, ?_, ?_, ?_⟩, ⟨hstart, ?_⟩, hblocks⟩
  · simp [hblocks]
  · simp [hframes]
  · simp [hframes]
  · simp [hframes]
  · intro x hx hlma p hcov
    exact Or.inl (himage x hx hlma p hcov)
  · intro x hx y _ hlma _ p q hcov _ _ hpool
    exact absurd hpool (not_inPool_of_inImage (himage x hx hlma p hcov))
  · intro x hx
    obtain ⟨a, ha, self, rfl⟩ := hmem x hx
    exact Or.inl ⟨a, ha, rfl⟩

/-- `memset` on user memory writes mapped pages only. -/
theorem clearUser_ok {m m' : Mem} {pgDir virtAddr n : Nat} (h : clearUser m pgDir virtAddr n = .ok m')
    {x : Nat} (hx : ∀ v a, userFrame m pgDir v = some a → ¬InPage true a x) : m' x = m x := by
  unfold clearUser at h
  split_ifs at h
  obtain rfl := Except.ok.inj h
  refine if_neg fun hany => ?_
  obtain ⟨j, -, hj⟩ := List.any_eq_true.1 hany
  dsimp only at hj
  split at hj
  · cases hj
  · rename_i a ha
    simp only [Bool.and_eq_true, decide_eq_true_eq] at hj
    refine hx _ a ha ?_
    simp only [InPage, linear, if_true]
    exact ⟨hj.1.1.1, hj.1.1.2⟩

/-! ## The actions -/

/-- A call stops with a panic or with one of the assertions that are not that of `free_pages`, or it
is a step of task `j`. -/
def StepsOf (img : KernelImage) (u : UserImage) (j : Nat) (s : KernelState κ)
    (r : Except Halt (KernelState κ)) : Prop :=
  r = .error .kernelPanic ∨ r = .error .assertFailed ∨ ∃ s', r = .ok s' ∧ StepOf img u j s s'

theorem live_setSpace (t : TaskStruct) (pgDir : Nat) (mm : Option MmStruct) :
    ({ t with pgDir := pgDir, mm := mm } : TaskStruct).live = t.live := rfl

/-- The address space that `user_test` has set up: pages are mapped as a whole, none on demand. -/
def FreshSpace (s : KernelState κ) (i : Nat) : Prop :=
  (s.tasks i).pgDir ≠ 0 → ∀ mm, (s.tasks i).mm = some mm → blocks mm.mmap = [] ∧
    ∀ v a, v < 2 ^ 39 → userFrame s.vm.mem (s.tasks i).pgDir v = some a →
      ∃ x ∈ mm.mmap, x.lma ≠ noLma ∧ x.covers (pageAddr v) = true

/-- `user_test` of task `i` has set up the directory `d` and the vmas of `mm'`: they are mapped in the
state `vm₁` after the calls of `kmalloc`, which gives `vm`, and then pages of the image are cleared. -/
structure UserTested (u : UserImage) (i d : Nat) (s s' : KernelState κ) (mm' : MmStruct)
    (vm₁ vm : VmState κ) : Prop where
  dir : NewDir s.vm vm₁ d
  new : NewSpace vm₁.pagesUsage d mm'
  vmas : VmasOf u mm'
  blocks : blocks mm'.mmap = []
  areas : ∀ x ∈ mm'.mmap, ∃ a ∈ u.areas, ∃ self, x = a.vma self
  map : setupUserPageMappings (linear true d) mm'.mmap vm₁ = .ok vm
  tasks : s'.tasks = Function.update s.tasks i { s.tasks i with pgDir := linear true d, mm := some mm' }
  user : s'.userTask = some i
  usage : s'.vm.pagesUsage = vm.pagesUsage
  mem : ∀ x, (∀ v a, userFrame vm.mem (linear true d) v = some a → ¬InPage true a x) →
    s'.vm.mem x = vm.mem x

/-- A call of `user_test` is halted, it finds no page for a directory, or it sets up an address space
and clears the first bytes of bss. -/
theorem userTest_runs (h : Invariant img u s) (hlive : (s.tasks i).live = true)
    (hdir : (s.tasks i).pgDir = 0) :
    userTest H u i s = .error .kernelPanic ∨ userTest H u i s = .error .assertFailed ∨
    userTest H u i s = .ok { s with userTask := some i } ∨
    u.aligned = true ∧ ∃ s' d mm' vm₁ vm, userTest H u i s = .ok s' ∧
      UserTested u i d s s' mm' vm₁ vm ∧
      clearUser vm.mem (linear true d) u.bssStart ((u.bssEnd - u.bssStart) / 4) = .ok s'.vm.mem := by
  rcases hcall : getZeroedPages 0 s.vm.mem s.vm.pagesUsage with ⟨p, m', usage'⟩
  obtain ⟨mm, hmm, hnil, -⟩ := (h.tasks i).mm hlive
  obtain ⟨l, hl, hvmas⟩ := setupVmas_spec (H := H) u.areas mm.mmap s.vm.heap
  rcases hset : setupVmas H u.areas mm.mmap s.vm.heap with ⟨mmap, heap⟩
  rw [hset, hnil hdir, List.append_nil] at hvmas
  rcases getZeroedPages_cases hcall s.vm.heap heap with ⟨hp0, -, -⟩ | ⟨d, hpd, hp0, hd⟩
  · -- there is no page for the directory
    exact Or.inr (Or.inr (Or.inl (by simp only [userTest, hcall, if_pos hp0])))
  cases haligned : u.aligned with
  | false =>
      refine Or.inr (Or.inl ?_)
      simp only [userTest, hcall, if_neg hp0, haligned, if_true]
  | true =>
      generalize hmm' : ({ mm with mmap := mmap, startBrk := u.bssEnd, brk := u.bssEnd + pageSize } :
        MmStruct) = mm'
      have hmmap : mm'.mmap = mmap := by rw [← hmm']
      have hrun : userTest H u i s =
          (setupUserPageMappings (linear true d) mm'.mmap ⟨m', usage', heap⟩).bind fun vm =>
            if userFrame vm.mem (linear true d) vmaUser = none then .error .kernelPanic
            else (clearUser vm.mem (linear true d) u.bssStart ((u.bssEnd - u.bssStart) / 4)).map fun mem =>
              { vm := { vm with mem := mem }
                tasks := Function.update s.tasks i
                  { s.tasks i with pgDir := linear true d, mm := some mm' }
                userTask := some i } := by
        simp only [userTest, hcall, if_neg hp0, haligned, hmm, hset, hmm', hmmap, Bool.true_eq_false,
          if_false, ← hpd]
      obtain ⟨hnew, hof, hblocks⟩ := areas_newSpace haligned hl (hmmap.trans hvmas) (by rw [← hmm'])
        (by rw [← hmm']) hd.pool hd.used
      have hareas : ∀ x ∈ mm'.mmap, ∃ a ∈ u.areas, ∃ self, x = a.vma self := by
        intro x hx
        rw [hmmap.trans hvmas, List.mem_reverse] at hx
        obtain ⟨⟨self, a⟩, hp, rfl⟩ := List.mem_map.1 hx
        exact ⟨a, hl.subset (List.mem_map.2 ⟨(self, a), hp, rfl⟩), self, rfl⟩
      rcases @newSpace_spec κ d ⟨m', usage', heap⟩ mm' hnew hd.zero with herr | ⟨vm, T', hmap, -⟩
      · exact Or.inr (Or.inl (by rw [hrun, herr, except_bind_error]))
      rw [hrun, hmap, except_bind_ok]
      split_ifs with htext
      · exact Or.inl rfl
      cases hclear : clearUser vm.mem (linear true d) u.bssStart ((u.bssEnd - u.bssStart) / 4) with
      | error e =>
          refine Or.inl ?_
          unfold clearUser at hclear
          split_ifs at hclear
          rw [← hclear, except_map_error]
      | ok m'' =>
          rw [except_map_ok]
          exact Or.inr (Or.inr (Or.inr ⟨rfl, _, d, mm', _, vm, rfl, ⟨hd, hnew, hof, hblocks, hareas, hmap,
            rfl, rfl, rfl, fun x hx => clearUser_ok hclear hx⟩, hclear⟩))

/-- What a call of `user_test` does to the state. -/
theorem userTest_cases (h : Invariant img u s) (hlive : (s.tasks i).live = true)
    (hdir : (s.tasks i).pgDir = 0) :
    userTest H u i s = .error .kernelPanic ∨ userTest H u i s = .error .assertFailed ∨
    userTest H u i s = .ok { s with userTask := some i } ∨
    ∃ s' d mm' vm₁ vm, userTest H u i s = .ok s' ∧ UserTested u i d s s' mm' vm₁ vm := by
  rcases userTest_runs (H := H) h hlive hdir with
    herr | herr | hrun | ⟨-, s', d, mm', vm₁, vm, hrun, ht, -⟩
  · exact Or.inl herr
  · exact Or.inr (Or.inl herr)
  · exact Or.inr (Or.inr (Or.inl hrun))
  · exact Or.inr (Or.inr (Or.inr ⟨s', d, mm', vm₁, vm, hrun, ht⟩))

section UserTested

variable {d : Nat} {mm' : MmStruct} {vm₁ vm : VmState κ}

theorem UserTested.physical (ht : UserTested u i d s s' mm' vm₁ vm) : physical true (linear true d) = d :=
  physical_linear true ht.dir.pool.2.2

/-- The address space that has been built: no page but the directory has been given up for it. -/
theorem UserTested.built (ht : UserTested u i d s s' mm' vm₁ vm) :
    SpaceOk vm.mem d mm' ∧
      Local pageOf {d} (footprint vm.mem d mm'.mmap) vm₁.world vm.world ∧
      ∀ v a, v < 2 ^ 39 → lookup true vm.mem d v = some a → ∃ x ∈ mm'.mmap, x.lma ≠ noLma ∧
        x.covers (pageAddr v) = true ∧ a = x.target (pageAddr v) := by
  have hempty : ({d} ∪ {a | a ∈ blockFrames mm'.mmap} : Set Nat) = {d} := by
    ext a
    simp [blockFrames, ht.blocks]
  rcases @newSpace_spec κ d vm₁ mm' ht.new ht.dir.zero with
    herr | ⟨vm₂, T', hmap, -, hspace, -, -, hlocal, hmapped⟩
  · rw [ht.map] at herr
    cases herr
  rw [ht.map] at hmap
  obtain rfl := Except.ok.inj hmap
  rw [hempty] at hlocal
  exact ⟨hspace, hlocal, hmapped⟩

/-- What has been cleared lies in the image. -/
theorem UserTested.cleared (ht : UserTested u i d s s' mm' vm₁ vm) {x : Nat}
    (hx : ∀ a, InImage a → pageOf x ≠ a) : s'.vm.mem x = vm.mem x := by
  obtain ⟨-, -, hmapped⟩ := ht.built
  refine ht.mem x fun v a ha hin => ?_
  rw [userFrame, ht.physical, ← lookup_mod] at ha
  obtain ⟨y, hy, hlma, hcov, rfl⟩ := hmapped _ a (mod_window_lt v) ha
  have himage := ht.new.target y hy hlma _ hcov
  rw [pageAddr_pageAddr, blockFrames, ht.blocks, List.flatMap_nil] at himage
  exact hx _ (himage.resolve_right List.not_mem_nil) (pageOf_of_inPage (isPage_of_lookup ha) hin)

theorem not_outside_image {a : Nat} (h : InImage a) : a ∈ outside := by
  refine ⟨not_inPool_of_inImage h, ?_⟩
  simp only [InImage, lmaUser, uartBase] at h
  omega

theorem UserTested.same (ht : UserTested u i d s s' mm' vm₁ vm) {x : Nat} (hx : pageOf x ∉ outside) :
    s'.vm.mem x = vm.mem x :=
  ht.cleared fun _ ha heq => hx (heq ▸ not_outside_image ha)

/-- The tables are not cleared. -/
theorem UserTested.tables (ht : UserTested u i d s s' mm' vm₁ vm) :
    SameTables vm.mem s'.vm.mem d := by
  obtain ⟨hspace, -, -⟩ := ht.built
  intro n hn x hx
  refine ht.same ?_
  rw [pageOf_of_inPage (hspace.holdings.tables.pages n hn) hx]
  exact not_outside (hspace.holdings.tables_pool n hn)

end UserTested

theorem userTest_spec (h : Invariant img u s) (hlive : (s.tasks i).live = true)
    (hdir : (s.tasks i).pgDir = 0) (huser : s.userTask = none) :
    userTest H u i s = .error .kernelPanic ∨ userTest H u i s = .error .assertFailed ∨
    ∃ s', userTest H u i s = .ok s' ∧ StepOf img u i s s' ∧ FreshSpace s' i := by
  rcases userTest_cases (H := H) h hlive hdir with
    herr | herr | hrun | ⟨s', d, mm', vm₁, vm, hrun, ht⟩
  · exact Or.inl herr
  · exact Or.inr (Or.inl herr)
  · refine Or.inr (Or.inr ⟨_, hrun, ⟨?_, fun k _ => Or.inl rfl, h.tasks i, ?_, Or.inr huser⟩,
      fun hno => absurd hdir hno⟩)
    · refine Local.refl ?_
      rintro a (ha | ha) hfree
      · exact h.owned.held i a ha hfree
      · exact ha.1 (FreeFrame.inPool hfree)
    · exact fun _ hno => absurd rfl hno
  have hd := ht.dir
  obtain ⟨hspace, hlocal, hmapped⟩ := ht.built
  have htables := ht.tables
  have hphys := ht.physical
  have hp0 : linear true d ≠ 0 := by
    simpa only [linear, if_true] using ne_zero_of_inPool hd.pool.1
  have hfoot : footprint s'.vm.mem d mm'.mmap = footprint vm.mem d mm'.mmap :=
    footprint_frame hspace.holdings.tables htables
  -- only a directory is taken, and the task has owned nothing before
  have hfirst : Local pageOf (taskFootprint s.vm.mem (s.tasks i)) {d} s.vm.world vm₁.world := by
    rw [taskFootprint_of_pgDir hdir]
    exact hd.moves
  have hmoves := local_outside (hfirst.trans hlocal) fun a ha => ((h.tasks i).footprint_pool ha).1
  have hothers : ∀ k, k ≠ i → s'.tasks k = s.tasks k := by
    intro k hk
    rw [ht.tasks, Function.update_of_ne hk]
  have hself : s'.tasks i = { s.tasks i with pgDir := linear true d, mm := some mm' } := by
    rw [ht.tasks, Function.update_self]
  generalize htask : s'.tasks i = t at hself
  have htlive : t.live = true := by rw [hself, live_setSpace, hlive]
  have htdir : t.pgDir = linear true d := by rw [hself]
  have htmm : t.mm = some mm' := by rw [hself]
  refine Or.inr (Or.inr ⟨s', hrun, ⟨?_, fun k hk => Or.inl (hothers k hk), ?_, ?_, Or.inr huser⟩, ?_⟩)
  · -- the bytes of bss that are cleared belong to the image, not to the pool
    rw [htask, taskFootprint_eq htlive (htdir ▸ hp0) htmm, htdir, hphys, hfoot]
    exact hmoves.trans (Local.write (fun x hx => ht.same fun hin => hx (Or.inr hin))
      (by rw [VmState.world, VmState.world, ht.usage]) hmoves.held)
  · rw [htask]
    refine ⟨fun hin => ?_, fun hno => ?_, fun _ => ⟨mm', htmm, fun hno => absurd hno (htdir ▸ hp0),
      fun _ => ?_⟩⟩
    · have hstack : t.stack = (s.tasks i).stack := by rw [hself]
      have huse : t.inUse = (s.tasks i).inUse := by rw [hself]
      rw [hstack]
      exact (h.tasks i).stack (huse ▸ hin)
    · rw [TaskStruct.live, hno] at htlive
      cases htlive
    · rw [htdir]
      exact ⟨linear_lt hd.pool.2.2, by rw [hphys]; exact spaceOk_frame hspace htables, ht.vmas⟩
  · rw [ht.user]
    exact fun _ hno => absurd rfl hno
  · rw [FreshSpace, htask]
    intro _ mm₁ hmm₁
    rw [htmm] at hmm₁
    cases hmm₁
    refine ⟨ht.blocks, fun v a hv ha => ?_⟩
    rw [userFrame, htdir, hphys, lookup_frame hspace.holdings.tables htables] at ha
    obtain ⟨y, hy, hlma, hcov, -⟩ := hmapped v a hv ha
    exact ⟨y, hy, hlma, hcov⟩

theorem userTest_step (h : Invariant img u s) (hlive : (s.tasks i).live = true)
    (hdir : (s.tasks i).pgDir = 0) (huser : s.userTask = none) :
    StepsOf img u i s (userTest H u i s) := by
  rcases userTest_spec (H := H) h hlive hdir huser with herr | herr | ⟨s', hok, hstep, -⟩
  · exact Or.inl herr
  · exact Or.inr (Or.inl herr)
  · exact Or.inr (Or.inr ⟨s', hok, hstep⟩)

theorem exit_step (h : Invariant img u s) (hlive : (s.tasks i).live = true) :
    ∃ s', doExit H i s = .ok s' ∧ StepOf img u i s s' ∧
      s'.tasks i = { s.tasks i with state := .stopped } := by
  obtain ⟨mm, hmm, hnil, -⟩ := (h.tasks i).mm hlive
  by_cases hdir : (s.tasks i).pgDir = 0
  · have hexit : exitMm H (s.tasks i).pgDir (s.tasks i).mm s.vm =
        .ok { s.vm with heap := H.kfree s.vm.heap mm.self } := by
      rw [hmm, hdir, exitMm_kernel (hnil hdir)]
    refine ⟨_, by rw [doExit, hexit, except_map_ok], StepOf.exit h ?_ hlive, Function.update_self ..⟩
    rw [taskFootprint_of_pgDir hdir]
    exact Local.refl fun a ha => ha.elim
  · have hp := (h.tasks i).process_of hlive hdir hmm
    obtain ⟨vm', hexit, -, -, hmoves⟩ := exitMm_spec (H := H) hp.space.holdings (h.used hlive hdir hmm)
    rw [linear_pgDir hp.dir_lt] at hexit
    rw [← hmm] at hexit
    refine ⟨_, by rw [doExit, hexit, except_map_ok], StepOf.exit h ?_ hlive, Function.update_self ..⟩
    rw [taskFootprint_eq hlive hdir hmm]
    exact hmoves

theorem exception_step (h : Invariant img u s) (hruns : UserRuns s i) (addr : Nat) :
    StepsOf img u i s (doEl0Sync H i addr s) := by
  obtain ⟨hlive, hdir⟩ := hruns
  obtain ⟨mm, hmm, hp⟩ := (h.tasks i).process hlive hdir
  have hrun : doEl0Sync H i addr s = if findVma mm.mmap addr = none then doExit H i s
      else (handleFault H (s.tasks i).pgDir addr mm s.vm).map (setMm s i) := by
    simp only [doEl0Sync, hmm]
  rw [hrun]
  split_ifs with hvma
  · obtain ⟨s', hexit, hstep, -⟩ := exit_step (H := H) h hlive
    exact Or.inr (Or.inr ⟨s', hexit, hstep⟩)
  · rcases handleFault_spec (H := H) hp.space (h.used hlive hdir hmm) hvma with
      herr | ⟨mm', vm', hok, hs⟩
    · rw [linear_pgDir hp.dir_lt] at herr
      exact Or.inr (Or.inl (by rw [herr, except_map_error]))
    · rw [linear_pgDir hp.dir_lt] at hok
      rw [hok, except_map_ok]
      exact Or.inr (Or.inr ⟨_, rfl, StepOf.space h hlive hdir hmm hs⟩)

/-- A call of `sys_brk` on the address space `mm` of task `i`; `s₁` is the state with the argument in
the saved registers. -/
structure BrkCall (H : KernelHeap κ) (img : KernelImage) (u : UserImage) (i regs addr : Nat)
    (s s₁ : KernelState κ) (mm : MmStruct) : Prop where
  invariant : Invariant img u s₁
  tasks : s₁.tasks = s.tasks
  space : (s.tasks i).mm = some mm
  process : ProcessOk u s₁.vm.mem (s.tasks i).pgDir mm
  used : ∀ a ∈ footprint s₁.vm.mem (physical true (s.tasks i).pgDir) mm.mmap,
    ¬FreeFrame s₁.vm.pagesUsage a
  run : doBrk H i regs s₁ = (sysBrk H (s.tasks i).pgDir addr mm s₁.vm).map fun r =>
    setMm s₁ i (r.1, { r.2 with mem := store r.2.mem regs 8 r.1.brk })

theorem doBrk_call {regs addr : Nat} (h : Invariant img u s) (hruns : UserRuns s i)
    (hregs : RegsOk s i regs) (haddr : addr < 2 ^ 64) :
    ∃ mm, BrkCall H img u i regs addr s (s.withMem (store s.vm.mem regs 8 addr)) mm := by
  have h₁ := h.step (StepOf.storeRegs h i addr hruns.1 hregs)
  have hload : load (s.withMem (store s.vm.mem regs 8 addr)).vm.mem regs 8 = addr :=
    load_store_same (by simpa using haddr)
  have htasks : (s.withMem (store s.vm.mem regs 8 addr)).tasks = s.tasks := rfl
  generalize s.withMem (store s.vm.mem regs 8 addr) = s₁ at h₁ hload htasks ⊢
  obtain ⟨hlive, hdir⟩ : (s₁.tasks i).live = true ∧ (s₁.tasks i).pgDir ≠ 0 := htasks ▸ hruns
  obtain ⟨mm, hmm, hp⟩ := (h₁.tasks i).process hlive hdir
  have hused := h₁.used hlive hdir hmm
  have hrun : doBrk H i regs s₁ = (sysBrk H (s₁.tasks i).pgDir addr mm s₁.vm).map fun r =>
      setMm s₁ i (r.1, { r.2 with mem := store r.2.mem regs 8 r.1.brk }) := by
    simp only [doBrk, hmm, hload]
  rw [htasks] at hmm hp hused hrun
  exact ⟨mm, h₁, htasks, hmm, hp, hused, hrun⟩

theorem brk_step {regs addr : Nat} (h : Invariant img u s) (hruns : UserRuns s i)
    (hregs : RegsOk s i regs) (haddr : addr < 2 ^ 64) :
    StepsOf img u i s (doBrk H i regs (s.withMem (store s.vm.mem regs 8 addr))) := by
  have hfirst := StepOf.storeRegs h i addr hruns.1 hregs
  obtain ⟨mm, hc⟩ := doBrk_call (H := H) h hruns hregs haddr
  generalize s.withMem (store s.vm.mem regs 8 addr) = s₁ at hfirst hc ⊢
  obtain ⟨h₁, htasks, hmm, hp, hused, hrun⟩ := hc
  obtain ⟨hlive, hdir⟩ := hruns
  rw [hrun]
  rcases sysBrk_spec (H := H) hp.space h₁.zero hused addr with ⟨herr, -⟩ | ⟨mm', vm', hok, hs⟩
  · rw [linear_pgDir hp.dir_lt] at herr
    exact Or.inl (by rw [herr, except_map_error])
  · rw [linear_pgDir hp.dir_lt] at hok
    rw [hok, except_map_ok]
    rw [← htasks] at hlive hdir hmm hs
    have hsecond := StepOf.space h₁ hlive hdir hmm hs
    have htask : (setMm s₁ i (mm', vm')).tasks i = { s₁.tasks i with mm := some mm' } :=
      Function.update_self ..
    have hregs₂ : RegsOk (setMm s₁ i (mm', vm')) i regs := by
      rw [RegsOk, htask]
      rw [RegsOk, ← htasks] at hregs
      exact hregs
    have hlive₂ : ((setMm s₁ i (mm', vm')).tasks i).live = true := by
      rw [htask]
      exact hlive
    have hthird := StepOf.storeRegs (h₁.step hsecond) i mm'.brk hlive₂ hregs₂
    exact Or.inr (Or.inr ⟨_, rfl, (hfirst.trans hsecond).trans hthird⟩)

/-- The call returns unless it takes pages away from a heap that is not there. -/
theorem brk_ok {regs addr : Nat} {mm : MmStruct} (h : Invariant img u s) (hruns : UserRuns s i)
    (hregs : RegsOk s i regs) (haddr : addr < 2 ^ 64) (hmm : (s.tasks i).mm = some mm)
    (hfinds : Shrinks mm addr → findVma mm.mmap mm.startBrk ≠ none) :
    ∃ s', doBrk H i regs (s.withMem (store s.vm.mem regs 8 addr)) = .ok s' := by
  obtain ⟨mm₀, hc⟩ := doBrk_call (H := H) h hruns hregs haddr
  generalize s.withMem (store s.vm.mem regs 8 addr) = s₁ at hc ⊢
  obtain ⟨h₁, -, hmm₀, hp, hused, hrun⟩ := hc
  rw [hmm] at hmm₀
  obtain rfl := Option.some.inj hmm₀
  rcases sysBrk_spec (H := H) hp.space h₁.zero hused addr with
    ⟨-, hshrinks, hnone⟩ | ⟨mm', vm', hok, -⟩
  · exact absurd hnone (hfinds hshrinks)
  · rw [linear_pgDir hp.dir_lt] at hok
    rw [hrun, hok, except_map_ok]
    exact ⟨_, rfl⟩

/-- The vma that `find_vma` finds for a task. -/
def KernelState.vmaOf (s : KernelState κ) (i addr : Nat) : Option VmArea :=
  (s.tasks i).mm.bind fun mm => findVma mm.mmap addr

theorem KernelState.vmaOf_eq {mm : MmStruct} {addr : Nat} {vma : VmArea} (hmm : (s.tasks i).mm = some mm)
    (hfind : findVma mm.mmap addr = some vma) : vma ∈ s.vmaOf i addr := by
  rw [KernelState.vmaOf, hmm, Option.bind_some]
  exact hfind

/-- No page of the pool is free. -/
def PoolFull (usage : PagesUsage) : Prop := ∀ k < maxNumPages, usage k = true

instance (usage : PagesUsage) : Decidable (PoolFull usage) :=
  inferInstanceAs (Decidable (∀ k < maxNumPages, _))

/-- What an exception has done: the task has exited, no page was free, or a page has been entered. -/
theorem exception_cases {addr : Nat} (h : Invariant img u s) (hruns : UserRuns s i)
    (hok : doEl0Sync H i addr s = .ok s') :
    doExit H i s = .ok s' ∨ ∃ mm vma, (s.tasks i).mm = some mm ∧ findVma mm.mmap addr = some vma ∧
      (s' = setMm s i (mm, s.vm) ∨ ∃ k mmap' vm' T',
        s' = setMm s i ({ mm with mmap := mmap' }, vm') ∧
          Faulted H (physical true (s.tasks i).pgDir) addr k mm s.vm mmap' vm' T') := by
  obtain ⟨hlive, hdir⟩ := hruns
  obtain ⟨mm, hmm, hp⟩ := (h.tasks i).process hlive hdir
  simp only [doEl0Sync, hmm] at hok
  cases hfind : findVma mm.mmap addr with
  | none =>
      rw [hfind, if_pos rfl] at hok
      exact Or.inl hok
  | some vma =>
      have hvma : findVma mm.mmap addr ≠ none := by
        rw [hfind]
        exact Option.some_ne_none vma
      rw [if_neg hvma] at hok
      refine Or.inr ⟨mm, vma, hmm, hfind, ?_⟩
      have hcases := handleFault_cases (H := H) hp.space (h.used hlive hdir hmm) hvma
      rw [linear_pgDir hp.dir_lt] at hcases
      rcases hcases with hrun | hrun | ⟨k, mmap', vm', T', hrun, hf⟩
      · rw [hrun, except_map_ok] at hok
        exact Or.inl (Except.ok.inj hok).symm
      · rw [hrun, except_map_error] at hok
        cases hok
      · rw [hrun, except_map_ok] at hok
        exact Or.inr ⟨k, mmap', vm', T', (Except.ok.inj hok).symm, hf⟩

/-- What a call of `sys_brk` has done: between `vm₁` and `vm'` it has worked on the address space, the
rest are stores to the saved registers. -/
structure BrkRun (H : KernelHeap κ) (u : UserImage) (i regs addr : Nat) (s s' : KernelState κ)
    (mm mm' : MmStruct) (vm₁ vm' : VmState κ) : Prop where
  space : (s.tasks i).mm = some mm
  usage : vm₁.pagesUsage = s.vm.pagesUsage
  heap : vm₁.heap = s.vm.heap
  loaded : vm₁.mem = store s.vm.mem regs 8 addr
  before : ∀ x, pageOf x ∉ outside → vm₁.mem x = s.vm.mem x
  zero : ZeroPage vm₁.mem
  process : ProcessOk u vm₁.mem (s.tasks i).pgDir mm
  used : ∀ a ∈ footprint vm₁.mem (physical true (s.tasks i).pgDir) mm.mmap,
    ¬FreeFrame vm₁.pagesUsage a
  run : sysBrk H (s.tasks i).pgDir addr mm vm₁ = .ok (mm', vm')
  stored : s'.vm.mem = store vm'.mem regs 8 mm'.brk
  after : ∀ x, pageOf x ∉ outside → s'.vm.mem x = vm'.mem x
  usage' : s'.vm.pagesUsage = vm'.pagesUsage
  heap' : s'.vm.heap = vm'.heap
  user : s'.userTask = s.userTask
  tasks : s'.tasks = Function.update s.tasks i { s.tasks i with mm := some mm' }

theorem brk_cases {regs addr : Nat} (h : Invariant img u s) (hruns : UserRuns s i)
    (hregs : RegsOk s i regs) (haddr : addr < 2 ^ 64)
    (hok : doBrk H i regs (s.withMem (store s.vm.mem regs 8 addr)) = .ok s') :
    ∃ mm mm' vm₁ vm', BrkRun H u i regs addr s s' mm mm' vm₁ vm' := by
  have houtside : ∀ x, pageOf x ∉ outside → ¬(regs ≤ x ∧ x < regs + 8) := fun x hx hin =>
    hx (h.regs_outside hruns.1 hregs hin.1 hin.2)
  obtain ⟨mm, hc⟩ := doBrk_call (H := H) h hruns hregs haddr
  have hmem : (s.withMem (store s.vm.mem regs 8 addr)).vm.mem = store s.vm.mem regs 8 addr := rfl
  have husage : (s.withMem (store s.vm.mem regs 8 addr)).vm.pagesUsage = s.vm.pagesUsage := rfl
  have hheap : (s.withMem (store s.vm.mem regs 8 addr)).vm.heap = s.vm.heap := rfl
  have huser : (s.withMem (store s.vm.mem regs 8 addr)).userTask = s.userTask := rfl
  generalize s.withMem (store s.vm.mem regs 8 addr) = s₁ at hok hc hmem husage hheap huser
  obtain ⟨h₁, htasks, hmm, hp, hused, hrun⟩ := hc
  rw [hrun] at hok
  obtain ⟨⟨mm', vm'⟩, hbrk, hs'⟩ := except_map_eq_ok.1 hok
  refine ⟨mm, mm', s₁.vm, vm', hmm, husage, hheap, hmem, fun x hx => ?_, h₁.zero, hp, hused, hbrk, ?_,
    fun x hx => ?_, ?_, ?_, ?_, ?_⟩
  · rw [hmem]
    exact store_same (houtside x hx)
  · rw [← hs']
    rfl
  · rw [← hs']
    exact store_same (houtside x hx)
  · rw [← hs']
    rfl
  · rw [← hs']
    rfl
  · rw [← hs', ← huser]
    rfl
  · rw [← hs', ← htasks]
    rfl

/-- The byte of a mapped user address lies in the page. -/
theorem userByteAddr_inPage {m : Mem} {pgDir virtAddr a : Nat}
    (ha : userFrame m pgDir virtAddr = some a) : InPage true a (userByteAddr m pgDir virtAddr) := by
  have := Nat.mod_lt virtAddr (show 0 < pageSize by decide)
  rw [userByteAddr, ha, Option.getD_some]
  simp only [InPage, linear, if_true]
  omega

section BrkRun

variable {regs addr : Nat} {mm mm' : MmStruct} {vm₁ : VmState κ}

/-- Memory outside of the tables does not concern an address space. -/
theorem sameTables_outside {m m' : Mem} {d : Nat} (h : SpaceOk m d mm)
    (hsame : ∀ x, pageOf x ∉ outside → m' x = m x) : SameTables m m' d := by
  intro n hn x hx
  refine hsame x ?_
  rw [pageOf_of_inPage (h.holdings.tables.pages n hn) hx]
  exact not_outside (h.holdings.tables_pool n hn)

theorem BrkRun.tables (hr : BrkRun H u i regs addr s s' mm mm' vm₁ vm') (h : Invariant img u s)
    (hruns : UserRuns s i) : SameTables s.vm.mem vm₁.mem (physical true (s.tasks i).pgDir) := by
  obtain ⟨mm₀, -, hp⟩ := (h.tasks i).process hruns.1 hruns.2
  exact sameTables_outside hp.space hr.before

theorem BrkRun.space_ok (hr : BrkRun H u i regs addr s s' mm mm' vm₁ vm') :
    SpaceOk vm'.mem (physical true (s.tasks i).pgDir) mm' := by
  have hcases := sysBrk_spec (H := H) hr.process.space hr.zero hr.used addr
  rw [linear_pgDir hr.process.dir_lt, hr.run] at hcases
  obtain ⟨mm₁, vm₂, hpair, hspace⟩ := hcases.resolve_left fun hno => by cases hno.1
  cases hpair
  exact hspace.ok

theorem BrkRun.tables' (hr : BrkRun H u i regs addr s s' mm mm' vm₁ vm') :
    SameTables vm'.mem s'.vm.mem (physical true (s.tasks i).pgDir) :=
  sameTables_outside hr.space_ok hr.after

end BrkRun

/-- Other pages than that of the byte are not changed by a store. -/
theorem update_other {m : Mem} {x y : Nat} {b : UInt8} (h : pageOf y ≠ pageOf x) :
    Function.update m x b y = m y := by
  refine Function.update_of_ne (fun hyx => h ?_) ..
  rw [hyx]

/-- A store of a user program is not to its tables. -/
theorem userStore_tables (h : Invariant img u s) {virtAddr : Nat}
    (hmapped : (userFrame s.vm.mem (s.tasks i).pgDir virtAddr).isSome = true) (b : UInt8) :
    SameTaskTables s.vm.mem (Function.update s.vm.mem
      (userByteAddr s.vm.mem (s.tasks i).pgDir virtAddr) b) (s.tasks i) := by
  intro hlive hdir n hn y hy
  obtain ⟨mm, -, hp⟩ := (h.tasks i).process hlive hdir
  obtain ⟨a, ha⟩ := Option.isSome_iff_exists.1 hmapped
  refine update_other ?_
  rw [pageOf_of_inPage (hp.space.holdings.tables.pages n hn) hy,
    pageOf_of_inPage (isPage_of_lookup ha) (userByteAddr_inPage ha)]
  rintro rfl
  exact hp.space.holdings.tables_mapped virtAddr n ha hn

theorem userStore_step (h : Invariant img u s) (hruns : UserRuns s i) {virtAddr : Nat}
    (hmapped : (userFrame s.vm.mem (s.tasks i).pgDir virtAddr).isSome = true) (b : UInt8) :
    StepOf img u i s (s.withMem (Function.update s.vm.mem
      (userByteAddr s.vm.mem (s.tasks i).pgDir virtAddr) b)) := by
  have htables := userStore_tables h hmapped b
  obtain ⟨hlive, hdir⟩ := hruns
  obtain ⟨mm, hmm, hp⟩ := (h.tasks i).process hlive hdir
  obtain ⟨a, ha⟩ := Option.isSome_iff_exists.1 hmapped
  have hin := userByteAddr_inPage ha
  generalize userByteAddr s.vm.mem (s.tasks i).pgDir virtAddr = x at hin htables ⊢
  have hpage := pageOf_of_inPage (isPage_of_lookup ha) hin
  -- the page is one of the task, or one of the images
  have hplace : pageOf x ∈ taskFootprint s.vm.mem (s.tasks i) ∪ outside := by
    rw [hpage, taskFootprint_eq hlive hdir hmm]
    rcases hp.space.maps.place virtAddr a ha with hpool | himage
    · exact Or.inl (Or.inr (Or.inr ⟨hpool, virtAddr, ha⟩))
    · refine Or.inr ⟨not_inPool_of_inImage himage, ?_⟩
      simp only [InImage, lmaUser, uartBase] at himage
      omega
  obtain ⟨htask, hfoot⟩ := (h.tasks i).frame htables
  refine ⟨?_, fun k _ => Or.inl rfl, htask, h.pool i, Or.inl rfl⟩
  change Local pageOf _ (taskFootprint (Function.update s.vm.mem x b) (s.tasks i) ∪ outside) _ _
  rw [hfoot]
  refine Local.write (fun y hy => update_other fun heq => hy ?_) rfl ?_
  · rwa [heq]
  rintro n (hn | hn) hfree
  · exact h.owned.held i n hn hfree
  · exact hn.1 (FreeFrame.inPool hfree)

theorem fork_step {regs : Nat} (h : Invariant img u s) (hruns : UserRuns s i)
    (hregs : RegsOk s i regs) :
    ∃ j, StepsOf img u j s ((sysFork H img i regs s).map Prod.fst) := by
  rcases sysFork_spec (H := H) h hruns hregs with
    herr | herr | ⟨slot, s', hok, hf⟩ | ⟨c, d, parent, cm, s', hok, hmm, hf⟩
  · exact ⟨i, Or.inl (by rw [herr, except_map_error])⟩
  · exact ⟨i, Or.inr (Or.inl (by rw [herr, except_map_error]))⟩
  · exact ⟨i, Or.inr (Or.inr ⟨s', by rw [hok, except_map_ok],
      StepOf.forkFailed h hruns.1 hregs hf⟩)⟩
  · exact ⟨c, Or.inr (Or.inr ⟨s', by rw [hok, except_map_ok], StepOf.forked h hruns hregs hmm hf⟩)⟩

/-- Every action that can happen is a step of one task. -/
theorem exec_step (h : Invariant img u s) {a : Action κ} (ha : Enabled s a) :
    ∃ j, StepsOf img u j s (exec H img u s a) := by
  cases a with
  | userTest i => exact ⟨i, userTest_step h ha.1 ha.2.1 ha.2.2⟩
  | fork i regs => exact fork_step h ha.1 ha.2
  | brk i regs addr => exact ⟨i, brk_step h ha.1 ha.2.1 ha.2.2⟩
  | exception i addr => exact ⟨i, exception_step h ha.1 addr⟩
  | exit i =>
      obtain ⟨s', hexit, hstep, -⟩ := exit_step (H := H) h ha
      exact ⟨i, Or.inr (Or.inr ⟨s', hexit, hstep⟩)⟩
  | userStore i virtAddr b =>
      exact ⟨i, Or.inr (Or.inr ⟨_, rfl, userStore_step h ha.1 ha.2.2 b⟩)⟩
  | kmallocUse heap =>
      refine ⟨0, Or.inr (Or.inr ⟨_, rfl, ?_, fun k _ => Or.inl rfl, h.tasks 0, h.pool 0, Or.inl rfl⟩)⟩
      refine Local.write (fun _ _ => rfl) rfl ?_
      rintro n (hn | hn) hfree
      · exact h.owned.held 0 n hn hfree
      · exact hn.1 (FreeFrame.inPool hfree)

/-- What a step of a run has done. -/
theorem step_eq {a : Action κ} (h : step H img u s a = some s') :
    Enabled s a ∧ exec H img u s a = .ok s' := by
  unfold step at h
  split_ifs at h with ha
  exact ⟨ha, except_toOption_eq_some.1 h⟩

theorem StepsOf.stepOf {j : Nat} (h : StepsOf img u j s (.ok s')) : StepOf img u j s s' := by
  rcases h with hno | hno | ⟨t, hok, hstep⟩
  · cases hno
  · cases hno
  · cases hok
    exact hstep

theorem step_invariant (h : Invariant img u s) {a : Action κ} (ha : step H img u s a = some s') :
    Invariant img u s' := by
  obtain ⟨henabled, hexec⟩ := step_eq ha
  obtain ⟨j, hsteps⟩ := exec_step (H := H) h henabled
  rw [hexec] at hsteps
  exact h.step hsteps.stepOf

/-! ## Runs -/

theorem boot_invariant (hb : Boot img s) : Invariant img u s := by
  have hempty : ∀ i, taskFootprint s.vm.mem (s.tasks i) = ∅ := fun i =>
    taskFootprint_of_pgDir (hb.pgDir i)
  have hin : ∀ i, (s.tasks i).inUse = true → i < maxNumProcesses := by
    intro i hi
    by_contra hno
    rw [hb.slots i (by omega)] at hi
    cases hi
  refine ⟨hb.zero, fun i => ⟨fun hi => ⟨hb.stack i hi, hin i hi⟩, hb.unused i, fun hlive => ?_⟩, ⟨?_, ?_⟩,
    fun i hlive _ mm hmm => ?_⟩
  · obtain ⟨mm, hmm, hnil⟩ := hb.mm i (TaskStruct.live_iff.1 hlive).1
    exact ⟨mm, hmm, fun _ => hnil, fun hno => absurd (hb.pgDir i) hno⟩
  · intro i j a _ ha
    simp only [hempty] at ha
    exact ha.elim
  · intro i a ha
    simp only [hempty] at ha
    exact ha.elim
  · obtain ⟨mm', hmm', hnil⟩ := hb.mm i (TaskStruct.live_iff.1 hlive).1
    rw [hmm] at hmm'
    cases hmm'
    intro x hx
    rw [hnil] at hx
    cases hx

/-- The states that are reached from the state after boot. -/
def Reachable (H : KernelHeap κ) (img : KernelImage) (u : UserImage) (s : KernelState κ) : Prop :=
  ∃ s₀ as, Boot img s₀ ∧ runFrom (step H img u) s₀ as = some s

theorem Reachable.invariant (h : Reachable H img u s) : Invariant img u s := by
  obtain ⟨s₀, as, hboot, hrun⟩ := h
  exact runFrom_invariant (fun _ _ _ hi ha => step_invariant hi ha) (boot_invariant hboot) hrun

end Kernel
end ToutOS
