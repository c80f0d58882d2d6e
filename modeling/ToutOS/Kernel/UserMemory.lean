import ToutOS.Kernel.SpaceRules
import ToutOS.Base.Memories

/-!
# UserMemory — the memory that a program sees

The kernel keeps one physical memory, and pages of it come and go.  A program sees the bytes that its page
table maps; from its data to its stack they are its own.

* `PrivateAddr`, `KernelState.userMem` — the memory of a program, read through its page table;
* `Placed` — where the pages of the image are mapped, so that no two addresses have the same byte;
* `StepOf.userMem_other` — what a step of one task leaves of the memory of the others;
* `userStore_userMem`, `Faulted.userMem`, `BrkRun.userMem`, `Forked.userMem` — stores, exceptions, calls
  of `sys_brk` and of `sys_fork`, seen by programs.
-/

namespace ToutOS
namespace Kernel

open Base Mm

variable {κ : Type} {H : KernelHeap κ} {img : KernelImage} {u : UserImage} {s s' : KernelState κ}
  {i j v a : Nat} {b : UInt8}

/-! ## The memory of a program -/

/-- What lies below is text and read-only data, which all programs share; the UART is shared as well. -/
def PrivateAddr (u : UserImage) (v : Nat) : Prop := u.dataStart ≤ v ∧ v < uva uartBase

instance (u : UserImage) (v : Nat) : Decidable (PrivateAddr u v) := inferInstanceAs (Decidable (_ ∧ _))

/-- The bytes that the programs see where they have memory of their own. -/
def KernelState.userMem (u : UserImage) (s : KernelState κ) : Memories Nat Nat UInt8 := fun i v =>
  if UserRuns s i ∧ PrivateAddr u v then
    (userFrame s.vm.mem (s.tasks i).pgDir v).map fun a => s.vm.mem (va a + v % pageSize)
  else none

theorem userMem_eq (hruns : UserRuns s i) (hv : PrivateAddr u v) :
    s.userMem u i v = (userFrame s.vm.mem (s.tasks i).pgDir v).map fun a => s.vm.mem (va a + v % pageSize) :=
  if_pos ⟨hruns, hv⟩

theorem userMem_eq_some : s.userMem u i v = some b ↔ (UserRuns s i ∧ PrivateAddr u v) ∧
    ∃ a, userFrame s.vm.mem (s.tasks i).pgDir v = some a ∧ s.vm.mem (va a + v % pageSize) = b := by
  rw [KernelState.userMem]
  split_ifs with h
  · simp only [Option.map_eq_some_iff, true_and, h]
  · simp only [h, false_and]

theorem userMem_of_not_runs (h : ¬UserRuns s i) : s.userMem u i = nothing := by
  funext v
  exact if_neg fun hno => h hno.1

theorem userMem_of_not_private (h : ¬PrivateAddr u v) : s.userMem u i v = none :=
  if_neg fun hno => h hno.2

theorem PrivateAddr.lt (h : PrivateAddr u v) : v < 2 ^ 39 := by
  have := h.2
  simp only [uva, uartBase] at this
  omega

theorem mem_inPage (a v : Nat) : InPage true a (va a + v % pageSize) := by
  have := Nat.mod_lt v (show 0 < pageSize by decide)
  simp only [InPage, linear, if_true]
  omega

/-- The page of a byte that a program sees. -/
theorem pageOf_userByte {m : Mem} {pgDir : Nat} (ha : userFrame m pgDir v = some a) :
    pageOf (va a + v % pageSize) = a := pageOf_of_inPage (isPage_of_lookup ha) (mem_inPage a v)

/-- A vma at such an address is not shared. -/
theorem VmArea.From.private {startBrk brk : Nat} {x : VmArea} (h : x.From u) (hok : x.Ok startBrk brk)
    (hcov : x.covers (pageAddr v) = true) (hv : PrivateAddr u v) : x.shared = false := by
  by_contra hshared
  rw [Bool.not_eq_false] at hshared
  have hend := hok.end_dvd (hok.shared hshared).1
  have hdata := u.data_ge
  have hrodata := u.rodata_ge
  have hrodata' := u.rodata_le
  rw [VmArea.covers_iff] at hcov
  obtain ⟨hlow, hhigh⟩ := hv
  rcases h with ⟨a, ha, harea⟩ | ⟨-, -, hno⟩
  · simp only [VmArea.area, Area.area, Prod.mk.injEq] at harea
    obtain ⟨hs, he, hf, -⟩ := harea
    rw [VmArea.shared, hf] at hshared
    simp only [UserImage.areas, List.mem_cons, List.not_mem_nil, or_false] at ha
    rcases ha with rfl | rfl | rfl | rfl | rfl | rfl
    · simp only [pageAddr, pageSize] at *
      omega
    · simp only [pageAddr, pageSize] at *
      omega
    · simp [vmRead, vmWrite, vmShared] at hshared
    · simp [vmRead, vmWrite, vmShared] at hshared
    · simp [vmRead, vmWrite, vmShared] at hshared
    · simp only [pageAddr, pageSize, uva, uartBase] at *
      omega
  · rw [hno] at hshared
    cases hshared

/-- The other vmas that are mapped as a whole end where the heap begins. -/
theorem VmArea.From.end_le {x : VmArea} (h : x.From u) (hlma : x.lma ≠ noLma) (hshared : x.shared = false) :
    x.vmEnd ≤ u.bssEnd := by
  have hbss := u.bss_ge
  have hbss' := u.bss_le
  rcases h with ⟨a, ha, harea⟩ | ⟨-, hno, -⟩
  · simp only [VmArea.area, Area.area, Prod.mk.injEq, decide_eq_decide] at harea
    obtain ⟨-, he, hf, hiff⟩ := harea
    rw [VmArea.shared, hf] at hshared
    rw [he]
    simp only [UserImage.areas, List.mem_cons, List.not_mem_nil, or_false] at ha
    rcases ha with rfl | rfl | rfl | rfl | rfl | rfl
    · simp [vmRead, vmExec, vmShared] at hshared
    · simp [vmRead, vmShared] at hshared
    · simp only
      omega
    · exact Nat.le_refl _
    · exact absurd (hiff.2 rfl) hlma
    · simp [vmRead, vmWrite, vmShared] at hshared
  · exact absurd hno hlma

/-- All that lies before the heap is mapped as a whole. -/
theorem VmArea.From.static {x : VmArea} {p : Nat} (h : x.From u) (hcov : x.covers p = true)
    (hp : p < u.bssEnd) : x.lma ≠ noLma := by
  have hend := u.bssEnd_le
  have hbss := u.bss_le
  have hdata := u.data_le
  have hbss' := u.bss_ge
  have hrodata := u.rodata_le
  have hdata' := u.data_ge
  rw [VmArea.covers_iff] at hcov
  rcases h with ⟨a, ha, harea⟩ | ⟨hstart, -, -⟩
  · simp only [VmArea.area, Area.area, Prod.mk.injEq, decide_eq_decide] at harea
    obtain ⟨hs, -, -, hiff⟩ := harea
    rw [ne_eq, hiff]
    rw [hs] at hcov
    simp only [UserImage.areas, List.mem_cons, List.not_mem_nil, or_false] at ha
    simp only [vmaUser, userSize, lmaUser, uartBase, noLma, userStackStart] at *
    rcases ha with rfl | rfl | rfl | rfl | rfl | rfl
    all_goals
      simp only at hcov ⊢
      omega
  · omega

/-- A page at such an address belongs to one program. -/
theorem Invariant.mapsOwn (h : Invariant img u s) (hruns : UserRuns s i) (hv : PrivateAddr u v)
    (ha : userFrame s.vm.mem (s.tasks i).pgDir v = some a) : MapsOwn s i v a := by
  obtain ⟨mm, hmm, hp⟩ := (h.tasks i).process hruns.1 hruns.2
  obtain ⟨x, hx, hcov⟩ := hp.space.maps.covered v a hv.lt ha
  exact ⟨⟨hruns.1, hruns.2, ha⟩, hv.lt, mm, hmm, x, hx,
    (hp.vmas.vma x hx).private (hp.space.layout.vma x hx) hcov hv, hcov⟩

/-! ## The pages of the image -/

/-- The page at `a` is the one that `user_test` has mapped at `p`. -/
def AtHome (u : UserImage) (p a : Nat) : Prop :=
  (u.textStart ≤ p ∧ a = lmaUser + (p - u.textStart)) ∨ (p = uva uartBase ∧ a = uartBase)

theorem AtHome.unique {p q : Nat} (hp : AtHome u p a) (hq : AtHome u q a) : p = q := by
  simp only [AtHome, lmaUser, uartBase] at hp hq
  omega

/-- A page that is mapped comes from the pool, or it is where `user_test` has mapped it. -/
def Placed (u : UserImage) (m : Mem) (d : Nat) : Prop :=
  ∀ v a, v < 2 ^ 39 → lookup true m d v = some a → InPool a ∨ AtHome u (pageAddr v) a

/-- It is so in all address spaces. -/
def AllPlaced (u : UserImage) (s : KernelState κ) : Prop :=
  ∀ i, UserRuns s i → Placed u s.vm.mem (physical true (s.tasks i).pgDir)

theorem Placed.frame {m m' : Mem} {d : Nat} {mm : MmStruct} (h : Placed u m d) (hspace : SpaceOk m d mm)
    (hsame : SameTables m m' d) : Placed u m' d := by
  intro v a hv ha
  rw [lookup_frame hspace.holdings.tables hsame] at ha
  exact h v a hv ha

/-- What `setup_vma` is called with. -/
theorem area_atHome {x : Area} {p self : Nat} (hx : x ∈ u.areas) (hlma : x.lma ≠ noLma)
    (hcov : (x.vma self).covers (pageAddr p) = true) :
    AtHome u (pageAddr p) ((x.vma self).target (pageAddr p)) := by
  have h₁ := u.text_le
  have h₂ := u.rodata_ge
  have h₃ := u.rodata_le
  have h₄ := u.data_ge
  have h₅ := u.data_le
  have h₆ := u.bss_ge
  rw [VmArea.covers_iff] at hcov
  simp only [UserImage.areas, List.mem_cons, List.not_mem_nil, or_false] at hx
  simp only [AtHome, VmArea.target, Area.vma] at *
  rcases hx with rfl | rfl | rfl | rfl | rfl | rfl
  · exact Or.inl ⟨hcov.1, rfl⟩
  · simp only at hcov ⊢
    omega
  · simp only at hcov ⊢
    omega
  · simp only at hcov ⊢
    omega
  · exact absurd rfl hlma
  · -- the vma of the UART is one page
    refine Or.inr ?_
    simp only [uva, uartBase, pageAddr, pageSize] at hcov ⊢
    omega

/-! ## `sys_brk` -/

section Brk

variable {d addr : Nat} {mm mm' : MmStruct} {vm vm' : VmState κ}

/-- The memory after a call is that before it, or pages have been unmapped. -/
theorem sysBrk_unmaps (h : SpaceOk vm.mem d mm) (hzero : ZeroPage vm.mem)
    (hused : ∀ a ∈ footprint vm.mem d mm.mmap, ¬FreeFrame vm.pagesUsage a)
    (hrun : sysBrk H (linear true d) addr mm vm = .ok (mm', vm')) :
    vm'.mem = vm.mem ∨ ∃ lo n vm₁, vm'.mem = vm₁.mem ∧ Shrink d lo n addr mm vm vm₁ := by
  rcases sysBrk_cases (H := H) h hzero hused addr with
    ⟨herr, -⟩ | ⟨b, hok, -⟩ | ⟨lo, n, vm₁, hok, hs⟩
  · rw [hrun] at herr
    cases herr
  · -- the break goes up or stays
    have hpair := Except.ok.inj (hrun.symm.trans hok)
    refine Or.inl ?_
    rw [show vm' = _ from congrArg Prod.snd hpair, brkOut_mem]
  · have hpair := Except.ok.inj (hrun.symm.trans hok)
    refine Or.inr ⟨lo, n, vm₁, ?_, hs⟩
    rw [show vm' = _ from congrArg Prod.snd hpair, brkOut_mem]

/-- The call unmaps the pages of the heap from the new break on. -/
theorem sysBrk_lookup (h : SpaceOk vm.mem d mm) (hzero : ZeroPage vm.mem)
    (hused : ∀ a ∈ footprint vm.mem d mm.mmap, ¬FreeFrame vm.pagesUsage a)
    (hrun : sysBrk H (linear true d) addr mm vm = .ok (mm', vm')) {v : Nat} (hv : v < 2 ^ 39) :
    lookup true vm'.mem d v =
      if ¬KeepsBrk mm addr ∧ upperPageAddr addr ≤ v ∧ v < maxBrkAddr then none
      else lookup true vm.mem d v := by
  by_cases hkeep : KeepsBrk mm addr
  · rw [if_neg fun hno => hno.1 hkeep]
    have hmem : vm'.mem = vm.mem := by
      rw [sysBrk, if_pos (show _ ∨ _ from hkeep)] at hrun
      rw [← show (brkOut H mm vm).2 = vm' from congrArg Prod.snd (Except.ok.inj hrun), brkOut_mem]
    rw [hmem]
  have hle : mm.startBrk ≤ addr ∧ addr ≤ maxBrkAddr := by
    simp only [KeepsBrk] at hkeep
    omega
  obtain ⟨hdvd, hge, -, -⟩ := upperPageAddr_spec hle.2
  split_ifs with hin
  · -- all that is mapped in the heap lies below the new break
    obtain ⟨-, hlow, hhigh⟩ := hin
    obtain ⟨mm₁, vm₁, hok, hs⟩ := (sysBrk_spec (H := H) h hzero hused addr).resolve_left fun hno => by
      rw [hrun] at hno
      cases hno.1
    obtain ⟨rfl, rfl⟩ : mm' = mm₁ ∧ vm' = vm₁ := by
      have hpair := Except.ok.inj (hrun.symm.trans hok)
      exact ⟨congrArg Prod.fst hpair, congrArg Prod.snd hpair⟩
    by_contra hno
    obtain ⟨a, ha⟩ := Option.ne_none_iff_exists'.1 hno
    have hbelow := hs.ok.below_brk (by rw [hs.start]; omega) hhigh ha
    rw [(sysBrk_set hrun).brk, nextBrk, if_neg hkeep] at hbelow
    simp only [pageAddr, pageSize] at *
    omega
  · rcases sysBrk_unmaps h hzero hused hrun with hmem | ⟨lo, n, vm₁, hmem, hs⟩
    · rw [hmem]
    · rw [hmem]
      refine hs.unmapped.other v fun j hj hpath => hin ⟨hkeep, ?_⟩
      have hlo := hs.lo_eq
      have hdvd := hs.lo_dvd
      have hhi := hs.hi_le
      rw [pathOf_eq_iff] at hpath
      simp only [maxBrkAddr, pageSize] at *
      omega

/-- Memory is written in the tables only. -/
theorem sysBrk_mem (h : SpaceOk vm.mem d mm) (hzero : ZeroPage vm.mem)
    (hused : ∀ a ∈ footprint vm.mem d mm.mmap, ¬FreeFrame vm.pagesUsage a)
    (hrun : sysBrk H (linear true d) addr mm vm = .ok (mm', vm')) {x : Nat}
    (hx : pageOf x ∉ tableFrames vm.mem d) : vm'.mem x = vm.mem x := by
  rcases sysBrk_unmaps h hzero hused hrun with hmem | ⟨lo, n, vm₁, hmem, hs⟩
  · rw [hmem]
  · rw [hmem]
    refine hs.unmapped.frame x fun t ht hin => hx ?_
    rwa [pageOf_of_inPage (h.holdings.tables.pages t ht) hin]

end Brk

/-! ## Bytes that stay -/

section Bytes

variable {mm : MmStruct} {vm vm' : VmState κ} {x : Nat}

theorem exitVmas_mem : ∀ {mmap : List VmArea} {vm : VmState κ}, exitVmas H mmap vm = .ok vm' →
    vm'.mem = vm.mem := by
  intro mmap
  induction mmap with
  | nil =>
      intro vm hrun
      obtain rfl := Except.ok.inj hrun
      rfl
  | cons y rest ih =>
      intro vm hrun
      rw [exitVmas] at hrun
      obtain ⟨usage, -, hrest⟩ := except_bind_eq_ok.1 hrun
      have hmem := ih hrest
      exact hmem

/-- Giving an address space back writes nothing. -/
theorem doExit_mem (hrun : doExit H i s = .ok s') : s'.vm.mem = s.vm.mem := by
  rw [doExit] at hrun
  obtain ⟨vm', hexit, rfl⟩ := except_map_eq_ok.1 hrun
  cases hmm : (s.tasks i).mm with
  | none =>
      rw [hmm, exitMm] at hexit
      obtain rfl := Except.ok.inj hexit
      rfl
  | some mm =>
      rw [hmm, exitMm] at hexit
      obtain ⟨vm₁, hvmas, hrest⟩ := except_bind_eq_ok.1 hexit
      obtain ⟨usage, -, rfl⟩ := except_map_eq_ok.1 hrest
      have hmem := exitVmas_mem hvmas
      exact hmem

theorem not_inStack_of_inImage {c : Nat} (hc : c < maxNumProcesses) (hx : InImage (pageOf x)) :
    ¬InStack img c x := fun hin => by
  have hpage := hin.page hc
  simp only [InImage, lmaUser, userSize, uartBase, pageSize] at hx
  omega

/-- The saved registers are not in the image. -/
theorem Invariant.regs_notImage {regs : Nat} (h : Invariant img u s) (hlive : (s.tasks i).live = true)
    (hregs : RegsOk s i regs) (hx : InImage (pageOf x)) : ¬(regs ≤ x ∧ x < regs + 8) := fun hin => by
  obtain ⟨hi, hstack⟩ := h.regs_inStack hlive hregs hin.1 (by simp only [sizeofPtRegs]; omega)
  exact not_inStack_of_inImage hi hx hstack

theorem Faulted.mem {d addr k : Nat} {mmap' : List VmArea} {T' : Set Nat}
    (hf : Faulted H d addr k mm vm mmap' vm' T') (hx : ¬FreeFrame vm.pagesUsage (pageOf x))
    (htable : pageOf x ∉ tableFrames vm.mem d) : vm'.mem x = vm.mem x := by
  refine hf.grow.frame x fun n hn hin => ?_
  rw [pageOf_of_inPage (hf.wf.pages n hn) hin] at hx htable
  rcases hf.table hn with hold | ⟨hfree, -⟩
  · exact htable hold
  · exact hx hfree

/-- What a call of `sys_fork` that has returned can have done. -/
theorem fork_cases {regs : Nat} (h : Invariant img u s) (hruns : UserRuns s i) (hregs : RegsOk s i regs)
    (hexec : exec H img u s (.fork i regs) = .ok s') :
    (∃ slot, ForkFailed img regs slot s s') ∨
      ∃ c d parent cm, (s.tasks i).mm = some parent ∧ Forked img i regs c d parent cm s s' := by
  obtain ⟨⟨t, slot⟩, hok, rfl⟩ := except_map_eq_ok.1 hexec
  rcases sysFork_spec (H := H) h hruns hregs with
    herr | herr | ⟨slot', t', hok', hf⟩ | ⟨c, d, parent, cm, t', hok', hmm, hf⟩
  · rw [hok] at herr
    cases herr
  · rw [hok] at herr
    cases herr
  · rw [hok] at hok'
    cases hok'
    exact .inl ⟨_, hf⟩
  · rw [hok] at hok'
    cases hok'
    exact .inr ⟨c, d, parent, cm, hmm, hf⟩

/-- Every action but `sys_fork` is a step of its own task. -/
theorem step_stepOf {act : Action κ} (h : Invariant img u s) (hact : step H img u s act = some s')
    (htask : act.task = some j) (hfork : ∀ regs, act ≠ .fork j regs) : StepOf img u j s s' := by
  obtain ⟨henabled, hexec⟩ := step_eq hact
  cases act with
  | userTest k =>
      obtain rfl := Option.some.inj htask
      have hof := userTest_step (H := H) h henabled.1 henabled.2.1 henabled.2.2
      rw [show userTest H u k s = _ from hexec] at hof
      exact hof.stepOf
  | fork k regs =>
      obtain rfl := Option.some.inj htask
      exact absurd rfl (hfork regs)
  | brk k regs addr =>
      obtain rfl := Option.some.inj htask
      have hof := brk_step (H := H) h henabled.1 henabled.2.1 henabled.2.2
      rw [show doBrk H k regs _ = _ from hexec] at hof
      exact hof.stepOf
  | exception k addr =>
      obtain rfl := Option.some.inj htask
      have hof := exception_step (H := H) h henabled.1 addr
      rw [show doEl0Sync H k addr s = _ from hexec] at hof
      exact hof.stepOf
  | exit k =>
      obtain rfl := Option.some.inj htask
      exact (not_userRuns_of_exit h henabled hexec).1
  | userStore k w c =>
      obtain rfl := Option.some.inj htask
      have hof := userStore_step h henabled.1 henabled.2.2 c
      rwa [Except.ok.inj hexec] at hof
  | kmallocUse heap => cases htask

/-- The kernel writes to pages of the image only in `user_test`. -/
theorem step_image {act : Action κ} (h : Invariant img u s) (hstep : step H img u s act = some s')
    (htest : ∀ j, act ≠ .userTest j) (hstore : ∀ j v b, act ≠ .userStore j v b)
    (hx : InImage (pageOf x)) : s'.vm.mem x = s.vm.mem x := by
  obtain ⟨henabled, hexec⟩ := step_eq hstep
  have hfree : ¬FreeFrame s.vm.pagesUsage (pageOf x) := fun hfree =>
    not_inPool_of_inImage hx (FreeFrame.inPool hfree)
  cases act with
  | userTest j => exact absurd rfl (htest j)
  | fork j regs =>
      obtain ⟨hruns, hregs⟩ := henabled
      have hnot := h.regs_notImage hruns.1 hregs hx
      rcases fork_cases h hruns hregs hexec with ⟨slot, hf⟩ | ⟨c, d, parent, cm, -, hf⟩
      · refine hf.mem x hnot (fun c hc => not_inStack_of_inImage ?_ hx) hfree
        have := (hf.slots.taken c hc).1.2.1
        omega
      · refine hf.writes x hnot (fun c' hc => not_inStack_of_inImage ?_ hx) hfree
        have := (hf.slots.taken c' hc).1.2.1
        omega
  | brk j regs addr =>
      obtain ⟨hruns, hregs, haddr⟩ := henabled
      obtain ⟨mm, mm', vm₁, vm', hr⟩ := brk_cases h hruns hregs haddr hexec
      have hnot := h.regs_notImage hruns.1 hregs hx
      have hrun := hr.run
      rw [← linear_pgDir hr.process.dir_lt] at hrun
      rw [hr.stored, store_same hnot, sysBrk_mem hr.process.space hr.zero hr.used hrun fun htable =>
        not_inPool_of_inImage hx (hr.process.space.holdings.tables_pool _ htable), hr.loaded,
        store_same hnot]
  | exception j addr =>
      obtain ⟨hruns, -⟩ := henabled
      rcases exception_cases h hruns hexec with hexit | ⟨mm, vma, hmm, -, rfl | ⟨k, mmap', vm', T', rfl, hf⟩⟩
      · rw [doExit_mem hexit]
      · rfl
      · have hp := (h.tasks j).process_of hruns.1 hruns.2 hmm
        exact hf.mem hfree fun htable =>
          not_inPool_of_inImage hx (hp.space.holdings.tables_pool _ htable)
  | exit j => rw [doExit_mem hexec]
  | userStore j w c => exact absurd rfl (hstore j w c)
  | kmallocUse heap =>
      obtain rfl := Except.ok.inj hexec
      rfl

end Bytes

/-! ## The pages of the image stay where they are -/

theorem AllPlaced.of_step (hP : AllPlaced u s) (h : Invariant img u s) (hs : StepOf img u j s s')
    (hj : UserRuns s' j → Placed u s'.vm.mem (physical true (s'.tasks j).pgDir)) : AllPlaced u s' := by
  intro i hruns
  by_cases hij : i = j
  · subst hij
    exact hj hruns
  rcases hs.others i hij with heq | ⟨heq, -⟩
  · rw [UserRuns, heq] at hruns
    rw [heq]
    obtain ⟨mm, -, hp⟩ := (h.tasks i).process hruns.1 hruns.2
    exact (hP i hruns).frame hp.space (hs.tables h hij hruns.1 hruns.2)
  · rw [UserRuns, heq] at hruns
    cases hruns.1

theorem UserTested.placed {d : Nat} {mm' : MmStruct} {vm vm' : VmState κ}
    (ht : UserTested u i d s s' mm' vm vm') : Placed u s'.vm.mem d := by
  obtain ⟨hspace, -, hmapped⟩ := ht.built
  intro v a hv ha
  rw [lookup_frame hspace.holdings.tables ht.tables] at ha
  obtain ⟨x, hx, hlma, hcov, rfl⟩ := hmapped v a hv ha
  obtain ⟨y, hy, self, rfl⟩ := ht.areas x hx
  exact Or.inr (area_atHome hy hlma hcov)

/-- The shared pages of a child are those of its parent, and the others come from the pool. -/
theorem Forked.placed {regs c d : Nat} {parent cm : MmStruct} (h : Invariant img u s)
    (hP : AllPlaced u s) (hruns : UserRuns s i) (hregs : RegsOk s i regs)
    (hmm : (s.tasks i).mm = some parent) (hf : Forked img i regs c d parent cm s s') :
    Placed u s'.vm.mem (physical true (s'.tasks c).pgDir) := by
  intro v b hv hb
  obtain ⟨x, -, -, -, hshared, hfree, -⟩ := hf.mapped h hruns hregs hmm hv hb
  cases hx : x.shared with
  | true => exact hP i hruns v b hv (hshared hx)
  | false => exact Or.inl (FreeFrame.inPool (hfree hx))

theorem step_placed {act : Action κ} (h : Invariant img u s) (hP : AllPlaced u s)
    (hact : step H img u s act = some s') : AllPlaced u s' := by
  obtain ⟨henabled, hexec⟩ := step_eq hact
  cases act with
  | userTest j =>
      obtain ⟨hlive, hdir, huser⟩ := henabled
      refine hP.of_step h (step_stepOf h hact rfl (by simp)) fun hruns => ?_
      rcases userTest_cases (H := H) h hlive hdir with
        herr | herr | hrun | ⟨t, d, mm', vm₁, vm, hrun, ht⟩
      · rw [exec, herr] at hexec
        cases hexec
      · rw [exec, herr] at hexec
        cases hexec
      · -- there has been no memory for the directory
        rw [exec, hrun] at hexec
        obtain rfl := Except.ok.inj hexec
        exact absurd hdir hruns.2
      · rw [exec, hrun] at hexec
        obtain rfl := Except.ok.inj hexec
        have hplaced := ht.placed
        rw [ht.tasks, Function.update_self, ht.physical]
        exact hplaced
  | fork j regs =>
      obtain ⟨hruns, hregs⟩ := henabled
      rcases fork_cases h hruns hregs hexec with ⟨slot, hf⟩ | ⟨c, d, parent, cm, hmm, hf⟩
      · refine hP.of_step h (StepOf.forkFailed h hruns.1 hregs hf) fun _ => ?_
        obtain ⟨-, htask⟩ := hf.slots.not_live hruns.1
        obtain ⟨mm, -, hp⟩ := (h.tasks j).process hruns.1 hruns.2
        rw [htask]
        exact (hP j hruns).frame hp.space (hf.tables h hruns.1 hregs hruns.1 hruns.2)
      · exact hP.of_step h (StepOf.forked h hruns hregs hmm hf) fun _ =>
          hf.placed h hP hruns hregs hmm
  | brk j regs addr =>
      obtain ⟨hruns, hregs, haddr⟩ := henabled
      obtain ⟨mm, mm', vm₁, vm', hr⟩ := brk_cases h hruns hregs haddr hexec
      refine hP.of_step h (step_stepOf h hact rfl (by simp)) fun _ => ?_
      have hp := (h.tasks j).process_of hruns.1 hruns.2 hr.space
      have hrun := hr.run
      rw [← linear_pgDir hr.process.dir_lt] at hrun
      have hbefore := (hP j hruns).frame hp.space (hr.tables h hruns)
      rw [hr.tasks, Function.update_self]
      -- pages have been unmapped at most
      refine Placed.frame (fun v a hv ha => hbefore v a hv ?_) hr.space_ok hr.tables'
      rw [sysBrk_lookup hr.process.space hr.zero hr.used hrun hv] at ha
      split_ifs at ha
      exact ha
  | exception j addr =>
      obtain ⟨hruns, haddr⟩ := henabled
      refine hP.of_step h (step_stepOf h hact rfl (by simp)) fun hruns' => ?_
      rcases exception_cases h hruns hexec with hexit | ⟨mm, vma, hmm, -, rfl | ⟨k, mmap', vm', T', rfl, hf⟩⟩
      · exact absurd hruns' (not_userRuns_of_exit h hruns.1 hexit).2
      · simp only [setMm, Function.update_self]
        exact hP j hruns
      · simp only [setMm, Function.update_self]
        -- one page has been added, and it comes from the pool
        intro v a hv ha
        rcases hf.mapped ha with hold | ⟨rfl, -⟩
        · exact hP j hruns v a hv hold
        · exact Or.inl (inPool_frame.2 hf.lt)
  | exit j =>
      obtain ⟨hstep, hno⟩ := not_userRuns_of_exit h henabled hexec
      exact hP.of_step h hstep fun hruns => absurd hruns hno
  | userStore j w c =>
      obtain ⟨hruns, -, hmapped⟩ := henabled
      have hstep := step_stepOf h hact rfl (by simp)
      have htables := userStore_tables h hmapped c
      obtain rfl := Except.ok.inj hexec
      obtain ⟨mm, -, hp⟩ := (h.tasks j).process hruns.1 hruns.2
      exact hP.of_step h hstep fun _ => (hP j hruns).frame hp.space (htables hruns.1 hruns.2)
  | kmallocUse heap =>
      obtain rfl := Except.ok.inj hexec
      exact hP

/-! ## What a program sees -/

/-- The same pages with the same bytes. -/
theorem userMem_congr (hruns : UserRuns s i) (hruns' : UserRuns s' i)
    (hframe : ∀ v, userFrame s'.vm.mem (s'.tasks i).pgDir v = userFrame s.vm.mem (s.tasks i).pgDir v)
    (hbyte : ∀ v a, PrivateAddr u v → userFrame s.vm.mem (s.tasks i).pgDir v = some a →
      s'.vm.mem (va a + v % pageSize) = s.vm.mem (va a + v % pageSize)) :
    s'.userMem u i = s.userMem u i := by
  funext v
  by_cases hv : PrivateAddr u v
  · rw [userMem_eq hruns hv, userMem_eq hruns' hv, hframe]
    cases ha : userFrame s.vm.mem (s.tasks i).pgDir v with
    | none => rfl
    | some a => rw [Option.map_some, Option.map_some, hbyte v a hv ha]
  · rw [userMem_of_not_private hv, userMem_of_not_private hv]

/-- Only the program that has been loaded has pages of the image to itself. -/
theorem Invariant.user_of_image (h : Invariant img u s) (hruns : UserRuns s i) (hv : PrivateAddr u v)
    (ha : userFrame s.vm.mem (s.tasks i).pgDir v = some a) (hpool : ¬InPool a) : s.userTask = some i := by
  obtain ⟨-, hlt, mm, hmm, x, hx, hshared, hcov⟩ := h.mapsOwn hruns hv ha
  have hp := (h.tasks i).process_of hruns.1 hruns.2 hmm
  by_contra hne
  by_cases hlma : x.lma = noLma
  · exact hpool (hp.space.maps.demand x hx hlma v a hlt hcov ha)
  · have hstatic := hp.space.maps.static x hx hlma v hlt hcov
    rw [userFrame, hstatic] at ha
    obtain rfl := Option.some.inj ha
    have hown := h.pool i hruns.1 hne mm hmm x hx ⟨hshared, hlma⟩ (pageAddr v) hcov
    rw [pageAddr_pageAddr] at hown
    exact hpool hown

/-- A step of one task, seen by another one. -/
theorem StepOf.userMem_other (hs : StepOf img u j s s') (h : Invariant img u s) (hij : i ≠ j)
    (himage : s.userTask = some i → ∀ x, InImage (pageOf x) → s'.vm.mem x = s.vm.mem x) :
    s'.userMem u i = s.userMem u i := by
  rcases hs.others i hij with heq | ⟨heq, hlive⟩
  · by_cases hruns : UserRuns s i
    · obtain ⟨mm, hmm, hp⟩ := (h.tasks i).process hruns.1 hruns.2
      have hruns' : UserRuns s' i := by rwa [UserRuns, heq]
      refine userMem_congr hruns hruns' (fun v => ?_) fun v a hv ha => ?_
      · rw [heq]
        exact lookup_frame hp.space.holdings.tables (hs.tables h hij hruns.1 hruns.2) v
      · have hpage := pageOf_userByte ha
        rcases hp.space.maps.place v a ha with hpool | hin
        · -- a page of the pool is one of what the task owns
          refine h.owned.same hs.moves hij ?_ ?_
          · rw [hpage]
            exact h.mapsTo_mem ⟨hruns.1, hruns.2, ha⟩ hpool
          · rw [hpage]
            exact not_outside hpool
        · refine himage (h.user_of_image hruns hv ha fun hpool => not_inPool_of_inImage hin hpool) _ ?_
          rwa [hpage]
    · have hruns' : ¬UserRuns s' i := by rwa [UserRuns, heq]
      rw [userMem_of_not_runs hruns, userMem_of_not_runs hruns']
  · have hno : ¬UserRuns s i := fun hruns => by
      rw [hruns.1] at hlive
      cases hlive
    have hno' : ¬UserRuns s' i := fun hruns => by
      rw [UserRuns, heq] at hruns
      cases hruns.1
    rw [userMem_of_not_runs hno, userMem_of_not_runs hno']

/-! ## Stores -/

/-- A byte that a program has for itself is at no other address, of this program or of another one. -/
theorem byte_unique {w c : Nat} (h : Invariant img u s) (hP : AllPlaced u s) (hruns : UserRuns s i)
    (hv : v < 2 ^ 39) (ha : userFrame s.vm.mem (s.tasks i).pgDir v = some a) (hruns' : UserRuns s j)
    (hw : PrivateAddr u w) (hc : userFrame s.vm.mem (s.tasks j).pgDir w = some c)
    (heq : va c + w % pageSize = va a + v % pageSize) : j = i ∧ w = v := by
  obtain rfl : c = a := by rw [← pageOf_userByte hc, heq, pageOf_userByte ha]
  have hoffset : w % pageSize = v % pageSize := by omega
  have hwlt := hw.lt
  by_cases hpool : InPool c
  · obtain rfl : j = i := by
      by_contra hne
      exact h.owned.apart j i c hne (h.mapsTo_mem ⟨hruns'.1, hruns'.2, hc⟩ hpool)
        (h.mapsTo_mem ⟨hruns.1, hruns.2, ha⟩ hpool)
    obtain ⟨mm, -, hp⟩ := (h.tasks j).process hruns.1 hruns.2
    have hpath := hp.space.holdings.mapped_inj w v c hc ha hpool
    rw [pathOf_eq_iff] at hpath
    simp only [pageSize] at hoffset
    exact ⟨rfl, by omega⟩
  · -- the pages of the image are where they have been mapped
    have hpage : pageAddr w = pageAddr v :=
      ((hP j hruns' w c hwlt hc).resolve_left hpool).unique ((hP i hruns v c hv ha).resolve_left hpool)
    obtain rfl : w = v := by
      simp only [pageAddr, pageSize] at hpage hoffset
      omega
    refine ⟨?_, rfl⟩
    by_contra hne
    exact h.mapsOwn_apart hne (h.mapsOwn hruns' hw hc) (h.mapsOwn hruns hw ha)

/-- A store of a program. -/
theorem userStore_userMem (h : Invariant img u s) (hP : AllPlaced u s) (hruns : UserRuns s i)
    (hv : v < 2 ^ 39) (ha : userFrame s.vm.mem (s.tasks i).pgDir v = some a) (b : UInt8) :
    (s.withMem (Function.update s.vm.mem (va a + v % pageSize) b)).userMem u =
      if PrivateAddr u v then
        Function.update (s.userMem u) i (Function.update (s.userMem u i) v (some b))
      else s.userMem u := by
  have htables : ∀ k, UserRuns s k → ∀ w,
      userFrame (s.withMem (Function.update s.vm.mem (va a + v % pageSize) b)).vm.mem (s.tasks k).pgDir w =
        userFrame s.vm.mem (s.tasks k).pgDir w := by
    intro k hk w
    have hmapped : (userFrame s.vm.mem (s.tasks i).pgDir v).isSome = true := by rw [ha, Option.isSome_some]
    have haddr : userByteAddr s.vm.mem (s.tasks i).pgDir v = va a + v % pageSize := by
      rw [userByteAddr, ha, Option.getD_some]
    obtain ⟨mm, -, hp⟩ := (h.tasks k).process hk.1 hk.2
    have hsame : SameTaskTables s.vm.mem (Function.update s.vm.mem (va a + v % pageSize) b) (s.tasks k) := by
      by_cases hki : k = i
      · subst hki
        rw [← haddr]
        exact userStore_tables h hmapped b
      · have hstep := userStore_step h hruns hmapped b
        rw [haddr] at hstep
        exact hstep.tables h hki
    exact lookup_frame hp.space.holdings.tables (hsame hk.1 hk.2) w
  generalize hs' : s.withMem (Function.update s.vm.mem (va a + v % pageSize) b) = s' at htables ⊢
  have htasks : s'.tasks = s.tasks := by rw [← hs']; rfl
  have hmem : s'.vm.mem = Function.update s.vm.mem (va a + v % pageSize) b := by rw [← hs']; rfl
  funext j w
  -- the store changes the one byte that it names, if that is private
  have hgoal : (if PrivateAddr u v then
      Function.update (s.userMem u) i (Function.update (s.userMem u i) v (some b)) else s.userMem u) j w =
      if PrivateAddr u v ∧ j = i ∧ w = v then some b else s.userMem u j w := by
    by_cases hprivate : PrivateAddr u v
    · simp only [hprivate, if_true, update_memory, true_and]
    · simp only [hprivate, false_and, if_false]
  rw [hgoal]
  by_cases hseen : UserRuns s j ∧ PrivateAddr u w
  swap
  · -- nothing is there, before and after
    have hnone : s.userMem u j w = none := if_neg hseen
    have hnone' : s'.userMem u j w = none := if_neg (by rwa [UserRuns, htasks])
    rw [hnone', hnone, if_neg]
    rintro ⟨hprivate, rfl, rfl⟩
    exact hseen ⟨hruns, hprivate⟩
  obtain ⟨hruns', hw⟩ := hseen
  have hbefore := @userMem_eq κ u s j w hruns' hw
  have hafter := @userMem_eq κ u s' j w (by rwa [UserRuns, htasks]) hw
  rw [htasks, htables j hruns', hmem] at hafter
  cases hc : userFrame s.vm.mem (s.tasks j).pgDir w with
  | none =>
      rw [hc, Option.map_none] at hbefore hafter
      rw [hafter, hbefore, if_neg]
      rintro ⟨-, rfl, rfl⟩
      rw [ha] at hc
      cases hc
  | some c =>
      rw [hc, Option.map_some] at hbefore hafter
      rw [hafter, hbefore]
      by_cases heq : va c + w % pageSize = va a + v % pageSize
      · -- no other program, and no other address, has this byte
        obtain ⟨rfl, rfl⟩ := byte_unique h hP hruns hv ha hruns' hw hc heq
        rw [if_pos ⟨hw, rfl, rfl⟩, heq, Function.update_self]
      · rw [Function.update_of_ne heq, if_neg]
        rintro ⟨-, rfl, rfl⟩
        rw [ha] at hc
        obtain rfl := Option.some.inj hc
        exact heq rfl

/-! ## The other actions, seen by the program that takes them -/

section Own

variable {regs addr c d k : Nat} {mm mm' parent cm : MmStruct} {mmap' : List VmArea} {vm₁ vm' : VmState κ}
  {T' : Set Nat}

theorem setMm_self (s : KernelState κ) (i : Nat) (r : MmStruct × VmState κ) :
    (setMm s i r).tasks i = { s.tasks i with mm := some r.1 } := Function.update_self ..

/-- The heap behind a break. -/
def heapFrom (addr : Nat) : Set Nat := {v | upperPageAddr addr ≤ v ∧ v < maxBrkAddr}

theorem mem_heapFrom : v ∈ heapFrom addr ↔ upperPageAddr addr ≤ v ∧ v < maxBrkAddr := Iff.rfl

/-- An exception gives a program a page where it has had none. -/
theorem Faulted.userMem (h : Invariant img u s) (hruns : UserRuns s i) (hmm : (s.tasks i).mm = some mm)
    (hf : Faulted H (physical true (s.tasks i).pgDir) addr k mm s.vm mmap' vm' T')
    (himage : ∀ x, InImage (pageOf x) → vm'.mem x = s.vm.mem x) :
    (∀ v b, s.userMem u i v = some b → (setMm s i ({ mm with mmap := mmap' }, vm')).userMem u i v = some b) ∧
      ∀ v, pageAddr v ≠ pageAddr addr →
        (setMm s i ({ mm with mmap := mmap' }, vm')).userMem u i v = s.userMem u i v := by
  have hp := (h.tasks i).process_of hruns.1 hruns.2 hmm
  have hdir : ((setMm s i ({ mm with mmap := mmap' }, vm')).tasks i).pgDir = (s.tasks i).pgDir := by
    rw [setMm_self]
  have hruns' : UserRuns (setMm s i ({ mm with mmap := mmap' }, vm')) i := by
    rw [UserRuns, setMm_self]
    exact hruns
  have hmem : (setMm s i ({ mm with mmap := mmap' }, vm')).vm.mem = vm'.mem := rfl
  generalize setMm s i ({ mm with mmap := mmap' }, vm') = s' at hruns' hdir hmem ⊢
  have hkept : ∀ v b, s.userMem u i v = some b → s'.userMem u i v = some b := by
    intro v b hb
    obtain ⟨⟨-, hv⟩, a, ha, hbyte⟩ := userMem_eq_some.1 hb
    refine userMem_eq_some.2 ⟨⟨hruns', hv⟩, a, ?_, ?_⟩
    · rw [hdir, hmem]
      exact hf.kept hv.lt ha
    · rw [hmem, ← hbyte]
      have hpage := pageOf_userByte ha
      rcases hp.space.maps.place v a ha with hpool | hin
      · refine hf.mem ?_ ?_
        · rw [hpage]
          exact h.used hruns.1 hruns.2 hmm a (Or.inr (Or.inr ⟨hpool, v, ha⟩))
        · rw [hpage]
          exact hp.space.holdings.tables_mapped v a ha
      · refine himage _ ?_
        rwa [hpage]
  refine ⟨hkept, fun v hpage => ?_⟩
  cases hold : s.userMem u i v with
  | some b => exact hkept v b hold
  | none =>
      by_cases hv : PrivateAddr u v
      · rw [userMem_eq hruns hv] at hold
        have hlook := hf.lookup v hv.lt
        rw [if_neg hpage] at hlook
        rw [userMem_eq hruns' hv, hdir, hmem, userFrame, hlook]
        rw [Option.map_eq_none_iff] at hold ⊢
        exact hold
      · exact userMem_of_not_private hv

/-- A call of `sys_brk` that moves the break takes away the heap behind it. -/
theorem BrkRun.userMem (h : Invariant img u s) (hruns : UserRuns s i)
    (hr : BrkRun H u i regs addr s s' mm mm' vm₁ vm')
    (himage : ∀ x, InImage (pageOf x) → s'.vm.mem x = s.vm.mem x) :
    s'.userMem u i = if KeepsBrk mm addr then s.userMem u i
      else keep (heapFrom addr)ᶜ (s.userMem u i) := by
  have hp := (h.tasks i).process_of hruns.1 hruns.2 hr.space
  have hruns' : UserRuns s' i := by
    rw [UserRuns, hr.tasks, Function.update_self]
    exact hruns
  have hrun := hr.run
  rw [← linear_pgDir hr.process.dir_lt] at hrun
  have hbefore := lookup_frame hp.space.holdings.tables (hr.tables h hruns)
  have hafter := lookup_frame hr.space_ok.holdings.tables hr.tables'
  have hframe : ∀ v, v < 2 ^ 39 → userFrame s'.vm.mem (s'.tasks i).pgDir v =
      if ¬KeepsBrk mm addr ∧ upperPageAddr addr ≤ v ∧ v < maxBrkAddr then none
      else userFrame s.vm.mem (s.tasks i).pgDir v := by
    intro v hv
    have hlook := sysBrk_lookup hr.process.space hr.zero hr.used hrun hv
    rw [hbefore v] at hlook
    rw [hr.tasks, Function.update_self, userFrame, hafter v]
    exact hlook
  -- a page that is still mapped has not been written
  have hbyte : ∀ v a, userFrame s.vm.mem (s.tasks i).pgDir v = some a →
      s'.vm.mem (va a + v % pageSize) = s.vm.mem (va a + v % pageSize) := by
    intro v a ha
    have hpage := pageOf_userByte ha
    rcases hp.space.maps.place v a ha with hpool | hin
    · have hout : pageOf (va a + v % pageSize) ∉ outside := by
        rw [hpage]
        exact not_outside hpool
      rw [hr.after _ hout, sysBrk_mem hr.process.space hr.zero hr.used hrun, hr.before _ hout]
      rw [hpage]
      exact hr.process.space.holdings.tables_mapped v a ((hbefore v).trans ha)
    · refine himage _ ?_
      rwa [hpage]
  have hmap : ∀ v, (userFrame s.vm.mem (s.tasks i).pgDir v).map
      (fun a => s'.vm.mem (va a + v % pageSize)) =
      (userFrame s.vm.mem (s.tasks i).pgDir v).map fun a => s.vm.mem (va a + v % pageSize) := by
    intro v
    cases ha : userFrame s.vm.mem (s.tasks i).pgDir v with
    | none => rfl
    | some a => rw [Option.map_some, Option.map_some, hbyte v a ha]
  funext v
  by_cases hv : PrivateAddr u v
  · rw [userMem_eq hruns' hv, hframe v hv.lt]
    by_cases hkeep : KeepsBrk mm addr
    · rw [if_neg fun hno => hno.1 hkeep, if_pos hkeep, hmap, userMem_eq hruns hv]
    · rw [if_neg hkeep]
      by_cases hin : upperPageAddr addr ≤ v ∧ v < maxBrkAddr
      · have hmem : v ∉ (heapFrom addr)ᶜ := fun hno => hno (mem_heapFrom.2 hin)
        rw [if_pos ⟨hkeep, hin⟩, keep_of_not_mem hmem, Option.map_none]
      · have hmem : v ∈ (heapFrom addr)ᶜ := fun hno => hin (mem_heapFrom.1 hno)
        rw [if_neg fun hno => hin hno.2, keep_of_mem hmem, hmap, userMem_eq hruns hv]
  · rw [userMem_of_not_private hv]
    split_ifs
    · exact (userMem_of_not_private hv).symm
    · exact (keep_of_none (userMem_of_not_private hv)).symm

/-- A child sees what its parent sees below the heap. -/
theorem Forked.userMem (h : Invariant img u s) (hruns : UserRuns s i) (hregs : RegsOk s i regs)
    (hmm : (s.tasks i).mm = some parent) (hf : Forked img i regs c d parent cm s s') :
    s'.userMem u c = keep {v | v < u.bssEnd} (s.userMem u i) := by
  have hp := (h.tasks i).process_of hruns.1 hruns.2 hmm
  obtain ⟨vm, vm', -, -, hchild, -, hframe⟩ := hf.child h hruns.1 hregs
  have hruns' : UserRuns s' c := by
    refine ⟨TaskStruct.live_iff.2 ⟨hf.inUse, ?_⟩, ?_⟩
    · rw [hf.running]
      decide
    · rw [hf.pgDir]
      exact linear_ne_zero hchild.space.holdings
  have hdvd : pageSize ∣ u.bssEnd := hp.vmas.start ▸ hp.space.layout.brk_dvd
  funext v
  by_cases hv : PrivateAddr u v
  swap
  · rw [userMem_of_not_private hv, keep_of_none (userMem_of_not_private hv)]
  rw [userMem_eq hruns' hv]
  -- what is mapped in the child lies below the heap, and it is a copy
  have hmapped : ∀ b, userFrame s'.vm.mem (s'.tasks c).pgDir v = some b → v < u.bssEnd ∧
      ∃ a, userFrame s.vm.mem (s.tasks i).pgDir v = some a ∧
        s'.vm.mem (va b + v % pageSize) = s.vm.mem (va a + v % pageSize) := by
    intro b hb
    obtain ⟨x, hx, hlma, hcov, -, -, hcontent⟩ := hf.mapped h hruns hregs hmm hv.lt hb
    have hfrom := hp.vmas.vma x hx
    have hend := hfrom.end_le hlma (hfrom.private (hp.space.layout.vma x hx) hcov hv)
    have hstatic : userFrame s.vm.mem (s.tasks i).pgDir v = some (x.target (pageAddr v)) :=
      hp.space.maps.static x hx hlma v hv.lt hcov
    refine ⟨?_, _, hstatic, ?_⟩
    · rw [VmArea.covers_iff] at hcov
      simp only [pageAddr, pageSize] at *
      omega
    · have hbyte := hcontent v rfl
      rwa [userByteAddr, userByteAddr, hb, hstatic, Option.getD_some, Option.getD_some] at hbyte
  by_cases hlt : v < u.bssEnd
  · rw [keep_of_mem (show v ∈ {v | v < u.bssEnd} from hlt), userMem_eq hruns hv]
    cases ha : userFrame s.vm.mem (s.tasks i).pgDir v with
    | none =>
        rw [Option.map_none, Option.map_eq_none_iff]
        by_contra hsome
        obtain ⟨b, hb⟩ := Option.ne_none_iff_exists'.1 hsome
        obtain ⟨-, a, ha', -⟩ := hmapped b hb
        rw [ha] at ha'
        cases ha'
    | some a =>
        obtain ⟨x, hx, hcov⟩ := hp.space.maps.covered v a hv.lt ha
        have hlma := (hp.vmas.vma x hx).static hcov ((Nat.div_mul_le_self v pageSize).trans_lt hlt)
        have hsome : userFrame s'.vm.mem (s'.tasks c).pgDir v ≠ none := by
          rw [hframe]
          exact hchild.static x hx hlma v hv.lt hcov
        obtain ⟨b, hb⟩ := Option.ne_none_iff_exists'.1 hsome
        obtain ⟨-, a', ha', hbyte⟩ := hmapped b hb
        rw [ha] at ha'
        obtain rfl := Option.some.inj ha'
        rw [hb, Option.map_some, Option.map_some, hbyte]
  · rw [keep_of_not_mem (show v ∉ {v | v < u.bssEnd} from hlt), Option.map_eq_none_iff]
    by_contra hsome
    obtain ⟨b, hb⟩ := Option.ne_none_iff_exists'.1 hsome
    exact hlt (hmapped b hb).1

end Own

end Kernel
end ToutOS
