import ToutOS.Kernel.Break

/-!
# SpaceRules — properties of page tables in every run

A property of a page table together with the vmas it is for holds of all address spaces in every run, if
the address spaces that are made have it and the calls that change one of them keep it.

* `MadeSpace` — an address space that `user_test` or `sys_fork` has made.
* `SpaceRules` — what has to be shown, for one address space at a time.
* `step_allTables`, `SpaceRules.reachable` — what follows for a step, and for every state that can be
  reached.
-/

namespace ToutOS
namespace Kernel

open Base Mm

variable {κ : Type} {H : KernelHeap κ} {img : KernelImage} {u : UserImage} {s s' : KernelState κ}
  {P : Mem → Nat → MmStruct → Prop} {m m' : Mem} {d : Nat} {mm mm' : MmStruct} {vm vm' : VmState κ}

/-- A new address space: the vmas with an `lma` are mapped as a whole, the others not at all. -/
structure MadeSpace (m : Mem) (d : Nat) (mm : MmStruct) : Prop where
  space : SpaceOk m d mm
  static : ∀ x ∈ mm.mmap, x.writable = false → x.lma ≠ noLma
  leaf : ∀ x ∈ mm.mmap, x.lma ≠ noLma → ∀ v, v < 2 ^ 39 → x.covers (pageAddr v) = true →
    leafPte true m d v = some (descriptor (x.target (pageAddr v)) (userAttrs (!x.writable)))
  mapped : ∀ v, v < 2 ^ 39 → lookup true m d v ≠ none →
    ∃ x ∈ mm.mmap, x.lma ≠ noLma ∧ x.covers (pageAddr v) = true

/-- What has to be shown of a property of address spaces. -/
structure SpaceRules (H : KernelHeap κ) (P : Mem → Nat → MmStruct → Prop) : Prop where
  static : ∀ {m d mm}, P m d mm → ∀ x ∈ mm.mmap, x.writable = false → x.lma ≠ noLma
  frame : ∀ {m m' d mm}, P m d mm → SpaceOk m d mm → SameTables m m' d → P m' d mm
  made : ∀ {m d mm}, MadeSpace m d mm → P m d mm
  fault : ∀ {d addr k mm mmap'} {vm vm' : VmState κ} {T' : Set Nat}, P vm.mem d mm →
    SpaceOk vm.mem d mm → (∀ a ∈ footprint vm.mem d mm.mmap, ¬FreeFrame vm.pagesUsage a) →
    handleFault H (linear true d) addr mm vm = .ok ({ mm with mmap := mmap' }, vm') →
    Faulted H d addr k mm vm mmap' vm' T' → P vm'.mem d { mm with mmap := mmap' }
  brk : ∀ {d addr mm mm'} {vm vm' : VmState κ}, P vm.mem d mm → SpaceOk vm.mem d mm →
    SpaceStep d mm vm mm' vm' → sysBrk H (linear true d) addr mm vm = .ok (mm', vm') → P vm'.mem d mm'

/-- It is so in all address spaces. -/
def AllTables (P : Mem → Nat → MmStruct → Prop) (s : KernelState κ) : Prop :=
  ∀ i, UserRuns s i → ∀ mm, (s.tasks i).mm = some mm → P s.vm.mem (physical true (s.tasks i).pgDir) mm

section Step

variable {i j addr : Nat}

theorem handleFault_of_doEl0Sync {r : MmStruct × VmState κ} (hmm : (s.tasks i).mm = some mm)
    (hvma : findVma mm.mmap addr ≠ none) (hok : doEl0Sync H i addr s = .ok (setMm s i r)) :
    handleFault H (s.tasks i).pgDir addr mm s.vm = .ok r := by
  simp only [doEl0Sync, hmm, if_neg hvma] at hok
  obtain ⟨r', hrun, heq⟩ := except_map_eq_ok.1 hok
  have hvm : r'.2 = r.2 := congrArg KernelState.vm heq
  have htask := congrArg (fun t => (t.tasks i).mm) heq
  simp only [setMm, Function.update_self, Option.some.injEq] at htask
  rw [hrun, show r' = r from Prod.ext htask hvm]

theorem AllTables.of_step (hP : SpaceRules H P) (hQ : AllTables P s) (h : Invariant img u s)
    (hs : StepOf img u j s s')
    (hj : UserRuns s' j → ∀ mm, (s'.tasks j).mm = some mm →
      P s'.vm.mem (physical true (s'.tasks j).pgDir) mm) : AllTables P s' := by
  intro i hruns mm hmm
  by_cases hij : i = j
  · subst hij
    exact hj hruns mm hmm
  rcases hs.others i hij with heq | ⟨heq, -⟩
  · rw [UserRuns, heq] at hruns
    rw [heq] at hmm ⊢
    have hp := (h.tasks i).process_of hruns.1 hruns.2 hmm
    exact hP.frame (hQ i hruns mm hmm) hp.space (hs.tables h hij hruns.1 hruns.2)
  · rw [UserRuns, heq] at hruns
    cases hruns.1

/-- The vmas of `user_test` that may not be written are mapped as a whole. -/
theorem area_static {a : Area} (ha : a ∈ u.areas) {self : Nat} (hro : (a.vma self).writable = false) :
    (a.vma self).lma ≠ noLma := by
  have hlma := u.rodata_le
  have hend := u.bssEnd_le
  have hge := u.text_ge
  have hle₁ := u.data_ge
  have hle₂ := u.data_le
  have hle₃ := u.bss_ge
  have hle₄ := u.bss_le
  simp only [UserImage.areas, List.mem_cons, List.not_mem_nil, or_false] at ha
  rcases ha with rfl | rfl | rfl | rfl | rfl | rfl
  · simp only [Area.vma, lmaUser, noLma]
    decide
  · simp only [Area.vma, lmaUser, noLma, vmaUser, userSize] at *
    omega
  all_goals
    simp [Area.vma, VmArea.writable, vmRead, vmWrite, vmShared] at hro

theorem UserTested.made (ht : UserTested u i d s s' mm' vm vm') : MadeSpace vm'.mem d mm' := by
  rcases @newSpace_spec κ d vm mm' ht.new ht.dir.zero with
    herr | ⟨vm₂, T', hmap, -, hspace, -, -, -, hmapped⟩
  · rw [ht.map] at herr
    cases herr
  rw [ht.map] at hmap
  obtain rfl := Except.ok.inj hmap
  refine ⟨hspace, fun x hx hro => ?_, fun x hx hlma v hv hcov =>
    newSpace_leaf ht.new ht.dir.zero ht.map hx hlma hv hcov, fun v hv hne => ?_⟩
  · obtain ⟨a, ha, self, rfl⟩ := ht.areas x hx
    exact area_static ha hro
  · obtain ⟨a, ha⟩ := Option.ne_none_iff_exists'.1 hne
    obtain ⟨x, hx, hlma, hcov, -⟩ := hmapped v a hv ha
    exact ⟨x, hx, hlma, hcov⟩

/-- The vmas of a child have the flags of those of the parent. -/
theorem ChildSpace.made {pgDir : Nat} {parent cm : MmStruct} (h : ChildSpace vm vm' pgDir d parent cm)
    (hstatic : ∀ x ∈ parent.mmap, x.writable = false → x.lma ≠ noLma) : MadeSpace vm'.mem d cm := by
  refine ⟨h.space, fun y hy hro => ?_, h.leaf, fun v hv hne => ?_⟩
  · have hmem : y.area ∈ (parent.mmap.map VmArea.area).reverse := h.areas ▸ List.mem_map_of_mem hy
    obtain ⟨x, hx, harea⟩ := List.mem_map.1 (List.mem_reverse.1 hmem)
    obtain ⟨-, -, hflags, hlma⟩ := area_eq harea
    have hxro : x.writable = false := by rw [VmArea.writable, hflags]; exact hro
    exact fun hno => hstatic x hx hxro (hlma.2 hno)
  · obtain ⟨a, ha⟩ := Option.ne_none_iff_exists'.1 hne
    obtain ⟨x, hx, hlma, hcov, -⟩ := h.mapped v a hv ha
    have hmem : x.area ∈ cm.mmap.map VmArea.area := by
      rw [h.areas, List.mem_reverse]
      exact List.mem_map_of_mem hx
    obtain ⟨y, hy, harea⟩ := List.mem_map.1 hmem
    obtain ⟨-, -, -, hlma'⟩ := area_eq harea
    exact ⟨y, hy, fun hno => hlma (hlma'.1 hno), (covers_of_area harea _).trans hcov⟩

/-- One step of the system. -/
theorem step_allTables {a : Action κ} (hP : SpaceRules H P) (h : Invariant img u s) (hQ : AllTables P s)
    (ha : step H img u s a = some s') : AllTables P s' := by
  obtain ⟨henabled, hexec⟩ := step_eq ha
  cases a with
  | userTest j =>
      obtain ⟨hlive, hdir, huser⟩ := henabled
      have hstep := userTest_step (H := H) h hlive hdir huser
      rw [show userTest H u j s = _ from hexec] at hstep
      refine hQ.of_step hP h hstep.stepOf fun hruns mm hmm => ?_
      rcases userTest_cases (H := H) h hlive hdir with
        herr | herr | hrun | ⟨t, d, mm', vm₁, vm, hrun, ht⟩
      · rw [exec, herr] at hexec
        cases hexec
      · rw [exec, herr] at hexec
        cases hexec
      · rw [exec, hrun] at hexec
        obtain rfl := Except.ok.inj hexec
        exact absurd hdir hruns.2
      · rw [exec, hrun] at hexec
        obtain rfl := Except.ok.inj hexec
        rw [ht.tasks] at hmm ⊢
        simp only [Function.update_self] at hmm ⊢
        obtain rfl := Option.some.inj hmm
        rw [physical_linear true ht.dir.pool.2.2]
        have hmade := ht.made
        -- only pages of the image are cleared
        refine hP.frame (hP.made hmade) hmade.space fun n hn x hx => ht.cleared fun a ha heq => ?_
        rw [pageOf_of_inPage (hmade.space.holdings.tables.pages n hn) hx] at heq
        exact not_inPool_of_inImage ha (heq ▸ hmade.space.holdings.tables_pool n hn)
  | fork j regs =>
      obtain ⟨hruns, hregs⟩ := henabled
      obtain ⟨⟨t, slot⟩, hok, rfl⟩ := except_map_eq_ok.1 hexec
      rcases sysFork_spec (H := H) h hruns hregs with
        herr | herr | ⟨slot', t', hok', hf⟩ | ⟨c, d, parent, cm, t', hok', hmm, hf⟩
      · rw [hok] at herr
        cases herr
      · rw [hok] at herr
        cases herr
      · rw [hok] at hok'
        cases hok'
        refine hQ.of_step hP h (StepOf.forkFailed h hruns.1 hregs hf) fun _ mm hmm => ?_
        obtain ⟨-, htask⟩ := hf.slots.not_live hruns.1
        rw [htask] at hmm ⊢
        have hp := (h.tasks j).process_of hruns.1 hruns.2 hmm
        exact hP.frame (hQ j hruns mm hmm) hp.space (hf.tables h hruns.1 hregs hruns.1 hruns.2)
      · rw [hok] at hok'
        cases hok'
        refine hQ.of_step hP h (StepOf.forked h hruns hregs hmm hf) fun _ mm hmm' => ?_
        obtain ⟨vm, vm', -, -, hchild, -, hafter⟩ := hf.space
        rw [hf.mm] at hmm'
        obtain rfl := Option.some.inj hmm'
        have hdpage := hchild.space.holdings.tables.pages d (root_mem_tableFrames _ d)
        rw [hf.pgDir, physical_linear true hdpage.2]
        have hmade := hchild.made (hP.static (hQ j hruns parent hmm))
        refine hP.frame (hP.made hmade) hchild.space fun n hn x hx => ?_
        have hpage := pageOf_of_inPage (hchild.space.holdings.tables.pages n hn) hx
        have hpool := not_outside (hchild.space.holdings.tables_pool n hn)
        rw [← hpage] at hpool
        have hc := (hf.slots.taken c rfl).1.2.1
        exact hafter x (fun hin => hpool (img.stack_outside (by omega) hin.1 hin.2))
          fun hin => hpool (h.regs_outside hruns.1 hregs hin.1 hin.2)
  | brk j regs addr =>
      obtain ⟨hruns, hregs, haddr⟩ := henabled
      obtain ⟨mm, mm', vm₁, vm', hr⟩ := brk_cases h hruns hregs haddr hexec
      have hstep := brk_step (H := H) h hruns hregs haddr
      rw [show doBrk H j regs _ = _ from hexec] at hstep
      refine hQ.of_step hP h hstep.stepOf fun _ mm₁ hmm₁ => ?_
      rw [hr.tasks] at hmm₁ ⊢
      simp only [Function.update_self] at hmm₁ ⊢
      obtain rfl := Option.some.inj hmm₁
      have hp := (h.tasks j).process_of hruns.1 hruns.2 hr.space
      have hcases := sysBrk_spec (H := H) hr.process.space hr.zero hr.used addr
      have hrun := hr.run
      rw [← linear_pgDir hr.process.dir_lt] at hrun
      rw [hrun] at hcases
      obtain ⟨mm₂, vm₂, hpair, hs⟩ := hcases.resolve_left fun hno => by cases hno.1
      cases hpair
      have hbefore := hP.frame (hQ j hruns mm hr.space) hp.space (hr.tables h hruns)
      exact hP.frame (hP.brk hbefore hr.process.space hs hrun) hr.space_ok hr.tables'
  | exception j addr =>
      obtain ⟨hruns, haddr⟩ := henabled
      have hstep := exception_step (H := H) h hruns addr
      rw [show doEl0Sync H j addr s = _ from hexec] at hstep
      refine hQ.of_step hP h hstep.stepOf fun hruns' mm₁ hmm₁ => ?_
      rcases exception_cases h hruns hexec with hexit | ⟨mm, vma, hmm, hfind, hrest⟩
      · exact absurd hruns' (not_userRuns_of_exit h hruns.1 hexit).2
      have hp := (h.tasks j).process_of hruns.1 hruns.2 hmm
      rcases hrest with rfl | ⟨k, mmap', vm', T', rfl, hf⟩
      · simp only [setMm, Function.update_self, Option.some.injEq] at hmm₁ ⊢
        subst hmm₁
        exact hQ j hruns mm hmm
      · have hvma : findVma mm.mmap addr ≠ none := by
          rw [hfind]
          exact Option.some_ne_none vma
        have hrun := handleFault_of_doEl0Sync hmm hvma hexec
        rw [← linear_pgDir hp.dir_lt] at hrun
        simp only [setMm, Function.update_self, Option.some.injEq] at hmm₁ ⊢
        subst hmm₁
        exact hP.fault (hQ j hruns mm hmm) hp.space (h.used hruns.1 hruns.2 hmm) hrun hf
  | exit j =>
      obtain ⟨hstep, hno⟩ := not_userRuns_of_exit h henabled hexec
      exact hQ.of_step hP h hstep fun hruns => absurd hruns hno
  | userStore j virtAddr b =>
      obtain ⟨hruns, -, hmapped⟩ := henabled
      have hstep := userStore_step h hruns hmapped b
      have htables := userStore_tables h hmapped b
      obtain rfl := Except.ok.inj hexec
      refine hQ.of_step hP h hstep fun _ mm hmm => ?_
      have hp := (h.tasks j).process_of hruns.1 hruns.2 hmm
      exact hP.frame (hQ j hruns mm hmm) hp.space (htables hruns.1 hruns.2)
  | kmallocUse heap =>
      obtain rfl := Except.ok.inj hexec
      exact hQ

theorem SpaceRules.reachable (hP : SpaceRules H P) (h : Reachable H img u s) : AllTables P s := by
  obtain ⟨s₀, as, hboot, hrun⟩ := h
  have hstart : AllTables P s₀ := fun i hruns => absurd (hboot.pgDir i) hruns.2
  exact (runFrom_invariant (I := fun s => Invariant img u s ∧ AllTables P s)
    (fun _ _ _ hs ha => ⟨step_invariant hs.1 ha, step_allTables hP hs.1 hs.2 ha⟩)
    ⟨boot_invariant hboot, hstart⟩ hrun).2

end Step

end Kernel
end ToutOS
