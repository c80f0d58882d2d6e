import ToutOS.Kernel.Isolation

/-!
# ForkResults — what parent and child see of `sys_fork`

* `ForkUndone`, `fork_undone` — a call that stores `-1` has no other effect that a task can see;
* `ForkCopies`, `forkCopies_iff` — a call that returns a child gives it a copy of the memory of the
  parent if, and only if, the parent has no page in a vma that is filled on demand:
  `setup_user_page_mapping` leaves out the vmas whose `lma` is `-1`, so their pages are copied and
  never mapped.
-/

namespace ToutOS
namespace Kernel

open Base Mm

variable {κ : Type} {H : KernelHeap κ} {img : KernelImage} {u : UserImage} {s s' : KernelState κ}
  {i c regs : Nat}

/-! ## What `sys_fork` may write -/

/-- The pages of the kernel stacks. -/
theorem InStack.page {x : Nat} (hc : c < maxNumProcesses) (h : InStack img c x) :
    0x40010000 ≤ pageOf x ∧ pageOf x < 0x40080000 := by
  obtain ⟨h₁, h₂⟩ := h
  have hge := img.stacks_ge
  have hle := img.stacks_le
  simp only [KernelImage.stack, va, add64, pageOffset, pageSize, maxNumProcesses] at *
  simp only [pageOf, pa, sub64, pageAddr, pageSize, pageOffset]
  omega

/-- A byte of a page that a task sees is neither free nor on a kernel stack. -/
theorem Invariant.userByte_apart (h : Invariant img u s) {v a x : Nat} (ha : MapsTo s i v a)
    (hx : InPage true a x) :
    ¬FreeFrame s.vm.pagesUsage (pageOf x) ∧ ∀ c < maxNumProcesses, ¬InStack img c x := by
  have hpage := pageOf_of_inPage (isPage_of_lookup ha.2.2) hx
  obtain ⟨hlive, hdir, hlook⟩ := ha
  obtain ⟨mm, hmm, hp⟩ := (h.tasks i).process hlive hdir
  constructor
  · rw [hpage]
    intro hfree
    exact h.used hlive hdir hmm a (Or.inr (Or.inr ⟨FreeFrame.inPool hfree, v, hlook⟩)) hfree
  · intro c hc hin
    have hstack := hin.page hc
    rw [hpage] at hstack
    rcases hp.space.maps.place v a hlook with hpool | himage
    · simp only [InPool, Mm.frame, pageSize] at hpool
      omega
    · simp only [InImage, lmaUser, uartBase, pageSize] at himage
      omega

/-- The saved registers of a task lie on its stack. -/
theorem Invariant.regs_inStack (h : Invariant img u s) (hlive : (s.tasks i).live = true)
    (hregs : RegsOk s i regs) {x : Nat} (h₁ : regs ≤ x) (h₂ : x < regs + sizeofPtRegs) :
    i < maxNumProcesses ∧ InStack img i x := by
  obtain ⟨hstack, hi⟩ := (h.tasks i).stack (TaskStruct.live_iff.1 hlive).1
  obtain ⟨hge, hle⟩ := hregs
  rw [hstack] at hge hle
  exact ⟨hi, by simp only [InStack]; omega⟩

/-- Different slots have different stacks. -/
theorem inStack_unique {x : Nat} (h : InStack img i x) (h' : InStack img c x) : i = c := by
  simp only [InStack, KernelImage.stack, pageSize] at *
  omega

/-- The call writes the result, the stack of the child, and pages that were free. -/
def ForkWrites (img : KernelImage) (regs : Nat) (slot : Option Nat) (s s' : KernelState κ) : Prop :=
  ∀ x, ¬(regs ≤ x ∧ x < regs + 8) → (∀ c, slot = some c → ¬InStack img c x) →
    ¬FreeFrame s.vm.pagesUsage (pageOf x) → s'.vm.mem x = s.vm.mem x

theorem Forked.writes {d : Nat} {parent cm : MmStruct} (hf : Forked img i regs c d parent cm s s') :
    ForkWrites img regs (some c) s s' := by
  obtain ⟨vm, vm', hmem, husage, hchild, -, hmem'⟩ := hf.space
  intro x hx hstack hfree
  have hstack := hstack c rfl
  rw [hmem' x hstack hx, ← hmem x hstack]
  rw [← husage] at hfree
  exact hchild.moves.same x (fun hno => hno) hfree

section Parent

variable {slot : Option Nat} (h : Invariant img u s) (hruns : UserRuns s i) (hregs : RegsOk s i regs)
  (hw : ForkWrites img regs slot s s') (hslot : ∀ c, slot = some c → c < maxNumProcesses)

include h hruns hregs hw hslot

/-- The page table of a task is unchanged. -/
theorem forkWrites_tables : SameTables s.vm.mem s'.vm.mem (physical true (s.tasks i).pgDir) := by
  obtain ⟨hlive, hdir⟩ := hruns
  obtain ⟨mm, hmm, hp⟩ := (h.tasks i).process hlive hdir
  intro n hn x hx
  have hpool := hp.space.holdings.tables_pool n hn
  have hpage := pageOf_of_inPage (hp.space.holdings.tables.pages n hn) hx
  refine hw x (fun hin => ?_) (fun c hc hin => ?_) ?_
  · refine not_outside hpool ?_
    rw [← hpage]
    exact h.regs_outside hlive hregs hin.1 hin.2
  · refine not_outside hpool ?_
    rw [← hpage]
    exact img.stack_outside (hslot c hc) hin.1 hin.2
  · rw [hpage]
    exact h.used hlive hdir hmm n (Or.inl hn)

theorem forkWrites_userFrame (v : Nat) :
    userFrame s'.vm.mem (s.tasks i).pgDir v = userFrame s.vm.mem (s.tasks i).pgDir v := by
  obtain ⟨mm, -, hp⟩ := (h.tasks i).process hruns.1 hruns.2
  exact lookup_frame hp.space.holdings.tables (forkWrites_tables h hruns hregs hw hslot) v

/-- So is the memory that it sees. -/
theorem forkWrites_page {v a x : Nat} (ha : userFrame s.vm.mem (s.tasks i).pgDir v = some a)
    (hx : InPage true a x) : s'.vm.mem x = s.vm.mem x := by
  obtain ⟨hfree, hstack⟩ := h.userByte_apart ⟨hruns.1, hruns.2, ha⟩ hx
  refine hw x (fun hin => ?_) (fun c hc => hstack c (hslot c hc)) hfree
  obtain ⟨hi, hin⟩ := h.regs_inStack hruns.1 hregs hin.1 (by simp only [sizeofPtRegs]; omega)
  exact hstack i hi hin

theorem forkWrites_userByte {v a : Nat} (ha : userFrame s.vm.mem (s.tasks i).pgDir v = some a) :
    s'.vm.mem (userByteAddr s'.vm.mem (s.tasks i).pgDir v) =
      s.vm.mem (userByteAddr s.vm.mem (s.tasks i).pgDir v) := by
  have haddr : userByteAddr s'.vm.mem (s.tasks i).pgDir v =
      userByteAddr s.vm.mem (s.tasks i).pgDir v := by
    rw [userByteAddr, userByteAddr, forkWrites_userFrame h hruns hregs hw hslot]
  rw [haddr]
  exact forkWrites_page h hruns hregs hw hslot ha (userByteAddr_inPage ha)

end Parent

/-! ## Failure -/

/-- Nothing is left of a call that has stored `-1` in the first of the saved registers. -/
structure ForkUndone (img : KernelImage) (i regs : Nat) (s s' : KernelState κ) : Prop where
  result : load s'.vm.mem regs 8 = 2 ^ 64 - 1
  usage : ∀ k < maxNumPages, s'.vm.pagesUsage k = s.vm.pagesUsage k
  child : ∀ c, (getTaskSlot img s.tasks s.vm.mem).1 = some c → s'.tasks c = {}
  others : ∀ k, (getTaskSlot img s.tasks s.vm.mem).1 ≠ some k →
    s'.tasks k = s.tasks k ∨ ((s.tasks k).exited ∧ s'.tasks k = {})
  parent : s'.tasks i = s.tasks i
  registers : ∀ x, regs + 8 ≤ x → x < regs + sizeofPtRegs → s'.vm.mem x = s.vm.mem x
  tables : SameTables s.vm.mem s'.vm.mem (physical true (s.tasks i).pgDir)
  frames : ∀ v, userFrame s'.vm.mem (s.tasks i).pgDir v = userFrame s.vm.mem (s.tasks i).pgDir v
  bytes : ∀ v, (userFrame s.vm.mem (s.tasks i).pgDir v).isSome = true →
    s'.vm.mem (userByteAddr s'.vm.mem (s.tasks i).pgDir v) =
      s.vm.mem (userByteAddr s.vm.mem (s.tasks i).pgDir v)

theorem ForkFailed.undone {slot : Option Nat} (h : Invariant img u s) (hruns : UserRuns s i)
    (hregs : RegsOk s i regs) (hf : ForkFailed img regs slot s s') : ForkUndone img i regs s s' := by
  obtain ⟨hne, hparent⟩ := hf.slots.not_live hruns.1
  have hslot : ∀ c, slot = some c → c < maxNumProcesses := fun c hc => by
    have := (hf.slots.taken c hc).1.2.1
    omega
  -- a slot that was not in use was clear, and it is clear again
  have hunused : ∀ k, (s.tasks k).inUse = false → s'.tasks k = {} ∧ s.tasks k = {} := by
    intro k hk
    have hempty := (h.tasks k).unused hk
    refine ⟨?_, hempty⟩
    by_cases hsome : slot = some k
    · exact hf.cleared k hsome
    · have hreap : ¬Reapable s.tasks k := fun hr => by
        have := hr.2.1
        rw [hk] at this
        cases this
      rw [hf.slots.same k hsome hreap, hempty]
  refine ⟨hf.result, hf.usage, fun c hc => ?_, fun k _ => ?_, hparent, fun x h₁ h₂ => ?_, ?_, ?_, ?_⟩
  · rcases hcall : getTaskSlot img s.tasks s.vm.mem with ⟨slot', tasks', mem'⟩
    rw [hcall] at hc
    exact (hunused c ((getTaskSlot_call hcall).found c hc).2.1).1
  · by_cases hin : (s.tasks k).inUse = true
    · have hsome : slot ≠ some k := fun hsome => by
        have := (hf.slots.taken k hsome).2
        rw [hin] at this
        cases this
      by_cases hreap : Reapable s.tasks k
      · exact Or.inr ⟨hreap.2, hf.slots.reaped k hreap⟩
      · exact Or.inl (hf.slots.same k hsome hreap)
    · obtain ⟨h₁, h₂⟩ := hunused k (by simpa using hin)
      exact Or.inl (h₁.trans h₂.symm)
  · obtain ⟨hi, hin⟩ := h.regs_inStack hruns.1 hregs (show regs ≤ x by omega) h₂
    refine hf.mem x (by omega) (fun c hc hin' => ?_) fun hfree => ?_
    · exact hne (hc.trans (by rw [inStack_unique hin' hin]))
    · exact (img.stack_outside hi hin.1 hin.2).1 (FreeFrame.inPool hfree)
  · exact forkWrites_tables h hruns hregs hf.mem hslot
  · exact forkWrites_userFrame h hruns hregs hf.mem hslot
  · intro v hv
    obtain ⟨a, ha⟩ := Option.isSome_iff_exists.1 hv
    exact forkWrites_userByte h hruns hregs hf.mem hslot ha

/-- A call of `sys_fork` that fails undoes what it has done, wherever it has failed. -/
theorem fork_undone (h : Reachable H img u s) (ha : Enabled s (.fork i regs))
    (hf : sysFork H img i regs s = .ok (s', none)) : ForkUndone img i regs s s' := by
  rcases sysFork_spec (H := H) h.invariant ha.1 ha.2 with
    herr | herr | ⟨slot, t, hok, hfailed⟩ | ⟨c, d, parent, cm, t, hok, -⟩
  · rw [hf] at herr
    cases herr
  · rw [hf] at herr
    cases herr
  · rw [hf] at hok
    cases hok
    exact hfailed.undone h.invariant ha.1 ha.2
  · rw [hf] at hok
    cases hok

/-! ## Success -/

/-- The page of `v` lies in a `VM_SHARED` vma of the task. -/
def SharedAt (s : KernelState κ) (i v : Nat) : Prop :=
  ∃ mm, (s.tasks i).mm = some mm ∧ ∃ vma ∈ mm.mmap, vma.shared = true ∧ vma.covers (pageAddr v) = true

/-- The child in slot `c` has a copy of the memory of task `i`. -/
structure ForkCopies (i c : Nat) (s s' : KernelState κ) : Prop where
  copied : ∀ v a, v < 2 ^ 39 → userFrame s.vm.mem (s.tasks i).pgDir v = some a →
    ∃ b, userFrame s'.vm.mem (s'.tasks c).pgDir v = some b ∧
      (∀ p, pageAddr p = pageAddr v → s'.vm.mem (userByteAddr s'.vm.mem (s'.tasks c).pgDir p) =
        s.vm.mem (userByteAddr s.vm.mem (s.tasks i).pgDir p)) ∧
      (SharedAt s i v → b = a) ∧
      (¬SharedAt s i v → ∀ w, userFrame s.vm.mem (s.tasks i).pgDir w ≠ some b)
  unmapped : ∀ v, v < 2 ^ 39 → userFrame s.vm.mem (s.tasks i).pgDir v = none →
    userFrame s'.vm.mem (s'.tasks c).pgDir v = none

/-- No page of the task lies in a vma whose `lma` is `-1`. -/
def NoDemandPages (s : KernelState κ) (i : Nat) : Prop :=
  ∀ v a, v < 2 ^ 39 → userFrame s.vm.mem (s.tasks i).pgDir v = some a →
    ∀ mm, (s.tasks i).mm = some mm → ∀ vma ∈ mm.mmap, vma.covers (pageAddr v) = true → vma.lma ≠ noLma

/-- Addresses of one page have the same frame. -/
theorem lookup_of_pageAddr {m : Mem} {d p v : Nat} (h : pageAddr p = pageAddr v) :
    lookup true m d p = lookup true m d v := by
  have hpath : pathOf p = pathOf v := by
    rw [pathOf_eq_iff]
    simp only [pageAddr, pageSize] at h
    omega
  rw [lookup, lookup, hpath]

/-- The tables and the pages of the child are not written any more when its results are stored. -/
theorem Forked.child (h : Invariant img u s) (hlive : (s.tasks i).live = true)
    (hregs : RegsOk s i regs) {d : Nat} {parent cm : MmStruct}
    (hf : Forked img i regs c d parent cm s s') :
    ∃ vm vm' : VmState κ, (∀ x, ¬InStack img c x → vm.mem x = s.vm.mem x) ∧
      vm.pagesUsage = s.vm.pagesUsage ∧ ChildSpace vm vm' (s.tasks i).pgDir d parent cm ∧
      (∀ x, pageOf x ∉ outside → s'.vm.mem x = vm'.mem x) ∧
      ∀ v, userFrame s'.vm.mem (s'.tasks c).pgDir v = lookup true vm'.mem d v := by
  obtain ⟨vm, vm', hmem, husage, hchild, -, hmem'⟩ := hf.space
  have hc : c < maxNumProcesses := by
    have := (hf.slots.taken c rfl).1.2.1
    omega
  have hafter : ∀ x, pageOf x ∉ outside → s'.vm.mem x = vm'.mem x := fun x hx =>
    hmem' x (fun hin => hx (img.stack_outside hc hin.1 hin.2)) fun hin =>
      hx (h.regs_outside hlive hregs hin.1 hin.2)
  have htables := hchild.space.holdings.tables
  have hsame : SameTables vm'.mem s'.vm.mem d := by
    intro n hn x hx
    refine hafter x ?_
    rw [pageOf_of_inPage (htables.pages n hn) hx]
    exact not_outside (hchild.space.holdings.tables_pool n hn)
  have hphys : physical true (s'.tasks c).pgDir = d := by
    rw [hf.pgDir]
    exact physical_linear true (htables.pages d (root_mem_tableFrames _ d)).2
  refine ⟨vm, vm', hmem, husage, hchild, hafter, fun v => ?_⟩
  rw [userFrame, hphys]
  exact lookup_frame htables hsame v

/-- What is mapped in the child: pages of vmas that are mapped as a whole in the parent. -/
theorem Forked.mapped (h : Invariant img u s) (hruns : UserRuns s i) (hregs : RegsOk s i regs)
    {d : Nat} {parent cm : MmStruct} (hmm : (s.tasks i).mm = some parent)
    (hf : Forked img i regs c d parent cm s s') {v b : Nat} (hv : v < 2 ^ 39)
    (hb : userFrame s'.vm.mem (s'.tasks c).pgDir v = some b) :
    ∃ x ∈ parent.mmap, x.lma ≠ noLma ∧ x.covers (pageAddr v) = true ∧
      (x.shared = true → userFrame s.vm.mem (s.tasks i).pgDir v = some b) ∧
      (x.shared = false → FreeFrame s.vm.pagesUsage b) ∧
      ∀ p, pageAddr p = pageAddr v → s'.vm.mem (userByteAddr s'.vm.mem (s'.tasks c).pgDir p) =
        s.vm.mem (userByteAddr s.vm.mem (s.tasks i).pgDir p) := by
  obtain ⟨hlive, hdir⟩ := hruns
  have hp := (h.tasks i).process_of hlive hdir hmm
  obtain ⟨vm, vm', hmem, husage, hchild, hafter, hframe⟩ := hf.child h hlive hregs
  have hc : c < maxNumProcesses := by
    have := (hf.slots.taken c rfl).1.2.1
    omega
  have hb' : lookup true vm'.mem d v = some b := (hframe v).symm.trans hb
  obtain ⟨x, hx, hlma, hcov, hshared, hprivate⟩ := hchild.mapped v b hv hb'
  have hstatic := hp.space.maps.static x hx hlma v hv hcov
  have hbyte : ∀ p, pageAddr p = pageAddr v →
      userByteAddr s'.vm.mem (s'.tasks c).pgDir p = va b + p % pageSize := by
    intro p hpv
    rw [userByteAddr, hframe, lookup_of_pageAddr hpv, hb', Option.getD_some]
  refine ⟨x, hx, hlma, hcov, fun hsh => ?_, fun hno => ?_, fun p hpv => ?_⟩
  · rw [hshared hsh]
    exact hstatic
  · rw [← husage]
    exact (hprivate hno).1
  · have hpstatic : userFrame s.vm.mem (s.tasks i).pgDir p = some (x.target (pageAddr v)) :=
      (lookup_of_pageAddr hpv).trans hstatic
    by_cases hsh : x.shared = true
    · -- the page is the one of the parent
      have haddr : userByteAddr s'.vm.mem (s'.tasks c).pgDir p =
          userByteAddr s.vm.mem (s.tasks i).pgDir p := by
        rw [hbyte p hpv, userByteAddr, hpstatic, Option.getD_some, hshared hsh]
      rw [haddr]
      exact forkWrites_page h ⟨hlive, hdir⟩ hregs hf.writes
        (fun c' hc' => by rwa [← Option.some.inj hc']) hpstatic (userByteAddr_inPage hpstatic)
    · rw [Bool.not_eq_true] at hsh
      obtain ⟨hfree, hcontent⟩ := hprivate hsh
      have hin : InPage true b (va b + p % pageSize) := by
        have := Nat.mod_lt p (show 0 < pageSize by decide)
        simp only [InPage, linear, if_true]
        omega
      have hstep : s'.vm.mem (va b + p % pageSize) = vm'.mem (va b + p % pageSize) := by
        refine hafter _ ?_
        rw [pageOf_of_inPage (isPage_of_lookup hb') hin]
        exact not_outside (FreeFrame.inPool hfree)
      rw [hbyte p hpv, hstep, hcontent p hpv]
      -- what the copy has read is what the parent sees
      have htables : SameTables s.vm.mem vm.mem (physical true (s.tasks i).pgDir) := by
        intro n hn y hy
        refine hmem y fun hstack => ?_
        refine not_outside (hp.space.holdings.tables_pool n hn) ?_
        rw [← pageOf_of_inPage (hp.space.holdings.tables.pages n hn) hy]
        exact img.stack_outside hc hstack.1 hstack.2
      have haddr : userByteAddr vm.mem (s.tasks i).pgDir p =
          userByteAddr s.vm.mem (s.tasks i).pgDir p := by
        rw [userByteAddr, userByteAddr, userFrame, userFrame,
          lookup_frame hp.space.holdings.tables htables]
      rw [haddr]
      exact hmem _ ((h.userByte_apart ⟨hlive, hdir, hpstatic⟩ (userByteAddr_inPage hpstatic)).2 c hc)

/-- `sys_fork` copies the memory of the parent unless a page of its stack or heap has been touched. -/
theorem forkCopies_iff (h : Reachable H img u s) (ha : Enabled s (.fork i regs))
    (hf : sysFork H img i regs s = .ok (s', some c)) : ForkCopies i c s s' ↔ NoDemandPages s i := by
  have hi := h.invariant
  obtain ⟨hruns, hregs⟩ : UserRuns s i ∧ RegsOk s i regs := ha
  obtain ⟨c', d, parent, cm, t, hok, hmm, hforked⟩ : ∃ c' d parent cm t,
      sysFork H img i regs s = .ok (t, some c') ∧ (s.tasks i).mm = some parent ∧
        Forked img i regs c' d parent cm s t := by
    rcases sysFork_spec (H := H) hi hruns hregs with herr | herr | ⟨slot, t, hok, -⟩ | hdone
    · rw [hf] at herr
      cases herr
    · rw [hf] at herr
      cases herr
    · rw [hf] at hok
      cases hok
    · exact hdone
  rw [hf] at hok
  cases hok
  have hp := (hi.tasks i).process_of hruns.1 hruns.2 hmm
  constructor
  · intro hcopies v a hv hva mm hmm₁ vma hvma hcov hlma
    rw [hmm] at hmm₁
    cases hmm₁
    obtain ⟨b, hb, -⟩ := hcopies.copied v a hv hva
    obtain ⟨x, hx, hxlma, hxcov, -⟩ := hforked.mapped hi hruns hregs hmm hv hb
    rw [hp.space.layout.unique hx hvma hxcov hcov] at hxlma
    exact hxlma hlma
  · intro hno
    obtain ⟨vm, vm', -, -, hchild, -, hframe⟩ := hforked.child hi hruns.1 hregs
    refine ⟨fun v a hv hva => ?_, fun v hv hnone => ?_⟩
    · obtain ⟨x, hx, hcov⟩ := hp.space.maps.covered v a hv hva
      have hlma := hno v a hv hva parent hmm x hx hcov
      obtain ⟨b, hb⟩ : ∃ b, userFrame s'.vm.mem (s'.tasks c).pgDir v = some b := by
        rw [hframe]
        exact Option.ne_none_iff_exists'.1 (hchild.static x hx hlma v hv hcov)
      obtain ⟨y, hy, -, hycov, hshared, hfree, hcontent⟩ := hforked.mapped hi hruns hregs hmm hv hb
      refine ⟨b, hb, hcontent, ?_, fun hsh w hw => ?_⟩
      · rintro ⟨mm, hmm₁, z, hz, hzshared, hzcov⟩
        rw [hmm] at hmm₁
        cases hmm₁
        rw [hp.space.layout.unique hz hy hzcov hycov] at hzshared
        have hsame := hshared hzshared
        rw [hva] at hsame
        exact (Option.some.inj hsame).symm
      · have hyshared : y.shared = false := by
          by_contra hyes
          exact hsh ⟨parent, hmm, y, hy, by simpa using hyes, hycov⟩
        -- the frame was free, so the parent cannot have mapped it
        have hb' := hfree hyshared
        exact hi.used hruns.1 hruns.2 hmm b (Or.inr (Or.inr ⟨FreeFrame.inPool hb', w, hw⟩)) hb'
    · by_contra hsome
      obtain ⟨b, hb⟩ := Option.ne_none_iff_exists'.1 hsome
      obtain ⟨x, hx, hlma, hcov, -⟩ := hforked.mapped hi hruns hregs hmm hv hb
      have hstatic := hp.space.maps.static x hx hlma v hv hcov
      rw [userFrame, hstatic] at hnone
      cases hnone

/-! ## Sample calls -/

/-- A run and a call of `sys_fork` at its end. -/
def forkAfter (H : KernelHeap κ) (img : KernelImage) (u : UserImage) (s₀ : KernelState κ)
    (as : List (Action κ)) (i regs : Nat) : Option (KernelState κ × KernelState κ × Option Nat) :=
  (runFrom (step H img u) s₀ as).bind fun s =>
    if Enabled s (.fork i regs) then (sysFork H img i regs s).toOption.map fun r => (s, r.1, r.2)
    else none

theorem forkAfter_eq {s₀ : KernelState κ} {as : List (Action κ)} {r : Option Nat}
    (h : forkAfter H img u s₀ as i regs = some (s, s', r)) :
    runFrom (step H img u) s₀ as = some s ∧ Enabled s (.fork i regs) ∧
      sysFork H img i regs s = .ok (s', r) := by
  obtain ⟨t, hrun, hcall⟩ := Option.bind_eq_some_iff.1 h
  split_ifs at hcall with henabled
  obtain ⟨⟨t', r'⟩, hfork, heq⟩ := Option.map_eq_some_iff.1 hcall
  simp only [Prod.mk.injEq] at heq
  obtain ⟨rfl, rfl, rfl⟩ := heq
  exact ⟨hrun, henabled, except_toOption_eq_some.1 hfork⟩

/-- The states before and after the call. -/
theorem forkAfter_invariant {s₀ : KernelState κ} {as : List (Action κ)} {r : Option Nat}
    (hboot : Boot img s₀) (h : forkAfter H img u s₀ as i regs = some (s, s', r)) :
    Reachable H img u s ∧ Invariant img u s' := by
  obtain ⟨hrun, henabled, hfork⟩ := forkAfter_eq h
  have hreach : Reachable H img u s := ⟨s₀, as, hboot, hrun⟩
  have hstep : step H img u s (.fork i regs) = some s' := by
    rw [step, if_pos henabled, exec, hfork]
    rfl
  exact ⟨hreach, step_invariant hreach.invariant hstep⟩

/-- Where the registers of the first task are saved. -/
def sampleRegs : Nat := sampleImage.stack 0 + 3000

/-- The stack of the first task has a page, and `kmalloc` fails for the `pages_block` of its copy. -/
def sampleFailing : List (Action (List Nat)) :=
  [.userTest 0, .exception 0 0x20000010, .kmallocUse [16, 16, 16, 0]]

theorem sampleFork_undone : ∃ s s',
    runFrom (step sampleHeap sampleImage sampleUser) sampleBoot sampleFailing = some s ∧
      sysFork sampleHeap sampleImage 0 sampleRegs s = .ok (s', none) ∧
      ForkUndone sampleImage 0 sampleRegs s s' := by
  have hend : (forkAfter sampleHeap sampleImage sampleUser sampleBoot sampleFailing 0 sampleRegs).map
      (fun r => r.2.2) = some none := by decide +kernel
  obtain ⟨⟨s, s', r⟩, hcall, rfl⟩ := Option.map_eq_some_iff.1 hend
  obtain ⟨hrun, henabled, hfork⟩ := forkAfter_eq hcall
  exact ⟨s, s', hrun, hfork, fork_undone ⟨sampleBoot, sampleFailing, sampleBoot_boot, hrun⟩ henabled hfork⟩

theorem sampleFork_copies_iff : ∃ s s',
    runFrom (step sampleHeap sampleImage sampleUser) sampleBoot [.userTest 0] = some s ∧
      sysFork sampleHeap sampleImage 0 sampleRegs s = .ok (s', some 1) ∧
      (ForkCopies 0 1 s s' ↔ NoDemandPages s 0) := by
  have hend : (forkAfter sampleHeap sampleImage sampleUser sampleBoot [.userTest 0] 0 sampleRegs).map
      (fun r => r.2.2) = some (some 1) := by decide +kernel
  obtain ⟨⟨s, s', r⟩, hcall, hr⟩ := Option.map_eq_some_iff.1 hend
  dsimp only at hr
  subst hr
  obtain ⟨hrun, henabled, hfork⟩ := forkAfter_eq hcall
  exact ⟨s, s', hrun, hfork, forkCopies_iff ⟨sampleBoot, _, sampleBoot_boot, hrun⟩ henabled hfork⟩

/-- The child of a task that has used its stack does not have the page. -/
theorem sampleFork_not_copies : ∃ s s',
    runFrom (step sampleHeap sampleImage sampleUser) sampleBoot
        [.userTest 0, .exception 0 0x20000010] = some s ∧
      sysFork sampleHeap sampleImage 0 sampleRegs s = .ok (s', some 1) ∧ ¬ForkCopies 0 1 s s' := by
  have hend : (forkAfter sampleHeap sampleImage sampleUser sampleBoot
      [.userTest 0, .exception 0 0x20000010] 0 sampleRegs).map (fun r =>
        (r.2.2, (userFrame r.1.vm.mem (r.1.tasks 0).pgDir 0x20000010).isSome,
          userFrame r.2.1.vm.mem (r.2.1.tasks 1).pgDir 0x20000010)) =
      some (some 1, true, none) := by decide +kernel
  obtain ⟨⟨s, s', r⟩, hcall, hr⟩ := Option.map_eq_some_iff.1 hend
  simp only [Prod.mk.injEq] at hr
  obtain ⟨hchild, hparent, hnone⟩ := hr
  obtain ⟨hrun, -, hfork⟩ := forkAfter_eq hcall
  rw [hchild] at hfork
  refine ⟨s, s', hrun, hfork, fun hcopies => ?_⟩
  obtain ⟨a, ha⟩ := Option.isSome_iff_exists.1 hparent
  obtain ⟨b, hb, -⟩ := hcopies.copied 0x20000010 a (by decide) ha
  rw [hnone] at hb
  cases hb

end Kernel
end ToutOS
