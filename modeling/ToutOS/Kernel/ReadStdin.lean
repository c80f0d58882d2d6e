import ToutOS.Kernel.Balance
import ToutOS.Kernel.ReadOnly
import ToutOS.Kernel.Syscall

/-!
# ReadStdin — `sys_read` into memory of the user

`read_stdin` stores to the buffer with the tables of the caller.  Pages of the stack and the heap are
mapped by `do_el0_sync`, which the kernel does not run for a store of its own.

* `Unlocked` — the entries of the pages of writable vmas let stores through, in every run.
* `storable_iff` — an address of a writable vma can be stored to exactly if its page is mapped.
* `readStdin_returns_iff` — when `sys_read` comes back from a wait, it returns to the caller exactly if
  the pages of the line are mapped, or the line is too long for the buffer.
-/

namespace ToutOS
namespace Kernel

open Base Mm

variable {κ : Type} {H : KernelHeap κ} {img : KernelImage} {u : UserImage} {s s' : KernelState κ}
  {m m' : Mem} {d v : Nat} {mm mm' : MmStruct} {vm vm' : VmState κ}

/-! ## Entries that let stores through -/

/-- Read-only entries are entries of vmas that may not be written. -/
structure Unlocked (m : Mem) (d : Nat) (mm : MmStruct) : Prop where
  readOnly : ReadOnly m d mm
  unlocked : ∀ x ∈ mm.mmap, x.writable = true → ∀ v, v < 2 ^ 39 → x.covers (pageAddr v) = true →
    ∀ e, leafPte true m d v = some e → e.testBit 7 = false

theorem testBit_descriptor {addr : Nat} (h : pageSize ∣ addr) :
    (descriptor addr (userAttrs false)).testBit 7 = false := by
  have hbit : addr.testBit 7 = false := by
    obtain ⟨k, rfl⟩ := h
    rw [show pageSize * k = 2 ^ 12 * k from rfl, Nat.testBit_two_pow_mul]
    rfl
  have hattrs : (userAttrs false).testBit 7 = false := by decide
  have htype : pteTypeTable.testBit 7 = false := by decide
  have hflag : pteBlockAf.testBit 7 = false := by decide
  simp only [descriptor, Nat.testBit_or, hbit, hattrs, htype, hflag, Bool.or_false]

/-- The entry of a page that was mapped is the one it had. -/
theorem leafPte_back {e : Nat}
    (hkept : ∀ e, leafPte true m d v = some e → leafPte true m' d v = some e)
    (hmapped : lookup true m d v ≠ none) (he : leafPte true m' d v = some e) :
    leafPte true m d v = some e := by
  rw [lookup_eq_leafPte, ne_eq, Option.map_eq_none_iff] at hmapped
  obtain ⟨e', he'⟩ := Option.ne_none_iff_exists'.1 hmapped
  rw [hkept e' he'] at he
  rw [he', he]

theorem lookup_of_leafPte {e : Nat} (he : leafPte true m d v = some e) : lookup true m d v ≠ none := by
  rw [lookup_eq_leafPte, he]
  exact Option.some_ne_none _

theorem Unlocked.frame (h : Unlocked m d mm) (hspace : SpaceOk m d mm) (hsame : SameTables m m' d) :
    Unlocked m' d mm := by
  refine ⟨h.readOnly.frame hspace hsame, fun x hx hw v hv hcov e he => ?_⟩
  have hmapped := lookup_of_leafPte he
  rw [lookup_frame hspace.holdings.tables hsame] at hmapped
  exact h.unlocked x hx hw v hv hcov e
    (leafPte_back (fun e' => leafPte_frame hspace.holdings.tables hsame) hmapped he)

theorem MadeSpace.unlocked (h : MadeSpace m d mm) : Unlocked m d mm := by
  refine ⟨readOnly_of_leaf h.static h.leaf, fun x hx hw v hv hcov e he => ?_⟩
  have hlma : x.lma ≠ noLma := by
    obtain ⟨y, hy, hlma, hcovy⟩ := h.mapped v hv (lookup_of_leafPte he)
    rwa [h.space.layout.unique hx hy hcov hcovy]
  rw [h.leaf x hx hlma v hv hcov, hw, Bool.not_true] at he
  obtain rfl := Option.some.inj he
  have hok := h.space.layout.vma x hx
  have hdvd : pageSize ∣ pageAddr v := Dvd.intro_left _ rfl
  exact testBit_descriptor (Nat.dvd_add (hok.lma_dvd hlma) (Nat.dvd_sub hdvd hok.start_dvd))

/-- The entry for the page that an exception has been given. -/
theorem handleFault_leaf {addr k : Nat} {mmap' : List VmArea} {T' : Set Nat} (h : SpaceOk vm.mem d mm)
    (hused : ∀ a ∈ footprint vm.mem d mm.mmap, ¬FreeFrame vm.pagesUsage a)
    (hrun : handleFault H (linear true d) addr mm vm = .ok ({ mm with mmap := mmap' }, vm'))
    (hf : Faulted H d addr k mm vm mmap' vm' T') (hv : v < 2 ^ 39) (hpage : pageAddr v = pageAddr addr)
    (hnone : lookup true vm.mem d v = none) :
    ∃ a, pageSize ∣ a ∧ leafPte true vm'.mem d v = some (descriptor a (userAttrs false)) := by
  have hwindow : pageAddr addr + pageSize ≤ 2 ^ 39 := by
    rw [← hpage]
    simp only [pageAddr, pageSize]
    omega
  rcases hget : getFreePages vm.pagesUsage 0 with ⟨page, usage⟩
  simp only [handleFault, hget] at hrun
  by_cases hzero : page = 0
  · -- nothing has been mapped
    rw [if_pos hzero] at hrun
    have hvm : vm = vm' := congrArg Prod.snd (Except.ok.inj hrun)
    have hlook := hf.lookup v hv
    rw [if_pos hpage, ← hvm, hnone] at hlook
    cases hlook
  rw [if_neg hzero] at hrun
  obtain ⟨l, hpagel, hl, -, rfl⟩ := getFreePages_one hget hzero
  have hT : tableFrames vm.mem d ⊆ usedFrames (markPages vm.pagesUsage l 1 true) := by
    intro n hn
    have := tableFrames_used h.holdings hused hn
    exact (usedFrame_markPages (show l + 1 ≤ maxNumPages by omega)).2 (Or.inl this)
  obtain ⟨vm₁, hmap, heq⟩ := except_map_eq_ok.1 hrun
  rw [show pa page = frame l by rw [hpagel, pa_pagePool hl]] at hmap
  have hmem : vm₁.mem = vm'.mem := congrArg (fun r => VmState.mem r.2) heq
  rw [← hmem]
  exact ⟨frame l, (physOk_frame hl).1,
    @setupOnePage_leaf κ d addr { vm with pagesUsage := markPages vm.pagesUsage l 1 true } vm₁
      (tableFrames vm.mem d) l v (linear_ne_zero h.holdings) hl hwindow h.holdings.tables hT hmap hv hpage
      hnone⟩

theorem Unlocked.fault {addr k : Nat} {mmap' : List VmArea} {T' : Set Nat} (h : Unlocked vm.mem d mm)
    (hspace : SpaceOk vm.mem d mm)
    (hused : ∀ a ∈ footprint vm.mem d mm.mmap, ¬FreeFrame vm.pagesUsage a)
    (hrun : handleFault H (linear true d) addr mm vm = .ok ({ mm with mmap := mmap' }, vm'))
    (hf : Faulted H d addr k mm vm mmap' vm' T') : Unlocked vm'.mem d { mm with mmap := mmap' } := by
  refine ⟨h.readOnly.fault hspace hf, fun x hx hw v hv hcov e he => ?_⟩
  by_cases hmapped : lookup true vm.mem d v = none
  · -- the page has been entered now
    have hpage : pageAddr v = pageAddr addr := by
      by_contra hne
      have hlook := hf.lookup v hv
      rw [if_neg hne, hmapped] at hlook
      exact lookup_of_leafPte he hlook
    obtain ⟨a, hdvd, hleaf⟩ := handleFault_leaf hspace hused hrun hf hv hpage hmapped
    rw [hleaf] at he
    obtain rfl := Option.some.inj he
    exact testBit_descriptor hdvd
  · have hold : x.bare ∈ mm.mmap.map VmArea.bare := hf.bare ▸ List.mem_map_of_mem hx
    obtain ⟨y, hy, hb⟩ := List.mem_map.1 hold
    have hwy : y.writable = true := (congrArg VmArea.writable hb).trans hw
    exact h.unlocked y hy hwy v hv ((covers_congr hb _).trans hcov) e
      (leafPte_back (fun e' => hf.entries.leafPte hspace.holdings.tables) hmapped he)

/-- Only the heap can cover pages that it did not cover before, and those were not mapped. -/
theorem Unlocked.sysBrk {addr : Nat} (h : Unlocked vm.mem d mm) (hspace : SpaceOk vm.mem d mm)
    (hs : SpaceStep d mm vm mm' vm') (hrun : sysBrk H (linear true d) addr mm vm = .ok (mm', vm')) :
    Unlocked vm'.mem d mm' := by
  have hd := (hspace.holdings.tables.pages _ (root_mem_tableFrames _ _)).1
  have hcleared := (sysBrk_entries hrun).1
  refine ⟨h.readOnly.sysBrk hd hs hrun, fun x hx hw v hv hcov e he => ?_⟩
  have hold := hcleared.leafPte hd he
  rcases hs.kept x hx with ⟨y, hy, hb⟩ | ⟨hstart, -, -⟩
  · have hwy : y.writable = true := (congrArg VmArea.writable hb).trans hw
    exact h.unlocked y hy hwy v hv ((covers_congr hb _).trans hcov) e hold
  · obtain ⟨a, ha⟩ := Option.ne_none_iff_exists'.1 (lookup_of_leafPte hold)
    obtain ⟨y, hy, hcovy⟩ := hspace.maps.covered v a hv ha
    cases hwy : y.writable with
    | true => exact h.unlocked y hy hwy v hv hcovy e hold
    | false =>
        -- no other vma lies where the heap can be
        have hplace := (hspace.layout.vma y hy).place
        have hplace' := (hs.ok.layout.vma x hx).place
        have hlt := hspace.layout.brk_lt
        have hle := hs.ok.layout.brk_le
        have hlt' := hs.ok.layout.brk_lt
        have hlma := h.readOnly.static y hy hwy
        rw [VmArea.covers_iff] at hcov hcovy
        simp only [VmArea.InPlace, hlma, false_and, and_false, false_or] at hplace hplace'
        rw [hs.start] at hplace' hlt'
        omega

/-- In every run. -/
theorem unlocked_rules : SpaceRules H Unlocked where
  static h := h.readOnly.static
  frame h hspace hsame := h.frame hspace hsame
  made h := h.unlocked
  fault h hspace hused hrun hf := h.fault hspace hused hrun hf
  brk h hspace hs hrun := h.sysBrk hspace hs hrun

/-! ## Stores of the kernel -/

theorem userWritable_iff {pgDir x : Nat} (hdir : linear true (physical true pgDir) = pgDir) :
    userWritable m pgDir x = true ↔
      ∃ e, leafPte true m (physical true pgDir) x = some e ∧ e.testBit 7 = false := by
  rw [userWritable, Bool.and_eq_true, userFrame, lookup_eq_leafPte, Option.isSome_map, List.foldl_cons,
    List.foldl_cons, List.foldl_nil]
  cases hleaf : leafPte true m (physical true pgDir) x with
  | none =>
      refine iff_of_false (fun hno => Bool.noConfusion hno.1) ?_
      rintro ⟨e, he, -⟩
      cases he
  | some e =>
      obtain ⟨t, htable, -, hload⟩ := leafPte_eq_some.1 hleaf
      obtain ⟨n, hfirst, hsecond⟩ := descend_two.1 htable
      have hn := (ptSlot_eq_some.1 hfirst).2
      have ht := (ptSlot_eq_some.1 hsecond).2
      rw [hdir] at hn
      rw [hn, ht, hload, Bool.not_eq_true']
      constructor
      · rintro ⟨-, hbit⟩
        exact ⟨e, rfl, hbit⟩
      · rintro ⟨e', he', hbit⟩
        obtain rfl := Option.some.inj he'
        exact ⟨rfl, hbit⟩

/-- A store to an address of a writable vma is refused only if its page is not mapped. -/
theorem storable_iff {i x : Nat} (h : Reachable H img u s) (hruns : UserRuns s i)
    (hmm : (s.tasks i).mm = some mm) (hin : InWritableVma mm.mmap x) :
    (el1Mmu s.vm.mem (s.tasks i).pgDir).storable x = true ↔
      userFrame s.vm.mem (s.tasks i).pgDir x ≠ none := by
  obtain ⟨vma, hvma, hcov, hw⟩ := hin
  have hp := (h.invariant.tasks i).process_of hruns.1 hruns.2 hmm
  have hok := hp.space.layout.vma vma hvma
  have hx : x < 2 ^ 39 := by
    have := hok.end_le
    rw [VmArea.covers_iff] at hcov
    omega
  simp only [el1Mmu, if_pos hx]
  rw [userWritable_iff (linear_pgDir hp.dir_lt)]
  constructor
  · rintro ⟨e, he, -⟩
    exact lookup_of_leafPte he
  · intro hmapped
    rw [userFrame, lookup_eq_leafPte, ne_eq, Option.map_eq_none_iff] at hmapped
    obtain ⟨e, he⟩ := Option.ne_none_iff_exists'.1 hmapped
    exact ⟨e, he, (unlocked_rules.reachable h i hruns mm hmm).unlocked vma hvma hw x hx
      (hok.covers_pageAddr hcov) e he⟩

theorem storeBytes_ok_iff {mmu : Mmu} {bytes : List UInt8} : ∀ {p : Nat}, p < 2 ^ 64 →
    ((storeBytes mmu p bytes).2 = true ↔ ∀ k < bytes.length, mmu.storable (add64 p k) = true) := by
  induction bytes with
  | nil =>
      intro p _
      simp [storeBytes]
  | cons b bytes ih =>
      intro p hp
      have hp₀ : add64 p 0 = p := Nat.mod_eq_of_lt hp
      have hp₁ : add64 p 1 < 2 ^ 64 := Nat.mod_lt _ (by decide)
      rw [storeBytes]
      split_ifs with hstore
      · rw [List.length_cons, ih hp₁]
        constructor
        · intro hrest k hk
          cases k with
          | zero => rwa [hp₀]
          | succ k =>
              rw [← add64_add64]
              exact hrest k (by omega)
        · intro hall k hk
          rw [add64_add64]
          exact hall (k + 1) (by omega)
      · -- the first store is refused
        refine iff_of_false id fun hall => hstore ?_
        rw [← hp₀]
        exact hall 0 (Nat.zero_lt_succ _)

/-! ## While the caller waits -/

/-- What other tasks do changes neither the caller nor its tables. -/
theorem step_others {a : Action κ} {i : Nat} (h : Invariant img u s) (hlive : (s.tasks i).live = true)
    (hother : a.task ≠ some i) (ha : step H img u s a = some s') :
    s'.tasks i = s.tasks i ∧ SameTaskTables s.vm.mem s'.vm.mem (s.tasks i) := by
  obtain ⟨henabled, hexec⟩ := step_eq ha
  obtain ⟨j, hstep, hj⟩ := exec_other h henabled hother hexec
  have hne : i ≠ j := by
    rintro rfl
    rw [(hj rfl).1] at hlive
    cases hlive
  refine ⟨?_, hstep.tables h hne⟩
  rcases hstep.others i hne with heq | ⟨-, hdead⟩
  · exact heq
  · rw [hdead] at hlive
    cases hlive

/-- The caller finds its address space as it has left it. -/
theorem runFrom_others {as : List (Action κ)} {i : Nat} : ∀ {s : KernelState κ}, Invariant img u s →
    UserRuns s i → (∀ a ∈ as, a.task ≠ some i) → runFrom (step H img u) s as = some s' →
      s'.tasks i = s.tasks i ∧
        ∀ v, userFrame s'.vm.mem (s.tasks i).pgDir v = userFrame s.vm.mem (s.tasks i).pgDir v := by
  induction as with
  | nil =>
      intro s _ _ _ hrun
      obtain rfl := Option.some.inj hrun
      exact ⟨rfl, fun _ => rfl⟩
  | cons a as ih =>
      intro s h hruns hothers hrun
      obtain ⟨s₁, hfirst, hrest⟩ := runFrom_cons.1 hrun
      obtain ⟨htask, htables⟩ := step_others h hruns.1 (hothers a (by simp)) hfirst
      obtain ⟨mm, -, hp⟩ := (h.tasks i).process hruns.1 hruns.2
      have hruns₁ : UserRuns s₁ i := by rwa [UserRuns, htask]
      obtain ⟨htask', hframes⟩ := ih (step_invariant h hfirst) hruns₁
        (fun b hb => hothers b (List.mem_cons_of_mem a hb)) hrest
      refine ⟨htask'.trans htask, fun v => ?_⟩
      rw [htask] at hframes
      rw [hframes v, userFrame, userFrame]
      exact lookup_frame hp.space.holdings.tables (htables hruns.1 hruns.2) v

/-! ## The copy -/

/-- A call that finds a line returns, unless a store is refused. -/
theorem sysRead_returns_iff {mmu : Mmu} {r : PtRegs} {line : { u : UartIn // lineReady u = true }}
    {tick : Nat} {timeouts : List (Int × Nat)} (hfd : r.regs 0 % 2 ^ 32 = 0) (hbuf : r.regs 1 < 2 ^ 64) :
    (∃ r', (sysRead mmu ⟨some line, tick, timeouts⟩ r).outcome = .returned r') ↔
      r.regs 2 < line.val.uibIndex ∨
        ∀ k < line.val.uibIndex, mmu.storable (add64 (r.regs 1) k) = true := by
  by_cases hcount : r.regs 2 < line.val.uibIndex
  · refine iff_of_true ⟨r.setResult minusOne, ?_⟩ (Or.inl hcount)
    simp only [sysRead, if_pos hfd, copyLine, if_pos hcount]
  · have hbytes := @storeBytes_ok_iff mmu ((List.range line.val.uibIndex).map line.val.uartInBuf) _ hbuf
    rw [List.length_map, List.length_range] at hbytes
    rw [or_iff_right hcount, ← hbytes]
    simp only [sysRead, if_pos hfd, copyLine, if_neg hcount]
    constructor
    · rintro ⟨r', hret⟩
      by_contra hno
      rw [if_neg hno] at hret
      cases hret
    · intro hok
      exact ⟨_, by rw [if_pos hok]⟩

/-- The addresses of a range in vmas do not wrap around. -/
theorem add64_of_inWritableVma {p n k : Nat} (hlayout : Layout mm) (hp : p < 2 ^ 64)
    (hin : ∀ k < n, InWritableVma mm.mmap (add64 p k)) (hk : k < n) : add64 p k = p + k := by
  have hlt : ∀ {k}, k < n → add64 p k < 2 ^ 39 := fun hk => by
    obtain ⟨vma, hvma, hcov, -⟩ := hin _ hk
    have := (hlayout.vma vma hvma).end_le
    rw [VmArea.covers_iff] at hcov
    omega
  have hfirst := hlt (Nat.lt_of_le_of_lt (Nat.zero_le k) hk)
  simp only [add64] at *
  by_contra hne
  -- one of the addresses before it is `2 ^ 39`
  have hmid := @hlt (2 ^ 39 - p) (by omega)
  omega

/-- For every call `read(0, buf, count)` whose range lies in writable vmas of the caller, whatever the
other tasks do while it waits: when there is a line, the call returns to the caller exactly if the line
is longer than the buffer, or the pages that it goes to were mapped when the call was made. -/
theorem readStdin_returns_iff {i : Nat} {as : List (Action κ)} {r : PtRegs}
    {line : { u : UartIn // lineReady u = true }} (tick : Nat) (timeouts : List (Int × Nat))
    (h : Reachable H img u s) (hruns : UserRuns s i) (hmm : (s.tasks i).mm = some mm)
    (hfd : r.regs 0 % 2 ^ 32 = 0) (hbuf : r.regs 1 < 2 ^ 64)
    (hin : ∀ k < r.regs 2, InWritableVma mm.mmap (add64 (r.regs 1) k))
    (hothers : ∀ a ∈ as, a.task ≠ some i) (hrun : runFrom (step H img u) s as = some s') :
    (∃ r', (sysRead (el1Mmu s'.vm.mem (s'.tasks i).pgDir) ⟨some line, tick, timeouts⟩ r).outcome =
        .returned r') ↔
      r.regs 2 < line.val.uibIndex ∨
        ∀ k < line.val.uibIndex, userFrame s.vm.mem (s.tasks i).pgDir (r.regs 1 + k) ≠ none := by
  obtain ⟨htask, hframes⟩ := runFrom_others h.invariant hruns hothers hrun
  have h' : Reachable H img u s' := by
    obtain ⟨s₀, bs, hboot, hbs⟩ := h
    exact ⟨s₀, bs ++ as, hboot, runFrom_append.2 ⟨s, hbs, hrun⟩⟩
  have hruns' : UserRuns s' i := by rwa [UserRuns, htask]
  have hmm' : (s'.tasks i).mm = some mm := by rw [htask, hmm]
  have hp := (h.invariant.tasks i).process_of hruns.1 hruns.2 hmm
  rw [sysRead_returns_iff hfd hbuf]
  by_cases hcount : r.regs 2 < line.val.uibIndex
  · exact iff_of_true (Or.inl hcount) (Or.inl hcount)
  rw [or_iff_right hcount, or_iff_right hcount]
  refine forall₂_congr fun k hk => ?_
  have hk' : k < r.regs 2 := by omega
  rw [storable_iff h' hruns' hmm' (hin k hk'), htask, hframes,
    add64_of_inWritableVma hp.space.layout hbuf hin hk']

/-- `read` into a page of the stack that the program has used. -/
theorem sampleRead_returns : ∃ s s' mm,
    runFrom (step sampleHeap sampleImage sampleUser) sampleBoot
        [.userTest 0, .exception 0 userStackStart] = some s ∧
      runFrom (step sampleHeap sampleImage sampleUser) s [.kmallocUse []] = some s' ∧
      (s.tasks 0).mm = some mm ∧ (∀ k < 256, InWritableVma mm.mmap (add64 (userStackStart + 16) k)) ∧
      ∃ r', (sysRead (el1Mmu s'.vm.mem (s'.tasks 0).pgDir) emptyLine
        (readRegs (userStackStart + 16))).outcome = .returned r' := by
  have hend : ((runFrom (step sampleHeap sampleImage sampleUser) sampleBoot
      [.userTest 0, .exception 0 userStackStart]).bind fun s =>
        (runFrom (step sampleHeap sampleImage sampleUser) s [.kmallocUse []]).bind fun s' =>
          (s.tasks 0).mm.map fun mm => (s, s', mm)).map (fun r =>
        (decide (UserRuns r.1 0), (userFrame r.1.vm.mem (r.1.tasks 0).pgDir (userStackStart + 16)).isSome,
          (List.range 256).all fun k =>
            decide (InWritableVma r.2.2.mmap (add64 (userStackStart + 16) k)))) =
      some (true, true, true) := by decide +kernel
  obtain ⟨⟨s, s', mm⟩, hbind, hs⟩ := Option.map_eq_some_iff.1 hend
  obtain ⟨s₁, hrun, hbind⟩ := Option.bind_eq_some_iff.1 hbind
  obtain ⟨s₂, hrun', hbind⟩ := Option.bind_eq_some_iff.1 hbind
  obtain ⟨mm₁, hmm, hsome⟩ := Option.map_eq_some_iff.1 hbind
  cases hsome
  simp only [Prod.mk.injEq, decide_eq_true_eq, List.all_eq_true, List.mem_range] at hs
  obtain ⟨hruns, hmapped, hin⟩ := hs
  refine ⟨s, s', mm, hrun, hrun', hmm, hin, ?_⟩
  refine (readStdin_returns_iff 0 [] ⟨sampleBoot, _, sampleBoot_boot, hrun⟩ hruns hmm (by decide) (by decide)
    hin (by simp [Action.task]) hrun').2 (Or.inr fun k hk => ?_)
  obtain rfl : k = 0 := Nat.lt_one_iff.1 hk
  exact Option.isSome_iff_ne_none.1 hmapped

/-- `read` into a page of the stack that the program has not used yet. -/
theorem sampleRead_panics : ∃ s mm,
    runFrom (step sampleHeap sampleImage sampleUser) sampleBoot [.userTest 0] = some s ∧
      UserRuns s 0 ∧ (s.tasks 0).mm = some mm ∧
      (∀ k < 256, InWritableVma mm.mmap (add64 (userStackStart + 16) k)) ∧
      (sysRead (el1Mmu s.vm.mem (s.tasks 0).pgDir) emptyLine
        (readRegs (userStackStart + 16))).outcome = .kernelPanic := by
  have hend : ((runFrom (step sampleHeap sampleImage sampleUser) sampleBoot [.userTest 0]).bind fun s =>
      (s.tasks 0).mm.map fun mm => (s, mm)).map (fun r =>
        (decide (UserRuns r.1 0),
          (List.range 256).all fun k => decide (InWritableVma r.2.mmap (add64 (userStackStart + 16) k)),
          match (sysRead (el1Mmu r.1.vm.mem (r.1.tasks 0).pgDir) emptyLine
            (readRegs (userStackStart + 16))).outcome with
          | .kernelPanic => true
          | _ => false)) = some (true, true, true) := by decide +kernel
  obtain ⟨⟨s, mm⟩, hbind, hs⟩ := Option.map_eq_some_iff.1 hend
  obtain ⟨s₁, hrun, hbind⟩ := Option.bind_eq_some_iff.1 hbind
  obtain ⟨mm₁, hmm, hsome⟩ := Option.map_eq_some_iff.1 hbind
  cases hsome
  simp only [Prod.mk.injEq, decide_eq_true_eq, List.all_eq_true, List.mem_range] at hs
  obtain ⟨hruns, hin, hpanic⟩ := hs
  refine ⟨s, mm, hrun, hruns, hmm, hin, ?_⟩
  generalize (sysRead (el1Mmu s.vm.mem (s.tasks 0).pgDir) emptyLine
    (readRegs (userStackStart + 16))).outcome = outcome at hpanic ⊢
  cases outcome with
  | kernelPanic => rfl
  | _ => cases hpanic

end Kernel
end ToutOS
