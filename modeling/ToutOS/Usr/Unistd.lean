import ToutOS.Kernel.Break

/-!
# Unistd — `usr/unistd.c`: `_sys_brk` and `sbrk`

`sbrk` asks for the break with one system call and sets it with another one; whether that has worked
is seen from the break that is returned.  Between the two calls the process may take page faults, and
other tasks run.

* `ProcState`, `procStep` — a process that calls `sbrk`, one system call at a time;
* `Break`, `sbrkLaw` — the break as an integer that `sbrk` adds to;
* `SbrkLaw`, `sbrkRun_law` — the calls of a process return what the integers say.
-/

namespace ToutOS
namespace Usr

open Base Mm Kernel

variable {κ : Type}

/-! ## The program -/

/-- `_sys_brk` of task `i`: the result and the state after it. -/
def sysBrkCall (H : KernelHeap κ) (img : KernelImage) (u : UserImage) (i regs addr : Nat)
    (s : KernelState κ) : Option (Nat × KernelState κ) :=
  (step H img u s (.brk i regs addr)).map fun s' => (load s'.vm.mem regs 8, s')

/-- `new_brk` in `sbrk`. -/
def newBrk (oldBrk : Nat) (increment : Int) : Nat := (((oldBrk : Int) + increment) % 2 ^ 64).toNat

/-- `(void *)-1`. -/
def failed : Nat := 2 ^ 64 - 1

/-- The end of `sbrk`. -/
def sbrkReturn (oldBrk new ret : Nat) : Nat := if ret ≠ new then failed else oldBrk

/-- A process that calls `sbrk`. -/
structure ProcState (κ : Type) where
  kernel : KernelState κ
  /-- `increment` and `old_brk` of a call that has made its first system call. -/
  pending : Option (Int × Nat)
  /-- The arguments and the results of the calls that have returned. -/
  returned : List (Int × Nat)

/-- What can happen; `regs` points to the registers that a system call saves. -/
inductive ProcAction (κ : Type)
  /-- `sbrk` is called and makes its first system call. -/
  | call (regs : Nat) (increment : Int)
  /-- The second system call. -/
  | resume (regs : Nat)
  /-- A page fault or another step of the kernel. -/
  | other (a : Action κ)

/-- The action is a system call `brk` of task `i`. -/
def IsBrk (i : Nat) : Action κ → Prop
  | .brk j _ _ => j = i
  | _ => False

instance (i : Nat) : (a : Action κ) → Decidable (IsBrk i a)
  | .brk j _ _ => inferInstanceAs (Decidable (j = i))
  | .userTest _ => isFalse id
  | .fork _ _ => isFalse id
  | .exception _ _ => isFalse id
  | .exit _ => isFalse id
  | .userStore _ _ _ => isFalse id
  | .kmallocUse _ => isFalse id

/-- `intptr_t`. -/
def IsIntptr (n : Int) : Prop := -2 ^ 63 ≤ n ∧ n < 2 ^ 63

instance (n : Int) : Decidable (IsIntptr n) := inferInstanceAs (Decidable (_ ∧ _))

/-- One step of the process in slot `i`, which calls `brk` through `sbrk` only and does not end. -/
def procStep (H : KernelHeap κ) (img : KernelImage) (u : UserImage) (i : Nat) (p : ProcState κ) :
    ProcAction κ → Option (ProcState κ)
  | .call regs increment =>
      if p.pending = none ∧ IsIntptr increment then
        (sysBrkCall H img u i regs 0 p.kernel).map fun (oldBrk, s) =>
          if increment = 0 then
            { kernel := s, pending := none, returned := p.returned ++ [(increment, oldBrk)] }
          else { p with kernel := s, pending := some (increment, oldBrk) }
      else none
  | .resume regs =>
      p.pending.bind fun (increment, oldBrk) =>
        let new := newBrk oldBrk increment
        (sysBrkCall H img u i regs new p.kernel).map fun (ret, s) =>
          { kernel := s
            pending := none
            returned := p.returned ++ [(increment, sbrkReturn oldBrk new ret)] }
  | .other a =>
      if IsBrk i a then none
      else
        (step H img u p.kernel a).bind fun s =>
          if UserRuns s i then some { p with kernel := s } else none

/-- The process in state `s`, before its first call. -/
def ProcState.start (s : KernelState κ) : ProcState κ := { kernel := s, pending := none, returned := [] }

/-! ## The integers -/

/-- The heap of a process. -/
structure Break where
  start : Nat
  brk : Nat

/-- `sbrk` on integers: the result and the new break. -/
def sbrkLaw (b : Break) (n : Int) : Nat × Break :=
  if (b.start : Int) ≤ b.brk + n ∧ (b.brk : Int) + n ≤ maxBrkAddr then
    (b.brk, { b with brk := ((b.brk : Int) + n).toNat })
  else (failed, b)

/-- The heap of an address space. -/
def breakOf (mm : MmStruct) : Break := { start := mm.startBrk, brk := mm.brk }

/-! ## One system call -/

section Call

variable {H : KernelHeap κ} {img : KernelImage} {u : UserImage} {i regs addr : Nat}
  {s s' : KernelState κ} {mm mm' : MmStruct} {p p' : ProcState κ}

/-- What a call of `_sys_brk` does. -/
structure BrkReturns (H : KernelHeap κ) (i regs addr : Nat) (s s' : KernelState κ)
    (mm mm' : MmStruct) (ret : Nat) : Prop where
  runs : UserRuns s' i
  space : (s'.tasks i).mm = some mm'
  set : BrkSet H s.vm.heap addr mm mm'
  result : ret = nextBrk mm addr

theorem sysBrkCall_returns (h : Invariant img u s) (hmm : (s.tasks i).mm = some mm) {ret : Nat}
    (hcall : sysBrkCall H img u i regs addr s = some (ret, s')) :
    Layout mm ∧ Invariant img u s' ∧ ∃ mm', BrkReturns H i regs addr s s' mm mm' ret := by
  obtain ⟨t, hstep, hpair⟩ := Option.map_eq_some_iff.1 hcall
  obtain ⟨rfl, rfl⟩ := Prod.mk.inj hpair
  obtain ⟨henabled, hexec⟩ := step_eq hstep
  obtain ⟨mm₀, mm', vm₁, vm', hb⟩ := brk_cases h henabled.1 henabled.2.1 henabled.2.2 hexec
  have hspace := hb.space
  rw [hmm] at hspace
  obtain rfl := Option.some.inj hspace
  have hset := sysBrk_set hb.run
  rw [hb.heap] at hset
  have htask : t.tasks i = { s.tasks i with mm := some mm' } := by
    rw [hb.tasks, Function.update_self]
  refine ⟨hb.process.space.layout, step_invariant h hstep, mm', ⟨?_, by rw [htask], hset, ?_⟩⟩
  · rw [UserRuns, htask]
    exact henabled.1
  · have hle := hb.space_ok.layout.brk_le
    rw [hb.stored, load_store_same, hset.brk]
    simp only [maxBrkAddr] at hle
    omega

/-- The call returns if there is a heap to shrink. -/
theorem sysBrkCall_isSome (h : Invariant img u s) (hruns : UserRuns s i) (hregs : RegsOk s i regs)
    (haddr : addr < 2 ^ 64) (hmm : (s.tasks i).mm = some mm)
    (hfinds : Shrinks mm addr → findVma mm.mmap mm.startBrk ≠ none) :
    (sysBrkCall H img u i regs addr s).isSome = true := by
  obtain ⟨s', hok⟩ := brk_ok (H := H) h hruns hregs haddr hmm hfinds
  have hstep : step H img u s (.brk i regs addr) = some s' := by
    rw [step, if_pos ⟨hruns, hregs, haddr⟩, exec, hok]
    rfl
  rw [sysBrkCall, hstep]
  rfl

/-- The second call sets the break exactly if that is what the integers say. -/
theorem sbrk_second (hl : Layout mm) {n : Int} (hint : IsIntptr n) :
    sbrkLaw (breakOf mm) n =
      (sbrkReturn mm.brk (newBrk mm.brk n) (nextBrk mm (newBrk mm.brk n)),
        { start := mm.startBrk, brk := nextBrk mm (newBrk mm.brk n) }) := by
  have hpos := hl.brk_pos
  have hge := hl.brk_ge
  have hle := hl.brk_le
  have hmax : maxBrkAddr = 0x0C000000 := rfl
  obtain ⟨hlo, hhi⟩ := hint
  by_cases hin : (mm.startBrk : Int) ≤ mm.brk + n ∧ (mm.brk : Int) + n ≤ maxBrkAddr
  · have hnew : newBrk mm.brk n = ((mm.brk : Int) + n).toNat := by
      rw [newBrk, Int.emod_eq_of_lt (by omega) (by omega)]
    have hnext : nextBrk mm (newBrk mm.brk n) = newBrk mm.brk n := by
      refine if_neg ?_
      rw [KeepsBrk, hnew]
      omega
    rw [hnext, sbrkReturn, if_neg (by simp), hnew, sbrkLaw]
    exact if_pos hin
  · -- `new_brk` wraps to an address above the heap, or it lies outside without that
    have hnew : newBrk mm.brk n ≠ mm.brk ∧ KeepsBrk mm (newBrk mm.brk n) := by
      rw [KeepsBrk, newBrk]
      omega
    have hnext : nextBrk mm (newBrk mm.brk n) = mm.brk := if_pos hnew.2
    rw [hnext, sbrkReturn, if_pos hnew.1.symm, sbrkLaw]
    exact if_neg hin

/-- The first call, and a call with increment 0. -/
theorem sbrk_first (hl : Layout mm) : nextBrk mm 0 = mm.brk ∧
    sbrkLaw (breakOf mm) 0 = (mm.brk, breakOf mm) := by
  have hge := hl.brk_ge
  have hle := hl.brk_le
  refine ⟨if_pos (Or.inl rfl), ?_⟩
  have hin : (mm.startBrk : Int) ≤ mm.brk + 0 ∧ (mm.brk : Int) + 0 ≤ maxBrkAddr := by omega
  rw [sbrkLaw]
  refine (if_pos hin).trans ?_
  simp [breakOf]

/-! ## Whole runs -/

/-- A call that takes pages away from the heap finds its vma. -/
def Ready (mm : MmStruct) : Prop := findVma mm.mmap mm.startBrk ≠ none ∨ mm.brk = mm.startBrk

theorem Ready.finds (h : Ready mm) (hl : Layout mm) (hs : Shrinks mm addr) :
    findVma mm.mmap mm.startBrk ≠ none := by
  refine h.resolve_right fun hbrk => ?_
  obtain ⟨hkeeps, hlt⟩ := hs
  simp only [KeepsBrk] at hkeeps
  obtain ⟨-, hge, -, -⟩ := upperPageAddr_spec (show addr ≤ maxBrkAddr by omega)
  obtain ⟨-, -, hbelow, -⟩ := upperPageAddr_spec hl.brk_le
  obtain ⟨hdvd, -, -, -⟩ := upperPageAddr_spec hl.brk_le
  have hstart := hl.brk_dvd
  simp only [pageSize] at *
  omega

theorem Ready.congr (hs : SameRanges mm mm') (h : Ready mm) : Ready mm' := by
  rcases h with hfind | hbrk
  · refine Or.inl fun hnone => hfind ?_
    rw [findVma_none_iff, hs.start] at hnone
    rw [findVma_none_iff]
    exact fun r hr => hnone r (hs.ranges.mem_iff.2 hr)
  · exact Or.inr (by rw [hs.start, hs.brk, hbrk])

/-- After a query there is a vma for the heap, unless it is empty. -/
theorem ready_of_query {heap : κ} (hl : Layout mm) (hset : BrkSet H heap 0 mm mm')
    (hmem : (H.kmalloc heap sizeofVmArea).1 ≠ 0) : Ready mm' := by
  have hquery := (sbrk_first hl).1
  have hge := hl.brk_ge
  have hstart := hset.start
  have hbrk := hset.brk
  -- the range of the heap ends at the break
  have hin : ∀ r ∈ ranges mm'.mmap, r.1 ≤ mm.startBrk → r.2 = mm.brk → Ready mm' := by
    intro r hr hle hend
    by_cases hempty : mm.brk = mm.startBrk
    · exact Or.inr (by rw [hstart, hbrk, hquery, hempty])
    · refine Or.inl fun hnone => ?_
      have := findVma_none_iff.1 hnone r hr
      omega
  cases hset with
  | noMemory _ _ hself _ _ _ => exact absurd hself hmem
  | made _ _ _ _ _ hranges => exact hin (mm.startBrk, nextBrk mm 0) (by rw [hranges]; simp) (Nat.le_refl _) hquery
  | moved l₁ l₂ r _ hcov _ _ hranges => exact hin (r.1, nextBrk mm 0) (by rw [hranges]; simp) hcov.1 hquery

/-- `kmalloc` has memory for a vma whenever `sys_brk` is called. -/
def HeapMemory (H : KernelHeap κ) (p : ProcState κ) : ProcAction κ → Prop
  | .other _ => True
  | _ => (H.kmalloc p.kernel.vm.heap sizeofVmArea).1 ≠ 0

instance (p : ProcState κ) : (a : ProcAction κ) → Decidable (HeapMemory H p a)
  | .call _ _ => inferInstanceAs (Decidable (_ ≠ _))
  | .resume _ => inferInstanceAs (Decidable (_ ≠ _))
  | .other _ => isTrue trivial

/-- The calls of the process have returned what the integers say, starting from the heap `b`, and `mm`
has the break that they say. -/
structure ProcOk (img : KernelImage) (u : UserImage) (i : Nat) (b : Break) (p : ProcState κ)
    (mm : MmStruct) : Prop where
  invariant : Invariant img u p.kernel
  runs : UserRuns p.kernel i
  space : (p.kernel.tasks i).mm = some mm
  law : outputs sbrkLaw b (p.returned.map Prod.fst) = (p.returned.map Prod.snd, breakOf mm)
  pending : ∀ n old, p.pending = some (n, old) → old = mm.brk ∧ IsIntptr n ∧ Ready mm

theorem procStep_ok {b : Break} {a : ProcAction κ} (h : ProcOk img u i b p mm)
    (hmem : HeapMemory H p a) (ha : procStep H img u i p a = some p') :
    ∃ mm', ProcOk img u i b p' mm' := by
  cases a with
  | call regs n =>
      rw [procStep] at ha
      by_cases hcond : p.pending = none ∧ IsIntptr n
      swap
      · rw [if_neg hcond] at ha
        cases ha
      rw [if_pos hcond] at ha
      obtain ⟨⟨old, s⟩, hcall, rfl⟩ := Option.map_eq_some_iff.1 ha
      obtain ⟨hl, hi, mm', hb⟩ := sysBrkCall_returns h.invariant h.space hcall
      obtain ⟨hquery, hzero⟩ := sbrk_first hl
      have hbreak : breakOf mm' = breakOf mm := by
        rw [breakOf, hb.set.start, hb.set.brk, hquery, breakOf]
      have hold : old = mm.brk := hb.result.trans hquery
      refine ⟨mm', ?_⟩
      dsimp only
      by_cases hn : n = 0
      · rw [if_pos hn]
        refine ⟨hi, hb.runs, hb.space, ?_, fun _ _ hno => by cases hno⟩
        simp only [List.map_append, List.map_cons, List.map_nil, outputs_concat, h.law, hn, hzero, hold,
          hbreak]
      · rw [if_neg hn]
        refine ⟨hi, hb.runs, hb.space, h.law.trans (by rw [hbreak]), ?_⟩
        intro n' old' hpair
        cases hpair
        refine ⟨?_, hcond.2, ready_of_query hl hb.set hmem⟩
        rw [hold, hb.set.brk, hquery]
  | resume regs =>
      obtain ⟨⟨n, old⟩, hpending, ha⟩ := Option.bind_eq_some_iff.1 ha
      obtain ⟨⟨ret, s⟩, hcall, rfl⟩ := Option.map_eq_some_iff.1 ha
      obtain ⟨rfl, hint, -⟩ := h.pending n old hpending
      obtain ⟨hl, hi, mm', hb⟩ := sysBrkCall_returns h.invariant h.space hcall
      refine ⟨mm', hi, hb.runs, hb.space, ?_, fun _ _ hno => by cases hno⟩
      have hbreak : breakOf mm' =
          { start := mm.startBrk, brk := nextBrk mm (newBrk mm.brk n) } := by
        rw [breakOf, hb.set.start, hb.set.brk]
      have hlaw := sbrk_second hl hint
      simp only [List.map_append, List.map_cons, List.map_nil, outputs_concat, h.law, hlaw, hb.result,
        hbreak]
  | other a =>
      rw [procStep] at ha
      split_ifs at ha with hbrk
      obtain ⟨s, hstep, ha⟩ := Option.bind_eq_some_iff.1 ha
      split_ifs at ha with hruns
      obtain rfl := Option.some.inj ha
      have hi := step_invariant h.invariant hstep
      obtain ⟨mm', hmm', -⟩ := (hi.tasks i).process hruns.1 hruns.2
      cases step_origin h.invariant hstep hruns hmm' with
      | same j mm₀ _ hmm₀ hself hsame =>
          -- the process has the vmas it had
          obtain rfl := hself h.runs
          rw [h.space] at hmm₀
          obtain rfl := Option.some.inj hmm₀
          have hbreak : breakOf mm' = breakOf mm := by rw [breakOf, hsame.start, hsame.brk, breakOf]
          refine ⟨mm', hi, hruns, hmm', h.law.trans (by rw [hbreak]), fun n old hpending => ?_⟩
          obtain ⟨hold, hint, hready⟩ := h.pending n old hpending
          exact ⟨hold.trans hsame.brk.symm, hint, hready.congr hsame⟩
      | fresh ha =>
          -- a process with a page table does not run `user_test`
          obtain ⟨henabled, -⟩ := step_eq hstep
          rw [ha] at henabled
          exact absurd henabled.2.1 h.runs.2
      | brk regs addr mm₀ ha =>
          rw [ha] at hbrk
          exact absurd rfl hbrk

/-- The state but for the saved registers is the same, but for a vma for the heap that there was not. -/
structure OnlyVma (i regs : Nat) (s s' : KernelState κ) : Prop where
  mem : ∀ x, ¬(regs ≤ x ∧ x < regs + 8) → s'.vm.mem x = s.vm.mem x
  usage : s'.vm.pagesUsage = s.vm.pagesUsage
  others : ∀ k, k ≠ i → s'.tasks k = s.tasks k
  user : s'.userTask = s.userTask
  task : ∀ mm, (s.tasks i).mm = some mm → ∃ mmap,
    s'.tasks i = { s.tasks i with mm := some { mm with mmap := mmap } } ∧ mm.mmap <:+ mmap ∧
      (findVma mm.mmap mm.startBrk ≠ none → mmap = mm.mmap ∧ s'.vm.heap = s.vm.heap) ∧
      (findVma mm.mmap mm.startBrk = none → mm.brk ≠ mm.startBrk → ∃ vma, mmap = vma :: mm.mmap ∧
        vma.vmStart = mm.startBrk ∧ vma.vmEnd = mm.brk ∧ vma.lma = noLma)

/-- A change that leaves the vma as it is. -/
theorem updateVma_same {f : VmArea → VmArea} {mmap : List VmArea}
    (hf : ∀ x, findVma mmap addr = some x → f x = x) : updateVma addr f mmap = mmap := by
  cases hfind : findVma mmap addr with
  | none => exact updateVma_of_none hfind f
  | some x =>
      obtain ⟨-, l₁, l₂, hsplit, -, hupdate⟩ := findVma_split hfind
      rw [hupdate, hf x hfind, ← hsplit]

/-- The end of `sys_brk` when the break has not been set. -/
theorem brkOut_query {vm vm' : VmState κ} (hl : Layout mm) (hmem : (H.kmalloc vm.heap sizeofVmArea).1 ≠ 0)
    (hout : brkOut H mm vm = (mm', vm')) :
    vm'.mem = vm.mem ∧ vm'.pagesUsage = vm.pagesUsage ∧ ∃ mmap, mm' = { mm with mmap := mmap } ∧
      mm.mmap <:+ mmap ∧
      (findVma mm.mmap mm.startBrk ≠ none → mmap = mm.mmap ∧ vm'.heap = vm.heap) ∧
      (findVma mm.mmap mm.startBrk = none → ∃ vma, mmap = vma :: mm.mmap ∧
        vma.vmStart = mm.startBrk ∧ vma.vmEnd = mm.brk ∧ vma.lma = noLma) := by
  cases hfind : findVma mm.mmap mm.startBrk with
  | none =>
      rcases hcall : H.kmalloc vm.heap sizeofVmArea with ⟨self, heap'⟩
      rw [hcall] at hmem
      simp only [brkOut, hfind, setupVma, hcall, if_neg hmem, Prod.mk.injEq] at hout
      obtain ⟨rfl, rfl⟩ := hout
      exact ⟨rfl, rfl, _, rfl, List.suffix_cons _ _, fun hno => absurd rfl hno,
        fun _ => ⟨_, rfl, rfl, rfl, rfl⟩⟩
  | some x =>
      -- the vma ends at the break already
      have hsame : updateVma mm.startBrk (fun vma => { vma with vmEnd := mm.brk }) mm.mmap = mm.mmap := by
        refine updateVma_same fun y hy => ?_
        obtain ⟨hmem, hcov⟩ := findVma_mem hy
        rw [← ((hl.vma y hmem).heap (Nat.le_refl _) hl.brk_lt hcov).2.2]
      simp only [brkOut, hfind, hsame, Prod.mk.injEq] at hout
      obtain ⟨rfl, rfl⟩ := hout
      exact ⟨rfl, rfl, _, rfl, List.suffix_refl _, fun _ => ⟨rfl, rfl⟩, fun hno => by cases hno⟩

/-- A query leaves everything as it is, but for the vma. -/
theorem query_onlyVma (h : Invariant img u s) (hmem : (H.kmalloc s.vm.heap sizeofVmArea).1 ≠ 0)
    (hstep : step H img u s (.brk i regs 0) = some s') : OnlyVma i regs s s' := by
  obtain ⟨henabled, hexec⟩ := step_eq hstep
  obtain ⟨mm, mm', vm₁, vm', hb⟩ := brk_cases h henabled.1 henabled.2.1 henabled.2.2 hexec
  have hrun := hb.run
  rw [sysBrk, if_pos (Or.inl rfl)] at hrun
  rw [← hb.heap] at hmem
  obtain ⟨hsame, husage, mmap, hmm', hsuffix, hsome, hnone⟩ :=
    brkOut_query hb.process.space.layout hmem (Except.ok.inj hrun)
  refine ⟨fun x hx => ?_, ?_, fun k hk => ?_, ?_, fun mm₀ hmm₀ => ?_⟩
  · rw [hb.stored, store_same hx, hsame, hb.loaded, store_same hx]
  · rw [hb.usage', husage, hb.usage]
  · rw [hb.tasks, Function.update_of_ne hk]
  · exact hb.user
  · rw [hb.space] at hmm₀
    obtain rfl := Option.some.inj hmm₀
    refine ⟨mmap, ?_, hsuffix, fun hfind => ⟨(hsome hfind).1, ?_⟩, fun hfind _ => hnone hfind⟩
    · rw [hb.tasks, Function.update_self, hmm']
    · rw [hb.heap', (hsome hfind).2, hb.heap]

/-- What holds of a process after some calls of `sbrk`. -/
structure SbrkLaw (H : KernelHeap κ) (img : KernelImage) (u : UserImage) (i : Nat) (b : Break)
    (p : ProcState κ) (mm : MmStruct) : Prop where
  space : (p.kernel.tasks i).mm = some mm
  start : mm.startBrk = b.start
  /-- The results of the calls and the break are those of the integers. -/
  law : outputs sbrkLaw b (p.returned.map Prod.fst) = (p.returned.map Prod.snd, breakOf mm)
  /-- Every call returns. -/
  returns : ∀ regs, RegsOk p.kernel i regs → (H.kmalloc p.kernel.vm.heap sizeofVmArea).1 ≠ 0 →
    (p.pending = none → ∀ n, IsIntptr n → (procStep H img u i p (.call regs n)).isSome = true) ∧
      (p.pending ≠ none → (procStep H img u i p (.resume regs)).isSome = true)
  query : ∀ regs p', (H.kmalloc p.kernel.vm.heap sizeofVmArea).1 ≠ 0 →
    procStep H img u i p (.call regs 0) = some p' → OnlyVma i regs p.kernel p'.kernel

theorem sbrkLaw_start (b : Break) (n : Int) : (sbrkLaw b n).2.start = b.start := by
  rw [sbrkLaw]
  split_ifs <;> rfl

theorem outputs_start (b : Break) (ns : List Int) : (outputs sbrkLaw b ns).2.start = b.start := by
  induction ns generalizing b with
  | nil => rfl
  | cons n ns ih => rw [outputs, ih, sbrkLaw_start]

theorem newBrk_lt (oldBrk : Nat) (n : Int) : newBrk oldBrk n < 2 ^ 64 := by
  rw [newBrk]
  omega

theorem ProcOk.sbrkLaw {b : Break} (h : ProcOk img u i b p mm) : SbrkLaw H img u i b p mm := by
  have hp := (h.invariant.tasks i).process_of h.runs.1 h.runs.2 h.space
  have hl := hp.space.layout
  refine ⟨h.space, ?_, h.law, fun regs hregs hmem => ⟨fun hpending n hint => ?_, fun hpending => ?_⟩,
    fun regs p' hmem hstep => ?_⟩
  · have := outputs_start b (p.returned.map Prod.fst)
    rw [h.law] at this
    exact this
  · -- a query does not take anything away
    have hcall := sysBrkCall_isSome (H := H) (u := u) h.invariant h.runs hregs (show 0 < 2 ^ 64 by decide)
      h.space fun hs => absurd (Or.inl rfl) hs.1
    rw [procStep, if_pos ⟨hpending, hint⟩, Option.isSome_map]
    exact hcall
  · obtain ⟨⟨n, old⟩, hpair⟩ := Option.ne_none_iff_exists'.1 hpending
    obtain ⟨-, -, hready⟩ := h.pending n old hpair
    have hcall := sysBrkCall_isSome (H := H) (u := u) h.invariant h.runs hregs (newBrk_lt old n) h.space
      fun hs => hready.finds hl hs
    rw [procStep, hpair, Option.bind_some, Option.isSome_map]
    exact hcall
  · rw [procStep] at hstep
    by_cases hcond : p.pending = none ∧ IsIntptr 0
    swap
    · rw [if_neg hcond] at hstep
      cases hstep
    rw [if_pos hcond] at hstep
    obtain ⟨⟨old, s⟩, hcall, rfl⟩ := Option.map_eq_some_iff.1 hstep
    obtain ⟨t, hrun, hpair⟩ := Option.map_eq_some_iff.1 hcall
    obtain ⟨rfl, rfl⟩ := Prod.mk.inj hpair
    exact query_onlyVma h.invariant hmem hrun

/-- As long as there is memory for a vma, the calls of `sbrk` of a process return what the integers
say, and set the break to what they say. -/
theorem sbrkRun_law {as : List (ProcAction κ)} (h : Reachable H img u s) (hruns : UserRuns s i)
    (hmm : (s.tasks i).mm = some mm)
    (hmem : Along (procStep H img u i) (HeapMemory H) (.start s) as)
    (hrun : runFrom (procStep H img u i) (.start s) as = some p) :
    ∃ mm', SbrkLaw H img u i (breakOf mm) p mm' := by
  have hstart : ∃ mm', ProcOk img u i (breakOf mm) (.start s) mm' :=
    ⟨mm, h.invariant, hruns, hmm, rfl, fun _ _ hno => by cases hno⟩
  obtain ⟨mm', hok⟩ := runFrom_invariant_along (I := fun p => ∃ mm', ProcOk img u i (breakOf mm) p mm')
    (fun _ _ _ ⟨_, hok⟩ hP ha => procStep_ok hok hP ha) hstart hmem hrun
  exact ⟨mm', hok.sbrkLaw⟩

end Call

/-- A process grows its heap, uses it, gives more back than it has, and asks for its break. -/
def sampleCalls : List (ProcAction (List Nat)) :=
  [ .call sampleRegs 0x3000, .resume sampleRegs, .other (.exception 0 0x0804E000),
    .call sampleRegs (-0x100000), .resume sampleRegs, .call sampleRegs (-0x3801), .resume sampleRegs,
    .call sampleRegs 0 ]

theorem sampleCalls_law : ∃ s p mm mm',
    runFrom (step sampleHeap sampleImage sampleUser) sampleBoot [.userTest 0] = some s ∧
      (s.tasks 0).mm = some mm ∧
      runFrom (procStep sampleHeap sampleImage sampleUser 0) (.start s) sampleCalls = some p ∧
      p.returned = [(0x3000, 0x0804C000), (-0x100000, failed), (-0x3801, 0x0804F000), (0, 0x0804B7FF)] ∧
      SbrkLaw sampleHeap sampleImage sampleUser 0 (breakOf mm) p mm' := by
  have hend : ((runFrom (step sampleHeap sampleImage sampleUser) sampleBoot [.userTest 0]).bind fun s =>
      (runFrom (procStep sampleHeap sampleImage sampleUser 0) (.start s) sampleCalls).map fun p =>
        (decide (UserRuns s 0), (s.tasks 0).mm.isSome,
          decide (Along (procStep sampleHeap sampleImage sampleUser 0) (HeapMemory sampleHeap) (.start s)
            sampleCalls), p.returned)) =
      some (true, true, true,
        [(0x3000, 0x0804C000), (-0x100000, failed), (-0x3801, 0x0804F000), (0, 0x0804B7FF)]) := by
    decide +kernel
  obtain ⟨s, hrun, hrest⟩ := Option.bind_eq_some_iff.1 hend
  obtain ⟨p, hcalls, hs⟩ := Option.map_eq_some_iff.1 hrest
  simp only [Prod.mk.injEq] at hs
  obtain ⟨hruns, hsome, hmem, hreturned⟩ := hs
  obtain ⟨mm, hmm⟩ := Option.isSome_iff_exists.1 hsome
  obtain ⟨mm', hlaw⟩ := sbrkRun_law ⟨sampleBoot, _, sampleBoot_boot, hrun⟩ (of_decide_eq_true hruns) hmm
    (of_decide_eq_true hmem) hcalls
  exact ⟨s, p, mm, mm', hrun, hmm, hcalls, hreturned, hlaw⟩

/-- The first query of a process sets up a vma. -/
theorem sampleQuery_changes : ∃ s p mm mm',
    runFrom (step sampleHeap sampleImage sampleUser) sampleBoot [.userTest 0] = some s ∧
      procStep sampleHeap sampleImage sampleUser 0 (.start s) (.call sampleRegs 0) = some p ∧
      (s.tasks 0).mm = some mm ∧ (p.kernel.tasks 0).mm = some mm' ∧
      mm'.mmap.length = mm.mmap.length + 1 := by
  have hend : ((runFrom (step sampleHeap sampleImage sampleUser) sampleBoot [.userTest 0]).bind fun s =>
      (procStep sampleHeap sampleImage sampleUser 0 (.start s) (.call sampleRegs 0)).bind fun p =>
        (s.tasks 0).mm.bind fun mm => (p.kernel.tasks 0).mm.map fun mm' =>
          decide (mm'.mmap.length = mm.mmap.length + 1)) = some true := by decide +kernel
  obtain ⟨s, hrun, hrest⟩ := Option.bind_eq_some_iff.1 hend
  obtain ⟨p, hstep, hrest⟩ := Option.bind_eq_some_iff.1 hrest
  obtain ⟨mm, hmm, hrest⟩ := Option.bind_eq_some_iff.1 hrest
  obtain ⟨mm', hmm', hlength⟩ := Option.map_eq_some_iff.1 hrest
  exact ⟨s, p, mm, mm', hrun, hstep, hmm, hmm', of_decide_eq_true hlength⟩

end Usr
end ToutOS
