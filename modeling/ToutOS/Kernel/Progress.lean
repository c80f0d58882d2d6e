import ToutOS.Kernel.Shortage

/-!
# Progress — returning from an exception

`do_el0_sync` maps a page for any exception at an address that has a vma, whatever its class is.

* `isSvc`, `doEl0SyncEsr` — the handler with its syndrome register;
* `leafEntry`, `MakesProgress` — the entry of the last level was zero and is filled when the handler
  returns to the user;
* `el0Sync_progress_iff` — it is so exactly if there was a page for an entry that was zero.
-/

namespace ToutOS
namespace Kernel

open Base Mm

variable {κ : Type} {H : KernelHeap κ} {img : KernelImage} {u : UserImage} {s s' : KernelState κ}
  {m : Mem} {d i v addr esr : Nat} {mm : MmStruct} {vm : VmState κ}

/-! ## The handler -/

/-- `get_ec_from_esr`. -/
def getEcFromEsr (esr : Nat) : Nat := esr / 2 ^ 26 % 2 ^ 6

/-- `is_svc`. -/
def isSvc (esr : Nat) : Bool := getEcFromEsr esr == 0x15

/-- `do_el0_sync` of task `i`; what it does for a system call is a parameter. -/
def doEl0SyncEsr (H : KernelHeap κ) (svc : KernelState κ → Except Halt (KernelState κ)) (i addr esr : Nat)
    (s : KernelState κ) : Except Halt (KernelState κ) :=
  if isSvc esr = true then svc s else doEl0Sync H i addr s

/-- The entry of the last level for `virtAddr`; zero as well if there is no table for it. -/
def leafEntry (m : Mem) (d virtAddr : Nat) : Nat := (leafPte true m d virtAddr).getD 0

/-- When the handler returns to the user, and the task has not been ended, it has filled the entry for
the address. -/
def MakesProgress (s : KernelState κ) (i addr : Nat) (result : Except Halt (KernelState κ)) : Prop :=
  ∀ s', result = .ok s' → (s'.tasks i).state ≠ .stopped →
    leafEntry s.vm.mem (physical true (s.tasks i).pgDir) addr = 0 ∧
      leafEntry s'.vm.mem (physical true (s'.tasks i).pgDir) addr ≠ 0

theorem leafEntry_eq_zero : leafEntry m d v = 0 ↔ lookup true m d v = none := by
  rw [leafEntry, lookup_eq_leafPte, Option.map_eq_none_iff]
  constructor
  · intro h
    cases hleaf : leafPte true m d v with
    | none => rfl
    | some e =>
        obtain ⟨-, -, hne, -⟩ := leafPte_eq_some.1 hleaf
        rw [hleaf] at h
        exact absurd h hne
  · intro h
    rw [h]
    rfl

/-- The tables on the way to a page that is mapped are there. -/
theorem missing_of_lookup (h : lookup true m d v ≠ none) : missing (hasTable m d) (tablePaths v) = 0 := by
  rw [lookup_eq_leafPte, ne_eq, Option.map_eq_none_iff] at h
  obtain ⟨e, he⟩ := Option.ne_none_iff_exists'.1 h
  obtain ⟨t, htable, -⟩ := leafPte_eq_some.1 he
  obtain ⟨n, hfirst, -⟩ := descend_two.1 htable
  have hthere : ∀ π ∈ tablePaths v, hasTable m d π = true := by
    intro π hπ
    simp only [tablePaths, Finset.mem_insert, Finset.mem_singleton] at hπ
    rcases hπ with rfl | rfl
    · exact hasTable_eq_true.2 ⟨by simp, n, by simp [descend, hfirst]⟩
    · exact hasTable_eq_true.2 ⟨by simp, t, htable⟩
  rw [missing, Finset.card_eq_zero, Finset.filter_eq_empty_iff]
  intro π hπ
  rw [hthere π hπ]
  exact Bool.noConfusion

/-! ## With a vma for the address -/

/-- The handler returns with the entry filled that was zero, or it does not return. -/
theorem handleFault_progress_iff (h : SpaceOk vm.mem d mm)
    (hused : ∀ a ∈ footprint vm.mem d mm.mmap, ¬FreeFrame vm.pagesUsage a)
    (hvma : findVma mm.mmap addr ≠ none) :
    (∀ mm' vm', handleFault H (linear true d) addr mm vm = .ok (mm', vm') →
      leafEntry vm.mem d addr = 0 ∧ leafEntry vm'.mem d addr ≠ 0) ↔
      (∃ k < maxNumPages, vm.pagesUsage k = false) ∧ leafEntry vm.mem d addr = 0 := by
  by_cases hpage : (getFreePages vm.pagesUsage 0).1 = 0
  · -- there is no page, and nothing changes
    have hrun : handleFault H (linear true d) addr mm vm = .ok (mm, vm) := by
      simp only [handleFault, hpage, if_true]
    have hempty : ∀ k < maxNumPages, vm.pagesUsage k = true := by
      rcases getFreePages_one_cases (Prod.mk.eta (p := getFreePages vm.pagesUsage 0)).symm with
        ⟨-, hcount⟩ | ⟨hne, -⟩
      · exact freeCount_eq_zero.1 hcount
      · exact absurd hpage hne
    constructor
    · intro hprogress
      obtain ⟨hzero, hne⟩ := hprogress mm vm hrun
      exact absurd hzero hne
    · rintro ⟨⟨k, hk, hfree⟩, -⟩
      rw [hempty k hk] at hfree
      cases hfree
  have hfree : ∃ k < maxNumPages, vm.pagesUsage k = false := by
    rcases hget : getFreePages vm.pagesUsage 0 with ⟨p, usage⟩
    rw [hget] at hpage
    obtain ⟨k, -, hk, hfree, -⟩ := getFreePages_one hget hpage
    exact ⟨k, hk, hfree⟩
  have hpages := handleFault_page (H := H) h hused hvma hpage
  constructor
  · intro hprogress
    refine ⟨hfree, ?_⟩
    rcases hpages with herr | ⟨k, mmap', vm', T', hok, -⟩
    · -- the assertion fails only if a table is missing
      obtain ⟨hpos, hle⟩ := (handleFault_short_iff h hused hvma).1 herr
      rw [leafEntry_eq_zero]
      by_contra hmapped
      rw [missing_of_lookup hmapped] at hle
      omega
    · exact (hprogress _ _ hok).1
  · rintro ⟨-, hzero⟩ mm' vm' hok
    rcases hpages with herr | ⟨k, mmap', vm₁, T', hok₁, hf⟩
    · rw [herr] at hok
      cases hok
    rw [hok₁] at hok
    obtain ⟨-, rfl⟩ := Prod.mk.inj (Except.ok.inj hok)
    have hlt : addr < 2 ^ 39 := by
      obtain ⟨vma, hfind⟩ := Option.ne_none_iff_exists'.1 hvma
      obtain ⟨hmem, hcov⟩ := findVma_mem hfind
      have hend := (h.layout.vma vma hmem).end_le
      have hcovp := VmArea.covers_iff.1 hcov
      omega
    refine ⟨hzero, fun hno => ?_⟩
    have hlookup := hf.lookup addr hlt
    rw [if_pos rfl, leafEntry_eq_zero.1 hno] at hlookup
    cases hlookup

/-! ## All exceptions -/

/-- For every exception from user mode that is not a system call, in every state that can be reached:
when the handler returns to the task, it has filled an entry that was zero, exactly if there is no vma
for the address, or there is a free page and the entry was zero before. -/
theorem el0Sync_progress_iff {svc : KernelState κ → Except Halt (KernelState κ)}
    (h : Reachable H img u s) (hruns : UserRuns s i) (hesr : isSvc esr = false) :
    MakesProgress s i addr (doEl0SyncEsr H svc i addr esr s) ↔
      s.vmaOf i addr = none ∨ ((∃ k < maxNumPages, s.vm.pagesUsage k = false) ∧
        leafEntry s.vm.mem (physical true (s.tasks i).pgDir) addr = 0) := by
  have hinv := h.invariant
  obtain ⟨hlive, hdir⟩ := hruns
  obtain ⟨mm, hmm, hp⟩ := (hinv.tasks i).process hlive hdir
  have hrun : doEl0SyncEsr H svc i addr esr s = if findVma mm.mmap addr = none then doExit H i s
      else (handleFault H (s.tasks i).pgDir addr mm s.vm).map (setMm s i) := by
    rw [doEl0SyncEsr, hesr, if_neg Bool.false_ne_true]
    simp only [doEl0Sync, hmm]
  rw [hrun, KernelState.vmaOf, hmm, Option.bind_some]
  by_cases hvma : findVma mm.mmap addr = none
  · -- the task exits
    obtain ⟨s', hexit, -, hi⟩ := exit_step (H := H) hinv hlive
    rw [if_pos hvma, hexit]
    refine iff_of_true (fun s₁ hok hstate => ?_) (Or.inl hvma)
    obtain rfl := Except.ok.inj hok
    rw [hi] at hstate
    exact absurd rfl hstate
  have hprogress := handleFault_progress_iff (H := H) hp.space (hinv.used hlive hdir hmm) hvma
  rw [linear_pgDir hp.dir_lt] at hprogress
  rw [if_neg hvma, or_iff_right hvma, ← hprogress]
  have hstate : (s.tasks i).state ≠ .stopped := (TaskStruct.live_iff.1 hlive).2
  constructor
  · intro hmakes mm' vm' hok
    have hentry := hmakes (setMm s i (mm', vm')) (by rw [hok, except_map_ok]) (by simpa [setMm] using hstate)
    simpa [setMm] using hentry
  · intro hall s' hok _
    obtain ⟨⟨mm', vm'⟩, hok', rfl⟩ := except_map_eq_ok.1 hok
    simpa [setMm] using hall mm' vm' hok'

/-- The exception class of a data abort from user mode. -/
theorem isSvc_dataAbort : isSvc (0x24 * 2 ^ 26) = false := by decide

/-- The first page of a stack. -/
theorem sampleFault_progress : ∃ s,
    runFrom (step sampleHeap sampleImage sampleUser) sampleBoot [.userTest 0] = some s ∧
      s.vmaOf 0 userStackStart ≠ none ∧ ∀ svc,
      MakesProgress s 0 userStackStart
        (doEl0SyncEsr sampleHeap svc 0 userStackStart (0x24 * 2 ^ 26) s) := by
  have hend : (runFrom (step sampleHeap sampleImage sampleUser) sampleBoot [.userTest 0]).map
      (fun s => (decide (UserRuns s 0), (s.vmaOf 0 userStackStart).isSome, s.vm.pagesUsage 100,
        leafEntry s.vm.mem (physical true (s.tasks 0).pgDir) userStackStart)) =
      some (true, true, false, 0) := by decide +kernel
  obtain ⟨s, hrun, hs⟩ := Option.map_eq_some_iff.1 hend
  simp only [Prod.mk.injEq, decide_eq_true_eq] at hs
  obtain ⟨hruns, hvma, hfree, hzero⟩ := hs
  refine ⟨s, hrun, Option.isSome_iff_ne_none.1 hvma, fun svc => ?_⟩
  exact (el0Sync_progress_iff ⟨sampleBoot, _, sampleBoot_boot, hrun⟩ hruns isSvc_dataAbort).2
    (Or.inr ⟨⟨100, by decide, hfree⟩, hzero⟩)

/-- An exception on a page of the stack that is mapped: the handler takes another page, and returns to the
task with the entry as it was. -/
theorem sampleFault_stuck : ∃ s s',
    runFrom (step sampleHeap sampleImage sampleUser) sampleBoot
        [.userTest 0, .exception 0 0x20000010] = some s ∧
      doEl0Sync sampleHeap 0 0x20000018 s = .ok s' ∧ (s'.tasks 0).state ≠ .stopped ∧
      (∃ k < maxNumPages, s.vm.pagesUsage k = false ∧ s'.vm.pagesUsage k = true) ∧
      leafEntry s'.vm.mem (physical true (s'.tasks 0).pgDir) 0x20000018 =
        leafEntry s.vm.mem (physical true (s.tasks 0).pgDir) 0x20000018 ∧
      ∀ svc, ¬MakesProgress s 0 0x20000018
        (doEl0SyncEsr sampleHeap svc 0 0x20000018 (0x24 * 2 ^ 26) s) := by
  have hend : (runFrom (step sampleHeap sampleImage sampleUser) sampleBoot
      [.userTest 0, .exception 0 0x20000010]).map (fun s =>
        (leafEntry s.vm.mem (physical true (s.tasks 0).pgDir) 0x20000018 == 0,
          match doEl0Sync sampleHeap 0 0x20000018 s with
          | .ok s' => decide ((s'.tasks 0).state ≠ .stopped) &&
              (List.range 10).any (fun k => !s.vm.pagesUsage k && s'.vm.pagesUsage k) &&
              leafEntry s'.vm.mem (physical true (s'.tasks 0).pgDir) 0x20000018 ==
                leafEntry s.vm.mem (physical true (s.tasks 0).pgDir) 0x20000018
          | .error _ => false)) = some (false, true) := by decide +kernel
  obtain ⟨s, hrun, hs⟩ := Option.map_eq_some_iff.1 hend
  obtain ⟨hmapped, hcall⟩ := Prod.mk.inj hs
  cases hok : doEl0Sync sampleHeap 0 0x20000018 s with
  | error e =>
      rw [hok] at hcall
      cases hcall
  | ok s' =>
      rw [hok] at hcall
      simp only [Bool.and_eq_true, decide_eq_true_eq, beq_iff_eq, List.any_eq_true, List.mem_range,
        Bool.not_eq_true'] at hcall
      obtain ⟨⟨hstate, k, hk, hfree, hused⟩, hsame⟩ := hcall
      have hk' : k < maxNumPages := Nat.lt_trans hk (by decide)
      refine ⟨s, s', hrun, hok, hstate, ⟨k, hk', hfree, hused⟩, hsame, fun svc hmakes => ?_⟩
      have hrun' : doEl0SyncEsr sampleHeap svc 0 0x20000018 (0x24 * 2 ^ 26) s = .ok s' := by
        rw [doEl0SyncEsr, isSvc_dataAbort, if_neg Bool.false_ne_true, hok]
      rw [(hmakes s' hrun' hstate).1] at hmapped
      cases hmapped

end Kernel
end ToutOS
