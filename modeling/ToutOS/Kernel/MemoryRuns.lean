import ToutOS.Kernel.UserMemory

/-!
# MemoryRuns — what page tables are for

To the programs the kernel is a system in which everyone has a memory of its own: what one of them stores
stays until it stores something else there, gives the memory back or ends, whatever the others do.

* `Does` — the events that the actions are to the programs;
* `shows_memories`, `run_memories` — every run of the kernel is a run of memories;
* `reads_lastStore` — a program reads what it has stored last;
* `others_unseen` — a program cannot tell what other tasks do.
-/

namespace ToutOS
namespace Kernel

open Base Mm

variable {κ : Type} {H : KernelHeap κ} {img : KernelImage} {u : UserImage} {s s' : KernelState κ}
  {i j v a : Nat} {b : UInt8}

/-! ## The kernel as a system of memories -/

/-- What an action is to the programs. -/
inductive Does (u : UserImage) (s : KernelState κ) : Action κ → Event Nat Nat UInt8 → Prop
  | userTest (i : Nat) : Does u s (.userTest i) (.start i)
  | fork (i regs c : Nat) (hc : (s.tasks c).inUse = false) :
      Does u s (.fork i regs) (.copy i c {v | v < u.bssEnd})
  | forkFailed (i regs : Nat) : Does u s (.fork i regs) .idle
  | brk (i regs addr : Nat) (haddr : u.bssEnd ≤ addr ∧ addr ≤ maxBrkAddr) :
      Does u s (.brk i regs addr) (.drop i (heapFrom addr))
  | brkKept (i regs addr : Nat) (haddr : ¬(u.bssEnd ≤ addr ∧ addr ≤ maxBrkAddr)) :
      Does u s (.brk i regs addr) .idle
  | fault (i addr : Nat) (hvma : s.vmaOf i addr ≠ none) :
      Does u s (.exception i addr) (.grow i {v | pageAddr v = pageAddr addr})
  | killed (i addr : Nat) (hvma : s.vmaOf i addr = none) : Does u s (.exception i addr) (.stop i)
  | exit (i : Nat) : Does u s (.exit i) (.stop i)
  | userStore (i v : Nat) (b : UInt8) (hv : PrivateAddr u v) : Does u s (.userStore i v b) (.write i v b)
  | sharedStore (i v : Nat) (b : UInt8) (hv : ¬PrivateAddr u v) : Does u s (.userStore i v b) .idle
  | kmallocUse (heap : κ) : Does u s (.kmallocUse heap) .idle

/-- The memory of one program has changed. -/
theorem memories_update {σ σ' : Memories Nat Nat UInt8} {f : Nat → Option UInt8}
    (hi : σ' i = f) (hothers : ∀ k, k ≠ i → σ' k = σ k) : σ' = Function.update σ i f := by
  funext k
  by_cases hk : k = i
  · subst hk
    rw [Function.update_self, hi]
  · rw [Function.update_of_ne hk, hothers k hk]

theorem memories_same {σ σ' : Memories Nat Nat UInt8} (hi : σ' i = σ i)
    (hothers : ∀ k, k ≠ i → σ' k = σ k) : σ' = σ :=
  (memories_update hi hothers).trans (Function.update_eq_self i σ)

section Step

variable {regs addr : Nat}

theorem exit_memories (h : Invariant img u s) (hlive : (s.tasks i).live = true)
    (hexit : doExit H i s = .ok s') :
    (Event.stop (α := Nat) (β := UInt8) i).Moves (s.userMem u) (s'.userMem u) := by
  obtain ⟨hstep, hno⟩ := not_userRuns_of_exit h hlive hexit
  refine memories_update (userMem_of_not_runs hno) fun k hk => ?_
  exact hstep.userMem_other h hk fun _ x _ => by rw [doExit_mem hexit]

theorem fork_memories (h : Invariant img u s) (hstep : step H img u s (.fork i regs) = some s') :
    ∃ e, Does u s (.fork i regs) e ∧ e.Moves (s.userMem u) (s'.userMem u) := by
  have himage : ∀ x, InImage (pageOf x) → s'.vm.mem x = s.vm.mem x := fun x =>
    step_image h hstep (by simp) (by simp)
  obtain ⟨⟨hruns, hregs⟩, hexec⟩ := step_eq hstep
  rcases fork_cases h hruns hregs hexec with ⟨slot, hf⟩ | ⟨c, d, parent, cm, hmm, hf⟩
  · refine ⟨.idle, .forkFailed i regs, memories_same (i := i) ?_ fun k hk => ?_⟩
    · have hundone := hf.undone h hruns hregs
      have htask := hundone.parent
      refine userMem_congr hruns (by rwa [UserRuns, htask]) (fun v => ?_) fun v a _ ha => ?_
      · rw [htask]
        exact hundone.frames v
      · exact forkWrites_page h hruns hregs hf.mem (fun c hc => by
          have := (hf.slots.taken c hc).1.2.1
          omega) ha (mem_inPage a v)
    · exact (StepOf.forkFailed h hruns.1 hregs hf).userMem_other h hk fun _ => himage
  · have hunused := (hf.slots.taken c rfl).2
    refine ⟨_, .fork i regs c hunused, userMem_of_not_runs fun hno => ?_,
      memories_update (hf.userMem h hruns hregs hmm) fun k hk => ?_⟩
    · rw [(TaskStruct.live_iff.1 hno.1).1] at hunused
      cases hunused
    · exact (StepOf.forked h hruns hregs hmm hf).userMem_other h hk fun _ => himage

theorem brk_memories (h : Invariant img u s) (hstep : step H img u s (.brk i regs addr) = some s') :
    ∃ e, Does u s (.brk i regs addr) e ∧ e.Moves (s.userMem u) (s'.userMem u) := by
  have himage : ∀ x, InImage (pageOf x) → s'.vm.mem x = s.vm.mem x := fun x =>
    step_image h hstep (by simp) (by simp)
  obtain ⟨⟨hruns, hregs, haddr⟩, hexec⟩ := step_eq hstep
  obtain ⟨mm, mm', vm₁, vm', hr⟩ := brk_cases h hruns hregs haddr hexec
  have hp := (h.tasks i).process_of hruns.1 hruns.2 hr.space
  have hmine := hr.userMem h hruns himage
  have hof := step_stepOf h hstep rfl (by simp)
  have hothers : ∀ k, k ≠ i → s'.userMem u k = s.userMem u k := fun k hk =>
    hof.userMem_other h hk fun _ => himage
  have hpos := hp.space.layout.brk_pos
  by_cases hin : u.bssEnd ≤ addr ∧ addr ≤ maxBrkAddr
  · have hmoves : ¬KeepsBrk mm addr := by
      rw [← hp.vmas.start] at hin
      rw [KeepsBrk]
      omega
    rw [if_neg hmoves] at hmine
    exact ⟨_, .brk i regs addr hin, memories_update hmine hothers⟩
  · have hkeeps : KeepsBrk mm addr := by
      rw [← hp.vmas.start] at hin
      rw [KeepsBrk]
      omega
    rw [if_pos hkeeps] at hmine
    exact ⟨.idle, .brkKept i regs addr hin, memories_same hmine hothers⟩

theorem exception_memories (h : Invariant img u s)
    (hstep : step H img u s (.exception i addr) = some s') :
    ∃ e, Does u s (.exception i addr) e ∧ e.Moves (s.userMem u) (s'.userMem u) := by
  have himage : ∀ x, InImage (pageOf x) → s'.vm.mem x = s.vm.mem x := fun x =>
    step_image h hstep (by simp) (by simp)
  obtain ⟨⟨hruns, -⟩, hexec⟩ := step_eq hstep
  obtain ⟨mm, hmm, -⟩ := (h.tasks i).process hruns.1 hruns.2
  by_cases hvma : findVma mm.mmap addr = none
  · -- there is nothing at the address
    have hexit : doExit H i s = .ok s' := by
      rw [← show exec H img u s (.exception i addr) = doExit H i s by
        simp only [exec, doEl0Sync, hmm, hvma, if_true], hexec]
    refine ⟨.stop i, .killed i addr ?_, exit_memories h hruns.1 hexit⟩
    rw [KernelState.vmaOf, hmm, Option.bind_some, hvma]
  have hof := step_stepOf h hstep rfl (by simp)
  refine ⟨_, .fault i addr ?_, s'.userMem u i, ?_⟩
  · rwa [KernelState.vmaOf, hmm, Option.bind_some]
  have hmine : (∀ v b, s.userMem u i v = some b → s'.userMem u i v = some b) ∧
      ∀ v, pageAddr v ≠ pageAddr addr → s'.userMem u i v = s.userMem u i v := by
    rcases exception_cases h hruns hexec with hexit | ⟨mm₁, vma, hmm₁, -, rfl | ⟨k, mmap', vm', T', rfl, hf⟩⟩
    · -- a task that has exited would have been stopped
      obtain ⟨t, hexit', -, htask⟩ := exit_step (H := H) h hruns.1
      rw [hexit] at hexit'
      obtain rfl := Except.ok.inj hexit'
      have hrest : (handleFault H (s.tasks i).pgDir addr mm s.vm).map (setMm s i) = .ok s' := by
        rw [← hexec]
        simp only [exec, doEl0Sync, hmm, if_neg hvma]
      obtain ⟨r, -, heq⟩ := except_map_eq_ok.1 hrest
      rw [← heq, setMm_self] at htask
      have hstate := congrArg TaskStruct.state htask
      exact absurd hstate (TaskStruct.live_iff.1 hruns.1).2
    · have hsame : (setMm s i (mm₁, s.vm)).userMem u i = s.userMem u i := by
        refine userMem_congr hruns ?_ (fun v => ?_) fun _ _ _ _ => rfl
        · rw [UserRuns, setMm_self]
          exact hruns
        · rw [setMm_self]
          rfl
      exact ⟨fun v b hb => hsame ▸ hb, fun v _ => by rw [hsame]⟩
    · exact hf.userMem h hruns hmm₁ himage
  exact ⟨hmine.1, fun v hv => hmine.2 v hv,
    memories_update rfl fun k hk => hof.userMem_other h hk fun _ => himage⟩

/-- The steps of the kernel are events of memories. -/
theorem shows_memories : Shows (step H img u) (KernelState.userMem u) (Does u)
    fun s => Invariant img u s ∧ AllPlaced u s := by
  rintro s act s' ⟨h, hP⟩ hstep
  refine ⟨⟨step_invariant h hstep, step_placed h hP hstep⟩, ?_⟩
  obtain ⟨henabled, hexec⟩ := step_eq hstep
  cases act with
  | userTest i =>
      obtain ⟨hlive, hdir, huser⟩ := henabled
      have hof := step_stepOf h hstep rfl (by simp)
      -- the image is loaded once, so that no other program has pages of it
      refine ⟨.start i, .userTest i, userMem_of_not_runs fun hruns => hruns.2 hdir, s'.userMem u i,
        memories_update rfl fun k hk => hof.userMem_other h hk fun hno => ?_⟩
      rw [huser] at hno
      cases hno
  | fork i regs => exact fork_memories h hstep
  | brk i regs addr => exact brk_memories h hstep
  | exception i addr => exact exception_memories h hstep
  | exit i => exact ⟨.stop i, .exit i, exit_memories h henabled hexec⟩
  | userStore i v b =>
      obtain ⟨hruns, hv, hmapped⟩ := henabled
      obtain ⟨a, ha⟩ := Option.isSome_iff_exists.1 hmapped
      have hafter := userStore_userMem h hP hruns hv ha b
      have hs' : s.withMem (Function.update s.vm.mem (va a + v % pageSize) b) = s' := by
        have heq := Except.ok.inj hexec
        rwa [userByteAddr, ha, Option.getD_some] at heq
      rw [hs'] at hafter
      by_cases hprivate : PrivateAddr u v
      · rw [if_pos hprivate] at hafter
        refine ⟨_, .userStore i v b hprivate, ?_, hafter⟩
        rw [userMem_eq hruns hprivate, ha]
        rfl
      · rw [if_neg hprivate] at hafter
        exact ⟨_, .sharedStore i v b hprivate, hafter⟩
  | kmallocUse heap =>
      obtain rfl := Except.ok.inj hexec
      exact ⟨.idle, .kmallocUse heap, rfl⟩

end Step

/-! ## Runs -/

theorem Reachable.placed (h : Reachable H img u s) : AllPlaced u s := by
  obtain ⟨s₀, as, hboot, hrun⟩ := h
  have hstart : AllPlaced u s₀ := fun i hruns => absurd (hboot.pgDir i) hruns.2
  exact (runFrom_invariant (I := fun s => Invariant img u s ∧ AllPlaced u s)
    (fun _ _ _ hs ha => (shows_memories _ _ _ hs ha).1) ⟨boot_invariant hboot, hstart⟩ hrun).2

/-- What is seen of a run of the kernel, from the start, is a run of memories that nobody shares. -/
theorem run_memories {s₀ t : KernelState κ} {as : List (Action κ)} (hboot : Boot img s₀)
    (hrun : runFrom (step H img u) s₀ as = some t) :
    ∃ es, Matched (step H img u) (Does u) s₀ as es ∧ Events es (fun _ => nothing) (t.userMem u) := by
  have hstart : s₀.userMem u = fun _ => nothing := by
    funext i
    exact userMem_of_not_runs fun hruns => hruns.2 (hboot.pgDir i)
  rw [← hstart]
  exact runFrom_matched shows_memories
    ⟨boot_invariant hboot, fun i hruns => absurd (hboot.pgDir i) hruns.2⟩ hrun

theorem sampleRun_memories : ∃ t,
    runFrom (step sampleHeap sampleImage sampleUser) sampleBoot [.userTest 0, .fork 0 sampleRegs] = some t ∧
    ∃ es, Matched (step sampleHeap sampleImage sampleUser) (Does sampleUser) sampleBoot
        [.userTest 0, .fork 0 sampleRegs] es ∧ Events es (fun _ => nothing) (t.userMem sampleUser) :=
  runFrom_exists (by decide +kernel) fun _ ht => run_memories sampleBoot_boot ht

/-- The action neither stores to the byte at `v` of program `i` nor takes it away. -/
def LeavesByte (u : UserImage) (i v : Nat) (s : KernelState κ) : Action κ → Prop
  | .brk j _ addr => j ≠ i ∨ ¬(u.bssEnd ≤ addr ∧ addr ≤ maxBrkAddr) ∨
      ¬(upperPageAddr addr ≤ v ∧ v < maxBrkAddr)
  | .exception j addr => j ≠ i ∨ (s.vmaOf i addr).isSome = true
  | .exit j => j ≠ i
  | .userStore j w _ => j ≠ i ∨ w ≠ v
  | _ => True

instance (u : UserImage) (i v : Nat) (s : KernelState κ) : DecidablePred (LeavesByte u i v s)
  | .userTest _ => inferInstanceAs (Decidable True)
  | .fork _ _ => inferInstanceAs (Decidable True)
  | .brk _ _ _ => inferInstanceAs (Decidable (_ ∨ _ ∨ _))
  | .exception _ _ => inferInstanceAs (Decidable (_ ∨ _))
  | .exit _ => inferInstanceAs (Decidable (_ ≠ _))
  | .userStore _ _ _ => inferInstanceAs (Decidable (_ ∨ _))
  | .kmallocUse _ => inferInstanceAs (Decidable True)

theorem LeavesByte.leaves {act : Action κ} {e : Event Nat Nat UInt8} (h : LeavesByte u i v s act)
    (he : Does u s act e) : e.Leaves i v := by
  cases he with
  | brk j regs addr haddr => exact h.imp id fun h => h.resolve_left fun hno => hno haddr
  | killed j addr hvma =>
      rintro rfl
      rcases h with hne | hsome
      · exact hne rfl
      · rw [hvma] at hsome
        cases hsome
  | exit j => exact h
  | userStore j w b => exact h
  | userTest | fork | forkFailed | brkKept | fault | sharedStore | kmallocUse => trivial

/-- A program reads at an address what it has stored there last: the other programs may store, fork, end
and use the memory that is free as they like, and so may the program itself elsewhere. -/
theorem reads_lastStore {s₁ t : KernelState κ} {as : List (Action κ)} (h : Reachable H img u s)
    (hv : PrivateAddr u v) (hstore : step H img u s (.userStore i v b) = some s₁)
    (hleaves : Along (step H img u) (LeavesByte u i v) s₁ as)
    (hrun : runFrom (step H img u) s₁ as = some t) :
    UserRuns t i ∧ ∃ a, userFrame t.vm.mem (t.tasks i).pgDir v = some a ∧
      t.vm.mem (va a + v % pageSize) = b := by
  obtain ⟨hinv, e, he, hmoves⟩ := shows_memories s _ s₁ ⟨h.invariant, h.placed⟩ hstore
  have hwritten : s₁.userMem u i v = some b := by
    cases he with
    | userStore _ _ _ _ => exact hmoves.written
    | sharedStore _ _ _ hno => exact absurd hv hno
  have hread := runFrom_leaves shows_memories (fun _ _ _ _ hP he => LeavesByte.leaves hP he) hinv hwritten
    hleaves hrun
  obtain ⟨⟨hruns, -⟩, hbyte⟩ := userMem_eq_some.1 hread
  exact ⟨hruns, hbyte⟩

/-- A run, a store at its end, and another run. -/
def storeAfter (H : KernelHeap κ) (img : KernelImage) (u : UserImage) (s₀ : KernelState κ)
    (as : List (Action κ)) (i v : Nat) (b : UInt8) (bs : List (Action κ)) :
    Option (KernelState κ × KernelState κ × KernelState κ) :=
  (runFrom (step H img u) s₀ as).bind fun s =>
    (step H img u s (.userStore i v b)).bind fun s₁ =>
      (runFrom (step H img u) s₁ bs).map fun t => (s, s₁, t)

theorem storeAfter_eq {s₀ s₁ t : KernelState κ} {as bs : List (Action κ)}
    (h : storeAfter H img u s₀ as i v b bs = some (s, s₁, t)) :
    runFrom (step H img u) s₀ as = some s ∧ step H img u s (.userStore i v b) = some s₁ ∧
      runFrom (step H img u) s₁ bs = some t := by
  obtain ⟨s', hrun, hbind⟩ := Option.bind_eq_some_iff.1 h
  obtain ⟨s₁', hstore, hbind⟩ := Option.bind_eq_some_iff.1 hbind
  obtain ⟨t', hrest, heq⟩ := Option.map_eq_some_iff.1 hbind
  cases heq
  exact ⟨hrun, hstore, hrest⟩

/-- A child stores to the same address, before a byte of its parent is read. -/
def sampleMeanwhile : List (Action (List Nat)) := [.fork 0 sampleRegs, .userStore 1 0x08049010 9]

theorem sampleMeanwhile_leaves (s : KernelState (List Nat)) :
    ∀ act ∈ sampleMeanwhile, LeavesByte sampleUser 0 0x08049010 s act := by
  simp only [sampleMeanwhile, List.forall_mem_cons]
  exact ⟨trivial, .inl (by decide), List.forall_mem_nil _⟩

theorem sampleStored_read : ∃ r,
    storeAfter sampleHeap sampleImage sampleUser sampleBoot [.userTest 0] 0 0x08049010 7 sampleMeanwhile =
      some r ∧
    UserRuns r.2.2 0 ∧ ∃ a, userFrame r.2.2.vm.mem (r.2.2.tasks 0).pgDir 0x08049010 = some a ∧
      r.2.2.vm.mem (va a + 0x08049010 % pageSize) = 7 := by
  obtain ⟨r, hafter⟩ := Option.isSome_iff_exists.1 (show (storeAfter sampleHeap sampleImage sampleUser
    sampleBoot [.userTest 0] 0 0x08049010 7 sampleMeanwhile).isSome = true by decide +kernel)
  obtain ⟨hrun, hstore, hrest⟩ := storeAfter_eq hafter
  exact ⟨r, hafter, reads_lastStore ⟨sampleBoot, _, sampleBoot_boot, hrun⟩ (by decide) hstore
    (along_of_forall fun act hact s => sampleMeanwhile_leaves s act hact) hrest⟩

/-! ## The other programs -/

theorem StepOf.userRuns (hs : StepOf img u j s s') (hij : i ≠ j) (hruns : UserRuns s i) :
    UserRuns s' i := by
  rcases hs.others i hij with heq | ⟨-, hlive⟩
  · rwa [UserRuns, heq]
  · rw [hruns.1] at hlive
    cases hlive

/-- The actions of other tasks do not end a program. -/
theorem step_userRuns {act : Action κ} (h : Invariant img u s) (hact : step H img u s act = some s')
    (htask : act.task ≠ some i) (hruns : UserRuns s i) : UserRuns s' i := by
  have hne : ∀ {k}, act.task = some k → i ≠ k := by
    rintro k hk rfl
    exact htask hk
  cases act with
  | fork k regs =>
      obtain ⟨⟨hparent, hregs⟩, hexec⟩ := step_eq hact
      rcases fork_cases h hparent hregs hexec with ⟨slot, hf⟩ | ⟨c, d, parent, cm, hmm, hf⟩
      · exact (StepOf.forkFailed h hparent.1 hregs hf).userRuns (hne rfl) hruns
      · -- the slot of the child has not been in use
        refine (StepOf.forked h hparent hregs hmm hf).userRuns ?_ hruns
        rintro rfl
        have hunused := (hf.slots.taken i rfl).2
        rw [(TaskStruct.live_iff.1 hruns.1).1] at hunused
        cases hunused
  | userTest | brk | exception | exit | userStore =>
      exact (step_stepOf h hact rfl (by simp)).userRuns (hne rfl) hruns
  | kmallocUse heap =>
      obtain rfl := Except.ok.inj (step_eq hact).2
      exact hruns

/-- Nothing that other tasks do changes what a program sees. -/
theorem others_unseen {t : KernelState κ} {as : List (Action κ)} (h : Reachable H img u s)
    (hruns : UserRuns s i) (hothers : ∀ act ∈ as, act.task ≠ some i)
    (hrun : runFrom (step H img u) s as = some t) : UserRuns t i ∧ t.userMem u i = s.userMem u i := by
  have hstep : ∀ (s : KernelState κ) act s', (Invariant img u s ∧ UserRuns s i) → act.task ≠ some i →
      step H img u s act = some s' → Invariant img u s' ∧ UserRuns s' i := fun s act s' hs htask hact =>
    ⟨step_invariant hs.1 hact, step_userRuns hs.1 hact htask hs.2⟩
  have halong : Along (step H img u) (fun _ act => act.task ≠ some i) s as :=
    along_of_forall fun act hact _ => hothers act hact
  have hrunning : Along (step H img u) (fun s act => act.task ≠ some i ∧ UserRuns s i) s as :=
    along_mono_of_invariant (fun _ _ hs htask => ⟨htask, hs.2⟩) hstep ⟨h.invariant, hruns⟩ halong
  refine ⟨(runFrom_invariant_along hstep ⟨h.invariant, hruns⟩ halong hrun).2, ?_⟩
  refine runFrom_unseen shows_memories (fun s act e _ hP he => ?_) ⟨h.invariant, h.placed⟩ hrunning hrun
  obtain ⟨htask, hruns⟩ := hP
  cases he with
  | fork k regs c hc =>
      intro heq
      obtain rfl := Option.some.inj heq
      rw [(TaskStruct.live_iff.1 hruns.1).1] at hc
      cases hc
  | forkFailed | brkKept | sharedStore | kmallocUse => exact Option.some_ne_none i |>.symm
  | userTest k => exact htask
  | brk k regs addr => exact htask
  | fault k addr => exact htask
  | killed k addr => exact htask
  | exit k => exact htask
  | userStore k w c => exact htask

/-- The child of a program stores, and gets a page of stack. -/
def sampleOther : List (Action (List Nat)) := [.userStore 1 0x08049010 9, .exception 1 0x20000010]

theorem sampleOther_unseen : ∃ s t,
    runFrom (step sampleHeap sampleImage sampleUser) sampleBoot [.userTest 0, .fork 0 sampleRegs] = some s ∧
    runFrom (step sampleHeap sampleImage sampleUser) s sampleOther = some t ∧
    UserRuns t 0 ∧ t.userMem sampleUser 0 = s.userMem sampleUser 0 := by
  have hend : ((runFrom (step sampleHeap sampleImage sampleUser) sampleBoot
      [.userTest 0, .fork 0 sampleRegs]).bind fun s =>
      (runFrom (step sampleHeap sampleImage sampleUser) s sampleOther).map fun t => (s, t)).map
        (fun r => decide (UserRuns r.1 0)) = some true := by decide +kernel
  obtain ⟨⟨s, t⟩, hbind, hruns⟩ := Option.map_eq_some_iff.1 hend
  obtain ⟨s', hrun, hrest⟩ := Option.bind_eq_some_iff.1 hbind
  obtain ⟨t', hchild, heq⟩ := Option.map_eq_some_iff.1 hrest
  cases heq
  rw [decide_eq_true_eq] at hruns
  refine ⟨s, t, hrun, hchild, others_unseen ⟨sampleBoot, _, sampleBoot_boot, hrun⟩ hruns ?_ hchild⟩
  simp [sampleOther, Action.task]

end Kernel
end ToutOS
