import ToutOS.Kernel.Smp

/-!
# Tlb — stale translations

A slot, its pid and its ASID are used again when its task has exited.  `get_task_slot` removes the
old translations with `TLBI ASIDE1`, which acts on the TLB of the CPU that executes it.

* `FreshTlb` — a task in user mode finds no translation of an earlier occupant of its slot.
* `ReapedHere` — a slot is cleared on the CPU to which it is bound, or that CPU has no translation of
  its task left.
* `smpRun_freshTlb` — `FreshTlb` holds in every run whose calls of `get_task_slot` meet this, as long as
  no swapper switches to a task that is gone.
-/

namespace ToutOS
namespace Kernel

open Base Mm

variable {N : Nat} {img : KernelImage} {s s' : Smp} {c i : Nat}

/-- No task in user mode finds a translation that an earlier occupant of its slot has left in the TLB
of its CPU. -/
def FreshTlb (s : Smp) : Prop :=
  ∀ c i, UserMode s c i → ∀ e ∈ (s.cpu c).tlb, e.asid = i + 1 → e.slot = i → e.occupant = s.occupant i

/-- Every slot that `get_task_slot` clears is cleared on its own CPU, or this CPU has left the task
and has no translation of it in its TLB. -/
def ReapedHere (N : Nat) (s : Smp) : SmpAction → Prop
  | .getTaskSlot c => ∀ i ∈ reapedSlots s.tasks, i % N = c ∨
      (s.cpu (i % N)).current ≠ some i ∧ ∀ e ∈ (s.cpu (i % N)).tlb, e.asid ≠ i + 1
  | _ => True

instance (N : Nat) (s : Smp) : (a : SmpAction) → Decidable (ReapedHere N s a)
  | .getTaskSlot c => inferInstanceAs (Decidable (∀ i ∈ reapedSlots s.tasks, i % N = c ∨
      (s.cpu (i % N)).current ≠ some i ∧ ∀ e ∈ (s.cpu (i % N)).tlb, e.asid ≠ i + 1))
  | .userAccess .. | .unmap .. | .userTest .. | .start .. | .freeTaskSlot _ | .doExit _ | .exitMm _
  | .storeStopped _ | .sched .. | .sleep _ | .wake _ | .tick .. | .compute .. => isTrue trivial

theorem mem_reapedSlots {tasks : TaskTable} : i ∈ reapedSlots tasks ↔ Reapable tasks i := by
  simp only [reapedSlots, List.mem_filter, List.mem_range, decide_eq_true_eq, and_iff_right_iff_imp]
  intro h
  have := h.1.2.1
  omega

/-! ## The invariant -/

/-- A translation under the ASID of the slot whose task has made it belongs to the present occupant of
the slot, and the slot to the CPU.  A task may run under the ASID of another one, when its swapper has
been interrupted between writing `TTBR0_EL1` and `cpu_switch_to`. -/
structure TlbInv (N : Nat) (s : Smp) : Prop where
  pid : ∀ i, (s.tasks i).inUse = true → (s.tasks i).pid = i + 1
  entries : ∀ c, ∀ e ∈ (s.cpu c).tlb, e.asid = e.slot + 1 → Runnable N s.tasks c e.slot ∧
    e.occupant = s.occupant e.slot

theorem smpInit_tlb (N : Nat) (mem : Mem) : TlbInv N (smpInit mem) :=
  ⟨fun _ h => Bool.noConfusion h, fun _ _ he => (List.not_mem_nil he).elim⟩

theorem TlbInv.freshTlb (h : TlbInv N s) : FreshTlb s := by
  intro c i _ e he hasid hslot
  subst hslot
  exact (h.entries c e he hasid).2

/-- A step that makes no translation, and under which the slots of those that stay remain. -/
theorem TlbInv.entries_of (h : TlbInv N s)
    (htlb : ∀ d e, e ∈ (s'.cpu d).tlb → e ∈ (s.cpu d).tlb)
    (hslot : ∀ d j, Runnable N s.tasks d j → (∃ e ∈ (s'.cpu d).tlb, e.asid = j + 1) →
      Runnable N s'.tasks d j ∧ s'.occupant j = s.occupant j) :
    ∀ d, ∀ e ∈ (s'.cpu d).tlb, e.asid = e.slot + 1 → Runnable N s'.tasks d e.slot ∧
      e.occupant = s'.occupant e.slot := by
  intro d e he hasid
  obtain ⟨hr, hocc⟩ := h.entries d e (htlb d e he) hasid
  obtain ⟨hr', hocc'⟩ := hslot d e.slot hr ⟨e, he, hasid⟩
  exact ⟨hr', by rw [hocc, hocc']⟩

/-- A change to a slot that keeps its pid. -/
theorem TlbInv.setTask (h : TlbInv N s) {f : TaskStruct → TaskStruct}
    (hinUse : (f (s.tasks i)).inUse = (s.tasks i).inUse)
    (hpid : (f (s.tasks i)).pid = (s.tasks i).pid)
    (hready : (s.tasks i).state ≠ .initializing → (f (s.tasks i)).state ≠ .initializing) :
    TlbInv N (s.setTask i f) := by
  have hself : (s.setTask i f).tasks i = f (s.tasks i) := Function.update_self ..
  have hother : ∀ j, j ≠ i → (s.setTask i f).tasks j = s.tasks j := fun j hj =>
    Function.update_of_ne hj ..
  refine ⟨fun j hj => ?_, h.entries_of (fun _ _ he => he) fun d j hr _ => ?_⟩
  · by_cases hji : j = i
    · subst hji
      rw [hself] at hj ⊢
      rw [hpid]
      exact h.pid j (hinUse ▸ hj)
    · rw [hother j hji] at hj ⊢
      exact h.pid j hj
  · refine ⟨⟨hr.lt, hr.pinned, ?_, ?_⟩, rfl⟩
    · by_cases hji : j = i
      · subst hji
        rw [hself, hinUse]
        exact hr.inUse
      · rw [hother j hji]
        exact hr.inUse
    · by_cases hji : j = i
      · subst hji
        rw [hself]
        exact hready hr.ready
      · rw [hother j hji]
        exact hr.ready

/-- A CPU goes on, with no new translation. -/
theorem TlbInv.setCpu (h : TlbInv N s) {f : Cpu → Cpu}
    (htlb : ∀ e ∈ (f (s.cpu c)).tlb, e ∈ (s.cpu c).tlb) : TlbInv N (s.setCpu c f) := by
  refine ⟨h.pid, h.entries_of (fun d e he => ?_) fun d j hr _ => ⟨hr, rfl⟩⟩
  by_cases hdc : d = c
  · subst hdc
    rw [show (s.setCpu d f).cpu d = f (s.cpu d) from Function.update_self ..] at he
    exact htlb e he
  · rwa [show (s.setCpu c f).cpu d = s.cpu d from Function.update_of_ne hdc ..] at he

/-! ## The other steps -/

/-- A user program makes a translation. -/
theorem TlbInv.userAccess (h : TlbInv N s) (hinv : SlotInv N s)
    (hcurrent : (s.cpu c).current = some i) (page frame : Nat) :
    TlbInv N (s.setCpu c fun cpu =>
      { cpu with
        tlb :=
          { asid := cpu.ttbr0.2, page := page, frame := frame, slot := i
            occupant := cpu.occupant } :: cpu.tlb }) := by
  obtain ⟨hr, -, hocc⟩ := (hinv.cpus c).current i hcurrent
  refine ⟨h.pid, fun d e he hasid => ?_⟩
  by_cases hdc : d = c
  · subst hdc
    simp only [Smp.setCpu, Function.update_self, List.mem_cons] at he
    rcases he with rfl | he
    · exact ⟨hr, hocc⟩
    · exact h.entries d e he hasid
  · simp only [Smp.setCpu, Function.update_of_ne hdc] at he
    exact h.entries d e he hasid

/-- The end of `sys_fork` or `kernel_thread`: nobody has run in the slot yet. -/
theorem TlbInv.forkEnd (h : TlbInv N s) (hinv : SlotInv N s) (hat : (s.cpu c).At (.fork i))
    {f : TaskStruct → TaskStruct}
    (hpid : (f (s.tasks i)).inUse = true → (f (s.tasks i)).pid = (s.tasks i).pid) :
    TlbInv N ((s.setTask i f).setCpu c fun cpu => cpu.setHere .run) := by
  obtain ⟨huse, hini⟩ := (hinv.cpus c).fork _ i hat.2
  have hself : (s.setTask i f).tasks i = f (s.tasks i) := Function.update_self ..
  have hother : ∀ j, j ≠ i → (s.setTask i f).tasks j = s.tasks j := fun j hj =>
    Function.update_of_ne hj ..
  have h' : TlbInv N (s.setTask i f) := by
    refine ⟨fun j hj => ?_, h.entries_of (fun _ _ he => he) fun d j hr _ => ?_⟩
    · by_cases hji : j = i
      · subst hji
        rw [hself] at hj ⊢
        rw [hpid hj]
        exact h.pid j huse
      · rw [hother j hji] at hj ⊢
        exact h.pid j hj
    · have hji : j ≠ i := by
        rintro rfl
        exact hr.ready hini
      exact ⟨⟨hr.lt, hr.pinned, by rw [hother j hji]; exact hr.inUse,
        by rw [hother j hji]; exact hr.ready⟩, rfl⟩
  exact h'.setCpu fun _ he => he

/-- The translations that survive `get_task_slot` on the CPU that executes it. -/
theorem mem_reapTlb {tasks : TaskTable} {tlb : List TlbEntry} {e : TlbEntry} :
    e ∈ reapTlb tasks tlb ↔ e ∈ tlb ∧ ∀ j, Reapable tasks j → e.asid ≠ (tasks j).pid := by
  have hfold : ∀ (js : List Nat) (tlb : List TlbEntry),
      e ∈ js.foldl (fun tlb i => invalidateTlbByAsid (tasks i).pid tlb) tlb ↔
        e ∈ tlb ∧ ∀ j ∈ js, e.asid ≠ (tasks j).pid := by
    intro js
    induction js with
    | nil => simp
    | cons j js ih =>
        intro tlb
        rw [List.foldl_cons, ih]
        simp only [invalidateTlbByAsid, List.mem_filter, decide_eq_true_eq, List.forall_mem_cons,
          and_assoc]
  simp only [reapTlb, hfold, mem_reapedSlots]

/-- `get_task_slot`. -/
theorem TlbInv.getTaskSlot (h : TlbInv N s) (hhere : ReapedHere N s (.getTaskSlot c)) :
    TlbInv N (smpGetTaskSlot img s c) := by
  obtain ⟨slot, tasks, mem, hslot, htasks, hocc, hcpu⟩ := smpGetTaskSlot_call img s c
  generalize smpGetTaskSlot img s c = s' at *
  have htlb : ∀ d e, e ∈ (s'.cpu d).tlb → e ∈ (s.cpu d).tlb ∧
      (d = c → ∀ j, Reapable s.tasks j → e.asid ≠ (s.tasks j).pid) := by
    intro d e he
    by_cases hdc : d = c
    · subst hdc
      rw [hcpu, Function.update_self] at he
      exact ⟨(mem_reapTlb.1 he).1, fun _ => (mem_reapTlb.1 he).2⟩
    · rw [hcpu, Function.update_of_ne hdc] at he
      exact ⟨he, fun hd => absurd hd hdc⟩
  refine ⟨fun j hj => ?_, h.entries_of (fun d e he => (htlb d e he).1) ?_⟩
  · rw [htasks] at hj ⊢
    by_cases hslotj : slot = some j
    · rw [(hslot.found j hslotj).2.2.1]
      rfl
    · by_cases hreap : Reapable s.tasks j
      · rw [hslot.reaped j hreap] at hj
        cases hj
      · rw [hslot.same j hslotj hreap] at hj ⊢
        exact h.pid j hj
  · rintro d j hr ⟨e, he, hasid⟩
    -- the slot of a translation that survives has not been cleared
    have hreap : ¬Reapable s.tasks j := by
      intro hre
      rcases hhere j (mem_reapedSlots.2 hre) with hc | ⟨-, hnone⟩
      · refine (htlb d e he).2 (hr.pinned.symm.trans hc) j hre ?_
        rw [hasid, h.pid j hr.inUse]
      · rw [hr.pinned] at hnone
        exact hnone e (htlb d e he).1 hasid
    have hk := hslot.kept htasks hocc hr.inUse hreap
    exact ⟨hk.runnable hr, hk.occupant⟩

/-- `schedule` makes no translation, and no slot changes but for the registers that are saved. -/
theorem TlbInv.sched (h : TlbInv N s) (c : Nat) (sched : SchedCpu) (e : SchedEvent) :
    TlbInv N (smpSched s c sched e) := by
  cases e with
  | schedule => exact h.setCpu (f := fun cpu => { cpu with toSchedCpu := sched }) fun _ he => he
  | getNextProc => exact h.setCpu (f := fun cpu => { cpu with toSchedCpu := sched }) fun _ he => he
  | writeTtbr0 =>
      refine h.setCpu (f := fun cpu => cpu.writeTtbr0 s.tasks sched) fun e he => ?_
      rw [Cpu.writeTtbr0] at he
      split_ifs at he
      · exact he
      · exact he
  | switchTo =>
      have hsave : TlbInv N (s.saveContext c) := by
        rw [Smp.saveContext]
        split
        · exact ⟨h.pid, h.entries⟩
        · exact h.setTask rfl rfl id
      exact hsave.setCpu (f := s.switchCpu c sched) fun _ he => he

/-! ## Runs -/

/-- The task of a slot that is cleared on its own CPU has left it. -/
theorem SlotInv.notLeaving (h : SlotInv N s) {a : SmpAction} (hs : smpStep N img s a = some s')
    (hhere : ReapedHere N s a) : NotLeaving N s a := by
  cases smpStep_move hs with
  | getTaskSlot hc hat =>
      intro d _ i hd hleaving hvisited
      obtain ⟨hr, hstop, -⟩ := (h.cpus d).current i hd
      have hreap : Reapable s.tasks i := ⟨hvisited, hr.inUse, hstop.2 hleaving⟩
      rcases hhere i (mem_reapedSlots.2 hreap) with hown | ⟨hne, -⟩
      · rw [← hr.pinned, hown, hat.2] at hleaving
        cases hleaving
      · rw [hr.pinned] at hne
        exact hne hd
  | _ => trivial

theorem TlbInv.step (h : TlbInv N s) (hinv : SlotInv N s) {a : SmpAction} (hhere : ReapedHere N s a)
    (hs : smpStep N img s a = some s') : TlbInv N s' := by
  cases smpStep_move hs with
  | userAccess page frame hcurrent hc hat hdir => exact h.userAccess hinv hcurrent page frame
  | unmap page hcurrent hc hat => exact h.setCpu fun e he => (List.mem_filter.1 he).1
  | @userTest c i pgDir hcurrent hc hat hdir =>
      have h' : TlbInv N (s.setTask i fun t => { t with pgDir := pgDir }) := h.setTask rfl rfl id
      exact h'.setCpu fun _ he => he
  | getTaskSlot hc hat => exact h.getTaskSlot hhere
  | start pgDir hat => exact h.forkEnd hinv hat fun _ => rfl
  | freeTaskSlot hat =>
      refine h.forkEnd hinv hat fun huse => ?_
      cases huse
  | doExit hc hat hcurrent => exact h.setCpu fun _ he => he
  | exitMm hat => exact h.setCpu fun _ he => he
  | @storeStopped c i hcurrent hat =>
      have h' : TlbInv N (s.setTask i fun t => { t with state := .stopped }) :=
        h.setTask rfl rfl fun _ => ProcessState.noConfusion
      exact h'.setCpu fun _ he => he
  | sched hc hmay hmove => exact h.sched ..
  | sleep hcurrent hc hat => exact h.setTask rfl rfl fun _ => ProcessState.noConfusion
  | wake hstate => exact h.setTask rfl rfl fun _ => ProcessState.noConfusion
  | tickIdle user hcurrent => exact h
  | tick user hcurrent =>
      cases user with
      | true => exact h.setTask rfl rfl id
      | false => exact h.setTask rfl rfl id
  | compute c regs => exact h.setCpu fun _ he => he

/-- In every run in which no swapper switches to a task that is gone, and `get_task_slot` clears slots on
their own CPU, or after this CPU has left the task and dropped its translations: no task in user mode
finds a translation of an earlier occupant of its slot. -/
theorem smpRun_freshTlb (N : Nat) (img : KernelImage) (mem : Mem) {as : List SmpAction} {t : Smp}
    (hhere : Along (smpStep N img) (fun s a => ReapedHere N s a ∧ LiveSwitch s a) (smpInit mem) as)
    (hrun : runFrom (smpStep N img) (smpInit mem) as = some t) : FreshTlb t := by
  have hstep : ∀ s a s', SlotInv N s ∧ TlbInv N s → ReapedHere N s a ∧ LiveSwitch s a →
      smpStep N img s a = some s' → SlotInv N s' ∧ TlbInv N s' := fun s a s' h hh hs =>
    ⟨h.1.step (h.1.notLeaving hs hh.1) hh.2 hs, h.2.step h.1 hh.1 hs⟩
  exact (runFrom_invariant_along hstep ⟨smpInit_inv N mem, smpInit_tlb N mem⟩ hhere hrun).2.freshTlb

/-- A kernel thread starts a user program in slot 0, which accesses a page, and exits. -/
def slotUsed : List SmpAction :=
  twoTasks ++ fullSchedule 0 ++ [.userTest 0 4096, .userAccess 0 7 8] ++ fullExit 0

/-- Slot 0 is cleared and taken on CPU 0, its own: the translation of the first task is gone. -/
theorem smpRun_freshTlb_own_cpu :
    ∃ t, runFrom (smpStep 2 sampleImage) (smpInit fun _ => 0)
        (slotUsed ++ [.getTaskSlot 0, .start 0 0, .getTaskSlot 0, .start 0 8192] ++ fullSchedule 0 ++
          [.userAccess 0 9 10]) = some t ∧
      ((t.cpu 0).current = some 0 ∧ t.occupant 0 = 2 ∧
        (t.cpu 0).tlb = [{ asid := 1, page := 9, frame := 10, slot := 0, occupant := 2 }]) ∧
      FreshTlb t := by
  have hend : (runFrom (smpStep 2 sampleImage) (smpInit fun _ => 0)
      (slotUsed ++ [.getTaskSlot 0, .start 0 0, .getTaskSlot 0, .start 0 8192] ++ fullSchedule 0 ++
        [.userAccess 0 9 10])).map (fun t => ((t.cpu 0).current, t.occupant 0, (t.cpu 0).tlb)) =
        some (some 0, 2, [{ asid := 1, page := 9, frame := 10, slot := 0, occupant := 2 }]) := by
    decide +kernel
  obtain ⟨t, hrun, ht⟩ := Option.map_eq_some_iff.1 hend
  simp only [Prod.mk.injEq] at ht
  exact ⟨t, hrun, ht, smpRun_freshTlb 2 sampleImage _ (by decide +kernel) hrun⟩

/-- A run after which the TLB of CPU 0 holds a translation of the first occupant of slot 0, while the second
one is in user mode there. -/
theorem exists_not_freshTlb {as : List SmpAction}
    (hend : (runFrom (smpStep 2 sampleImage) (smpInit fun _ => 0) as).map
      (fun t => ((t.cpu 0).current, decide ((t.cpu 0).At .run), (t.tasks 0).pgDir, t.occupant 0,
        (t.cpu 0).tlb)) =
        some (some 0, true, 8192, 2, [{ asid := 1, page := 7, frame := 8, slot := 0, occupant := 1 }])) :
    ∃ t, runFrom (smpStep 2 sampleImage) (smpInit fun _ => 0) as = some t ∧ ¬FreshTlb t := by
  obtain ⟨t, hrun, ht⟩ := Option.map_eq_some_iff.1 hend
  simp only [Prod.mk.injEq, decide_eq_true_eq] at ht
  obtain ⟨hcurrent, hat, hdir, hocc, htlb⟩ := ht
  refine ⟨t, hrun, fun hfresh => ?_⟩
  have hsame := hfresh 0 0 ⟨hcurrent, hat, by rw [hdir]; decide⟩ _ (htlb ▸ List.mem_singleton_self _) rfl rfl
  rw [hocc] at hsame
  exact absurd hsame (by decide)

/-- Slot 0 is cleared and taken on CPU 1: its new task runs in user mode on CPU 0, where the
translation of the first one is still in the TLB. -/
theorem smpRun_stale_translation :
    ∃ t, runFrom (smpStep 2 sampleImage) (smpInit fun _ => 0)
        (slotUsed ++ [.getTaskSlot 1, .start 1 0, .getTaskSlot 1, .start 1 8192] ++ fullSchedule 0) =
          some t ∧ ¬FreshTlb t :=
  exists_not_freshTlb (by decide +kernel)

/-- The task that the stale call switches to again forks on its own CPU: this clears its slot, and CPU 1
takes the slot while the old task goes on. -/
def staleUser : List SmpAction :=
  staleSwitch [.userTest 0 4096] ++ [.getTaskSlot 0, .freeTaskSlot 0, .getTaskSlot 1, .start 1 8192,
    .userAccess 0 7 8]

/-- So it is not enough that the slots are cleared on their own CPU. -/
theorem smpRun_stale_user :
    Along (smpStep 2 sampleImage) (ReapedHere 2) (smpInit fun _ => 0) staleUser ∧
      ∃ t, runFrom (smpStep 2 sampleImage) (smpInit fun _ => 0) staleUser = some t ∧ ¬FreshTlb t :=
  ⟨by decide +kernel, exists_not_freshTlb (by decide +kernel)⟩

end Kernel
end ToutOS
