import ToutOS.Kernel.Process

/-!
# Slots — what `get_task_slot` does to the task table

* `SlotVisited` — the scan of `get_task_slot` gets to a slot;
* `Reapable` — it finds a task there that has exited, and clears the slot;
* `SlotCall`, `getTaskSlot_call` — everything that a call of `get_task_slot` does;
* `SlotContract` — what its callers expect; `getTaskSlot_contract_iff` says for which tables they get
  it.
-/

namespace ToutOS
namespace Kernel

open Base Mm

variable {img : KernelImage} {tasks : TaskTable} {mem : Mem} {i left k : Nat}

/-- The scan of `left` slots from slot `i` on gets to slot `k`: no slot before it is free. -/
def VisitedFrom (tasks : TaskTable) (i left k : Nat) : Prop :=
  i ≤ k ∧ k < i + left ∧ ∀ j < k, i ≤ j → (tasks j).inUse = true

/-- The scan of `get_task_slot` gets to slot `k`. -/
def SlotVisited (tasks : TaskTable) (k : Nat) : Prop := VisitedFrom tasks 0 maxNumProcesses k

/-- The task in the slot has exited. -/
def TaskStruct.exited (t : TaskStruct) : Prop := t.inUse = true ∧ t.state = .stopped

/-- `get_task_slot` clears slot `k`. -/
def Reapable (tasks : TaskTable) (k : Nat) : Prop := SlotVisited tasks k ∧ (tasks k).exited

instance : Decidable (VisitedFrom tasks i left k) := inferInstanceAs (Decidable (_ ∧ _ ∧ _))

instance : Decidable (SlotVisited tasks k) :=
  inferInstanceAs (Decidable (VisitedFrom tasks 0 maxNumProcesses k))

instance (t : TaskStruct) : Decidable t.exited := inferInstanceAs (Decidable (_ ∧ _))

instance : Decidable (Reapable tasks k) := inferInstanceAs (Decidable (_ ∧ _))

/-- Slot `k` as `get_task_slot` hands it out. -/
def takenSlot (img : KernelImage) (k : Nat) (t : TaskStruct) : TaskStruct :=
  { t with inUse := true, pid := k + 1, stack := img.stack k }

/-- What the scan of `left` slots from slot `i` on does. -/
structure SlotScan (img : KernelImage) (i left : Nat) (tasks : TaskTable) (mem : Mem)
    (r : Option Nat × TaskTable × Mem) : Prop where
  found : ∀ c, r.1 = some c → VisitedFrom tasks i left c ∧ (tasks c).inUse = false ∧
    r.2.1 c = takenSlot img c (tasks c) ∧ r.2.2 = store mem (img.stack c) 8 (img.task c)
  full : r.1 = none → (∀ k, i ≤ k → k < i + left → (tasks k).inUse = true) ∧ r.2.2 = mem
  reaped : ∀ k, VisitedFrom tasks i left k → (tasks k).exited → r.2.1 k = {}
  same : ∀ k, r.1 ≠ some k → ¬(VisitedFrom tasks i left k ∧ (tasks k).exited) → r.2.1 k = tasks k

theorem visitedFrom_succ (hi : (tasks i).inUse = true) :
    VisitedFrom tasks i (left + 1) k ↔ k = i ∨ VisitedFrom tasks (i + 1) left k := by
  constructor
  · rintro ⟨h₁, h₂, h₃⟩
    by_cases hk : k = i
    · exact Or.inl hk
    · exact Or.inr ⟨by omega, by omega, fun j hj hij => h₃ j hj (by omega)⟩
  · rintro (rfl | ⟨h₁, h₂, h₃⟩)
    · exact ⟨Nat.le_refl k, by omega, fun j hj hk => absurd hj (by omega)⟩
    · refine ⟨by omega, by omega, fun j hj hij => ?_⟩
      by_cases hji : j = i
      · exact hji ▸ hi
      · exact h₃ j hj (by omega)

/-- The scan goes on behind a slot in use, whose task has not exited or is cleared. -/
theorem SlotScan.succ {tasks' : TaskTable} {r : Option Nat × TaskTable × Mem}
    (hi : (tasks i).inUse = true) (hother : ∀ k, k ≠ i → tasks' k = tasks k)
    (hself : tasks' i = if (tasks i).exited then {} else tasks i)
    (h : SlotScan img (i + 1) left tasks' mem r) : SlotScan img i (left + 1) tasks mem r := by
  -- the rest of the scan sees the old table
  have hvisited : ∀ k, VisitedFrom tasks' (i + 1) left k ↔ VisitedFrom tasks (i + 1) left k := by
    intro k
    simp only [VisitedFrom]
    refine and_congr_right fun _ => and_congr_right fun _ => forall₃_congr fun j _ hij => ?_
    rw [hother j (by omega)]
  have hlater : ∀ k, VisitedFrom tasks (i + 1) left k → tasks' k = tasks k := fun k hk =>
    hother k (by have := hk.1; omega)
  refine ⟨fun c hc => ?_, fun hnone => ?_, fun k hk hexited => ?_, fun k hne hnot => ?_⟩
  · obtain ⟨hvis, hfree, htaken, hmem⟩ := h.found c hc
    have hvis' := (hvisited c).1 hvis
    rw [hlater c hvis'] at hfree htaken
    exact ⟨(visitedFrom_succ hi).2 (Or.inr hvis'), hfree, htaken, hmem⟩
  · obtain ⟨hfull, hmem⟩ := h.full hnone
    refine ⟨fun k h₁ h₂ => ?_, hmem⟩
    by_cases hk : k = i
    · exact hk ▸ hi
    · have := hfull k (by omega) (by omega)
      rwa [hother k hk] at this
  · have hnot : r.1 ≠ some i := by
      intro hr
      have := (h.found i hr).1.1
      omega
    rcases (visitedFrom_succ hi).1 hk with rfl | hk
    · rw [h.same k hnot fun hv => absurd hv.1.1 (by omega), hself, if_pos hexited]
    · refine h.reaped k ((hvisited k).2 hk) ?_
      rwa [hlater k hk]
  · by_cases hk : k = i
    · subst hk
      have hexited : ¬(tasks k).exited := fun he =>
        hnot ⟨(visitedFrom_succ hi).2 (Or.inl rfl), he⟩
      rw [h.same k hne fun hv => absurd hv.1.1 (by omega), hself, if_neg hexited]
    · rw [h.same k hne, hother k hk]
      rintro ⟨hv, he⟩
      rw [hother k hk] at he
      exact hnot ⟨(visitedFrom_succ hi).2 (Or.inr ((hvisited k).1 hv)), he⟩

theorem getTaskSlotLoop_scan (img : KernelImage) (mem : Mem) (left : Nat) :
    ∀ (i : Nat) (tasks : TaskTable),
      SlotScan img i left tasks mem (getTaskSlotLoop img left i tasks mem) := by
  induction left with
  | zero =>
      intro i tasks
      refine ⟨fun c hc => ?_, fun _ => ⟨fun k h₁ h₂ => ?_, rfl⟩, fun k hk => ?_, fun _ _ _ => rfl⟩
      · cases hc
      · omega
      · have := hk.1
        have := hk.2.1
        omega
  | succ left ih =>
      intro i tasks
      rw [getTaskSlotLoop]
      split_ifs with hfree hstopped
      · -- slot `i` is free and handed out
        refine ⟨fun c hc => ?_, fun hnone => ?_, fun k hk hexited => ?_, fun k hne _ => ?_⟩
        · cases hc
          exact ⟨⟨Nat.le_refl i, by omega, fun j hj hij => absurd hj (by omega)⟩, hfree,
            Function.update_self .., rfl⟩
        · cases hnone
        · by_cases hki : k = i
          · subst hki
            rw [hexited.1] at hfree
            cases hfree
          · have := hk.2.2 i (by have := hk.1; omega) (Nat.le_refl i)
            rw [this] at hfree
            cases hfree
        · have hki : k ≠ i := fun hki => hne (by rw [hki])
          exact Function.update_of_ne hki ..
      · rw [Bool.not_eq_false] at hfree
        refine (ih (i + 1) (Function.update tasks i {})).succ hfree ?_ ?_
        · exact fun k hk => Function.update_of_ne hk ..
        · rw [Function.update_self, if_pos ⟨hfree, hstopped⟩]
      · rw [Bool.not_eq_false] at hfree
        refine (ih (i + 1) tasks).succ hfree (fun _ _ => rfl) ?_
        rw [if_neg fun he => hstopped he.2]

/-- What a call of `get_task_slot` does: it returns the first free slot, and clears the slots before
it whose tasks have exited. -/
structure SlotCall (img : KernelImage) (tasks : TaskTable) (mem : Mem) (slot : Option Nat)
    (tasks' : TaskTable) (mem' : Mem) : Prop where
  found : ∀ c, slot = some c → SlotVisited tasks c ∧ (tasks c).inUse = false ∧
    tasks' c = takenSlot img c (tasks c) ∧ mem' = store mem (img.stack c) 8 (img.task c)
  full : slot = none → (∀ k < maxNumProcesses, (tasks k).inUse = true) ∧ mem' = mem
  reaped : ∀ k, Reapable tasks k → tasks' k = {}
  same : ∀ k, slot ≠ some k → ¬Reapable tasks k → tasks' k = tasks k

theorem getTaskSlot_call {slot : Option Nat} {tasks' : TaskTable} {mem' : Mem}
    (h : getTaskSlot img tasks mem = (slot, tasks', mem')) :
    SlotCall img tasks mem slot tasks' mem' := by
  have hscan := getTaskSlotLoop_scan img mem maxNumProcesses 0 tasks
  rw [getTaskSlot] at h
  rw [h] at hscan
  refine ⟨hscan.found, fun hnone => ?_, fun k hk => hscan.reaped k hk.1 hk.2, hscan.same⟩
  obtain ⟨hfull, hmem⟩ := hscan.full hnone
  exact ⟨fun k hk => hfull k (Nat.zero_le k) (by omega), hmem⟩

/-! ## The contract -/

/-- The slot with everything zero that a new task needs not have. -/
def freshSlot (img : KernelImage) (c : Nat) : TaskStruct :=
  { inUse := true, pid := c + 1, stack := img.stack c }

/-- Nothing but `in_use`, `pid` and `stack` may be left in the slot. -/
def TaskStruct.Blank (t : TaskStruct) : Prop :=
  { t with inUse := false, pid := 0, stack := 0 } = ({} : TaskStruct)

/-- There is a slot to be had only if one is free or its task has exited; it is handed out as new,
with its `thread_info`, and no task that has not exited is touched. -/
structure SlotContract (img : KernelImage) (tasks : TaskTable) (mem : Mem) (slot : Option Nat)
    (tasks' : TaskTable) (mem' : Mem) : Prop where
  none : slot = none → ∀ k < maxNumProcesses, (tasks k).inUse = true ∧ (tasks k).state ≠ .stopped
  some : ∀ c, slot = some c → c < maxNumProcesses ∧
    ((tasks c).inUse = false ∨ (tasks c).state = .stopped) ∧ tasks' c = freshSlot img c ∧
    load mem' (img.stack c) 8 = img.task c % 2 ^ 64
  others : ∀ k, (tasks k).inUse = true → (tasks k).state ≠ .stopped → tasks' k = tasks k

/-- Slot `c` is the first free one. -/
def FirstFreeSlot (tasks : TaskTable) (c : Nat) : Prop :=
  SlotVisited tasks c ∧ (tasks c).inUse = false

theorem takenSlot_eq_fresh_iff {c : Nat} {t : TaskStruct} :
    takenSlot img c t = freshSlot img c ↔ t.Blank := by
  cases t
  simp [takenSlot, freshSlot, TaskStruct.Blank]

theorem FirstFreeSlot.unique {c d : Nat} (hc : FirstFreeSlot tasks c) (hd : FirstFreeSlot tasks d) : c = d := by
  rcases Nat.lt_trichotomy c d with hlt | heq | hgt
  · have := hd.1.2.2 c hlt (Nat.zero_le c)
    rw [hc.2] at this
    cases this
  · exact heq
  · have := hc.1.2.2 d hgt (Nat.zero_le d)
    rw [hd.2] at this
    cases this

/-- The callers of `get_task_slot` get what they expect exactly if the first free slot is zero, or
there is none and no task has exited.  In a table that is full, the slots of tasks that have exited
are cleared and none of them is handed out. -/
theorem getTaskSlot_contract_iff (img : KernelImage) (tasks : TaskTable) (mem : Mem) :
    SlotContract img tasks mem (getTaskSlot img tasks mem).1 (getTaskSlot img tasks mem).2.1
        (getTaskSlot img tasks mem).2.2 ↔
      (∃ c, FirstFreeSlot tasks c ∧ (tasks c).Blank) ∨
        ∀ k < maxNumProcesses, (tasks k).inUse = true ∧ (tasks k).state ≠ .stopped := by
  rcases hcall : getTaskSlot img tasks mem with ⟨slot, tasks', mem'⟩
  have hslot := getTaskSlot_call hcall
  cases slot with
  | none =>
      obtain ⟨hfull, -⟩ := hslot.full rfl
      constructor
      · intro h
        exact Or.inr (h.none rfl)
      · rintro (⟨c, hc, -⟩ | hlive)
        · -- no slot is free
          have := hfull c hc.1.2.1
          rw [hc.2] at this
          cases this
        · refine ⟨fun _ => hlive, nofun, fun k _ hstate => ?_⟩
          exact hslot.same k nofun fun hr => hstate hr.2.2
  | some c =>
      obtain ⟨hvisited, hfree, htaken, hmem⟩ := hslot.found c rfl
      constructor
      · intro h
        obtain ⟨-, -, hfresh, -⟩ := h.some c rfl
        exact Or.inl ⟨c, ⟨hvisited, hfree⟩, takenSlot_eq_fresh_iff.1 (htaken.symm.trans hfresh)⟩
      · rintro (⟨d, hd, hblank⟩ | hlive)
        · obtain rfl := hd.unique ⟨hvisited, hfree⟩
          refine ⟨nofun, fun e he => ?_, fun k huse hstate => ?_⟩
          · obtain rfl := Option.some.inj he
            refine ⟨hvisited.2.1, Or.inl hfree, htaken.trans (takenSlot_eq_fresh_iff.2 hblank), ?_⟩
            rw [hmem, load_store_mod]
            rfl
          · refine hslot.same k (fun hk => ?_) fun hr => hstate hr.2.2
            rw [← Option.some.inj hk, hfree] at huse
            cases huse
        · have := (hlive c hvisited.2.1).1
          rw [hfree] at this
          cases this

/-- 31 tasks at work and one that has exited. -/
def sampleFull : TaskTable := fun k =>
  { inUse := true, pid := k + 1, state := if k = 5 then .stopped else .running }

/-- The slot of the task that has exited is cleared, and no slot is handed out. -/
theorem getTaskSlot_full :
    (getTaskSlot sampleImage sampleFull fun _ => 0).1 = none ∧
      ((getTaskSlot sampleImage sampleFull fun _ => 0).2.1 5).inUse = false ∧
      ¬SlotContract sampleImage sampleFull (fun _ => 0)
        (getTaskSlot sampleImage sampleFull fun _ => 0).1
        (getTaskSlot sampleImage sampleFull fun _ => 0).2.1
        (getTaskSlot sampleImage sampleFull fun _ => 0).2.2 := by
  have hnone : (getTaskSlot sampleImage sampleFull fun _ => 0).1 = none := by decide +kernel
  refine ⟨hnone, by decide +kernel, fun h => ?_⟩
  exact (h.none hnone 5 (by decide)).2 rfl

end Kernel
end ToutOS
