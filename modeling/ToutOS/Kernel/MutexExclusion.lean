import ToutOS.Kernel.Mutex

/-!
# MutexExclusion — one holder at a time

`struct mutex` does not record who holds it: `mutex_unlock` frees it for whoever comes first, be it
the waiter that it wakes, another one woken earlier, or a task that has just called `mutex_lock`.
This file counts instead the sections that the tasks have completed.

* `MutexEvent`, `Holds` — the acquiring and the releasing sections in the order in which they were
  completed, and a task that has completed an acquiring one and not yet the releasing one;
* `contendStep` — the tasks calling `mutex_lock` and `mutex_unlock`.  Which of them run is left
  open: a task in `schedule()` may return from it at any time, woken or not, and go to sleep again;
  a holder may call `mutex_lock` once more.  Only a holder unlocks;
* `contendStep_of_mutexStep` — the steps of `mutexStep` are among these;
* `SoleHolder` — the invariant: the completed sections pair up, except for the one acquiring section
  of the holder, if there is one;
* `mutex_exclusion` — the mutex is locked exactly when a task holds it, and one task at most does.
-/

namespace ToutOS
namespace Kernel

open Base

/-! ## Completed sections -/

/-- A section under `p->lock` that changes `p->state`. -/
inductive MutexEvent
  /-- The section of `mutex_lock` that leaves its loop. -/
  | acquired (i : Nat)
  /-- The section of `mutex_unlock`. -/
  | released (i : Nat)
  deriving DecidableEq, Repr

structure ContendSys where
  sys : MutexSys
  /-- The completed sections, the last one first. -/
  done : List MutexEvent

/-- Task `i` has completed an acquiring section and not yet the releasing one. -/
def Holds (s : ContendSys) (i : Nat) : Prop :=
  s.done.count (.released i) < s.done.count (.acquired i)

instance (s : ContendSys) (i : Nat) : Decidable (Holds s i) :=
  inferInstanceAs (Decidable (_ < _))

/-- Task `i` leaves the loop of `mutex_lock` with this section. -/
def completesAcquire (s : MutexSys) (i : Nat) : Bool :=
  (mutexLockSection s i).place i = .holding

/-- One step of the tasks, in any order. -/
def contendStep (s : ContendSys) : MutexAction → Option ContendSys
  | .call i =>
      if s.sys.place i = .outside ∨ s.sys.place i = .holding then
        some { s with sys := { s.sys with place := Function.update s.sys.place i .retry } }
      else none
  | .lock i =>
      if s.sys.place i = .retry then
        some
          { sys := mutexLockSection s.sys i
            done := if completesAcquire s.sys i then .acquired i :: s.done else s.done }
      else none
  | .resume i =>
      if s.sys.place i = .waiting then
        some { s with sys := { s.sys with place := Function.update s.sys.place i .retry } }
      else none
  | .unlock i =>
      if Holds s i ∧ s.sys.place i = .holding then
        some { sys := mutexUnlockSection s.sys i, done := .released i :: s.done }
      else none
  | .other i state =>
      some { s with sys := { s.sys with tasks := setTaskState s.sys.tasks (some i) state } }

/-- A fresh mutex and tasks that do not use it yet. -/
def contendInit (tasks : TaskTable) : ContendSys :=
  { sys := mutexInit tasks, done := [] }

/-! ## The sections -/

@[simp] theorem mutexUnlockSection_state (s : MutexSys) (i : Nat) :
    (mutexUnlockSection s i).mutex.state = .unlocked := by
  by_cases hp : 0 < getNextWaiting s.mutex <;> simp [mutexUnlockSection, hp]

@[simp] theorem mutexUnlockSection_place (s : MutexSys) (i : Nat) :
    (mutexUnlockSection s i).place = Function.update s.place i .outside := by
  by_cases hp : 0 < getNextWaiting s.mutex <;> simp [mutexUnlockSection, hp]

/-- After the section of `mutex_lock` the mutex is locked, whether by this task or by another. -/
@[simp] theorem mutexLockSection_state (s : MutexSys) (i : Nat) :
    (mutexLockSection s i).mutex.state = .locked := by
  cases h : s.mutex.state <;> simp [mutexLockSection, h]

theorem completesAcquire_iff (s : MutexSys) (i : Nat) :
    completesAcquire s i = true ↔ s.mutex.state = .unlocked := by
  cases h : s.mutex.state <;> simp [completesAcquire, mutexLockSection, h]

/-! ## The invariant -/

/-- The completed sections pair up, except for the acquiring section of `holder`, and the state of
the mutex tells whether there is a holder. -/
structure SoleHolder (s : ContendSys) (holder : Option Nat) : Prop where
  locked_iff : s.sys.mutex.state = .locked ↔ holder.isSome = true
  paired : ∀ i, s.done.count (.acquired i) =
    s.done.count (.released i) + if holder = some i then 1 else 0

theorem SoleHolder.holds_iff {s : ContendSys} {holder : Option Nat} (h : SoleHolder s holder)
    (i : Nat) : Holds s i ↔ holder = some i := by
  have hpair := h.paired i
  by_cases hi : holder = some i
  · rw [if_pos hi] at hpair
    simp only [Holds, hi, iff_true]
    omega
  · rw [if_neg hi] at hpair
    simp only [Holds, hi, iff_false]
    omega

theorem contendInit_soleHolder (tasks : TaskTable) : SoleHolder (contendInit tasks) none := by
  constructor <;> simp [contendInit, mutexInit, initMutex]

/-- A step that neither completes such a section nor touches the mutex. -/
theorem SoleHolder.frame {s s' : ContendSys} {holder : Option Nat} (h : SoleHolder s holder)
    (hmutex : s'.sys.mutex.state = s.sys.mutex.state) (hdone : s'.done = s.done) :
    SoleHolder s' holder :=
  ⟨by rw [hmutex, h.locked_iff], by rw [hdone]; exact h.paired⟩

/-- The section of `mutex_lock`: a free mutex passes to the task, whoever it was meant for. -/
theorem SoleHolder.lock {s : ContendSys} {holder : Option Nat} (h : SoleHolder s holder) (i : Nat) :
    ∃ holder', SoleHolder
      { sys := mutexLockSection s.sys i
        done := if completesAcquire s.sys i then .acquired i :: s.done else s.done } holder' := by
  cases hm : s.sys.mutex.state with
  | unlocked =>
      have hnone : holder = none := by
        cases holder with
        | none => rfl
        | some j => exact absurd (h.locked_iff.2 rfl) (by simp [hm])
      subst hnone
      rw [if_pos ((completesAcquire_iff s.sys i).2 hm)]
      refine ⟨some i, by simp, fun j => ?_⟩
      have hpair := h.paired j
      by_cases hji : j = i
      · subst hji
        simpa using hpair
      · have hij : ¬ i = j := fun hij => hji hij.symm
        simpa [hij] using hpair
  | locked =>
      have hstay : completesAcquire s.sys i = false := by
        rw [Bool.eq_false_iff, ne_eq, completesAcquire_iff, hm]
        simp
      simp only [hstay]
      exact ⟨holder, h.frame (by simp [hm]) rfl⟩

/-- The section of `mutex_unlock`, executed by the holder. -/
theorem SoleHolder.unlock {s : ContendSys} {holder : Option Nat} {i : Nat}
    (h : SoleHolder s holder) (hi : Holds s i) :
    SoleHolder { sys := mutexUnlockSection s.sys i, done := .released i :: s.done } none := by
  have hholder := (h.holds_iff i).1 hi
  refine ⟨by simp, fun j => ?_⟩
  have hpair := h.paired j
  rw [hholder] at hpair
  by_cases hji : j = i
  · subst hji
    simpa using hpair
  · have hij : ¬ i = j := fun hij => hji hij.symm
    simpa [hij] using hpair

/-- Every step keeps at most one holder. -/
theorem contendStep_soleHolder (s : ContendSys) (a : MutexAction) (s' : ContendSys)
    (h : ∃ holder, SoleHolder s holder) (hstep : contendStep s a = some s') :
    ∃ holder, SoleHolder s' holder := by
  obtain ⟨holder, h⟩ := h
  cases a with
  | call i =>
      simp only [contendStep, Option.ite_none_right_eq_some, Option.some.injEq] at hstep
      obtain ⟨-, rfl⟩ := hstep
      exact ⟨holder, h.frame rfl rfl⟩
  | lock i =>
      simp only [contendStep, Option.ite_none_right_eq_some, Option.some.injEq] at hstep
      obtain ⟨-, rfl⟩ := hstep
      exact h.lock i
  | resume i =>
      simp only [contendStep, Option.ite_none_right_eq_some, Option.some.injEq] at hstep
      obtain ⟨-, rfl⟩ := hstep
      exact ⟨holder, h.frame rfl rfl⟩
  | unlock i =>
      simp only [contendStep, Option.ite_none_right_eq_some, Option.some.injEq] at hstep
      obtain ⟨⟨hi, -⟩, rfl⟩ := hstep
      exact ⟨none, h.unlock hi⟩
  | other i state =>
      simp only [contendStep, Option.some.injEq] at hstep
      subst hstep
      exact ⟨holder, h.frame rfl rfl⟩

/-! ## Whole runs -/

/-- In every state that the tasks reach, the mutex is locked exactly when a task holds it, and no
two tasks do. -/
theorem mutex_exclusion {tasks : TaskTable} {acts : List MutexAction} {s : ContendSys}
    (hrun : runFrom contendStep (contendInit tasks) acts = some s) :
    (s.sys.mutex.state = .locked ↔ ∃ i, Holds s i) ∧ ∀ i j, Holds s i → Holds s j → i = j := by
  obtain ⟨holder, h⟩ :=
    runFrom_invariant contendStep_soleHolder ⟨none, contendInit_soleHolder tasks⟩ hrun
  constructor
  · rw [h.locked_iff, Option.isSome_iff_exists]
    exact exists_congr fun i => (h.holds_iff i).symm
  · intro i j hi hj
    have hi' := (h.holds_iff i).1 hi
    have hj' := (h.holds_iff j).1 hj
    exact Option.some.inj (hi'.symm.trans hj')

/-- Two waiters are woken, one after the other; a third task comes in before the second of them,
which goes to sleep again. -/
theorem mutex_exclusion_barging :
    ∃ s, runFrom contendStep (contendInit fullTaskTable)
        [.call 0, .lock 0, .call 1, .lock 1, .call 2, .lock 2, .unlock 0, .resume 1, .lock 1,
          .unlock 1, .call 3, .lock 3, .resume 2, .lock 2] = some s ∧
      Holds s 3 ∧ s.sys.place 2 = .waiting ∧
      (s.sys.mutex.state = .locked ↔ ∃ i, Holds s i) ∧ ∀ i j, Holds s i → Holds s j → i = j := by
  obtain ⟨s, hs⟩ : ∃ s, runFrom contendStep (contendInit fullTaskTable)
      [.call 0, .lock 0, .call 1, .lock 1, .call 2, .lock 2, .unlock 0, .resume 1, .lock 1,
        .unlock 1, .call 3, .lock 3, .resume 2, .lock 2] = some s := ⟨_, rfl⟩
  refine ⟨s, hs, ?_, ?_, mutex_exclusion hs⟩
  · cases hs
    decide
  · cases hs
    rfl

/-! ## The scheduled tasks -/

/-- Every task that is past `mutex_lock` has completed an acquiring section. -/
def HoldingHolds (s : ContendSys) : Prop := ∀ i, s.sys.place i = .holding → Holds s i

/-- Tasks that only run in state `RUNNING` take such steps. -/
theorem contendStep_of_mutexStep {s s' : MutexSys} {a : MutexAction} {done : List MutexEvent}
    (hsole : ∃ holder, SoleHolder ⟨s, done⟩ holder) (hheld : HoldingHolds ⟨s, done⟩)
    (hstep : mutexStep s a = some s') :
    ∃ done', contendStep ⟨s, done⟩ a = some ⟨s', done'⟩ ∧ HoldingHolds ⟨s', done'⟩ := by
  -- the place of one task changes to one where it does not hold the mutex
  have haway : ∀ (t : MutexSys) (i : Nat) (p : MutexPlace), p ≠ .holding →
      t.place = Function.update s.place i p → HoldingHolds ⟨t, done⟩ := by
    intro t i p hp ht j hj
    have hji : j ≠ i := by
      rintro rfl
      simp [ht, hp] at hj
    exact hheld j (by simpa [ht, hji] using hj)
  cases a with
  | call i =>
      simp only [mutexStep, Option.ite_none_right_eq_some, Option.some.injEq] at hstep
      obtain ⟨⟨-, -, hplace⟩, rfl⟩ := hstep
      exact ⟨done, by simp [contendStep, hplace], haway _ i .retry (by simp) rfl⟩
  | lock i =>
      simp only [mutexStep, Option.ite_none_right_eq_some, Option.some.injEq] at hstep
      obtain ⟨⟨-, -, hplace⟩, rfl⟩ := hstep
      refine ⟨_, if_pos hplace, ?_⟩
      cases hm : s.mutex.state with
      | unlocked =>
          rw [if_pos ((completesAcquire_iff s i).2 hm)]
          intro j hj
          obtain ⟨holder, h⟩ := hsole
          by_cases hji : j = i
          · subst hji
            have hpair := h.paired j
            simp only [Holds, List.count_cons]
            simp only at hpair
            simp
            omega
          · have hij : ¬ i = j := fun hij => hji hij.symm
            simp only [mutexLockSection, hm, Function.update_of_ne hji] at hj
            simpa [Holds, hij] using hheld j hj
      | locked =>
          have hstay : completesAcquire s i = false := by
            simp [completesAcquire, mutexLockSection, hm]
          simp only [hstay]
          exact haway _ i .waiting (by simp) (by simp [mutexLockSection, hm])
  | resume i =>
      simp only [mutexStep, Option.ite_none_right_eq_some, Option.some.injEq] at hstep
      obtain ⟨⟨-, -, hplace⟩, rfl⟩ := hstep
      exact ⟨done, by simp [contendStep, hplace], haway _ i .retry (by simp) rfl⟩
  | unlock i =>
      simp only [mutexStep, Option.ite_none_right_eq_some, Option.some.injEq] at hstep
      obtain ⟨⟨-, -, hplace⟩, rfl⟩ := hstep
      refine ⟨_, if_pos ⟨hheld i hplace, hplace⟩, ?_⟩
      intro j hj
      have hji : j ≠ i := by
        rintro rfl
        simp at hj
      have hij : ¬ i = j := fun hij => hji hij.symm
      simp only [mutexUnlockSection_place, Function.update_of_ne hji] at hj
      simpa [Holds, hij] using hheld j hj
  | other i state =>
      simp only [mutexStep, Option.ite_none_right_eq_some, Option.some.injEq] at hstep
      obtain ⟨-, rfl⟩ := hstep
      exact ⟨done, rfl, hheld⟩

/-- So no two of them are past `mutex_lock` at once. -/
theorem mutexRun_one_holding {tasks : TaskTable} {acts : List MutexAction} {s : MutexSys}
    (hrun : runFrom mutexStep (mutexInit tasks) acts = some s) {i j : Nat}
    (hi : s.place i = .holding) (hj : s.place j = .holding) : i = j := by
  have hinv : ∃ done, (∃ holder, SoleHolder ⟨s, done⟩ holder) ∧ HoldingHolds ⟨s, done⟩ := by
    refine runFrom_invariant (I := fun t => ∃ done, (∃ holder, SoleHolder ⟨t, done⟩ holder) ∧
      HoldingHolds ⟨t, done⟩) ?_ ?_ hrun
    · rintro t a t' ⟨done, hsole, hheld⟩ hstep
      obtain ⟨done', hc, hheld'⟩ := contendStep_of_mutexStep hsole hheld hstep
      exact ⟨done', contendStep_soleHolder _ a _ hsole hc, hheld'⟩
    · refine ⟨[], ⟨none, contendInit_soleHolder tasks⟩, fun k hk => ?_⟩
      simp [mutexInit] at hk
  obtain ⟨done, ⟨holder, h⟩, hheld⟩ := hinv
  have hi' := (h.holds_iff i).1 (hheld i hi)
  have hj' := (h.holds_iff j).1 (hheld j hj)
  exact Option.some.inj (hi'.symm.trans hj')

end Kernel
end ToutOS
