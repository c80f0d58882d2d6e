import ToutOS.Kernel.TimerHistory

/-!
# TimerSoftirq — a whole run of `run_timer_softirq`

After every call of a timer function the walk begins again at the head of the list, which the
function may have changed in any way.  What gets smaller is the set of armed timers that expire at
the tick of the run, as long as no timer function arms one more.

* `TimerFunctions tick` — what the timer functions do, chosen from all that has happened so far; none
  of them arms a timer for `tick`.
* `softirqLoop`, `runTimerSoftirq` — the run, with the calls that it makes.
* `DueAt` — the timers the run is after; `timerStep_due` and `pass_due` say what becomes of them.
* `runTimerSoftirq_calls` — the run ends, and calls these timers once each, but for those that a
  timer function has deleted or modified before.
-/

namespace ToutOS
namespace Kernel

open Base

/-! ## The run -/

/-- An action of a timer function that arms no timer for the tick. -/
def NotNow (tick : Nat) : TimerAction → Prop
  | .add _ expires _ _ => expires ≠ tick
  | .mod _ expires => expires ≠ tick
  | .del _ => True
  | .timerIrq => True
  | .readTick .. | .arm .. | .start _ | .pass _ => False

/-- The action deletes or modifies timer `p`. -/
def Removes (p : Nat) : TimerAction → Prop
  | .mod q _ => q = p
  | .del q => q = p
  | .timerIrq | .readTick .. | .arm .. | .add .. | .start _ | .pass _ => False

/-- What the timer functions do when they are called. -/
structure TimerFunctions (tick : Nat) where
  actions : TimerSys → List TimerAction
  notNow : ∀ s, ∀ a ∈ actions s, NotNow tick a
  performable : ∀ s l, TimersListed s l → Along timerStep Performable s (actions s)

/-- The calls of a run: the timer, and what its function does. -/
abbrev SoftirqCalls := List (Nat × List TimerAction)

/-- The loop of `run_timer_softirq` on CPU `c`. -/
def softirqLoop {tick : Nat} (functions : TimerFunctions tick) (c : Nat) :
    Nat → TimerSys → Option (SoftirqCalls × TimerSys)
  | 0, _ => none
  | fuel + 1, s =>
      (timerStep s (.pass c)).bind fun s₁ =>
        if s₁.runs c = none then some ([], s₁)
        else
          (runFrom timerStep s₁ (functions.actions s₁)).bind fun s₂ =>
            (softirqLoop functions c fuel s₂).map fun (calls, t) =>
              ((calledTimer s c, functions.actions s₁) :: calls, t)

/-- `run_timer_softirq` on CPU `c`. -/
def runTimerSoftirq {tick : Nat} (functions : TimerFunctions tick) (c fuel : Nat) (s : TimerSys) :
    Option (SoftirqCalls × TimerSys) :=
  (timerStep s (.start c)).bind (softirqLoop functions c fuel)

/-- A timer function called before that of `p` deletes or modifies `p`. -/
def RemovedBefore (p : Nat) : SoftirqCalls → Prop
  | [] => False
  | (q, as) :: rest => q ≠ p ∧ ((∃ a ∈ as, Removes p a) ∨ RemovedBefore p rest)

/-! ## The timers of the run -/

/-- The timer is armed and expires at the tick. -/
def DueAt (tick : Nat) (s : TimerSys) (p : Nat) : Prop :=
  p ∈ s.armed ∧ s.timers.expires p = tick

/-- The runs go on, nothing is called, and the due timers are those of before that are not
`removed`. -/
structure DueKept (tick : Nat) (s s' : TimerSys) (removed : Nat → Prop) : Prop where
  runs : ∀ c r, s.runs c = some r → ∃ r', s'.runs c = some r' ∧ r'.tick = r.tick
  fired : s'.fired = s.fired
  due : ∀ p, DueAt tick s' p ↔ DueAt tick s p ∧ ¬removed p

variable {tick c p : Nat} {s s' t : TimerSys} {l : List Nat} {a : TimerAction}

theorem TimersListed.dueAt_iff (h : TimersListed s l) :
    DueAt tick s p ↔ p ∈ l ∧ s.timers.expires p = tick := by
  rw [DueAt, h.armed_eq]

/-- `_del_timer` takes one timer out of the run's reach. -/
theorem dropTimer_due (h : TimersListed s l) (hs : dropTimer s p = some s') :
    DueKept tick s s' fun q => p = q := by
  obtain ⟨tl, hdel, hthreads, hexpires, -, -⟩ := delTimer_spec (p := p) h.threads h.length_le
  simp only [dropTimer, hdel, Option.map_some, Option.some.injEq] at hs
  subst hs
  have h' : TimersListed
      { s with timers := tl, runs := fun c => (s.runs c).map (TimerRun.note p) } (l.erase p) :=
    ⟨hthreads, Nat.le_trans List.length_erase_le h.length_le⟩
  refine ⟨fun c r hr => ⟨r.note p, ?_, rfl⟩, rfl, fun q => ?_⟩
  · simp only [hr, Option.map_some]
  · rw [h'.dueAt_iff, h.dueAt_iff, h.threads.nodup.mem_erase_iff]
    simp only [hexpires, ne_eq, @eq_comm Nat q p]
    tauto

/-- A timer function's action: only what it deletes or modifies is lost to the run. -/
theorem timerStep_due (h : TimersListed s l) (ha : NotNow tick a) (hs : timerStep s a = some s') :
    DueKept tick s s' fun q => Removes q a := by
  have h' := timerStep_list h hs
  cases a with
  | timerIrq =>
      cases hs
      exact ⟨fun c r hr => ⟨r, hr, rfl⟩, rfl, fun q => (and_iff_left id).symm⟩
  | add q expires function data =>
      simp only [timerStep, armTimer, Option.ite_none_right_eq_some, Option.some.injEq, h.armed_eq]
        at hs
      obtain ⟨⟨-, hq⟩, rfl⟩ := hs
      refine ⟨fun c r hr => ⟨r, hr, rfl⟩, rfl, fun p => ?_⟩
      rw [h'.dueAt_iff, h.dueAt_iff]
      simp only [nextList, addTimer, List.mem_cons, Removes, not_false_eq_true, and_true]
      by_cases hp : p = q
      · -- the new timer expires at another time
        subst hp
        simp only [Function.update_self]
        exact iff_of_false (fun hdue => ha hdue.2) fun hdue => hq hdue.1
      · simp only [hp, false_or, Function.update_of_ne hp]
  | mod q expires =>
      simp only [timerStep, Option.ite_none_left_eq_some, Option.map_eq_some_iff] at hs
      obtain ⟨-, s₁, hdrop, rfl⟩ := hs
      have hkept : DueKept tick s s₁ fun p => q = p := dropTimer_due h hdrop
      obtain ⟨s₂, hdrop', h₁, -⟩ := h.dropTimer q
      obtain rfl := Option.some.inj (hdrop.symm.trans hdrop')
      refine ⟨hkept.runs, hkept.fired, fun p => ?_⟩
      simp only [Removes, ← hkept.due p]
      rw [h'.dueAt_iff, h₁.dueAt_iff]
      simp only [nextList, addTimer, List.mem_cons]
      by_cases hp : p = q
      · subst hp
        simp only [Function.update_self]
        refine iff_of_false (fun hdue => ha hdue.2) fun hdue => ?_
        exact (h.threads.nodup.mem_erase_iff.1 hdue.1).1 rfl
      · simp only [hp, false_or, Function.update_of_ne hp]
  | del q =>
      simp only [timerStep, Option.ite_none_left_eq_some] at hs
      exact dropTimer_due h hs.2
  | readTick | arm | start | pass => exact ha.elim

/-- What a timer function does. -/
theorem runFrom_due {as : List TimerAction} (hnow : ∀ a ∈ as, NotNow tick a) :
    ∀ {s : TimerSys} {l : List Nat}, TimersListed s l → Along timerStep Performable s as →
      ∃ s' l', runFrom timerStep s as = some s' ∧ TimersListed s' l' ∧
        DueKept tick s s' fun q => ∃ a ∈ as, Removes q a := by
  induction as with
  | nil =>
      intro s l h _
      refine ⟨s, l, rfl, h, fun c r hr => ⟨r, hr, rfl⟩, rfl, fun p => ?_⟩
      simp
  | cons a as ih =>
      intro s l h hperf
      obtain ⟨s₁, hs₁⟩ := timerStep_completes h hperf.1
      have hone := timerStep_due h (hnow a List.mem_cons_self) hs₁
      obtain ⟨s', l', hrun, h', hrest⟩ := ih (fun b hb => hnow b (List.mem_cons_of_mem a hb))
        (timerStep_list h hs₁) (hperf.2 s₁ hs₁)
      refine ⟨s', l', runFrom_cons.2 ⟨s₁, hs₁, hrun⟩, h', fun c r hr => ?_, ?_, fun p => ?_⟩
      · obtain ⟨r₁, hr₁, htick₁⟩ := hone.runs c r hr
        obtain ⟨r', hr', htick'⟩ := hrest.runs c r₁ hr₁
        exact ⟨r', hr', htick'.trans htick₁⟩
      · rw [hrest.fired, hone.fired]
      · rw [hrest.due, hone.due]
        simp only [List.mem_cons, exists_eq_or_imp, not_or, and_assoc]

/-- A section of the run: it takes off one of its timers and calls it, or there is none left and the
run is over. -/
theorem pass_due {r : TimerRun} (h : TimersListed s l) (hr : s.runs c = some r) :
    ∃ s', timerStep s (.pass c) = some s' ∧
      (s'.runs c = none ∧ s'.fired = s.fired ∧ (∀ p, ¬DueAt r.tick s p) ∨
        ∃ p r', calledTimer s c = p ∧ DueAt r.tick s p ∧ s'.runs c = some r' ∧ r'.tick = r.tick ∧
          s'.fired = p :: s.fired ∧ (∃ l', TimersListed s' l') ∧
          ∀ q, DueAt r.tick s' q ↔ DueAt r.tick s q ∧ p ≠ q) := by
  rcases runTimerSection_cases r.tick h.threads h.length_le with
    ⟨p, hp, tl, hp0, hexp, hsection, hthreads, hexpires⟩ | ⟨hsection, hnone⟩
  · have hcalled : calledTimer s c = p := by
      rw [calledTimer, hr, Option.bind_some, hsection]
      rfl
    have hstep : timerStep s (.pass c) = some
        { s with
          timers := tl
          runs := fun c => (s.runs c).map (TimerRun.note p)
          fired := p :: s.fired } := by
      rw [timerStep, hr, Option.bind_some, sectionStep, hsection, Option.map_some]
      simp only [if_neg hp0]
    have h' := timerStep_list h hstep
    refine ⟨_, hstep, Or.inr ⟨p, r.note p, hcalled, h.dueAt_iff.2 ⟨hp, hexp⟩, ?_, rfl, rfl, ⟨_, h'⟩,
      fun q => ?_⟩⟩
    · simp only [hr, Option.map_some]
    · rw [h'.dueAt_iff, h.dueAt_iff, nextList, hcalled, h.threads.nodup.mem_erase_iff]
      simp only [hexpires, ne_eq, @eq_comm Nat q p]
      tauto
  · have hstep : timerStep s (.pass c) = some
        { s with runs := Function.update s.runs c none, completed := r :: s.completed } := by
      rw [timerStep, hr, Option.bind_some, sectionStep, hsection, Option.map_some]
      simp only [if_true]
    refine ⟨_, hstep, Or.inl ⟨Function.update_self .., rfl, fun p hdue => ?_⟩⟩
    obtain ⟨hp, hexp⟩ := h.dueAt_iff.1 hdue
    exact hnone p hp hexp

/-! ## The whole run -/

/-- The calls that a run makes of the timers that are due at its tick in state `s`. -/
structure CallsDue (tick : Nat) (s : TimerSys) (calls : SoftirqCalls) (t : TimerSys) : Prop where
  nodup : (calls.map Prod.fst).Nodup
  fired : t.fired = (calls.map Prod.fst).reverse ++ s.fired
  called : ∀ p, p ∈ calls.map Prod.fst ↔ DueAt tick s p ∧ ¬RemovedBefore p calls

/-- One more call in front: of a timer that is due, after which its function has done `as`. -/
theorem CallsDue.cons {s₁ s₂ : TimerSys} {as : List TimerAction} {calls : SoftirqCalls}
    (h : CallsDue tick s₂ calls t) (hp : DueAt tick s p) (hfired : s₁.fired = p :: s.fired)
    (hpass : ∀ q, DueAt tick s₁ q ↔ DueAt tick s q ∧ p ≠ q)
    (hkept : DueKept tick s₁ s₂ fun q => ∃ a ∈ as, Removes q a) :
    CallsDue tick s ((p, as) :: calls) t := by
  have hdue : ∀ q, DueAt tick s₂ q ↔ (DueAt tick s q ∧ p ≠ q) ∧ ¬∃ a ∈ as, Removes q a := fun q => by
    rw [hkept.due, hpass]
  refine ⟨?_, ?_, fun q => ?_⟩
  · rw [List.map_cons, List.nodup_cons]
    refine ⟨fun hmem => ?_, h.nodup⟩
    exact ((hdue p).1 ((h.called p).1 hmem).1).1.2 rfl
  · rw [h.fired, hkept.fired, hfired]
    simp
  · rw [List.map_cons, List.mem_cons, h.called q, hdue q]
    by_cases hq : p = q
    · subst hq
      exact iff_of_true (Or.inl rfl) ⟨hp, fun hr => hr.1 rfl⟩
    · simp only [RemovedBefore, hq, ne_eq, not_false_eq_true, true_and, not_or, and_true, and_assoc,
        @eq_comm Nat q p, false_or]

/-- The loop ends within one round more than there are timers to call. -/
theorem softirqLoop_calls (functions : TimerFunctions tick) (fuel : Nat) :
    ∀ {s : TimerSys} {l dues : List Nat} {r : TimerRun}, TimersListed s l → s.runs c = some r →
      r.tick = tick → (∀ p, DueAt tick s p → p ∈ dues) → dues.length < fuel →
      ∃ calls t, softirqLoop functions c fuel s = some (calls, t) ∧ CallsDue tick s calls t := by
  induction fuel with
  | zero =>
      intro s l dues r _ _ _ _ hfuel
      omega
  | succ fuel ih =>
      intro s l dues r h hr htick hdues hfuel
      subst htick
      obtain ⟨s₁, hpass, ⟨hover, hfired, hnone⟩ | ⟨p, r₁, hcalled, hp, hr₁, htick₁, hfired, ⟨l₁, h₁⟩,
        hdue⟩⟩ := pass_due h hr
      · refine ⟨[], s₁, ?_, List.nodup_nil, hfired, fun p => ?_⟩
        · rw [softirqLoop, hpass, Option.bind_some, if_pos hover]
        · exact iff_of_false (fun hmem => by cases hmem) fun hd => hnone p hd.1
      · obtain ⟨s₂, l₂, hrun, h₂, hkept⟩ :=
          runFrom_due (functions.notNow s₁) h₁ (functions.performable s₁ l₁ h₁)
        obtain ⟨r₂, hr₂, htick₂⟩ := hkept.runs c r₁ hr₁
        -- the timer that is called is due no more, and no other one has become due
        have hdues₂ : ∀ q, DueAt r.tick s₂ q → q ∈ dues.erase p := by
          intro q hq
          obtain ⟨hq, hne⟩ := (hdue q).1 ((hkept.due q).1 hq).1
          exact (List.mem_erase_of_ne (Ne.symm hne)).2 (hdues q hq)
        have hlength : (dues.erase p).length < fuel := by
          have := List.length_erase_of_mem (hdues p hp)
          have := List.length_pos_of_mem (hdues p hp)
          omega
        obtain ⟨calls, t, hloop, hcalls⟩ := ih h₂ hr₂ (htick₂.trans htick₁) hdues₂ hlength
        refine ⟨(p, functions.actions s₁) :: calls, t, ?_, hcalls.cons hp hfired hdue hkept⟩
        have hgoes : s₁.runs c ≠ none := by
          rw [hr₁]
          exact Option.some_ne_none r₁
        rw [softirqLoop, hpass, Option.bind_some, if_neg hgoes, hrun, Option.bind_some, hloop, hcalled]
        rfl

/-- As long as no timer function arms a timer for the tick at which the run begins, the run ends.  It
calls every timer that was armed for this tick once, unless a function called before has deleted or
modified it, and no other timer. -/
theorem runTimerSoftirq_calls (h : TimersListed s l) (hidle : s.runs c = none)
    (functions : TimerFunctions s.tick) :
    ∃ calls t, runTimerSoftirq functions c (s.armed.length + 1) s = some (calls, t) ∧
      t.fired = (calls.map Prod.fst).reverse ++ s.fired ∧ (calls.map Prod.fst).Nodup ∧
      ∀ p, p ∈ calls.map Prod.fst ↔
        (p ∈ s.armed ∧ s.timers.expires p = s.tick) ∧ ¬RemovedBefore p calls := by
  obtain ⟨s₁, hstart⟩ := timerStep_completes h (a := .start c) hidle
  have h₁ : TimersListed s₁ l := timerStep_list h hstart
  have hsame : s₁.timers = s.timers ∧ s₁.fired = s.fired ∧ ∃ r, s₁.runs c = some r ∧ r.tick = s.tick := by
    simp only [timerStep, if_pos hidle, Option.some.injEq] at hstart
    subst hstart
    exact ⟨rfl, rfl, _, Function.update_self .., rfl⟩
  obtain ⟨htimers, hfired, r, hr, htick⟩ := hsame
  have hdue : ∀ p, DueAt s.tick s₁ p ↔ DueAt s.tick s p := fun p => by
    rw [h₁.dueAt_iff, h.dueAt_iff, htimers]
  obtain ⟨calls, t, hloop, hcalls⟩ := softirqLoop_calls (c := c) functions (s.armed.length + 1) h₁ hr
    htick (fun p hp => ((hdue p).1 hp).1) (Nat.lt_succ_self _)
  refine ⟨calls, t, ?_, ?_, hcalls.nodup, fun p => ?_⟩
  · rw [runTimerSoftirq, hstart, Option.bind_some, hloop]
  · rw [hcalls.fired, hfired]
  · rw [hcalls.called p, hdue p]
    rfl

/-- The function of timer 24 deletes timer 16 and arms timer 24 again, for later. -/
def sampleFunctions : TimerFunctions 5 where
  actions s := if s.fired.head? = some 24 then [.del 16, .mod 24 9] else []
  notNow s a ha := by
    split_ifs at ha with h24
    · simp only [List.mem_cons, List.not_mem_nil, or_false] at ha
      rcases ha with rfl | rfl
      · trivial
      · exact fun h9 => by cases h9
    · cases ha
  performable s l _ := by
    split_ifs with h24
    · exact ⟨(by decide : 16 ≠ 0), fun s' _ => ⟨(by decide : 24 ≠ 0), fun _ _ => trivial⟩⟩
    · trivial

/-- Timers 24, 16, 32 and 8 are armed; timer 32 does not expire at tick 5. -/
def sampleArmed : TimerSys :=
  { timerInit 5 with
    timers :=
      { head := 24
        next := fun p => if p = 24 then 16 else if p = 16 then 32 else if p = 32 then 8 else 0
        expires := fun p => if p = 32 then 6 else 5
        function := fun _ => .processTimeout
        data := fun _ => 0 }
    armings := 4 }

/-- Timer 24 is called, and then timer 8. -/
theorem runTimerSoftirq_calls_two :
    ∃ calls t, runTimerSoftirq sampleFunctions 0 5 sampleArmed = some (calls, t) ∧
      t.fired = [8, 24] ∧ (calls.map Prod.fst).Nodup := by
  have hlisted : TimersListed sampleArmed [24, 16, 32, 8] :=
    ⟨⟨⟨rfl, by decide, rfl, by decide, rfl, by decide, rfl, by decide, rfl⟩, by decide⟩, by decide⟩
  obtain ⟨calls, t, hrun, -, hnodup, -⟩ := runTimerSoftirq_calls (c := 0) hlisted rfl sampleFunctions
  have hfired : (runTimerSoftirq sampleFunctions 0 5 sampleArmed).map (fun r => r.2.fired) =
      some [8, 24] := by decide +kernel
  have hrun' : runTimerSoftirq sampleFunctions 0 5 sampleArmed = some (calls, t) := hrun
  rw [hrun'] at hfired
  exact ⟨calls, t, hrun', Option.some.inj hfired, hnodup⟩

end Kernel
end ToutOS
