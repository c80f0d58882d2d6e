import ToutOS.Kernel.Timer

/-!
# TimerHistory — every arming of a timer, and the call it leads to

`Timer` has the timer list as the code changes it.  Here its runs are watched: how often each timer
has been armed, whether its last arming is still outstanding, and which arming each call of a timer
function answers.

* `nextList` — what a step does to the list of timers, said on the list itself; `timerStep_list`
  is the statement that the pointers do the same.
* `timerStep_completes` — no step runs past the end of the list.
* `TimerHistory` — a run with the record kept beside it.  `add_timer` and `mod_timer` arm,
  `del_timer` and the removal in `run_timer_softirq` disarm.
* `HistoryInv` — the timers on the list are the armed ones, and every call has used up an arming.

A timer function may call `add_timer`, `del_timer`, `mod_timer` and `run_timer_softirq` itself:
these are the steps that come between two sections of the run that calls it, and a run begun by a
timer function is one more entry of `runs`.
-/

namespace ToutOS
namespace Kernel

open Base

/-! ## Steps on the list -/

/-- `s` threads the timers `l`, and the bound on the walks covers them. -/
structure TimersListed (s : TimerSys) (l : List Nat) : Prop where
  threads : Threads s.timers l
  length_le : l.length ≤ s.armings

theorem TimersListed.armed_eq {s : TimerSys} {l : List Nat} (h : TimersListed s l) : s.armed = l :=
  collect_eq h.threads.chain h.length_le

theorem TimersListed.zero_notMem {s : TimerSys} {l : List Nat} (h : TimersListed s l) : 0 ∉ l :=
  chain_ne_null h.threads.chain

/-- The timer whose function the run on CPU `c` calls next; `0` when the run is over. -/
def calledTimer (s : TimerSys) (c : Nat) : Nat :=
  ((s.runs c).bind fun r => (runTimerSection s.armings s.timers r.tick).map Prod.fst).getD 0

/-- The list after a step. -/
def nextList (s : TimerSys) (l : List Nat) : TimerAction → List Nat
  | .arm _ p => p :: l
  | .add p _ _ _ => p :: l
  | .mod p _ => p :: l.erase p
  | .del p => l.erase p
  | .pass c => l.erase (calledTimer s c)
  | .timerIrq => l
  | .readTick _ _ => l
  | .start _ => l

theorem TimersListed.armTimer {s s' : TimerSys} {l : List Nat} {p e d : Nat} {f : TimerFunc}
    (h : TimersListed s l) (hstep : armTimer s p e f d = some s') : p ∉ l ∧ TimersListed s' (p :: l) := by
  simp only [Kernel.armTimer, Option.ite_none_right_eq_some, Option.some.injEq, h.armed_eq] at hstep
  obtain ⟨⟨hp0, hp⟩, rfl⟩ := hstep
  refine ⟨hp, addTimer_spec ⟨h.threads.chain, h.threads.nodup⟩ hp0 hp, ?_⟩
  have := h.length_le
  simp only [List.length_cons]
  omega

theorem TimersListed.dropTimer {s : TimerSys} {l : List Nat} (h : TimersListed s l) (p : Nat) :
    ∃ s', dropTimer s p = some s' ∧ TimersListed s' (l.erase p) ∧ s'.armings = s.armings := by
  obtain ⟨tl, hdel, hthreads, -, -, -⟩ := delTimer_spec (p := p) h.threads h.length_le
  refine ⟨_, congrArg (Option.map _) hdel, ?_, rfl⟩
  exact ⟨hthreads, Nat.le_trans List.length_erase_le h.length_le⟩

/-- A section of `run_timer_softirq` removes the timer it is going to call, and that one only. -/
theorem TimersListed.sectionStep {s : TimerSys} {l : List Nat} {c : Nat} {r : TimerRun}
    (h : TimersListed s l) (hr : s.runs c = some r) :
    ∃ s', sectionStep s c r = some s' ∧ TimersListed s' (l.erase (calledTimer s c)) ∧
      (calledTimer s c = 0 ∨ calledTimer s c ∈ l) ∧
      s'.fired = if calledTimer s c = 0 then s.fired else calledTimer s c :: s.fired := by
  rcases runTimerSection_cases r.tick h.threads h.length_le with
    ⟨p, hp, tl, hp0, -, hsection, hthreads, -⟩ | ⟨hsection, -⟩
  · have hcalled : calledTimer s c = p := by
      rw [calledTimer, hr, Option.bind_some, hsection]
      rfl
    rw [hcalled, Kernel.sectionStep, hsection, Option.map_some]
    simp only [if_neg hp0]
    exact ⟨_, rfl, ⟨hthreads, Nat.le_trans List.length_erase_le h.length_le⟩, Or.inr hp, rfl⟩
  · have hcalled : calledTimer s c = 0 := by
      rw [calledTimer, hr, Option.bind_some, hsection]
      rfl
    rw [hcalled, Kernel.sectionStep, hsection, Option.map_some]
    simp only [if_true, List.erase_of_not_mem h.zero_notMem]
    exact ⟨_, rfl, ⟨h.threads, h.length_le⟩, Or.inl trivial, rfl⟩

/-- What a caller owes: `add_timer` gets a timer that is not on the list, no call gets `NULL`, and a
section belongs to a run that has begun. -/
def Performable (s : TimerSys) : TimerAction → Prop
  | .arm k p => s.timeouts k ≠ none ∧ p ≠ 0 ∧ p ∉ s.armed
  | .add p _ _ _ => p ≠ 0 ∧ p ∉ s.armed
  | .mod p _ => p ≠ 0
  | .del p => p ≠ 0
  | .start c => s.runs c = none
  | .pass c => s.runs c ≠ none
  | .timerIrq => True
  | .readTick _ _ => True

/-- Such a step completes: every walk ends at the end of the list. -/
theorem timerStep_completes {s : TimerSys} {l : List Nat} (h : TimersListed s l) {a : TimerAction}
    (ha : Performable s a) : ∃ s', timerStep s a = some s' := by
  cases a with
  | timerIrq => exact ⟨_, rfl⟩
  | readTick k timeout => exact ⟨_, rfl⟩
  | arm k p =>
      obtain ⟨htimeout, hp⟩ := ha
      obtain ⟨e, he⟩ := Option.ne_none_iff_exists'.1 htimeout
      exact ⟨_, by rw [timerStep, he, Option.bind_some]; exact if_pos hp⟩
  | add p e f d => exact ⟨_, if_pos ha⟩
  | mod p e =>
      obtain ⟨s₁, hdrop, -, -⟩ := h.dropTimer p
      exact ⟨_, by rw [timerStep, if_neg ha, hdrop]; rfl⟩
  | del p =>
      obtain ⟨s₁, hdrop, -, -⟩ := h.dropTimer p
      exact ⟨s₁, by rw [timerStep, if_neg ha, hdrop]⟩
  | start c => exact ⟨_, if_pos ha⟩
  | pass c =>
      obtain ⟨r, hr⟩ := Option.ne_none_iff_exists'.1 ha
      obtain ⟨s₁, hsection, -, -, -⟩ := h.sectionStep hr
      exact ⟨s₁, by rw [timerStep, hr, Option.bind_some, hsection]⟩

/-- The pointers change as the list does. -/
theorem timerStep_list {s s' : TimerSys} {l : List Nat} (h : TimersListed s l) {a : TimerAction}
    (hstep : timerStep s a = some s') : TimersListed s' (nextList s l a) := by
  cases a with
  | timerIrq =>
      simp only [timerStep, Option.some.injEq] at hstep
      subst hstep
      exact ⟨h.threads, h.length_le⟩
  | readTick k timeout =>
      simp only [timerStep, Option.some.injEq] at hstep
      subst hstep
      exact ⟨h.threads, h.length_le⟩
  | arm k p =>
      simp only [timerStep, Option.bind_eq_some_iff] at hstep
      obtain ⟨e, -, hstep⟩ := hstep
      have h' : TimersListed { s with timeouts := Function.update s.timeouts k none } l :=
        ⟨h.threads, h.length_le⟩
      exact (h'.armTimer hstep).2
  | add p e f d => exact (h.armTimer hstep).2
  | mod p e =>
      simp only [timerStep, Option.ite_none_left_eq_some, Option.map_eq_some_iff] at hstep
      obtain ⟨hp0, s₁, hdrop, rfl⟩ := hstep
      obtain ⟨s₂, hdrop', h₁, -⟩ := h.dropTimer p
      obtain rfl := Option.some.inj (hdrop.symm.trans hdrop')
      -- it is off the list, and goes back to the front of it
      have hp : p ∉ l.erase p := fun hp => (h.threads.nodup.mem_erase_iff.1 hp).1 rfl
      refine ⟨addTimer_spec ⟨h₁.threads.chain, h₁.threads.nodup⟩ hp0 hp, ?_⟩
      have := h₁.length_le
      simp only [List.length_cons, nextList]
      omega
  | del p =>
      simp only [timerStep, Option.ite_none_left_eq_some] at hstep
      obtain ⟨s₂, hdrop, h₁, -⟩ := h.dropTimer p
      obtain rfl := Option.some.inj (hstep.2.symm.trans hdrop)
      exact h₁
  | start c =>
      simp only [timerStep, Option.ite_none_right_eq_some, Option.some.injEq] at hstep
      obtain ⟨-, rfl⟩ := hstep
      exact ⟨h.threads, h.length_le⟩
  | pass c =>
      simp only [timerStep, Option.bind_eq_some_iff] at hstep
      obtain ⟨r, hr, hstep⟩ := hstep
      obtain ⟨s₁, hsection, h₁, -, -⟩ := h.sectionStep hr
      obtain rfl := Option.some.inj (hstep.symm.trans hsection)
      exact h₁

/-! ## The history -/

/-- A run of the timer system and what it has done to each timer. -/
structure TimerHistory where
  sys : TimerSys
  /-- How often each timer has been armed. -/
  armings : Nat → Nat
  /-- The last arming of the timer is outstanding. -/
  isArmed : Nat → Bool
  /-- The calls of timer functions, last one first: the timer, and which of its armings the call
  answers. -/
  calls : List (Nat × Nat)

def TimerHistory.arm (h : TimerHistory) (p : Nat) : TimerHistory :=
  { h with
    armings := Function.update h.armings p (h.armings p + 1)
    isArmed := Function.update h.isArmed p true }

def TimerHistory.disarm (h : TimerHistory) (p : Nat) : TimerHistory :=
  { h with isArmed := Function.update h.isArmed p false }

/-- The function of `p` is called. -/
def TimerHistory.call (h : TimerHistory) (p : Nat) : TimerHistory :=
  { h.disarm p with calls := (p, h.armings p) :: h.calls }

/-- The record of a step. -/
def TimerHistory.note (h : TimerHistory) : TimerAction → TimerHistory
  | .arm _ p => h.arm p
  | .add p _ _ _ => h.arm p
  | .mod p _ => h.arm p
  | .del p => h.disarm p
  | .pass c => if calledTimer h.sys c = 0 then h else h.call (calledTimer h.sys c)
  | .timerIrq => h
  | .readTick _ _ => h
  | .start _ => h

def historyStep (h : TimerHistory) (a : TimerAction) : Option TimerHistory :=
  (timerStep h.sys a).map fun s => { h.note a with sys := s }

/-- Nothing armed, nothing called. -/
def historyInit (tick : Nat) : TimerHistory :=
  { sys := timerInit tick
    armings := fun _ => 0
    isArmed := fun _ => false
    calls := [] }

/-- The record agrees with the list. -/
structure HistoryInv (h : TimerHistory) (l : List Nat) : Prop where
  listed : TimersListed h.sys l
  mem_iff : ∀ p, p ∈ l ↔ h.isArmed p = true
  counted : ∀ p, h.isArmed p = true → 0 < h.armings p
  nodup : h.calls.Nodup
  /-- A call answers an arming that has been made, and one that is not outstanding any more. -/
  past : ∀ p n, (p, n) ∈ h.calls →
    0 < n ∧ n ≤ h.armings p ∧ (h.isArmed p = true → n < h.armings p)
  fired : h.calls.map Prod.fst = h.sys.fired

theorem historyInit_inv (tick : Nat) : HistoryInv (historyInit tick) [] :=
  { listed := ⟨⟨rfl, List.nodup_nil⟩, Nat.zero_le _⟩
    mem_iff := fun p => by simp [historyInit]
    counted := fun p hp => by cases hp
    nodup := List.nodup_nil
    past := fun p n hp => by cases hp
    fired := rfl }

/-- What the record of a step owes to the list after it. -/
structure NoteInv (h : TimerHistory) (l : List Nat) : Prop where
  mem_iff : ∀ p, p ∈ l ↔ h.isArmed p = true
  counted : ∀ p, h.isArmed p = true → 0 < h.armings p
  nodup : h.calls.Nodup
  past : ∀ p n, (p, n) ∈ h.calls →
    0 < n ∧ n ≤ h.armings p ∧ (h.isArmed p = true → n < h.armings p)

theorem HistoryInv.note {h : TimerHistory} {l : List Nat} (hi : HistoryInv h l) : NoteInv h l :=
  ⟨hi.mem_iff, hi.counted, hi.nodup, hi.past⟩

/-- Arming makes a new arming: no call has answered it. -/
theorem NoteInv.arm {h : TimerHistory} {l : List Nat} (hi : NoteInv h l) {p : Nat} {m : List Nat}
    (hm : ∀ q, q ≠ p → (q ∈ m ↔ q ∈ l)) : NoteInv (h.arm p) (p :: m) := by
  refine ⟨?_, ?_, hi.nodup, ?_⟩
  · intro q
    by_cases hq : q = p
    · simp [TimerHistory.arm, hq]
    · simp [TimerHistory.arm, hq, hm q hq, hi.mem_iff]
  · intro q hq
    by_cases hqp : q = p
    · simp [TimerHistory.arm, hqp]
    · simp only [TimerHistory.arm, Function.update_of_ne hqp] at hq ⊢
      exact hi.counted q hq
  · intro q n hq
    obtain ⟨hn0, hn, hlt⟩ := hi.past q n hq
    by_cases hqp : q = p
    · subst hqp
      simp only [TimerHistory.arm, Function.update_self]
      exact ⟨hn0, by omega, fun _ => by omega⟩
    · simp only [TimerHistory.arm, Function.update_of_ne hqp]
      exact ⟨hn0, hn, hlt⟩

theorem NoteInv.disarm {h : TimerHistory} {l : List Nat} (hi : NoteInv h l) (hl : l.Nodup)
    (p : Nat) : NoteInv (h.disarm p) (l.erase p) := by
  refine ⟨?_, ?_, hi.nodup, ?_⟩
  · intro q
    rw [hl.mem_erase_iff]
    by_cases hq : q = p
    · simp [TimerHistory.disarm, hq]
    · simp [TimerHistory.disarm, hq, hi.mem_iff]
  · intro q hq
    by_cases hqp : q = p
    · simp [TimerHistory.disarm, hqp] at hq
    · simp only [TimerHistory.disarm, Function.update_of_ne hqp] at hq
      exact hi.counted q hq
  · intro q n hq
    obtain ⟨hn0, hn, hlt⟩ := hi.past q n hq
    refine ⟨hn0, hn, fun harmed => ?_⟩
    by_cases hqp : q = p
    · simp [TimerHistory.disarm, hqp] at harmed
    · simp only [TimerHistory.disarm, Function.update_of_ne hqp] at harmed
      exact hlt harmed

/-- A call answers the outstanding arming of a timer on the list. -/
theorem NoteInv.call {h : TimerHistory} {l : List Nat} (hi : NoteInv h l) (hl : l.Nodup) {p : Nat}
    (hp : p ∈ l) : NoteInv (h.call p) (l.erase p) := by
  have harmed : h.isArmed p = true := (hi.mem_iff p).1 hp
  have hdis := hi.disarm hl p
  -- the earlier calls of `p` answered earlier armings
  have hfresh : (p, h.armings p) ∉ h.calls := fun hmem =>
    absurd ((hi.past p _ hmem).2.2 harmed) (Nat.lt_irrefl _)
  refine ⟨hdis.mem_iff, hdis.counted, List.nodup_cons.2 ⟨hfresh, hi.nodup⟩, ?_⟩
  intro q n hq
  rcases List.mem_cons.1 hq with heq | hq
  · obtain ⟨rfl, rfl⟩ := Prod.mk.inj heq
    refine ⟨hi.counted q harmed, Nat.le_refl _, fun hself => ?_⟩
    simp [TimerHistory.call, TimerHistory.disarm] at hself
  · exact hdis.past q n hq

theorem historyStep_inv {h h' : TimerHistory} {l : List Nat} (hi : HistoryInv h l)
    {a : TimerAction} (hstep : historyStep h a = some h') :
    HistoryInv h' (nextList h.sys l a) := by
  simp only [historyStep, Option.map_eq_some_iff] at hstep
  obtain ⟨s, hs, rfl⟩ := hstep
  have hlisted := timerStep_list hi.listed hs
  have hnodup := hi.listed.threads.nodup
  have herase : ∀ p q, q ≠ p → (q ∈ l.erase p ↔ q ∈ l) := fun p q hq =>
    List.mem_erase_of_ne hq
  -- the record by the kind of step; the calls agree with `fired` in each case
  have key : NoteInv (h.note a) (nextList h.sys l a) ∧ (h.note a).calls.map Prod.fst = s.fired := by
    cases a with
    | timerIrq =>
        simp only [timerStep, Option.some.injEq] at hs
        subst hs
        exact ⟨hi.note, hi.fired⟩
    | readTick k timeout =>
        simp only [timerStep, Option.some.injEq] at hs
        subst hs
        exact ⟨hi.note, hi.fired⟩
    | arm k p =>
        simp only [timerStep, Option.bind_eq_some_iff, armTimer, Option.ite_none_right_eq_some,
          Option.some.injEq] at hs
        obtain ⟨e, -, -, rfl⟩ := hs
        exact ⟨hi.note.arm fun q _ => Iff.rfl, hi.fired⟩
    | add p e f d =>
        simp only [timerStep, armTimer, Option.ite_none_right_eq_some, Option.some.injEq] at hs
        obtain ⟨-, rfl⟩ := hs
        exact ⟨hi.note.arm fun q _ => Iff.rfl, hi.fired⟩
    | mod p e =>
        simp only [timerStep, Option.ite_none_left_eq_some, Option.map_eq_some_iff, dropTimer] at hs
        obtain ⟨-, s₁, ⟨tl, -, rfl⟩, rfl⟩ := hs
        exact ⟨hi.note.arm (herase p), hi.fired⟩
    | del p =>
        simp only [timerStep, Option.ite_none_left_eq_some, Option.map_eq_some_iff, dropTimer] at hs
        obtain ⟨-, tl, -, rfl⟩ := hs
        exact ⟨hi.note.disarm hnodup p, hi.fired⟩
    | start c =>
        simp only [timerStep, Option.ite_none_right_eq_some, Option.some.injEq] at hs
        obtain ⟨-, rfl⟩ := hs
        exact ⟨hi.note, hi.fired⟩
    | pass c =>
        simp only [timerStep, Option.bind_eq_some_iff] at hs
        obtain ⟨r, hr, hs⟩ := hs
        obtain ⟨s₁, hsection, -, hmem, hfired⟩ := hi.listed.sectionStep hr
        obtain rfl := Option.some.inj (hs.symm.trans hsection)
        by_cases h0 : calledTimer h.sys c = 0
        · rw [if_pos h0] at hfired
          simp only [TimerHistory.note, nextList, if_pos h0, hfired]
          rw [h0, List.erase_of_not_mem hi.listed.zero_notMem]
          exact ⟨hi.note, hi.fired⟩
        · rw [if_neg h0] at hfired
          simp only [TimerHistory.note, nextList, if_neg h0, hfired]
          refine ⟨hi.note.call hnodup (hmem.resolve_left h0), ?_⟩
          simp [TimerHistory.call, hi.fired]
  exact ⟨hlisted, key.1.mem_iff, key.1.counted, key.1.nodup, key.1.past, key.2⟩

theorem historyRun_inv {tick : Nat} {acts : List TimerAction} {h : TimerHistory}
    (hrun : runFrom historyStep (historyInit tick) acts = some h) : ∃ l, HistoryInv h l :=
  runFrom_invariant (I := fun h => ∃ l, HistoryInv h l)
    (fun _ _ _ ⟨_, hi⟩ hstep => ⟨_, historyStep_inv hi hstep⟩) ⟨[], historyInit_inv tick⟩ hrun

/-! ## Whole runs -/

/-- After any run: the list from `head` ends and holds the armed timers, each once; whatever may be
called next completes; a timer is deleted without disturbing the others; a function is called at
most once for an arming, and its timer is then on the list only if it has been armed again. -/
theorem historyRun_list {tick : Nat} {acts : List TimerAction} {h : TimerHistory}
    (hrun : runFrom historyStep (historyInit tick) acts = some h) :
    (∃ l, Chain h.sys.timers.next 0 h.sys.timers.head l 0 ∧ l.Nodup ∧ h.sys.armed = l ∧
      ∀ p, p ∈ l ↔ h.isArmed p = true) ∧
    (∀ a, Performable h.sys a → ∃ h', historyStep h a = some h') ∧
    (∀ p h', historyStep h (.del p) = some h' → h'.sys.armed = h.sys.armed.erase p) ∧
    (∀ p e h', historyStep h (.mod p e) = some h' → h'.sys.armed = p :: h.sys.armed.erase p) ∧
    (∀ c h', historyStep h (.pass c) = some h' →
      h'.sys.armed = h.sys.armed.erase (calledTimer h.sys c)) ∧
    h.calls.Nodup ∧ h.calls.map Prod.fst = h.sys.fired ∧
    ∀ p n, (p, n) ∈ h.calls →
      0 < n ∧ n ≤ h.armings p ∧ (p ∈ h.sys.armed → n < h.armings p) := by
  obtain ⟨l, hi⟩ := historyRun_inv hrun
  have harmed : h.sys.armed = l := hi.listed.armed_eq
  have hnext : ∀ a h', historyStep h a = some h' → h'.sys.armed = nextList h.sys h.sys.armed a := by
    intro a h' hstep
    rw [harmed]
    exact (historyStep_inv hi hstep).listed.armed_eq
  refine ⟨⟨l, hi.listed.threads.chain, hi.listed.threads.nodup, harmed, hi.mem_iff⟩, ?_,
    fun p => hnext (.del p), fun p e => hnext (.mod p e), fun c => hnext (.pass c), hi.nodup,
    hi.fired, ?_⟩
  · intro a ha
    obtain ⟨s', hs'⟩ := timerStep_completes hi.listed ha
    exact ⟨_, by rw [historyStep, hs', Option.map_some]⟩
  · intro p n hp
    obtain ⟨hn0, hn, hlt⟩ := hi.past p n hp
    refine ⟨hn0, hn, fun hmem => hlt ((hi.mem_iff p).1 ?_)⟩
    rwa [← harmed]

/-- Three timers, two of them due.  The function of the first one called deletes one timer, moves
another and adds its own timer again; it is called a second time. -/
def sampleTimers : List TimerAction :=
  [.add 8 5 (.code 1) 0, .add 16 5 (.code 2) 0, .add 24 7 (.code 3) 0, .start 0, .pass 0,
    .del 24, .mod 8 9, .add 16 5 (.code 2) 0, .pass 0, .pass 0]

theorem historyRun_sample :
    ∃ h, runFrom historyStep (historyInit 5) sampleTimers = some h ∧
      h.sys.armed = [8] ∧ h.calls = [(16, 2), (16, 1)] ∧ h.calls.Nodup ∧
      ∀ p, p ∈ h.sys.armed ↔ h.isArmed p = true := by
  have hend : (runFrom historyStep (historyInit 5) sampleTimers).map
      (fun h => (h.sys.armed, h.calls)) = some ([8], [(16, 2), (16, 1)]) := by
    decide +kernel
  obtain ⟨h, hrun, hh⟩ := Option.map_eq_some_iff.1 hend
  obtain ⟨harmed, hcalls⟩ := Prod.mk.inj hh
  obtain ⟨⟨l, -, -, hl, hmem⟩, -, -, -, -, hnodup, -, -⟩ := historyRun_list hrun
  exact ⟨h, hrun, harmed, hcalls, hnodup, fun p => by rw [hl]; exact hmem p⟩

end Kernel
end ToutOS
