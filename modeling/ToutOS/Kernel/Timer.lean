import Mathlib.Algebra.Group.Nat.Defs
import Mathlib.Data.List.Basic
import Mathlib.Data.List.Nodup
import Mathlib.Logic.Function.Basic
import ToutOS.Base.Run
import ToutOS.Base.Chain

/-!
# Timer — the timer list of `kernel/timer.c` and who works on it

Armed timers hang on a singly linked list.  `add_timer`, `del_timer` and `mod_timer` change it under
`timerlist_lock`; `run_timer_softirq` reads the tick, then repeatedly takes the lock, removes the
first timer whose `expires` equals that tick, drops the lock and calls the timer's function, until a
whole pass finds none.

* `addTimer`, `delTimer`, `findExpired` — the list operations on the `next` pointers.  Loops take a
  bound on the number of iterations; `delTimer_spec` and `findExpired_spec` show that the length of
  the list is enough.
* `timerStep` — timer interrupts, armings and softirq runs on any CPU, in any order.  What a timer
  function does to the list is covered by the steps that can come between two sections of a run.
* `DueTimersGone` — what a completed run owes: every timer that was due when it began has been taken
  off the list.
-/

namespace ToutOS
namespace Kernel

open Base

/-! ## The list -/

/-- The functions a timer is armed with: `process_timeout` of `schedule_timeout`, or the address of
another one. -/
inductive TimerFunc
  | processTimeout
  | code (addr : Nat)
  deriving DecidableEq, Repr

/-- `head` and the fields of the timers, by address; `0` is `NULL`. -/
structure TimerList where
  head : Nat
  next : Nat → Nat
  expires : Nat → Nat
  function : Nat → TimerFunc
  data : Nat → Nat

/-- `_add_timer`. -/
def addTimer (tl : TimerList) (p : Nat) : TimerList :=
  { tl with next := Function.update tl.next p tl.head, head := p }

/-- What `_del_timer` does once `cur` is the timer to delete and `prev` the one before it. -/
def unlinkTimer (tl : TimerList) (prev cur : Nat) : TimerList :=
  let next := if prev ≠ 0 then Function.update tl.next prev (tl.next cur) else tl.next
  { tl with
    head := if tl.head = cur then next cur else tl.head
    next := Function.update next cur 0 }

/-- The loop of `_del_timer`. -/
def delTimerLoop (tl : TimerList) (p : Nat) : Nat → Nat → Nat → Option TimerList
  | 0, _, cur => if cur = 0 then some tl else none
  | fuel + 1, prev, cur =>
      if cur = 0 then some tl
      else if cur = p then some (unlinkTimer tl prev cur)
      else delTimerLoop tl p fuel cur (tl.next cur)

/-- `_del_timer`. -/
def delTimer (fuel : Nat) (tl : TimerList) (p : Nat) : Option TimerList :=
  delTimerLoop tl p fuel 0 tl.head

/-- The scan of `run_timer_softirq`: the first timer from `cur` on that expires now, `0` if there is
none. -/
def findExpired (tl : TimerList) (tick : Nat) : Nat → Nat → Option Nat
  | 0, cur => if cur = 0 then some 0 else none
  | fuel + 1, cur =>
      if cur = 0 then some 0
      else if tl.expires cur = tick then some cur
      else findExpired tl tick fuel (tl.next cur)

/-- What `run_timer_softirq` does from taking `timerlist_lock` to dropping it: the timer whose
function is called next, `0` when the run is over. -/
def runTimerSection (fuel : Nat) (tl : TimerList) (tick : Nat) : Option (Nat × TimerList) :=
  (findExpired tl tick fuel tl.head).bind fun cur =>
    if cur = 0 then some (0, tl) else (delTimer fuel tl cur).map fun tl' => (cur, tl')

/-! ## Interleaving -/

/-- A run of `run_timer_softirq`: the tick it read, the timers of the list that were due then, and
the timers `_del_timer` has been applied to since. -/
structure TimerRun where
  tick : Nat
  due : List Nat
  gone : List Nat
  deriving DecidableEq, Repr

structure TimerSys where
  timers : TimerList
  tick : Nat
  /-- How often a timer has been added; bounds the length of the list. -/
  armings : Nat
  /-- The expiry a task has computed in `schedule_timeout` and not yet armed a timer with. -/
  timeouts : Nat → Option Nat
  /-- The run in progress on each CPU. -/
  runs : Nat → Option TimerRun
  completed : List TimerRun
  /-- The timers whose function has been called, last one first. -/
  fired : List Nat

/-- The timers on the list. -/
def TimerSys.armed (s : TimerSys) : List Nat := collect s.timers.next 0 s.armings s.timers.head

/-- `_del_timer` has been applied to `p`. -/
def TimerRun.note (p : Nat) (r : TimerRun) : TimerRun := { r with gone := p :: r.gone }

inductive TimerAction
  /-- `handle_timer_irq` on CPU 0. -/
  | timerIrq
  /-- Task `k` computes the expiry in `schedule_timeout(timeout)`. -/
  | readTick (k timeout : Nat)
  /-- Task `k` arms its timer `p` in `schedule_timeout`. -/
  | arm (k p : Nat)
  /-- `add_timer(p)` on a timer with these fields. -/
  | add (p expires : Nat) (function : TimerFunc) (data : Nat)
  /-- `mod_timer(p, expires)`. -/
  | mod (p expires : Nat)
  /-- `del_timer(p)`. -/
  | del (p : Nat)
  /-- `run_timer_softirq` reads the tick on CPU `c`. -/
  | start (c : Nat)
  /-- The run on CPU `c` executes its next section under `timerlist_lock`. -/
  | pass (c : Nat)
  deriving DecidableEq, Repr

/-- `add_timer` on a timer that has been filled in; it must not be on the list. -/
def armTimer (s : TimerSys) (p expires : Nat) (function : TimerFunc) (data : Nat) :
    Option TimerSys :=
  if p ≠ 0 ∧ p ∉ s.armed then
    let tl := { s.timers with
      expires := Function.update s.timers.expires p expires
      function := Function.update s.timers.function p function
      data := Function.update s.timers.data p data }
    some { s with timers := addTimer tl p, armings := s.armings + 1 }
  else none

/-- `_del_timer(p)` on the shared list. -/
def dropTimer (s : TimerSys) (p : Nat) : Option TimerSys :=
  (delTimer s.armings s.timers p).map fun tl =>
    { s with timers := tl, runs := fun c => (s.runs c).map (TimerRun.note p) }

/-- The section of the run on CPU `c`, which read the tick `r.tick`. -/
def sectionStep (s : TimerSys) (c : Nat) (r : TimerRun) : Option TimerSys :=
  (runTimerSection s.armings s.timers r.tick).map fun (cur, tl) =>
    if cur = 0 then
      { s with runs := Function.update s.runs c none, completed := r :: s.completed }
    else
      { s with
        timers := tl
        runs := fun c => (s.runs c).map (TimerRun.note cur)
        fired := cur :: s.fired }

def timerStep (s : TimerSys) : TimerAction → Option TimerSys
  | .timerIrq => some { s with tick := (s.tick + 1) % 2 ^ 64 }
  | .readTick k timeout =>
      some { s with timeouts := Function.update s.timeouts k (some ((timeout + s.tick) % 2 ^ 32)) }
  | .arm k p =>
      (s.timeouts k).bind fun expires =>
        armTimer { s with timeouts := Function.update s.timeouts k none } p expires .processTimeout k
  | .add p expires function data => armTimer s p expires function data
  | .mod p expires =>
      if p = 0 then none
      else
        (dropTimer s p).map fun s' =>
          let tl := { s'.timers with expires := Function.update s'.timers.expires p expires }
          { s' with timers := addTimer tl p, armings := s'.armings + 1 }
  | .del p => if p = 0 then none else dropTimer s p
  | .start c =>
      if s.runs c = none then
        let run := { tick := s.tick
                     due := s.armed.filter fun p => s.timers.expires p ≤ s.tick
                     gone := [] }
        some { s with runs := Function.update s.runs c (some run) }
      else none
  | .pass c => (s.runs c).bind fun r => sectionStep s c r

/-- No timers, no softirq runs. -/
def timerInit (tick : Nat) : TimerSys :=
  { timers :=
      { head := 0
        next := fun _ => 0
        expires := fun _ => 0
        function := fun _ => .processTimeout
        data := fun _ => 0 }
    tick := tick
    armings := 0
    timeouts := fun _ => none
    runs := fun _ => none
    completed := []
    fired := [] }

/-- Every completed run has taken off the list all timers that were due when it began. -/
def DueTimersGone (s : TimerSys) : Prop :=
  ∀ r ∈ s.completed, ∀ p ∈ r.due, p ∈ r.gone

/-- A run of `run_timer_softirq` begins while the list holds a timer whose expiry has passed. -/
def BeginsOverdue (s : TimerSys) : TimerAction → Prop
  | .start _ => ∃ p ∈ s.armed, s.timers.expires p < s.tick
  | _ => False

instance (s : TimerSys) : ∀ a, Decidable (BeginsOverdue s a)
  | .start _ => inferInstanceAs (Decidable (∃ p ∈ s.armed, s.timers.expires p < s.tick))
  | .timerIrq | .readTick _ _ | .arm _ _ | .add _ _ _ _ | .mod _ _ | .del _ | .pass _ =>
      isFalse id

/-! ## The list operations on the list -/

/-- `tl` threads the nodes `l`, each once. -/
structure Threads (tl : TimerList) (l : List Nat) : Prop where
  chain : Chain tl.next 0 tl.head l 0
  nodup : l.Nodup

theorem addTimer_spec {tl : TimerList} {l : List Nat} {p : Nat} (h : Threads tl l) (hp : p ≠ 0)
    (hmem : p ∉ l) : Threads (addTimer tl p) (p :: l) := by
  refine ⟨⟨rfl, hp, ?_⟩, List.nodup_cons.2 ⟨hmem, h.nodup⟩⟩
  simpa [addTimer] using chain_update hmem h.chain

/-- Unlinking the node after the initial piece `pre`. -/
theorem unlinkTimer_spec {tl : TimerList} {pre post : List Nat} {cur : Nat}
    (h : Threads tl (pre ++ cur :: post)) :
    Threads (unlinkTimer tl (pre.getLast?.getD 0) cur) (pre ++ post) := by
  obtain ⟨hcur, hnodup⟩ := List.nodup_cons.1 (List.nodup_middle.1 h.nodup)
  simp only [List.mem_append, not_or] at hcur
  obtain ⟨x, hpre, rfl, hx0, hpost⟩ := chain_append.1 h.chain
  refine ⟨?_, hnodup⟩
  rcases List.eq_nil_or_concat pre with rfl | ⟨pre', q, rfl⟩
  · have hhead : tl.head = x := hpre
    simpa [unlinkTimer, hhead] using chain_update hcur.2 hpost
  · rw [List.concat_eq_append] at *
    have hq0 : q ≠ 0 := by
      rintro rfl
      exact chain_ne_null hpre (by simp)
    have hxq : x ≠ q := by
      rintro rfl
      exact hcur.1 (by simp)
    have hhead : tl.head ≠ x := by
      rintro rfl
      exact hcur.1 (chain_head_mem hpre (by simp))
    have hqpre : q ∉ pre' := by
      have := (List.nodup_append.1 hnodup).1
      exact fun hq => (List.nodup_append.1 this).2.2 q hq q (by simp) rfl
    have hqpost : q ∉ post := fun hq =>
      (List.nodup_append.1 hnodup).2.2 q (by simp) q hq rfl
    -- `prev->next` skips the node, which is then cut off itself
    have hchain : Chain (Function.update tl.next q (tl.next x)) 0 tl.head (pre' ++ [q] ++ post) 0 :=
      chain_append.2 ⟨tl.next x, chain_redirect hqpre hpre, chain_update hqpost hpost⟩
    have hcut := chain_update (x := 0) (q := x) (by simpa [and_assoc] using hcur) hchain
    simpa [unlinkTimer, hq0, hhead] using hcut

/-- The loop of `_del_timer` past the initial piece `pre`. -/
theorem delTimerLoop_spec {tl : TimerList} {p : Nat} {fuel : Nat} :
    ∀ {pre post : List Nat} {cur : Nat}, Threads tl (pre ++ post) → Chain tl.next 0 cur post 0 →
      post.length ≤ fuel →
      ∃ tl', delTimerLoop tl p fuel (pre.getLast?.getD 0) cur = some tl' ∧
        Threads tl' (pre ++ post.erase p) ∧ tl'.expires = tl.expires ∧
        tl'.function = tl.function ∧ tl'.data = tl.data := by
  induction fuel with
  | zero =>
      intro pre post cur h hcur hfuel
      obtain rfl : post = [] := List.length_eq_zero_iff.1 (by omega)
      have hcur0 : cur = 0 := hcur
      exact ⟨tl, by simp [delTimerLoop, hcur0], h, rfl, rfl, rfl⟩
  | succ fuel ih =>
      intro pre post cur h hcur hfuel
      cases post with
      | nil =>
          have hcur0 : cur = 0 := hcur
          exact ⟨tl, by simp [delTimerLoop, hcur0], h, rfl, rfl, rfl⟩
      | cons q post =>
          obtain ⟨rfl, hq0, hpost⟩ := hcur
          by_cases hqp : cur = p
          · subst hqp
            refine ⟨unlinkTimer tl (pre.getLast?.getD 0) cur, ?_, ?_, rfl, rfl, rfl⟩
            · simp [delTimerLoop, hq0]
            · simpa using unlinkTimer_spec h
          · obtain ⟨tl', hdel, hthreads, hfields⟩ :=
              @ih (pre ++ [cur]) post (tl.next cur) (by simpa using h) hpost (by simpa using hfuel)
            refine ⟨tl', ?_, ?_, hfields⟩
            · simpa [delTimerLoop, hq0, hqp] using hdel
            · simpa [hqp] using hthreads

/-- `_del_timer` takes the timer off the list, if it is there, and changes no other field. -/
theorem delTimer_spec {tl : TimerList} {l : List Nat} {p fuel : Nat} (h : Threads tl l)
    (hfuel : l.length ≤ fuel) :
    ∃ tl', delTimer fuel tl p = some tl' ∧ Threads tl' (l.erase p) ∧ tl'.expires = tl.expires ∧
      tl'.function = tl.function ∧ tl'.data = tl.data := by
  simpa [delTimer] using @delTimerLoop_spec tl p fuel [] l tl.head (by simpa using h) h.chain hfuel

theorem findExpired_spec {tl : TimerList} {tick fuel : Nat} :
    ∀ {l : List Nat} {cur : Nat}, Chain tl.next 0 cur l 0 → l.length ≤ fuel →
      (∃ p ∈ l, findExpired tl tick fuel cur = some p ∧ tl.expires p = tick) ∨
        (findExpired tl tick fuel cur = some 0 ∧ ∀ p ∈ l, tl.expires p ≠ tick) := by
  induction fuel with
  | zero =>
      intro l cur h hfuel
      obtain rfl : l = [] := List.length_eq_zero_iff.1 (by omega)
      have hcur0 : cur = 0 := h
      exact Or.inr ⟨by simp [findExpired, hcur0], by simp⟩
  | succ fuel ih =>
      intro l cur h hfuel
      cases l with
      | nil =>
          have hcur0 : cur = 0 := h
          exact Or.inr ⟨by simp [findExpired, hcur0], by simp⟩
      | cons q l =>
          obtain ⟨rfl, hq0, hl⟩ := h
          by_cases hexp : tl.expires cur = tick
          · exact Or.inl ⟨cur, by simp, by simp [findExpired, hq0, hexp], hexp⟩
          · rcases ih hl (by simpa using hfuel) with ⟨p, hp, hfind, hpe⟩ | ⟨hfind, hnone⟩
            · exact Or.inl ⟨p, by simp [hp], by simpa [findExpired, hq0, hexp] using hfind, hpe⟩
            · exact Or.inr ⟨by simpa [findExpired, hq0, hexp] using hfind, by simpa [hexp] using hnone⟩

/-- A section of `run_timer_softirq` takes a timer that is due off the list, or there is none. -/
theorem runTimerSection_cases {tl : TimerList} {l : List Nat} {fuel : Nat} (tick : Nat) (h : Threads tl l)
    (hfuel : l.length ≤ fuel) :
    (∃ p ∈ l, ∃ tl', p ≠ 0 ∧ tl.expires p = tick ∧ runTimerSection fuel tl tick = some (p, tl') ∧
        Threads tl' (l.erase p) ∧ tl'.expires = tl.expires) ∨
      (runTimerSection fuel tl tick = some (0, tl) ∧ ∀ p ∈ l, tl.expires p ≠ tick) := by
  rcases @findExpired_spec tl tick fuel l tl.head h.chain hfuel with ⟨p, hp, hfind, hexp⟩ | ⟨hfind, hnone⟩
  · have hp0 : p ≠ 0 := by
      rintro rfl
      exact chain_ne_null h.chain hp
    obtain ⟨tl', hdel, hthreads, hexpires, -, -⟩ := delTimer_spec (p := p) h hfuel
    refine Or.inl ⟨p, hp, tl', hp0, hexp, ?_, hthreads, hexpires⟩
    rw [runTimerSection, hfind, Option.bind_some, if_neg hp0, hdel, Option.map_some]
  · refine Or.inr ⟨?_, hnone⟩
    rw [runTimerSection, hfind, Option.bind_some, if_pos rfl]

/-! ## The invariant -/

/-- A due timer of a run in progress has been removed, or is still on the list and expires at the
tick of the run. -/
def RunInv (armed : List Nat) (expires : Nat → Nat) (r : TimerRun) : Prop :=
  ∀ p ∈ r.due, p ∈ r.gone ∨ (p ∈ armed ∧ expires p = r.tick)

structure TimerInv (s : TimerSys) (l : List Nat) : Prop where
  threads : Threads s.timers l
  length_le : l.length ≤ s.armings
  active : ∀ c r, s.runs c = some r → RunInv l s.timers.expires r
  done : DueTimersGone s

theorem TimerInv.armed_eq {s : TimerSys} {l : List Nat} (h : TimerInv s l) : s.armed = l :=
  collect_eq h.threads.chain h.length_le

theorem timerInit_inv (tick : Nat) : TimerInv (timerInit tick) [] := by
  refine ⟨⟨rfl, List.nodup_nil⟩, Nat.zero_le _, ?_, ?_⟩
  · intro c r h
    cases h
  · intro r h
    cases h

/-- Adding a timer that is not on the list disturbs no run in progress. -/
theorem RunInv.add {l : List Nat} {expires : Nat → Nat} {r : TimerRun} {p e : Nat}
    (h : RunInv l expires r) (hp : p ∉ l) :
    RunInv (p :: l) (Function.update expires p e) r := by
  intro q hq
  rcases h q hq with hgone | ⟨hmem, hexp⟩
  · exact Or.inl hgone
  · have hqp : q ≠ p := by
      rintro rfl
      exact hp hmem
    exact Or.inr ⟨List.mem_cons_of_mem _ hmem, by simpa [hqp] using hexp⟩

/-- A removal is noted by every run in progress. -/
theorem RunInv.drop {l : List Nat} {expires : Nat → Nat} {r : TimerRun} {p : Nat}
    (h : RunInv l expires r) : RunInv (l.erase p) expires (r.note p) := by
  intro q hq
  by_cases hqp : q = p
  · exact Or.inl (by simp [TimerRun.note, hqp])
  · rcases h q hq with hgone | ⟨hmem, hexp⟩
    · exact Or.inl (by simp [TimerRun.note, hgone])
    · exact Or.inr ⟨(List.mem_erase_of_ne hqp).2 hmem, hexp⟩

theorem armTimer_inv {s s' : TimerSys} {l : List Nat} {p e d : Nat} {f : TimerFunc}
    (h : TimerInv s l) (hstep : armTimer s p e f d = some s') : TimerInv s' (p :: l) := by
  simp only [armTimer, Option.ite_none_right_eq_some, Option.some.injEq, h.armed_eq] at hstep
  obtain ⟨⟨hp0, hp⟩, rfl⟩ := hstep
  refine ⟨addTimer_spec ⟨h.threads.chain, h.threads.nodup⟩ hp0 hp, ?_, ?_, h.done⟩
  · have := h.length_le
    simp only [List.length_cons]
    omega
  · intro c r hr
    exact (h.active c r hr).add hp

theorem dropTimer_inv {s s' : TimerSys} {l : List Nat} {p : Nat} (h : TimerInv s l)
    (hstep : dropTimer s p = some s') :
    TimerInv s' (l.erase p) ∧ s'.armings = s.armings := by
  obtain ⟨tl, hdel, hthreads, hexp, -, -⟩ := delTimer_spec (p := p) h.threads h.length_le
  simp only [dropTimer, hdel, Option.map_some, Option.some.injEq] at hstep
  subst hstep
  refine ⟨⟨hthreads, Nat.le_trans List.length_erase_le h.length_le, ?_, h.done⟩, rfl⟩
  intro c r hr
  simp only [Option.map_eq_some_iff] at hr
  obtain ⟨r', hr', rfl⟩ := hr
  simpa only [hexp] using (h.active c r' hr').drop

/-- A pass that finds nothing completes its run: all due timers have been removed. -/
theorem sectionStep_inv {s s' : TimerSys} {l : List Nat} {c : Nat} {r : TimerRun}
    (h : TimerInv s l) (hr : s.runs c = some r) (hstep : sectionStep s c r = some s') :
    ∃ l', TimerInv s' l' := by
  rcases runTimerSection_cases r.tick h.threads h.length_le with
    ⟨p, hp, tl, hp0, -, hsection, hthreads, hexp⟩ | ⟨hsection, hnone⟩
  · simp only [sectionStep, hsection, hp0, if_false, Option.map_some, Option.some.injEq] at hstep
    subst hstep
    refine ⟨l.erase p, hthreads, Nat.le_trans List.length_erase_le h.length_le, ?_, h.done⟩
    intro c' r' hr'
    simp only [Option.map_eq_some_iff] at hr'
    obtain ⟨r₀, hr₀, rfl⟩ := hr'
    simpa only [hexp] using (h.active c' r₀ hr₀).drop
  · simp only [sectionStep, hsection, if_true, Option.map_some, Option.some.injEq] at hstep
    subst hstep
    refine ⟨l, h.threads, h.length_le, ?_, ?_⟩
    · intro c' r' hr'
      by_cases hc : c' = c
      · simp [hc] at hr'
      · exact h.active c' r' (by simpa [hc] using hr')
    · intro r' hr' p hp
      rcases List.mem_cons.1 hr' with rfl | hr'
      · rcases h.active c r' hr p hp with hgone | ⟨hmem, hexp⟩
        · exact hgone
        · exact absurd hexp (hnone p hmem)
      · exact h.done r' hr' p hp

theorem timerStep_inv (s : TimerSys) (a : TimerAction) (s' : TimerSys)
    (h : ∃ l, TimerInv s l) (hlate : ¬ BeginsOverdue s a) (hstep : timerStep s a = some s') :
    ∃ l, TimerInv s' l := by
  obtain ⟨l, h⟩ := h
  cases a with
  | timerIrq =>
      simp only [timerStep, Option.some.injEq] at hstep
      subst hstep
      exact ⟨l, h.threads, h.length_le, h.active, h.done⟩
  | readTick k timeout =>
      simp only [timerStep, Option.some.injEq] at hstep
      subst hstep
      exact ⟨l, h.threads, h.length_le, h.active, h.done⟩
  | arm k p =>
      simp only [timerStep, Option.bind_eq_some_iff] at hstep
      obtain ⟨e, -, hstep⟩ := hstep
      have h' : TimerInv { s with timeouts := Function.update s.timeouts k none } l :=
        ⟨h.threads, h.length_le, h.active, h.done⟩
      exact ⟨p :: l, armTimer_inv h' hstep⟩
  | add p e f d => exact ⟨p :: l, armTimer_inv h hstep⟩
  | mod p e =>
      simp only [timerStep, Option.ite_none_left_eq_some, Option.map_eq_some_iff] at hstep
      obtain ⟨hp0, s₁, hdrop, rfl⟩ := hstep
      obtain ⟨h₁, -⟩ := dropTimer_inv h hdrop
      have hp : p ∉ l.erase p := fun hp => (h.threads.nodup.mem_erase_iff.1 hp).1 rfl
      refine ⟨p :: l.erase p, addTimer_spec ⟨h₁.threads.chain, h₁.threads.nodup⟩ hp0 hp, ?_, ?_,
        h₁.done⟩
      · have := h₁.length_le
        simp only [List.length_cons]
        omega
      · intro c r hr
        exact (h₁.active c r hr).add hp
  | del p =>
      simp only [timerStep, Option.ite_none_left_eq_some] at hstep
      exact ⟨l.erase p, (dropTimer_inv h hstep.2).1⟩
  | start c =>
      simp only [timerStep, Option.ite_none_right_eq_some, Option.some.injEq, h.armed_eq] at hstep
      obtain ⟨-, rfl⟩ := hstep
      refine ⟨l, h.threads, h.length_le, ?_, h.done⟩
      intro c' r hr
      by_cases hc : c' = c
      · simp only [hc, Function.update_self, Option.some.injEq] at hr
        subst hr
        intro p hp
        simp only [List.mem_filter, decide_eq_true_eq] at hp
        refine Or.inr ⟨hp.1, ?_⟩
        -- a timer of the list that is due has not been passed over before
        have hnot : ¬ s.timers.expires p < s.tick := fun hlt =>
          hlate ⟨p, by rw [h.armed_eq]; exact hp.1, hlt⟩
        exact Nat.le_antisymm hp.2 (Nat.le_of_not_lt hnot)
      · exact h.active c' r (by simpa [hc] using hr)
  | pass c =>
      simp only [timerStep, Option.bind_eq_some_iff] at hstep
      obtain ⟨r, hr, hstep⟩ := hstep
      exact sectionStep_inv h hr hstep

/-! ## Whole runs -/

/-- If no softirq run begins with an overdue timer on the list, every completed softirq run has
removed all timers that were due when it began. -/
theorem timerRun_dueTimersGone {tick : Nat} {acts : List TimerAction} {s : TimerSys}
    (hrun : runFrom timerStep (timerInit tick) acts = some s)
    (hlate : Along timerStep (fun s a => ¬ BeginsOverdue s a) (timerInit tick) acts) :
    DueTimersGone s := by
  obtain ⟨l, h⟩ := runFrom_invariant_along timerStep_inv ⟨[], timerInit_inv tick⟩ hlate hrun
  exact h.done

/-- A timer armed for the next tick is removed by the softirq run of that tick. -/
theorem timerRun_fires :
    ∃ s, runFrom timerStep (timerInit 0)
        [.readTick 0 1, .arm 0 8, .timerIrq, .start 1, .pass 1, .pass 1] = some s ∧
      s.completed = [⟨1, [8], [8]⟩] ∧ s.fired = [8] ∧ DueTimersGone s := by
  refine ⟨_, rfl, by decide, rfl, ?_⟩
  exact @timerRun_dueTimersGone 0 [.readTick 0 1, .arm 0 8, .timerIrq, .start 1, .pass 1, .pass 1] _
    rfl (by decide)

/-- Two ticks pass between the reading of the tick in `schedule_timeout(1)` and its `add_timer`: the
softirq run at tick 2 completes and leaves the timer with expiry 1 on the list. -/
theorem timerRun_leaves_overdue :
    ∃ s, runFrom timerStep (timerInit 0)
        [.readTick 0 1, .timerIrq, .timerIrq, .arm 0 8, .start 1, .pass 1] = some s ∧
      s.completed = [⟨2, [8], []⟩] ∧ s.armed = [8] ∧ s.fired = [] ∧ ¬ DueTimersGone s := by
  refine ⟨_, rfl, by decide, by decide, rfl, ?_⟩
  intro h
  exact absurd (h ⟨2, [8], []⟩ (by decide) 8 (by decide)) (by decide)

end Kernel
end ToutOS
