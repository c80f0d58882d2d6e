import Mathlib.Data.BitVec
import ToutOS.Base.Batches
import ToutOS.Base.Run

/-!
# Softirq — `kernel/softirq.c` on one CPU

`do_softirq` takes the pending softirqs of the CPU in a section with IRQs off and runs their actions
outside of it.  Interrupts arrive between any two steps: they raise softirqs and call `do_softirq` again,
and the scheduler may go on with any of the calls that have not returned.

* `SoftirqState`, `softirqStep` — the state of the CPU and its steps, with the history of what has
  happened, the newest event first;
* `Refines`, `softirqStep_refines` — the calls that run actions are the servers of `BatchState`, the bits
  are its requests;
* `remaining`, `softirqStep_remaining` — a call returns after a number of steps of its own;
* `softirqRun_ok` — what follows for runs.
-/

namespace ToutOS
namespace Kernel

open Base

/-! ## The code -/

/-- `MAX_NUM_SOFTIRQ`. -/
def maxNumSoftirq : Nat := 1

/-- Where a call of `do_softirq` is that has not returned. -/
inductive SoftirqCall
  /-- In front of the section that takes the pending softirqs. -/
  | called
  /-- At the head of the loop, with the softirqs taken. -/
  | loop (i : Nat) (softirqPending : BitVec 32)
  /-- In `softirq_vec[i].action()`. -/
  | action (i : Nat) (softirqPending : BitVec 32)
  deriving DecidableEq, Repr

/-- What happens on the CPU: softirq `r` is raised, call `c` takes the pending softirqs, it enters the
action of `r`, it is over. -/
abbrev SoftirqEvent := BatchEvent Nat Nat

structure SoftirqState where
  /-- `__softirq_pending`. -/
  pending : BitVec 32
  /-- `nested_softirq_count`. -/
  nested : Int
  calls : Nat → Option SoftirqCall
  /-- The number of the next call. -/
  next : Nat
  log : List SoftirqEvent

def softirqInit : SoftirqState :=
  { pending := 0, nested := 0, calls := fun _ => none, next := 0, log := [] }

inductive SoftirqAction
  /-- `raise_softirq(nr)`, or `raise_softirq_irqoff(nr)` with IRQs off. -/
  | raise (nr : Nat)
  /-- `do_softirq` is called. -/
  | call
  /-- Call `c` goes on; in an action, the action returns. -/
  | run (c : Nat)
  deriving DecidableEq

/-- `raise_softirq_irqoff`. -/
def raiseSoftirqIrqoff (n nr : Nat) (pending : BitVec 32) : BitVec 32 :=
  if nr < n then pending ||| (1#32 <<< nr) else pending

/-- `is_softirq_pending`. -/
def isSoftirqPending (softirqPending : BitVec 32) (nr : Nat) : Bool :=
  (softirqPending &&& (1#32 <<< nr)) ≠ 0

def SoftirqState.setCall (s : SoftirqState) (c : Nat) (call : Option SoftirqCall) : SoftirqState :=
  { s with calls := Function.update s.calls c call }

/-- One step of the CPU, with `n` softirqs. -/
def softirqStep (n : Nat) (s : SoftirqState) : SoftirqAction → Option SoftirqState
  | .raise nr =>
      some
        { s with
          pending := raiseSoftirqIrqoff n nr s.pending
          log := if nr < n then .posted nr :: s.log else s.log }
  | .call => some { s.setCall s.next (some .called) with next := s.next + 1 }
  | .run c =>
      match s.calls c with
      | none => none
      | some .called =>
          -- the section with IRQs off: no interrupt comes between the test and the clearing
          if s.nested ≠ 0 then some (s.setCall c none)
          else
            some
              { s.setCall c (some (.loop 0 s.pending)) with
                nested := s.nested + 1
                pending := 0
                log := .began c :: s.log }
      | some (.loop i softirqPending) =>
          if i < n then
            if isSoftirqPending softirqPending i then
              some { s.setCall c (some (.action i softirqPending)) with log := .served c i :: s.log }
            else some (s.setCall c (some (.loop (i + 1) softirqPending)))
          else some { s.setCall c none with nested := s.nested - 1, log := .finished c :: s.log }
      | some (.action i softirqPending) => some (s.setCall c (some (.loop (i + 1) softirqPending)))

/-! ## Bits -/

theorem getLsbD_one_shiftLeft {nr j : Nat} (hnr : nr < 32) :
    (1#32 <<< nr).getLsbD j = decide (j = nr) := by
  rw [BitVec.getLsbD_shiftLeft]
  by_cases hj : j = nr
  · subst hj
    simp [hnr]
  · simp only [hj, decide_false, Bool.and_eq_false_iff]
    by_cases hlt : j < nr
    · simp [hlt]
    · refine Or.inr ?_
      rw [BitVec.getLsbD_one]
      simp only [Bool.and_eq_false_iff, decide_eq_false_iff_not]
      omega

theorem isSoftirqPending_eq {p : BitVec 32} {nr : Nat} (hnr : nr < 32) :
    isSoftirqPending p nr = p.getLsbD nr := by
  cases hbit : p.getLsbD nr with
  | true =>
      refine decide_eq_true fun hzero => ?_
      have := congrArg (fun b : BitVec 32 => b.getLsbD nr) hzero
      simp [getLsbD_one_shiftLeft hnr, hbit] at this
  | false =>
      refine decide_eq_false (not_not_intro ?_)
      refine BitVec.eq_of_getLsbD_eq fun j hj => ?_
      rw [BitVec.getLsbD_and, getLsbD_one_shiftLeft hnr]
      by_cases hj : j = nr
      · subst hj
        simp [hbit]
      · simp [hj]

theorem getLsbD_raise {n nr j : Nat} {p : BitVec 32} (hn : n ≤ 32) :
    (raiseSoftirqIrqoff n nr p).getLsbD j = true ↔ p.getLsbD j = true ∨ (nr < n ∧ j = nr) := by
  rw [raiseSoftirqIrqoff]
  split_ifs with hnr
  · rw [BitVec.getLsbD_or, getLsbD_one_shiftLeft (by omega)]
    simp [hnr]
  · simp [hnr]

/-! ## Calls that run actions -/

/-- The call has taken the pending softirqs and is not over. -/
def SoftirqCall.Running : SoftirqCall → Prop
  | .called => False
  | .loop _ _ => True
  | .action _ _ => True

/-- Call `c` runs actions. -/
def SoftirqState.Running (s : SoftirqState) (c : Nat) : Prop := ∃ call ∈ s.calls c, call.Running

/-- The softirqs below `n` of a mask, from `i` on. -/
def bitsFrom (n i : Nat) (p : BitVec 32) : Set Nat := {nr | nr < n ∧ i ≤ nr ∧ p.getLsbD nr = true}

/-- What a call that runs actions has still to enter. -/
def SoftirqCall.left (n : Nat) : SoftirqCall → Set Nat
  | .called => ∅
  | .loop i p => bitsFrom n i p
  | .action i p => bitsFrom n (i + 1) p

@[simp] theorem setCall_self (s : SoftirqState) (c : Nat) (call : Option SoftirqCall) :
    (s.setCall c call).calls c = call := Function.update_self ..

theorem setCall_other {s : SoftirqState} {c d : Nat} {call : Option SoftirqCall} (h : d ≠ c) :
    (s.setCall c call).calls d = s.calls d := Function.update_of_ne h ..

@[simp] theorem setCall_pending (s : SoftirqState) (c : Nat) (call : Option SoftirqCall) :
    (s.setCall c call).pending = s.pending := rfl

@[simp] theorem setCall_nested (s : SoftirqState) (c : Nat) (call : Option SoftirqCall) :
    (s.setCall c call).nested = s.nested := rfl

@[simp] theorem setCall_next (s : SoftirqState) (c : Nat) (call : Option SoftirqCall) :
    (s.setCall c call).next = s.next := rfl

@[simp] theorem setCall_log (s : SoftirqState) (c : Nat) (call : Option SoftirqCall) :
    (s.setCall c call).log = s.log := rfl

variable {n : Nat} {s s' : SoftirqState} {b : BatchState Nat Nat} {a : SoftirqAction}

theorem running_iff {c : Nat} {call : SoftirqCall} (h : s.calls c = some call) :
    s.Running c ↔ call.Running := by
  simp [SoftirqState.Running, h]

theorem not_running_of_none {c : Nat} (h : s.calls c = none) : ¬s.Running c := by
  simp [SoftirqState.Running, h]

theorem running_congr {c : Nat} (h : s'.calls c = s.calls c) : s'.Running c ↔ s.Running c := by
  rw [SoftirqState.Running, h, SoftirqState.Running]

theorem bitsFrom_skip {i : Nat} {p : BitVec 32} (h : p.getLsbD i = false) :
    bitsFrom n (i + 1) p = bitsFrom n i p := by
  ext nr
  simp only [bitsFrom, Set.mem_ofPred_eq]
  constructor
  · rintro ⟨hlt, hle, hbit⟩
    exact ⟨hlt, by omega, hbit⟩
  · rintro ⟨hlt, hle, hbit⟩
    have hne : i ≠ nr := by
      rintro rfl
      rw [h] at hbit
      cases hbit
    exact ⟨hlt, by omega, hbit⟩

theorem bitsFrom_take {i : Nat} {p : BitVec 32} : bitsFrom n (i + 1) p = bitsFrom n i p \ {i} := by
  ext nr
  simp only [bitsFrom, Set.mem_ofPred_eq, Set.mem_sdiff, Set.mem_singleton_iff]
  constructor
  · rintro ⟨hlt, hle, hbit⟩
    exact ⟨⟨hlt, by omega, hbit⟩, by omega⟩
  · rintro ⟨⟨hlt, hle, hbit⟩, hne⟩
    exact ⟨hlt, by omega, hbit⟩

theorem bitsFrom_end {i : Nat} {p : BitVec 32} (h : n ≤ i) : bitsFrom n i p = ∅ := by
  ext nr
  simp only [bitsFrom, Set.mem_ofPred_eq, Set.mem_empty_iff_false, iff_false]
  omega

/-! ## The refinement -/

/-- The bits are the pending requests, and the call that runs actions, if there is one, is the server. -/
structure Refines (n : Nat) (s : SoftirqState) (b : BatchState Nat Nat) : Prop where
  log : b.log = s.log
  pending : b.pending = bitsFrom n 0 s.pending
  idle : b.batch = none → s.nested = 0 ∧ ∀ c, ¬s.Running c
  busy : ∀ c rest, b.batch = some (c, rest) → s.nested = 1 ∧
    (∃ call ∈ s.calls c, call.Running ∧ rest = call.left n) ∧ ∀ d, s.Running d → d = c
  fresh : ∀ c, s.calls c = some .called ∨ s.next ≤ c → .began c ∉ s.log
  unused : ∀ c, s.next ≤ c → s.calls c = none

theorem refines_init : Refines n softirqInit { pending := ∅, batch := none, log := [] } := by
  refine ⟨rfl, ?_, fun _ => ⟨rfl, fun c => not_running_of_none rfl⟩, fun c rest hno => (by cases hno),
    fun c _ hno => (by cases hno), fun _ _ => rfl⟩
  ext nr
  simp [bitsFrom, softirqInit]

theorem bitsFrom_raise {nr : Nat} {p : BitVec 32} (hn : n ≤ 32) :
    bitsFrom n 0 (raiseSoftirqIrqoff n nr p) =
      if nr < n then insert nr (bitsFrom n 0 p) else bitsFrom n 0 p := by
  ext j
  simp only [bitsFrom, Set.mem_ofPred_eq, getLsbD_raise hn]
  split_ifs with hnr
  · simp only [Set.mem_insert_iff, Set.mem_ofPred_eq]
    constructor
    · rintro ⟨hlt, hle, hbit | ⟨-, rfl⟩⟩
      · exact Or.inr ⟨hlt, hle, hbit⟩
      · exact Or.inl rfl
    · rintro (rfl | ⟨hlt, hle, hbit⟩)
      · exact ⟨hnr, Nat.zero_le _, Or.inr ⟨hnr, rfl⟩⟩
      · exact ⟨hlt, hle, Or.inl hbit⟩
  · simp [hnr]

theorem Refines.batch_of_running (h : Refines n s b) {c : Nat} (hr : s.Running c) :
    ∃ rest, b.batch = some (c, rest) ∧ s.nested = 1 ∧ ∀ d, s.Running d → d = c := by
  rcases hbatch : b.batch with _ | ⟨d, rest⟩
  · exact absurd hr ((h.idle hbatch).2 c)
  · obtain ⟨hnested, -, honly⟩ := h.busy d rest hbatch
    obtain rfl := honly c hr
    exact ⟨rest, rfl, hnested, honly⟩

theorem calls_update_other {t : SoftirqState} {c d : Nat} {call : Option SoftirqCall}
    (hcalls : t.calls = Function.update s.calls c call) (hd : d ≠ c) : t.calls d = s.calls d := by
  rw [hcalls, Function.update_of_ne hd]

/-- One call is changed: the calls that have not taken the pending softirqs have not begun. -/
theorem Refines.fresh_update (h : Refines n s b) {t : SoftirqState} {c : Nat} {call : Option SoftirqCall}
    (hcalls : t.calls = Function.update s.calls c call) (hnext : s.next ≤ t.next)
    (hlog : ∀ d, d ≠ c → .began d ∈ t.log → .began d ∈ s.log)
    (hc : .began c ∉ t.log ∨ call ≠ some .called ∧ c < t.next) :
    ∀ d, t.calls d = some .called ∨ t.next ≤ d → .began d ∉ t.log := by
  intro d hd hmem
  by_cases hdc : d = c
  · subst hdc
    rcases hc with hnot | ⟨hcalled, hused⟩
    · exact hnot hmem
    · rw [hcalls, Function.update_self] at hd
      exact hd.elim hcalled (Nat.not_le.2 hused)
  · rw [calls_update_other hcalls hdc] at hd
    exact h.fresh d (hd.imp_right (Nat.le_trans hnext)) (hlog d hdc hmem)

/-- The numbers that are not in use stay so. -/
theorem Refines.unused_update (h : Refines n s b) {t : SoftirqState} {c : Nat} {call : Option SoftirqCall}
    (hcalls : t.calls = Function.update s.calls c call) (hnext : s.next ≤ t.next)
    (hc : call = none ∨ c < t.next) : ∀ d, t.next ≤ d → t.calls d = none := by
  intro d hd
  by_cases hdc : d = c
  · subst hdc
    rw [hcalls, Function.update_self]
    exact hc.resolve_right (Nat.not_lt.2 hd)
  · rw [calls_update_other hcalls hdc]
    exact h.unused d (Nat.le_trans hnext hd)

theorem Refines.used (h : Refines n s b) {c : Nat} {call : SoftirqCall} (hc : s.calls c = some call) :
    c < s.next := by
  by_contra hge
  rw [h.unused c (Nat.not_lt.1 hge)] at hc
  cases hc

/-- A call that does not run actions comes or goes. -/
theorem Refines.setCall (h : Refines n s b) {c : Nat} {call : Option SoftirqCall} {next : Nat}
    (hc : ¬s.Running c) (hcall : call = none ∨ (call = some .called ∧ c = s.next))
    (hnext : s.next ≤ next) (hused : c < next) :
    Refines n { s.setCall c call with next := next } b := by
  have hcalls : ({ s.setCall c call with next := next } : SoftirqState).calls =
      Function.update s.calls c call := rfl
  have hrun : ∀ d, SoftirqState.Running { s.setCall c call with next := next } d → s.Running d := by
    rintro d ⟨call', hmem, hrunning⟩
    by_cases hdc : d = c
    · -- the call that is set does not run actions
      subst hdc
      rw [hcalls, Function.update_self] at hmem
      rcases hcall with rfl | ⟨rfl, -⟩
      · cases hmem
      · cases hmem
        exact hrunning.elim
    · exact ⟨call', by rwa [calls_update_other hcalls hdc] at hmem, hrunning⟩
  refine ⟨h.log, h.pending, fun hbatch => ?_, fun d rest hbatch => ?_,
    h.fresh_update hcalls hnext (fun d _ hd => hd) ?_, h.unused_update hcalls hnext (Or.inr hused)⟩
  · obtain ⟨hnested, hnone⟩ := h.idle hbatch
    exact ⟨hnested, fun d hd => hnone d (hrun d hd)⟩
  · obtain ⟨hnested, hleft, honly⟩ := h.busy d rest hbatch
    have hdc : d ≠ c := by
      rintro rfl
      obtain ⟨call', hmem, hrunning, -⟩ := hleft
      exact hc ⟨call', hmem, hrunning⟩
    refine ⟨hnested, ?_, fun e he => honly e (hrun e he)⟩
    rwa [calls_update_other hcalls hdc]
  · rcases hcall with rfl | ⟨-, rfl⟩
    · exact Or.inr ⟨fun hno => (by cases hno), hused⟩
    · exact Or.inl (h.fresh s.next (Or.inr (Nat.le_refl _)))

/-- The call that runs actions goes on. -/
theorem Refines.advance (h : Refines n s b) {c : Nat} {call : SoftirqCall} {log : List SoftirqEvent}
    (hr : s.Running c) (hcall : call.Running) (hlog : ∀ d, .began d ∈ log → .began d ∈ s.log) :
    Refines n { s.setCall c (some call) with log := log }
      { b with batch := some (c, call.left n), log := log } := by
  obtain ⟨rest, -, hnested, honly⟩ := h.batch_of_running hr
  have hcalls : ({ s.setCall c (some call) with log := log } : SoftirqState).calls =
      Function.update s.calls c (some call) := rfl
  have hused : c < s.next := by
    obtain ⟨call', hmem, -⟩ := hr
    exact h.used hmem
  have hcalled : some call ≠ some .called := by
    intro heq
    cases heq
    exact hcall
  refine ⟨rfl, h.pending, fun hno => (by cases hno), fun d rest hbatch => ?_,
    h.fresh_update hcalls (Nat.le_refl _) (fun d _ => hlog d) (Or.inr ⟨hcalled, hused⟩),
    h.unused_update hcalls (Nat.le_refl _) (Or.inr hused)⟩
  cases hbatch
  refine ⟨hnested, ⟨call, setCall_self .., hcall, rfl⟩, fun d hd => ?_⟩
  by_contra hdc
  exact hdc (honly d ((running_congr (calls_update_other hcalls hdc)).1 hd))

theorem called_not_running : ¬SoftirqCall.called.Running := fun h => h

/-- A call at the head of the section goes on. -/
theorem called_refines {c : Nat} (h : Refines n s b) (hc : s.calls c = some .called)
    (hstep : softirqStep n s (.run c) = some s') : ∃ b', (b' = b ∨ BatchStep b b') ∧ Refines n s' b' := by
  have hnot : ¬s.Running c := fun hr => called_not_running ((running_iff hc).1 hr)
  simp only [softirqStep, hc] at hstep
  by_cases hnested : s.nested = 0
  · -- the counter is 0 only when no call runs actions
    have hbatch : b.batch = none := by
      rcases hbatch : b.batch with _ | ⟨d, rest⟩
      · rfl
      · have hone := (h.busy d rest hbatch).1
        omega
    obtain ⟨-, hnone⟩ := h.idle hbatch
    rw [if_neg (not_not_intro hnested)] at hstep
    cases hstep
    refine ⟨_, Or.inr (BatchStep.begin b c hbatch (by rw [h.log]; exact h.fresh c (Or.inl hc))), ?_⟩
    have hused := h.used hc
    -- the mask that is taken is the batch, and nothing is pending any more
    refine ⟨by simp [h.log], ?_, fun hno => (by cases hno), fun d rest hd => ?_,
      h.fresh_update rfl (Nat.le_refl _) (fun d hdc hmem => ?_) (Or.inr ⟨fun hno => (by cases hno), hused⟩),
      h.unused_update rfl (Nat.le_refl _) (Or.inr hused)⟩
    · ext nr
      simp [bitsFrom]
    · cases hd
      refine ⟨by simp [hnested], ⟨.loop 0 s.pending, setCall_self .., trivial, h.pending⟩, fun d hd => ?_⟩
      by_contra hdc
      exact hnone d ((running_congr (setCall_other hdc)).1 hd)
    · exact (List.mem_cons.1 hmem).resolve_left fun heq => hdc (BatchEvent.began.inj heq)
  · -- a nested call returns at once
    rw [if_pos hnested] at hstep
    cases hstep
    exact ⟨b, Or.inl rfl, h.setCall hnot (Or.inl rfl) (Nat.le_refl _) (h.used hc)⟩

/-- The loop is over. -/
theorem finish_refines {c i : Nat} {p : BitVec 32} (h : Refines n s b)
    (hc : s.calls c = some (.loop i p)) (hi : n ≤ i) :
    ∃ b', BatchStep b b' ∧
      Refines n { s.setCall c none with nested := s.nested - 1, log := .finished c :: s.log } b' := by
  have hr : s.Running c := (running_iff hc).2 trivial
  obtain ⟨rest, hbatch, hnested, honly⟩ := h.batch_of_running hr
  obtain ⟨-, ⟨call, hmem, -, hrest⟩, -⟩ := h.busy c rest hbatch
  rw [hc] at hmem
  cases hmem
  -- the loop has gone past every softirq
  have hempty : rest = ∅ := hrest.trans (bitsFrom_end hi)
  subst hempty
  refine ⟨_, BatchStep.finish b hbatch, ?_⟩
  refine ⟨by simp [h.log], h.pending, fun _ => ⟨by simp [hnested], fun d hd => ?_⟩,
    fun d rest hno => (by cases hno),
    h.fresh_update rfl (Nat.le_refl _) (fun d _ hmem => ?_) (Or.inr ⟨fun hno => (by cases hno), h.used hc⟩),
    h.unused_update rfl (Nat.le_refl _) (Or.inl rfl)⟩
  · by_cases hdc : d = c
    · subst hdc
      exact not_running_of_none (setCall_self ..) hd
    · exact hdc (honly d ((running_congr (setCall_other hdc)).1 hd))
  · exact (List.mem_cons.1 hmem).resolve_left fun heq => by cases heq

/-- The call that runs actions goes on, and nothing happens to the batch. -/
theorem Refines.pass (h : Refines n s b) {c : Nat} {call call' : SoftirqCall} (hc : s.calls c = some call)
    (hr : call.Running) (hr' : call'.Running) (hleft : call'.left n = call.left n) :
    Refines n (s.setCall c (some call')) b := by
  obtain ⟨rest, hbatch, -, -⟩ := h.batch_of_running ((running_iff hc).2 hr)
  obtain ⟨-, ⟨call'', hmem, -, hrest⟩, -⟩ := h.busy c rest hbatch
  rw [hc] at hmem
  cases hmem
  have hnext : Refines n (s.setCall c (some call'))
      { b with batch := some (c, call'.left n), log := s.log } :=
    h.advance ((running_iff hc).2 hr) hr' fun d hd => hd
  have hsame : ({ b with batch := some (c, call'.left n), log := s.log } : BatchState Nat Nat) = b := by
    rw [hleft, ← hrest, ← hbatch, ← h.log]
  rwa [hsame] at hnext

/-- A call at the head of the loop goes on. -/
theorem loop_refines {c i : Nat} {p : BitVec 32} (hn : n ≤ 32) (h : Refines n s b)
    (hc : s.calls c = some (.loop i p)) (hstep : softirqStep n s (.run c) = some s') :
    ∃ b', (b' = b ∨ BatchStep b b') ∧ Refines n s' b' := by
  have hr : s.Running c := (running_iff hc).2 trivial
  obtain ⟨rest, hbatch, -, -⟩ := h.batch_of_running hr
  obtain ⟨-, ⟨call, hmem, -, hrest⟩, -⟩ := h.busy c rest hbatch
  rw [hc] at hmem
  cases hmem
  simp only [softirqStep, hc] at hstep
  by_cases hi : i < n
  · rw [if_pos hi] at hstep
    have hbit := isSoftirqPending_eq (p := p) (show i < 32 by omega)
    cases hp : isSoftirqPending p i with
    | true =>
        rw [if_pos hp] at hstep
        cases hstep
        have hin : i ∈ rest := by
          rw [hrest]
          exact ⟨hi, Nat.le_refl i, hbit.symm.trans hp⟩
        refine ⟨_, Or.inr (BatchStep.serve b i hbatch hin), ?_⟩
        rw [hrest, SoftirqCall.left, ← bitsFrom_take, h.log]
        exact h.advance hr trivial fun d hd => (List.mem_cons.1 hd).resolve_left fun heq => by cases heq
    | false =>
        rw [if_neg (by rw [hp]; decide)] at hstep
        cases hstep
        exact ⟨b, Or.inl rfl, h.pass hc trivial trivial (bitsFrom_skip (hbit.symm.trans hp))⟩
  · rw [if_neg hi] at hstep
    cases hstep
    obtain ⟨b', hb', h'⟩ := finish_refines h hc (Nat.not_lt.1 hi)
    exact ⟨b', Or.inr hb', h'⟩

/-- What the CPU does is a step of the protocol, or nothing to it. -/
theorem softirqStep_refines (hn : n ≤ 32) (h : Refines n s b) (hstep : softirqStep n s a = some s') :
    ∃ b', (b' = b ∨ BatchStep b b') ∧ Refines n s' b' := by
  cases a with
  | raise nr =>
      cases hstep
      by_cases hnr : nr < n
      · refine ⟨_, Or.inr (BatchStep.post b nr), ?_⟩
        refine ⟨by simp [hnr, h.log], by simp [bitsFrom_raise hn, hnr, h.pending], h.idle, h.busy,
          fun c hc hmem => ?_, h.unused⟩
        simp only [if_pos hnr] at hmem
        exact h.fresh c hc ((List.mem_cons.1 hmem).resolve_left fun heq => by cases heq)
      · have hsame : raiseSoftirqIrqoff n nr s.pending = s.pending := if_neg hnr
        simp only [if_neg hnr, hsame]
        exact ⟨b, Or.inl rfl, h⟩
  | call =>
      cases hstep
      have hnot : ¬s.Running s.next := not_running_of_none (h.unused s.next (Nat.le_refl _))
      exact ⟨b, Or.inl rfl,
        h.setCall hnot (Or.inr ⟨rfl, rfl⟩) (Nat.le_succ _) (Nat.lt_succ_self _)⟩
  | run c =>
      rcases hc : s.calls c with _ | _ | ⟨i, p⟩ | ⟨i, p⟩
      · simp only [softirqStep, hc] at hstep
        cases hstep
      · exact called_refines h hc hstep
      · exact loop_refines hn h hc hstep
      · -- the action returns
        simp only [softirqStep, hc] at hstep
        cases hstep
        exact ⟨b, Or.inl rfl, h.pass hc trivial trivial rfl⟩

/-! ## Calls return -/

/-- How many steps of its own call `c` may still take. -/
def remaining (n : Nat) (s : SoftirqState) (c : Nat) : Nat :=
  match s.calls c with
  | none => if c < s.next then 0 else 2 * n + 2
  | some .called => 2 * n + 2
  | some (.loop i _) => 2 * (n - i) + 1
  | some (.action i _) => 2 * (n - (i + 1)) + 2

theorem remaining_le (s : SoftirqState) (c : Nat) : remaining n s c ≤ 2 * n + 2 := by
  rw [remaining]
  split
  · split_ifs <;> omega
  · exact Nat.le_refl _
  · omega
  · omega

theorem remaining_congr {c : Nat} (hcalls : s'.calls c = s.calls c) (hnext : s'.next = s.next) :
    remaining n s' c = remaining n s c := by
  rw [remaining, remaining, hcalls, hnext]

/-- A call that goes on leaves the others where they are. -/
theorem softirqStep_others {c d : Nat} (hstep : softirqStep n s (.run d) = some s') (hcd : c ≠ d) :
    s'.calls c = s.calls c ∧ s'.next = s.next := by
  have hother : ∀ call, (s.setCall d call).calls c = s.calls c := fun call => setCall_other hcd
  rcases hd : s.calls d with _ | _ | ⟨i, p⟩ | ⟨i, p⟩ <;> simp only [softirqStep, hd] at hstep
  · cases hstep
  · split_ifs at hstep <;> cases hstep <;> exact ⟨hother _, rfl⟩
  · split_ifs at hstep <;> cases hstep <;> exact ⟨hother _, rfl⟩
  · cases hstep
    exact ⟨hother _, rfl⟩

/-- A step of a call uses up one of its steps. -/
theorem own_remaining {c : Nat} (h : Refines n s b) (hstep : softirqStep n s (.run c) = some s') :
    remaining n s' c + 1 ≤ remaining n s c := by
  rcases hc : s.calls c with _ | _ | ⟨i, p⟩ | ⟨i, p⟩ <;> simp only [softirqStep, hc] at hstep
  · cases hstep
  · have hused := h.used hc
    split_ifs at hstep
    · cases hstep
      simp [remaining, hc, hused]
    · cases hstep
      simp [remaining, hc]
  · have hused := h.used hc
    split_ifs at hstep
    · cases hstep
      simp only [remaining, hc, setCall_self]
      omega
    · cases hstep
      simp only [remaining, hc, setCall_self]
      omega
    · cases hstep
      simp [remaining, hc, hused]
  · cases hstep
    simp only [remaining, hc, setCall_self]
    omega

/-- A new call does not touch what the others have left, and has all its own steps in front of it. -/
theorem call_remaining (h : Refines n s b) (hstep : softirqStep n s .call = some s') (c : Nat) :
    remaining n s' c ≤ remaining n s c := by
  cases hstep
  by_cases hc : c = s.next
  · subst hc
    have hall : remaining n s s.next = 2 * n + 2 := by
      simp [remaining, h.unused s.next (Nat.le_refl _)]
    rw [hall]
    exact remaining_le ..
  · have hcalls : (s.setCall s.next (some .called)).calls c = s.calls c := setCall_other hc
    simp only [remaining, hcalls]
    cases s.calls c with
    | none =>
        simp only
        split_ifs <;> omega
    | some call => cases call <;> exact Nat.le_refl _

theorem softirqStep_remaining (h : Refines n s b) (hstep : softirqStep n s a = some s') (c : Nat) :
    remaining n s' c + [a].count (.run c) ≤ remaining n s c := by
  cases a with
  | raise nr =>
      cases hstep
      exact Nat.le_refl _
  | call => exact call_remaining h hstep c
  | run d =>
      by_cases hdc : d = c
      · subst hdc
        have hcount : [SoftirqAction.run d].count (.run d) = 1 := by simp
        rw [hcount]
        exact own_remaining h hstep
      · -- the step is another call's
        have hcount : [SoftirqAction.run d].count (.run c) = 0 := by simp [hdc]
        obtain ⟨hcalls, hnext⟩ := softirqStep_others hstep fun heq => hdc heq.symm
        rw [hcount, Nat.add_zero, remaining_congr hcalls hnext]

/-! ## Runs -/

/-- What is true of the softirqs of a CPU at any time. -/
structure SoftirqOk (n : Nat) (s : SoftirqState) : Prop where
  /-- No action is entered while another call runs actions. -/
  alone : ∀ c d, s.Running c → s.Running d → c = d
  idle : (∀ c, ¬s.Running c) → s.nested = 0
  /-- A raised softirq has been served by the first call that took the pending softirqs afterwards, if
  that call is over. -/
  answered : Answered s.log
  /-- Until then it is pending. -/
  kept : ∀ nr, Waiting nr s.log → isSoftirqPending s.pending nr = true
  /-- A call can always go on. -/
  goesOn : ∀ c, s.calls c ≠ none → (softirqStep n s (.run c)).isSome = true
  /-- A call is over after so many steps of its own, whatever else happens. -/
  returns : ∀ as t, runFrom (softirqStep n) s as = some t → ∀ c, as.count (.run c) ≤ 2 * n + 2

theorem softirqStep_isSome {c : Nat} (h : s.calls c ≠ none) : (softirqStep n s (.run c)).isSome = true := by
  rcases hc : s.calls c with _ | _ | ⟨i, p⟩ | ⟨i, p⟩ <;> simp only [softirqStep, hc]
  · exact absurd hc h
  · split_ifs <;> rfl
  · split_ifs <;> rfl
  · rfl

/-- The run of the CPU is a run of the protocol. -/
theorem softirqRun_refines {t : SoftirqState} {acts : List SoftirqAction} (hn : n ≤ 32)
    (h : Refines n s b) (hb : BatchOk b) (hrun : runFrom (softirqStep n) s acts = some t) :
    ∃ b', BatchOk b' ∧ Refines n t b' := by
  refine runFrom_invariant (I := fun s => ∃ b, BatchOk b ∧ Refines n s b) ?_ ⟨b, hb, h⟩ hrun
  rintro s a s' ⟨b, hb, h⟩ hstep
  obtain ⟨b', rfl | hb', h'⟩ := softirqStep_refines hn h hstep
  · exact ⟨_, hb, h'⟩
  · exact ⟨b', hb'.ok hb, h'⟩

theorem softirqRun_remaining {t : SoftirqState} {as : List SoftirqAction} (hn : n ≤ 32)
    (h : Refines n s b) (hrun : runFrom (softirqStep n) s as = some t) (c : Nat) :
    remaining n t c + as.count (.run c) ≤ remaining n s c := by
  induction as generalizing s b with
  | nil =>
      cases hrun
      exact Nat.le_refl _
  | cons a as ih =>
      obtain ⟨s', hstep, hrest⟩ := runFrom_cons.1 hrun
      obtain ⟨b', -, h'⟩ := softirqStep_refines hn h hstep
      have hfirst := softirqStep_remaining h hstep c
      have hlater := ih h' hrest
      have hcount : ([a] ++ as).count (.run c) = [a].count (.run c) + as.count (.run c) :=
        List.count_append
      rw [List.singleton_append] at hcount
      omega

/-- Whatever raises and calls arrive, in whatever order the calls go on. -/
theorem softirqRun_ok (hn : n ≤ 32) {acts : List SoftirqAction}
    (hrun : runFrom (softirqStep n) softirqInit acts = some s) : SoftirqOk n s := by
  obtain ⟨b, hb, h⟩ := softirqRun_refines hn refines_init BatchOk.init hrun
  refine ⟨fun c d hc hd => ?_, fun hnone => ?_, ?_, fun nr hnr => ?_,
    fun c hc => softirqStep_isSome hc, fun as t ht c => ?_⟩
  · obtain ⟨rest, -, -, honly⟩ := h.batch_of_running hd
    exact honly c hc
  · rcases hbatch : b.batch with _ | ⟨c, rest⟩
    · exact (h.idle hbatch).1
    · obtain ⟨-, ⟨call, hmem, hr, -⟩, -⟩ := h.busy c rest hbatch
      exact absurd ⟨call, hmem, hr⟩ (hnone c)
  · rw [← h.log]
    exact hb.answered
  · have hin : nr ∈ bitsFrom n 0 s.pending := by
      rw [← h.pending]
      exact hb.pending nr (by rwa [h.log])
    obtain ⟨hlt, -, hbit⟩ := hin
    rw [isSoftirqPending_eq (by omega)]
    exact hbit
  · calc as.count (.run c) ≤ remaining n t c + as.count (.run c) := Nat.le_add_left ..
      _ ≤ remaining n s c := softirqRun_remaining hn h ht c
      _ ≤ 2 * n + 2 := remaining_le s c

/-- A softirq is raised and its action run; during the action the softirq is raised again and
`do_softirq` called, which returns at once; the next call runs the action a second time. -/
def nestedRaise : List SoftirqAction :=
  [.raise 0, .call, .run 0, .run 0, .raise 0, .call, .run 1, .run 0, .run 0, .call, .run 2, .run 2, .run 2,
    .run 2]

theorem softirqRun_ok_nestedRaise :
    ∃ s, runFrom (softirqStep maxNumSoftirq) softirqInit nestedRaise = some s ∧
      s.log.reverse = [.posted 0, .began 0, .served 0 0, .posted 0, .finished 0, .began 2, .served 2 0,
        .finished 2] ∧ SoftirqOk maxNumSoftirq s := by
  have hlog : (runFrom (softirqStep maxNumSoftirq) softirqInit nestedRaise).map (fun s => s.log.reverse) =
      some [.posted 0, .began 0, .served 0 0, .posted 0, .finished 0, .began 2, .served 2 0,
        .finished 2] := by
    decide +kernel
  obtain ⟨s, hrun, hs⟩ := Option.map_eq_some_iff.1 hlog
  exact ⟨s, hrun, hs, softirqRun_ok (by decide) hrun⟩

end Kernel
end ToutOS
