import Mathlib.Data.List.Basic
import Mathlib.Data.Set.Insert

/-!
# Batches — requests that are collected and served together

Requests are posted at any time.  A server takes all that have been posted so far as its batch, serves
them one by one, and finishes; meanwhile more requests are posted for the next batch.

* `BatchEvent`, `BatchState`, `BatchStep` — the protocol, with the history of what has happened, the
  newest event first;
* `Waiting` — posted since the last batch began;
* `Answered` — a request is served by the first server that begins after it has been posted, before that
  server finishes;
* `BatchOk`, `BatchStep.ok` — the invariant from which this follows.
-/

namespace ToutOS
namespace Base

universe u v

variable {R : Type u} {C : Type v}

inductive BatchEvent (R : Type u) (C : Type v)
  | posted (r : R)
  | began (c : C)
  | served (c : C) (r : R)
  | finished (c : C)
  deriving DecidableEq

open BatchEvent

structure BatchState (R : Type u) (C : Type v) where
  pending : Set R
  /-- The server that has begun, and what it has still to serve. -/
  batch : Option (C × Set R)
  log : List (BatchEvent R C)

inductive BatchStep : BatchState R C → BatchState R C → Prop
  | post (s : BatchState R C) (r : R) :
      BatchStep s { s with pending := insert r s.pending, log := posted r :: s.log }
  | begin (s : BatchState R C) (c : C) (hidle : s.batch = none) (hfresh : began c ∉ s.log) :
      BatchStep s { pending := ∅, batch := some (c, s.pending), log := began c :: s.log }
  | serve (s : BatchState R C) {c : C} {rest : Set R} (r : R) (hbatch : s.batch = some (c, rest))
      (hr : r ∈ rest) :
      BatchStep s { s with batch := some (c, rest \ {r}), log := served c r :: s.log }
  | finish (s : BatchState R C) {c : C} (hbatch : s.batch = some (c, ∅)) :
      BatchStep s { s with batch := none, log := finished c :: s.log }

/-! ## Histories -/

/-- The request has been posted, and no batch has begun since. -/
def Waiting (r : R) (log : List (BatchEvent R C)) : Prop :=
  ∃ later earlier, log = later ++ posted r :: earlier ∧ ∀ c, began c ∉ later

/-- A server that has finished has served every request that was waiting when it began. -/
def Answered (log : List (BatchEvent R C)) : Prop :=
  ∀ after during before c r, log = after ++ finished c :: (during ++ began c :: before) →
    Waiting r before → served c r ∈ during

theorem Waiting.cons {r : R} {e : BatchEvent R C} {log : List (BatchEvent R C)}
    (h : Waiting r (e :: log)) : e = posted r ∨ (∀ c, e ≠ began c) ∧ Waiting r log := by
  obtain ⟨later, earlier, heq, hlater⟩ := h
  cases later with
  | nil => exact Or.inl (List.cons.inj heq).1
  | cons e' later =>
      obtain ⟨rfl, rfl⟩ := List.cons.inj heq
      refine Or.inr ⟨fun c he => hlater c (by rw [he]; exact List.mem_cons_self ..), later, earlier, rfl,
        fun c hc => hlater c (List.mem_cons_of_mem _ hc)⟩

theorem not_waiting_nil {r : R} : ¬Waiting r ([] : List (BatchEvent R C)) := by
  rintro ⟨later, earlier, heq, -⟩
  cases later <;> cases heq

/-- An event that ends nothing. -/
theorem Answered.cons {e : BatchEvent R C} {log : List (BatchEvent R C)} (h : Answered log)
    (he : ∀ c, e ≠ finished c) : Answered (e :: log) := by
  intro after during before c r heq hr
  cases after with
  | nil => exact absurd (List.cons.inj heq).1 (he c)
  | cons e' after => exact h after during before c r (List.cons.inj heq).2 hr

/-! ## The invariant -/

/-- Of the history `log`, the server `c` began last, and what was waiting then has been served or is in
`rest`. -/
def InBatch (log : List (BatchEvent R C)) (c : C) (rest : Set R) : Prop :=
  ∃ during before, log = during ++ began c :: before ∧ (∀ d, began d ∉ during) ∧ began c ∉ before ∧
    ∀ r, Waiting r before → r ∈ rest ∨ served c r ∈ during

theorem InBatch.cons {log : List (BatchEvent R C)} {c : C} {rest rest' : Set R} {e : BatchEvent R C}
    (h : InBatch log c rest) (he : ∀ d, e ≠ began d) (hrest : ∀ r ∈ rest, r ∈ rest' ∨ e = served c r) :
    InBatch (e :: log) c rest' := by
  obtain ⟨during, before, rfl, hduring, hbefore, hserved⟩ := h
  refine ⟨e :: during, before, rfl, fun d hd => ?_, hbefore, fun r hr => ?_⟩
  · rcases List.mem_cons.1 hd with heq | hd
    · exact he d heq.symm
    · exact hduring d hd
  · rcases hserved r hr with hin | hdone
    · rcases hrest r hin with hin | rfl
      · exact Or.inl hin
      · exact Or.inr (List.mem_cons_self ..)
    · exact Or.inr (List.mem_cons_of_mem _ hdone)

/-- No request is lost: what is waiting is pending, and the batch is what was waiting when it began. -/
structure BatchOk (s : BatchState R C) : Prop where
  pending : ∀ r, Waiting r s.log → r ∈ s.pending
  batch : ∀ c rest, s.batch = some (c, rest) → InBatch s.log c rest
  answered : Answered s.log

theorem BatchOk.init : BatchOk ({ pending := ∅, batch := none, log := [] } : BatchState R C) := by
  refine ⟨fun r hr => absurd hr not_waiting_nil, fun c rest hno => (by cases hno), ?_⟩
  intro after during before c r heq
  cases after <;> cases heq

/-- When nothing is left of the batch, all that was waiting has been served. -/
theorem InBatch.answered {log : List (BatchEvent R C)} {c : C} (h : InBatch log c ∅)
    (hlog : Answered log) : Answered (finished c :: log) := by
  intro after during before d r heq hr
  cases after with
  | cons e after => exact hlog after during before d r (List.cons.inj heq).2 hr
  | nil =>
      obtain ⟨hd, hlog'⟩ := List.cons.inj heq
      obtain rfl := finished.inj hd
      -- the server has begun only once
      obtain ⟨during', before', rfl, hduring, hbefore, hserved⟩ := h
      obtain ⟨rfl, -, rfl⟩ := (List.append_cons_inj_of_notMem (hduring c) hbefore).1 hlog'
      exact (hserved r hr).resolve_left fun hno => hno

/-- Every step keeps the invariant. -/
theorem BatchStep.ok {s s' : BatchState R C} (h : BatchOk s) (hstep : BatchStep s s') : BatchOk s' := by
  cases hstep with
  | post r =>
      refine ⟨fun q hq => ?_, fun c rest hbatch => ?_, h.answered.cons fun c hno => by cases hno⟩
      · rcases hq.cons with heq | ⟨-, hq⟩
        · exact Or.inl (posted.inj heq).symm
        · exact Or.inr (h.pending q hq)
      · exact (h.batch c rest hbatch).cons (fun d hno => by cases hno) fun q hq => Or.inl hq
  | begin c hidle hfresh =>
      refine ⟨fun q hq => ?_, fun d rest hbatch => ?_, h.answered.cons fun c hno => by cases hno⟩
      · rcases hq.cons with heq | ⟨hno, -⟩
        · cases heq
        · exact absurd rfl (hno c)
      · cases hbatch
        exact ⟨[], s.log, rfl, fun d hd => (by cases hd), hfresh, fun q hq => Or.inl (h.pending q hq)⟩
  | @serve c rest r hbatch hr =>
      refine ⟨fun q hq => ?_, fun d rest' hbatch' => ?_, h.answered.cons fun c hno => by cases hno⟩
      · rcases hq.cons with heq | ⟨-, hq⟩
        · cases heq
        · exact h.pending q hq
      · cases hbatch'
        refine (h.batch c rest hbatch).cons (fun d hno => by cases hno) fun q hq => ?_
        by_cases hqr : q = r
        · exact Or.inr (by rw [hqr])
        · exact Or.inl ⟨hq, hqr⟩
  | @finish c hbatch =>
      refine ⟨fun q hq => ?_, fun d rest hno => (by cases hno), ?_⟩
      · rcases hq.cons with heq | ⟨-, hq⟩
        · cases heq
        · exact h.pending q hq
      · exact (h.batch c ∅ hbatch).answered h.answered

end Base
end ToutOS
