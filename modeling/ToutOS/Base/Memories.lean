import Mathlib.Data.Set.Basic
import Mathlib.Data.List.Forall2
import ToutOS.Base.Run

/-!
# Memories — programs that have a memory of their own each

What a system of programs is to its programs: everyone has a memory, and nobody else writes to it.
`σ i a` is the value that program `i` has at the address `a`; it is `none` where it has nothing.  This
file provides:

* `Event`, `Event.Moves` — what can happen: a program writes, gets more memory, gives some back, ends,
  starts, or is copied to a program that is not there yet;
* `Event.Moves.other` — an event concerns one program;
* `Event.Leaves`, `Event.Moves.leaves` — the events after which a value is still there;
* `Matched`, `runFrom_matched` — every run of a machine whose steps are events is a sequence of events;
* `runFrom_leaves` — a value stays in every run whose steps leave it.
-/

namespace ToutOS
namespace Base

variable {ι α β : Type*}

/-- What every program sees. -/
abbrev Memories (ι α β : Type*) := ι → α → Option β

/-! ## Events -/

inductive Event (ι α β : Type*)
  /-- No program can tell. -/
  | idle
  /-- Program `i` writes `b` to an address at which it has something. -/
  | write (i : ι) (a : α) (b : β)
  /-- Program `i` may find values at addresses of `A` at which it had nothing. -/
  | grow (i : ι) (A : Set α)
  /-- Program `i` has nothing in `A` any more. -/
  | drop (i : ι) (A : Set α)
  | stop (i : ι)
  /-- Program `j` starts with what program `i` has in `A`. -/
  | copy (i j : ι) (A : Set α)
  /-- Program `i` starts, with any memory. -/
  | start (i : ι)

/-- Nothing at all. -/
def nothing : α → Option β := fun _ => none

open Classical in
/-- What is there of a memory in `A`. -/
noncomputable def keep (A : Set α) (f : α → Option β) : α → Option β := fun a => if a ∈ A then f a else none

theorem keep_of_mem {A : Set α} {f : α → Option β} {a : α} (h : a ∈ A) : keep A f a = f a := if_pos h

theorem keep_of_not_mem {A : Set α} {f : α → Option β} {a : α} (h : a ∉ A) : keep A f a = none := if_neg h

theorem keep_of_none {A : Set α} {f : α → Option β} {a : α} (h : f a = none) : keep A f a = none := by
  rw [keep, h, ite_self]

variable [DecidableEq ι] [DecidableEq α]

/-- The memories before and after an event. -/
def Event.Moves : Event ι α β → Memories ι α β → Memories ι α β → Prop
  | .idle, σ, σ' => σ' = σ
  | .write i a b, σ, σ' =>
      (σ i a).isSome = true ∧ σ' = Function.update σ i (Function.update (σ i) a (some b))
  | .grow i A, σ, σ' => ∃ f : α → Option β, (∀ a b, σ i a = some b → f a = some b) ∧
      (∀ a, a ∉ A → f a = σ i a) ∧ σ' = Function.update σ i f
  | .drop i A, σ, σ' => σ' = Function.update σ i (keep Aᶜ (σ i))
  | .stop i, σ, σ' => σ' = Function.update σ i nothing
  | .copy i j A, σ, σ' => σ j = nothing ∧ σ' = Function.update σ j (keep A (σ i))
  | .start i, σ, σ' => σ i = nothing ∧ ∃ f, σ' = Function.update σ i f

/-- The program whose memory changes. -/
def Event.target : Event ι α β → Option ι
  | .idle => none
  | .write i _ _ => some i
  | .grow i _ => some i
  | .drop i _ => some i
  | .stop i => some i
  | .copy _ j _ => some j
  | .start i => some i

/-- A memory is written at one address. -/
theorem update_memory (σ : Memories ι α β) (i j : ι) (a c : α) (x : Option β) :
    Function.update σ i (Function.update (σ i) a x) j c = if j = i ∧ c = a then x else σ j c := by
  by_cases hj : j = i
  · subst hj
    rw [Function.update_self, Function.update_apply]
    simp only [true_and]
  · rw [Function.update_of_ne hj, if_neg fun hno => hj hno.1]

section Moves

variable {e : Event ι α β} {σ σ' : Memories ι α β} {i : ι} {a : α} {b : β}

/-- An event changes one memory at most. -/
theorem Event.Moves.update (h : e.Moves σ σ') (hi : e.target = some i) :
    ∃ f, σ' = Function.update σ i f := by
  cases e with
  | idle => cases hi
  | write j a b =>
      obtain rfl := Option.some.inj hi
      exact ⟨_, h.2⟩
  | grow j A =>
      obtain rfl := Option.some.inj hi
      obtain ⟨f, -, -, hf⟩ := h
      exact ⟨f, hf⟩
  | drop j A =>
      obtain rfl := Option.some.inj hi
      exact ⟨_, h⟩
  | stop j =>
      obtain rfl := Option.some.inj hi
      exact ⟨_, h⟩
  | copy j k A =>
      obtain rfl := Option.some.inj hi
      exact ⟨_, h.2⟩
  | start j =>
      obtain rfl := Option.some.inj hi
      exact h.2

/-- The memory of the other programs is what it was. -/
theorem Event.Moves.other (h : e.Moves σ σ') (hi : e.target ≠ some i) : σ' i = σ i := by
  cases htarget : e.target with
  | none =>
      cases e with
      | idle => rw [show σ' = σ from h]
      | write j a b => cases htarget
      | grow j A => cases htarget
      | drop j A => cases htarget
      | stop j => cases htarget
      | copy j k A => cases htarget
      | start j => cases htarget
  | some j =>
      obtain ⟨f, rfl⟩ := h.update htarget
      refine Function.update_of_ne ?_ f σ
      rintro rfl
      exact hi htarget

/-- The event does not take away or replace what program `i` has at `a`. -/
def Event.Leaves (i : ι) (a : α) : Event ι α β → Prop
  | .idle => True
  | .write j c _ => j ≠ i ∨ c ≠ a
  | .grow _ _ => True
  | .drop j A => j ≠ i ∨ a ∉ A
  | .stop j => j ≠ i
  | .copy _ _ _ => True
  | .start _ => True

theorem Event.Moves.leaves (h : e.Moves σ σ') (he : e.Leaves i a) (ha : σ i a = some b) :
    σ' i a = some b := by
  by_cases hi : e.target = some i
  · -- the event is one of program `i`
    cases e with
    | idle => cases hi
    | write j c d =>
        obtain rfl := Option.some.inj hi
        obtain ⟨-, rfl⟩ := h
        have hc : c ≠ a := he.resolve_left fun hne => hne rfl
        rw [Function.update_self, Function.update_of_ne hc.symm, ha]
    | grow j A =>
        obtain rfl := Option.some.inj hi
        obtain ⟨f, hold, -, rfl⟩ := h
        rw [Function.update_self, hold a b ha]
    | drop j A =>
        obtain rfl := Option.some.inj hi
        obtain rfl : σ' = _ := h
        have hA : a ∉ A := he.resolve_left fun hne => hne rfl
        rw [Function.update_self, keep_of_mem hA, ha]
    | stop j =>
        obtain rfl := Option.some.inj hi
        exact absurd rfl he
    | copy j k A =>
        -- a program that starts has had nothing
        obtain rfl := Option.some.inj hi
        rw [h.1] at ha
        cases ha
    | start j =>
        obtain rfl := Option.some.inj hi
        rw [h.1] at ha
        cases ha
  · rw [h.other hi, ha]

theorem Event.Moves.written (h : (Event.write i a b).Moves σ σ') : σ' i a = some b := by
  obtain ⟨-, rfl⟩ := h
  rw [Function.update_self, Function.update_self]

end Moves

/-! ## Machines whose steps are events -/

section Machine

variable {S A : Type*} {step : S → A → Option S} {view : S → Memories ι α β}
  {Does : S → A → Event ι α β → Prop} {I : S → Prop}

/-- The events take place one after the other. -/
def Events : List (Event ι α β) → Memories ι α β → Memories ι α β → Prop
  | [], σ, σ' => σ' = σ
  | e :: es, σ, σ' => ∃ σ₁, e.Moves σ σ₁ ∧ Events es σ₁ σ'

/-- The actions of a run and the events that they are. -/
def Matched (step : S → A → Option S) (Does : S → A → Event ι α β → Prop) :
    S → List A → List (Event ι α β) → Prop
  | _, [], es => es = []
  | s, a :: as, es => ∃ e es', es = e :: es' ∧ Does s a e ∧
      ∀ s', step s a = some s' → Matched step Does s' as es'

/-- A machine whose steps are events. -/
def Shows (step : S → A → Option S) (view : S → Memories ι α β) (Does : S → A → Event ι α β → Prop)
    (I : S → Prop) : Prop :=
  ∀ s a s', I s → step s a = some s' → I s' ∧ ∃ e, Does s a e ∧ e.Moves (view s) (view s')

/-- Every run is a sequence of events. -/
theorem runFrom_matched (h : Shows step view Does I) {s t : S} {as : List A} (hs : I s)
    (hrun : runFrom step s as = some t) :
    ∃ es, Matched step Does s as es ∧ Events es (view s) (view t) := by
  induction as generalizing s with
  | nil =>
      obtain rfl := Option.some.inj hrun
      exact ⟨[], rfl, rfl⟩
  | cons a as ih =>
      obtain ⟨s₁, hstep, hrest⟩ := runFrom_cons.1 hrun
      obtain ⟨hs₁, e, he, hmoves⟩ := h s a s₁ hs hstep
      obtain ⟨es, hmatched, hevents⟩ := ih hs₁ hrest
      refine ⟨e :: es, ⟨e, es, rfl, he, fun s' hs' => ?_⟩, view s₁, hmoves, hevents⟩
      rw [hstep] at hs'
      obtain rfl := Option.some.inj hs'
      exact hmatched

/-- A value stays where it is as long as the actions are no events that replace it or take it away. -/
theorem runFrom_leaves (h : Shows step view Does I) {P : S → A → Prop} {i : ι} {x : α} {b : β}
    (hP : ∀ s a e, I s → P s a → Does s a e → e.Leaves i x) {s t : S} {as : List A} (hs : I s)
    (hx : view s i x = some b) (halong : Along step P s as) (hrun : runFrom step s as = some t) :
    view t i x = some b := by
  refine (runFrom_invariant_along (I := fun s => I s ∧ view s i x = some b) ?_ ⟨hs, hx⟩ halong hrun).2
  rintro s a s' ⟨hs, hx⟩ ha hstep
  obtain ⟨hs', e, he, hmoves⟩ := h s a s' hs hstep
  exact ⟨hs', hmoves.leaves (hP s a e hs ha he) hx⟩

/-- So does the whole memory of a program that no event is about. -/
theorem runFrom_unseen (h : Shows step view Does I) {P : S → A → Prop} {i : ι}
    (hP : ∀ s a e, I s → P s a → Does s a e → e.target ≠ some i) {s t : S} {as : List A} (hs : I s)
    (halong : Along step P s as) (hrun : runFrom step s as = some t) : view t i = view s i := by
  refine (runFrom_invariant_along (I := fun s' => I s' ∧ view s' i = view s i) ?_ ⟨hs, rfl⟩ halong
    hrun).2
  rintro s₁ a s' ⟨hs, hview⟩ ha hstep
  obtain ⟨hs', e, he, hmoves⟩ := h s₁ a s' hs hstep
  exact ⟨hs', (hmoves.other (hP s₁ a e hs ha he)).trans hview⟩

end Machine

end Base
end ToutOS
