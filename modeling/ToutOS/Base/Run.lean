import Mathlib.Logic.Relation

/-!
# Run — partial step functions, runs and invariants

A component that reacts to actions is given by a partial step function
`step : σ → α → Option σ`; `none` means that the action is not enabled.  This file provides:

* `runFrom step s as` — the state after the actions `as`, if all of them are enabled in turn;
* `Along step P s as` — the condition `P` holds of every action of the run, in the state in which
  it is taken;
* `Always step P s as` — `P` holds in every state the run goes through, and `always_iff_along`, by
  which that is a condition on the steps;
* the induction rules (`runFrom_invariant`, `runFrom_invariant_along`, `runFrom_progress_along`)
  from which every statement about whole runs is derived;
* `outputs` — machines that answer every action, compared by a simulation (`outputs_simulation`);
* the equations by which a computation in `Except` is followed step by step.
-/

namespace ToutOS
namespace Base

universe u v

variable {σ : Type u} {α : Type v} (step : σ → α → Option σ)

/-! ## Runs -/

/-- The state reached by taking the actions in order; `none` as soon as one is not enabled. -/
def runFrom : σ → List α → Option σ
  | s, [] => some s
  | s, a :: as => (step s a).bind fun s' => runFrom s' as

/-- Every action of the run meets `P` in the state in which it is taken. -/
def Along (P : σ → α → Prop) : σ → List α → Prop
  | _, [] => True
  | s, a :: as => P s a ∧ ∀ s', step s a = some s' → Along P s' as

@[simp] theorem runFrom_nil (s : σ) : runFrom step s [] = some s := rfl

@[simp] theorem along_nil (P : σ → α → Prop) (s : σ) : Along step P s [] := trivial

variable {step}

theorem runFrom_cons {s t : σ} {a : α} {as : List α} :
    runFrom step s (a :: as) = some t ↔
      ∃ s', step s a = some s' ∧ runFrom step s' as = some t := by
  simp [runFrom, Option.bind_eq_some_iff]

/-- What is known of the end of a run that can be carried out. -/
theorem runFrom_exists {s : σ} {as : List α} {P : σ → Prop}
    (h : (runFrom step s as).isSome = true) (hP : ∀ t, runFrom step s as = some t → P t) :
    ∃ t, runFrom step s as = some t ∧ P t := by
  obtain ⟨t, ht⟩ := Option.isSome_iff_exists.1 h
  exact ⟨t, ht, hP t ht⟩

theorem runFrom_append {s t : σ} {as bs : List α} :
    runFrom step s (as ++ bs) = some t ↔
      ∃ s', runFrom step s as = some s' ∧ runFrom step s' bs = some t := by
  induction as generalizing s with
  | nil => simp
  | cons a as ih =>
      constructor
      · intro h
        obtain ⟨s₁, h₁, h₂⟩ := runFrom_cons.1 h
        obtain ⟨s₂, h₃, h₄⟩ := ih.1 h₂
        exact ⟨s₂, runFrom_cons.2 ⟨s₁, h₁, h₃⟩, h₄⟩
      · rintro ⟨s₂, h, h₄⟩
        obtain ⟨s₁, h₁, h₃⟩ := runFrom_cons.1 h
        exact runFrom_cons.2 ⟨s₁, h₁, ih.2 ⟨s₂, h₃, h₄⟩⟩

theorem along_append {P : σ → α → Prop} {s : σ} {as bs : List α} :
    Along step P s (as ++ bs) ↔
      Along step P s as ∧ ∀ s', runFrom step s as = some s' → Along step P s' bs := by
  induction as generalizing s with
  | nil => simp
  | cons a as ih =>
      simp only [List.cons_append, Along, ih, runFrom_cons]
      constructor
      · rintro ⟨hP, h⟩
        exact ⟨⟨hP, fun s' hs => (h s' hs).1⟩,
          fun t ⟨s', hs, ht⟩ => (h s' hs).2 t ht⟩
      · rintro ⟨⟨hP, h⟩, hb⟩
        exact ⟨hP, fun s' hs => ⟨h s' hs, fun t ht => hb t ⟨s', hs, ht⟩⟩⟩

/-- `Along` in terms of the states in which the single actions are taken. -/
theorem along_iff {P : σ → α → Prop} {s : σ} {as : List α} :
    Along step P s as ↔
      ∀ bs a cs t, as = bs ++ a :: cs → runFrom step s bs = some t → P t a := by
  induction as generalizing s with
  | nil => simp
  | cons b as ih =>
      constructor
      · rintro ⟨hP, h⟩ bs a cs t hsplit hrun
        cases bs with
        | nil =>
            obtain ⟨rfl, rfl⟩ := List.cons.inj hsplit
            cases hrun
            exact hP
        | cons b' bs =>
            obtain ⟨rfl, htail⟩ := List.cons.inj hsplit
            obtain ⟨s', h₁, h₂⟩ := runFrom_cons.1 hrun
            exact ih.1 (h s' h₁) bs a cs t htail h₂
      · intro h
        refine ⟨h [] b as s rfl rfl, fun s' hs => ih.2 ?_⟩
        intro bs a cs t hsplit hrun
        exact h (b :: bs) a cs t (by rw [hsplit]; rfl) (runFrom_cons.2 ⟨s', hs, hrun⟩)

theorem along_of_forall {P : σ → α → Prop} {s : σ} {as : List α} (h : ∀ a ∈ as, ∀ t, P t a) :
    Along step P s as :=
  along_iff.2 fun bs a cs t hsplit _ => h a (by simp [hsplit]) t

/-- Two conditions on the steps of a run. -/
theorem along_and {P Q : σ → α → Prop} {s : σ} {as : List α} :
    Along step (fun s a => P s a ∧ Q s a) s as ↔ Along step P s as ∧ Along step Q s as := by
  simp only [along_iff]
  constructor
  · intro h
    exact ⟨fun bs a cs t hsplit hrun => (h bs a cs t hsplit hrun).1,
      fun bs a cs t hsplit hrun => (h bs a cs t hsplit hrun).2⟩
  · intro h bs a cs t hsplit hrun
    exact ⟨h.1 bs a cs t hsplit hrun, h.2 bs a cs t hsplit hrun⟩

instance decidableAlong (P : σ → α → Prop) [∀ s a, Decidable (P s a)] :
    ∀ (s : σ) (as : List α), Decidable (Along step P s as)
  | _, [] => isTrue trivial
  | s, a :: as =>
      match hs : step s a with
      | none => decidable_of_iff (P s a) (by simp [Along, hs])
      | some s' =>
          have := decidableAlong P s' as
          decidable_of_iff (P s a ∧ Along step P s' as) (by simp [Along, hs])

/-! ## Invariant rules -/

/-- What holds initially and is preserved by the steps that meet `P` holds after every run all of
whose steps meet `P`. -/
theorem runFrom_invariant_along {P : σ → α → Prop} {I : σ → Prop}
    (hstep : ∀ s a s', I s → P s a → step s a = some s' → I s')
    {s t : σ} {as : List α} (hs : I s) (hP : Along step P s as)
    (hrun : runFrom step s as = some t) : I t := by
  induction as generalizing s with
  | nil =>
      cases hrun
      exact hs
  | cons a as ih =>
      obtain ⟨s', h₁, h₂⟩ := runFrom_cons.1 hrun
      exact ih (hstep s a s' hs hP.1 h₁) (hP.2 s' h₁) h₂

/-- Two conditions on steps that agree wherever an invariant of the second one holds. -/
theorem along_congr_of_invariant {P Q : σ → α → Prop} {I : σ → Prop}
    (hiff : ∀ s a, I s → (P s a ↔ Q s a))
    (hstep : ∀ s a s', I s → Q s a → step s a = some s' → I s')
    {s : σ} (hs : I s) (as : List α) : Along step P s as ↔ Along step Q s as := by
  induction as generalizing s with
  | nil => exact Iff.rfl
  | cons a as ih =>
      constructor
      · rintro ⟨hP, hrest⟩
        have hQ := (hiff s a hs).1 hP
        exact ⟨hQ, fun s' hs' => (ih (hstep s a s' hs hQ hs')).1 (hrest s' hs')⟩
      · rintro ⟨hQ, hrest⟩
        exact ⟨(hiff s a hs).2 hQ, fun s' hs' => (ih (hstep s a s' hs hQ hs')).2 (hrest s' hs')⟩

/-- A condition on steps that follows from another one wherever an invariant of that one holds. -/
theorem along_mono_of_invariant {P Q : σ → α → Prop} {I : σ → Prop}
    (himp : ∀ s a, I s → P s a → Q s a) (hstep : ∀ s a s', I s → P s a → step s a = some s' → I s')
    {s : σ} {as : List α} (hs : I s) (hP : Along step P s as) : Along step Q s as := by
  induction as generalizing s with
  | nil => trivial
  | cons a as ih =>
      exact ⟨himp s a hs hP.1, fun s' hs' => ih (hstep s a s' hs hP.1 hs') (hP.2 s' hs')⟩

/-- If moreover the steps that meet `P` are enabled, every such run can be carried out. -/
theorem runFrom_progress_along {P : σ → α → Prop} {I : σ → Prop}
    (hstep : ∀ s a, I s → P s a → ∃ s', step s a = some s' ∧ I s')
    {s : σ} {as : List α} (hs : I s) (hP : Along step P s as) :
    ∃ t, runFrom step s as = some t ∧ I t := by
  induction as generalizing s with
  | nil => exact ⟨s, rfl, hs⟩
  | cons a as ih =>
      obtain ⟨s', h₁, hs'⟩ := hstep s a hs hP.1
      obtain ⟨t, h₂, ht⟩ := ih hs' (hP.2 s' h₁)
      exact ⟨t, runFrom_cons.2 ⟨s', h₁, h₂⟩, ht⟩

/-- What holds initially and is preserved by every step holds after every run. -/
theorem runFrom_invariant {I : σ → Prop}
    (hstep : ∀ s a s', I s → step s a = some s' → I s')
    {s t : σ} {as : List α} (hs : I s) (hrun : runFrom step s as = some t) : I t := by
  induction as generalizing s with
  | nil =>
      cases hrun
      exact hs
  | cons a as ih =>
      obtain ⟨s', h₁, h₂⟩ := runFrom_cons.1 hrun
      exact ih (hstep s a s' hs h₁) h₂

/-! ## Every state of a run -/

/-- `P` holds in every state the run goes through. -/
def Always (step : σ → α → Option σ) (P : σ → Prop) (s : σ) (as : List α) : Prop :=
  ∀ bs t, bs <+: as → runFrom step s bs = some t → P t

theorem always_nil {P : σ → Prop} {s : σ} : Always step P s [] ↔ P s := by
  constructor
  · exact fun h => h [] s (List.prefix_refl []) rfl
  · intro h bs t hbs hrun
    obtain rfl := List.prefix_nil.1 hbs
    cases hrun
    exact h

theorem always_cons {P : σ → Prop} {s s' : σ} {a : α} {as : List α} (hs : step s a = some s') :
    Always step P s (a :: as) ↔ P s ∧ Always step P s' as := by
  constructor
  · intro h
    refine ⟨h [] s List.nil_prefix rfl, fun bs t hbs hrun => ?_⟩
    exact h (a :: bs) t (List.prefix_cons_inj a |>.2 hbs) (runFrom_cons.2 ⟨s', hs, hrun⟩)
  · rintro ⟨hP, hrest⟩ bs t hbs hrun
    cases bs with
    | nil =>
        cases hrun
        exact hP
    | cons b bs =>
        obtain ⟨rfl, hbs'⟩ := List.cons_prefix_cons.1 hbs
        obtain ⟨s₁, hs₁, hrun⟩ := runFrom_cons.1 hrun
        obtain rfl := Option.some.inj (hs.symm.trans hs₁)
        exact hrest bs t hbs' hrun

/-- Where every step keeps `P` exactly if it meets `C`, a run has `P` throughout exactly if all its
steps meet `C`. -/
theorem always_iff_along {C : σ → α → Prop} {I P : σ → Prop}
    (hI : ∀ s a s', I s → step s a = some s' → I s')
    (hiff : ∀ s a s', I s → P s → step s a = some s' → (P s' ↔ C s a))
    {s t : σ} {as : List α} (hs : I s) (hP : P s) (hrun : runFrom step s as = some t) :
    Always step P s as ↔ Along step C s as := by
  induction as generalizing s with
  | nil => exact ⟨fun _ => trivial, fun _ => always_nil.2 hP⟩
  | cons a as ih =>
      obtain ⟨s', hs', hrun⟩ := runFrom_cons.1 hrun
      have hI' := hI s a s' hs hs'
      rw [always_cons hs']
      constructor
      · rintro ⟨-, hrest⟩
        have hP' : P s' := hrest [] s' List.nil_prefix rfl
        refine ⟨(hiff s a s' hs hP hs').1 hP', fun s₁ hs₁ => ?_⟩
        obtain rfl := Option.some.inj (hs'.symm.trans hs₁)
        exact (ih hI' hP' hrun).1 hrest
      · rintro ⟨hC, hrest⟩
        have hP' : P s' := (hiff s a s' hs hP hs').2 hC
        exact ⟨hP, (ih hI' hP' hrun).2 (hrest s' hs')⟩

/-! ## Machines with outputs -/

section Outputs

variable {τ β : Type*}

/-- A machine that answers every action: the answers to the actions, and the state after them. -/
def outputs (f : σ → α → β × σ) : σ → List α → List β × σ
  | s, [] => ([], s)
  | s, a :: as => ((f s a).1 :: (outputs f (f s a).2 as).1, (outputs f (f s a).2 as).2)

/-- One more action. -/
theorem outputs_concat (f : σ → α → β × σ) (s : σ) (as : List α) (a : α) :
    outputs f s (as ++ [a]) =
      ((outputs f s as).1 ++ [(f (outputs f s as).2 a).1], (f (outputs f s as).2 a).2) := by
  induction as generalizing s with
  | nil => rfl
  | cons b as ih => simp only [List.cons_append, outputs, ih]

/-- Two machines that answer alike in related states, and stay related, answer alike for ever. -/
theorem outputs_simulation {f : σ → α → β × σ} {g : τ → α → β × τ} {R : σ → τ → Prop}
    (hstep : ∀ s t a, R s t → (f s a).1 = (g t a).1 ∧ R (f s a).2 (g t a).2)
    {s : σ} {t : τ} (hst : R s t) (as : List α) :
    (outputs f s as).1 = (outputs g t as).1 ∧ R (outputs f s as).2 (outputs g t as).2 := by
  induction as generalizing s t with
  | nil => exact ⟨rfl, hst⟩
  | cons a as ih =>
      obtain ⟨hout, hrel⟩ := hstep s t a hst
      obtain ⟨houts, hend⟩ := ih hrel
      exact ⟨by rw [outputs, outputs, hout, houts], hend⟩

end Outputs

/-! ## Computations that may fail -/

section Except

variable {ε β γ : Type*}

@[simp] theorem except_bind_ok (a : β) (f : β → Except ε γ) : (Except.ok a).bind f = f a := rfl

@[simp] theorem except_bind_error (e : ε) (f : β → Except ε γ) :
    (Except.error e).bind f = .error e := rfl

@[simp] theorem except_map_ok (a : β) (f : β → γ) : (Except.ok a : Except ε β).map f = .ok (f a) := rfl

@[simp] theorem except_map_error (e : ε) (f : β → γ) : (Except.error e).map f = .error e := rfl

theorem except_ok_ne_error (b : β) (e : ε) : (Except.ok b : Except ε β) ≠ .error e := nofun

/-- A computation and what follows it have both succeeded. -/
theorem except_bind_eq_ok {x : Except ε β} {f : β → Except ε γ} {c : γ} :
    x.bind f = .ok c ↔ ∃ b, x = .ok b ∧ f b = .ok c := by
  cases x with
  | error e => simp
  | ok b => simp

theorem except_map_eq_ok {x : Except ε β} {f : β → γ} {c : γ} :
    x.map f = .ok c ↔ ∃ b, x = .ok b ∧ f b = c := by
  cases x with
  | error e => simp
  | ok b => simp

theorem except_map_eq_error {x : Except ε β} {f : β → γ} {e : ε} :
    x.map f = .error e ↔ x = .error e := by
  cases x with
  | ok b => exact iff_of_false (fun h => by cases h) fun h => by cases h
  | error e' => exact ⟨fun h => by cases h; rfl, fun h => by cases h; rfl⟩

theorem except_toOption_eq_some {x : Except ε β} {b : β} : x.toOption = some b ↔ x = .ok b := by
  cases x with
  | error e => simp [Except.toOption]
  | ok a => simp [Except.toOption]

end Except

end Base
end ToutOS
