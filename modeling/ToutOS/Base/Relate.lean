import ToutOS.Base.Run

/-!
# Relate — two runs side by side

A statement about two runs of one program is proved through a relation between their states that
every step keeps.  This file provides:

* `Together R x y` — two computations in `Except` that fail for the same reason or end in related
  results, with the rules to follow them step by step (`Together.bind`, `Together.map`);
* `pairStep` — the steps of two runs that take the same actions, so that a condition on both states
  can be asked for along the way;
* `runFrom_related` — what relates the states at the beginning relates them at the end;
* `runFrom_refines` — a program each of whose steps is matched by steps of another one.
-/

namespace ToutOS
namespace Base

/-! ## Computations -/

section Except

variable {ε β β' γ γ' : Type*} {R : β → β' → Prop} {Q : γ → γ' → Prop} {x : Except ε β}
  {y : Except ε β'}

/-- Both computations fail for the same reason, or both succeed and their results are related. -/
inductive Together (R : β → β' → Prop) : Except ε β → Except ε β' → Prop
  | error (e : ε) : Together R (.error e) (.error e)
  | ok {b : β} {b' : β'} : R b b' → Together R (.ok b) (.ok b')

/-- What follows two related computations. -/
theorem Together.bind {f : β → Except ε γ} {g : β' → Except ε γ'} (h : Together R x y)
    (hf : ∀ b b', x = .ok b → y = .ok b' → R b b' → Together Q (f b) (g b')) :
    Together Q (x.bind f) (y.bind g) := by
  cases h with
  | error e => exact .error e
  | ok h => exact hf _ _ rfl rfl h

theorem Together.map {f : β → γ} {g : β' → γ'} (h : Together R x y)
    (hf : ∀ b b', x = .ok b → y = .ok b' → R b b' → Q (f b) (g b')) :
    Together Q (x.map f) (y.map g) := by
  cases h with
  | error e => exact .error e
  | ok h => exact .ok (hf _ _ rfl rfl h)

/-- More is known about the results of computations that have succeeded. -/
theorem Together.strengthen {R' : β → β' → Prop} (h : Together R x y)
    (hR : ∀ b b', x = .ok b → y = .ok b' → R b b' → R' b b') : Together R' x y := by
  cases h with
  | error e => exact .error e
  | ok h => exact .ok (hR _ _ rfl rfl h)

theorem Together.mono {R' : β → β' → Prop} (h : Together R x y) (hR : ∀ b b', R b b' → R' b b') :
    Together R' x y := h.strengthen fun b b' _ _ => hR b b'

/-- The reason for a failure may be forgotten. -/
theorem Together.toOption (h : Together R x y) : Option.Rel R x.toOption y.toOption := by
  cases h with
  | error e => exact .none
  | ok h => exact .some h

end Except

/-! ## Runs -/

section Runs

universe u v

variable {σ : Type u} {α : Type v} {step : σ → α → Option σ}

/-- Two runs take the same action. -/
def pairStep (step : σ → α → Option σ) (p : σ × σ) (a : α) : Option (σ × σ) :=
  (step p.1 a).bind fun t => (step p.2 a).map fun t₂ => (t, t₂)

theorem optionRel_mono {R R' : σ → σ → Prop} {o o₂ : Option σ} (h : Option.Rel R o o₂)
    (hR : ∀ s s₂, R s s₂ → R' s s₂) : Option.Rel R' o o₂ := by
  cases h with
  | some h => exact .some (hR _ _ h)
  | none => exact .none

/-- Both runs stop at the same action, or they go to the end and the states there are related. -/
theorem runFrom_related {R : σ → σ → Prop} {P : σ × σ → α → Prop}
    (hstep : ∀ s s₂ a, R s s₂ → P (s, s₂) a → Option.Rel R (step s a) (step s₂ a)) :
    ∀ {as : List α} {s s₂ : σ}, R s s₂ → Along (pairStep step) P (s, s₂) as →
      Option.Rel R (runFrom step s as) (runFrom step s₂ as) := by
  intro as
  induction as with
  | nil =>
      intro s s₂ h _
      exact .some h
  | cons a as ih =>
      intro s s₂ h hP
      have hone := hstep s s₂ a h hP.1
      have hnext : ∀ s' s₂', step s a = some s' → step s₂ a = some s₂' →
          Along (pairStep step) P (s', s₂') as := fun s' s₂' hs hs₂ =>
        hP.2 (s', s₂') (by simp [pairStep, hs, hs₂])
      rw [runFrom, runFrom]
      generalize step s a = o at hone hnext ⊢
      generalize step s₂ a = o₂ at hone hnext ⊢
      cases hone with
      | some h' => exact ih h' (hnext _ _ rfl rfl)
      | none => exact .none

/-- If every step of one program is matched by steps of another one, so is every run. -/
theorem runFrom_refines {τ β : Type*} {step' : τ → β → Option τ} {R : σ → τ → Prop}
    (hstep : ∀ s t a s', R s t → step s a = some s' → ∃ bs t', runFrom step' t bs = some t' ∧ R s' t')
    {as : List α} {s s' : σ} {t : τ} (h : R s t) (hrun : runFrom step s as = some s') :
    ∃ bs t', runFrom step' t bs = some t' ∧ R s' t' := by
  induction as generalizing s t with
  | nil =>
      cases hrun
      exact ⟨[], t, rfl, h⟩
  | cons a as ih =>
      obtain ⟨s₁, hs₁, hrest⟩ := runFrom_cons.1 hrun
      obtain ⟨bs, t₁, ht₁, h₁⟩ := hstep s t a s₁ h hs₁
      obtain ⟨cs, t', ht', h'⟩ := ih h₁ hrest
      exact ⟨bs ++ cs, t', runFrom_append.2 ⟨t₁, ht₁, ht'⟩, h'⟩

end Runs

end Base
end ToutOS
