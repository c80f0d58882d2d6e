import Mathlib.Data.Set.Lattice
import Mathlib.Logic.Function.Basic

/-!
# Ownership — local steps on a memory that is divided into regions

Every cell of a memory belongs to a region, and some regions are free.  A step is local to the
regions an actor owns when it changes no other region except by taking it out of the free ones, and
gives nothing back that it did not own.  This file provides:

* `Local` — local steps, with the rules to chain them (`Local.trans`), to carry regions along that
  the step does not touch (`Local.frame`) and to weaken them (`Local.weaken`);
* `Lossless` — steps after which every region that was free or owned still is one of both;
* `Owned` — a family of actors that own disjoint regions, none of them free;
* `Owned.step` — a step that is local to one actor keeps the family apart and does not change what
  the other actors own.  The actor may also write regions that nobody owns (`rest`).
-/

namespace ToutOS
namespace Base

variable {X V R ι : Type*}

/-- A memory and the regions of it that are free. -/
structure World (X V R : Type*) where
  mem : X → V
  free : Set R

/-- From `w` to `w'` an actor that owned the regions `own` has come to own `own'`. -/
structure Local (region : X → R) (own own' : Set R) (w w' : World X V R) : Prop where
  same : ∀ x, region x ∉ own → region x ∉ w.free → w'.mem x = w.mem x
  taken : ∀ r ∈ own', r ∈ own ∨ r ∈ w.free
  released : ∀ r ∈ w'.free, r ∈ w.free ∨ r ∈ own
  held : ∀ r ∈ own', r ∉ w'.free

variable {region : X → R} {own own' own'' : Set R} {w w' w'' : World X V R}

theorem Local.refl (h : ∀ r ∈ own, r ∉ w.free) : Local region own own w w :=
  ⟨fun _ _ _ => rfl, fun _ hr => Or.inl hr, fun _ hr => Or.inl hr, h⟩

theorem Local.trans (h₁ : Local region own own' w w') (h₂ : Local region own' own'' w' w'') :
    Local region own own'' w w'' := by
  refine ⟨?_, ?_, ?_, h₂.held⟩
  · intro x hown hfree
    -- the region of `x` is still neither owned nor free when the second step begins
    have hown' : region x ∉ own' := fun hr => (h₁.taken _ hr).elim hown hfree
    have hfree' : region x ∉ w'.free := fun hr => (h₁.released _ hr).elim hfree hown
    rw [h₂.same x hown' hfree', h₁.same x hown hfree]
  · intro r hr
    rcases h₂.taken r hr with hr' | hr'
    · exact h₁.taken r hr'
    · exact (h₁.released r hr').symm
  · intro r hr
    rcases h₂.released r hr with hr' | hr'
    · exact h₁.released r hr'
    · exact (h₁.taken r hr').symm

/-- Regions that are not free and not given up by the step may be added on both sides. -/
theorem Local.frame (h : Local region own own' w w') {rest : Set R}
    (hfree : ∀ r ∈ rest, r ∉ w.free) (hown : ∀ r ∈ rest, r ∈ own → r ∈ own') :
    Local region (own ∪ rest) (own' ∪ rest) w w' := by
  refine ⟨?_, ?_, ?_, ?_⟩
  · intro x hx hx'
    exact h.same x (fun hr => hx (Or.inl hr)) hx'
  · rintro r (hr | hr)
    · exact (h.taken r hr).imp_left Or.inl
    · exact Or.inl (Or.inr hr)
  · intro r hr
    exact (h.released r hr).imp_right Or.inl
  · rintro r (hr | hr)
    · exact h.held r hr
    · intro hr'
      rcases h.released r hr' with hr₁ | hr₁
      · exact hfree r hr hr₁
      · exact h.held r (hown r hr hr₁) hr'

/-- An actor may own more before the step, and forget regions after it. -/
theorem Local.weaken {big small : Set R} (h : Local region own own' w w') (hbig : own ⊆ big)
    (hsmall : small ⊆ own') : Local region big small w w' :=
  ⟨fun x hx => h.same x fun hr => hx (hbig hr), fun r hr => (h.taken r (hsmall hr)).imp_left (@hbig r),
    fun r hr => (h.released r hr).imp_right (@hbig r), fun r hr => h.held r (hsmall hr)⟩

/-- Writing regions that are owned. -/
theorem Local.write (hsame : ∀ x, region x ∉ own → w'.mem x = w.mem x) (hfree : w'.free = w.free)
    (hown : ∀ r ∈ own, r ∉ w.free) : Local region own own w w' := by
  refine ⟨fun x hx _ => hsame x hx, fun r hr => Or.inl hr, fun r hr => ?_, fun r hr => ?_⟩
  · rw [hfree] at hr
    exact Or.inl hr
  · rw [hfree]
    exact hown r hr

/-! ## Nothing is lost -/

/-- What was free or owned before the step is free or owned after it. -/
def Lossless (own own' : Set R) (w w' : World X V R) : Prop :=
  ∀ r, r ∈ w.free ∨ r ∈ own → r ∈ w'.free ∨ r ∈ own'

theorem Lossless.refl (own : Set R) (w : World X V R) : Lossless own own w w := fun _ hr => hr

theorem Lossless.trans (h₁ : Lossless own own' w w') (h₂ : Lossless own' own'' w' w'') :
    Lossless own own'' w w'' := fun r hr => h₂ r (h₁ r hr)

theorem Lossless.frame (h : Lossless own own' w w') (rest : Set R) :
    Lossless (own ∪ rest) (own' ∪ rest) w w' := by
  rintro r (hr | hr | hr)
  · exact (h r (Or.inl hr)).imp_right Or.inl
  · exact (h r (Or.inr hr)).imp_right Or.inl
  · exact Or.inr (Or.inr hr)

/-- What is free or owned is the same before and after a step in which nothing is lost. -/
theorem Local.balance (h : Local region own own' w w') (hl : Lossless own own' w w') (r : R) :
    r ∈ w'.free ∨ r ∈ own' ↔ r ∈ w.free ∨ r ∈ own :=
  ⟨fun hr => hr.elim (h.released r) fun hr => (h.taken r hr).symm, hl r⟩

/-- An actor that began and ended with nothing has left the free regions as they were. -/
theorem Local.free_eq (h : Local region ∅ ∅ w w') (hl : Lossless ∅ ∅ w w') : w'.free = w.free := by
  ext r
  simpa using h.balance hl r

/-! ## Actors -/

/-- The regions of different actors are different, and none of them is free. -/
structure Owned (own : ι → Set R) (w : World X V R) : Prop where
  apart : ∀ i j r, i ≠ j → r ∈ own i → r ∉ own j
  held : ∀ i r, r ∈ own i → r ∉ w.free

section Step

variable {own : ι → Set R} {i : ι} {rest : Set R}

/-- A step of one actor does not concern the others. -/
theorem Owned.same {j : ι} (h : Owned own w) (hstep : Local region (own i ∪ rest) (own' ∪ rest) w w')
    (hij : j ≠ i) {x : X} (hx : region x ∈ own j) (hrest : region x ∉ rest) : w'.mem x = w.mem x := by
  refine hstep.same x ?_ (h.held j _ hx)
  rintro (hin | hin)
  · exact h.apart j i _ hij hx hin
  · exact hrest hin

theorem Owned.step [DecidableEq ι] (h : Owned own w)
    (hstep : Local region (own i ∪ rest) (own' ∪ rest) w w')
    (hrest : ∀ j, j ≠ i → ∀ r ∈ own j, r ∉ rest) (hrest' : ∀ r ∈ own', r ∉ rest) :
    Owned (Function.update own i own') w' := by
  -- what another actor owns is not among the new regions
  have hother : ∀ j, j ≠ i → ∀ r ∈ own j, r ∉ own' := by
    intro j hij r hr hr'
    rcases hstep.taken r (Or.inl hr') with (hin | hin) | hin
    · exact h.apart j i r hij hr hin
    · exact hrest' r hr' hin
    · exact h.held j r hr hin
  constructor
  · intro j k r hjk hj hk
    by_cases hji : j = i
    · subst hji
      rw [Function.update_self] at hj
      rw [Function.update_of_ne (Ne.symm hjk)] at hk
      exact hother k (Ne.symm hjk) r hk hj
    · rw [Function.update_of_ne hji] at hj
      by_cases hki : k = i
      · subst hki
        rw [Function.update_self] at hk
        exact hother j hji r hj hk
      · rw [Function.update_of_ne hki] at hk
        exact h.apart j k r hjk hj hk
  · intro j r hj hfree
    by_cases hji : j = i
    · subst hji
      rw [Function.update_self] at hj
      exact hstep.held r (Or.inl hj) hfree
    · rw [Function.update_of_ne hji] at hj
      rcases hstep.released r hfree with hin | hin | hin
      · exact h.held j r hj hin
      · exact h.apart j i r hji hj hin
      · exact hrest j hji r hj hin

end Step

end Base
end ToutOS
