import Mathlib.Data.Finset.Card
import Mathlib.Data.Finset.Lattice.Basic

/-!
# Budget — making what is missing out of a stock

A computation needs the items of a finite set.  Those that are there cost nothing, and each of the
others takes one unit of a stock.

* `missing` — what a set of items costs.
* `Paid` — the items of a set have been made and paid for; `Paid.refl`, `Paid.trans`.
* `Spends` — the two ways in which such a computation ends: all is made and paid for, or the stock was
  smaller than the cost.  `Spends.seq` composes two of them, `Spends.short_iff` reads off when it fails.
-/

namespace ToutOS
namespace Base

universe u v w

variable {α : Type u}

/-- The number of items of `S` that are not there. -/
def missing (there : α → Bool) (S : Finset α) : Nat := (S.filter fun a => there a = false).card

variable {there there' there'' : α → Bool} {S S' : Finset α} {stock stock' stock'' : Nat}

@[simp] theorem missing_empty : missing there (∅ : Finset α) = 0 := rfl

theorem missing_singleton (a : α) : missing there {a} = if there a = true then 0 else 1 := by
  cases h : there a <;> simp [missing, Finset.filter_singleton, h]

theorem missing_mono (h : S ⊆ S') : missing there S ≤ missing there S' :=
  Finset.card_le_card (Finset.filter_subset_filter _ h)

/-- Nothing is there. -/
theorem missing_eq_card (h : ∀ a ∈ S, there a = false) : missing there S = S.card := by
  rw [missing, Finset.filter_true_of_mem h]

/-- The items of `S` are there as well, and they have been paid for. -/
structure Paid (stock stock' : Nat) (there there' : α → Bool) (S : Finset α) : Prop where
  cost : stock = stock' + missing there S
  made : ∀ a, there' a = true ↔ there a = true ∨ a ∈ S

theorem Paid.refl : Paid stock stock there there ∅ := ⟨rfl, by simp⟩

/-- The second set costs what the first one has left missing. -/
theorem missing_union [DecidableEq α] (h : ∀ a, there' a = true ↔ there a = true ∨ a ∈ S) :
    missing there (S ∪ S') = missing there S + missing there' S' := by
  have hsplit : (S ∪ S').filter (fun a => there a = false) =
      S.filter (fun a => there a = false) ∪ S'.filter (fun a => there' a = false) := by
    ext a
    have ha := h a
    simp only [Finset.mem_filter, Finset.mem_union]
    cases h₁ : there a <;> cases h₂ : there' a <;> simp_all
  have hdisj : Disjoint (S.filter fun a => there a = false) (S'.filter fun a => there' a = false) := by
    rw [Finset.disjoint_left]
    intro a h₁ h₂
    have hmade := (h a).2 (Or.inr (Finset.mem_filter.1 h₁).1)
    rw [(Finset.mem_filter.1 h₂).2] at hmade
    cases hmade
  rw [missing, hsplit, Finset.card_union_of_disjoint hdisj, missing, missing]

theorem Paid.trans [DecidableEq α] (h₁ : Paid stock stock' there there' S) (h₂ : Paid stock' stock'' there' there'' S') :
    Paid stock stock'' there there'' (S ∪ S') := by
  constructor
  · rw [missing_union h₁.made, h₁.cost, h₂.cost]
    omega
  · intro a
    rw [h₂.made, h₁.made, Finset.mem_union, or_assoc]

/-- A computation that makes the items of `S` ends with `result`: it has paid for them, or it has
failed with `short` because they cost more than the stock. -/
inductive Spends {ε : Type v} {σ : Type w} (stock : σ → Nat) (there : σ → α → Bool) (short : ε)
    (S : Finset α) (s : σ) : Except ε σ → Prop
  | paid (s' : σ) (h : Paid (stock s) (stock s') (there s) (there s') S) :
      Spends stock there short S s (.ok s')
  | short (h : stock s < missing (there s) S) : Spends stock there short S s (.error short)

section Run

variable {ε : Type v} {σ : Type w} {measure : σ → Nat} {has : σ → α → Bool} {short : ε} {s s' : σ}
  {result : Except ε σ}

theorem Spends.refl (s : σ) : Spends measure has short ∅ s (.ok s) := .paid s Paid.refl

/-- One computation after the other. -/
theorem Spends.seq [DecidableEq α] {f : σ → Except ε σ} (h : Spends measure has short S s result)
    (hf : ∀ s', result = .ok s' → Spends measure has short S' s' (f s')) :
    Spends measure has short (S ∪ S') s (result.bind f) := by
  cases h with
  | short hlt => exact .short (hlt.trans_le (missing_mono Finset.subset_union_left))
  | paid s₁ h₁ =>
      have hrest := hf s₁ rfl
      change Spends measure has short (S ∪ S') s (f s₁)
      generalize f s₁ = second at hrest
      cases hrest with
      | paid s₂ h₂ => exact .paid s₂ (h₁.trans h₂)
      | short hlt =>
          refine .short ?_
          have hcost := h₁.cost
          rw [missing_union h₁.made]
          omega

/-- The same computation on a larger state. -/
theorem Spends.map {τ : Type w} {measure' : τ → Nat} {has' : τ → α → Bool} {f : σ → τ} {t : τ}
    (h : Spends measure has short S s result) (hmeasure : measure' t = measure s) (hhas : has' t = has s)
    (hf : ∀ s', measure' (f s') = measure s' ∧ has' (f s') = has s') :
    Spends measure' has' short S t (result.map f) := by
  cases h with
  | paid s' h =>
      obtain ⟨h₁, h₂⟩ := hf s'
      refine .paid (f s') ?_
      rw [h₁, h₂, hmeasure, hhas]
      exact h
  | short hlt =>
      refine .short ?_
      rw [hmeasure, hhas]
      exact hlt

/-- It fails exactly when the stock is too small. -/
theorem Spends.short_iff (h : Spends measure has short S s result) :
    result = .error short ↔ measure s < missing (has s) S := by
  cases h with
  | paid s' h =>
      have hcost := h.cost
      constructor
      · intro hno
        cases hno
      · intro hlt
        omega
  | short hlt => exact iff_of_true rfl hlt

end Run

end Base
end ToutOS
