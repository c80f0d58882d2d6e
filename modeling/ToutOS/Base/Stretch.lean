import Mathlib.Logic.Function.Basic

/-!
# Stretch — consecutive indices with a property

`Stretch p first num` says that `p` holds of the `num` indices from `first` on.

* `stretch_or_break` — a stretch, or the first index at which it ends too early;
* `LowestStretch` — the lowest stretch of a length;
* `Scanned` — the invariant of a single pass that counts the indices with the property and starts
  again at each one without it;
* `setStretch` — a function changed on consecutive indices.
-/

namespace ToutOS
namespace Base

universe u

variable {p : Nat → Prop} {first num : Nat}

/-- `p` holds of the `num` indices from `first` on. -/
def Stretch (p : Nat → Prop) (first num : Nat) : Prop :=
  ∀ k, first ≤ k → k < first + num → p k

theorem stretch_zero : Stretch p first 0 := by
  intro k h₁ h₂
  omega

theorem stretch_succ : Stretch p first (num + 1) ↔ p first ∧ Stretch p (first + 1) num := by
  constructor
  · intro h
    exact ⟨h first (Nat.le_refl first) (by omega), fun k h₁ h₂ => h k (by omega) (by omega)⟩
  · rintro ⟨hfirst, hrest⟩ k h₁ h₂
    rcases Nat.eq_or_lt_of_le h₁ with rfl | hlt
    · exact hfirst
    · exact hrest k hlt (by omega)

/-- One more index at the end. -/
theorem Stretch.snoc (h : Stretch p first num) (hend : p (first + num)) :
    Stretch p first (num + 1) := by
  intro k h₁ h₂
  rcases Nat.eq_or_lt_of_le (Nat.le_of_lt_succ h₂) with rfl | hlt
  · exact hend
  · exact h k h₁ hlt

/-- Either the whole stretch has the property, or it ends at a first index without it. -/
theorem stretch_or_break (p : Nat → Prop) (first num : Nat) :
    Stretch p first num ∨ ∃ j, j < num ∧ Stretch p first j ∧ ¬p (first + j) := by
  induction num with
  | zero => exact Or.inl stretch_zero
  | succ num ih =>
      rcases ih with hall | ⟨j, hj, hbefore, hbreak⟩
      · by_cases hend : p (first + num)
        · exact Or.inl (hall.snoc hend)
        · exact Or.inr ⟨num, Nat.lt_succ_self num, hall, hend⟩
      · exact Or.inr ⟨j, by omega, hbefore, hbreak⟩

/-! ## The lowest stretch -/

/-- The stretch at `first` is the lowest one of its length. -/
def LowestStretch (p : Nat → Prop) (num first : Nat) : Prop :=
  Stretch p first num ∧ ∀ l, l < first → ¬Stretch p l num

theorem LowestStretch.unique {l : Nat} (h : LowestStretch p num first)
    (h' : LowestStretch p num l) : first = l := by
  rcases Nat.lt_trichotomy first l with hlt | heq | hgt
  · exact absurd h.1 (h'.2 first hlt)
  · exact heq
  · exact absurd h'.1 (h.2 l hgt)

/-! ## A pass with a counter -/

variable {i count : Nat}

/-- A pass that has seen the indices below `i` without finding `num` in a row; the last `count` of
them have the property. -/
structure Scanned (p : Nat → Prop) (num i count : Nat) : Prop where
  short : count < num
  le : count ≤ i
  last : Stretch p (i - count) count
  /-- The counter misses none of them. -/
  whole : count < i → ¬p (i - count - 1)
  missed : ∀ l, l + num ≤ i → ¬Stretch p l num

theorem Scanned.init (hnum : 0 < num) : Scanned p num 0 0 :=
  ⟨hnum, Nat.le_refl 0, stretch_zero, fun h => absurd h (Nat.lt_irrefl 0),
    fun l hl => by omega⟩

/-- The next index has the property, and the stretch is still too short. -/
theorem Scanned.hit (h : Scanned p num i count) (hp : p i) (hshort : count + 1 < num) :
    Scanned p num (i + 1) (count + 1) := by
  have hle := h.le
  have hstart : i + 1 - (count + 1) = i - count := by omega
  refine ⟨hshort, by omega, ?_, ?_, ?_⟩
  · rw [hstart]
    exact h.last.snoc (by rwa [Nat.sub_add_cancel hle])
  · intro hlt
    rw [hstart]
    exact h.whole (by omega)
  · intro l hl hs
    by_cases hlast : l + num = i + 1
    · -- a stretch that ends here is longer than the counter, so it has the index before
      exact h.whole (by omega) (hs (i - count - 1) (by omega) (by omega))
    · exact h.missed l (by omega) hs

/-- The next index does not have the property. -/
theorem Scanned.miss (h : Scanned p num i count) (hp : ¬p i) : Scanned p num (i + 1) 0 := by
  have hnum := h.short
  refine ⟨by omega, by omega, stretch_zero, fun _ => hp, ?_⟩
  intro l hl hs
  by_cases hlast : l + num = i + 1
  · exact hp (hs i (by omega) (by omega))
  · exact h.missed l (by omega) hs

/-- The next index completes the stretch. -/
theorem Scanned.found (h : Scanned p num i count) (hp : p i) (hnum : count + 1 = num) :
    LowestStretch p num (i + 1 - num) := by
  have hle := h.le
  have hstart : i + 1 - num = i - count := by omega
  refine ⟨?_, fun l hl => h.missed l (by omega)⟩
  rw [hstart, ← hnum]
  exact h.last.snoc (by rwa [Nat.sub_add_cancel hle])

/-! ## Changing a function on consecutive indices -/

variable {α : Type u} {f : Nat → α} {v : α}

/-- `f` with the value `v` at the `num` indices from `first` on. -/
def setStretch (f : Nat → α) (first num : Nat) (v : α) : Nat → α := fun k =>
  if first ≤ k ∧ k < first + num then v else f k

theorem setStretch_zero : setStretch f first 0 v = f := by
  funext k
  rw [setStretch, if_neg (by omega)]

/-- The first index is changed, then the others. -/
theorem setStretch_succ :
    setStretch f first (num + 1) v = setStretch (Function.update f first v) (first + 1) num v := by
  funext k
  by_cases hk : k = first
  · subst hk
    rw [setStretch, setStretch, if_pos (by omega), if_neg (by omega), Function.update_self]
  · rw [setStretch, setStretch, Function.update_of_ne hk]
    by_cases hin : first ≤ k ∧ k < first + (num + 1)
    · rw [if_pos hin, if_pos (by omega)]
    · rw [if_neg hin, if_neg (by omega)]

theorem setStretch_of_mem {k : Nat} (h₁ : first ≤ k) (h₂ : k < first + num) :
    setStretch f first num v k = v := if_pos ⟨h₁, h₂⟩

end Base
end ToutOS
