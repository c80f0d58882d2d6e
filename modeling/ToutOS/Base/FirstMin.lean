import Mathlib.Order.Lattice

/-!
# FirstMin — the first index with the least key

A loop that looks for a minimum and keeps the first of several finds one index, or none.  This file
provides:

* `FirstMin p key b` — among the indices with `p`, `b` has the least key, and is the first that has
  it;
* `FirstMinOf p key o` — what the loop should return, with `none` if no index has `p`;
* `better key i o` — the round of the loop for the index `i`; `FirstMinOf.extend` says what it keeps
  if `i` is behind all the indices that have been looked at.
-/

namespace ToutOS
namespace Base

variable {ι κ : Type*} [LinearOrder ι] [LinearOrder κ] {p q : ι → Prop} {key : ι → κ} {b i : ι}
  {o : Option ι}

/-- Among the indices with `p`, `b` is the first that has the least key. -/
structure FirstMin (p : ι → Prop) (key : ι → κ) (b : ι) : Prop where
  mem : p b
  least : ∀ j, p j → key b < key j ∨ key b = key j ∧ b ≤ j

/-- The first index with the least key, if any index has `p`. -/
def FirstMinOf (p : ι → Prop) (key : ι → κ) : Option ι → Prop
  | none => ∀ j, ¬p j
  | some b => FirstMin p key b

/-- What is kept of `i` and the best index so far. -/
def better (key : ι → κ) (i : ι) : Option ι → Option ι
  | none => some i
  | some b => if key i < key b then some i else some b

theorem FirstMin.unique {c : ι} (hb : FirstMin p key b) (hc : FirstMin p key c) : b = c := by
  rcases hb.least c hc.mem with hlt | ⟨heq, hle⟩
  · rcases hc.least b hb.mem with hlt' | ⟨heq', -⟩
    · exact absurd hlt' (lt_asymm hlt)
    · exact absurd hlt heq'.not_gt
  · rcases hc.least b hb.mem with hlt' | ⟨-, hle'⟩
    · exact absurd hlt' heq.not_gt
    · exact le_antisymm hle hle'

theorem FirstMinOf.congr (h : FirstMinOf p key o) (hpq : ∀ j, p j ↔ q j) : FirstMinOf q key o := by
  obtain rfl : p = q := funext fun j => propext (hpq j)
  exact h

theorem FirstMinOf.eq_none_iff (h : FirstMinOf p key o) : o = none ↔ ∀ j, ¬p j := by
  cases o with
  | none => exact iff_of_true rfl h
  | some b => exact iff_of_false nofun fun hnone => hnone b h.mem

theorem FirstMinOf.eq_some_iff (h : FirstMinOf p key o) : o = some b ↔ FirstMin p key b := by
  cases o with
  | none => exact iff_of_false nofun fun hb => h b hb.mem
  | some c =>
      constructor
      · intro hc
        obtain rfl := Option.some.inj hc
        exact h
      · exact fun hb => congrArg some (FirstMin.unique h hb)

/-- A new index that is the least so far takes the place of the old one. -/
theorem FirstMin.replace (h : FirstMin p key b) (hlt : key i < key b) :
    FirstMin (fun j => p j ∨ j = i) key i := by
  refine ⟨Or.inr rfl, fun j hj => ?_⟩
  rcases hj with hj | rfl
  · rcases h.least j hj with hbj | ⟨hbj, -⟩
    · exact Or.inl (hlt.trans hbj)
    · exact Or.inl (hbj ▸ hlt)
  · exact Or.inr ⟨rfl, le_rfl⟩

/-- A new index that is no less than the old one does not. -/
theorem FirstMin.keep (h : FirstMin p key b) (hnot : ¬key i < key b) (hb : b < i) :
    FirstMin (fun j => p j ∨ j = i) key b := by
  refine ⟨Or.inl h.mem, fun j hj => ?_⟩
  rcases hj with hj | rfl
  · exact h.least j hj
  · rcases (not_lt.1 hnot).lt_or_eq with hlt | heq
    · exact Or.inl hlt
    · exact Or.inr ⟨heq, hb.le⟩

/-- One more index is looked at, behind all the others. -/
theorem FirstMinOf.extend (h : FirstMinOf p key o) (hlt : ∀ j, p j → j < i) :
    FirstMinOf (fun j => p j ∨ j = i) key (better key i o) := by
  cases o with
  | none =>
      refine ⟨Or.inr rfl, fun j hj => ?_⟩
      rcases hj with hj | rfl
      · exact absurd hj (h j)
      · exact Or.inr ⟨rfl, le_rfl⟩
  | some b =>
      have hb : FirstMin p key b := h
      by_cases hkey : key i < key b
      · rw [better, if_pos hkey]
        exact hb.replace hkey
      · rw [better, if_neg hkey]
        exact hb.keep hkey (hlt b hb.mem)

end Base
end ToutOS
