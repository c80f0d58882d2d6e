import Mathlib.Data.List.Basic
import Mathlib.Data.List.Infix

/-!
# Radix — tables that point to tables

A radix tree of fixed depth lives in a graph of nodes: `slot n i` is the node that entry `i` of the
table `n` points to, if the entry is filled.  `descend slot d π` follows the indices `π` from the
root `d`.

`TreeLike slot d k` says that different paths of fewer than `k` indices lead to different tables, so
that no table is shared.  Under it a change of one entry is felt by exactly the paths that go
through it:

* `descend_set_other`, `descend_set_self` — the paths that avoid the entry, and the one that ends in
  it;
* `treeLike_set_leaf`, `treeLike_set_node` — the property survives a change of a last entry, and the
  insertion of a fresh, empty table.
-/

namespace ToutOS
namespace Base

universe u v

variable {N : Type u} {I : Type v}

/-- Follow the entries `π` from `n` on. -/
def descend (slot : N → I → Option N) : N → List I → Option N
  | n, [] => some n
  | n, i :: π => (slot n i).bind fun n' => descend slot n' π

/-- Different paths of fewer than `k` indices from `d` lead to different nodes. -/
def TreeLike (slot : N → I → Option N) (d : N) (k : Nat) : Prop :=
  ∀ π ρ n, π.length < k → ρ.length < k → descend slot d π = some n → descend slot d ρ = some n →
    π = ρ

variable {slot slot' : N → I → Option N} {d t e : N} {k : Nat} {π ρ : List I} {i : I}

@[simp] theorem descend_nil (n : N) : descend slot n [] = some n := rfl

theorem descend_three (n : N) (i j k : I) :
    descend slot n [i, j, k] = (slot n i).bind fun t => (slot t j).bind fun u => slot u k := by
  simp only [descend]
  cases slot n i with
  | none => rfl
  | some t => cases slot t j <;> simp

theorem descend_append (n : N) (π ρ : List I) :
    descend slot n (π ++ ρ) = (descend slot n π).bind fun n' => descend slot n' ρ := by
  induction π generalizing n with
  | nil => rfl
  | cons i π ih =>
      simp only [List.cons_append, descend, ih, Option.bind_assoc]

theorem descend_concat (n : N) (π : List I) (i : I) :
    descend slot n (π ++ [i]) = (descend slot n π).bind fun n' => slot n' i := by
  simp [descend_append, descend]

/-- The two graphs agree on the entries met within `k` steps from `d`. -/
def AgreeWithin (slot slot' : N → I → Option N) (d : N) (k : Nat) (P : N → I → Prop) : Prop :=
  ∀ π n i, π.length < k → descend slot d π = some n → P n i → slot' n i = slot n i

/-- The rest `ν` of a path is followed in the same way when every entry on it is one of those on
which the graphs agree. -/
theorem descend_agree {P : N → I → Prop} (h : AgreeWithin slot slot' d k P) :
    ∀ {ν μ : List I} {n : N}, descend slot d μ = some n → (μ ++ ν).length ≤ k →
      (∀ ξ j ζ n', ν = ξ ++ j :: ζ → descend slot d (μ ++ ξ) = some n' → P n' j) →
      descend slot' n ν = descend slot n ν := by
  intro ν
  induction ν with
  | nil =>
      intro μ n _ _ _
      rfl
  | cons j ν ih =>
      intro μ n hn hlen hP
      have hslot : slot' n j = slot n j := by
        refine h μ n j ?_ hn (hP [] j ν n rfl (by simpa using hn))
        simp only [List.length_append, List.length_cons] at hlen
        omega
      simp only [descend, hslot]
      cases hj : slot n j with
      | none => rfl
      | some n' =>
          -- one index further along the path
          have hn' : descend slot d (μ ++ [j]) = some n' := by simp [descend_concat, hn, hj]
          refine ih hn' (by simpa using hlen) ?_
          intro ξ l ζ m hsplit hm
          exact hP (j :: ξ) l ζ m (by rw [hsplit]; rfl) (by simpa using hm)

/-- Nothing that can be met has changed. -/
theorem descend_frame (h : AgreeWithin slot slot' d k fun _ _ => True) (hlen : ρ.length ≤ k) :
    descend slot' d ρ = descend slot d ρ :=
  descend_agree (μ := []) h rfl (by simpa using hlen) fun _ _ _ _ _ _ => trivial

/-- The entry `i` of the table at `π` may have changed, and no other. -/
abbrev AgreeExcept (slot slot' : N → I → Option N) (d : N) (k : Nat) (t : N) (i : I) : Prop :=
  AgreeWithin slot slot' d k fun n j => ¬(n = t ∧ j = i)

theorem descend_set_other (htree : TreeLike slot d k) (h : AgreeExcept slot slot' d k t i)
    (hπ : descend slot d π = some t) (hπk : π.length < k) (hlen : ρ.length ≤ k)
    (hne : ¬π ++ [i] <+: ρ) : descend slot' d ρ = descend slot d ρ := by
  refine descend_agree (μ := []) h rfl (by simpa using hlen) ?_
  rintro ξ j ζ n hsplit hn ⟨rfl, rfl⟩
  have hξ : ξ.length < k := by
    rw [hsplit] at hlen
    simp only [List.length_append, List.length_cons] at hlen
    omega
  -- the only way to that table is `π`
  obtain rfl : π = ξ := htree π ξ n hπk hξ hπ (by simpa using hn)
  exact hne ⟨ζ, by rw [hsplit]; simp⟩

theorem descend_set_node (htree : TreeLike slot d k) (h : AgreeExcept slot slot' d k t i)
    (hπ : descend slot d π = some t) (hπk : π.length < k) : descend slot' d π = some t := by
  rw [descend_set_other htree h hπ hπk (Nat.le_of_lt hπk), hπ]
  intro hthru
  have := hthru.length_le
  simp only [List.length_append, List.length_cons, List.length_nil] at this
  omega

theorem descend_set_self (htree : TreeLike slot d k) (h : AgreeExcept slot slot' d k t i)
    (hπ : descend slot d π = some t) (hπk : π.length < k) :
    descend slot' d (π ++ [i]) = slot' t i := by
  simp [descend_concat, descend_set_node htree h hπ hπk]

/-- Changing an entry of a table of the last level. -/
theorem treeLike_set_leaf (htree : TreeLike slot d k) (h : AgreeExcept slot slot' d k t i)
    (hπ : descend slot d π = some t) (hπk : π.length + 1 = k) : TreeLike slot' d k := by
  have hsame : ∀ ρ : List I, ρ.length < k → descend slot' d ρ = descend slot d ρ := by
    intro ρ hρ
    refine descend_set_other htree h hπ (by omega) (Nat.le_of_lt hρ) ?_
    intro hthru
    have := hthru.length_le
    simp only [List.length_append, List.length_cons, List.length_nil] at this
    omega
  intro ρ ξ n hρ hξ h₁ h₂
  rw [hsame ρ hρ] at h₁
  rw [hsame ξ hξ] at h₂
  exact htree ρ ξ n hρ hξ h₁ h₂

/-- Below a fresh and empty table there is nothing. -/
theorem descend_below_node (htree : TreeLike slot d k) (h : AgreeExcept slot slot' d k t i)
    (hπ : descend slot d π = some t) (hπk : π.length < k) (he : slot' t i = some e)
    (hempty : ∀ j, slot' e j = none) (ζ : List I) (hζ : ζ ≠ []) :
    descend slot' d (π ++ [i] ++ ζ) = none := by
  obtain ⟨j, ζ, rfl⟩ := List.exists_cons_of_ne_nil hζ
  rw [descend_append, descend_set_self htree h hπ hπk, he]
  simp [descend, hempty]

/-- Inserting a fresh and empty table. -/
theorem treeLike_set_node (htree : TreeLike slot d k) (h : AgreeExcept slot slot' d k t i)
    (hπ : descend slot d π = some t) (hπk : π.length < k) (he : slot' t i = some e)
    (hempty : ∀ j, slot' e j = none)
    (hfresh : ∀ ρ : List I, ρ.length < k → descend slot d ρ ≠ some e) : TreeLike slot' d k := by
  -- a table is the new one at its only path, or an old one
  have hcases : ∀ ρ n, ρ.length < k → descend slot' d ρ = some n →
      (ρ = π ++ [i] ∧ n = e) ∨ (descend slot d ρ = some n ∧ n ≠ e) := by
    intro ρ n hρ hn
    by_cases hthru : π ++ [i] <+: ρ
    · obtain ⟨ζ, rfl⟩ := hthru
      cases ζ with
      | nil =>
          simp only [List.append_nil, descend_set_self htree h hπ hπk, he, Option.some.injEq] at hn
          exact Or.inl ⟨by simp, hn.symm⟩
      | cons j ζ =>
          rw [descend_below_node htree h hπ hπk he hempty (j :: ζ) (by simp)] at hn
          cases hn
    · rw [descend_set_other htree h hπ hπk (Nat.le_of_lt hρ) hthru] at hn
      refine Or.inr ⟨hn, ?_⟩
      rintro rfl
      exact hfresh ρ hρ hn
  intro ρ ξ n hρ hξ h₁ h₂
  rcases hcases ρ n hρ h₁ with ⟨rfl, rfl⟩ | ⟨h₁, hne₁⟩
  · rcases hcases ξ n hξ h₂ with ⟨rfl, -⟩ | ⟨-, hne₂⟩
    · rfl
    · exact absurd rfl hne₂
  · rcases hcases ξ n hξ h₂ with ⟨-, rfl⟩ | ⟨h₂, -⟩
    · exact absurd rfl hne₁
    · exact htree ρ ξ n hρ hξ h₁ h₂

end Base
end ToutOS
