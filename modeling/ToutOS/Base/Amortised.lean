import Mathlib.Algebra.BigOperators.Fin
import Mathlib.Algebra.Order.BigOperators.Group.Finset
import ToutOS.Base.Run

/-!
# Amortised — bounds on what a run costs

Every step of a run costs something and is allowed something, and what is allowed and not spent at once
is kept in a potential.  This file provides:

* `decidableAlways` — what holds in every state of a run can be computed;
* `total f s as` — the sum of `f` over the steps of a run;
* `runFrom_total` — a bound that each step raises by what it is allowed;
* `runFrom_total_le` — a run costs no more than the potential at its start and what its steps are
  allowed, if that is so of every single step;
* `headroom T time S` — a potential: by how much the members of `S` are below `T + 1`;
  `headroom_le` and `headroom_lt` say what changes of `time` do to it.
-/

namespace ToutOS
namespace Base

universe u v

section Total

variable {σ : Type u} {α : Type v} {step : σ → α → Option σ} {s t : σ} {a : α} {as : List α}

/-- A run that stops at once. -/
theorem always_cons_none {P : σ → Prop} (hs : step s a = none) : Always step P s (a :: as) ↔ P s := by
  constructor
  · exact fun h => h [] s List.nil_prefix rfl
  · intro h bs t hbs hrun
    cases bs with
    | nil =>
        cases hrun
        exact h
    | cons b bs =>
        obtain ⟨rfl, -⟩ := List.cons_prefix_cons.1 hbs
        obtain ⟨s₁, hs₁, -⟩ := runFrom_cons.1 hrun
        rw [hs] at hs₁
        cases hs₁

instance decidableAlways (P : σ → Prop) [DecidablePred P] :
    ∀ (s : σ) (as : List α), Decidable (Always step P s as)
  | _, [] => decidable_of_iff _ always_nil.symm
  | s, a :: as =>
      match hs : step s a with
      | none => decidable_of_iff (P s) (always_cons_none hs).symm
      | some s' =>
          have := decidableAlways P s' as
          decidable_of_iff _ (always_cons hs).symm

/-- The sum of `f` over the steps of a run. -/
def total (step : σ → α → Option σ) (f : σ → α → Nat) : σ → List α → Nat
  | _, [] => 0
  | s, a :: as => f s a + ((step s a).elim 0 fun s' => total step f s' as)

theorem total_cons {f : σ → α → Nat} {s' : σ} (hs : step s a = some s') :
    total step f s (a :: as) = f s a + total step f s' as := by
  rw [total, hs, Option.elim_some]

theorem total_mul {f : σ → α → Nat} (k : Nat) :
    total step (fun s a => k * f s a) s as = k * total step f s as := by
  induction as generalizing s with
  | nil => rfl
  | cons a as ih =>
      rw [total, total, Nat.mul_add]
      cases step s a with
      | none => rfl
      | some s' => rw [Option.elim_some, Option.elim_some, ih]

/-- In a run whose states all have `P`, a bound that every step raises by what it is allowed is raised
by what they all are allowed. -/
theorem runFrom_total {I : Nat → σ → Prop} {P : σ → Prop} (gain : σ → α → Nat) {n : Nat}
    (hstep : ∀ n s a s', I n s → P s → P s' → step s a = some s' → I (n + gain s a) s')
    (hs : I n s) (hP : Always step P s as) (hrun : runFrom step s as = some t) :
    I (n + total step gain s as) t := by
  induction as generalizing s n with
  | nil =>
      cases hrun
      exact hs
  | cons a as ih =>
      obtain ⟨s', hs', hrest⟩ := runFrom_cons.1 hrun
      obtain ⟨hnow, hlater⟩ := (always_cons hs').1 hP
      rw [total_cons hs', ← Nat.add_assoc]
      exact ih (hstep n s a s' hs hnow (hlater [] s' List.nil_prefix rfl) hs') hlater hrest

/-- In a run whose states all have `P`, what the steps cost is paid by the potential `M` at the start
and by what the steps gain. -/
theorem runFrom_total_le {I P : σ → Prop} {M : σ → Nat} (cost gain : σ → α → Nat)
    (hI : ∀ s a s', I s → P s → P s' → step s a = some s' → I s')
    (hstep : ∀ s a s', I s → P s → P s' → step s a = some s' → cost s a + M s' ≤ M s + gain s a)
    (hs : I s) (hP : Always step P s as) (hrun : runFrom step s as = some t) :
    total step cost s as + M t ≤ M s + total step gain s as := by
  induction as generalizing s with
  | nil =>
      cases hrun
      exact Nat.le_of_eq (Nat.zero_add _)
  | cons a as ih =>
      obtain ⟨s', hs', hrest⟩ := runFrom_cons.1 hrun
      obtain ⟨hnow, hlater⟩ := (always_cons hs').1 hP
      have hnext := hlater [] s' List.nil_prefix rfl
      have hfirst := hstep s a s' hs hnow hnext hs'
      have hothers := ih (hI s a s' hs hnow hnext hs') hlater hrest
      rw [total_cons hs', total_cons hs']
      omega

/-- A run in which a step costs one if it is the action `a`. -/
theorem total_count [DecidableEq α] (hrun : runFrom step s as = some t) :
    total step (fun _ b => if b = a then 1 else 0) s as = as.count a := by
  induction as generalizing s with
  | nil => rfl
  | cons b as ih =>
      obtain ⟨s', hs', hrest⟩ := runFrom_cons.1 hrun
      rw [total_cons hs', ih hrest, List.count_cons, Nat.add_comm]
      simp only [beq_iff_eq]

end Total

section Headroom

variable {ι : Type u} {T : Nat} {time time' : ι → Nat} {S : Finset ι} {i : ι}

/-- How far the members of `S` are below `T + 1`, all together. -/
def headroom (T : Nat) (time : ι → Nat) (S : Finset ι) : Nat := ∑ k ∈ S, (T + 1 - time k)

/-- The members of `S` whose time has gone down. -/
def fallen (time time' : ι → Nat) (S : Finset ι) : Nat := (S.filter fun k => time' k < time k).card

/-- A member whose time has gone down has at most `T + 1` to go again. -/
theorem headroom_le : headroom T time' S ≤ headroom T time S + (T + 1) * fallen time time' S := by
  rw [fallen, Finset.card_filter, Finset.mul_sum, headroom, headroom, ← Finset.sum_add_distrib]
  refine Finset.sum_le_sum fun k _ => ?_
  split_ifs with hk
  · omega
  · omega

/-- One member at or below `T` has its time changed, upwards by one or down. -/
theorem headroom_lt [DecidableEq ι] (hi : i ∈ S) (hle : time i ≤ T)
    (hothers : ∀ k ∈ S, k ≠ i → time' k = time k)
    (hchange : time' i = time i + 1 ∨ time' i < time i) :
    headroom T time' S + 1 ≤ headroom T time S + (T + 1) * fallen time time' S := by
  rw [fallen, Finset.card_filter, Finset.mul_sum, headroom, headroom,
    ← Finset.add_sum_erase S _ hi, ← Finset.add_sum_erase S (fun k => T + 1 - time k) hi,
    ← Finset.add_sum_erase S (fun k => (T + 1) * if time' k < time k then 1 else 0) hi]
  have hrest : ∑ k ∈ S.erase i, (T + 1 - time' k) = ∑ k ∈ S.erase i, (T + 1 - time k) := by
    refine Finset.sum_congr rfl fun k hk => ?_
    rw [hothers k (Finset.mem_of_mem_erase hk) (Finset.ne_of_mem_erase hk)]
  rcases hchange with hup | hdown
  · -- it has one less to go
    rw [hrest, hup]
    omega
  · rw [hrest, if_pos hdown]
    omega

end Headroom

end Base
end ToutOS
