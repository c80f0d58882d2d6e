import Mathlib.Data.List.Basic

/-!
# OrderSign — comparisons that answer with a number

* `orderSign` — negative, zero or positive as an `Ordering` says;
* `orderSign_eq_zero`, `orderSign_neg`, `orderSign_pos`, `orderSign_swap` — how it is read;
* `listCompare_eq_lt` — `compare` of two lists is the lexicographic order, and `orderSign_list` the
  sign for it;
* `orderSign_trans` — what follows from two answers that are not positive.
-/

namespace ToutOS
namespace Base

open Std

universe u

/-- The sign of an answer. -/
def orderSign : Ordering → Int
  | .lt => -1
  | .eq => 0
  | .gt => 1

@[simp] theorem orderSign_eq_zero {o : Ordering} : orderSign o = 0 ↔ o = .eq := by
  cases o <;> simp [orderSign]

@[simp] theorem orderSign_neg {o : Ordering} : orderSign o < 0 ↔ o = .lt := by
  cases o <;> simp [orderSign]

@[simp] theorem orderSign_pos {o : Ordering} : 0 < orderSign o ↔ o = .gt := by
  cases o <;> simp [orderSign]

theorem orderSign_nonpos {o : Ordering} : orderSign o ≤ 0 ↔ o.isLE = true := by
  cases o <;> simp [orderSign]

theorem orderSign_swap (o : Ordering) : orderSign o.swap = -orderSign o := by
  cases o <;> rfl

variable {α : Type u} [Ord α]

theorem orderSign_compare_swap [OrientedOrd α] (a b : α) :
    orderSign (compare b a) = -orderSign (compare a b) := by
  have hswap : compare b a = (compare a b).swap := OrientedCmp.eq_swap
  rw [hswap, orderSign_swap]

/-- Two answers that are not positive give a third, which is zero only if both are. -/
theorem orderSign_trans [TransOrd α] [LawfulEqOrd α] {a b c : α} (hab : orderSign (compare a b) ≤ 0)
    (hbc : orderSign (compare b c) ≤ 0) :
    orderSign (compare a c) ≤ 0 ∧
      (orderSign (compare a c) = 0 → orderSign (compare a b) = 0 ∧ orderSign (compare b c) = 0) := by
  refine ⟨orderSign_nonpos.2 (TransCmp.isLE_trans (orderSign_nonpos.1 hab) (orderSign_nonpos.1 hbc)), ?_⟩
  intro hzero
  -- both ends are the same, so that the two answers are opposite
  obtain rfl := Std.compare_eq_iff_eq.1 (orderSign_eq_zero.1 hzero)
  have hswap := orderSign_compare_swap a b
  omega

section Lists

variable [LT α] [LE α] [LawfulOrderOrd α] [LawfulOrderLT α] [LawfulEqOrd α]

theorem listCompare_eq_lt {xs ys : List α} : compare xs ys = .lt ↔ xs < ys := by
  induction xs generalizing ys with
  | nil => cases ys <;> simp
  | cons x xs ih =>
      cases ys with
      | nil => simp
      | cons y ys =>
          rw [List.compare_cons_cons, List.cons_lt_cons_iff, Ordering.then_eq_lt, Std.compare_eq_lt,
            Std.compare_eq_iff_eq, ih]

/-- The sign is that of the lexicographic comparison. -/
theorem orderSign_list [OrientedOrd α] (xs ys : List α) :
    (orderSign (compare xs ys) = 0 ↔ xs = ys) ∧ (orderSign (compare xs ys) < 0 ↔ xs < ys) ∧
      (0 < orderSign (compare xs ys) ↔ ys < xs) := by
  refine ⟨by rw [orderSign_eq_zero, Std.compare_eq_iff_eq], by rw [orderSign_neg, listCompare_eq_lt], ?_⟩
  have hswap := orderSign_compare_swap xs ys
  rw [← listCompare_eq_lt, ← orderSign_neg, hswap]
  omega

end Lists

end Base
end ToutOS
