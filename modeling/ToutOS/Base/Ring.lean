import Mathlib.Data.List.Basic
import Mathlib.Logic.Function.Basic

/-!
# Ring — queues kept in a ring of cells

A queue is kept in a ring of `L` cells; its first element is at the position that one reaches by
counting `k` steps around the ring, `k % L`.  This file provides:

* `ringNext`, `ringDist` — the next position, and the number of steps from one position to another,
  as programs compute them without division; `ringNext_mod` and `ringDist_mod` say what they are in
  terms of steps;
* `RingHolds` — the cells from step `k` on hold a list, with the rules to split the list
  (`ringHolds_append`) and to write a cell behind it (`RingHolds.update`).
-/

namespace ToutOS
namespace Base

variable {α : Type*} {L : Nat}

/-! ## Positions -/

/-- The position after `i`. -/
def ringNext (L i : Nat) : Nat := if i + 1 = L then 0 else i + 1

/-- The number of steps from position `r` to position `w`. -/
def ringDist (L r w : Nat) : Nat := if r ≤ w then w - r else L - (r - w)

theorem ringNext_mod (hL : 0 < L) (k : Nat) : ringNext L (k % L) = (k + 1) % L := by
  have hlt : k % L < L := Nat.mod_lt k hL
  rw [ringNext, ← Nat.mod_add_mod k]
  split_ifs with h
  · rw [h, Nat.mod_self]
  · exact (Nat.mod_eq_of_lt (by omega)).symm

/-- Going on from a position: at most one wrap. -/
theorem add_mod_of_lt {n : Nat} (k : Nat) (h : n < L) :
    (k + n) % L = if k % L + n < L then k % L + n else k % L + n - L := by
  have hlt : k % L < L := Nat.mod_lt k (by omega)
  rw [← Nat.mod_add_mod]
  split_ifs with hn
  · exact Nat.mod_eq_of_lt hn
  · rw [Nat.mod_eq_sub_mod (by omega), Nat.mod_eq_of_lt (by omega)]

theorem ringDist_mod {n : Nat} (k : Nat) (h : n < L) : ringDist L (k % L) ((k + n) % L) = n := by
  have hlt : k % L < L := Nat.mod_lt k (by omega)
  rw [add_mod_of_lt k h, ringDist]
  split_ifs <;> omega

/-- Different steps of one round are at different positions. -/
theorem add_mod_ne {i j : Nat} (k : Nat) (hi : i < L) (hj : j < L) (hij : i ≠ j) :
    (k + i) % L ≠ (k + j) % L := by
  have hlt : k % L < L := Nat.mod_lt k (by omega)
  rw [add_mod_of_lt k hi, add_mod_of_lt k hj]
  split_ifs <;> omega

/-! ## Contents -/

/-- The cells from step `k` on hold the list `q`. -/
def RingHolds (L : Nat) (cell : Nat → α) : Nat → List α → Prop
  | _, [] => True
  | k, x :: q => cell (k % L) = x ∧ RingHolds L cell (k + 1) q

variable {cell cell' : Nat → α} {p q : List α} {k : Nat}

@[simp] theorem ringHolds_nil : RingHolds L cell k [] := trivial

theorem ringHolds_append :
    RingHolds L cell k (p ++ q) ↔ RingHolds L cell k p ∧ RingHolds L cell (k + p.length) q := by
  induction p generalizing k with
  | nil => simp
  | cons x p ih =>
      have hk : k + 1 + p.length = k + (x :: p).length := by
        rw [List.length_cons]
        omega
      rw [List.cons_append, RingHolds, RingHolds, ih, hk, and_assoc]

/-- Only the cells that hold the list matter. -/
theorem RingHolds.congr (h : RingHolds L cell k q)
    (hcell : ∀ i, i < q.length → cell' ((k + i) % L) = cell ((k + i) % L)) :
    RingHolds L cell' k q := by
  induction q generalizing k with
  | nil => trivial
  | cons x q ih =>
      refine ⟨?_, ih h.2 ?_⟩
      · have h₀ := hcell 0 (by simp)
        rw [Nat.add_zero] at h₀
        rw [h₀, h.1]
      · intro i hi
        have h₁ := hcell (i + 1) (by simpa using hi)
        rw [← Nat.add_assoc, Nat.add_right_comm] at h₁
        exact h₁

/-- A cell behind the list is written. -/
theorem RingHolds.update {n : Nat} (h : RingHolds L cell k q) (hq : q.length ≤ n) (hn : n < L)
    (x : α) : RingHolds L (Function.update cell ((k + n) % L) x) k q := by
  refine h.congr fun i hi => ?_
  rw [Function.update_of_ne (add_mod_ne k (by omega) hn (by omega))]

/-- The cell right behind the list is written. -/
theorem RingHolds.push (h : RingHolds L cell k q) (hq : q.length < L) (x : α) :
    RingHolds L (Function.update cell ((k + q.length) % L) x) k (q ++ [x]) :=
  ringHolds_append.2 ⟨h.update (Nat.le_refl _) hq x, Function.update_self .., trivial⟩

end Base
end ToutOS
