import Mathlib.Algebra.Order.Group.Nat
import Mathlib.Tactic.Ring

/-!
# Numeral — positional numerals over any alphabet

A partial map gives some letters of an alphabet a value; a numeral is read from its first letter on.

* `readDigits` — the number that a list of letters stands for, behind what has been read already;
* `Numeral` — a numeral of a number: it is not empty, it reads back to the number, and its first
  letter is a zero only when it is its only one;
* `Numeral.single`, `Numeral.snoc` — how the numeral of a number is built from its last digit and
  the numeral of the quotient;
* `Numeral.length_le` — a number below `base ^ k` has at most `k` digits;
* `readDigits_zeros` — zeros in front change nothing.
-/

namespace ToutOS
namespace Base

universe u

variable {α : Type u} (value : α → Option Nat) (base : Nat)

/-- Read the letters behind a number that has been read already. -/
def readDigits : Nat → List α → Option Nat
  | acc, [] => some acc
  | acc, c :: cs =>
      (value c).bind fun v => if v < base then readDigits (acc * base + v) cs else none

/-- A numeral of `n` without superfluous zeros. -/
structure Numeral (n : Nat) (digits : List α) : Prop where
  ne_nil : digits ≠ []
  reads : readDigits value base 0 digits = some n
  canonical : ∀ c cs, digits = c :: cs → value c = some 0 → cs = []

variable {value base}

theorem readDigits_cons {acc v : Nat} {c : α} (hc : value c = some v) (hv : v < base)
    (cs : List α) :
    readDigits value base acc (c :: cs) = readDigits value base (acc * base + v) cs := by
  simp only [readDigits, hc, Option.bind_some, if_pos hv]

/-- What is known of the first letter of a list that can be read. -/
theorem readDigits_cons_some {acc n : Nat} {c : α} {cs : List α}
    (h : readDigits value base acc (c :: cs) = some n) :
    ∃ v, value c = some v ∧ v < base ∧ readDigits value base (acc * base + v) cs = some n := by
  obtain ⟨v, hc, h⟩ := Option.bind_eq_some_iff.1 h
  by_cases hv : v < base
  · rw [if_pos hv] at h
    exact ⟨v, hc, hv, h⟩
  · rw [if_neg hv] at h
    cases h

theorem readDigits_append (acc : Nat) (xs ys : List α) :
    readDigits value base acc (xs ++ ys) =
      (readDigits value base acc xs).bind fun n => readDigits value base n ys := by
  induction xs generalizing acc with
  | nil => rfl
  | cons c cs ih =>
      simp only [List.cons_append, readDigits, Option.bind_assoc]
      congr 1
      funext v
      by_cases hv : v < base
      · simp only [if_pos hv, ih]
      · simp only [if_neg hv, Option.bind_none]

theorem readDigits_zeros {zero : α} (hzero : value zero = some 0) (hbase : 0 < base) (k : Nat)
    (digits : List α) :
    readDigits value base 0 (List.replicate k zero ++ digits) = readDigits value base 0 digits := by
  induction k with
  | zero => rfl
  | succ k ih =>
      rw [List.replicate_succ, List.cons_append, readDigits_cons hzero hbase, Nat.zero_mul, ih]

/-- Every letter of a list that can be read has a value. -/
theorem readDigits_mem {acc n : Nat} {digits : List α}
    (h : readDigits value base acc digits = some n) : ∀ c ∈ digits, ∃ v, value c = some v := by
  induction digits generalizing acc with
  | nil => simp
  | cons c cs ih =>
      obtain ⟨v, hc, -, hcs⟩ := readDigits_cons_some h
      intro c' hc'
      rcases List.mem_cons.1 hc' with rfl | hmem
      · exact ⟨v, hc⟩
      · exact ih hcs c' hmem

/-- What has been read is followed by as many places as there are letters. -/
theorem readDigits_ge {acc n : Nat} {digits : List α}
    (h : readDigits value base acc digits = some n) : acc * base ^ digits.length ≤ n := by
  induction digits generalizing acc with
  | nil =>
      cases h
      simp
  | cons c cs ih =>
      obtain ⟨v, -, -, hcs⟩ := readDigits_cons_some h
      calc acc * base ^ (c :: cs).length
          = acc * base * base ^ cs.length := by rw [List.length_cons]; ring
        _ ≤ (acc * base + v) * base ^ cs.length := Nat.mul_le_mul_right _ (Nat.le_add_right _ _)
        _ ≤ n := ih hcs

/-! ## Numerals -/

theorem Numeral.single {c : α} {v : Nat} (hc : value c = some v) (hv : v < base) :
    Numeral value base v [c] := by
  refine ⟨List.cons_ne_nil c [], ?_, ?_⟩
  · rw [readDigits_cons hc hv, Nat.zero_mul, Nat.zero_add]
    rfl
  · intro c' cs h _
    exact (List.cons.inj h).2.symm

/-- One more digit behind the numeral of a positive number. -/
theorem Numeral.snoc {n v : Nat} {digits : List α} {c : α} (h : Numeral value base n digits)
    (hn : n ≠ 0) (hc : value c = some v) (hv : v < base) :
    Numeral value base (n * base + v) (digits ++ [c]) := by
  refine ⟨List.append_ne_nil_of_left_ne_nil h.ne_nil _, ?_, ?_⟩
  · rw [readDigits_append, h.reads, Option.bind_some, readDigits_cons hc hv]
    rfl
  · intro c' cs hcons hzero
    cases digits with
    | nil => exact absurd rfl h.ne_nil
    | cons d ds =>
        obtain ⟨rfl, -⟩ := List.cons.inj hcons
        -- a zero in front would be the whole numeral, but the number is not zero
        obtain rfl := h.canonical d ds rfl hzero
        obtain ⟨w, hw, -, hread⟩ := readDigits_cons_some h.reads
        rw [hzero] at hw
        cases hw
        exact absurd (Option.some.inj hread).symm (by simpa using hn)

theorem Numeral.length_le {n k : Nat} {digits : List α} (h : Numeral value base n digits)
    (hn : n < base ^ k) (hk : 0 < k) : digits.length ≤ k := by
  cases digits with
  | nil => exact absurd rfl h.ne_nil
  | cons c cs =>
      cases cs with
      | nil => exact hk
      | cons d ds =>
          obtain ⟨v, hc, hv, hread⟩ := readDigits_cons_some h.reads
          have hpos : 0 < v := by
            rcases Nat.eq_zero_or_pos v with rfl | hpos
            · cases h.canonical c (d :: ds) rfl hc
            · exact hpos
          have hge : 1 * base ^ (d :: ds).length ≤ n := by
            calc 1 * base ^ (d :: ds).length
                ≤ (0 * base + v) * base ^ (d :: ds).length := Nat.mul_le_mul_right _ (by omega)
              _ ≤ n := readDigits_ge hread
          have hlt : base ^ (d :: ds).length < base ^ k := by omega
          by_contra hle
          have hmono : base ^ k ≤ base ^ (d :: ds).length :=
            Nat.pow_le_pow_right (by omega) (by simp only [List.length_cons] at hle ⊢; omega)
          omega

end Base
end ToutOS
