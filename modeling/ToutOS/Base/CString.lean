import Mathlib.Data.List.Basic
import ToutOS.Base.ByteMem

/-!
# CString — NUL-terminated strings in byte-addressed memory

* `StringAt m p s` — the bytes of `s`, none of them NUL, stand at `p` and are followed by a NUL;
* `StringAt.head`, `StringAt.drop`, `StringAt.byte`, `StringAt.nul` — what is found at the places of
  the string;
* `StringAt.congr` — a string is a matter of its own bytes;
* `StringAt.unique` — a place holds one string;
* `stringAt_replicate` — strings of equal bytes;
* `place` — a memory with given bytes at a place, written one after the other (`place_concat`).
-/

namespace ToutOS
namespace Base

/-- The string `s` stands at `p`. -/
def StringAt (m : Mem) : Nat → List UInt8 → Prop
  | p, [] => m p = 0
  | p, c :: cs => m p = c ∧ c ≠ 0 ∧ StringAt m (p + 1) cs

variable {m m' : Mem} {p : Nat} {s t : List UInt8}

instance decidableStringAt (m : Mem) : ∀ (p : Nat) (s : List UInt8), Decidable (StringAt m p s)
  | p, [] => inferInstanceAs (Decidable (m p = 0))
  | p, c :: cs =>
      have := decidableStringAt m (p + 1) cs
      inferInstanceAs (Decidable (m p = c ∧ c ≠ 0 ∧ StringAt m (p + 1) cs))

/-- The first byte, which is the NUL of the empty string. -/
theorem StringAt.head (h : StringAt m p s) : m p = s.headD 0 := by
  cases s with
  | nil => exact h
  | cons c cs => exact h.1

theorem StringAt.head_eq_zero_iff (h : StringAt m p s) : m p = 0 ↔ s = [] := by
  cases s with
  | nil => exact iff_of_true h rfl
  | cons c cs => exact iff_of_false (fun hzero => h.2.1 (h.1.symm.trans hzero)) (List.cons_ne_nil c cs)

theorem StringAt.drop {xs ys : List UInt8} (h : StringAt m p (xs ++ ys)) :
    StringAt m (p + xs.length) ys := by
  induction xs generalizing p with
  | nil => exact h
  | cons c cs ih =>
      have hrest := ih h.2.2
      rwa [Nat.add_right_comm] at hrest

theorem StringAt.nul (h : StringAt m p s) : m (p + s.length) = 0 := by
  have hall : StringAt m p (s ++ []) := by rwa [List.append_nil]
  exact hall.drop

theorem StringAt.byte (h : StringAt m p s) {i : Nat} (hi : i < s.length) :
    m (p + i) = s[i] ∧ s[i] ≠ 0 := by
  have hsplit : s = s.take i ++ s[i] :: s.drop (i + 1) := by
    rw [List.getElem_cons_drop, List.take_append_drop]
  have hdrop : StringAt m (p + (s.take i).length) (s[i] :: s.drop (i + 1)) :=
    StringAt.drop (hsplit ▸ h)
  rw [List.length_take, Nat.min_eq_left (Nat.le_of_lt hi)] at hdrop
  exact ⟨hdrop.1, hdrop.2.1⟩

theorem StringAt.zero_notMem (h : StringAt m p s) : (0 : UInt8) ∉ s := by
  induction s generalizing p with
  | nil => exact List.not_mem_nil
  | cons c cs ih =>
      intro hmem
      rcases List.mem_cons.1 hmem with hc | hcs
      · exact h.2.1 hc.symm
      · exact ih h.2.2 hcs

theorem StringAt.congr (h : StringAt m p s) (hsame : ∀ i, i ≤ s.length → m' (p + i) = m (p + i)) :
    StringAt m' p s := by
  induction s generalizing p with
  | nil => exact (hsame 0 (Nat.le_refl 0)).trans h
  | cons c cs ih =>
      refine ⟨(hsame 0 (Nat.zero_le _)).trans h.1, h.2.1, ih h.2.2 fun i hi => ?_⟩
      rw [Nat.add_assoc, Nat.add_comm 1]
      exact hsame (i + 1) (Nat.succ_le_succ hi)

theorem StringAt.unique (hs : StringAt m p s) (ht : StringAt m p t) : s = t := by
  induction s generalizing p t with
  | nil =>
      cases t with
      | nil => rfl
      | cons c cs => exact absurd (ht.1.symm.trans hs) ht.2.1
  | cons c cs ih =>
      cases t with
      | nil => exact absurd (hs.1.symm.trans ht) hs.2.1
      | cons d ds => rw [hs.1.symm.trans ht.1, ih hs.2.2 ht.2.2]

/-- A string of `n` equal bytes. -/
theorem stringAt_replicate {c : UInt8} (hc : c ≠ 0) {n : Nat} (hbytes : ∀ i, i < n → m (p + i) = c)
    (hnul : m (p + n) = 0) : StringAt m p (List.replicate n c) := by
  induction n generalizing p with
  | zero => exact hnul
  | succ n ih =>
      refine ⟨hbytes 0 (Nat.succ_pos n), hc, ih ?_ ?_⟩
      · intro i hi
        rw [Nat.add_assoc, Nat.add_comm 1]
        exact hbytes (i + 1) (Nat.succ_lt_succ hi)
      · rw [Nat.add_assoc, Nat.add_comm 1]
        exact hnul

/-- The memory `m` with `bytes` at `a`. -/
def place (m : Mem) (a : Nat) (bytes : List UInt8) : Mem := fun x =>
  if a ≤ x ∧ x < a + bytes.length then bytes.getD (x - a) 0 else m x

@[simp] theorem place_nil (m : Mem) (a : Nat) : place m a [] = m := by
  funext x
  refine if_neg ?_
  simp only [List.length_nil]
  omega

theorem place_of_mem {a i : Nat} {bytes : List UInt8} (hi : i < bytes.length) :
    place m a bytes (a + i) = bytes[i] := by
  rw [place, if_pos ⟨by omega, by omega⟩, Nat.add_sub_cancel_left]
  simp [List.getD, hi]

theorem place_of_not_mem {a x : Nat} {bytes : List UInt8} (hx : x < a ∨ a + bytes.length ≤ x) :
    place m a bytes x = m x := if_neg (by omega)

/-- One more byte. -/
theorem place_concat (m : Mem) (a : Nat) (bytes : List UInt8) (c : UInt8) :
    place m a (bytes ++ [c]) = Function.update (place m a bytes) (a + bytes.length) c := by
  have hlen : (bytes ++ [c]).length = bytes.length + 1 := List.length_append
  funext x
  by_cases hx : x = a + bytes.length
  · subst hx
    rw [Function.update_self, place_of_mem (by omega), List.getElem_concat_length rfl]
  · rw [Function.update_of_ne hx]
    by_cases hin : a ≤ x ∧ x < a + bytes.length
    · obtain ⟨i, rfl⟩ := Nat.exists_eq_add_of_le hin.1
      have hi : i < bytes.length := by omega
      rw [place_of_mem (by omega), place_of_mem hi, List.getElem_append_left hi]
    · rw [place_of_not_mem (by omega), place_of_not_mem (by omega)]

/-- The bytes of an array behind those that are written stay. -/
theorem place_append_drop {a : Nat} {bytes old : List UInt8} (hold : place m a old = m)
    (hlen : bytes.length ≤ old.length) :
    place m a (bytes ++ old.drop bytes.length) = place m a bytes := by
  have hall : (bytes ++ old.drop bytes.length).length = old.length := by
    rw [List.length_append, List.length_drop]
    omega
  funext x
  by_cases hx : a ≤ x ∧ x < a + old.length
  · obtain ⟨i, rfl⟩ := Nat.exists_eq_add_of_le hx.1
    have hi : i < old.length := by omega
    have hi' : i < (bytes ++ old.drop bytes.length).length := by omega
    rw [place_of_mem hi']
    by_cases hin : i < bytes.length
    · rw [place_of_mem hin, List.getElem_append_left hin]
    · have hsame : m (a + i) = old[i] := by rw [← place_of_mem hi, hold]
      have hback : bytes.length + (i - bytes.length) = i := by omega
      rw [place_of_not_mem (by omega), hsame, List.getElem_append_right (by omega), List.getElem_drop]
      simp only [hback]
  · rw [place_of_not_mem (by omega), place_of_not_mem (by omega)]

end Base
end ToutOS
