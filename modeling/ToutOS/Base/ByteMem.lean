import Mathlib.Data.Nat.Basic
import Mathlib.Tactic.Ring

/-!
# ByteMem — byte-addressed memory with little-endian words

A memory is a map from addresses to bytes.  This file provides:

* `load`, `store` — little-endian words of `n` bytes;
* `fill`, `copy` — the effect of `memset` and of `memcpy` on disjoint ranges;
* `add64`, `sub64` — unsigned 64-bit arithmetic;
* the rules by which a load is followed through an update: `load_congr` (the bytes read are the
  same), `load_store_same` and `load_store_ne` (the word just written, or a disjoint one).
-/

namespace ToutOS
namespace Base

/-- One byte per address. -/
abbrev Mem := Nat → UInt8

/-- The little-endian word of `n` bytes at `a`. -/
def load (m : Mem) : Nat → Nat → Nat
  | _, 0 => 0
  | a, n + 1 => (m a).toNat + 256 * load m (a + 1) n

/-- Write the low `n` bytes of `v` at `a`, least significant byte first. -/
def store (m : Mem) (a n v : Nat) : Mem := fun x =>
  if a ≤ x ∧ x < a + n then UInt8.ofNat (v / 256 ^ (x - a)) else m x

/-- Set `n` bytes from `a` on to `c`. -/
def fill (m : Mem) (a n : Nat) (c : UInt8) : Mem := fun x =>
  if a ≤ x ∧ x < a + n then c else m x

/-- Copy `n` bytes from `src` to `dst`; the two ranges do not overlap. -/
def copy (m : Mem) (dst src n : Nat) : Mem := fun x =>
  if dst ≤ x ∧ x < dst + n then m (src + (x - dst)) else m x

/-- Unsigned 64-bit addition. -/
def add64 (a b : Nat) : Nat := (a + b) % 2 ^ 64

/-- Unsigned 64-bit subtraction. -/
def sub64 (a b : Nat) : Nat := (a + (2 ^ 64 - b % 2 ^ 64)) % 2 ^ 64

theorem add64_of_lt {a b : Nat} (h : a + b < 2 ^ 64) : add64 a b = a + b := Nat.mod_eq_of_lt h

theorem sub64_of_le {a b : Nat} (hb : b ≤ a) (ha : a < 2 ^ 64) : sub64 a b = a - b := by
  simp only [sub64]
  omega

/-! ## Bytes outside an update -/

theorem store_apply_of_lt {m : Mem} {a n v x : Nat} (h : x < a) : store m a n v x = m x := by
  simp only [store, ite_eq_right_iff]
  omega

theorem store_apply_of_ge {m : Mem} {a n v x : Nat} (h : a + n ≤ x) : store m a n v x = m x := by
  simp only [store, ite_eq_right_iff]
  omega

theorem fill_apply_of_mem {m : Mem} {a n x : Nat} {c : UInt8} (h₁ : a ≤ x) (h₂ : x < a + n) :
    fill m a n c x = c := by
  simp [fill, h₁, h₂]

theorem fill_apply_of_lt {m : Mem} {a n x : Nat} {c : UInt8} (h : x < a) :
    fill m a n c x = m x := by
  simp only [fill, ite_eq_right_iff]
  omega

theorem fill_apply_of_ge {m : Mem} {a n x : Nat} {c : UInt8} (h : a + n ≤ x) :
    fill m a n c x = m x := by
  simp only [fill, ite_eq_right_iff]
  omega

/-! ## Words -/

/-- A load depends only on the bytes it reads. -/
theorem load_congr {m m' : Mem} {a n : Nat} (h : ∀ x, a ≤ x → x < a + n → m' x = m x) :
    load m' a n = load m a n := by
  induction n generalizing a with
  | zero => rfl
  | succ n ih =>
      have hfirst : m' a = m a := h a (Nat.le_refl a) (by omega)
      have hrest : load m' (a + 1) n = load m (a + 1) n :=
        ih fun x h₁ h₂ => h x (by omega) (by omega)
      simp only [load, hfirst, hrest]

theorem load_lt (m : Mem) (a n : Nat) : load m a n < 256 ^ n := by
  induction n generalizing a with
  | zero => simp [load]
  | succ n ih =>
      have hbyte := (m a).toNat_lt
      have hrest := ih (a + 1)
      simp only [load, pow_succ]
      omega

theorem load_zero {m : Mem} {a n : Nat} (h : ∀ x, a ≤ x → x < a + n → m x = 0) :
    load m a n = 0 := by
  induction n generalizing a with
  | zero => rfl
  | succ n ih =>
      have hfirst : m a = 0 := h a (Nat.le_refl a) (by omega)
      have hrest : load m (a + 1) n = 0 := ih fun x h₁ h₂ => h x (by omega) (by omega)
      simp [load, hfirst, hrest]

/-- A word is made of a low and a high part. -/
theorem load_add (m : Mem) (a k n : Nat) :
    load m a (k + n) = load m a k + 256 ^ k * load m (a + k) n := by
  induction k generalizing a with
  | zero => simp [load]
  | succ k ih =>
      have haddr : a + (k + 1) = a + 1 + k := by omega
      rw [Nat.add_right_comm, load, ih, load, pow_succ, haddr]
      ring

/-- A word is zero exactly when its bytes are. -/
theorem load_eq_zero_iff {m : Mem} {a n : Nat} :
    load m a n = 0 ↔ ∀ x, a ≤ x → x < a + n → m x = 0 := by
  refine ⟨?_, load_zero⟩
  induction n generalizing a with
  | zero =>
      intro _ x h₁ h₂
      omega
  | succ n ih =>
      intro h x h₁ h₂
      simp only [load, Nat.add_eq_zero_iff, Nat.mul_eq_zero] at h
      obtain ⟨hbyte, hrest⟩ := h
      have hrest : load m (a + 1) n = 0 := by omega
      rcases Nat.eq_or_lt_of_le h₁ with rfl | hlt
      · exact UInt8.toNat_inj.1 (by simpa using hbyte)
      · exact ih hrest x hlt (by omega)

/-- Writing zero over zero. -/
theorem store_zero_of_load {m : Mem} {a n : Nat} (h : load m a n = 0) : store m a n 0 = m := by
  funext x
  simp only [store]
  split_ifs with hx
  · rw [load_eq_zero_iff.1 h x hx.1 hx.2, Nat.zero_div]
    rfl
  · rfl

/-- Reading bytes that hold the digits of `v`. -/
theorem load_digits {m : Mem} {a n v : Nat}
    (h : ∀ x, a ≤ x → x < a + n → m x = UInt8.ofNat (v / 256 ^ (x - a))) :
    load m a n = v % 256 ^ n := by
  induction n generalizing a v with
  | zero => simp [load, Nat.mod_one]
  | succ n ih =>
      have hfirst : (m a).toNat = v % 256 := by
        rw [h a (Nat.le_refl a) (by omega)]
        simp
      have hrest : load m (a + 1) n = v / 256 % 256 ^ n := by
        refine ih fun x h₁ h₂ => ?_
        have hsub : x - a = x - (a + 1) + 1 := by omega
        rw [h x (by omega) (by omega), hsub, pow_succ', Nat.div_div_eq_div_mul]
      calc load m a (n + 1)
          = v % 256 + 256 * (v / 256 % 256 ^ n) := by simp only [load, hfirst, hrest]
        _ = v % (256 * 256 ^ n) := by rw [Nat.mod_mul]
        _ = v % 256 ^ (n + 1) := by rw [pow_succ']

theorem load_store_mod {m : Mem} {a n v : Nat} : load (store m a n v) a n = v % 256 ^ n := by
  refine load_digits fun x h₁ h₂ => ?_
  simp [store, h₁, h₂]

theorem load_store_same {m : Mem} {a n v : Nat} (h : v < 256 ^ n) :
    load (store m a n v) a n = v := by
  rw [load_store_mod, Nat.mod_eq_of_lt h]

theorem load_store_ne {m : Mem} {a n v b k : Nat} (h : b + k ≤ a ∨ a + n ≤ b) :
    load (store m a n v) b k = load m b k := by
  refine load_congr fun x h₁ h₂ => ?_
  rcases h with h | h
  · exact store_apply_of_lt (by omega)
  · exact store_apply_of_ge (by omega)

end Base
end ToutOS
