import Mathlib.Data.List.Basic
import Mathlib.Data.BitVec
import ToutOS.Base.Numeral
import ToutOS.Lib.Print

/-!
# PrintDigits — the digit buffers of `include/print.h`

The functions of `Lib/Print.lean` take the digits of a number for granted.  Here they are the source's:
`quotient` and `rem` are variables of their own type, every access to `buf` and to `digits` is
checked, and `none` stands for one that is out of bounds and for a failed assertion.

* `fillDigits`, `backLoop`, `numberChecked` — the body that `print_unsigned_int` and
  `print_uint64_t` share;
* `printUnsignedIntChecked`, `printIntChecked`, `printPtrChecked` — the functions themselves;
* `fillDigits_spec` — the loop ends inside `buf` with the digits of a `Numeral`, in reverse;
* `printUnsignedIntChecked_eq` and so on — the functions of `Lib/Print.lean` are these;
* `printed_numbers_read_back` — what is printed reads back to the number.
-/

namespace ToutOS
namespace Lib

open Base

/-! ## The buffers -/

/-- `static char digits[]`, with its terminating NUL. -/
def digitTable : List UInt8 :=
  [0x30, 0x31, 0x32, 0x33, 0x34, 0x35, 0x36, 0x37, 0x38, 0x39,
    0x41, 0x42, 0x43, 0x44, 0x45, 0x46, 0]

/-- `digits[rem]`. -/
def digitAt (rem : Int) : Option UInt8 := if 0 ≤ rem then digitTable[rem.toNat]? else none

/-- An `int` passed as an `unsigned int`. -/
def asUnsigned (d : Int) : Nat := (d % 2 ^ 32).toNat

/-- The `do` loop, with as many cells of `buf` left; `keep` is what `quotient` and `rem` keep of a
value, `width` the width of `d`. -/
def fillDigits (keep : Nat → Int) (width base : Nat) : Nat → Nat → Option (List UInt8)
  | 0, _ => none
  | room + 1, d =>
      let quotient := keep (d / base)
      let rem := keep (d % base)
      let d' := (quotient % 2 ^ width).toNat
      (digitAt rem).bind fun c =>
        if d' ≠ 0 then (fillDigits keep width base room d').map (c :: ·) else some [c]

/-- The loop from `i = n - 1` down to 0 that prints `buf[i]`. -/
def backLoop (buf : List UInt8) : Nat → Option Printed
  | 0 => some printNothing
  | i + 1 => (buf[i]?).bind fun c => (backLoop buf i).map (printChar c ++ ·)

/-- The body of the two functions that follow; `size` is the size of `buf`. -/
def numberChecked (keep : Nat → Int) (bits size d base : Nat) (width : Int) (pad : UInt8) :
    Option Printed :=
  (fillDigits keep bits base size d).bind fun buf =>
    let numPad := Int.bmod (width - buf.length) (2 ^ 32)
    (backLoop buf buf.length).map (padLoop pad numPad.toNat ++ ·)

/-- `print_uint64_t`. -/
def printUint64Checked (d base : Nat) (width : Int) (pad : UInt8) : Option Printed :=
  numberChecked (fun v => (v % 2 ^ 64 : Nat)) 64 64 (d % 2 ^ 64) base width pad

/-- `print_unsigned_int`; `quotient` and `rem` are `int`s. -/
def printUnsignedIntChecked (d base : Nat) (width : Int) (pad : UInt8) : Option Printed :=
  if base ≤ 16 then numberChecked toInt 32 32 (d % 2 ^ 32) base width pad else none

/-- `print_ptr`. -/
def printPtrChecked (p : Nat) : Option Printed := printUint64Checked p 16 16 charZero

/-- `print_int`; `-d` is taken in 32 bits. -/
def printIntChecked (d : Int) (base : Nat) (width : Int) (pad : UInt8) : Option Printed :=
  if base ≤ 16 then
    if d < 0 then
      let d' := Int.bmod (-d) (2 ^ 32)
      (printUnsignedIntChecked (asUnsigned d') base width pad).map (printChar charMinus ++ ·)
    else printUnsignedIntChecked (asUnsigned d) base width pad
  else none

/-! ## Digits as letters -/

/-- What a character stands for as a digit. -/
def digitValue (c : UInt8) : Option Nat :=
  if 0x30 ≤ c ∧ c ≤ 0x39 then some (c.toNat - 0x30)
  else if 0x41 ≤ c ∧ c ≤ 0x46 then some (c.toNat - 0x41 + 10)
  else none

theorem digitValue_digitChar {v : Nat} (hv : v < 16) : digitValue (digitChar v) = some v := by
  have hall : ∀ v < 16, digitValue (digitChar v) = some v := by decide
  exact hall v hv

theorem digitAt_natCast {v : Nat} (hv : v < 16) : digitAt (v : Int) = some (digitChar v) := by
  have hall : ∀ v : Nat, v < 16 → digitAt (v : Int) = some (digitChar v) := by decide
  exact hall v hv

/-! ## The loop over the digits -/

/-- One iteration of the `do` loop: `quotient` and `rem` keep what they are given. -/
theorem fillDigits_succ {keep : Nat → Int} {width base : Nat} (hbase : 2 ≤ base) (hle : base ≤ 16)
    (hwidth : 5 ≤ width) (hkeep : ∀ v, v < 2 ^ (width - 1) → keep v = v) {d : Nat}
    (hd : d < 2 ^ width) (room : Nat) :
    fillDigits keep width base (room + 1) d =
      if d / base ≠ 0 then (fillDigits keep width base room (d / base)).map (digitChar (d % base) :: ·)
      else some [digitChar (d % base)] := by
  have hhalf : 2 ^ width = 2 * 2 ^ (width - 1) := by
    rw [← Nat.pow_succ', Nat.succ_eq_add_one]
    congr 1
    omega
  have hquot : d / base < 2 ^ (width - 1) := by
    have : d / base ≤ d / 2 := Nat.div_le_div_left hbase (by omega)
    omega
  have hrem : d % base < 16 := Nat.lt_of_lt_of_le (Nat.mod_lt _ (by omega)) hle
  have hsmall : 2 ^ 4 ≤ 2 ^ (width - 1) := Nat.pow_le_pow_right (by omega) (by omega)
  have hback : ((d / base : Nat) : Int) % 2 ^ width = ((d / base : Nat) : Int) := by
    refine Int.emod_eq_of_lt (Int.natCast_nonneg _) ?_
    have hlt : d / base < 2 ^ width := by omega
    exact_mod_cast hlt
  simp only [fillDigits, hkeep _ hquot, hkeep _ (Nat.lt_of_lt_of_le hrem hsmall), digitAt_natCast hrem,
    Option.bind_some, hback, Int.toNat_natCast]

/-- The loop ends inside `buf`, which then holds the digits of the number in reverse. -/
theorem fillDigits_spec {keep : Nat → Int} {width base : Nat} (hbase : 2 ≤ base) (hle : base ≤ 16)
    (hwidth : 5 ≤ width) (hkeep : ∀ v, v < 2 ^ (width - 1) → keep v = v) {room d : Nat}
    (hd : d < 2 ^ width) (hroom : d < base ^ (room + 1)) :
    fillDigits keep width base (room + 1) d = some (digitLoop base (room + 1) d) ∧
      Numeral digitValue base d (digitLoop base (room + 1) d).reverse := by
  have hrem : d % base < base := Nat.mod_lt _ (by omega)
  have hchar : digitValue (digitChar (d % base)) = some (d % base) :=
    digitValue_digitChar (Nat.lt_of_lt_of_le hrem hle)
  -- `room` digits of the buffer are left for what the division leaves
  induction room generalizing d with
  | zero =>
      have hsmall : d < base := by simpa using hroom
      have hquot : d / base = 0 := Nat.div_eq_of_lt hsmall
      rw [fillDigits_succ hbase hle hwidth hkeep hd, digitLoop, if_neg (by simp [hquot]), if_pos hquot,
        Nat.mod_eq_of_lt hsmall]
      rw [Nat.mod_eq_of_lt hsmall] at hchar
      exact ⟨rfl, Numeral.single hchar hsmall⟩
  | succ room ih =>
      rw [fillDigits_succ hbase hle hwidth hkeep hd, digitLoop]
      by_cases hquot : d / base = 0
      · have hsmall : d < base := by
          rcases (Nat.div_eq_zero_iff).1 hquot with h | h
          · omega
          · exact h
        rw [if_neg (by simp [hquot]), if_pos hquot, Nat.mod_eq_of_lt hsmall]
        rw [Nat.mod_eq_of_lt hsmall] at hchar
        exact ⟨rfl, Numeral.single hchar hsmall⟩
      · have hlt : d / base < base ^ (room + 1) := by
          rw [Nat.div_lt_iff_lt_mul (by omega)]
          exact Nat.pow_succ base (room + 1) ▸ hroom
        have hrem' : d / base % base < base := Nat.mod_lt _ (by omega)
        obtain ⟨hfill, hnum⟩ := ih (Nat.lt_of_le_of_lt (Nat.div_le_self d base) hd) hlt hrem'
          (digitValue_digitChar (Nat.lt_of_lt_of_le hrem' hle))
        rw [if_pos hquot, if_neg hquot, hfill, List.reverse_cons]
        refine ⟨rfl, ?_⟩
        have hsnoc := hnum.snoc hquot hchar hrem
        rwa [Nat.div_add_mod'] at hsnoc

theorem Printed.append_assoc (p q r : Printed) : p ++ q ++ r = p ++ (q ++ r) := by
  have hchars : (p ++ q ++ r).chars = (p ++ (q ++ r)).chars := List.append_assoc _ _ _
  have hcount : (p ++ q ++ r).count = (p ++ (q ++ r)).count := Nat.add_assoc _ _ _
  exact congrArg₂ Printed.mk hchars hcount

theorem digitsBack_chars (buf : List UInt8) : (digitsBack buf).chars = buf.reverse := by
  induction buf with
  | nil => rfl
  | cons c buf ih =>
      rw [List.reverse_cons, ← ih]
      rfl

theorem digitsBack_concat (buf : List UInt8) (c : UInt8) :
    digitsBack (buf ++ [c]) = printChar c ++ digitsBack buf := by
  induction buf with
  | nil => rfl
  | cons b buf ih =>
      have hcons : digitsBack (b :: buf ++ [c]) = digitsBack (buf ++ [c]) ++ printChar b := rfl
      rw [hcons, ih]
      exact Printed.append_assoc _ _ _

theorem padLoop_chars (pad : UInt8) (n : Nat) : (padLoop pad n).chars = List.replicate n pad := by
  induction n with
  | zero => rfl
  | succ n ih =>
      rw [List.replicate_succ, ← ih]
      rfl

/-- The loop from the end of `buf` stays inside it and reads it in reverse. -/
theorem backLoop_eq (buf : List UInt8) : backLoop buf buf.length = some (digitsBack buf) := by
  have hback : ∀ n, n ≤ buf.length → backLoop buf n = some (digitsBack (buf.take n)) := by
    intro n hn
    induction n with
    | zero => rfl
    | succ i ih =>
        have hget : buf[i]? = some buf[i] := List.getElem?_eq_getElem (by omega)
        have htake : digitsBack (buf.take (i + 1)) = printChar buf[i] ++ digitsBack (buf.take i) := by
          rw [← List.take_concat_get' buf i (by omega)]
          exact digitsBack_concat _ _
        rw [backLoop, hget, Option.bind_some, ih (by omega), Option.map_some, htake]
  rw [hback _ (Nat.le_refl _), List.take_length]

/-! ## The functions -/

/-- The common body: it stays inside `buf`, and prints padding and a numeral. -/
theorem numberChecked_spec {keep : Nat → Int} {bits base : Nat} (hbase : 2 ≤ base) (hle : base ≤ 16)
    (hbits : 5 ≤ bits) (hkeep : ∀ v, v < 2 ^ (bits - 1) → keep v = v) {room d : Nat}
    (hd : d < 2 ^ bits) (hroom : d < base ^ (room + 1)) (hsize : room < 64) {width : Int}
    (hlow : -1 ≤ width) (hhigh : width ≤ 16) (pad : UInt8) :
    numberChecked keep bits (room + 1) d base width pad =
        some (printNumber (room + 1) base d width pad) ∧
      ∃ digits, Numeral digitValue base d digits ∧
        (printNumber (room + 1) base d width pad).chars =
          List.replicate (width - digits.length).toNat pad ++ digits := by
  obtain ⟨hfill, hnum⟩ := fillDigits_spec hbase hle hbits hkeep hd hroom
  have hlen := hnum.length_le hroom (Nat.succ_pos room)
  rw [List.length_reverse] at hlen
  have hpads : Int.bmod (width - (digitLoop base (room + 1) d).length) (2 ^ 32) =
      width - (digitLoop base (room + 1) d).length := by
    refine Int.bmod_eq_of_le ?_ ?_ <;> omega
  constructor
  · rw [numberChecked, hfill, Option.bind_some, backLoop_eq, hpads]
    rfl
  · refine ⟨_, hnum, ?_⟩
    have hchars : (printNumber (room + 1) base d width pad).chars =
        (padLoop pad (width - (digitLoop base (room + 1) d).length).toNat).chars ++
          (digitsBack (digitLoop base (room + 1) d)).chars := rfl
    rw [hchars, padLoop_chars, digitsBack_chars, List.length_reverse]

/-- A number fits in a `buf` that has a cell for each of its bits. -/
theorem lt_pow_bits {base bits d : Nat} (hbase : 2 ≤ base) (hd : d < 2 ^ bits) : d < base ^ bits :=
  Nat.lt_of_lt_of_le hd (Nat.pow_le_pow_left hbase bits)

theorem printUnsignedIntChecked_spec {base : Nat} (hbase : 2 ≤ base) (hle : base ≤ 16) (d : Nat)
    {width : Int} (hlow : -1 ≤ width) (hhigh : width ≤ 9) (pad : UInt8) :
    printUnsignedIntChecked d base width pad = some (printUnsignedInt d base width pad) ∧
      ∃ digits, Numeral digitValue base (d % 2 ^ 32) digits ∧
        (printUnsignedInt d base width pad).chars =
          List.replicate (width - digits.length).toNat pad ++ digits := by
  have hd : d % 2 ^ 32 < 2 ^ 32 := Nat.mod_lt _ (by decide)
  rw [printUnsignedIntChecked, if_pos hle]
  exact numberChecked_spec hbase hle (by decide) (fun v hv => toInt_of_lt hv) hd
    (lt_pow_bits hbase hd) (by decide) hlow (by omega) pad

theorem printPtrChecked_spec (p : Nat) :
    printPtrChecked p = some (printPtr p) ∧
      ∃ digits, Numeral digitValue 16 (p % 2 ^ 64) digits ∧
        (printPtr p).chars = List.replicate (16 - (digits.length : Int)).toNat charZero ++ digits := by
  have hp : p % 2 ^ 64 < 2 ^ 64 := Nat.mod_lt _ (by decide)
  have hkeep : ∀ v : Nat, v < 2 ^ (64 - 1) → ((v % 2 ^ 64 : Nat) : Int) = v := by
    intro v hv
    rw [Nat.mod_eq_of_lt (by omega)]
  exact numberChecked_spec (by decide) (by decide) (by decide) hkeep hp (lt_pow_bits (by decide) hp)
    (by decide) (by decide) (by decide) charZero

/-- `-d`, passed on as an `unsigned int`, is `|d|` for the most negative number, too. -/
theorem asUnsigned_neg {d : Int} (hlow : -2 ^ 31 ≤ d) (hneg : d < 0) :
    asUnsigned (Int.bmod (-d) (2 ^ 32)) = d.natAbs := by
  have hmod := Int.bmod_emod (x := -d) (m := 2 ^ 32)
  rw [asUnsigned]
  omega

theorem printIntChecked_eq {d : Int} {base : Nat} (hbase : 2 ≤ base) (hle : base ≤ 16)
    (hd : -2 ^ 31 ≤ d) (hd' : d < 2 ^ 31) {width : Int} (hlow : -1 ≤ width) (hhigh : width ≤ 9)
    (pad : UInt8) : printIntChecked d base width pad = some (printInt d base width pad) := by
  rw [printIntChecked, printInt, if_pos hle]
  by_cases hneg : d < 0
  · have habs : (-d).toNat = d.natAbs := by omega
    rw [if_pos hneg, if_pos hneg]
    simp only [asUnsigned_neg hd hneg]
    rw [(printUnsignedIntChecked_spec hbase hle _ hlow hhigh pad).1, habs]
    rfl
  · have hsame : asUnsigned d = d.toNat := by
      rw [asUnsigned]
      omega
    rw [if_neg hneg, if_neg hneg, hsame, (printUnsignedIntChecked_spec hbase hle _ hlow hhigh pad).1]

/-! ## What is printed reads back -/

/-- Padding up to `width` characters, and a numeral of `n`. -/
def PaddedNumeral (base n : Nat) (width : Int) (pad : UInt8) (chars : List UInt8) : Prop :=
  ∃ digits, Numeral digitValue base n digits ∧
    chars = List.replicate (width - digits.length).toNat pad ++ digits ∧
    (chars.length : Int) = max width digits.length

theorem PaddedNumeral.of_chars {base n : Nat} {width : Int} {pad : UInt8} {chars : List UInt8}
    (h : ∃ digits, Numeral digitValue base n digits ∧
      chars = List.replicate (width - digits.length).toNat pad ++ digits) :
    PaddedNumeral base n width pad chars := by
  obtain ⟨digits, hnum, rfl⟩ := h
  refine ⟨digits, hnum, rfl, ?_⟩
  rw [List.length_append, List.length_replicate]
  omega

/-- A minus sign is not a digit. -/
theorem PaddedNumeral.no_minus {base n : Nat} {width : Int} {pad : UInt8} {chars : List UInt8}
    (h : PaddedNumeral base n width pad chars) (hpad : pad = charSpace ∨ pad = charZero) :
    charMinus ∉ chars := by
  obtain ⟨digits, hnum, rfl, -⟩ := h
  intro hmem
  rcases List.mem_append.1 hmem with hpads | hdigits
  · have hminus := List.eq_of_mem_replicate hpads
    rcases hpad with rfl | rfl <;> exact absurd hminus (by decide)
  · obtain ⟨v, hv⟩ := readDigits_mem hnum.reads charMinus hdigits
    exact absurd hv (by simp [show digitValue charMinus = none by decide])

theorem printPtr_reads_back (p : Nat) :
    (printPtr p).chars.length = 16 ∧
      readDigits digitValue 16 0 (printPtr p).chars = some (p % 2 ^ 64) := by
  obtain ⟨-, digits, hnum, hchars⟩ := printPtrChecked_spec p
  have hlen : digits.length ≤ 16 :=
    hnum.length_le (Nat.lt_of_lt_of_eq (Nat.mod_lt p (by decide)) (by decide)) (by decide)
  constructor
  · rw [hchars, List.length_append, List.length_replicate]
    omega
  · rw [hchars, readDigits_zeros (by decide) (by decide), hnum.reads]

/-- No access to `buf` or `digits` is out of bounds, and what is printed reads back: padding and the
digits of an `unsigned int` in each of the three bases, a minus sign for a negative `int` and the
digits of its absolute value, and the 16 digits of a pointer.  The number returned is the number of
characters. -/
theorem printed_numbers_read_back {d : BitVec 32} {q : BitVec 64} {base : Nat} {width : Int}
    {pad : UInt8} (hbase : base = 8 ∨ base = 10 ∨ base = 16) (hlow : -1 ≤ width) (hhigh : width ≤ 9)
    (hpad : pad = charSpace ∨ pad = charZero) :
    (∃ p, printUnsignedIntChecked d.toNat base width pad = some p ∧ p.Counted ∧
      PaddedNumeral base d.toNat width pad p.chars) ∧
    (∃ p chars, printIntChecked d.toInt 10 width pad = some p ∧ p.Counted ∧
      p.chars = (if d.toInt < 0 then [charMinus] else []) ++ chars ∧ charMinus ∉ chars ∧
      PaddedNumeral 10 d.toInt.natAbs width pad chars) ∧
    ∃ p, printPtrChecked q.toNat = some p ∧ p.Counted ∧ p.chars.length = 16 ∧
      readDigits digitValue 16 0 p.chars = some q.toNat := by
  have hunsigned : ∀ n base : Nat, n < 2 ^ 32 → 2 ≤ base → base ≤ 16 →
      PaddedNumeral base n width pad (printUnsignedInt n base width pad).chars := by
    intro n base hn hbase hle
    have h := (printUnsignedIntChecked_spec hbase hle n hlow hhigh pad).2
    rw [Nat.mod_eq_of_lt hn] at h
    exact PaddedNumeral.of_chars h
  refine ⟨?_, ?_, ?_⟩
  · have hbounds : 2 ≤ base ∧ base ≤ 16 := by omega
    exact ⟨_, (printUnsignedIntChecked_spec hbounds.1 hbounds.2 d.toNat hlow hhigh pad).1,
      counted_unsignedInt _ _ _ _, hunsigned d.toNat base d.isLt hbounds.1 hbounds.2⟩
  · have hd : -2 ^ 31 ≤ d.toInt ∧ d.toInt < 2 ^ 31 :=
      ⟨BitVec.le_toInt d, BitVec.toInt_lt⟩
    -- the absolute value of the least `int` is an `unsigned int`, too
    have habs : PaddedNumeral 10 d.toInt.natAbs width pad
        (printUnsignedInt d.toInt.natAbs 10 width pad).chars :=
      hunsigned d.toInt.natAbs 10 (by omega) (by decide) (by decide)
    refine ⟨_, _, printIntChecked_eq (by decide) (by decide) hd.1 hd.2 hlow hhigh pad,
      counted_int _ _ _ _, ?_, habs.no_minus hpad, habs⟩
    rw [printInt]
    by_cases hneg : d.toInt < 0
    · have hsame : (-d.toInt).toNat = d.toInt.natAbs := by omega
      rw [if_pos hneg, if_pos hneg, hsame]
      rfl
    · have hsame : d.toInt.toNat = d.toInt.natAbs := by omega
      rw [if_neg hneg, if_neg hneg, hsame]
      rfl
  · obtain ⟨hlen, hread⟩ := printPtr_reads_back q.toNat
    rw [Nat.mod_eq_of_lt q.isLt] at hread
    exact ⟨_, (printPtrChecked_spec q.toNat).1, counted_uint64 _ _ _ _, hlen, hread⟩

/-- The most negative `int`, in nine places, and the highest pointer. -/
theorem printed_numbers_read_back_top :
    (∃ p, printUnsignedIntChecked (BitVec.ofNat 32 (2 ^ 31)).toNat 8 9 charZero = some p ∧ p.Counted ∧
      PaddedNumeral 8 (BitVec.ofNat 32 (2 ^ 31)).toNat 9 charZero p.chars) ∧
    (∃ p chars, printIntChecked (BitVec.ofNat 32 (2 ^ 31)).toInt 10 9 charZero = some p ∧ p.Counted ∧
      p.chars = (if (BitVec.ofNat 32 (2 ^ 31)).toInt < 0 then [charMinus] else []) ++ chars ∧
      charMinus ∉ chars ∧
      PaddedNumeral 10 (BitVec.ofNat 32 (2 ^ 31)).toInt.natAbs 9 charZero chars) ∧
    ∃ p, printPtrChecked (BitVec.ofNat 64 (2 ^ 64 - 1)).toNat = some p ∧ p.Counted ∧
      p.chars.length = 16 ∧
      readDigits digitValue 16 0 p.chars = some (BitVec.ofNat 64 (2 ^ 64 - 1)).toNat :=
  printed_numbers_read_back (Or.inl rfl) (by decide) (by decide) (Or.inr rfl)

/-- `print_int(-2147483648, 10, -1, ' ')`. -/
example : (printIntChecked (-2 ^ 31) 10 (-1) charSpace).map Printed.chars =
    some [0x2D, 0x32, 0x31, 0x34, 0x37, 0x34, 0x38, 0x33, 0x36, 0x34, 0x38] := by decide +kernel

end Lib
end ToutOS
