import Mathlib.Data.Nat.Notation
import ToutOS.Lib.CircularBuffer

/-!
# Print — the formatting functions of `include/print.h`

Every function of `print.h` hands its characters to `print_char`, one at a time, and returns how many
it has handed over.  `Printed` has both, and the functions below follow the source.

* `printNumber` — the digit loop, the padding and the digits in reverse; `print_uint64_t` and
  `print_unsigned_int` are this function with their own sizes.
* `printFormat` — the loop of the `PRINT` macro over the format; `FmtMode` says how far it has got in
  a conversion.  `none` stands for the `assert(0)` of an unsupported conversion and for arguments
  that do not fit the format.
* `printFormat_count` — the number returned is the number of characters.
-/

namespace ToutOS
namespace Lib

/-- The characters handed to `print_char`, and the number returned. -/
structure Printed where
  chars : List UInt8
  count : Nat
  deriving DecidableEq, Repr

instance : Append Printed := ⟨fun a b => ⟨a.chars ++ b.chars, a.count + b.count⟩⟩

/-- The number returned is the number of characters. -/
def Printed.Counted (p : Printed) : Prop := p.count = p.chars.length

theorem Printed.Counted.append {p q : Printed} (hp : p.Counted) (hq : q.Counted) :
    (p ++ q).Counted := by
  have hcount : (p ++ q).count = p.count + q.count := rfl
  have hchars : (p ++ q).chars = p.chars ++ q.chars := rfl
  rw [Printed.Counted, hcount, hchars, List.length_append, hp, hq]

/-! ## Numbers and strings -/

/-- Nothing printed. -/
def printNothing : Printed := ⟨[], 0⟩

/-- `print_char`. -/
def printChar (c : UInt8) : Printed := ⟨[c], 1⟩

/-- `print_string`; `none` is `NULL`. -/
def printString : Option (List UInt8) → Printed
  | none => printNothing
  | some s => ⟨s, s.length⟩

/-- `digits[rem]`. -/
def digitChar (rem : Nat) : UInt8 :=
  [0x30, 0x31, 0x32, 0x33, 0x34, 0x35, 0x36, 0x37, 0x38, 0x39,
    0x41, 0x42, 0x43, 0x44, 0x45, 0x46].getD rem 0

/-- The loop that fills `buf`, the last digit first; `size` is the size of `buf`. -/
def digitLoop (base : Nat) : Nat → Nat → List UInt8
  | 0, _ => []
  | size + 1, d =>
      digitChar (d % base) :: if d / base = 0 then [] else digitLoop base size (d / base)

/-- The loop over the padding. -/
def padLoop (pad : UInt8) : Nat → Printed
  | 0 => printNothing
  | n + 1 => printChar pad ++ padLoop pad n

/-- The loop from the end of `buf` to its start. -/
def digitsBack : List UInt8 → Printed
  | [] => printNothing
  | c :: buf => digitsBack buf ++ printChar c

/-- The common body of the two functions that follow. -/
def printNumber (size base d : Nat) (width : Int) (pad : UInt8) : Printed :=
  let buf := digitLoop base size d
  padLoop pad (width - buf.length).toNat ++ digitsBack buf

/-- `print_uint64_t`. -/
def printUint64 (d base : Nat) (width : Int) (pad : UInt8) : Printed :=
  printNumber 64 base (d % 2 ^ 64) width pad

/-- `print_unsigned_int`. -/
def printUnsignedInt (d base : Nat) (width : Int) (pad : UInt8) : Printed :=
  printNumber 32 base (d % 2 ^ 32) width pad

/-- `'-'`, `'0'` and `' '`. -/
def charMinus : UInt8 := 0x2D
def charZero : UInt8 := 0x30
def charSpace : UInt8 := 0x20

/-- `print_ptr`. -/
def printPtr (p : Nat) : Printed := printUint64 p 16 16 charZero

/-- The `int32_t` with the lowest 32 bits of `d`. -/
def toInt32 (d : Int) : Int := d.bmod (2 ^ 32)

/-- `print_int32_t`; the smallest `int32_t` has no negative, and `print_uint64_t` gets it as it is. -/
def printInt32 (d : Int) : Printed :=
  if d < 0 then printChar charMinus ++ printUint64 (toInt32 (-d) % 2 ^ 64).toNat 10 (-1) 0xFF
  else printUint64 d.toNat 10 (-1) 0xFF

example : (printInt32 (-2 ^ 31)).count = 21 := by decide

/-- `print_int`. -/
def printInt (d : Int) (base : Nat) (width : Int) (pad : UInt8) : Printed :=
  if d < 0 then printChar charMinus ++ printUnsignedInt (-d).toNat base width pad
  else printUnsignedInt d.toNat base width pad

/-- The digit loop ends by itself: `buf` is large enough. -/
theorem digitLoop_fits {base : Nat} (hbase : 2 ≤ base) {n d : Nat} (hd : d < 2 ^ (n + 1)) (k : Nat) :
    digitLoop base (n + 1 + k) d = digitLoop base (n + 1) d := by
  induction n generalizing d with
  | zero =>
      have hquot : d / base = 0 := Nat.div_eq_of_lt (by omega)
      rw [Nat.add_right_comm, digitLoop, digitLoop, if_pos hquot, if_pos hquot]
  | succ n ih =>
      have hquot : d / base < 2 ^ (n + 1) := by
        refine Nat.lt_of_le_of_lt (Nat.div_le_div_left hbase (by omega)) ?_
        rw [Nat.div_lt_iff_lt_mul (by omega)]
        exact Nat.pow_succ 2 (n + 1) ▸ hd
      have hsize : n + 1 + 1 + k = n + 1 + k + 1 := by omega
      rw [hsize, digitLoop, digitLoop, ih hquot]

theorem counted_nothing : printNothing.Counted := rfl

theorem counted_char (c : UInt8) : (printChar c).Counted := rfl

theorem counted_string (s : Option (List UInt8)) : (printString s).Counted := by
  cases s <;> rfl

theorem counted_number (size base d : Nat) (width : Int) (pad : UInt8) :
    (printNumber size base d width pad).Counted := by
  have hpad : ∀ n, (padLoop pad n).Counted := by
    intro n
    induction n with
    | zero => exact counted_nothing
    | succ n ih => exact (counted_char pad).append ih
  have hback : ∀ buf, (digitsBack buf).Counted := by
    intro buf
    induction buf with
    | nil => exact counted_nothing
    | cons c buf ih => exact ih.append (counted_char c)
  exact (hpad _).append (hback _)

theorem counted_uint64 (d base : Nat) (width : Int) (pad : UInt8) :
    (printUint64 d base width pad).Counted := counted_number 64 base (d % 2 ^ 64) width pad

theorem counted_unsignedInt (d base : Nat) (width : Int) (pad : UInt8) :
    (printUnsignedInt d base width pad).Counted := counted_number 32 base (d % 2 ^ 32) width pad

theorem counted_int32 (d : Int) : (printInt32 d).Counted := by
  rw [printInt32]
  by_cases hneg : d < 0
  · rw [if_pos hneg]
    exact (counted_char _).append (counted_uint64 _ _ _ _)
  · rw [if_neg hneg]
    exact counted_uint64 _ _ _ _

theorem counted_int (d : Int) (base : Nat) (width : Int) (pad : UInt8) :
    (printInt d base width pad).Counted := by
  rw [printInt]
  by_cases hneg : d < 0
  · rw [if_pos hneg]
    exact (counted_char _).append (counted_unsignedInt _ _ _ _)
  · rw [if_neg hneg]
    exact counted_unsignedInt _ _ _ _

/-! ## The format -/

/-- An argument: a string, or the value of a register. -/
inductive PrintArg
  | str (s : Option (List UInt8))
  | word (v : Nat)
  deriving DecidableEq, Repr

/-- The `switch` of `PRINT`, on the conversion `c`. -/
def printConversion (c pad : UInt8) (width : Int) : PrintArg → Option Printed
  | .str s => if c = 0x73 then some (printString s) else none -- 's'
  | .word v =>
      if c = 0x64 then some (printInt (toInt v) 10 width pad) -- 'd'
      else if c = 0x75 then some (printUnsignedInt v 10 width pad) -- 'u'
      else if c = 0x78 then some (printUnsignedInt v 16 width pad) -- 'x'
      else if c = 0x6F then some (printUnsignedInt v 8 width pad) -- 'o'
      else if c = 0x70 then some (printPtr v) -- 'p'
      else if c = 0x63 then some (printChar v.toUInt8) -- 'c'
      else none

/-- How far the loop of `PRINT` has got: in the text, or behind a `'%'`, its `'0'`, its width. -/
inductive FmtMode
  | text
  | percent
  | width (pad : UInt8)
  | conversion (pad : UInt8) (width : Int)
  deriving DecidableEq, Repr

/-- What the loop does with the next character of the format. -/
inductive FmtStep
  | print (c : UInt8)
  | goto (mode : FmtMode)
  | convert (c pad : UInt8) (width : Int)

/-- The width digit, if there is one. -/
def fmtWidth (c pad : UInt8) : FmtStep :=
  if 0x31 ≤ c ∧ c ≤ 0x39 then .goto (.conversion pad (c.toNat - 0x30 : Nat))
  else .convert c pad (-1)

def fmtStep (c : UInt8) : FmtMode → FmtStep
  | .text => if c = 0x25 then .goto .percent else .print c -- '%'
  | .percent => if c = charZero then .goto (.width charZero) else fmtWidth c charSpace
  | .width pad => fmtWidth c pad
  | .conversion pad width => .convert c pad width

/-- The loop of `PRINT`. -/
def printFormat : FmtMode → List UInt8 → List PrintArg → Option Printed
  | _, [], _ => some printNothing
  | mode, c :: fmt, args =>
      match fmtStep c mode with
      | .print c => (printFormat .text fmt args).map (printChar c ++ ·)
      | .goto mode => printFormat mode fmt args
      | .convert c pad width =>
          match args with
          | [] => none
          | a :: args =>
              (printConversion c pad width a).bind fun p => (printFormat .text fmt args).map (p ++ ·)

theorem counted_conversion {c pad : UInt8} {width : Int} {a : PrintArg} {p : Printed}
    (h : printConversion c pad width a = some p) : p.Counted := by
  cases a with
  | str s =>
      simp only [printConversion, Option.ite_none_right_eq_some, Option.some.injEq] at h
      obtain ⟨-, rfl⟩ := h
      exact counted_string s
  | word v =>
      simp only [printConversion] at h
      split_ifs at h
      · rw [← Option.some.inj h]
        exact counted_int _ _ _ _
      · rw [← Option.some.inj h]
        exact counted_unsignedInt _ _ _ _
      · rw [← Option.some.inj h]
        exact counted_unsignedInt _ _ _ _
      · rw [← Option.some.inj h]
        exact counted_unsignedInt _ _ _ _
      · rw [← Option.some.inj h]
        exact counted_uint64 _ _ _ _
      · rw [← Option.some.inj h]
        exact counted_char _

theorem printFormat_count {mode : FmtMode} {fmt : List UInt8} {args : List PrintArg} {p : Printed}
    (h : printFormat mode fmt args = some p) : p.Counted := by
  induction fmt generalizing mode args p with
  | nil =>
      cases h
      exact counted_nothing
  | cons c fmt ih =>
      rw [printFormat] at h
      cases hstep : fmtStep c mode with
      | print c =>
          rw [hstep] at h
          obtain ⟨q, hq, rfl⟩ := Option.map_eq_some_iff.1 h
          exact (counted_char c).append (ih hq)
      | goto mode =>
          rw [hstep] at h
          exact ih h
      | convert c pad width =>
          rw [hstep] at h
          cases args with
          | nil => cases h
          | cons a args =>
              obtain ⟨q, hq, h⟩ := Option.bind_eq_some_iff.1 h
              obtain ⟨r, hr, rfl⟩ := Option.map_eq_some_iff.1 h
              exact (counted_conversion hq).append (ih hr)

/-- `"%s=%04x%%"`-like text: `PRINT` with a string and a padded number. -/
example : printFormat .text [0x25, 0x73, 0x3D, 0x25, 0x30, 0x34, 0x78] [.str (some [0x61]), .word 255] =
    some ⟨[0x61, 0x3D, 0x30, 0x30, 0x46, 0x46], 6⟩ := by decide +kernel

end Lib
end ToutOS
