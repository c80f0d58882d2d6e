import Mathlib.Data.Nat.Digits.Defs
import ToutOS.Base.CString
import ToutOS.Lib.PrintDigits

/-!
# PrintLoop — the `PRINT` macro over memory

The macro walks a format string with the cursor `fmt`, takes arguments from the stack with `ap`, and
adds up in the `int` `num_printed` what its helpers return.  `print_char` is the only effect; it does
not change the format, the arguments or the strings.

* `PrintState` — the variables of the macro, the characters handed to `print_char`, and the places of
  the format that have been read;
* `printBody`, `printLoop` — the loop; `none` when it is not over, or at an `assert(0)` or an access
  outside a digit buffer;
* `Format` — the formats of the repository as syntax: characters and conversions, and at the end
  perhaps the beginning of a conversion;
* `Means` — the text that a format stands for, given the arguments in memory;
* `printLoop_items`, `printLoop_format` — the loop over a format;
* `printsExactly_iff` — it is over, stays inside the format, takes one argument for each conversion
  and counts its characters exactly when the text has fewer than `2 ^ 31` of them.
-/

namespace ToutOS
namespace Lib

open Base

/-! ## The macro -/

/-- The sum of two `int`s. -/
def addInt (a b : Int) : Int := Int.bmod (a + b) (2 ^ 32)

/-- `*(p + i)`. -/
def byteAt (m : Mem) (p : Nat) (i : Int) : UInt8 := m (((p : Int) + i) % 2 ^ 64).toNat

/-- The loop of `print_string`: what it prints, and `i` at its end. -/
def stringLoop (m : Mem) (p : Nat) : Nat → Int → Option (List UInt8 × Int)
  | 0, _ => none
  | fuel + 1, i =>
      if byteAt m p i = 0 then some ([], i)
      else (stringLoop m p fuel (addInt i 1)).map fun (out, j) => (byteAt m p i :: out, j)

/-- `print_string`. -/
def printStringAt (m : Mem) (fuel p : Nat) : Option (List UInt8 × Int) :=
  if p = 0 then some ([], 0) else stringLoop m p fuel 0

/-- What a helper prints and returns. -/
def Printed.returned (p : Printed) : List UInt8 × Int := (p.chars, p.count)

/-- The `switch` of `PRINT` on the conversion `c`; its argument is at `ap`. -/
def convertArg (m : Mem) (fuel ap : Nat) (c pad : UInt8) (width : Int) :
    Option (List UInt8 × Int) :=
  let d := toInt (load m ap 4)
  if c = 0x73 then printStringAt m fuel (load m ap 8) -- 's'
  else if c = 0x64 then (printIntChecked d 10 width pad).map Printed.returned -- 'd'
  else if c = 0x75 then (printUnsignedIntChecked (asUnsigned d) 10 width pad).map Printed.returned -- 'u'
  else if c = 0x78 then (printUnsignedIntChecked (asUnsigned d) 16 width pad).map Printed.returned -- 'x'
  else if c = 0x6F then (printUnsignedIntChecked (asUnsigned d) 8 width pad).map Printed.returned -- 'o'
  else if c = 0x70 then (printPtrChecked (load m ap 8)).map Printed.returned -- 'p'
  else if c = 0x63 then some (printChar (m ap)).returned -- 'c'
  else none

/-- The variables of the macro that live through an iteration, and what it has done. -/
structure PrintState where
  fmt : Nat
  ap : Nat
  numPrinted : Int
  /-- The arguments of `print_char`, in order. -/
  printed : List UInt8
  /-- The places at which the format has been read, in order; one entry for each stop of `fmt`. -/
  read : List Nat
  deriving DecidableEq, Repr

/-- `*fmt` is read where `fmt` stands. -/
def PrintState.look (s : PrintState) : PrintState := { s with read := s.read ++ [s.fmt] }

/-- `fmt += 1`, and `*fmt` is read there. -/
def PrintState.next (s : PrintState) : PrintState := { s with fmt := s.fmt + 1 }.look

/-- How the body of the loop is left. -/
inductive PrintExit
  /-- `continue`, or the end of the body. -/
  | goOn (s : PrintState)
  /-- `break` out of the loop. -/
  | leave (s : PrintState)
  | stuck

/-- `pad`, and the test behind a `'0'`. -/
def printFlag (m : Mem) (s : PrintState) (k : UInt8 → PrintState → PrintExit) : PrintExit :=
  if m s.fmt = charZero then if m s.next.fmt = 0 then .leave s.next else k charZero s.next
  else k charSpace s

/-- `width`, and the test behind its digit. -/
def printWidth (m : Mem) (s : PrintState) (k : Int → PrintState → PrintExit) : PrintExit :=
  if 0x31 ≤ m s.fmt ∧ m s.fmt ≤ 0x39 then
    if m s.next.fmt = 0 then .leave s.next else k ((m s.fmt).toNat - 0x30 : Nat) s.next
  else k (-1) s

/-- The `switch`. -/
def printSwitch (m : Mem) (fuel : Nat) (pad : UInt8) (width : Int) (s : PrintState) : PrintExit :=
  match convertArg m fuel s.ap (m s.fmt) pad width with
  | none => .stuck
  | some (out, n) =>
      .goOn { s with
        ap := s.ap + 8
        printed := s.printed ++ out
        numPrinted := addInt s.numPrinted n }

/-- The body of the loop. -/
def printBody (m : Mem) (fuel : Nat) (s : PrintState) : PrintExit :=
  if m s.fmt ≠ 0x25 then -- '%'
    .goOn { s with printed := s.printed ++ [m s.fmt], numPrinted := addInt s.numPrinted 1 }
  else if m s.next.fmt = 0 then .leave s.next
  else printFlag m s.next fun pad s => printWidth m s fun width s => printSwitch m fuel pad width s

/-- The loop. -/
def printLoop (m : Mem) : Nat → PrintState → Option PrintState
  | 0, _ => none
  | fuel + 1, s =>
      if m s.fmt = 0 then some s.look
      else
        match printBody m fuel s.look with
        | .goOn s => printLoop m fuel { s with fmt := s.fmt + 1 }
        | .leave s => some s
        | .stuck => none

/-- At the head of the loop for the first time. -/
def printStart (fmt ap : Nat) : PrintState :=
  { fmt := fmt
    ap := ap
    numPrinted := 0
    printed := []
    read := [] }

/-! ## Formats -/

/-- The conversions that the `switch` knows. -/
inductive Conversion
  | s
  | d
  | u
  | x
  | o
  | p
  | c
  deriving DecidableEq, Repr

def Conversion.letter : Conversion → UInt8
  | .s => 0x73
  | .d => 0x64
  | .u => 0x75
  | .x => 0x78
  | .o => 0x6F
  | .p => 0x70
  | .c => 0x63

/-- What may stand between a `'%'` and its conversion: one `0` and one digit. -/
structure FmtFlags where
  zero : Bool
  width : Option { w : Nat // 1 ≤ w ∧ w ≤ 9 }
  deriving DecidableEq, Repr

namespace FmtFlags

def zeroChars (f : FmtFlags) : List UInt8 := if f.zero then [charZero] else []

def widthChars (f : FmtFlags) : List UInt8 :=
  match f.width with
  | none => []
  | some w => [digitChar w.1]

def chars (f : FmtFlags) : List UInt8 := f.zeroChars ++ f.widthChars

def pad (f : FmtFlags) : UInt8 := if f.zero then charZero else charSpace

def places (f : FmtFlags) : Int :=
  match f.width with
  | none => -1
  | some w => w.1

end FmtFlags

/-- A piece of a format. -/
inductive FmtItem
  | lit (c : { c : UInt8 // c ≠ 0 ∧ c ≠ 0x25 })
  | conv (flags : FmtFlags) (kind : Conversion)
  deriving DecidableEq, Repr

def FmtItem.chars : FmtItem → List UInt8
  | .lit c => [c.1]
  | .conv flags kind => 0x25 :: (flags.chars ++ [kind.letter])

/-- The number of arguments that the item takes. -/
def FmtItem.args : FmtItem → Nat
  | .lit _ => 0
  | .conv _ _ => 1

/-- A format: its items, and a conversion that the end of the string cuts short. -/
structure Format where
  items : List FmtItem
  cut : Option FmtFlags
  deriving DecidableEq, Repr

/-- The characters of the cut conversion. -/
def cutChars : Option FmtFlags → List UInt8
  | none => []
  | some flags => 0x25 :: flags.chars

def Format.chars (f : Format) : List UInt8 := f.items.flatMap FmtItem.chars ++ cutChars f.cut

/-- The number of completed conversions. -/
def Format.args (f : Format) : Nat := (f.items.map FmtItem.args).sum

/-! ## Texts -/

/-- The digits of `n`. -/
def numeralText (base n : Nat) : List UInt8 :=
  if n = 0 then [charZero] else ((Nat.digits base n).map digitChar).reverse

/-- The digits of `n` in a field of at least `width` places. -/
def numberText (base n : Nat) (width : Int) (pad : UInt8) : List UInt8 :=
  List.replicate (width - (numeralText base n).length).toNat pad ++ numeralText base n

def intText (d : Int) (width : Int) (pad : UInt8) : List UInt8 :=
  (if d < 0 then [charMinus] else []) ++ numberText 10 d.natAbs width pad

/-- The string behind a pointer that may be `NULL`. -/
def StringArg (m : Mem) (p : Nat) (s : List UInt8) : Prop :=
  (p = 0 ∧ s = []) ∨ (p ≠ 0 ∧ StringAt m p s ∧ p + s.length < 2 ^ 64)

/-- What a conversion stands for when its argument is at `ap`. -/
def ConvText (m : Mem) (ap : Nat) (flags : FmtFlags) : Conversion → List UInt8 → Prop
  | .s, u => StringArg m (load m ap 8) u
  | .d, u => u = intText (toInt (load m ap 4)) flags.places flags.pad
  | .u, u => u = numberText 10 (load m ap 4) flags.places flags.pad
  | .x, u => u = numberText 16 (load m ap 4) flags.places flags.pad
  | .o, u => u = numberText 8 (load m ap 4) flags.places flags.pad
  | .p, u => u = numberText 16 (load m ap 8) 16 charZero
  | .c, u => u = [m ap]

/-- The text that the items stand for when their arguments stand at `ap`, one in each 8 bytes. -/
def Means (m : Mem) : Nat → List FmtItem → List UInt8 → Prop
  | _, [], text => text = []
  | ap, .lit c :: items, text => ∃ rest, text = c.1 :: rest ∧ Means m ap items rest
  | ap, .conv flags kind :: items, text =>
      ∃ u rest, text = u ++ rest ∧ ConvText m ap flags kind u ∧ Means m (ap + 8) items rest

/-- One string for each of `n` `%s`. -/
theorem means_strings {m : Mem} {ap p n : Nat} {s : List UInt8}
    (hargs : ∀ i, i < n → load m (ap + 8 * i) 8 = p) (hs : StringArg m p s) (flags : FmtFlags) :
    Means m ap (List.replicate n (.conv flags .s)) (List.replicate n s).flatten := by
  induction n generalizing ap with
  | zero => rfl
  | succ n ih =>
      refine ⟨s, _, rfl, ?_, ih fun i hi => ?_⟩
      · have hfirst := hargs 0 (Nat.succ_pos n)
        rw [Nat.mul_zero, Nat.add_zero] at hfirst
        simp only [ConvText]
        rw [hfirst]
        exact hs
      · rw [Nat.add_assoc, show 8 + 8 * i = 8 * (i + 1) by omega]
        exact hargs (i + 1) (Nat.succ_lt_succ hi)

/-- No text of a conversion is too long for the index of `print_string`. -/
def ShortTexts (m : Mem) : Nat → List FmtItem → Prop
  | _, [] => True
  | ap, .lit _ :: items => ShortTexts m ap items
  | ap, .conv flags kind :: items =>
      (∀ u, ConvText m ap flags kind u → u.length < 2 ^ 31) ∧ ShortTexts m (ap + 8) items

/-- The arguments determine the text of a conversion. -/
theorem ConvText.unique {m : Mem} {ap : Nat} {flags : FmtFlags} {kind : Conversion}
    {u v : List UInt8} (hu : ConvText m ap flags kind u) (hv : ConvText m ap flags kind v) : u = v := by
  cases kind with
  | s =>
      simp only [ConvText] at hu hv
      generalize load m ap 8 = p at hu hv
      rcases hu with ⟨hp, rfl⟩ | ⟨hp, hu, -⟩ <;> rcases hv with ⟨hp', rfl⟩ | ⟨hp', hv, -⟩
      · rfl
      · exact absurd hp hp'
      · exact absurd hp' hp
      · exact hu.unique hv
  | _ =>
      simp only [ConvText] at hu hv
      rw [hu, hv]

theorem Means.shortTexts {m : Mem} {ap : Nat} {items : List FmtItem} {text : List UInt8}
    (h : Means m ap items text) (hlen : text.length < 2 ^ 31) : ShortTexts m ap items := by
  induction items generalizing ap text with
  | nil => trivial
  | cons item items ih =>
      cases item with
      | lit c =>
          obtain ⟨rest, rfl, hrest⟩ := h
          rw [List.length_cons] at hlen
          exact ih hrest (by omega)
      | conv flags kind =>
          obtain ⟨u, rest, rfl, hu, hrest⟩ := h
          rw [List.length_append] at hlen
          refine ⟨fun v hv => ?_, ih hrest (by omega)⟩
          rw [hv.unique hu]
          omega

/-! ## Numbers -/

theorem toInt_bounds (n : Nat) : -2 ^ 31 ≤ toInt n ∧ toInt n < 2 ^ 31 := by
  have hlow : -((2 ^ 32 : Nat) / 2 : Int) ≤ toInt n := Int.le_bmod (by decide)
  have hhigh : toInt n < ((2 ^ 32 : Nat) + 1 : Int) / 2 := Int.bmod_lt (by decide)
  omega

/-- An `int` that has been read from 4 bytes, as an `unsigned int`. -/
theorem asUnsigned_toInt {n : Nat} (hn : n < 2 ^ 32) : asUnsigned (toInt n) = n := by
  have hmod : toInt n % (2 ^ 32 : Nat) = (n : Int) % (2 ^ 32 : Nat) := Int.bmod_emod
  rw [asUnsigned]
  omega

/-- What the loop over the digits leaves in `buf`. -/
theorem digitLoop_eq {base : Nat} (hbase : 2 ≤ base) {room n : Nat} (hn : n < base ^ (room + 1)) :
    (digitLoop base (room + 1) n).reverse = numeralText base n := by
  by_cases hzero : n = 0
  · subst hzero
    have hdiv : 0 / base = 0 := Nat.zero_div base
    rw [digitLoop, if_pos hdiv, Nat.zero_mod, numeralText, if_pos rfl]
    rfl
  · rw [numeralText, if_neg hzero]
    congr 1
    induction room generalizing n with
    | zero =>
        have hsmall : n < base := by simpa using hn
        rw [digitLoop, if_pos (Nat.div_eq_of_lt hsmall), Nat.mod_eq_of_lt hsmall,
          Nat.digits_of_lt base n hzero hsmall]
        rfl
    | succ room ih =>
        have hstep := Nat.digits_def' (show 1 < base by omega) (Nat.pos_of_ne_zero hzero)
        rw [digitLoop, hstep, List.map_cons]
        congr 1
        by_cases hquot : n / base = 0
        · rw [if_pos hquot, hquot, Nat.digits_zero, List.map_nil]
        · have hlt : n / base < base ^ (room + 1) := by
            rw [Nat.div_lt_iff_lt_mul (by omega)]
            exact Nat.pow_succ base (room + 1) ▸ hn
          rw [if_neg hquot, ih hlt hquot]

theorem printNumber_chars {base : Nat} (hbase : 2 ≤ base) {room n : Nat}
    (hn : n < base ^ (room + 1)) (width : Int) (pad : UInt8) :
    (printNumber (room + 1) base n width pad).chars = numberText base n width pad := by
  have hchars : (printNumber (room + 1) base n width pad).chars =
      (padLoop pad (width - (digitLoop base (room + 1) n).length).toNat).chars ++
        (digitsBack (digitLoop base (room + 1) n)).chars := rfl
  rw [hchars, padLoop_chars, digitsBack_chars, numberText, ← digitLoop_eq hbase hn,
    List.length_reverse]

theorem printUnsignedInt_chars {base : Nat} (hbase : 2 ≤ base) {n : Nat} (hn : n < 2 ^ 32)
    (width : Int) (pad : UInt8) :
    (printUnsignedInt n base width pad).chars = numberText base n width pad := by
  have hfits : n < base ^ (31 + 1) := lt_pow_bits hbase hn
  rw [printUnsignedInt, Nat.mod_eq_of_lt hn]
  exact printNumber_chars hbase hfits width pad

theorem printInt_chars {d : Int} (hlow : -2 ^ 31 ≤ d) (hhigh : d < 2 ^ 31) (width : Int)
    (pad : UInt8) : (printInt d 10 width pad).chars = intText d width pad := by
  have habs := printUnsignedInt_chars (show 2 ≤ 10 by decide) (show d.natAbs < 2 ^ 32 by omega)
    width pad
  rw [printInt, intText, ← habs]
  by_cases hneg : d < 0
  · have hsame : (-d).toNat = d.natAbs := by omega
    rw [if_pos hneg, if_pos hneg, hsame]
    rfl
  · have hsame : d.toNat = d.natAbs := by omega
    rw [if_neg hneg, if_neg hneg, hsame]
    rfl

theorem printPtr_chars {p : Nat} (hp : p < 2 ^ 64) :
    (printPtr p).chars = numberText 16 p 16 charZero := by
  have hfits : p < 16 ^ (63 + 1) := lt_pow_bits (by decide) hp
  rw [printPtr, printUint64, Nat.mod_eq_of_lt hp]
  exact printNumber_chars (by decide) hfits 16 charZero

/-! ## Sums of `int`s -/

theorem addInt_bounds (a b : Int) : -2 ^ 31 ≤ addInt a b ∧ addInt a b < 2 ^ 31 := by
  have hlow : -((2 ^ 32 : Nat) / 2 : Int) ≤ addInt a b := Int.le_bmod (by decide)
  have hhigh : addInt a b < ((2 ^ 32 : Nat) + 1 : Int) / 2 := Int.bmod_lt (by decide)
  omega

theorem addInt_eq {a b : Int} (hlow : -2 ^ 31 ≤ a + b) (hhigh : a + b < 2 ^ 31) :
    addInt a b = a + b := by
  have h₁ : -((2 ^ 32 : Nat) / 2 : Int) ≤ a + b := by omega
  have h₂ : a + b < ((2 ^ 32 : Nat) + 1) / 2 := by omega
  exact Int.bmod_eq_of_le h₁ h₂

theorem addInt_assoc (a b c : Int) : addInt (addInt a b) c = addInt a (b + c) := by
  rw [addInt, addInt, addInt, Int.bmod_add_bmod, Int.add_assoc]

/-! ## Strings -/

theorem byteAt_natCast {m : Mem} {p i : Nat} (h : p + i < 2 ^ 64) : byteAt m p i = m (p + i) := by
  have hsum : ((p : Int) + (i : Nat)) % 2 ^ 64 = ((p + i : Nat) : Int) := by omega
  rw [byteAt, hsum, Int.toNat_natCast]

/-- The loop of `print_string` over a string that its index can reach the end of. -/
theorem stringLoop_eq {m : Mem} {p i fuel : Nat} {s : List UInt8} (h : StringAt m (p + i) s)
    (haddr : p + i + s.length < 2 ^ 64) (hint : i + s.length < 2 ^ 31) (hfuel : s.length < fuel) :
    stringLoop m p fuel i = some (s, ((i + s.length : Nat) : Int)) := by
  induction s generalizing i fuel with
  | nil =>
      obtain ⟨fuel, rfl⟩ : ∃ k, fuel = k + 1 := ⟨fuel - 1, by omega⟩
      have hend : byteAt m p i = 0 := (byteAt_natCast haddr).trans h
      rw [stringLoop, if_pos hend]
      rfl
  | cons c cs ih =>
      rw [List.length_cons] at haddr hint hfuel
      obtain ⟨fuel, rfl⟩ : ∃ k, fuel = k + 1 := ⟨fuel - 1, by omega⟩
      have hbyte : byteAt m p i = c := (byteAt_natCast (by omega)).trans h.1
      have hindex : addInt i 1 = ((i + 1 : Nat) : Int) := by
        rw [addInt_eq (by omega) (by omega)]
        rfl
      have hrest := ih (i := i + 1) h.2.2 (by omega) (by omega) (show cs.length < fuel by omega)
      rw [stringLoop, if_neg (by rw [hbyte]; exact h.2.1), hindex, hrest, hbyte, List.length_cons]
      have hlen : i + 1 + cs.length = i + (cs.length + 1) := by omega
      rw [hlen]
      rfl

/-- Whatever the end of the string, the loop prints what its index can reach. -/
theorem stringLoop_long {m : Mem} {p i fuel : Nat} {s out : List UInt8} {j : Int}
    (h : StringAt m (p + i) s) (haddr : p + i + s.length < 2 ^ 64) (hi : i < 2 ^ 31)
    (hloop : stringLoop m p fuel i = some (out, j)) : min s.length (2 ^ 31 - i) ≤ out.length := by
  induction fuel generalizing i s out j with
  | zero => cases hloop
  | succ fuel ih =>
      cases s with
      | nil => simp
      | cons c cs =>
          rw [List.length_cons] at haddr ⊢
          have hbyte : byteAt m p i = c := (byteAt_natCast (by omega)).trans h.1
          rw [stringLoop, if_neg (by rw [hbyte]; exact h.2.1)] at hloop
          obtain ⟨⟨out', j'⟩, hrest, heq⟩ := Option.map_eq_some_iff.1 hloop
          obtain ⟨rfl, -⟩ := Prod.mk.inj heq
          rw [List.length_cons]
          by_cases hlast : i + 1 < 2 ^ 31
          · have hindex : addInt i 1 = ((i + 1 : Nat) : Int) := by
              rw [addInt_eq (by omega) (by omega)]
              rfl
            rw [hindex] at hrest
            have hlong := ih (i := i + 1) h.2.2 (by omega) hlast hrest
            omega
          · omega

/-- `print_string`, for a string or `NULL`. -/
theorem printStringAt_eq {m : Mem} {p fuel : Nat} {s : List UInt8} (h : StringArg m p s)
    (hlen : s.length < 2 ^ 31) (hfuel : s.length < fuel) :
    printStringAt m fuel p = some (s, (s.length : Int)) := by
  rw [printStringAt]
  rcases h with ⟨hnull, rfl⟩ | ⟨hptr, hstring, haddr⟩
  · rw [if_pos hnull]
    rfl
  · rw [if_neg hptr]
    have hloop := stringLoop_eq (i := 0) hstring haddr (by omega) hfuel
    rwa [Nat.zero_add] at hloop

theorem printStringAt_length {m : Mem} {p fuel : Nat} {s out : List UInt8} {n : Int}
    (h : StringArg m p s) (hprint : printStringAt m fuel p = some (out, n)) :
    min s.length (2 ^ 31) ≤ out.length := by
  rw [printStringAt] at hprint
  rcases h with ⟨-, rfl⟩ | ⟨hptr, hstring, haddr⟩
  · exact Nat.zero_le _
  · rw [if_neg hptr] at hprint
    exact stringLoop_long (i := 0) hstring haddr (by decide) hprint

/-! ## Conversions -/

theorem FmtFlags.places_bounds (f : FmtFlags) : -1 ≤ f.places ∧ f.places ≤ 9 := by
  cases hwidth : f.width with
  | none => simp [FmtFlags.places, hwidth]
  | some w =>
      have h₁ := w.2.1
      have h₂ := w.2.2
      simp only [FmtFlags.places, hwidth]
      omega

/-- The branch of the `switch` that a conversion takes. -/
theorem convertArg_letter (m : Mem) (fuel ap : Nat) (kind : Conversion) (pad : UInt8) (width : Int) :
    convertArg m fuel ap kind.letter pad width =
      match kind with
      | .s => printStringAt m fuel (load m ap 8)
      | .d => (printIntChecked (toInt (load m ap 4)) 10 width pad).map Printed.returned
      | .u => (printUnsignedIntChecked (asUnsigned (toInt (load m ap 4))) 10 width pad).map
          Printed.returned
      | .x => (printUnsignedIntChecked (asUnsigned (toInt (load m ap 4))) 16 width pad).map
          Printed.returned
      | .o => (printUnsignedIntChecked (asUnsigned (toInt (load m ap 4))) 8 width pad).map
          Printed.returned
      | .p => (printPtrChecked (load m ap 8)).map Printed.returned
      | .c => some (printChar (m ap)).returned := by
  cases kind <;> simp [convertArg, Conversion.letter]

/-- A helper that prints a text returns its length. -/
theorem Printed.returned_eq {p : Printed} {u : List UInt8} (hcount : p.Counted) (hchars : p.chars = u) :
    p.returned = (u, (u.length : Int)) := by
  rw [Printed.returned, show p.count = p.chars.length from hcount, hchars]

theorem unsigned_returned {base n : Nat} (hbase : 2 ≤ base) (hle : base ≤ 16) (hn : n < 2 ^ 32)
    (flags : FmtFlags) :
    (printUnsignedIntChecked (asUnsigned (toInt n)) base flags.places flags.pad).map
        Printed.returned =
      some (numberText base n flags.places flags.pad,
        ((numberText base n flags.places flags.pad).length : Int)) := by
  obtain ⟨hlow, hhigh⟩ := flags.places_bounds
  rw [asUnsigned_toInt hn, (printUnsignedIntChecked_spec hbase hle _ hlow hhigh _).1, Option.map_some,
    Printed.returned_eq (counted_unsignedInt _ _ _ _) (printUnsignedInt_chars hbase hn _ _)]

/-- A conversion whose argument is a number. -/
theorem convertArg_word {m : Mem} {ap : Nat} {flags : FmtFlags} {kind : Conversion}
    {u : List UInt8} (h : ConvText m ap flags kind u) (hkind : kind ≠ .s) (fuel : Nat) :
    convertArg m fuel ap kind.letter flags.pad flags.places = some (u, (u.length : Int)) := by
  obtain ⟨hlow, hhigh⟩ := flags.places_bounds
  have h4 : load m ap 4 < 2 ^ 32 := load_lt m ap 4
  have h8 : load m ap 8 < 2 ^ 64 := load_lt m ap 8
  rw [convertArg_letter]
  cases kind with
  | s => exact absurd rfl hkind
  | d =>
      obtain ⟨hd, hd'⟩ := toInt_bounds (load m ap 4)
      simp only [ConvText] at h
      rw [h, printIntChecked_eq (by decide) (by decide) hd hd' hlow hhigh, Option.map_some,
        Printed.returned_eq (counted_int _ _ _ _) (printInt_chars hd hd' _ _)]
  | u =>
      simp only [ConvText] at h
      rw [h]
      exact unsigned_returned (by decide) (by decide) h4 flags
  | x =>
      simp only [ConvText] at h
      rw [h]
      exact unsigned_returned (by decide) (by decide) h4 flags
  | o =>
      simp only [ConvText] at h
      rw [h]
      exact unsigned_returned (by decide) (by decide) h4 flags
  | p =>
      simp only [ConvText] at h
      have hcount : (printPtr (load m ap 8)).Counted := counted_uint64 _ _ _ _
      rw [h, (printPtrChecked_spec _).1, Option.map_some,
        Printed.returned_eq hcount (printPtr_chars h8)]
  | c =>
      simp only [ConvText] at h
      rw [h]
      rfl

theorem convertArg_string (m : Mem) (fuel ap : Nat) (pad : UInt8) (width : Int) :
    convertArg m fuel ap Conversion.s.letter pad width = printStringAt m fuel (load m ap 8) :=
  convertArg_letter m fuel ap .s pad width

/-- A conversion prints its text and returns its length. -/
theorem convertArg_eq {m : Mem} {ap fuel : Nat} {flags : FmtFlags} {kind : Conversion}
    {u : List UInt8} (h : ConvText m ap flags kind u) (hlen : u.length < 2 ^ 31)
    (hfuel : u.length < fuel) :
    convertArg m fuel ap kind.letter flags.pad flags.places = some (u, (u.length : Int)) := by
  by_cases hkind : kind = .s
  · subst hkind
    simp only [ConvText] at h
    rw [convertArg_string]
    generalize load m ap 8 = p at h ⊢
    exact printStringAt_eq h hlen hfuel
  · exact convertArg_word h hkind fuel

/-- What is printed is never shorter than the text, up to the range of an `int`. -/
theorem convertArg_length {m : Mem} {ap fuel : Nat} {flags : FmtFlags} {kind : Conversion}
    {u out : List UInt8} {n : Int} (h : ConvText m ap flags kind u)
    (hconv : convertArg m fuel ap kind.letter flags.pad flags.places = some (out, n)) :
    min u.length (2 ^ 31) ≤ out.length := by
  by_cases hkind : kind = .s
  · subst hkind
    simp only [ConvText] at h
    rw [convertArg_string] at hconv
    generalize load m ap 8 = p at h hconv
    exact printStringAt_length h hconv
  · rw [convertArg_word h hkind] at hconv
    obtain ⟨rfl, -⟩ := Prod.mk.inj (Option.some.inj hconv)
    exact Nat.min_le_left _ _

/-! ## The cursor -/

/-- `fmt` has moved over `n` places, each of which has been read. -/
def PrintState.skip (s : PrintState) (n : Nat) : PrintState :=
  { s with fmt := s.fmt + n, read := s.read ++ List.range' (s.fmt + 1) n }

@[simp] theorem PrintState.skip_fmt (s : PrintState) (n : Nat) : (s.skip n).fmt = s.fmt + n := rfl

theorem PrintState.next_eq (s : PrintState) : s.next = s.skip 1 := rfl

@[simp] theorem PrintState.skip_zero (s : PrintState) : s.skip 0 = s := by
  simp [PrintState.skip]

@[simp] theorem PrintState.skip_skip (s : PrintState) (a b : Nat) :
    (s.skip a).skip b = s.skip (a + b) := by
  simp only [PrintState.skip, Nat.add_assoc, List.append_assoc, PrintState.mk.injEq, true_and]
  rw [← List.range'_append_1, Nat.add_comm a 1, Nat.add_assoc]

theorem printFlag_eq {m : Mem} {s : PrintState} {f : FmtFlags} {rest : List UInt8}
    (h : StringAt m s.fmt (f.zeroChars ++ rest)) (hrest : rest.headD 0 ≠ charZero)
    (k : UInt8 → PrintState → PrintExit) :
    printFlag m s k =
      if f.zero = true ∧ rest = [] then .leave (s.skip 1) else k f.pad (s.skip f.zeroChars.length) := by
  rw [printFlag, PrintState.next_eq]
  cases hzero : f.zero with
  | false =>
      simp only [FmtFlags.zeroChars, hzero, FmtFlags.pad, Bool.false_eq_true, if_false,
        List.nil_append] at h ⊢
      rw [h.head, if_neg hrest]
      simp
  | true =>
      simp only [FmtFlags.zeroChars, hzero, FmtFlags.pad, if_true] at h ⊢
      rw [if_pos h.1, PrintState.skip_fmt]
      have hrest : StringAt m (s.fmt + 1) rest := h.2.2
      by_cases hend : rest = []
      · rw [if_pos (hrest.head_eq_zero_iff.2 hend), if_pos ⟨trivial, hend⟩]
      · rw [if_neg (fun hzero => hend (hrest.head_eq_zero_iff.1 hzero)), if_neg (fun hand => hend hand.2)]
        rfl

theorem printWidth_eq {m : Mem} {s : PrintState} {f : FmtFlags} {rest : List UInt8}
    (h : StringAt m s.fmt (f.widthChars ++ rest))
    (hrest : ¬(0x31 ≤ rest.headD 0 ∧ rest.headD 0 ≤ 0x39)) (k : Int → PrintState → PrintExit) :
    printWidth m s k =
      if f.width.isSome = true ∧ rest = [] then .leave (s.skip 1)
      else k f.places (s.skip f.widthChars.length) := by
  rw [printWidth, PrintState.next_eq]
  cases hwidth : f.width with
  | none =>
      simp only [FmtFlags.widthChars, hwidth, FmtFlags.places, List.nil_append] at h ⊢
      rw [h.head, if_neg hrest]
      simp
  | some w =>
      simp only [FmtFlags.widthChars, hwidth, FmtFlags.places] at h ⊢
      have hdigit : ∀ v < 10, 1 ≤ v →
          0x31 ≤ digitChar v ∧ digitChar v ≤ 0x39 ∧ (digitChar v).toNat - 0x30 = v := by decide
      obtain ⟨h₁, h₂, h₃⟩ := hdigit w.1 (by omega) w.2.1
      have hchar : m s.fmt = digitChar w.1 := h.1
      rw [hchar, if_pos ⟨h₁, h₂⟩, h₃, PrintState.skip_fmt]
      have hrest : StringAt m (s.fmt + 1) rest := h.2.2
      by_cases hend : rest = []
      · rw [if_pos (hrest.head_eq_zero_iff.2 hend), if_pos ⟨rfl, hend⟩]
      · rw [if_neg (fun hzero => hend (hrest.head_eq_zero_iff.1 hzero)), if_neg (fun hand => hend hand.2)]
        rfl

/-- No conversion begins like a flag or a width. -/
theorem Conversion.letter_spec (kind : Conversion) :
    kind.letter ≠ charZero ∧ ¬(0x31 ≤ kind.letter ∧ kind.letter ≤ 0x39) := by
  cases kind <;> decide

theorem FmtFlags.width_head (f : FmtFlags) {rest : List UInt8} (hrest : rest.headD 0 ≠ charZero) :
    (f.widthChars ++ rest).headD 0 ≠ charZero := by
  cases hwidth : f.width with
  | none => simpa [FmtFlags.widthChars, hwidth] using hrest
  | some w =>
      have hdigit : ∀ v < 10, 1 ≤ v → digitChar v ≠ charZero := by decide
      have hw := hdigit w.1 (by have := w.2.2; omega) w.2.1
      simpa [FmtFlags.widthChars, hwidth] using hw

/-! ## The body of the loop -/

theorem printBody_lit {m : Mem} {fuel : Nat} {s : PrintState} (hc : m s.fmt ≠ 0x25) :
    printBody m fuel s = .goOn
      { s with printed := s.printed ++ [m s.fmt], numPrinted := addInt s.numPrinted 1 } := by
  rw [printBody, if_pos hc]

/-- Behind the `'%'`. -/
theorem printBody_percent {m : Mem} {fuel : Nat} {s : PrintState} {flags : FmtFlags}
    {rest : List UInt8} (h : StringAt m s.fmt (0x25 :: (flags.chars ++ rest)))
    (hzero : rest.headD 0 ≠ charZero) (hdigit : ¬(0x31 ≤ rest.headD 0 ∧ rest.headD 0 ≤ 0x39)) :
    printBody m fuel s =
      if rest = [] then .leave (s.skip (1 + flags.chars.length))
      else printSwitch m fuel flags.pad flags.places (s.skip (1 + flags.chars.length)) := by
  have hpercent : ¬m s.fmt ≠ 0x25 := fun hne => hne h.1
  have hbehind : StringAt m (s.skip 1).fmt (flags.zeroChars ++ (flags.widthChars ++ rest)) := by
    have htail := h.2.2
    rwa [FmtFlags.chars, List.append_assoc] at htail
  have hwidth : StringAt m (s.skip (1 + flags.zeroChars.length)).fmt (flags.widthChars ++ rest) := by
    rw [← PrintState.skip_skip]
    exact hbehind.drop
  have hlen : flags.chars.length = flags.zeroChars.length + flags.widthChars.length :=
    List.length_append
  rw [printBody, if_neg hpercent, PrintState.next_eq, printFlag_eq hbehind (flags.width_head hzero)]
  simp only [hbehind.head_eq_zero_iff, printWidth_eq hwidth hdigit, List.append_eq_nil_iff,
    PrintState.skip_skip, hlen]
  by_cases hend : rest = []
  · -- the end of the string: the loop is left at the first test that comes to it
    subst hend
    cases hz : flags.zero <;> cases hw : flags.width <;>
      simp [FmtFlags.zeroChars, FmtFlags.widthChars, hz, hw]
  · simp only [hend, and_false, if_false, Nat.add_assoc]

/-- A conversion that the end of the string cuts short. -/
theorem printBody_cut {m : Mem} {fuel : Nat} {s : PrintState} {flags : FmtFlags}
    (h : StringAt m s.fmt (0x25 :: flags.chars)) :
    printBody m fuel s = .leave (s.skip (1 + flags.chars.length)) := by
  have hwhole : StringAt m s.fmt (0x25 :: (flags.chars ++ [])) := by rwa [List.append_nil]
  rw [printBody_percent hwhole (by decide) (by decide), if_pos rfl]

theorem printBody_conv {m : Mem} {fuel : Nat} {s : PrintState} {flags : FmtFlags}
    {kind : Conversion} {rest : List UInt8}
    (h : StringAt m s.fmt (0x25 :: (flags.chars ++ kind.letter :: rest))) :
    printBody m fuel s =
      printSwitch m fuel flags.pad flags.places (s.skip (1 + flags.chars.length)) := by
  rw [printBody_percent h kind.letter_spec.1 kind.letter_spec.2, if_neg (List.cons_ne_nil _ _)]

/-! ## The loop -/

/-- Behind an item that has printed `out` and added `n`. -/
def PrintState.after (s : PrintState) (item : FmtItem) (out : List UInt8) (n : Int) : PrintState :=
  { fmt := s.fmt + item.chars.length
    ap := s.ap + 8 * item.args
    numPrinted := addInt s.numPrinted n
    printed := s.printed ++ out
    read := s.read ++ List.range' s.fmt item.chars.length }

theorem printLoop_lit {m : Mem} {s : PrintState} {c : { c : UInt8 // c ≠ 0 ∧ c ≠ 0x25 }}
    {rest : List UInt8} (h : StringAt m s.fmt ((FmtItem.lit c).chars ++ rest)) (fuel : Nat) :
    printLoop m (fuel + 1) s = printLoop m fuel (s.after (.lit c) [c.1] 1) := by
  have hc : m s.fmt = c.1 := h.1
  have hbody : printBody m fuel s.look = .goOn { s.look with
      printed := s.look.printed ++ [m s.fmt], numPrinted := addInt s.look.numPrinted 1 } :=
    printBody_lit (by rw [show s.look.fmt = s.fmt from rfl, hc]; exact c.2.2)
  rw [printLoop, if_neg (by rw [hc]; exact c.2.1), hbody, hc]
  rfl

theorem printLoop_conv {m : Mem} {s : PrintState} {flags : FmtFlags} {kind : Conversion}
    {rest : List UInt8} (h : StringAt m s.fmt ((FmtItem.conv flags kind).chars ++ rest)) (fuel : Nat) :
    printLoop m (fuel + 1) s =
      (convertArg m fuel s.ap kind.letter flags.pad flags.places).bind fun (out, n) =>
        printLoop m fuel (s.after (.conv flags kind) out n) := by
  have hstring : StringAt m s.fmt (0x25 :: (flags.chars ++ kind.letter :: rest)) := by
    simpa [FmtItem.chars] using h
  have hnonzero : m s.fmt ≠ 0 := by
    rw [show m s.fmt = 0x25 from hstring.1]
    decide
  -- the cursor stands on the letter of the conversion
  have hletter : m (s.look.skip (1 + flags.chars.length)).fmt = kind.letter := by
    have hsplit : StringAt m s.fmt ((0x25 :: flags.chars) ++ (kind.letter :: rest)) := hstring
    have hdrop := hsplit.drop
    rw [List.length_cons, Nat.add_comm flags.chars.length] at hdrop
    exact hdrop.1
  have hlen : (FmtItem.conv flags kind).chars.length = 1 + (1 + flags.chars.length) := by
    simp only [FmtItem.chars, List.length_cons, List.length_append, List.length_nil]
    omega
  rw [printLoop, if_neg hnonzero, printBody_conv (s := s.look) hstring, printSwitch, hletter]
  have hap : (s.look.skip (1 + flags.chars.length)).ap = s.ap := rfl
  rw [hap]
  cases hconv : convertArg m fuel s.ap kind.letter flags.pad flags.places with
  | none => rfl
  | some r =>
      simp only [Option.bind_some]
      congr 1
      simp only [PrintState.after, PrintState.skip, PrintState.look, hlen, FmtItem.args,
        PrintState.mk.injEq, true_and, List.append_assoc]
      refine ⟨by omega, ?_⟩
      rw [← List.range'_one, List.range'_append_1]

/-- At the end of the format. -/
theorem printLoop_cut {m : Mem} {s : PrintState} {cut : Option FmtFlags}
    (h : StringAt m s.fmt (cutChars cut)) (fuel : Nat) :
    printLoop m (fuel + 1) s = some { s with
      fmt := s.fmt + (cutChars cut).length
      read := s.read ++ List.range' s.fmt ((cutChars cut).length + 1) } := by
  cases cut with
  | none =>
      have hzero : m s.fmt = 0 := h
      rw [printLoop, if_pos hzero]
      rfl
  | some flags =>
      have hnonzero : m s.fmt ≠ 0 := by
        rw [show m s.fmt = 0x25 from h.1]
        decide
      have hlen : (cutChars (some flags)).length = flags.chars.length + 1 := rfl
      rw [printLoop, if_neg hnonzero, printBody_cut (s := s.look) h]
      simp only [PrintState.skip, PrintState.look, hlen, Option.some.injEq, PrintState.mk.injEq,
        true_and, List.append_assoc]
      refine ⟨by omega, ?_⟩
      rw [← List.range'_one, List.range'_append_1]
      congr 2
      omega

/-- Behind the items, whose text has been printed. -/
def PrintState.afterAll (s : PrintState) (items : List FmtItem) (text : List UInt8) : PrintState :=
  { fmt := s.fmt + (items.flatMap FmtItem.chars).length
    ap := s.ap + 8 * (items.map FmtItem.args).sum
    numPrinted := addInt s.numPrinted text.length
    printed := s.printed ++ text
    read := s.read ++ List.range' s.fmt (items.flatMap FmtItem.chars).length }

theorem PrintState.afterAll_nil {s : PrintState} (hlow : -2 ^ 31 ≤ s.numPrinted)
    (hhigh : s.numPrinted < 2 ^ 31) : s.afterAll [] [] = s := by
  have hnum : addInt s.numPrinted 0 = s.numPrinted := by
    rw [addInt_eq (by simpa using hlow) (by simpa using hhigh), Int.add_zero]
  simp [PrintState.afterAll, hnum]

theorem PrintState.after_afterAll (s : PrintState) (item : FmtItem) (items : List FmtItem)
    (u rest : List UInt8) :
    (s.after item u u.length).afterAll items rest = s.afterAll (item :: items) (u ++ rest) := by
  simp only [PrintState.afterAll, PrintState.after, addInt_assoc, List.flatMap_cons,
    List.length_append, List.map_cons, List.sum_cons, List.append_assoc, List.range'_append_1,
    PrintState.mk.injEq, and_true]
  refine ⟨by omega, by omega, ?_⟩
  congr 1

/-- The loop over the items, one iteration for each. -/
theorem printLoop_items {m : Mem} {s : PrintState} {items : List FmtItem} {text tail : List UInt8}
    {fuel : Nat} (h : StringAt m s.fmt (items.flatMap FmtItem.chars ++ tail))
    (htext : Means m s.ap items text) (hlow : -2 ^ 31 ≤ s.numPrinted) (hhigh : s.numPrinted < 2 ^ 31)
    (hshort : ShortTexts m s.ap items) (hfuel : text.length < fuel) :
    printLoop m (items.length + fuel) s = printLoop m fuel (s.afterAll items text) := by
  induction items generalizing s text with
  | nil =>
      obtain rfl : text = [] := htext
      rw [PrintState.afterAll_nil hlow hhigh, List.length_nil, Nat.zero_add]
  | cons item items ih =>
      rw [List.flatMap_cons, List.append_assoc] at h
      have hcount : (item :: items).length + fuel = items.length + fuel + 1 := by
        rw [List.length_cons]
        omega
      rw [hcount]
      cases item with
      | lit c =>
          obtain ⟨rest, rfl, hrest⟩ := htext
          rw [List.length_cons] at hfuel
          obtain ⟨hlow', hhigh'⟩ := addInt_bounds s.numPrinted 1
          have hafter : s.afterAll (.lit c :: items) (c.1 :: rest) =
              (s.after (.lit c) [c.1] 1).afterAll items rest :=
            (s.after_afterAll (.lit c) items [c.1] rest).symm
          rw [printLoop_lit h, hafter]
          exact ih (s := s.after (.lit c) [c.1] 1) h.drop hrest hlow' hhigh' hshort (by omega)
      | conv flags kind =>
          obtain ⟨u, rest, rfl, hu, hrest⟩ := htext
          rw [List.length_append] at hfuel
          obtain ⟨hlow', hhigh'⟩ := addInt_bounds s.numPrinted u.length
          rw [printLoop_conv h, convertArg_eq hu (hshort.1 u hu) (by omega), Option.bind_some,
            ← s.after_afterAll (.conv flags kind) items u rest]
          exact ih (s := s.after (.conv flags kind) u u.length) h.drop hrest hlow' hhigh' hshort.2
            (by omega)

/-- The whole format.  The count is that of the characters, as an `int`. -/
theorem printLoop_format {m : Mem} {fmt ap : Nat} {f : Format} {text : List UInt8}
    (hfmt : StringAt m fmt f.chars) (htext : Means m ap f.items text)
    (hshort : ShortTexts m ap f.items) (k : Nat) :
    printLoop m (f.items.length + (text.length + 1) + k) (printStart fmt ap) = some
      { fmt := fmt + f.chars.length
        ap := ap + 8 * f.args
        numPrinted := addInt 0 text.length
        printed := text
        read := List.range' fmt (f.chars.length + 1) } := by
  have hfuel : f.items.length + (text.length + 1) + k = f.items.length + (text.length + k + 1) := by
    omega
  have hitems := printLoop_items (s := printStart fmt ap) hfmt htext
    (show -2 ^ 31 ≤ (0 : Int) by decide) (show (0 : Int) < 2 ^ 31 by decide) hshort
    (show text.length < text.length + k + 1 by omega)
  have htail : StringAt m ((printStart fmt ap).afterAll f.items text).fmt (cutChars f.cut) :=
    StringAt.drop hfmt
  rw [hfuel, hitems, printLoop_cut htail]
  simp only [PrintState.afterAll, printStart, Format.args, Format.chars, List.length_append,
    List.nil_append, List.range'_append_1, Nat.add_assoc]

/-- However long the text is: what is printed is not shorter, up to the range of an `int`, and the
count stays in that range. -/
theorem printLoop_length {m : Mem} {s r : PrintState} {items : List FmtItem}
    {cut : Option FmtFlags} {text : List UInt8} {fuel : Nat}
    (h : StringAt m s.fmt (items.flatMap FmtItem.chars ++ cutChars cut)) (htext : Means m s.ap items text)
    (hnum : s.numPrinted < 2 ^ 31) (hloop : printLoop m fuel s = some r) :
    s.printed.length + min text.length (2 ^ 31) ≤ r.printed.length ∧ r.numPrinted < 2 ^ 31 := by
  induction items generalizing s text fuel with
  | nil =>
      obtain rfl : text = [] := htext
      cases fuel with
      | zero => cases hloop
      | succ fuel =>
          rw [printLoop_cut h, Option.some.injEq] at hloop
          subst hloop
          exact ⟨Nat.le_refl _, hnum⟩
  | cons item items ih =>
      rw [List.flatMap_cons, List.append_assoc] at h
      cases fuel with
      | zero => cases hloop
      | succ fuel =>
          cases item with
          | lit c =>
              obtain ⟨rest, rfl, hrest⟩ := htext
              -- a character of the format is printed as it is
              rw [printLoop_lit h] at hloop
              obtain ⟨hlength, hcount⟩ := ih (s := s.after (.lit c) [c.1] 1) h.drop hrest
                (addInt_bounds _ _).2 hloop
              have hprinted : (s.after (.lit c) [c.1] 1).printed.length = s.printed.length + 1 :=
                List.length_append
              rw [List.length_cons]
              exact ⟨by omega, hcount⟩
          | conv flags kind =>
              obtain ⟨u, rest, rfl, hu, hrest⟩ := htext
              rw [printLoop_conv h] at hloop
              obtain ⟨⟨out, n⟩, hconv, hloop⟩ := Option.bind_eq_some_iff.1 hloop
              -- padding and wrapped counts do not make it shorter
              have hout := convertArg_length hu hconv
              obtain ⟨hlength, hcount⟩ := ih (s := s.after (.conv flags kind) out n) h.drop hrest
                (addInt_bounds _ _).2 hloop
              have hprinted : (s.after (.conv flags kind) out n).printed.length =
                  s.printed.length + out.length := List.length_append
              rw [List.length_append]
              exact ⟨by omega, hcount⟩

/-! ## What the macro promises -/

/-- The loop over the format at `fmt` is over after finitely many steps, has not read the format
behind its NUL, has taken one argument for each completed conversion, and `num_printed` is the number
of calls of `print_char`. -/
def PrintsExactly (m : Mem) (fmt ap : Nat) (f : Format) : Prop :=
  ∃ fuel s, (∀ k, printLoop m (fuel + k) (printStart fmt ap) = some s) ∧
    (∀ a ∈ s.read, fmt ≤ a ∧ a ≤ fmt + f.chars.length) ∧
    s.ap = ap + 8 * f.args ∧ s.numPrinted = s.printed.length

/-- It does so exactly for the texts whose length is an `int`. -/
theorem printsExactly_iff {m : Mem} {fmt ap : Nat} {f : Format} {text : List UInt8}
    (hfmt : StringAt m fmt f.chars) (htext : Means m ap f.items text) :
    PrintsExactly m fmt ap f ↔ text.length < 2 ^ 31 := by
  constructor
  · rintro ⟨fuel, s, hloop, -, -, hcount⟩
    obtain ⟨hlength, hnum⟩ := printLoop_length (s := printStart fmt ap) hfmt htext
      (show (0 : Int) < 2 ^ 31 by decide) (hloop 0)
    have hzero : (printStart fmt ap).printed.length = 0 := rfl
    omega
  · intro hlen
    have hcount : addInt 0 text.length = (text.length : Int) := by
      rw [addInt_eq (by omega) (by omega), Int.zero_add]
    refine ⟨_, _, printLoop_format hfmt htext (htext.shortTexts hlen), ?_, ?_, ?_⟩
    · intro a ha
      rw [List.mem_range'_1] at ha
      omega
    · rfl
    · dsimp only
      exact hcount

/-! ## The loop over lists -/

/-- The flags, as `printFormat` goes over them. -/
theorem printFormat_conv (flags : FmtFlags) (fmt : List UInt8) {c : UInt8}
    (hzero : c ≠ charZero) (hdigit : ¬(0x31 ≤ c ∧ c ≤ 0x39)) (a : PrintArg) (args : List PrintArg) :
    printFormat .text (0x25 :: (flags.chars ++ c :: fmt)) (a :: args) =
      (printConversion c flags.pad flags.places a).bind fun p =>
        (printFormat .text fmt args).map (p ++ ·) := by
  have hwidth : ∀ v < 10, 1 ≤ v → 0x31 ≤ digitChar v ∧ digitChar v ≤ 0x39 ∧
      (digitChar v).toNat - 0x30 = v ∧ digitChar v ≠ charZero := by decide
  obtain ⟨zero, width⟩ := flags
  cases width with
  | none =>
      cases zero <;>
        simp [printFormat, fmtStep, fmtWidth, FmtFlags.chars, FmtFlags.zeroChars, FmtFlags.widthChars,
          FmtFlags.pad, FmtFlags.places, hzero, hdigit]
  | some w =>
      obtain ⟨h₁, h₂, h₃, h₄⟩ := hwidth w.1 (by have := w.2.2; omega) w.2.1
      cases zero <;>
        simp [printFormat, fmtStep, fmtWidth, FmtFlags.chars, FmtFlags.zeroChars, FmtFlags.widthChars,
          FmtFlags.pad, FmtFlags.places, h₁, h₂, h₃, h₄]

theorem printFormat_cut (cut : Option FmtFlags) :
    printFormat .text (cutChars cut) [] = some printNothing := by
  have hwidth : ∀ v < 10, 1 ≤ v → 0x31 ≤ digitChar v ∧ digitChar v ≤ 0x39 ∧
      digitChar v ≠ charZero := by decide
  cases cut with
  | none => rfl
  | some flags =>
      obtain ⟨zero, width⟩ := flags
      cases width with
      | none => cases zero <;> rfl
      | some w =>
          obtain ⟨h₁, h₂, h₃⟩ := hwidth w.1 (by have := w.2.2; omega) w.2.1
          cases zero <;>
            simp [printFormat, fmtStep, fmtWidth, cutChars, FmtFlags.chars, FmtFlags.zeroChars,
              FmtFlags.widthChars, h₁, h₂, h₃]

/-- Only the low 32 bits of a number matter for an `int`. -/
theorem toInt_add_mul (a b : Nat) : toInt (a + 2 ^ 32 * b) = toInt a := by
  have hmod := Int.add_mul_bmod_self_left (a : Int) (2 ^ 32) (b : Int)
  have hcast : ((a + 2 ^ 32 * b : Nat) : Int) = (a : Int) + ((2 ^ 32 : Nat) : Int) * (b : Int) := by
    push_cast
    rfl
  exact (congrArg (fun x => Int.bmod x (2 ^ 32)) hcast).trans hmod

/-- The 8 bytes of an argument, read as the type of its conversion. -/
theorem toInt_load (m : Mem) (ap : Nat) : toInt (load m ap 8) = toInt (load m ap 4) := by
  have hsplit : load m ap 8 = load m ap 4 + 2 ^ 32 * load m (ap + 4) 4 := load_add m ap 4 4
  rw [hsplit]
  exact toInt_add_mul _ _

theorem load_mod (m : Mem) (ap : Nat) : load m ap 8 % 2 ^ 32 = load m ap 4 := by
  have hsplit : load m ap 8 = load m ap 4 + 2 ^ 32 * load m (ap + 4) 4 := load_add m ap 4 4
  rw [hsplit, Nat.add_mul_mod_self_left]
  exact Nat.mod_eq_of_lt (load_lt m ap 4)

theorem load_toUInt8 (m : Mem) (ap : Nat) : (load m ap 8).toUInt8 = m ap := by
  have hsplit : load m ap 8 = (m ap).toNat + 256 * load m (ap + 1) 7 := rfl
  apply UInt8.toNat_inj.1
  rw [hsplit, Nat.toUInt8, UInt8.toNat_ofNat']
  have hlt := (m ap).toNat_lt
  omega

/-- The `switch` over lists, on the argument that is in memory. -/
theorem printConversion_text {m : Mem} {ap : Nat} {flags : FmtFlags} {kind : Conversion}
    {u : List UInt8} (h : ConvText m ap flags kind u) :
    ∃ a p, printConversion kind.letter flags.pad flags.places a = some p ∧ p.chars = u := by
  have h4 : load m ap 4 < 2 ^ 32 := load_lt m ap 4
  have h8 : load m ap 8 < 2 ^ 64 := load_lt m ap 8
  -- an argument takes 8 bytes, of which the conversions of an `unsigned int` read 4
  have hunsigned : ∀ base, 2 ≤ base →
      (printUnsignedInt (load m ap 8) base flags.places flags.pad).chars =
        numberText base (load m ap 4) flags.places flags.pad := by
    intro base hbase
    rw [← printUnsignedInt_chars hbase h4, printUnsignedInt, printUnsignedInt, load_mod,
      Nat.mod_eq_of_lt h4]
  cases kind with
  | s =>
      simp only [ConvText] at h
      rcases h with ⟨-, rfl⟩ | ⟨-, -, -⟩
      · exact ⟨.str none, printNothing, rfl, rfl⟩
      · exact ⟨.str (some u), printString (some u), rfl, rfl⟩
  | d =>
      simp only [ConvText] at h
      obtain ⟨hd, hd'⟩ := toInt_bounds (load m ap 4)
      refine ⟨.word (load m ap 8), printInt (toInt (load m ap 8)) 10 flags.places flags.pad, ?_, ?_⟩
      · simp [printConversion, Conversion.letter]
      · rw [toInt_load, h, printInt_chars hd hd']
  | u =>
      simp only [ConvText] at h
      refine ⟨.word (load m ap 8), printUnsignedInt (load m ap 8) 10 flags.places flags.pad, ?_, ?_⟩
      · simp [printConversion, Conversion.letter]
      · rw [h, hunsigned 10 (by decide)]
  | x =>
      simp only [ConvText] at h
      refine ⟨.word (load m ap 8), printUnsignedInt (load m ap 8) 16 flags.places flags.pad, ?_, ?_⟩
      · simp [printConversion, Conversion.letter]
      · rw [h, hunsigned 16 (by decide)]
  | o =>
      simp only [ConvText] at h
      refine ⟨.word (load m ap 8), printUnsignedInt (load m ap 8) 8 flags.places flags.pad, ?_, ?_⟩
      · simp [printConversion, Conversion.letter]
      · rw [h, hunsigned 8 (by decide)]
  | p =>
      simp only [ConvText] at h
      refine ⟨.word (load m ap 8), printPtr (load m ap 8), ?_, ?_⟩
      · simp [printConversion, Conversion.letter]
      · rw [h, printPtr_chars h8]
  | c =>
      simp only [ConvText] at h
      refine ⟨.word (load m ap 8), printChar (load m ap 8).toUInt8, ?_, ?_⟩
      · simp [printConversion, Conversion.letter]
      · rw [h, load_toUInt8]
        rfl

/-- The text of a format in memory is the one that `printFormat` makes of it, for arguments that are
there. -/
theorem printFormat_text {m : Mem} {ap : Nat} {f : Format} {text : List UInt8}
    (htext : Means m ap f.items text) :
    ∃ args p, printFormat .text f.chars args = some p ∧ p.chars = text := by
  obtain ⟨items, cut⟩ := f
  simp only [Format.chars]
  induction items generalizing ap text with
  | nil =>
      obtain rfl : text = [] := htext
      exact ⟨[], printNothing, printFormat_cut cut, rfl⟩
  | cons item items ih =>
      cases item with
      | lit c =>
          obtain ⟨rest, rfl, hrest⟩ := htext
          obtain ⟨args, p, hp, hchars⟩ := ih hrest
          refine ⟨args, printChar c.1 ++ p, ?_, ?_⟩
          · rw [List.flatMap_cons, List.append_assoc, FmtItem.chars, List.singleton_append, printFormat,
              fmtStep, if_neg c.2.2, hp]
            rfl
          · rw [← hchars]
            rfl
      | conv flags kind =>
          obtain ⟨u, rest, rfl, hu, hrest⟩ := htext
          obtain ⟨args, p, hp, hchars⟩ := ih hrest
          obtain ⟨a, q, hq, hqchars⟩ := printConversion_text hu
          refine ⟨a :: args, q ++ p, ?_, ?_⟩
          · have hsplit : (FmtItem.conv flags kind :: items).flatMap FmtItem.chars ++ cutChars cut =
                0x25 :: (flags.chars ++ kind.letter :: (items.flatMap FmtItem.chars ++ cutChars cut)) := by
              simp [FmtItem.chars]
            rw [hsplit, printFormat_conv flags _ kind.letter_spec.1 kind.letter_spec.2, hq,
              Option.bind_some, hp]
            rfl
          · rw [← hchars, ← hqchars]
            rfl

end Lib
end ToutOS
