import ToutOS.Kernel.Printk
import ToutOS.Lib.PrintLoop

/-!
# PrintkLog — one call of `printk`, from the format in memory to the log

`printk` prints its time stamp and the formatted text through `print_char` into `tmp_printk_buf` of
its core, whose index goes back to 0 behind the last cell, and then has `write_concurrent_cbuf` copy as
many bytes as it has counted, from the start of the buffer on.

* `PrintkCounts`, `print_counts_iff` — the counts of the `PRINT` macro, and the length that `printk`
  makes of them, are exact for texts of fewer than `2 ^ 31` characters;
* `stageChars` — the calls of `print_char`, with the indices at which they store;
* `printkCall` — a call that nothing interrupts: its result, the log behind it, and the cells of the
  buffer that it has stored and loaded;
* `LogsExactly`, `printk_logs_iff` — the log receives the complete message or nothing, and no cell
  outside the buffer is touched, when the message is not longer than the buffer or the log has no
  room for it.
-/

namespace ToutOS
namespace Kernel

open Base Lib

/-! ## The prefix -/

theorem digitLoop_length (base size d : Nat) : (digitLoop base size d).length ≤ size := by
  induction size generalizing d with
  | zero => exact Nat.le_refl 0
  | succ size ih =>
      rw [digitLoop]
      by_cases hquot : d / base = 0
      · rw [if_pos hquot]
        simp
      · rw [if_neg hquot, List.length_cons]
        exact Nat.succ_le_succ (ih _)

theorem printNumber_length {size base d : Nat} {width : Int} {pad : UInt8} {n : Nat}
    (hsize : size ≤ n) (hwidth : width ≤ n) : (printNumber size base d width pad).chars.length ≤ n := by
  have hlen := digitLoop_length base size d
  have hchars : (printNumber size base d width pad).chars =
      (padLoop pad (width - (digitLoop base size d).length).toNat).chars ++
        (digitsBack (digitLoop base size d)).chars := rfl
  rw [hchars, padLoop_chars, digitsBack_chars, List.length_append, List.length_replicate,
    List.length_reverse]
  omega

/-- The prefix has its brackets, and it is short. -/
theorem printkPrefix_length (coreId : Nat) (ts : Timestamp) :
    2 ≤ (printkPrefix coreId ts).chars.length ∧ (printkPrefix coreId ts).chars.length ≤ 1024 := by
  have hsec : (printUnsignedInt ts.sec 10 5 charSpace).chars.length ≤ 32 :=
    printNumber_length (by decide) (by decide)
  have husec : (printUnsignedInt ts.usec 10 6 charZero).chars.length ≤ 32 :=
    printNumber_length (by decide) (by decide)
  have hcore : (printInt32 coreId).chars.length ≤ 64 := by
    have hnumber : (printUint64 ((coreId : Int).toNat) 10 (-1) 0xFF).chars.length ≤ 64 :=
      printNumber_length (by decide) (by decide)
    rw [printInt32, if_neg (by omega)]
    exact hnumber
  have hchars : (printkPrefix coreId ts).chars.length =
      1 + (printUnsignedInt ts.sec 10 5 charSpace).chars.length + 1 +
        (printUnsignedInt ts.usec 10 6 charZero).chars.length + 4 +
        (printInt32 coreId).chars.length + 2 := by
    have happ : ∀ p q : Printed, (p ++ q).chars.length = p.chars.length + q.chars.length :=
      fun _ _ => List.length_append
    simp only [printkPrefix, happ]
    rfl
  omega

/-! ## The counts -/

/-- What `printk` returns is the number of characters of the text, and what it passes to
`write_concurrent_cbuf` is that of the text and the prefix. -/
def PrintkCounts (m : Mem) (coreId : Nat) (ts : Timestamp) (fmt ap : Nat) : Prop :=
  ∃ fuel s, (∀ k, printLoop m (fuel + k) (printStart fmt ap) = some s) ∧
    s.numPrinted = s.printed.length ∧
    addInt (printkPrefix coreId ts).count s.numPrinted =
      ((printkPrefix coreId ts).chars ++ s.printed).length

/-- The loop of `PRINT` promises what it should exactly for the texts whose length is an `int`, and so
does `printk` for those whose length with the prefix is one. -/
theorem print_counts_iff {m : Mem} {fmt ap : Nat} {f : Format} {text : List UInt8}
    (hfmt : StringAt m fmt f.chars) (htext : Means m ap f.items text) (coreId : Nat)
    (ts : Timestamp) :
    (PrintsExactly m fmt ap f ↔ text.length < 2 ^ 31) ∧
      (PrintkCounts m coreId ts fmt ap ↔
        (printkPrefix coreId ts).chars.length + text.length < 2 ^ 31) := by
  have hprefix : (printkPrefix coreId ts).count = (printkPrefix coreId ts).chars.length :=
    printkPrefix_counted coreId ts
  refine ⟨printsExactly_iff hfmt htext, ?_, ?_⟩
  · rintro ⟨fuel, s, hloop, hcount, hsum⟩
    obtain ⟨hlength, -⟩ := printLoop_length (s := printStart fmt ap) hfmt htext
      (show (0 : Int) < 2 ^ 31 by decide) (hloop 0)
    have hzero : (printStart fmt ap).printed.length = 0 := rfl
    have hrange := (addInt_bounds (printkPrefix coreId ts).count s.numPrinted).2
    rw [List.length_append] at hsum
    omega
  · intro hlen
    have hcount : addInt 0 text.length = (text.length : Int) := by
      rw [addInt_eq (by omega) (by omega), Int.zero_add]
    refine ⟨_, _, printLoop_format hfmt htext (htext.shortTexts (by omega)), ?_, ?_⟩
    · dsimp only
      exact hcount
    · dsimp only
      rw [hcount, hprefix, addInt_eq (by omega) (by omega), List.length_append, Int.natCast_add]

/-- `"%s=%04x"`, the arguments `"ab"` and 255. -/
def sampleMem : Mem :=
  place (place (place (fun _ => 0) 0x3000 [0x61, 0x62]) 0x2000 [0, 0x30, 0, 0, 0, 0, 0, 0, 0xFF])
    0x1000 [0x25, 0x73, 0x3D, 0x25, 0x30, 0x34, 0x78]

def sampleFormat : Format :=
  { items :=
      [.conv ⟨false, none⟩ .s, .lit ⟨0x3D, by decide⟩, .conv ⟨true, some ⟨4, by decide⟩⟩ .x]
    cut := none }

theorem sampleFormat_means : StringAt sampleMem 0x1000 sampleFormat.chars ∧
    Means sampleMem 0x2000 sampleFormat.items [0x61, 0x62, 0x3D, 0x30, 0x30, 0x46, 0x46] := by
  have hload : load sampleMem 0x2000 8 = 0x3000 := by decide +kernel
  have hstring : StringArg sampleMem 0x3000 [0x61, 0x62] :=
    Or.inr ⟨by decide, by decide +kernel, by decide⟩
  have hhex : numberText 16 (load sampleMem 0x2008 4) 4 charZero = [0x30, 0x30, 0x46, 0x46] := by
    decide +kernel
  refine ⟨by decide +kernel, [0x61, 0x62], _, rfl, ?_, _, rfl, _, [], ?_, hhex.symm, rfl⟩
  · simp only [ConvText]
    rw [hload]
    exact hstring
  · rfl

theorem print_counts_iff_sample :
    (PrintsExactly sampleMem 0x1000 0x2000 sampleFormat ↔
      [0x61, 0x62, 0x3D, 0x30, 0x30, 0x46, (0x46 : UInt8)].length < 2 ^ 31) ∧
      (PrintkCounts sampleMem 0 ⟨3, 41⟩ 0x1000 0x2000 ↔
        (printkPrefix 0 ⟨3, 41⟩).chars.length +
          [0x61, 0x62, 0x3D, 0x30, 0x30, 0x46, (0x46 : UInt8)].length < 2 ^ 31) :=
  print_counts_iff sampleFormat_means.1 sampleFormat_means.2 0 ⟨3, 41⟩

/-- Sixteen times `"%s"`, each for the same string of 128 MiB. -/
def hugeMem : Mem := fun a =>
  if 2 ^ 32 ≤ a then if a < 2 ^ 32 + 2 ^ 27 then 0x61 else 0
  else if 0x2000 ≤ a ∧ a < 0x2080 then if a % 8 = 4 then 1 else 0
  else if 0x1000 ≤ a ∧ a < 0x1020 then if a % 2 = 0 then 0x25 else 0x73
  else 0

def hugeFormat : Format := { items := List.replicate 16 (.conv ⟨false, none⟩ .s), cut := none }

/-- The text of `2 ^ 31` characters is printed, and its count is not an `int`. -/
theorem print_counts_overflow :
    ∃ text, StringAt hugeMem 0x1000 hugeFormat.chars ∧ Means hugeMem 0x2000 hugeFormat.items text ∧
      text.length = 2 ^ 31 ∧ ¬PrintsExactly hugeMem 0x1000 0x2000 hugeFormat := by
  have hfmt : StringAt hugeMem 0x1000 hugeFormat.chars := by decide +kernel
  have hargs : ∀ i, i < 16 → load hugeMem (0x2000 + 8 * i) 8 = 2 ^ 32 := by decide +kernel
  have hbytes : ∀ i, i < 2 ^ 27 → hugeMem (2 ^ 32 + i) = 0x61 := by
    intro i hi
    rw [hugeMem, if_pos (Nat.le_add_right _ _), if_pos (Nat.add_lt_add_left hi _)]
  have hnul : hugeMem (2 ^ 32 + 2 ^ 27) = 0 := by
    rw [hugeMem, if_pos (Nat.le_add_right _ _), if_neg (Nat.lt_irrefl _)]
  have hstring := stringAt_replicate (show (0x61 : UInt8) ≠ 0 by decide) hbytes hnul
  have hlen : (List.replicate 16 (List.replicate (2 ^ 27) (0x61 : UInt8))).flatten.length = 2 ^ 31 := by
    rw [List.length_flatten, List.map_replicate, List.length_replicate, List.sum_replicate_nat]
    decide
  have htext := means_strings hargs
    (Or.inr ⟨by decide, hstring, by rw [List.length_replicate]; decide⟩) ⟨false, none⟩
  refine ⟨_, hfmt, htext, hlen, fun hexact => ?_⟩
  have hshort := (printsExactly_iff hfmt htext).1 hexact
  omega

/-! ## The staging buffer -/

/-- `print_char`, on the buffer of its core. -/
def stageChar (t : Staging) (c : UInt8) : Staging :=
  let offset := t.offset + 1
  { buf := Function.update t.buf t.offset c
    offset := if tmpPrintkBufLen ≤ offset then 0 else offset }

/-- The calls of `print_char`, and the indices at which they store. -/
def stageChars : Staging → List UInt8 → Staging × List Nat
  | t, [] => (t, [])
  | t, c :: cs =>
      let (t', stored) := stageChars (stageChar t c) cs
      (t', t.offset :: stored)

/-- An `int` as a `size_t`. -/
def sizeOfInt (n : Int) : Nat := (n % 2 ^ 64).toNat

/-- `write_concurrent_cbuf(&kernel_log, tmp_printk_buf, length)`: the result, the log behind it, and
the indices at which the buffer is loaded. -/
def writeLog (log : CbufState) (t : Staging) (length : Nat) : Int × CbufState × List Nat :=
  let ((ret, _), log') := cbufStep log (.write (t.take length))
  (ret, log',
    if freeLen log.cbuf.length log.cbuf.rp log.cbuf.wp < length then [] else List.range length)

/-- What a call leaves behind. -/
structure PrintkResult where
  ret : Int
  log : CbufState
  staging : Staging
  /-- The cells of `tmp_printk_buf` that have been stored. -/
  stored : List Nat
  /-- The cells of `tmp_printk_buf` that have been loaded. -/
  loaded : List Nat

/-- The effect of `printk` once it is known what it prints, what it returns and how many bytes it has
written to the log. -/
def printkWrite (chars : List UInt8) (numPrinted : Int) (length : Nat) (t : Staging)
    (log : CbufState) : PrintkResult :=
  let (t', stored) := stageChars { t with offset := 0 } chars
  let (ret, log', loaded) := writeLog log t' length
  { ret := if ret = 0 then numPrinted else -1
    log := log'
    staging := t'
    stored := stored
    loaded := loaded }

/-- The end of `printk`, behind `PRINT`. -/
def printkFinish (coreId : Nat) (ts : Timestamp) (t : Staging) (log : CbufState) (s : PrintState) :
    PrintkResult :=
  printkWrite ((printkPrefix coreId ts).chars ++ s.printed) s.numPrinted
    (sizeOfInt (addInt (printkPrefix coreId ts).count s.numPrinted)) t log

/-- `printk`, when nothing interrupts it. -/
def printkCall (m : Mem) (fuel coreId : Nat) (ts : Timestamp) (fmt ap : Nat) (t : Staging)
    (log : CbufState) : Option PrintkResult :=
  if fmt = 0 then
    some
      { ret := 0
        log := log
        staging := t
        stored := []
        loaded := [] }
  else (printLoop m fuel (printStart fmt ap)).map (printkFinish coreId ts t log)

/-- `print_char` stores inside the buffer. -/
theorem stageChars_stored {t : Staging} (ht : t.offset < tmpPrintkBufLen) (chars : List UInt8) :
    ∀ i ∈ (stageChars t chars).2, i < tmpPrintkBufLen := by
  induction chars generalizing t with
  | nil => simp [stageChars]
  | cons c cs ih =>
      have hnext : (stageChar t c).offset < tmpPrintkBufLen := by
        simp only [stageChar]
        split_ifs with hend
        · decide
        · omega
      intro i hi
      rcases List.mem_cons.1 hi with rfl | hrest
      · exact ht
      · exact ih hnext i hrest

/-- Characters that fit behind those that are staged already. -/
theorem stageChars_take {t : Staging} {staged chars : List UInt8} (h : t.take staged.length = staged)
    (hoffset : chars ≠ [] → t.offset = staged.length)
    (hfits : staged.length + chars.length ≤ tmpPrintkBufLen) :
    (stageChars t chars).1.take (staged ++ chars).length = staged ++ chars := by
  induction chars generalizing t staged with
  | nil => simpa [stageChars] using h
  | cons c cs ih =>
      rw [List.length_cons] at hfits
      have hat := hoffset (List.cons_ne_nil c cs)
      have hstage : (stageChar t c).take (staged ++ [c]).length = staged ++ [c] := by
        have htake := take_update (c := c) h
        rw [List.length_append, List.length_singleton]
        simpa only [stageChar, hat, Staging.take] using htake
      have hnext : cs ≠ [] → (stageChar t c).offset = (staged ++ [c]).length := by
        intro hcs
        have hpos := List.length_pos_of_ne_nil hcs
        simp only [stageChar, hat, List.length_append, List.length_singleton]
        rw [if_neg (by omega)]
      have hrest := ih hstage hnext (by
        rw [List.length_append, List.length_singleton]
        omega)
      rwa [List.append_assoc, List.singleton_append] at hrest

/-- Left alone, the steps of a call are these calls of `print_char`. -/
theorem stageStep_chars (t : Staging) (f : PrintkFrame) (hpc : f.pc = .next) :
    ∃ n, runFrom (fun (s : Staging × PrintkFrame) (_ : Unit) => stageStep s.1 s.2) (t, f)
      (List.replicate n ()) = some ((stageChars t f.todo).1, { f with todo := [] }) := by
  obtain ⟨message, todo, count, pc⟩ := f
  obtain rfl : pc = .next := hpc
  induction todo generalizing t with
  | nil => exact ⟨0, rfl⟩
  | cons c cs ih =>
      obtain ⟨n, hn⟩ := ih (stageChar t c)
      by_cases hwrap : tmpPrintkBufLen ≤ t.offset + 1
      · refine ⟨n + 6, ?_⟩
        simp only [stageChar, if_pos hwrap] at hn
        simp only [List.replicate_succ, runFrom, stageStep, Option.bind_some, if_pos hwrap, stageChars,
          stageChar]
        exact hn
      · refine ⟨n + 5, ?_⟩
        simp only [stageChar, if_neg hwrap] at hn
        simp only [List.replicate_succ, runFrom, stageStep, Option.bind_some, if_neg hwrap, stageChars,
          stageChar]
        exact hn

/-! ## The write to the log -/

theorem take_length (t : Staging) (n : Nat) : (t.take n).length = n := by
  rw [Staging.take, List.length_map, List.length_range]

/-- A write for which there is room. -/
theorem writeLog_room {b L : Nat} {log : CbufState} {q : List UInt8} (h : HoldsFifo b L log q)
    (hL : L < 2 ^ 31) (t : Staging) {n : Nat} (hn : n ≤ L - 1 - q.length) :
    (writeLog log t n).1 = 0 ∧ (writeLog log t n).2.1.contents = q ++ t.take n ∧
      (writeLog log t n).2.2 = List.range n := by
  obtain ⟨hret, hholds⟩ := h.write hL (show (t.take n).length ≤ L - 1 - q.length by rwa [take_length])
  have hfree : ¬freeLen log.cbuf.length log.cbuf.rp log.cbuf.wp < n := by
    rw [h.free hL]
    omega
  simp only [writeLog, hret, if_neg hfree]
  exact ⟨trivial, hholds.contents hL, trivial⟩

/-- A write for which there is none. -/
theorem writeLog_full {b L : Nat} {log : CbufState} {q : List UInt8} (h : HoldsFifo b L log q)
    (hL : L < 2 ^ 31) (t : Staging) {n : Nat} (hn : L - 1 - q.length < n) :
    writeLog log t n = (-1, log, []) := by
  have hwrite := h.write_full hL (show L - 1 - q.length < (t.take n).length by rwa [take_length])
  have hfree : freeLen log.cbuf.length log.cbuf.rp log.cbuf.wp < n := by
    rw [h.free hL]
    exact hn
  simp only [writeLog, hwrite, if_pos hfree]

/-- A count as an `int`. -/
theorem toInt_cases (n : Nat) :
    (n % 2 ^ 32 < 2 ^ 31 ∧ toInt n = (n % 2 ^ 32 : Nat)) ∨
      (2 ^ 31 ≤ n % 2 ^ 32 ∧ toInt n = (n % 2 ^ 32 : Nat) - 2 ^ 32) := by
  obtain ⟨hlow, hhigh⟩ := toInt_bounds n
  have hmod : toInt n % (2 ^ 32 : Nat) = (n : Int) % (2 ^ 32 : Nat) := Int.bmod_emod
  omega

/-- The length that `write_circular_buffer` gets: the count of the characters when it is small, and
more than any log has room for when it is negative. -/
theorem sizeOfInt_cases (n : Nat) :
    (n % 2 ^ 32 < 2 ^ 31 ∧ sizeOfInt (toInt n) = n % 2 ^ 32) ∨
      (2 ^ 31 ≤ n % 2 ^ 32 ∧ 2 ^ 31 ≤ sizeOfInt (toInt n)) := by
  rw [sizeOfInt]
  rcases toInt_cases n with ⟨hlt, heq⟩ | ⟨hge, heq⟩
  · refine Or.inl ⟨hlt, ?_⟩
    omega
  · refine Or.inr ⟨hge, ?_⟩
    omega

/-! ## A whole call -/

/-- The call is over; if its result is a count, the log has received the prefix and the complete text;
if it is -1, nothing; and no cell outside the buffer of the core has been touched. -/
def LogsExactly (m : Mem) (coreId : Nat) (ts : Timestamp) (fmt ap : Nat) (text : List UInt8)
    (t : Staging) (log : CbufState) : Prop :=
  ∃ fuel r, (∀ k, printkCall m (fuel + k) coreId ts fmt ap t log = some r) ∧
    (0 ≤ r.ret → r.log.contents = log.contents ++ ((printkPrefix coreId ts).chars ++ text)) ∧
    (r.ret = -1 → r.log.contents = log.contents) ∧
    ∀ i ∈ r.stored ++ r.loaded, i < tmpPrintkBufLen

/-- A message whose count the log has no room for, or whose count has gone round so far that the result
is neither. -/
def CountRejected (coreId : Nat) (ts : Timestamp) (textLength room : Nat) : Prop :=
  let prefixLength := (printkPrefix coreId ts).chars.length
  room < (prefixLength + textLength) % 2 ^ 32 ∨
    (prefixLength + textLength) % 2 ^ 32 + 1 < prefixLength

theorem addInt_zero (n : Nat) : addInt 0 n = toInt n := by
  exact congrArg (fun x => Int.bmod x (2 ^ 32)) (Int.zero_add _)

theorem addInt_toInt (a b : Nat) : addInt a (toInt b) = toInt (a + b) := by
  have hsum := addInt_assoc 0 a b
  rw [addInt_zero] at hsum
  have hcomm : addInt (a : Int) (toInt b) = addInt (toInt b) a := by
    rw [addInt, addInt, Int.add_comm]
  have hcomm' : addInt (toInt b) a = addInt 0 ((b : Int) + a) := by
    rw [← addInt_zero]
    exact addInt_assoc 0 b a
  have hcast : ((b : Int) + a) = ((a + b : Nat) : Int) := by
    rw [Int.natCast_add, Int.add_comm]
  rw [hcomm, hcomm', hcast, addInt_zero]

/-- The length of the write is that of the message, as an `int` and then as a `size_t`. -/
theorem printk_length (coreId : Nat) (ts : Timestamp) (n : Nat) :
    sizeOfInt (addInt (printkPrefix coreId ts).count (toInt n)) =
      sizeOfInt (toInt ((printkPrefix coreId ts).chars.length + n)) := by
  rw [show (printkPrefix coreId ts).count = (printkPrefix coreId ts).chars.length from
    printkPrefix_counted coreId ts, addInt_toInt]

/-- A call with a text whose strings are not too long. -/
theorem printkCall_eq {m : Mem} {fmt ap : Nat} {f : Format} {text : List UInt8} (hnull : fmt ≠ 0)
    (hfmt : StringAt m fmt f.chars) (htext : Means m ap f.items text)
    (hshort : ShortTexts m ap f.items) (coreId : Nat) (ts : Timestamp) (t : Staging)
    (log : CbufState) (k : Nat) :
    printkCall m (f.items.length + (text.length + 1) + k) coreId ts fmt ap t log =
      some (printkWrite ((printkPrefix coreId ts).chars ++ text) (toInt text.length)
        (sizeOfInt (toInt ((printkPrefix coreId ts).chars.length + text.length))) t log) := by
  rw [printkCall, if_neg hnull, printLoop_format hfmt htext hshort, Option.map_some, addInt_zero,
    printkFinish, printk_length]

/-- A call that is over has one result. -/
theorem LogsExactly.of_eq {m : Mem} {coreId : Nat} {ts : Timestamp} {fmt ap fuel : Nat}
    {text : List UInt8} {t : Staging} {log : CbufState} {r : PrintkResult}
    (hcall : ∀ k, printkCall m (fuel + k) coreId ts fmt ap t log = some r) :
    LogsExactly m coreId ts fmt ap text t log ↔
      (0 ≤ r.ret → r.log.contents = log.contents ++ ((printkPrefix coreId ts).chars ++ text)) ∧
        (r.ret = -1 → r.log.contents = log.contents) ∧
        ∀ i ∈ r.stored ++ r.loaded, i < tmpPrintkBufLen := by
  constructor
  · rintro ⟨fuel', r', hcall', hP⟩
    have hsame : some r' = some r := by
      rw [← hcall' fuel, Nat.add_comm, hcall fuel']
    cases Option.some.inj hsame
    exact hP
  · intro hP
    exact ⟨fuel, r, hcall, hP⟩

section Write

variable {b L : Nat} {log : CbufState} {q chars : List UInt8} {num : Int} {n : Nat} {t : Staging}

theorem printkWrite_stored : ∀ i ∈ (printkWrite chars num n t log).stored, i < tmpPrintkBufLen :=
  stageChars_stored (show 0 < tmpPrintkBufLen by decide) chars

/-- The write is refused before the buffer is loaded. -/
theorem printkWrite_full (chars : List UInt8) (num : Int) (t : Staging) (h : HoldsFifo b L log q)
    (hL : L < 2 ^ 31) (hn : L - 1 - q.length < n) :
    (printkWrite chars num n t log).ret = -1 ∧ (printkWrite chars num n t log).log = log ∧
      (printkWrite chars num n t log).loaded = [] := by
  have hwrite := writeLog_full h hL (stageChars { t with offset := 0 } chars).1 hn
  simp [printkWrite, hwrite]

/-- The write succeeds, and loads as many cells as it is long. -/
theorem printkWrite_room (chars : List UInt8) (num : Int) (t : Staging) (h : HoldsFifo b L log q)
    (hL : L < 2 ^ 31) (hn : n ≤ L - 1 - q.length) :
    (printkWrite chars num n t log).ret = num ∧
      (printkWrite chars num n t log).log.contents =
        q ++ (stageChars { t with offset := 0 } chars).1.take n ∧
      (printkWrite chars num n t log).loaded = List.range n := by
  obtain ⟨hret, hcontents, hloaded⟩ :=
    writeLog_room h hL (stageChars { t with offset := 0 } chars).1 hn
  refine ⟨?_, hcontents, hloaded⟩
  have hbranch : (printkWrite chars num n t log).ret =
      if (writeLog log (stageChars { t with offset := 0 } chars).1 n).1 = 0 then num else -1 := rfl
  rw [hbranch, if_pos hret]

/-- A message that is not longer than the buffer is staged as it is. -/
theorem stageChars_message (hfits : chars.length ≤ tmpPrintkBufLen) :
    (stageChars { t with offset := 0 } chars).1.take chars.length = chars := by
  have hnone : ({ t with offset := 0 } : Staging).take ([] : List UInt8).length = [] := rfl
  exact stageChars_take hnone (fun _ => rfl) (by simpa using hfits)

end Write

/-- A call whose message fits in the buffer, or whose write is refused. -/
theorem logsExactly_of_fits {m : Mem} {fmt ap : Nat} {f : Format} {text : List UInt8}
    (hnull : fmt ≠ 0) (hfmt : StringAt m fmt f.chars) (htext : Means m ap f.items text)
    (hshort : ShortTexts m ap f.items) {b : Nat} {log : CbufState} {q : List UInt8}
    (hlog : HoldsFifo b logBufSize log q) (coreId : Nat) (ts : Timestamp) (t : Staging)
    (hfits : (printkPrefix coreId ts).chars.length + text.length ≤ tmpPrintkBufLen ∨
      CountRejected coreId ts text.length (logBufSize - 1 - q.length)) :
    LogsExactly m coreId ts fmt ap text t log := by
  have hL : logBufSize < 2 ^ 31 := by decide
  obtain ⟨hlow, hhigh⟩ := printkPrefix_length coreId ts
  rw [LogsExactly.of_eq (printkCall_eq hnull hfmt htext hshort coreId ts t log), hlog.contents hL]
  generalize hplen : (printkPrefix coreId ts).chars.length = plen at hfits hlow hhigh ⊢
  simp only [CountRejected, hplen] at hfits
  generalize hn : sizeOfInt (toInt (plen + text.length)) = n
  have hsize := sizeOfInt_cases (plen + text.length)
  rw [hn] at hsize
  have hmessage : ((printkPrefix coreId ts).chars ++ text).length = plen + text.length := by
    rw [List.length_append, hplen]
  -- `write_concurrent_cbuf` takes all of the bytes or none
  by_cases hroom : n ≤ logBufSize - 1 - q.length
  · obtain ⟨hret, hcontents, hloaded⟩ := printkWrite_room ((printkPrefix coreId ts).chars ++ text)
      (toInt text.length) t hlog hL hroom
    have hnum := toInt_cases text.length
    refine ⟨fun hpos => ?_, fun hneg => ?_, ?_⟩
    · rw [hret] at hpos
      -- the write has not been refused, so the message is one that fits
      have hshort : plen + text.length ≤ tmpPrintkBufLen := by
        simp only [tmpPrintkBufLen] at hfits ⊢
        omega
      have hexact : n = ((printkPrefix coreId ts).chars ++ text).length := by
        simp only [tmpPrintkBufLen] at hshort
        omega
      rw [hcontents, hexact, stageChars_message (by rw [hmessage]; exact hshort)]
    · rw [hret] at hneg
      simp only [tmpPrintkBufLen] at hfits
      omega
    · intro i hi
      rcases List.mem_append.1 hi with hstored | hload
      · exact printkWrite_stored i hstored
      · rw [hloaded, List.mem_range] at hload
        simp only [tmpPrintkBufLen] at hfits ⊢
        omega
  · obtain ⟨hret, hsame, hloaded⟩ := printkWrite_full ((printkPrefix coreId ts).chars ++ text)
      (toInt text.length) t hlog hL (Nat.lt_of_not_le hroom)
    refine ⟨fun hpos => ?_, fun _ => ?_, ?_⟩
    · rw [hret] at hpos
      omega
    · rw [hsame, hlog.contents hL]
    · intro i hi
      rw [hloaded, List.append_nil] at hi
      exact printkWrite_stored i hi

/-- With strings that are not too long, no other call does so: either it loads cells of the next core,
or its count has gone round and the log receives less than the message. -/
theorem fits_of_logsExactly {m : Mem} {fmt ap : Nat} {f : Format} {text : List UInt8}
    (hnull : fmt ≠ 0) (hfmt : StringAt m fmt f.chars) (htext : Means m ap f.items text)
    (hshort : ShortTexts m ap f.items) {b : Nat} {log : CbufState} {q : List UInt8}
    (hlog : HoldsFifo b logBufSize log q) (coreId : Nat) (ts : Timestamp) (t : Staging)
    (hexact : LogsExactly m coreId ts fmt ap text t log) :
    (printkPrefix coreId ts).chars.length + text.length ≤ tmpPrintkBufLen ∨
      CountRejected coreId ts text.length (logBufSize - 1 - q.length) := by
  have hL : logBufSize < 2 ^ 31 := by decide
  obtain ⟨hlow, hhigh⟩ := printkPrefix_length coreId ts
  rw [LogsExactly.of_eq (printkCall_eq hnull hfmt htext hshort coreId ts t log), hlog.contents hL]
    at hexact
  generalize hplen : (printkPrefix coreId ts).chars.length = plen at hexact hlow hhigh ⊢
  simp only [CountRejected, hplen]
  generalize hn : sizeOfInt (toInt (plen + text.length)) = n at hexact
  have hsize := sizeOfInt_cases (plen + text.length)
  rw [hn] at hsize
  by_cases hroom : n ≤ logBufSize - 1 - q.length
  · obtain ⟨hret, hcontents, hloaded⟩ := printkWrite_room ((printkPrefix coreId ts).chars ++ text)
      (toInt text.length) t hlog hL hroom
    obtain ⟨hcount, hminus, hinside⟩ := hexact
    rw [hret, hcontents] at hcount hminus
    have hnum := toInt_cases text.length
    -- the cells that are loaded lie in the buffer
    have hn1024 : n ≤ tmpPrintkBufLen := by
      by_contra hlong
      have hmem : tmpPrintkBufLen ∈ (printkWrite ((printkPrefix coreId ts).chars ++ text)
          (toInt text.length) n t log).stored ++ (printkWrite ((printkPrefix coreId ts).chars ++ text)
          (toInt text.length) n t log).loaded := by
        rw [hloaded, List.mem_append, List.mem_range]
        exact Or.inr (Nat.lt_of_not_le hlong)
      exact absurd (hinside _ hmem) (Nat.lt_irrefl _)
    simp only [tmpPrintkBufLen, logBufSize] at hn1024 hroom ⊢
    by_cases hpos : 0 ≤ toInt text.length
    · -- the log has received as many bytes as the message has
      have hlen := congrArg List.length (List.append_cancel_left (hcount hpos))
      rw [take_length, List.length_append, hplen] at hlen
      omega
    · by_cases hone : toInt text.length = -1
      · have hlen := congrArg List.length (hminus hone)
        rw [List.length_append, take_length] at hlen
        omega
      · omega
  · simp only [logBufSize] at hroom ⊢
    omega

/-- The log receives the complete message or nothing, and no cell outside the buffer is touched, when
the message is not longer than the buffer or its count is refused; and for strings whose length is an
`int`, only then. -/
theorem printk_logs_iff {m : Mem} {fmt ap : Nat} {f : Format} {text : List UInt8} (hnull : fmt ≠ 0)
    (hfmt : StringAt m fmt f.chars) (htext : Means m ap f.items text) {b : Nat} {log : CbufState}
    {q : List UInt8} (hlog : HoldsFifo b logBufSize log q) (coreId : Nat) (ts : Timestamp)
    (t : Staging) :
    ((printkPrefix coreId ts).chars.length + text.length ≤ tmpPrintkBufLen ∨
        ShortTexts m ap f.items ∧
          CountRejected coreId ts text.length (logBufSize - 1 - q.length) →
      LogsExactly m coreId ts fmt ap text t log) ∧
    (ShortTexts m ap f.items → LogsExactly m coreId ts fmt ap text t log →
      (printkPrefix coreId ts).chars.length + text.length ≤ tmpPrintkBufLen ∨
        CountRejected coreId ts text.length (logBufSize - 1 - q.length)) := by
  constructor
  · rintro (hfits | ⟨hshort, hrejected⟩)
    · have hlen : text.length < 2 ^ 31 := by
        simp only [tmpPrintkBufLen] at hfits
        omega
      exact logsExactly_of_fits hnull hfmt htext (htext.shortTexts hlen) hlog coreId ts t (Or.inl hfits)
    · exact logsExactly_of_fits hnull hfmt htext hshort hlog coreId ts t (Or.inr hrejected)
  · intro hshort hexact
    exact fits_of_logsExactly hnull hfmt htext hshort hlog coreId ts t hexact

/-- An empty log. -/
def emptyLog : CbufState := ⟨fun _ => 0, initCircularBuffer ⟨0, 0, 0, 0⟩ 0x8000 logBufSize⟩

theorem emptyLog_holds : HoldsFifo 0x8000 logBufSize emptyLog [] :=
  HoldsFifo.init _ _ (by decide) (by decide)

/-- `printk("%s=%04x", "ab", 255)`. -/
theorem printk_logs_sample :
    emptyLog.contents = [] ∧
      LogsExactly sampleMem 0 ⟨3, 41⟩ 0x1000 0x2000 [0x61, 0x62, 0x3D, 0x30, 0x30, 0x46, 0x46]
        ⟨fun _ => 0, 0⟩ emptyLog :=
  ⟨emptyLog_holds.contents (by decide),
    (printk_logs_iff (by decide) sampleFormat_means.1 sampleFormat_means.2 emptyLog_holds 0 ⟨3, 41⟩
      ⟨fun _ => 0, 0⟩).1 (Or.inl (by decide +kernel))⟩

/-- `"%s"` and a string of 1100 characters. -/
def longMem : Mem := fun a =>
  if 0x3000 ≤ a then if a < 0x3000 + 1100 then 0x61 else 0
  else if a = 0x2001 then 0x30 else if a = 0x1000 then 0x25 else if a = 0x1001 then 0x73 else 0

def longFormat : Format := { items := [.conv ⟨false, none⟩ .s], cut := none }

/-- The message is longer than the buffer, and the log has room for it. -/
theorem printk_logs_long :
    StringAt longMem 0x1000 longFormat.chars ∧
      Means longMem 0x2000 longFormat.items (List.replicate 1100 0x61) ∧
      HoldsFifo 0x8000 logBufSize emptyLog [] ∧
      ¬LogsExactly longMem 0 ⟨3, 41⟩ 0x1000 0x2000 (List.replicate 1100 0x61) ⟨fun _ => 0, 0⟩
        emptyLog := by
  have hfmt : StringAt longMem 0x1000 longFormat.chars := by decide +kernel
  have hload : load longMem 0x2000 8 = 0x3000 := by decide +kernel
  have hstring : StringAt longMem 0x3000 (List.replicate 1100 0x61) := by
    refine stringAt_replicate (by decide) ?_ (by decide +kernel)
    intro i hi
    rw [longMem, if_pos (Nat.le_add_right _ _), if_pos (Nat.add_lt_add_left hi _)]
  have htext : Means longMem 0x2000 longFormat.items (List.replicate 1100 0x61) := by
    refine ⟨List.replicate 1100 0x61, [], (List.append_nil _).symm, ?_, rfl⟩
    simp only [ConvText]
    rw [hload]
    exact Or.inr ⟨by decide, hstring, by rw [List.length_replicate]; decide⟩
  have hlen : (List.replicate 1100 (0x61 : UInt8)).length = 1100 := List.length_replicate
  refine ⟨hfmt, htext, emptyLog_holds, fun hexact => ?_⟩
  have hfits := fits_of_logsExactly (by decide) hfmt htext (htext.shortTexts (by rw [hlen]; decide))
    emptyLog_holds 0 ⟨3, 41⟩ ⟨fun _ => 0, 0⟩ hexact
  obtain ⟨hlow, hhigh⟩ := printkPrefix_length 0 ⟨3, 41⟩
  simp only [CountRejected, hlen, tmpPrintkBufLen, logBufSize, List.length_nil] at hfits
  omega

end Kernel
end ToutOS
