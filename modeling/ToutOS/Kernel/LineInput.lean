import Mathlib.Data.List.Basic
import Mathlib.Data.List.Range
import Mathlib.Data.List.ReduceOption
import ToutOS.Kernel.Uart

/-!
# LineInput — what a reader gets of the characters that arrive

`Uart` follows one reader through `read_stdin` step by step.  Here any number of calls of
`read_stdin` are placed among the received characters: a call takes effect in the section under
`uib_lock` in which it finds a line (`lineStep`), and `uartRun_lineRun` shows that the runs of
`Uart` are runs of this kind.

* `contents`, `editLine` — the buffer as a list, and what a character does to that list.
* `LineSys` — the buffer with a record: whether a newline has been processed and only ordinary
  characters since (`pending`), the lines that were complete when their newline was stored
  (`lines`), and what the successful reads returned.
* `lineRun_ready_iff` — the readers' condition holds after every newline in exactly the runs in
  which no newline meets a full buffer and nothing is typed ahead into a buffer with room.
* `lineRun_kept_iff` — completed lines stay in the buffer until they are read in exactly the runs in
  which no erase comes while the last character is a newline.
-/

namespace ToutOS
namespace Kernel

open Base

/-! ## The buffer as a list -/

/-- The characters stored, first one first. -/
def contents (u : UartIn) : List UInt8 := (List.range u.uibIndex).map u.uartInBuf

/-- `c == '\r'` or `c == '\n'`: a line ends. -/
def endsLine (c : UInt8) : Bool := c == charReturn || c == charNewline

/-- What is stored for `c`. -/
def stored (c : UInt8) : UInt8 := if c == charReturn then charNewline else c

/-- What `to_line_discipline` does to the characters stored. -/
def editLine (l : List UInt8) (c : UInt8) : List UInt8 :=
  if isErase c then l.dropLast
  else if l.length < uartInBufLen - 1 then l ++ [stored c]
  else l

@[simp] theorem length_contents (u : UartIn) : (contents u).length = u.uibIndex := by
  simp [contents]

theorem contents_succ (f : Nat → UInt8) (n : Nat) :
    contents ⟨f, n + 1⟩ = contents ⟨f, n⟩ ++ [f n] := by
  simp [contents, List.range_succ]

theorem contents_toLineDiscipline (u : UartIn) (c : UInt8) :
    contents (toLineDiscipline u c).1 = editLine (contents u) c := by
  by_cases herase : isErase c = true
  · simp only [toLineDiscipline, editLine, if_pos herase]
    by_cases hpos : 0 < u.uibIndex
    · obtain ⟨n, hn⟩ := Nat.exists_eq_succ_of_ne_zero (Nat.pos_iff_ne_zero.1 hpos)
      have hu : u = ⟨u.uartInBuf, n + 1⟩ := by cases u; exact congrArg _ hn
      rw [if_pos hpos, hu, contents_succ, List.dropLast_concat]
      rfl
    · have hnil : contents u = [] := List.length_eq_zero_iff.1 (by rw [length_contents]; omega)
      rw [if_neg hpos, hnil]
      rfl
  · simp only [toLineDiscipline, editLine, if_neg herase, length_contents]
    by_cases hroom : u.uibIndex < uartInBufLen - 1
    · rw [if_pos hroom, if_pos hroom, contents_succ, Function.update_self]
      refine congrArg (· ++ [stored c]) (List.map_congr_left fun k hk => ?_)
      exact Function.update_of_ne (Nat.ne_of_lt (List.mem_range.1 hk)) _ _
    · rw [if_neg hroom, if_neg hroom]

/-- The readers' condition, on the list. -/
theorem lineReady_iff (u : UartIn) :
    lineReady u = true ↔ (contents u).getLast? = some charNewline := by
  obtain ⟨f, n⟩ := u
  cases n with
  | zero => simp [lineReady, contents]
  | succ n => simp [lineReady, contents_succ]

theorem copyLine_of_le {u : UartIn} {count : Nat} (h : u.uibIndex ≤ count) :
    copyLine u count = (some (contents u), { u with uibIndex := 0 }) :=
  if_neg (Nat.not_lt.2 h)

theorem endsLine_not_erase {c : UInt8} (h : endsLine c = true) : isErase c = false := by
  simp only [endsLine, Bool.or_eq_true, beq_iff_eq] at h
  rcases h with rfl | rfl <;> rfl

theorem endsLine_of_erase {c : UInt8} (h : isErase c = true) : endsLine c = false := by
  cases hend : endsLine c with
  | false => rfl
  | true =>
      rw [endsLine_not_erase hend] at h
      cases h

theorem stored_eq_newline (c : UInt8) : stored c = charNewline ↔ endsLine c = true := by
  by_cases h : c = charReturn <;> simp [stored, endsLine, h]

/-! ## Characters and reads -/

inductive LineAction
  /-- `to_line_discipline(c)`. -/
  | char (c : UInt8)
  /-- A call of `read_stdin(buf, count)` finds a line. -/
  | read (count : Nat)
  deriving DecidableEq, Repr

structure LineSys where
  input : UartIn
  /-- A newline has been processed, and only ordinary characters since; no read has taken it. -/
  pending : Bool
  /-- For each newline stored since the last successful read, the buffer up to it. -/
  lines : List (List UInt8)
  /-- The successful reads, last one first: `lines` before it, and what it returned. -/
  returned : List (List (List UInt8) × List UInt8)

/-- A newline is stored for `c`. -/
def storesNewline (u : UartIn) (c : UInt8) : Bool :=
  endsLine c && decide (u.uibIndex < uartInBufLen - 1)

def lineStep (s : LineSys) : LineAction → Option LineSys
  | .char c =>
      let input := (toLineDiscipline s.input c).1
      some
        { s with
          input := input
          pending := endsLine c || (s.pending && !isErase c)
          lines := if storesNewline s.input c then contents input :: s.lines else s.lines }
  | .read count =>
      if lineReady s.input then
        some <| match copyLine s.input count with
          | (none, input) => { s with input := input }
          | (some out, input) =>
              { input := input
                pending := false
                lines := []
                returned := (s.lines, out) :: s.returned }
      else none

/-- An empty buffer. -/
def lineInit (buf : Nat → UInt8) : LineSys :=
  { input := { uartInBuf := buf, uibIndex := 0 }
    pending := false
    lines := []
    returned := [] }

/-- `read_stdin` with too small a `count` changes nothing. -/
theorem lineStep_read_short {s s' : LineSys} {count : Nat} (hcount : count < s.input.uibIndex)
    (hstep : lineStep s (.read count) = some s') : s' = s := by
  simp only [lineStep, copyLine, if_pos hcount, Option.ite_none_right_eq_some,
    Option.some.injEq] at hstep
  exact hstep.2.symm

/-- A successful read returns the whole buffer and empties it. -/
theorem lineStep_read {s s' : LineSys} {count : Nat} (hcount : s.input.uibIndex ≤ count)
    (hstep : lineStep s (.read count) = some s') :
    lineReady s.input = true ∧ contents s'.input = [] ∧ s'.pending = false ∧ s'.lines = [] ∧
      s'.returned = (s.lines, contents s.input) :: s.returned := by
  simp only [lineStep, copyLine_of_le hcount, Option.ite_none_right_eq_some,
    Option.some.injEq] at hstep
  obtain ⟨hready, rfl⟩ := hstep
  exact ⟨hready, rfl, rfl, rfl, rfl⟩

/-! ## The condition of the readers -/

/-- A newline that nothing but ordinary characters has followed is seen by the readers. -/
def ReadyAfterNewline (s : LineSys) : Prop := s.pending = true → lineReady s.input = true

/-- A newline finds room, or a newline at the end of the full buffer; an ordinary character that
comes after a newline finds the buffer full. -/
def KeepsReady (s : LineSys) : LineAction → Prop
  | .char c =>
      if endsLine c then s.input.uibIndex < uartInBufLen - 1 ∨ lineReady s.input = true
      else if isErase c then True
      else s.pending = true → ¬ s.input.uibIndex < uartInBufLen - 1
  | .read _ => True

instance (s : LineSys) : ∀ a, Decidable (KeepsReady s a)
  | .char c => by
      unfold KeepsReady
      infer_instance
  | .read _ => isTrue trivial

theorem lineStep_ready_iff {s s' : LineSys} {a : LineAction} (h : ReadyAfterNewline s)
    (hstep : lineStep s a = some s') : ReadyAfterNewline s' ↔ KeepsReady s a := by
  cases a with
  | char c =>
      simp only [lineStep, Option.some.injEq] at hstep
      subst hstep
      simp only [ReadyAfterNewline, KeepsReady, lineReady_iff, contents_toLineDiscipline]
      by_cases hend : endsLine c = true
      · have herase := endsLine_not_erase hend
        rw [if_pos hend, editLine, herase, length_contents, hend]
        by_cases hroom : s.input.uibIndex < uartInBufLen - 1
        · simp [hroom, (stored_eq_newline c).2 hend]
        · simp [hroom]
      · rw [if_neg hend]
        by_cases herase : isErase c = true
        · simp [hend, herase]
        · rw [if_neg herase, editLine, if_neg herase, length_contents]
          by_cases hroom : s.input.uibIndex < uartInBufLen - 1
          · -- the character becomes the last one, and it is no newline
            have hlast : stored c ≠ charNewline := fun he => hend ((stored_eq_newline c).1 he)
            simp [hend, herase, hroom, hlast]
          · have hkept := h
            simp only [ReadyAfterNewline, lineReady_iff] at hkept
            simpa [hend, herase, hroom] using hkept
  | read count =>
      by_cases hcount : s.input.uibIndex ≤ count
      · obtain ⟨-, -, hpending, -, -⟩ := lineStep_read hcount hstep
        simp [ReadyAfterNewline, KeepsReady, hpending]
      · rw [lineStep_read_short (Nat.lt_of_not_le hcount) hstep]
        exact iff_of_true h trivial

/-- In exactly the runs in which no newline is dropped behind an unfinished line and nothing is
stored behind a finished one: after a newline, and while ordinary characters follow it, the readers'
condition holds until the line is read. -/
theorem lineRun_ready_iff {buf : Nat → UInt8} {acts : List LineAction} {s : LineSys}
    (hrun : runFrom lineStep (lineInit buf) acts = some s) :
    Always lineStep ReadyAfterNewline (lineInit buf) acts ↔
      Along lineStep KeepsReady (lineInit buf) acts :=
  always_iff_along (I := fun _ => True) (fun _ _ _ _ _ => trivial)
    (fun _ _ _ _ h hstep => lineStep_ready_iff h hstep) trivial (fun h => by cases h) hrun

/-- Two lines, each read before the next one begins. -/
theorem lineRun_ready_two :
    ∃ s, runFrom lineStep (lineInit fun _ => 0)
        [.char 0x61, .char 0x0D, .read 16, .char 0x62, .char 0x7F, .char 0x0A] = some s ∧
      lineReady s.input = true ∧
      Always lineStep ReadyAfterNewline (lineInit fun _ => 0)
        [.char 0x61, .char 0x0D, .read 16, .char 0x62, .char 0x7F, .char 0x0A] := by
  refine ⟨_, rfl, by decide, ?_⟩
  exact (@lineRun_ready_iff _ [.char 0x61, .char 0x0D, .read 16, .char 0x62, .char 0x7F,
    .char 0x0A] _ rfl).2 (by decide)

/-- One character typed ahead hides a finished line; a newline that meets a full buffer is lost. -/
theorem lineRun_not_ready :
    (∃ s, runFrom lineStep (lineInit fun _ => 0) [.char 0x0D, .char 0x61] = some s ∧
      ¬ ReadyAfterNewline s) ∧
    ∃ s, runFrom lineStep (lineInit fun _ => 0)
        (List.replicate 255 (.char 0x61) ++ [.char 0x0D]) = some s ∧
      ¬ ReadyAfterNewline s := by
  constructor
  · refine ⟨_, rfl, fun h => ?_⟩
    exact absurd (h rfl) (by decide)
  · have hend : (runFrom lineStep (lineInit fun _ => 0)
        (List.replicate 255 (.char 0x61) ++ [.char 0x0D])).map
        (fun s => (s.pending, lineReady s.input)) = some (true, false) := by
      decide +kernel
    obtain ⟨s, hrun, hs⟩ := Option.map_eq_some_iff.1 hend
    obtain ⟨hpending, hready⟩ := Prod.mk.inj hs
    refine ⟨s, hrun, fun h => ?_⟩
    rw [h hpending] at hready
    cases hready

/-! ## Completed lines -/

/-- Every completed line is still at the start of the buffer, and every read has returned the lines
that were complete. -/
def LinesKept (s : LineSys) : Prop :=
  (∀ l ∈ s.lines, l <+: contents s.input) ∧ ∀ r ∈ s.returned, ∀ l ∈ r.1, l <+: r.2

/-- No erase comes while the last character is a newline. -/
def KeepsLines (s : LineSys) : LineAction → Prop
  | .char c => ¬ (isErase c = true ∧ lineReady s.input = true)
  | .read _ => True

instance (s : LineSys) : ∀ a, Decidable (KeepsLines s a)
  | .char c => inferInstanceAs (Decidable (¬ (isErase c = true ∧ lineReady s.input = true)))
  | .read _ => isTrue trivial

/-- The buffer up to any newline in it is one of the completed lines, and these end in a newline. -/
structure LinesInv (s : LineSys) : Prop where
  complete : ∀ l, l ++ [charNewline] <+: contents s.input → l ++ [charNewline] ∈ s.lines
  ended : ∀ l ∈ s.lines, l.getLast? = some charNewline

theorem lineInit_inv (buf : Nat → UInt8) : LinesInv (lineInit buf) :=
  { complete := fun l h => by
      have := h.length_le
      simp [lineInit] at this
    ended := fun l h => by cases h }

theorem lineStep_linesInv {s s' : LineSys} {a : LineAction} (h : LinesInv s)
    (hstep : lineStep s a = some s') : LinesInv s' := by
  cases a with
  | char c =>
      simp only [lineStep, Option.some.injEq] at hstep
      subst hstep
      by_cases herase : isErase c = true
      · have hend := endsLine_of_erase herase
        refine ⟨fun l hl => ?_, fun l hl => ?_⟩
        · simp only [contents_toLineDiscipline, editLine, if_pos herase] at hl
          simpa [storesNewline, hend] using h.complete l (hl.trans (List.dropLast_prefix _))
        · exact h.ended l (by simpa [storesNewline, hend] using hl)
      · by_cases hroom : s.input.uibIndex < uartInBufLen - 1
        · have hnew : contents (toLineDiscipline s.input c).1 = contents s.input ++ [stored c] := by
            rw [contents_toLineDiscipline, editLine, if_neg herase, length_contents, if_pos hroom]
          have hstores : storesNewline s.input c = endsLine c := by
            simp [storesNewline, hroom]
          refine ⟨fun l hl => ?_, fun l hl => ?_⟩
          · simp only [hnew, hstores] at hl ⊢
            -- the newline is the one just stored, or an earlier one
            rcases List.prefix_concat_iff.1 hl with heq | hold
            · have hlast : charNewline = stored c := (List.append_inj' heq rfl).2 |> List.cons.inj |>.1
              rw [if_pos ((stored_eq_newline c).1 hlast.symm), heq]
              exact List.mem_cons_self
            · have hmem := h.complete l hold
              by_cases hend : endsLine c = true
              · rw [if_pos hend]
                exact List.mem_cons_of_mem _ hmem
              · rwa [if_neg hend]
          · simp only [hnew, hstores] at hl
            by_cases hend : endsLine c = true
            · rw [if_pos hend] at hl
              rcases List.mem_cons.1 hl with rfl | hl
              · rw [List.getLast?_concat, (stored_eq_newline c).2 hend]
              · exact h.ended l hl
            · rw [if_neg hend] at hl
              exact h.ended l hl
        · have hsame : contents (toLineDiscipline s.input c).1 = contents s.input := by
            rw [contents_toLineDiscipline, editLine, if_neg herase, length_contents, if_neg hroom]
          have hstores : storesNewline s.input c = false := by
            simp [storesNewline, hroom]
          refine ⟨fun l hl => ?_, fun l hl => ?_⟩
          · simp only [hsame, hstores] at hl ⊢
            exact h.complete l hl
          · exact h.ended l (by simpa [hstores] using hl)
  | read count =>
      by_cases hcount : s.input.uibIndex ≤ count
      · obtain ⟨-, hempty, -, hlines, -⟩ := lineStep_read hcount hstep
        refine ⟨fun l hl => ?_, fun l hl => ?_⟩
        · rw [hempty] at hl
          simp at hl
        · rw [hlines] at hl
          cases hl
      · rwa [lineStep_read_short (Nat.lt_of_not_le hcount) hstep]

/-- Without its last character the buffer still begins with every completed line, unless it ends with
one. -/
theorem LinesInv.dropLast_iff {s : LineSys} (hi : LinesInv s)
    (hkept : ∀ l ∈ s.lines, l <+: contents s.input) :
    (∀ l ∈ s.lines, l <+: (contents s.input).dropLast) ↔ ¬lineReady s.input = true := by
  constructor
  · intro hshort hready
    -- the whole buffer is a completed line, and it is longer than what is left
    obtain ⟨l, hl⟩ := List.getLast?_eq_some_iff.1 ((lineReady_iff _).1 hready)
    have hmem := hi.complete l (by simp only [hl, List.prefix_refl])
    have := (hshort _ hmem).length_le
    rw [hl, List.dropLast_concat, List.length_append, List.length_singleton] at this
    omega
  · intro hnot l hl
    obtain ⟨rest, hrest⟩ := hkept l hl
    rcases List.eq_nil_or_concat rest with rfl | ⟨rest, x, rfl⟩
    · -- the line is all of the buffer, which does not end with a newline
      rw [List.append_nil] at hrest
      refine absurd ((lineReady_iff _).2 ?_) hnot
      rw [← hrest]
      exact hi.ended l hl
    · rw [← hrest, List.concat_eq_append, ← List.append_assoc, List.dropLast_concat]
      exact List.prefix_append _ _

/-- A character that does not erase only appends. -/
theorem contents_grows {input : UartIn} {c : UInt8} (herase : ¬isErase c = true) :
    contents input <+: contents (toLineDiscipline input c).1 := by
  rw [contents_toLineDiscipline, editLine, if_neg herase]
  by_cases hroom : (contents input).length < uartInBufLen - 1
  · rw [if_pos hroom]
    exact List.prefix_append _ _
  · simp only [if_neg hroom, List.prefix_refl]

theorem lineStep_kept_iff {s s' : LineSys} {a : LineAction} (hi : LinesInv s) (h : LinesKept s)
    (hstep : lineStep s a = some s') : LinesKept s' ↔ KeepsLines s a := by
  cases a with
  | char c =>
      simp only [lineStep, Option.some.injEq] at hstep
      subst hstep
      simp only [LinesKept, KeepsLines]
      by_cases herase : isErase c = true
      · have hend := endsLine_of_erase herase
        simp only [storesNewline, hend, Bool.false_and, Bool.false_eq_true, if_false,
          contents_toLineDiscipline, editLine, herase, if_true, true_and]
        rw [← hi.dropLast_iff h.1]
        exact and_iff_left h.2
      · refine iff_of_true ⟨fun l hl => ?_, h.2⟩ (fun hbad => herase hbad.1)
        have hgrow := @contents_grows s.input c herase
        by_cases hstores : storesNewline s.input c = true
        · rw [if_pos hstores] at hl
          rcases List.mem_cons.1 hl with rfl | hl
          · exact List.prefix_refl _
          · exact (h.1 l hl).trans hgrow
        · rw [if_neg hstores] at hl
          exact (h.1 l hl).trans hgrow
  | read count =>
      refine iff_of_true ?_ trivial
      by_cases hcount : s.input.uibIndex ≤ count
      · obtain ⟨-, -, -, hlines, hreturned⟩ := lineStep_read hcount hstep
        refine ⟨fun l hl => ?_, fun r hr => ?_⟩
        · rw [hlines] at hl
          cases hl
        · rw [hreturned] at hr
          rcases List.mem_cons.1 hr with rfl | hr
          · exact h.1
          · exact h.2 r hr
      · rwa [lineStep_read_short (Nat.lt_of_not_le hcount) hstep]

/-- In exactly the runs in which no erase comes while the last character is a newline: from the
moment a newline is stored, the buffer up to it stays as it is until the next successful read, and
that read returns it first.  A read with too small a `count` changes nothing in any run. -/
theorem lineRun_kept_iff {buf : Nat → UInt8} {acts : List LineAction} {s : LineSys}
    (hrun : runFrom lineStep (lineInit buf) acts = some s) :
    (Always lineStep LinesKept (lineInit buf) acts ↔
      Along lineStep KeepsLines (lineInit buf) acts) ∧
    ∀ count s', count < s.input.uibIndex → lineStep s (.read count) = some s' → s' = s := by
  have hinit : LinesKept (lineInit buf) := ⟨nofun, nofun⟩
  refine ⟨?_, fun count s' => lineStep_read_short⟩
  exact always_iff_along (fun _ _ _ h hstep => lineStep_linesInv h hstep)
    (fun _ _ _ hi h hstep => lineStep_kept_iff hi h hstep) (lineInit_inv buf) hinit hrun

/-- A finished line, more typed behind it and erased again, the read. -/
theorem lineRun_kept_typed :
    ∃ s, runFrom lineStep (lineInit fun _ => 0)
        [.char 0x61, .char 0x0A, .char 0x62, .char 0x7F, .read 1, .read 16] = some s ∧
      s.returned = [([[0x61, 0x0A]], [0x61, 0x0A])] ∧
      Always lineStep LinesKept (lineInit fun _ => 0)
        [.char 0x61, .char 0x0A, .char 0x62, .char 0x7F, .read 1, .read 16] := by
  refine ⟨_, rfl, by decide, ?_⟩
  exact (@lineRun_kept_iff _ [.char 0x61, .char 0x0A, .char 0x62, .char 0x7F, .read 1,
    .read 16] _ rfl).1.2 (by decide)

/-- DEL erases the newline of a finished line: the read returns the line in pieces with what came
after it. -/
theorem lineRun_edited :
    ∃ s, runFrom lineStep (lineInit fun _ => 0)
        [.char 0x61, .char 0x0A, .char 0x7F, .char 0x62, .char 0x0A, .read 16] = some s ∧
      s.returned = [([[0x61, 0x62, 0x0A], [0x61, 0x0A]], [0x61, 0x62, 0x0A])] ∧ ¬ LinesKept s := by
  refine ⟨_, rfl, by decide, fun h => ?_⟩
  exact absurd (h.2 _ List.mem_cons_self [0x61, 0x0A] (by decide)) (by decide)

/-! ## The reader of `Uart` -/

/-- `read_stdin` has found a line and still holds the lock. -/
def ReaderPc.hasLine : ReaderPc → Bool
  | .setRunning | .removeQueue | .copy => true
  | _ => false

/-- The buffer and the results are those of a run of characters and reads. -/
structure FollowsLine (s : UartSys) : Prop where
  ready : s.pc.hasLine = true → lineReady s.input = true
  run : ∃ as t, runFrom lineStep (lineInit fun _ => 0) as = some t ∧ t.input = s.input ∧
    t.returned.reverse.map Prod.snd = s.results.reduceOption

theorem FollowsLine.of_eq {s s' : UartSys} (h : FollowsLine s) (hinput : s'.input = s.input)
    (hresults : s'.results = s.results) (hready : s'.pc.hasLine = true → lineReady s.input = true) :
    FollowsLine s' := by
  obtain ⟨as, t, hrun, ht, hret⟩ := h.run
  exact ⟨by rwa [hinput], as, t, hrun, by rw [hinput, ht], by rw [hresults, hret]⟩

theorem readerStep_follows {r : Nat} {s s' : UartSys} (h : FollowsLine s)
    (hstep : readerStep r s = some s') : FollowsLine s' := by
  cases hpc : s.pc with
  | idle => simp [readerStep, hpc] at hstep
  | enter =>
      simp only [readerStep, hpc, Option.some.injEq] at hstep
      subst hstep
      refine h.of_eq rfl rfl fun hline => ?_
      cases hready : lineReady s.input with
      | true => rfl
      | false => simp [hready, ReaderPc.hasLine] at hline
  | test =>
      simp only [readerStep, hpc, Option.some.injEq] at hstep
      subst hstep
      refine h.of_eq rfl rfl fun hline => ?_
      cases hready : lineReady s.input with
      | true => rfl
      | false => simp [hready, ReaderPc.hasLine] at hline
  | setRunning =>
      simp only [readerStep, hpc, Option.some.injEq] at hstep
      subst hstep
      exact h.of_eq rfl rfl fun _ => h.ready (by rw [hpc]; rfl)
  | removeQueue =>
      simp only [readerStep, hpc, Option.some.injEq] at hstep
      subst hstep
      exact h.of_eq rfl rfl fun _ => h.ready (by rw [hpc]; rfl)
  | switchedOut =>
      simp only [readerStep, hpc, Option.ite_none_right_eq_some, Option.some.injEq] at hstep
      obtain ⟨-, rfl⟩ := hstep
      exact h.of_eq rfl rfl fun hline => by cases hline
  | copy =>
      have hready : lineReady s.input = true := h.ready (by rw [hpc]; rfl)
      simp only [readerStep, hpc, Option.some.injEq] at hstep
      subst hstep
      refine ⟨fun hline => (by cases hline), ?_⟩
      obtain ⟨as, t, hrun, ht, hret⟩ := h.run
      -- the copy is a read of the other kind, placed here
      refine ⟨as ++ [.read s.count], ?_⟩
      by_cases hcount : s.input.uibIndex ≤ s.count
      · let t' : LineSys :=
          { input := { s.input with uibIndex := 0 }
            pending := false
            lines := []
            returned := (t.lines, contents s.input) :: t.returned }
        have hread : lineStep t (.read s.count) = some t' := by
          simp only [lineStep, ht, hready, if_true, copyLine_of_le hcount, t']
        refine ⟨t', runFrom_append.2 ⟨t, hrun, runFrom_cons.2 ⟨t', hread, rfl⟩⟩, ?_, ?_⟩
        · rw [copyLine_of_le hcount]
        · rw [copyLine_of_le hcount]
          simp only [t', List.reverse_cons, List.map_append, hret, List.reduceOption_append,
            List.map_cons, List.map_nil, List.reduceOption_singleton, Option.toList_some]
      · have hshort : copyLine s.input s.count = (none, s.input) :=
          if_pos (Nat.lt_of_not_le hcount)
        have hread : lineStep t (.read s.count) = some t := by
          simp only [lineStep, ht, hready, if_true, hshort]
          rw [← ht]
        refine ⟨t, runFrom_append.2 ⟨t, hrun, runFrom_cons.2 ⟨t, hread, rfl⟩⟩, ?_, ?_⟩
        · rw [hshort]
          exact ht
        · rw [hshort]
          simp [hret, List.reduceOption_append, List.reduceOption_singleton]
  | _ =>
      simp only [readerStep, hpc, Option.some.injEq] at hstep
      subst hstep
      exact h.of_eq rfl rfl fun hline => by cases hline

theorem uartStep_follows {r : Nat} {s s' : UartSys} {a : UartAction} (h : FollowsLine s)
    (hstep : uartStep r s a = some s') : FollowsLine s' := by
  cases a with
  | read count =>
      simp only [uartStep, Option.ite_none_right_eq_some, Option.some.injEq] at hstep
      obtain ⟨-, rfl⟩ := hstep
      exact h.of_eq rfl rfl fun hline => by cases hline
  | reader => exact readerStep_follows h hstep
  | irq c =>
      simp only [uartStep, Option.ite_none_right_eq_some, Option.some.injEq] at hstep
      obtain ⟨⟨-, hlock⟩, rfl⟩ := hstep
      refine ⟨fun hline => ?_, ?_⟩
      · -- a reader that has found a line holds the lock
        exfalso
        cases hpc : s.pc <;> simp [hpc, ReaderPc.hasLine, ReaderPc.holdsLock] at hline hlock
      · obtain ⟨as, t, hrun, ht, hret⟩ := h.run
        obtain ⟨t', ht'⟩ : ∃ t', lineStep t (.char c) = some t' := ⟨_, rfl⟩
        have hnew := ht'
        simp only [lineStep, Option.some.injEq] at hnew
        refine ⟨as ++ [.char c], t', runFrom_append.2 ⟨t, hrun, runFrom_cons.2 ⟨t', ht', rfl⟩⟩, ?_, ?_⟩
        · rw [← hnew, ht]
        · rw [← hnew, hret]
  | wake =>
      simp only [uartStep, Option.ite_none_right_eq_some, Option.some.injEq] at hstep
      obtain ⟨-, rfl⟩ := hstep
      exact h.of_eq rfl rfl h.ready

/-- Every run of the reader and the interrupt handler is, for the buffer and the results, a run of
characters and reads. -/
theorem uartRun_lineRun {r : Nat} {tasks : TaskTable} {acts : List UartAction} {s : UartSys}
    (hrun : runFrom (uartStep r) (uartInit tasks) acts = some s) :
    ∃ as t, runFrom lineStep (lineInit fun _ => 0) as = some t ∧ t.input = s.input ∧
      t.returned.reverse.map Prod.snd = s.results.reduceOption := by
  have hinit : FollowsLine (uartInit tasks) := ⟨nofun, [], _, rfl, rfl, rfl⟩
  exact (runFrom_invariant (fun _ _ _ h hstep => uartStep_follows h hstep) hinit hrun).run

end Kernel
end ToutOS
