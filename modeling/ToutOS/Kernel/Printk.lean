import Mathlib.Data.List.Basic
import Mathlib.Logic.Function.Basic
import ToutOS.Base.Run
import ToutOS.Lib.Print
import ToutOS.Kernel.UartTx

/-!
# Printk — one staging buffer for all the `printk` of a core

`printk` formats its message into `tmp_printk_buf` of its core, through `print_char` and
`tmp_printk_offset`, and then writes as many bytes of the buffer to `kernel_log` as it has counted.
An interrupt handler that calls `printk` uses the same buffer and the same offset.

* `printkMessage` — what `printk` hands to `print_char`: the time stamp and the formatted text.
* `PrintkPc`, `stageStep` — a call step by step; loading and storing the offset are steps of their
  own.
* `PrintkCore` — the calls of a core as a stack, the interrupting one first.
* `printkRun_complete` — when no call resets the offset while another one of the core is between its
  reset and its write to the log, the log receives the complete messages, inner ones first.
-/

namespace ToutOS
namespace Kernel

open Base Lib

/-! ## The message -/

/-- `struct timestamp`. -/
structure Timestamp where
  sec : Nat
  usec : Nat
  deriving DecidableEq, Repr

/-- `"[%5u.%06u@cpu%d] "`, printed piece by piece. -/
def printkPrefix (coreId : Nat) (ts : Timestamp) : Printed :=
  printString (some [0x5B]) ++ printUnsignedInt ts.sec 10 5 charSpace ++ printString (some [0x2E]) ++
    printUnsignedInt ts.usec 10 6 charZero ++ printString (some [0x40, 0x63, 0x70, 0x75]) ++
    printInt32 coreId ++ printString (some [0x5D, 0x20])

/-- The characters of a call, and `num_ts_printed + num_printed`. -/
def printkMessage (coreId : Nat) (ts : Timestamp) (fmt : List UInt8) (args : List PrintArg) :
    Option Printed :=
  (printFormat .text fmt args).map (printkPrefix coreId ts ++ ·)

theorem printkPrefix_counted (coreId : Nat) (ts : Timestamp) : (printkPrefix coreId ts).Counted :=
  (((((counted_string _).append (counted_unsignedInt _ _ _ _)).append (counted_string _)).append
    (counted_unsignedInt _ _ _ _)).append (counted_string _)).append (counted_int32 _)
    |>.append (counted_string _)

theorem printkMessage_count {coreId : Nat} {ts : Timestamp} {fmt : List UInt8}
    {args : List PrintArg} {p : Printed} (h : printkMessage coreId ts fmt args = some p) :
    p.Counted := by
  obtain ⟨q, hq, rfl⟩ := Option.map_eq_some_iff.1 h
  exact (printkPrefix_counted coreId ts).append (printFormat_count hq)

/-! ## Staging -/

/-- `TMP_PRINTK_BUF_LEN`. -/
def tmpPrintkBufLen : Nat := 1024

/-- `tmp_printk_buf` and `tmp_printk_offset` of a core. -/
structure Staging where
  buf : Nat → UInt8
  offset : Nat

/-- Where a call of `printk` stands. -/
inductive PrintkPc
  /-- About to reset the offset. -/
  | start
  /-- About to print its next character, or, if there is none left, to write to the log. -/
  | next
  /-- In `print_char`: about to store the character at this index. -/
  | storeChar (i : Nat)
  /-- About to load the offset that is to be incremented. -/
  | loadOffset
  /-- About to store one more than this. -/
  | storeOffset (v : Nat)
  /-- About to compare the offset with the length of the buffer. -/
  | checkOffset
  /-- About to store 0. -/
  | wrapOffset
  deriving DecidableEq, Repr

/-- A call in progress. -/
structure PrintkFrame where
  message : List UInt8
  /-- The characters that are still to be stored. -/
  todo : List UInt8
  /-- `num_ts_printed + num_printed`. -/
  count : Nat
  pc : PrintkPc

/-- The next step of a call, up to its write to the log. -/
def stageStep (t : Staging) (f : PrintkFrame) : Option (Staging × PrintkFrame) :=
  match f.pc, f.todo with
  | .start, _ => some ({ t with offset := 0 }, { f with pc := .next })
  | .next, [] => none
  | .next, _ :: _ => some (t, { f with pc := .storeChar t.offset })
  | .storeChar _, [] => none
  | .storeChar i, c :: cs =>
      some ({ t with buf := Function.update t.buf i c }, { f with todo := cs, pc := .loadOffset })
  | .loadOffset, _ => some (t, { f with pc := .storeOffset t.offset })
  | .storeOffset v, _ => some ({ t with offset := v + 1 }, { f with pc := .checkOffset })
  | .checkOffset, _ =>
      some (t, { f with pc := if tmpPrintkBufLen ≤ t.offset then .wrapOffset else .next })
  | .wrapOffset, _ => some ({ t with offset := 0 }, { f with pc := .next })

/-- All characters are staged. -/
def PrintkFrame.ready (f : PrintkFrame) : Prop := f.pc = .next ∧ f.todo = []

instance (f : PrintkFrame) : Decidable f.ready := inferInstanceAs (Decidable (_ ∧ _))

/-- What is written to the log. -/
def Staging.take (t : Staging) (count : Nat) : List UInt8 := (List.range count).map t.buf

/-! ## A core -/

structure PrintkCore where
  coreId : Nat
  staging : Staging
  kernelLog : List UInt8
  /-- What `handle_uart_irq` has read from the log. -/
  drained : List UInt8
  /-- The calls in progress; each one has interrupted the next. -/
  stack : List PrintkFrame
  /-- The messages of the calls that are over, in the order of their writes to the log. -/
  messages : List (List UInt8)

inductive PrintkAction
  /-- `printk(fmt, ...)`, by the kernel or by a handler that interrupts the calls in progress;
  `none` is `NULL`. -/
  | call (ts : Timestamp) (fmt : Option (List UInt8)) (args : List PrintArg)
  /-- The innermost call takes its next step. -/
  | step
  /-- `handle_uart_irq` reads up to `n` bytes of the log. -/
  | drain (n : Nat)
  deriving DecidableEq, Repr

def printkStep (s : PrintkCore) : PrintkAction → Option PrintkCore
  | .call _ none _ => some s
  | .call ts (some fmt) args =>
      (printkMessage s.coreId ts fmt args).map fun p =>
        { s with
          stack := { message := p.chars, todo := p.chars, count := p.count, pc := .start } :: s.stack }
  | .step =>
      match s.stack with
      | [] => none
      | f :: fs =>
          if f.ready then
            let (_, log) := fifoStep (logBufSize - 1) s.kernelLog (.write (s.staging.take f.count))
            some { s with kernelLog := log, stack := fs, messages := s.messages ++ [f.message] }
          else
            (stageStep s.staging f).map fun (t, f') => { s with staging := t, stack := f' :: fs }
  | .drain n =>
      let ((_, data), log) := fifoStep (logBufSize - 1) s.kernelLog (.read n)
      some { s with kernelLog := log, drained := s.drained ++ data }

/-- An empty log, no call in progress. -/
def printkInit (coreId : Nat) (staging : Staging) : PrintkCore :=
  { coreId := coreId
    staging := staging
    kernelLog := []
    drained := []
    stack := []
    messages := [] }

/-- What has been appended to the log are the complete messages, one after the other. -/
def MessagesComplete (s : PrintkCore) : Prop := s.drained ++ s.kernelLog = s.messages.flatten

/-- The message fits in the staging buffer, and what is written fits in the log. -/
def MessageFits (s : PrintkCore) : PrintkAction → Prop
  | .call ts (some fmt) args =>
      ∀ p ∈ printkMessage s.coreId ts fmt args, p.chars.length ≤ tmpPrintkBufLen
  | .call _ none _ => True
  | .step => ∀ f ∈ s.stack.head?, f.ready → f.count ≤ logBufSize - 1 - s.kernelLog.length
  | .drain _ => True

/-- The offset is reset only when no other call of the core is at work on the buffer. -/
def ResetsAlone (s : PrintkCore) : PrintkAction → Prop
  | .step => ∀ f ∈ s.stack.head?, f.pc = .start → ∀ g ∈ s.stack.tail, g.pc = .start
  | .call _ _ _ => True
  | .drain _ => True

instance (s : PrintkCore) : ∀ a, Decidable (MessageFits s a)
  | .call ts (some fmt) args => inferInstanceAs (Decidable
      (∀ p ∈ printkMessage s.coreId ts fmt args, p.chars.length ≤ tmpPrintkBufLen))
  | .call _ none _ => isTrue trivial
  | .step => inferInstanceAs (Decidable
      (∀ f ∈ s.stack.head?, f.ready → f.count ≤ logBufSize - 1 - s.kernelLog.length))
  | .drain _ => isTrue trivial

instance (s : PrintkCore) : ∀ a, Decidable (ResetsAlone s a)
  | .step => inferInstanceAs (Decidable
      (∀ f ∈ s.stack.head?, f.pc = .start → ∀ g ∈ s.stack.tail, g.pc = .start))
  | .call _ _ _ => isTrue trivial
  | .drain _ => isTrue trivial

/-! ## A call on its own buffer -/

/-- The offset between two steps of a call that has stored `n` characters. -/
def OffsetAt (offset n : Nat) : PrintkPc → Prop
  | .start => False
  | .next => offset = n % tmpPrintkBufLen
  | .storeChar i => i = n ∧ offset = n
  | .loadOffset => offset + 1 = n
  | .storeOffset v => v + 1 = n
  | .checkOffset => offset = n
  | .wrapOffset => n = tmpPrintkBufLen

/-- The characters that the call has stored are in the buffer, and the offset is behind them. -/
def FrameStaged (t : Staging) (f : PrintkFrame) : Prop :=
  ∃ p, f.message = p ++ f.todo ∧ t.take p.length = p ∧ OffsetAt t.offset p.length f.pc

theorem take_update {t : Staging} {p : List UInt8} {c : UInt8} (h : t.take p.length = p) :
    Staging.take ⟨Function.update t.buf p.length c, t.offset⟩ (p.length + 1) = p ++ [c] := by
  have hold : (List.range p.length).map (Function.update t.buf p.length c) = p := by
    refine Eq.trans (List.map_congr_left fun k hk => ?_) h
    exact Function.update_of_ne (Nat.ne_of_lt (List.mem_range.1 hk)) _ _
  simp only [Staging.take, List.range_succ, List.map_append, hold, List.map_singleton,
    Function.update_self]

/-- The first step of a call makes the buffer its own. -/
theorem stageStep_start {t t' : Staging} {f f' : PrintkFrame} (hpc : f.pc = .start)
    (htodo : f.todo = f.message) (hstep : stageStep t f = some (t', f')) :
    FrameStaged t' f' ∧ f'.message = f.message ∧ f'.count = f.count ∧ f'.pc ≠ .start := by
  simp only [stageStep, hpc, Option.some.injEq, Prod.mk.injEq] at hstep
  obtain ⟨rfl, rfl⟩ := hstep
  exact ⟨⟨[], htodo.symm, rfl, rfl⟩, rfl, rfl, nofun⟩

/-- The later ones keep it. -/
theorem stageStep_staged {t t' : Staging} {f f' : PrintkFrame} (h : FrameStaged t f)
    (hlen : f.message.length ≤ tmpPrintkBufLen) (hstep : stageStep t f = some (t', f')) :
    FrameStaged t' f' ∧ f'.message = f.message ∧ f'.count = f.count ∧ f'.pc ≠ .start := by
  -- `p` is the part of the message that is in the buffer
  obtain ⟨p, hmessage, hbuf, hoffset⟩ := h
  obtain ⟨message, todo, count, pc⟩ := f
  simp only at hmessage hoffset hlen
  have hp : p.length + todo.length ≤ tmpPrintkBufLen := by
    rwa [hmessage, List.length_append] at hlen
  cases pc with
  | start => exact hoffset.elim
  | next =>
      cases todo with
      | nil => cases hstep
      | cons c cs =>
          simp only [stageStep, Option.some.injEq, Prod.mk.injEq] at hstep
          obtain ⟨rfl, rfl⟩ := hstep
          have hlt : p.length < tmpPrintkBufLen := by
            rw [List.length_cons] at hp
            omega
          have hoff : t.offset = p.length := by
            rw [show t.offset = p.length % tmpPrintkBufLen from hoffset, Nat.mod_eq_of_lt hlt]
          exact ⟨⟨p, hmessage, hbuf, hoff, hoff⟩, rfl, rfl, nofun⟩
  | storeChar i =>
      cases todo with
      | nil => cases hstep
      | cons c cs =>
          simp only [stageStep, Option.some.injEq, Prod.mk.injEq] at hstep
          obtain ⟨rfl, rfl⟩ := hstep
          obtain ⟨hi, hoff⟩ := hoffset
          refine ⟨⟨p ++ [c], ?_, ?_, ?_⟩, rfl, rfl, nofun⟩
          · rw [hmessage, List.append_assoc, List.singleton_append]
          · rw [hi, List.length_append, List.length_singleton]
            exact take_update hbuf
          · rw [List.length_append, List.length_singleton]
            exact congrArg (· + 1) hoff
  | loadOffset =>
      simp only [stageStep, Option.some.injEq, Prod.mk.injEq] at hstep
      obtain ⟨rfl, rfl⟩ := hstep
      exact ⟨⟨p, hmessage, hbuf, hoffset⟩, rfl, rfl, nofun⟩
  | storeOffset v =>
      simp only [stageStep, Option.some.injEq, Prod.mk.injEq] at hstep
      obtain ⟨rfl, rfl⟩ := hstep
      exact ⟨⟨p, hmessage, hbuf, hoffset⟩, rfl, rfl, nofun⟩
  | checkOffset =>
      simp only [stageStep, Option.some.injEq, Prod.mk.injEq] at hstep
      obtain ⟨rfl, rfl⟩ := hstep
      have hoff : t.offset = p.length := hoffset
      -- a full buffer holds the whole message, for one that fits
      by_cases hfull : tmpPrintkBufLen ≤ t.offset
      · rw [if_pos hfull]
        refine ⟨⟨p, hmessage, hbuf, ?_⟩, rfl, rfl, nofun⟩
        have hall : p.length = tmpPrintkBufLen := by omega
        exact hall
      · rw [if_neg hfull]
        refine ⟨⟨p, hmessage, hbuf, ?_⟩, rfl, rfl, nofun⟩
        rw [hoff] at hfull
        exact hoff.trans (Nat.mod_eq_of_lt (Nat.lt_of_not_le hfull)).symm
  | wrapOffset =>
      simp only [stageStep, Option.some.injEq, Prod.mk.injEq] at hstep
      obtain ⟨rfl, rfl⟩ := hstep
      refine ⟨⟨p, hmessage, hbuf, ?_⟩, rfl, rfl, nofun⟩
      have hall : p.length = tmpPrintkBufLen := hoffset
      rw [hall]
      exact (Nat.mod_self _).symm

/-! ## The invariant -/

/-- What holds of every call in progress. -/
structure PrintkFrame.Ok (f : PrintkFrame) : Prop where
  count : f.count = f.message.length
  length_le : f.message.length ≤ tmpPrintkBufLen
  fresh : f.pc = .start → f.todo = f.message

/-- At most one call of the stack is past its reset, and the buffer is its own. -/
def StackStaged (t : Staging) (stack : List PrintkFrame) : Prop :=
  (∀ f ∈ stack, f.pc = .start) ∨
    ∃ before f after, stack = before ++ f :: after ∧ (∀ g ∈ before ++ after, g.pc = .start) ∧
      FrameStaged t f

structure PrintkInv (s : PrintkCore) : Prop where
  complete : MessagesComplete s
  frames : ∀ f ∈ s.stack, f.Ok
  staged : StackStaged s.staging s.stack

/-- The innermost call, when it is past its reset. -/
theorem StackStaged.head {t : Staging} {f : PrintkFrame} {fs : List PrintkFrame}
    (h : StackStaged t (f :: fs)) (hpc : f.pc ≠ .start) :
    FrameStaged t f ∧ ∀ g ∈ fs, g.pc = .start := by
  rcases h with hall | ⟨before, g, after, hstack, hothers, hstaged⟩
  · exact absurd (hall f List.mem_cons_self) hpc
  · cases before with
    | nil =>
        obtain ⟨rfl, rfl⟩ := List.cons.inj hstack
        exact ⟨hstaged, hothers⟩
    | cons b before =>
        obtain ⟨rfl, -⟩ := List.cons.inj hstack
        exact absurd (hothers f List.mem_cons_self) hpc

/-- A call at the head of the stack, and nothing but calls before their reset below it. -/
theorem StackStaged.of_head {t : Staging} {f : PrintkFrame} {fs : List PrintkFrame}
    (hf : FrameStaged t f) (hfs : ∀ g ∈ fs, g.pc = .start) : StackStaged t (f :: fs) :=
  Or.inr ⟨[], f, fs, rfl, hfs, hf⟩

theorem StackStaged.push {t : Staging} {f : PrintkFrame} {fs : List PrintkFrame}
    (h : StackStaged t fs) (hpc : f.pc = .start) : StackStaged t (f :: fs) := by
  rcases h with hall | ⟨before, g, after, rfl, hothers, hstaged⟩
  · exact Or.inl (List.forall_mem_cons.2 ⟨hpc, hall⟩)
  · exact Or.inr ⟨f :: before, g, after, rfl, List.forall_mem_cons.2 ⟨hpc, hothers⟩, hstaged⟩

/-- The write to the log: what is taken from the buffer is the message. -/
theorem FrameStaged.take_count {t : Staging} {f : PrintkFrame} (h : FrameStaged t f)
    (hok : f.Ok) (hready : f.ready) : t.take f.count = f.message := by
  obtain ⟨p, hmessage, hbuf, -⟩ := h
  rw [hready.2, List.append_nil] at hmessage
  rw [hok.count, hmessage, hbuf]

/-- A step of the innermost call that is not its last one; its first step finds all the others before
their reset. -/
theorem StackStaged.stage {t t' : Staging} {f f' : PrintkFrame} {fs : List PrintkFrame}
    (h : StackStaged t (f :: fs)) (hok : f.Ok) (halone : f.pc = .start → ∀ g ∈ fs, g.pc = .start)
    (hstage : stageStep t f = some (t', f')) : StackStaged t' (f' :: fs) ∧ f'.Ok := by
  have hnew : (FrameStaged t' f' ∧ f'.message = f.message ∧ f'.count = f.count ∧
      f'.pc ≠ .start) ∧ ∀ g ∈ fs, g.pc = .start := by
    by_cases hpc : f.pc = .start
    · exact ⟨stageStep_start hpc (hok.fresh hpc) hstage, halone hpc⟩
    · obtain ⟨hf, hothers⟩ := h.head hpc
      exact ⟨stageStep_staged hf hok.length_le hstage, hothers⟩
  obtain ⟨⟨hf', hmessage, hcount, hpc'⟩, hothers⟩ := hnew
  refine ⟨StackStaged.of_head hf' hothers, ?_, ?_, fun hpc => absurd hpc hpc'⟩
  · rw [hcount, hmessage, hok.count]
  · rw [hmessage]
    exact hok.length_le

/-- The bytes of a message at the end of the log. -/
theorem MessagesComplete.write {s : PrintkCore} (h : MessagesComplete s) (message : List UInt8) :
    s.drained ++ (s.kernelLog ++ message) = (s.messages ++ [message]).flatten := by
  rw [← List.append_assoc, show s.drained ++ s.kernelLog = s.messages.flatten from h,
    List.flatten_append, List.flatten_singleton]

theorem printkStep_inv {s s' : PrintkCore} {a : PrintkAction} (h : PrintkInv s)
    (hP : MessageFits s a ∧ ResetsAlone s a) (hstep : printkStep s a = some s') : PrintkInv s' := by
  obtain ⟨hfits, halone⟩ := hP
  cases a with
  | call ts fmt args =>
      cases fmt with
      | none =>
          cases hstep
          exact h
      | some fmt =>
          obtain ⟨p, hp, rfl⟩ := Option.map_eq_some_iff.1 hstep
          refine ⟨h.complete, List.forall_mem_cons.2 ⟨?_, h.frames⟩, h.staged.push rfl⟩
          exact ⟨printkMessage_count hp, hfits p hp, fun _ => rfl⟩
  | drain n =>
      simp only [printkStep, fifoStep, Option.some.injEq] at hstep
      subst hstep
      refine ⟨?_, h.frames, h.staged⟩
      have hcomplete := h.complete
      rw [MessagesComplete] at hcomplete ⊢
      rw [List.append_assoc, List.take_append_drop, hcomplete]
  | step =>
      cases hstack : s.stack with
      | nil => simp [printkStep, hstack] at hstep
      | cons f fs =>
          have hframes := h.frames
          have hstaged := h.staged
          simp only [MessageFits, ResetsAlone, hstack, List.head?_cons, Option.mem_def,
            Option.some.injEq, forall_eq', List.tail_cons] at hfits halone
          rw [hstack] at hframes hstaged
          obtain ⟨hok, hrest⟩ := List.forall_mem_cons.1 hframes
          simp only [printkStep, hstack] at hstep
          by_cases hready : f.ready
          · -- the innermost call is over: what it takes from the buffer is its message
            have hpc : f.pc ≠ .start := by
              rw [hready.1]
              intro hstart
              cases hstart
            obtain ⟨hf, hothers⟩ := hstaged.head hpc
            rw [if_pos hready, hf.take_count hok hready, fifoStep, ← hok.count,
              if_pos (hfits hready)] at hstep
            cases hstep
            exact ⟨h.complete.write f.message, hrest, Or.inl hothers⟩
          · rw [if_neg hready] at hstep
            obtain ⟨⟨t, f'⟩, hstage, rfl⟩ := Option.map_eq_some_iff.1 hstep
            obtain ⟨hstaged', hok'⟩ := hstaged.stage hok halone hstage
            exact ⟨h.complete, List.forall_mem_cons.2 ⟨hok', hrest⟩, hstaged'⟩

/-! ## Whole runs -/

/-- For messages that fit: in every run in which the offset is never reset under a call of the core
that is between its own reset and its write to the log, the log has received the complete messages,
in the order in which the calls were over — the interrupting ones first. -/
theorem printkRun_complete {coreId : Nat} {staging : Staging} {acts : List PrintkAction}
    (hfits : Along printkStep MessageFits (printkInit coreId staging) acts)
    (halone : Along printkStep ResetsAlone (printkInit coreId staging) acts) :
    Always printkStep MessagesComplete (printkInit coreId staging) acts := by
  have hboth : Along printkStep (fun s a => MessageFits s a ∧ ResetsAlone s a)
      (printkInit coreId staging) acts := by
    refine along_iff.2 fun bs a cs t hsplit hrun => ?_
    exact ⟨along_iff.1 hfits bs a cs t hsplit hrun, along_iff.1 halone bs a cs t hsplit hrun⟩
  have hinit : PrintkInv (printkInit coreId staging) := ⟨rfl, nofun, Or.inl nofun⟩
  rintro bs t ⟨cs, rfl⟩ hrun
  exact (runFrom_invariant_along (fun _ _ _ h hP hstep => printkStep_inv h hP hstep) hinit
    (along_append.1 hboth).1 hrun).complete

/-- `printk("a")` and, before its reset, `printk("b")` in a handler. -/
def sampleBefore : List PrintkAction :=
  [.call ⟨0, 0⟩ (some [0x61]) [], .call ⟨0, 1⟩ (some [0x62]) []] ++ List.replicate 214 .step

/-- `"[    0.000001@cpu0] b"` and `"[    0.000000@cpu0] a"`. -/
theorem printkRun_before :
    ∃ s, runFrom printkStep (printkInit 0 ⟨fun _ => 0, 0⟩) sampleBefore = some s ∧
      s.kernelLog =
        [0x5B, 0x20, 0x20, 0x20, 0x20, 0x30, 0x2E, 0x30, 0x30, 0x30, 0x30, 0x30, 0x31, 0x40, 0x63, 0x70,
          0x75, 0x30, 0x5D, 0x20, 0x62] ++
        [0x5B, 0x20, 0x20, 0x20, 0x20, 0x30, 0x2E, 0x30, 0x30, 0x30, 0x30, 0x30, 0x30, 0x40, 0x63, 0x70,
          0x75, 0x30, 0x5D, 0x20, 0x61] ∧
      Always printkStep MessagesComplete (printkInit 0 ⟨fun _ => 0, 0⟩) sampleBefore := by
  have hend : (runFrom printkStep (printkInit 0 ⟨fun _ => 0, 0⟩) sampleBefore).map
      PrintkCore.kernelLog = some
      ([0x5B, 0x20, 0x20, 0x20, 0x20, 0x30, 0x2E, 0x30, 0x30, 0x30, 0x30, 0x30, 0x31, 0x40, 0x63, 0x70,
          0x75, 0x30, 0x5D, 0x20, 0x62] ++
        [0x5B, 0x20, 0x20, 0x20, 0x20, 0x30, 0x2E, 0x30, 0x30, 0x30, 0x30, 0x30, 0x30, 0x40, 0x63, 0x70,
          0x75, 0x30, 0x5D, 0x20, 0x61]) := by
    decide +kernel
  obtain ⟨s, hrun, hs⟩ := Option.map_eq_some_iff.1 hend
  exact ⟨s, hrun, hs, printkRun_complete (by decide +kernel) (by decide +kernel)⟩

/-- `printk("a")`, interrupted when its first character is stored by a handler that calls
`printk("b")`. -/
def sampleAmid : List PrintkAction :=
  [.call ⟨0, 0⟩ (some [0x61]) []] ++ List.replicate 6 .step ++
    [.call ⟨0, 1⟩ (some [0x62]) []] ++ List.replicate 208 .step

/-- The interrupted call writes the message of the handler once more, and not its own. -/
theorem printkRun_amid :
    ∃ s, runFrom printkStep (printkInit 0 ⟨fun _ => 0, 0⟩) sampleAmid = some s ∧
      s.stack = [] ∧
      s.kernelLog =
        [0x5B, 0x20, 0x20, 0x20, 0x20, 0x30, 0x2E, 0x30, 0x30, 0x30, 0x30, 0x30, 0x31, 0x40, 0x63, 0x70,
          0x75, 0x30, 0x5D, 0x20, 0x62] ++
        [0x5B, 0x20, 0x20, 0x20, 0x20, 0x30, 0x2E, 0x30, 0x30, 0x30, 0x30, 0x30, 0x31, 0x40, 0x63, 0x70,
          0x75, 0x30, 0x5D, 0x20, 0x62] ∧
      ¬ MessagesComplete s := by
  have hend : (runFrom printkStep (printkInit 0 ⟨fun _ => 0, 0⟩) sampleAmid).map
      (fun s => (decide (s.stack.length = 0), s.kernelLog,
        decide (s.drained ++ s.kernelLog = s.messages.flatten))) = some (true,
      [0x5B, 0x20, 0x20, 0x20, 0x20, 0x30, 0x2E, 0x30, 0x30, 0x30, 0x30, 0x30, 0x31, 0x40, 0x63, 0x70,
          0x75, 0x30, 0x5D, 0x20, 0x62] ++
        [0x5B, 0x20, 0x20, 0x20, 0x20, 0x30, 0x2E, 0x30, 0x30, 0x30, 0x30, 0x30, 0x31, 0x40, 0x63, 0x70,
          0x75, 0x30, 0x5D, 0x20, 0x62], false) := by
    decide +kernel
  obtain ⟨s, hrun, hs⟩ := Option.map_eq_some_iff.1 hend
  simp only [Prod.mk.injEq, decide_eq_true_eq, decide_eq_false_iff_not] at hs
  exact ⟨s, hrun, List.length_eq_zero_iff.1 hs.1, hs.2.1, hs.2.2⟩

end Kernel
end ToutOS
