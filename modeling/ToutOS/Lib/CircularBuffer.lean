import ToutOS.Base.ByteMem
import ToutOS.Base.Ring
import ToutOS.Base.Run

/-!
# CircularBuffer — `lib/circular_buffer.c` for one caller at a time

The buffer is a range of memory with a read pointer and a write pointer; one byte of it always stays
empty, so that equal pointers mean an empty buffer.

* `writeCircularBuffer`, `readCircularBuffer` — the two operations.  The bytes to be written are
  given as a list, `none` for a null pointer; the bytes read are returned as a list.
* `CbufCall`, `cbufStep` — a caller that writes and reads.
* `fifoStep` — what the buffer is for: a bounded queue.
* `cbufRun_fifo` — the buffer answers every sequence of calls as the queue does.
-/

namespace ToutOS
namespace Lib

open Base

/-! ## The operations -/

/-- `struct circular_buffer`. -/
structure CircularBuffer where
  buffer : Nat
  length : Nat
  rp : Nat
  wp : Nat
  deriving DecidableEq, Repr

/-- `init_circular_buffer`. -/
def initCircularBuffer (p : CircularBuffer) (buffer length : Nat) : CircularBuffer :=
  if buffer = 0 then p
  else { buffer := buffer, length := length, rp := buffer, wp := buffer }

/-- A pointer into the buffer after it has been moved to the next byte. -/
def nextPointer (begin fin p : Nat) : Nat := if p + 1 = fin then begin else p + 1

/-- The number of bytes that `write_circular_buffer` finds free; the differences of pointers are
converted to `size_t`. -/
def freeLen (length rp wp : Nat) : Nat :=
  if rp ≤ wp then sub64 (sub64 length 1) (sub64 wp rp) else sub64 (sub64 rp 1) wp

/-- `store_len`, the number of bytes that `read_circular_buffer` finds. -/
def storeLen (length rp wp : Nat) : Nat :=
  if rp ≤ wp then sub64 wp rp else sub64 length (sub64 rp wp)

/-- The loop of `write_circular_buffer`. -/
def writeLoop (begin fin : Nat) : List UInt8 → Nat → Mem → Nat × Mem
  | [], wp, m => (wp, m)
  | b :: rest, wp, m => writeLoop begin fin rest (nextPointer begin fin wp) (Function.update m wp b)

/-- `write_circular_buffer`. -/
def writeCircularBuffer (m : Mem) (p : CircularBuffer) (data : Option (List UInt8)) :
    Int × Mem × CircularBuffer :=
  match data with
  | none => (-1, m, p)
  | some data =>
      if freeLen p.length p.rp p.wp < data.length then (-1, m, p)
      else
        let (wp, m) := writeLoop p.buffer (p.buffer + p.length) data p.wp m
        (0, m, { p with wp := wp })

/-- The loop of `read_circular_buffer` over `n` bytes. -/
def readLoop (begin fin : Nat) (m : Mem) : Nat → Nat → List UInt8 × Nat
  | 0, rp => ([], rp)
  | n + 1, rp =>
      let (rest, rp') := readLoop begin fin m n (nextPointer begin fin rp)
      (m rp :: rest, rp')

/-- A `size_t` returned as an `int`. -/
def toInt (n : Nat) : Int := (n : Int).bmod (2 ^ 32)

theorem toInt_of_lt {n : Nat} (h : n < 2 ^ 31) : toInt n = n := by
  have h₁ : -((2 ^ 32 : Nat) / 2 : Int) ≤ (n : Int) := by omega
  have h₂ : (n : Int) < ((2 ^ 32 : Nat) + 1) / 2 := by omega
  exact Int.bmod_eq_of_le h₁ h₂

/-- `read_circular_buffer`; `hasData` is false for a null pointer. -/
def readCircularBuffer (m : Mem) (p : CircularBuffer) (hasData : Bool) (length : Nat) :
    Int × List UInt8 × CircularBuffer :=
  if hasData = false then (-1, [], p)
  else
    let toReadLen := min length (storeLen p.length p.rp p.wp)
    let (data, rp) := readLoop p.buffer (p.buffer + p.length) m toReadLen p.rp
    (toInt toReadLen, data, { p with rp := rp })

/-! ## A caller and the queue it wants -/

inductive CbufCall
  | write (data : List UInt8)
  | read (n : Nat)
  deriving DecidableEq, Repr

structure CbufState where
  mem : Mem
  cbuf : CircularBuffer

/-- What a call returns: its result and the bytes delivered. -/
abbrev CbufAnswer := Int × List UInt8

def cbufStep (s : CbufState) : CbufCall → CbufAnswer × CbufState
  | .write data =>
      let (ret, m, p) := writeCircularBuffer s.mem s.cbuf (some data)
      ((ret, []), ⟨m, p⟩)
  | .read n =>
      let (ret, data, p) := readCircularBuffer s.mem s.cbuf true n
      ((ret, data), ⟨s.mem, p⟩)

/-- A queue of at most `cap` bytes. -/
def fifoStep (cap : Nat) (q : List UInt8) : CbufCall → CbufAnswer × List UInt8
  | .write data => if data.length ≤ cap - q.length then ((0, []), q ++ data) else ((-1, []), q)
  | .read n => ((((min n q.length : Nat) : Int), q.take n), q.drop n)

/-- The bytes between the pointers. -/
def CbufState.contents (s : CbufState) : List UInt8 :=
  (readLoop s.cbuf.buffer (s.cbuf.buffer + s.cbuf.length) s.mem
    (storeLen s.cbuf.length s.cbuf.rp s.cbuf.wp) s.cbuf.rp).1

/-- All bytes delivered by the calls. -/
def bytesRead (answers : List CbufAnswer) : List UInt8 := answers.flatMap Prod.snd

/-- The bytes of the calls that wrote with success. -/
def bytesWritten (calls : List CbufCall) (answers : List CbufAnswer) : List UInt8 :=
  (calls.zip answers).flatMap fun
    | (.write data, (ret, _)) => if ret = 0 then data else []
    | (.read _, _) => []

/-! ## Pointers as positions -/

section Positions

variable {b L k n : Nat}

theorem nextPointer_add (hL : 0 < L) : nextPointer b (b + L) (b + k % L) = b + (k + 1) % L := by
  rw [← ringNext_mod hL, nextPointer, ringNext]
  split_ifs <;> omega

theorem storeLen_add (hL : L < 2 ^ 31) (hn : n < L) :
    storeLen L (b + k % L) (b + (k + n) % L) = n := by
  have hdist := ringDist_mod k hn
  have h₁ : k % L < L := Nat.mod_lt _ (by omega)
  have h₂ : (k + n) % L < L := Nat.mod_lt _ (by omega)
  generalize k % L = r at *
  generalize (k + n) % L = w at *
  simp only [ringDist] at hdist
  simp only [storeLen, sub64]
  split_ifs at hdist ⊢ <;> omega

/-- The two formulas for the free space agree: one byte less than what is not stored. -/
theorem freeLen_add (hL : L < 2 ^ 31) (hn : n < L) :
    freeLen L (b + k % L) (b + (k + n) % L) = L - 1 - n := by
  have hdist := ringDist_mod k hn
  have h₁ : k % L < L := Nat.mod_lt _ (by omega)
  have h₂ : (k + n) % L < L := Nat.mod_lt _ (by omega)
  generalize k % L = r at *
  generalize (k + n) % L = w at *
  simp only [ringDist] at hdist
  simp only [freeLen, sub64]
  split_ifs at hdist ⊢ <;> omega

end Positions

/-! ## The loops -/

section Loops

variable {b L k : Nat} {m : Mem} {q data : List UInt8}

/-- The bytes of the buffer by position. -/
def cells (b : Nat) (m : Mem) : Nat → UInt8 := fun i => m (b + i)

theorem cells_update (b i : Nat) (m : Mem) (x : UInt8) :
    cells b (Function.update m (b + i) x) = Function.update (cells b m) i x := by
  funext j
  by_cases hj : j = i
  · subst hj
    simp [cells]
  · have hne : b + j ≠ b + i := by omega
    simp [cells, Function.update_of_ne hne, Function.update_of_ne hj]

/-- Writing behind the queue: as long as there is room, the bytes are appended. -/
theorem writeLoop_spec (hq : RingHolds L (cells b m) k q) (hlen : q.length + data.length < L) :
    (writeLoop b (b + L) data (b + (k + q.length) % L) m).1 =
        b + (k + (q ++ data).length) % L ∧
      RingHolds L (cells b (writeLoop b (b + L) data (b + (k + q.length) % L) m).2) k
        (q ++ data) := by
  induction data generalizing q m with
  | nil => simpa [writeLoop] using hq
  | cons x data ih =>
      rw [List.length_cons] at hlen
      have hpush := hq.push (by omega) x
      rw [← cells_update] at hpush
      have hrest := ih hpush (by rw [List.length_append, List.length_singleton]; omega)
      rw [List.length_append, List.length_singleton, List.append_assoc, List.singleton_append,
        ← Nat.add_assoc, ← nextPointer_add (by omega)] at hrest
      exact hrest

/-- Reading from the front of the queue. -/
theorem readLoop_spec (hL : 0 < L) {front : List UInt8} (hq : RingHolds L (cells b m) k front) :
    readLoop b (b + L) m front.length (b + k % L) = (front, b + (k + front.length) % L) := by
  induction front generalizing k with
  | nil => rfl
  | cons x front ih =>
      have hx : m (b + k % L) = x := hq.1
      rw [List.length_cons, readLoop, nextPointer_add hL, ih hq.2, hx, Nat.add_right_comm,
        Nat.add_assoc]

end Loops

/-! ## Refinement -/

/-- The buffer at `b` of length `L` holds the queue `q`. -/
structure HoldsFifo (b L : Nat) (s : CbufState) (q : List UInt8) : Prop where
  buffer : s.cbuf.buffer = b
  length : s.cbuf.length = L
  room : q.length < L
  place : ∃ k, s.cbuf.rp = b + k % L ∧ s.cbuf.wp = b + (k + q.length) % L ∧
    RingHolds L (cells b s.mem) k q

section Refinement

variable {b L : Nat} {s : CbufState} {q : List UInt8}

theorem HoldsFifo.init (p : CircularBuffer) (m : Mem) (hb : b ≠ 0) (hL : 1 ≤ L) :
    HoldsFifo b L ⟨m, initCircularBuffer p b L⟩ [] := by
  rw [initCircularBuffer, if_neg hb]
  exact ⟨rfl, rfl, hL, 0, by simp, by simp, ringHolds_nil⟩

theorem HoldsFifo.free (h : HoldsFifo b L s q) (hL : L < 2 ^ 31) :
    freeLen s.cbuf.length s.cbuf.rp s.cbuf.wp = L - 1 - q.length := by
  obtain ⟨k, hrp, hwp, -⟩ := h.place
  rw [h.length, hrp, hwp, freeLen_add hL h.room]

theorem HoldsFifo.store (h : HoldsFifo b L s q) (hL : L < 2 ^ 31) :
    storeLen s.cbuf.length s.cbuf.rp s.cbuf.wp = q.length := by
  obtain ⟨k, hrp, hwp, -⟩ := h.place
  rw [h.length, hrp, hwp, storeLen_add hL h.room]

theorem HoldsFifo.contents (h : HoldsFifo b L s q) (hL : L < 2 ^ 31) : s.contents = q := by
  have hroom := h.room
  obtain ⟨k, hrp, -, hq⟩ := h.place
  rw [CbufState.contents, h.store hL, h.buffer, h.length, hrp, readLoop_spec (by omega) hq]

/-- A write that does not fit. -/
theorem HoldsFifo.write_full (h : HoldsFifo b L s q) (hL : L < 2 ^ 31) {data : List UInt8}
    (hdata : L - 1 - q.length < data.length) : cbufStep s (.write data) = ((-1, []), s) := by
  simp only [cbufStep, writeCircularBuffer, h.free hL, if_pos hdata]

theorem HoldsFifo.write (h : HoldsFifo b L s q) (hL : L < 2 ^ 31) {data : List UInt8}
    (hdata : data.length ≤ L - 1 - q.length) :
    (cbufStep s (.write data)).1 = (0, []) ∧
      HoldsFifo b L (cbufStep s (.write data)).2 (q ++ data) := by
  have hroom := h.room
  obtain ⟨k, hrp, hwp, hq⟩ := h.place
  obtain ⟨hwp', hq'⟩ := writeLoop_spec hq (show q.length + data.length < L by omega)
  have hfit : ¬freeLen L s.cbuf.rp (b + (k + q.length) % L) < data.length := by
    rw [hrp, freeLen_add hL hroom]
    exact Nat.not_lt.2 hdata
  simp only [cbufStep, writeCircularBuffer, h.buffer, h.length, hwp, if_neg hfit]
  refine ⟨trivial, rfl, rfl, ?_, k, hrp, hwp', hq'⟩
  rw [List.length_append]
  omega

theorem HoldsFifo.read (h : HoldsFifo b L s q) (hL : L < 2 ^ 31) (n : Nat) :
    (cbufStep s (.read n)).1 = (((min n q.length : Nat) : Int), q.take n) ∧
      HoldsFifo b L (cbufStep s (.read n)).2 (q.drop n) := by
  have hroom := h.room
  obtain ⟨k, hrp, hwp, hq⟩ := h.place
  -- the front of the queue that is read, and the rest of it
  have htake : (q.take n).length = min n q.length := List.length_take
  have hsplit := hq
  rw [← List.take_append_drop n q, ringHolds_append, htake] at hsplit
  have hloop := readLoop_spec (show 0 < L by omega) hsplit.1
  rw [htake] at hloop
  have hret := toInt_of_lt (show min n q.length < 2 ^ 31 by omega)
  simp only [cbufStep, readCircularBuffer, h.buffer, h.length, hrp, hwp, storeLen_add hL hroom,
    hloop, hret, Bool.true_eq_false, if_false]
  refine ⟨trivial, rfl, rfl, ?_, k + min n q.length, rfl, ?_, hsplit.2⟩
  · rw [List.length_drop]
    omega
  · have hk : k + min n q.length + (q.drop n).length = k + q.length := by
      rw [List.length_drop]
      omega
    rw [hk]

/-- One call. -/
theorem HoldsFifo.step (h : HoldsFifo b L s q) (hL : L < 2 ^ 31) (call : CbufCall) :
    (cbufStep s call).1 = (fifoStep (L - 1) q call).1 ∧
      HoldsFifo b L (cbufStep s call).2 (fifoStep (L - 1) q call).2 := by
  cases call with
  | read n => exact h.read hL n
  | write data =>
      by_cases hdata : data.length ≤ L - 1 - q.length
      · rw [fifoStep, if_pos hdata]
        exact h.write hL hdata
      · rw [fifoStep, if_neg hdata, h.write_full hL (by omega)]
        exact ⟨rfl, h⟩

end Refinement

/-! ## The queue -/

/-- What has been written is what has been read and what is still in the queue. -/
theorem fifo_conservation (cap : Nat) (calls : List CbufCall) (q : List UInt8) :
    bytesRead (outputs (fifoStep cap) q calls).1 ++ (outputs (fifoStep cap) q calls).2 =
      q ++ bytesWritten calls (outputs (fifoStep cap) q calls).1 := by
  induction calls generalizing q with
  | nil => simp [outputs, bytesRead, bytesWritten]
  | cons call calls ih =>
      cases call with
      | read n =>
          have hrest := ih (q.drop n)
          simp only [bytesRead, bytesWritten] at hrest
          simp only [outputs, fifoStep, bytesRead, bytesWritten, List.flatMap_cons, List.zip_cons_cons,
            List.append_assoc, List.nil_append, hrest]
          rw [← List.append_assoc, List.take_append_drop]
      | write data =>
          by_cases hdata : data.length ≤ cap - q.length
          · have hrest := ih (q ++ data)
            simp only [bytesRead, bytesWritten] at hrest
            simp only [outputs, fifoStep, if_pos hdata, bytesRead, bytesWritten, List.flatMap_cons,
              List.zip_cons_cons, List.nil_append, hrest, if_true, List.append_assoc]
          · have hrest := ih q
            simp only [bytesRead, bytesWritten] at hrest
            simp [outputs, fifoStep, if_neg hdata, bytesRead, bytesWritten, hrest]

/-- Every sequence of calls on a buffer of length `L` is answered as by a queue of at most `L - 1`
bytes; the bytes between the pointers are the queue, a write that does not fit changes nothing, and
what is read is what was written, in order. -/
theorem cbufRun_fifo {b L : Nat} (hb : b ≠ 0) (h₁ : 1 ≤ L) (hL : L < 2 ^ 31) (p : CircularBuffer)
    (m : Mem) (calls : List CbufCall) :
    let run := outputs cbufStep ⟨m, initCircularBuffer p b L⟩ calls
    let fifo := outputs (fifoStep (L - 1)) [] calls
    run.1 = fifo.1 ∧ run.2.contents = fifo.2 ∧ fifo.2.length ≤ L - 1 ∧
      (∀ data : List UInt8, L - 1 - fifo.2.length < data.length →
        cbufStep run.2 (.write data) = ((-1, []), run.2)) ∧
      bytesRead run.1 <+: bytesWritten calls run.1 := by
  intro run fifo
  have hstep : ∀ s q call, HoldsFifo b L s q →
      (cbufStep s call).1 = (fifoStep (L - 1) q call).1 ∧
        HoldsFifo b L (cbufStep s call).2 (fifoStep (L - 1) q call).2 :=
    fun _ _ call h => h.step hL call
  obtain ⟨houts, hend⟩ := outputs_simulation hstep (HoldsFifo.init p m hb h₁) calls
  have hroom := hend.room
  refine ⟨houts, hend.contents hL, Nat.le_sub_one_of_lt hroom,
    fun data hdata => hend.write_full hL hdata, fifo.2, ?_⟩
  rw [show run.1 = fifo.1 from houts]
  exact fifo_conservation (L - 1) calls []

theorem cbufRun_fifo_wraps :
    bytesRead (outputs cbufStep ⟨fun _ => 0, initCircularBuffer ⟨0, 0, 0, 0⟩ 4096 4⟩
      [.write [1, 2, 3], .read 2, .write [4, 5], .write [6], .read 9]).1 = [1, 2, 3, 4, 5] ∧
    bytesRead (outputs cbufStep ⟨fun _ => 0, initCircularBuffer ⟨0, 0, 0, 0⟩ 4096 4⟩
      [.write [1, 2, 3], .read 2, .write [4, 5], .write [6], .read 9]).1 <+:
    bytesWritten [.write [1, 2, 3], .read 2, .write [4, 5], .write [6], .read 9]
      (outputs cbufStep ⟨fun _ => 0, initCircularBuffer ⟨0, 0, 0, 0⟩ 4096 4⟩
        [.write [1, 2, 3], .read 2, .write [4, 5], .write [6], .read 9]).1 :=
  ⟨by decide +kernel,
    (cbufRun_fifo (b := 4096) (L := 4) (by decide) (by decide) (by decide) _ _ _).2.2.2.2⟩

end Lib
end ToutOS
