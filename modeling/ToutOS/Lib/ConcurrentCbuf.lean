import ToutOS.Lib.CircularBuffer

/-!
# ConcurrentCbuf — a reader and a writer of one circular buffer

`read_concurrent_cbuf` and `write_concurrent_cbuf` take different locks, so a reader and a writer can
be at work at the same time.  Each of them is a program counter with its local variables; loading a
pointer, copying a byte and publishing the new pointer are steps of their own, in the order of the
source, and a call is over with the publication of its pointer.

* `Reader`, `Writer` — where the two are.
* `CbufAction`, `concStep` — one step; a new call begins when the previous caller has given the lock
  back.
* `ConcInv` — the pointers as numbers of steps around the ring, and what each side knows of the
  other's pointer.
* `concRun_safe` — no byte is overwritten before it is read, read before it is published, lost or
  duplicated.
-/

namespace ToutOS
namespace Lib

open Base

/-! ## The two sides -/

/-- Where the holder of `cbuf_rlock` is in `read_circular_buffer`. -/
inductive Reader
  | idle
  | loadRp (length : Nat)
  | loadWp (length rp : Nat)
  /-- `left` bytes are still to be copied, `data` has been. -/
  | copy (left rp : Nat) (data : List UInt8)
  deriving DecidableEq, Repr

/-- Where the holder of `cbuf_wlock` is in `write_circular_buffer`. -/
inductive Writer
  | idle
  | loadRp (data : List UInt8)
  | loadWp (data : List UInt8) (rp : Nat)
  /-- The bytes `rest` are still to be copied, `done` have been. -/
  | copy (rest : List UInt8) (wp : Nat) (done : List UInt8)
  deriving DecidableEq, Repr

/-- `struct concurrent_cbuf` with its two users. -/
structure ConcState where
  mem : Mem
  cbuf : CircularBuffer
  writeOverflow : Bool := false
  reader : Reader := .idle
  writer : Writer := .idle
  /-- History: the bytes of the writes that have succeeded. -/
  written : List UInt8 := []
  /-- History: the bytes that reads have returned. -/
  returned : List UInt8 := []

inductive CbufAction
  | callRead (length : Nat)
  | reader
  | callWrite (data : List UInt8)
  | writer
  deriving DecidableEq, Repr

/-- The next step of the reader. -/
def readerStep (s : ConcState) : Option ConcState :=
  match s.reader with
  | .idle => none
  | .loadRp length => some { s with reader := .loadWp length s.cbuf.rp }
  | .loadWp length rp =>
      some { s with reader := .copy (min length (storeLen s.cbuf.length rp s.cbuf.wp)) rp [] }
  | .copy (left + 1) rp data =>
      let next := nextPointer s.cbuf.buffer (s.cbuf.buffer + s.cbuf.length) rp
      some { s with reader := .copy left next (data ++ [s.mem rp]) }
  | .copy 0 rp data =>
      some { s with
        cbuf := { s.cbuf with rp := rp }
        reader := .idle
        returned := s.returned ++ data }

/-- The next step of the writer; a write that does not fit only sets `write_overflow`. -/
def writerStep (s : ConcState) : Option ConcState :=
  match s.writer with
  | .idle => none
  | .loadRp data => some { s with writer := .loadWp data s.cbuf.rp }
  | .loadWp data rp =>
      if freeLen s.cbuf.length rp s.cbuf.wp < data.length then
        some { s with writer := .idle, writeOverflow := true }
      else some { s with writer := .copy data s.cbuf.wp [] }
  | .copy (b :: rest) wp done =>
      let next := nextPointer s.cbuf.buffer (s.cbuf.buffer + s.cbuf.length) wp
      some { s with mem := Function.update s.mem wp b, writer := .copy rest next (done ++ [b]) }
  | .copy [] wp done =>
      some { s with
        cbuf := { s.cbuf with wp := wp }
        writer := .idle
        written := s.written ++ done }

def concStep (s : ConcState) : CbufAction → Option ConcState
  | .callRead length => if s.reader = .idle then some { s with reader := .loadRp length } else none
  | .reader => readerStep s
  | .callWrite data => if s.writer = .idle then some { s with writer := .loadRp data } else none
  | .writer => writerStep s

/-- `init_concurrent_cbuf`. -/
def initConcurrentCbuf (m : Mem) (p : CircularBuffer) (buffer length : Nat) : ConcState :=
  { mem := m, cbuf := initCircularBuffer p buffer length }

/-- The addresses of `n` bytes from a pointer on. -/
def pointersFrom (begin fin : Nat) : Nat → Nat → List Nat
  | 0, _ => []
  | n + 1, p => p :: pointersFrom begin fin n (nextPointer begin fin p)

/-- The addresses of the bytes between the published pointers: stored, and not yet consumed. -/
def ConcState.stored (s : ConcState) : List Nat :=
  pointersFrom s.cbuf.buffer (s.cbuf.buffer + s.cbuf.length)
    (storeLen s.cbuf.length s.cbuf.rp s.cbuf.wp) s.cbuf.rp

/-- The bytes between the published pointers. -/
def ConcState.contents (s : ConcState) : List UInt8 := s.stored.map s.mem

/-! ## The invariant -/

/-- What the reader knows: its pointer is the published one or ahead of it, by bytes that have been
published. -/
def ReaderOk (b L : Nat) (s : ConcState) : Prop :=
  match s.reader with
  | .idle | .loadRp _ => True
  | .loadWp _ rp => rp = s.cbuf.rp
  | .copy left rp data =>
      rp = b + (s.returned.length + data.length) % L ∧
        s.returned ++ data <+: s.written ∧
        s.returned.length + data.length + left ≤ s.written.length

/-- What the writer knows: the read pointer was where it saw it, and may have moved on since; the
bytes it has copied lie behind those that are published. -/
def WriterOk (b L : Nat) (s : ConcState) : Prop :=
  match s.writer with
  | .idle | .loadRp _ => True
  | .loadWp _ rp => ∃ seen, seen ≤ s.returned.length ∧ s.written.length < seen + L ∧ rp = b + seen % L
  | .copy rest wp done =>
      wp = b + (s.written.length + done.length) % L ∧
        s.written.length + done.length + rest.length < s.returned.length + L ∧
        RingHolds L (cells b s.mem) s.written.length done

structure ConcInv (b L : Nat) (s : ConcState) : Prop where
  buffer : s.cbuf.buffer = b
  length : s.cbuf.length = L
  rp : s.cbuf.rp = b + s.returned.length % L
  wp : s.cbuf.wp = b + s.written.length % L
  order : s.returned <+: s.written
  room : s.written.length < s.returned.length + L
  holds : RingHolds L (cells b s.mem) s.returned.length (s.written.drop s.returned.length)
  reader : ReaderOk b L s
  writer : WriterOk b L s

section Invariant

variable {b L : Nat} {s s' : ConcState}

theorem ConcInv.init (m : Mem) (p : CircularBuffer) (hb : b ≠ 0) (hL : 1 ≤ L) :
    ConcInv b L (initConcurrentCbuf m p b L) := by
  rw [initConcurrentCbuf, initCircularBuffer, if_neg hb]
  have hroom : ([] : List UInt8).length < ([] : List UInt8).length + L := by
    rw [List.length_nil]
    omega
  exact ⟨rfl, rfl, by simp, by simp, List.prefix_rfl, hroom, trivial, trivial, trivial⟩

theorem ConcInv.le (h : ConcInv b L s) : s.returned.length ≤ s.written.length := h.order.length_le

/-- The published bytes, by their number of steps. -/
theorem ConcInv.cell (h : ConcInv b L s) {data : List UInt8} (hdata : s.returned ++ data <+: s.written) :
    RingHolds L (cells b s.mem) s.returned.length data := by
  obtain ⟨rest, hrest⟩ := hdata
  have hholds := h.holds
  rw [← hrest, List.append_assoc, List.drop_left, ringHolds_append] at hholds
  exact hholds.1

/-- The byte that the reader copies next is the next published one. -/
theorem ConcInv.next (h : ConcInv b L s) {data : List UInt8} (hdata : s.returned ++ data <+: s.written)
    (hlt : s.returned.length + data.length < s.written.length) :
    s.returned ++ (data ++ [s.mem (b + (s.returned.length + data.length) % L)]) <+: s.written := by
  obtain ⟨rest, hrest⟩ := hdata
  cases rest with
  | nil =>
      rw [← hrest] at hlt
      simp at hlt
  | cons x rest =>
      have hpre : s.returned ++ (data ++ [x]) <+: s.written := ⟨rest, by rw [← hrest]; simp⟩
      have hcell := (ringHolds_append.1 (h.cell hpre)).2.1
      rw [show s.mem (b + (s.returned.length + data.length) % L) = x from hcell]
      exact hpre

/-! ## Steps of the reader -/

theorem ConcInv.readerStep (h : ConcInv b L s) (hL : L < 2 ^ 31) (hs : readerStep s = some s') :
    ConcInv b L s' := by
  have hle := h.le
  have hroom := h.room
  have hreader := h.reader
  rw [ReaderOk] at hreader
  unfold Lib.readerStep at hs
  split at hs
  · cases hs
  · cases hs
    exact { h with reader := rfl, writer := h.writer }
  · next length rp heq =>
      cases hs
      rw [heq] at hreader
      refine { h with reader := ?_, writer := h.writer }
      -- the bytes stored when the write pointer is loaded
      have hn : storeLen s.cbuf.length rp s.cbuf.wp = s.written.length - s.returned.length := by
        have hsum : s.written.length = s.returned.length + (s.written.length - s.returned.length) := by
          omega
        rw [hreader, h.length, h.rp, h.wp, hsum, storeLen_add hL (by omega)]
        omega
      refine ⟨?_, ?_, ?_⟩
      · rw [hreader, h.rp, List.length_nil, Nat.add_zero]
      · rw [List.append_nil]
        exact h.order
      · rw [hn]
        simp only [List.length_nil]
        omega
  · next left rp data heq =>
      cases hs
      rw [heq] at hreader
      obtain ⟨hrp, hpre, hcount⟩ := hreader
      refine { h with reader := ⟨?_, ?_, ?_⟩, writer := h.writer }
      · rw [h.buffer, h.length, hrp, nextPointer_add (by omega), List.length_append,
          List.length_singleton, Nat.add_assoc]
      · rw [hrp]
        exact h.next hpre (by omega)
      · simp only [List.length_append, List.length_singleton]
        omega
  · next rp data heq =>
      cases hs
      rw [heq] at hreader
      obtain ⟨hrp, hpre, hcount⟩ := hreader
      have hlen : (s.returned ++ data).length = s.returned.length + data.length :=
        List.length_append
      refine ⟨h.buffer, h.length, ?_, h.wp, hpre, ?_, ?_, trivial, ?_⟩
      · rw [hlen]
        exact hrp
      · simp only [hlen]
        omega
      · obtain ⟨rest, hrest⟩ := hpre
        have hholds := h.holds
        rw [← hrest, List.append_assoc, List.drop_left, ringHolds_append] at hholds
        rw [← hrest, List.drop_left, hlen]
        exact hholds.2
      · -- the writer's view of the read pointer only becomes older
        have hwriter := h.writer
        rw [WriterOk] at hwriter ⊢
        cases hw : s.writer with
        | idle => trivial
        | loadRp data' => trivial
        | loadWp data' rp' =>
            rw [hw] at hwriter
            obtain ⟨seen, hseen, hlt, heq'⟩ := hwriter
            exact ⟨seen, by simp only [hlen]; omega, hlt, heq'⟩
        | copy rest' wp' done' =>
            rw [hw] at hwriter
            obtain ⟨hwp', hlt, hdone⟩ := hwriter
            exact ⟨hwp', by simp only [hlen]; omega, hdone⟩

/-! ## Steps of the writer -/

/-- Storing the next byte of a write changes no byte that is published or has been copied before. -/
theorem ConcInv.store (h : ConcInv b L s) {done : List UInt8}
    (hdone : RingHolds L (cells b s.mem) s.written.length done)
    (hlt : s.written.length + done.length < s.returned.length + L) (x : UInt8) :
    let m' := Function.update s.mem (b + (s.written.length + done.length) % L) x
    RingHolds L (cells b m') s.returned.length (s.written.drop s.returned.length) ∧
      RingHolds L (cells b m') s.written.length (done ++ [x]) := by
  intro m'
  have hle := h.le
  -- the published bytes and the copied ones lie behind one another
  have hlen : (s.written.drop s.returned.length).length = s.written.length - s.returned.length :=
    List.length_drop
  have hk : s.returned.length + (s.written.drop s.returned.length).length = s.written.length := by
    omega
  have hall : RingHolds L (cells b s.mem) s.returned.length
      (s.written.drop s.returned.length ++ done) := by
    rw [ringHolds_append, hk]
    exact ⟨h.holds, hdone⟩
  have hpush := hall.push (by rw [List.length_append]; omega) x
  rw [List.length_append, ← Nat.add_assoc, hk, ← cells_update, List.append_assoc,
    ringHolds_append, hk] at hpush
  exact hpush

theorem ConcInv.writerStep (h : ConcInv b L s) (hL : L < 2 ^ 31) (hs : writerStep s = some s') :
    ConcInv b L s' := by
  have hle := h.le
  have hroom := h.room
  have hwriter := h.writer
  rw [WriterOk] at hwriter
  unfold Lib.writerStep at hs
  split at hs
  · cases hs
  · cases hs
    exact { h with reader := h.reader, writer := ⟨s.returned.length, Nat.le_refl _, hroom, h.rp⟩ }
  · next data rp heq =>
      rw [heq] at hwriter
      obtain ⟨seen, hseen, hlt, hrp⟩ := hwriter
      -- the free space as computed from an old read pointer
      have hfree : freeLen s.cbuf.length rp s.cbuf.wp = L - 1 - (s.written.length - seen) := by
        have hsum : s.written.length = seen + (s.written.length - seen) := by omega
        rw [h.length, hrp, h.wp, hsum, freeLen_add hL (by omega)]
        omega
      split_ifs at hs with hfit
      · cases hs
        exact { h with reader := h.reader, writer := trivial }
      · cases hs
        rw [hfree] at hfit
        refine { h with reader := h.reader, writer := ⟨?_, ?_, trivial⟩ }
        · rw [h.wp, List.length_nil, Nat.add_zero]
        · simp only [List.length_nil]
          omega
  · next x rest wp done heq =>
      cases hs
      rw [heq] at hwriter
      obtain ⟨hwp, hlt, hdone⟩ := hwriter
      rw [List.length_cons] at hlt
      obtain ⟨hholds, hdone'⟩ := h.store hdone (by omega) x
      rw [← hwp] at hholds hdone'
      refine ⟨h.buffer, h.length, h.rp, h.wp, h.order, hroom, hholds, h.reader, ?_, ?_, hdone'⟩
      · rw [h.buffer, h.length, hwp, nextPointer_add (by omega), List.length_append,
          List.length_singleton, Nat.add_assoc]
      · simp only [List.length_append, List.length_singleton]
        omega
  · next wp done heq =>
      cases hs
      rw [heq] at hwriter
      obtain ⟨hwp, hlt, hdone⟩ := hwriter
      have hlen : (s.written ++ done).length = s.written.length + done.length := List.length_append
      have hpre : s.written <+: s.written ++ done := List.prefix_append _ _
      refine ⟨h.buffer, h.length, h.rp, ?_, h.order.trans hpre, ?_, ?_, ?_, trivial⟩
      · rw [hlen]
        exact hwp
      · rw [hlen]
        simpa using hlt
      · have hk : s.returned.length + (s.written.drop s.returned.length).length =
            s.written.length := by
          rw [List.length_drop]
          omega
        rw [List.drop_append_of_le_length hle, ringHolds_append, hk]
        exact ⟨h.holds, hdone⟩
      · -- what the reader is going to read stays published
        have hreader := h.reader
        rw [ReaderOk] at hreader ⊢
        cases hr : s.reader with
        | idle => trivial
        | loadRp length => trivial
        | loadWp length rp =>
            rw [hr] at hreader
            exact hreader
        | copy left rp data =>
            rw [hr] at hreader
            obtain ⟨hrp, hdata, hcount⟩ := hreader
            exact ⟨hrp, hdata.trans hpre, by simp only [hlen]; omega⟩

theorem ConcInv.step (h : ConcInv b L s) (hL : L < 2 ^ 31) {a : CbufAction}
    (hs : concStep s a = some s') : ConcInv b L s' := by
  cases a with
  | reader => exact h.readerStep hL hs
  | writer => exact h.writerStep hL hs
  | callRead length =>
      simp only [concStep] at hs
      split_ifs at hs
      cases hs
      exact { h with reader := trivial, writer := h.writer }
  | callWrite data =>
      simp only [concStep] at hs
      split_ifs at hs
      cases hs
      exact { h with reader := h.reader, writer := trivial }

/-! ## Safety -/

theorem mem_pointersFrom (hL : 0 < L) {n k x : Nat} :
    x ∈ pointersFrom b (b + L) n (b + k % L) ↔ ∃ i, i < n ∧ x = b + (k + i) % L := by
  induction n generalizing k with
  | zero => simp [pointersFrom]
  | succ n ih =>
      rw [pointersFrom, nextPointer_add hL, List.mem_cons, ih]
      constructor
      · rintro (rfl | ⟨i, hi, rfl⟩)
        · exact ⟨0, by omega, rfl⟩
        · exact ⟨i + 1, by omega, by rw [Nat.add_assoc, Nat.add_comm 1]⟩
      · rintro ⟨i, hi, rfl⟩
        cases i with
        | zero => exact Or.inl rfl
        | succ i => exact Or.inr ⟨i, by omega, by rw [Nat.add_assoc, Nat.add_comm 1]⟩

theorem map_pointersFrom (hL : 0 < L) {m : Mem} {k : Nat} {q : List UInt8}
    (hq : RingHolds L (cells b m) k q) :
    (pointersFrom b (b + L) q.length (b + k % L)).map m = q := by
  induction q generalizing k with
  | nil => rfl
  | cons x q ih =>
      have hx : m (b + k % L) = x := hq.1
      rw [List.length_cons, pointersFrom, nextPointer_add hL, List.map_cons, ih hq.2, hx]

theorem ConcInv.stored (h : ConcInv b L s) (hL : L < 2 ^ 31) :
    s.stored = pointersFrom b (b + L) (s.written.length - s.returned.length)
      (b + s.returned.length % L) := by
  have hle := h.le
  have hroom := h.room
  have hsum : s.written.length = s.returned.length + (s.written.length - s.returned.length) := by
    omega
  rw [ConcState.stored, h.buffer, h.length, h.rp, h.wp]
  conv_lhs => rw [hsum, storeLen_add hL (by omega)]

/-- What has been written is what has been returned and what is in the buffer. -/
theorem ConcInv.contents (h : ConcInv b L s) (hL : L < 2 ^ 31) :
    s.returned ++ s.contents = s.written := by
  have hroom := h.room
  have hle := h.le
  have hmap := map_pointersFrom (by omega) h.holds
  rw [List.length_drop] at hmap
  rw [ConcState.contents, h.stored hL, hmap]
  obtain ⟨rest, hrest⟩ := h.order
  rw [← hrest, List.drop_left]

/-- The byte that the writer stores is not one that is stored and not yet consumed. -/
theorem ConcInv.writer_apart (h : ConcInv b L s) (hL : L < 2 ^ 31) {x : UInt8} {rest done : List UInt8}
    {wp : Nat} (hw : s.writer = .copy (x :: rest) wp done) : wp ∉ s.stored := by
  have hle := h.le
  have hwriter := h.writer
  rw [WriterOk, hw] at hwriter
  obtain ⟨hwp, hlt, -⟩ := hwriter
  rw [List.length_cons] at hlt
  rw [h.stored hL, mem_pointersFrom (by omega)]
  rintro ⟨i, hi, heq⟩
  -- both positions are within one round from the published read pointer
  have hn : s.written.length + done.length =
      s.returned.length + (s.written.length - s.returned.length + done.length) := by omega
  rw [hwp, hn] at heq
  exact add_mod_ne s.returned.length (by omega) (by omega) (by omega) (Nat.add_left_cancel heq)

/-- The byte that the reader copies is stored, and is the next one in the order of the writes. -/
theorem ConcInv.reader_published (h : ConcInv b L s) (hL : L < 2 ^ 31) {left rp : Nat}
    {data : List UInt8} (hr : s.reader = .copy (left + 1) rp data) :
    rp ∈ s.stored ∧ s.returned ++ (data ++ [s.mem rp]) <+: s.written := by
  have hroom := h.room
  have hreader := h.reader
  rw [ReaderOk, hr] at hreader
  obtain ⟨hrp, hdata, hcount⟩ := hreader
  constructor
  · rw [h.stored hL, mem_pointersFrom (by omega)]
    exact ⟨data.length, by omega, hrp⟩
  · rw [hrp]
    exact h.next hdata (by omega)

end Invariant

/-- In every interleaving of a reader and a writer of a buffer of length `L`: the writer stores to no
address that holds a byte not yet consumed, the reader copies published bytes only, and the bytes
returned, followed by those in the buffer, are the bytes written. -/
theorem concRun_safe {b L : Nat} (hb : b ≠ 0) (h₁ : 1 ≤ L) (hL : L < 2 ^ 31) (m : Mem)
    (p : CircularBuffer) {as : List CbufAction} {s : ConcState}
    (hrun : runFrom concStep (initConcurrentCbuf m p b L) as = some s) :
    (∀ x rest wp done, s.writer = .copy (x :: rest) wp done → wp ∉ s.stored) ∧
      (∀ left rp data, s.reader = .copy (left + 1) rp data →
        rp ∈ s.stored ∧ s.returned ++ (data ++ [s.mem rp]) <+: s.written) ∧
      s.returned <+: s.written ∧ s.returned ++ s.contents = s.written := by
  have hinv : ConcInv b L s :=
    runFrom_invariant (fun _ _ _ h hs => h.step hL hs) (ConcInv.init m p hb h₁) hrun
  exact ⟨fun _ _ _ _ hw => hinv.writer_apart hL hw, fun _ _ _ hr => hinv.reader_published hL hr,
    hinv.order, hinv.contents hL⟩

/-- A buffer of length 3: a write that does not fit while the reader is still copying, and one that
goes around the end after it. -/
theorem concRun_safe_overlap :
    ∃ s, runFrom concStep (initConcurrentCbuf (fun _ => 0) ⟨0, 0, 0, 0⟩ 4096 3)
        [.callWrite [1, 2], .writer, .writer, .writer, .writer, .writer, .callRead 1, .reader, .reader,
          .callWrite [3], .writer, .reader, .writer, .reader, .callWrite [3], .writer, .writer,
          .callRead 5, .reader, .writer, .reader, .writer, .reader] = some s ∧
      (s.returned = [1] ∧ s.written = [1, 2, 3] ∧ s.writeOverflow = true) ∧
      s.returned <+: s.written := by
  have hend : (runFrom concStep (initConcurrentCbuf (fun _ => 0) ⟨0, 0, 0, 0⟩ 4096 3)
      [.callWrite [1, 2], .writer, .writer, .writer, .writer, .writer, .callRead 1, .reader, .reader,
        .callWrite [3], .writer, .reader, .writer, .reader, .callWrite [3], .writer, .writer,
        .callRead 5, .reader, .writer, .reader, .writer, .reader]).map
      (fun s => (s.returned, s.written, s.writeOverflow)) = some ([1], [1, 2, 3], true) := by
    decide
  obtain ⟨s, hrun, hs⟩ := Option.map_eq_some_iff.1 hend
  simp only [Prod.mk.injEq] at hs
  exact ⟨s, hrun, hs, (concRun_safe (by decide) (by decide) (by decide) _ _ hrun).2.2.1⟩

end Lib
end ToutOS
