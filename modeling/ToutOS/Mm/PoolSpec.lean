import Mathlib.Logic.Function.Iterate
import ToutOS.Mm.PoolLayout

/-!
# PoolSpec — `alloc_mem`, `free_mem` and `init_mm` on the blocks of a pool

`PoolWf` ties the state of the allocator to a list of blocks: they fill the pool, no two neighbours
are free, and the pool ends at the break of `sbrk_func`.  Each operation is described by the list it
leaves behind:

* `enlargeMemPool_spec` — `growBlks`: the pool doubles, and a free last block grows with it;
* `findAFreeBlk_spec` — first fit after as few doublings as possible (`doubled`);
* `allocMem_spec`, `freeMem_spec`, `initMm_spec`.

All of them keep the bytes of the blocks in use.
-/

namespace ToutOS
namespace Mm

open Base

variable {σ : Type} {sbrkFunc : σ → Nat → Option Nat × σ} {brk : σ → Nat} {base : Nat}

/-- What a pool relies on: `sbrk_func` hands out one contiguous range of valid memory from `base`
on, shorter than `2 ^ 31` bytes; a failing call leaves the break where it is. -/
structure ContiguousSbrk (sbrkFunc : σ → Nat → Option Nat × σ) (brk : σ → Nat) (base : Nat) :
    Prop where
  success : ∀ k n r k', sbrkFunc k n = (some r, k') →
    r = brk k ∧ brk k' = brk k + n ∧ brk k' < base + 2 ^ 31
  failure : ∀ k n k', sbrkFunc k n = (none, k') → brk k' = brk k
  base_ge : 8 ≤ base
  base_le : base + 2 ^ 31 ≤ 2 ^ 64

/-- The kernel's `sbrk` is one. -/
theorem kernelMockSbrk_contiguous :
    ContiguousSbrk kernelMockSbrk MockSbrk.last mockSbrkInit.last := by
  refine ⟨?_, ?_, by decide, by decide⟩
  · intro k n r k' hcall
    by_cases hfit : k.allocatedSize + n ≤ memPoolSize
    · simp only [kernelMockSbrk, hfit, dite_true, Prod.mk.injEq, Option.some.injEq] at hcall
      obtain ⟨rfl, rfl⟩ := hcall
      have hlast := k.last_eq
      refine ⟨rfl, rfl, ?_⟩
      simp only [memPoolSize, mockSbrkInit] at hfit ⊢
      omega
    · simp [kernelMockSbrk, hfit] at hcall
  · intro k n k' hcall
    by_cases hfit : k.allocatedSize + n ≤ memPoolSize
    · simp [kernelMockSbrk, hfit] at hcall
    · simp only [kernelMockSbrk, hfit, dite_false, Prod.mk.injEq, true_and] at hcall
      rw [hcall]

/-- The pool consists of the blocks `bs`. -/
structure PoolWf (brk : σ → Nat) (base : Nat) (st : PoolState σ) (bs : List Blk) : Prop where
  start_eq : st.pool.start = base
  brk_eq : brk st.sbrk = st.pool.end_
  bounds : PoolBounds st.pool
  laid : Laid st.mem st.pool.start bs st.pool.end_
  noAdj : NoAdjFree bs
  ne_nil : bs ≠ []

theorem PoolWf.span_ge {st : PoolState σ} {bs : List Blk} (h : PoolWf brk base st bs) :
    40 ≤ span Blk.len bs := by
  cases bs with
  | nil => exact absurd rfl h.ne_nil
  | cons b bs =>
      have := b.len_ge
      simp only [span_cons]
      omega

/-! ## Growing -/

/-- A pool that has doubled. -/
def growBlks (bs : List Blk) : List Blk := coalesce bs (span Blk.len bs) []

theorem used_growBlks {a : Nat} {bs : List Blk} (h : 40 ≤ span Blk.len bs) :
    used a (growBlks bs) = used a bs := by
  rw [growBlks, used_coalesce (dvd_span bs) h]
  simp [used]

theorem span_growBlks {bs : List Blk} (h : 40 ≤ span Blk.len bs) :
    span Blk.len (growBlks bs) = 2 * span Blk.len bs := by
  rw [growBlks, span_coalesce (dvd_span bs) h, span_nil]
  omega

/-- The pool after `k` calls of `enlarge_mem_pool`, all of which have made it larger. -/
def doubled (sbrkFunc : σ → Nat → Option Nat × σ) : Nat → PoolState σ → Option (PoolState σ)
  | 0, st => some st
  | k + 1, st =>
      match enlargeMemPool sbrkFunc st with
      | some (true, st) => doubled sbrkFunc k st
      | _ => none

/-- What a call leaves unchanged when `bs` are the blocks before it: the blocks in use, and the
memory outside of the pool. -/
structure Preserves (st st' : PoolState σ) (bs : List Blk) : Prop where
  start_eq : st'.pool.start = st.pool.start
  end_le : st.pool.end_ ≤ st'.pool.end_
  keeps : KeepsUsed st.mem st'.mem st.pool.start bs
  outside : ∀ x, x < st'.pool.start ∨ st'.pool.end_ ≤ x → st'.mem x = st.mem x

theorem Preserves.refl (st : PoolState σ) (bs : List Blk) : Preserves st st bs :=
  ⟨rfl, Nat.le_refl _, fun _ _ _ _ _ _ => rfl, fun _ _ => rfl⟩

theorem Preserves.trans {st₁ st₂ st₃ : PoolState σ} {bs cs : List Blk}
    (h₁ : Preserves st₁ st₂ bs) (h₂ : Preserves st₂ st₃ cs)
    (hused : ∀ xb ∈ used st₁.pool.start bs, xb ∈ used st₁.pool.start cs) :
    Preserves st₁ st₃ bs := by
  refine ⟨h₂.start_eq.trans h₁.start_eq, h₁.end_le.trans h₂.end_le, ?_, ?_⟩
  · intro z c hc y hy₁ hy₂
    have hc' : (z, c) ∈ used st₂.pool.start cs := by
      rw [h₁.start_eq]
      exact hused (z, c) hc
    exact (h₂.keeps z c hc' y hy₁ hy₂).trans (h₁.keeps z c hc y hy₁ hy₂)
  · intro x hx
    have hs := h₂.start_eq
    have he := h₂.end_le
    exact (h₂.outside x hx).trans (h₁.outside x (by omega))

section Operations

variable (hsbrk : ContiguousSbrk sbrkFunc brk base)

include hsbrk

/-- The pool doubles, or `sbrk_func` fails and nothing changes. -/
theorem enlargeMemPool_spec {st : PoolState σ} {bs : List Blk} (h : PoolWf brk base st bs) :
    (∃ k, enlargeMemPool sbrkFunc st = some (false, { st with sbrk := k }) ∧
      brk k = brk st.sbrk) ∨
    ∃ st', enlargeMemPool sbrkFunc st = some (true, st') ∧ PoolWf brk base st' (growBlks bs) ∧
      Preserves st st' bs ∧ st'.pool.totalLength = st.pool.totalLength := by
  have hend := h.laid.2
  have hstart := h.bounds.start_ge
  have hsize := h.bounds.size_lt
  have haddr := h.bounds.addr_le
  have hspan := h.span_ge
  have hbase := h.start_eq
  have hinc : sub64 st.pool.end_ st.pool.start = span Blk.len bs := by
    rw [sub64_of_le (by omega) (by omega)]
    omega
  rcases hcall : sbrkFunc st.sbrk (span Blk.len bs) with ⟨_ | ret, k⟩
  · refine Or.inl ⟨k, ?_, hsbrk.failure _ _ _ hcall⟩
    simp only [enlargeMemPool, hinc, hcall]
  · obtain ⟨hret, hbrk, hlim⟩ := hsbrk.success _ _ _ _ hcall
    rw [h.brk_eq] at hret hbrk
    subst hret
    have hend' : add64 st.pool.end_ (span Blk.len bs) = st.pool.end_ + span Blk.len bs :=
      add64_of_lt (by omega)
    have hlen : (freeBlk (span Blk.len bs)).len = span Blk.len bs := freeBlk_len (dvd_span bs) hspan
    -- the new block lies behind the pool, so the old blocks are still there
    have hout : ∀ x, x < st.pool.end_ ∨ st.pool.end_ + span Blk.len bs ≤ x →
        initFreeBlk st.mem st.pool.end_ (span Blk.len bs) x = st.mem x := fun x hx =>
      initFreeBlk_outside hspan (by omega) (by omega) hx
    have hold := laid_congr h.laid fun x _ hx => hout x (Or.inl hx)
    have hnew := initFreeBlk_spec (m := st.mem) (p := st.pool.end_) (dvd_span bs) hspan
      (by omega) (by omega)
    have hpool : PoolBounds { st.pool with end_ := st.pool.end_ + span Blk.len bs } :=
      ⟨hstart, by simp only; omega, haddr⟩
    obtain ⟨m', hmerge, hlaid, hkeeps, hframe⟩ := mergeFreeBlk_spec hpool hold
      hnew.toHdrAt rfl (show Laid _ _ [] _ from tiles_nil.2 (by rw [hlen]))
    rw [hlen] at hlaid hkeeps
    refine Or.inr ⟨⟨m', { st.pool with end_ := st.pool.end_ + span Blk.len bs }, k⟩, ?_, ⟨hbase, hbrk, hpool, hlaid, h.noAdj.coalesce List.isChain_nil, ?_⟩,
      ⟨rfl, by simp, ?_, ?_⟩, rfl⟩
    · simp only [enlargeMemPool, hinc, hcall, hend', hmerge, Option.map_some]
    · simp [growBlks, coalesce]
    · intro z c hc y hy₁ hy₂
      have hbounds := placed_bounds (mem_used.1 hc).1
      rw [← used_growBlks hspan] at hc
      exact (hkeeps z c hc y hy₁ hy₂).trans (hout y (by omega))
    · intro x hx
      simp only at hx
      exact (hframe x hx).trans (hout x (by omega))

/-- The search returns the first block that fits, after as many doublings as it takes; it fails only
when `sbrk_func` does. -/
theorem findAFreeBlk_spec (size : Nat) {rounds : Nat} :
    ∀ {st : PoolState σ} {bs : List Blk}, PoolWf brk base st bs →
      2 ^ 31 ≤ span Blk.len bs * 2 ^ rounds →
      ∃ p st' k t, findAFreeBlk sbrkFunc size rounds st = some (p, st') ∧
        doubled sbrkFunc k st = some t ∧ (∀ j < k, ∀ b ∈ growBlks^[j] bs, ¬b.Fits size) ∧
        PoolWf brk base st' (growBlks^[k] bs) ∧ Preserves st st' bs ∧
        used base (growBlks^[k] bs) = used base bs ∧
        st'.pool.totalLength = st.pool.totalLength ∧
        ((p = 0 ∧ enlargeMemPool sbrkFunc t = some (false, st') ∧
            ∀ b ∈ growBlks^[k] bs, ¬b.Fits size) ∨
          ∃ pre b post, growBlks^[k] bs = pre ++ b :: post ∧ p = base + span Blk.len pre ∧
            st' = t ∧ b.Fits size ∧ ∀ c ∈ pre, ¬c.Fits size) := by
  -- each round doubles the pool, which stays below `2 ^ 31` bytes
  induction rounds with
  | zero =>
      intro st bs h hrounds
      have hend := h.laid.2
      have hsize := h.bounds.size_lt
      omega
  | succ rounds ih =>
      intro st bs h hrounds
      have hstart := h.bounds.start_ge
      have hbase := h.start_eq
      have hspan := h.span_ge
      obtain ⟨b, bs', rfl⟩ := List.exists_cons_of_ne_nil h.ne_nil
      have hfuel : (b :: bs').length ≤ st.pool.fuel := by
        have h₁ := length_le_span (b :: bs')
        have h₂ := h.laid.2
        simp only [MemPool.fuel]
        omega
      rcases scanFreeBlk_spec size h.bounds (show st.pool.start ≠ 0 by omega) h.laid hfuel
        with ⟨hscan, hnone⟩ | ⟨pre, c, post, heq, hscan, hfit, hpre⟩
      · rcases enlargeMemPool_spec hsbrk h with ⟨k, henl, hbrk⟩ | ⟨st', henl, hwf, hpres, htot⟩
        · -- nothing fits and the pool cannot grow any more
          refine ⟨0, { st with sbrk := k }, 0, st, ?_, rfl,
            fun j hj => absurd hj (Nat.not_lt_zero j), ?_, ?_, rfl, rfl,
            Or.inl ⟨rfl, henl, hnone⟩⟩
          · simp [findAFreeBlk, hscan, henl]
          · exact ⟨h.start_eq, hbrk.trans h.brk_eq, h.bounds, h.laid, h.noAdj, h.ne_nil⟩
          · exact ⟨rfl, Nat.le_refl _, fun _ _ _ _ _ _ => rfl, fun _ _ => rfl⟩
        · have hrounds' : 2 ^ 31 ≤ span Blk.len (growBlks (b :: bs')) * 2 ^ rounds := by
            calc 2 ^ 31 ≤ span Blk.len (b :: bs') * 2 ^ (rounds + 1) := hrounds
              _ = 2 * span Blk.len (b :: bs') * 2 ^ rounds := by ring
              _ = span Blk.len (growBlks (b :: bs')) * 2 ^ rounds := by rw [span_growBlks hspan]
          obtain ⟨p, st'', k, t, hfind, hdoubled, hleast, hwf', hpres', hused, htot', hres⟩ :=
            ih hwf hrounds'
          refine ⟨p, st'', k + 1, t, ?_, ?_, ?_, hwf', ?_, ?_, htot'.trans htot, hres⟩
          · simp [findAFreeBlk, hscan, henl, hfind]
          · rw [doubled, henl]
            exact hdoubled
          · intro j hj
            cases j with
            | zero => exact hnone
            | succ j => exact hleast j (by omega)
          · refine hpres.trans hpres' fun xb hxb => ?_
            rwa [used_growBlks hspan]
          · exact hused.trans (used_growBlks hspan)
      · -- the first block that fits; its address is not the 0 that stands for none
        have hp : st.pool.start + span Blk.len pre ≠ 0 := by omega
        refine ⟨st.pool.start + span Blk.len pre, st, 0, st, ?_, rfl,
          fun j hj => absurd hj (Nat.not_lt_zero j), h, Preserves.refl st _, rfl, rfl, Or.inr ⟨pre, c, post, heq, by rw [hbase], rfl, hfit, hpre⟩⟩
        simp [findAFreeBlk, hscan, show st.pool.start ≠ 0 by omega]

/-! ## Allocating -/

omit hsbrk in
/-- Handing out the block after `pre`. -/
theorem markMemBlk_wf {st : PoolState σ} {pre post : List Blk} {b : Blk} {size n t : Nat}
    (h : PoolWf brk base st (pre ++ b :: post)) (hfit : b.Fits size) (h8 : 8 ∣ size)
    (hn : n < 2 ^ 64) :
    ∃ m', setUserLen (markMemBlk st.pool st.mem (base + span Blk.len pre) size)
        (base + span Blk.len pre) n = m' ∧
      PoolWf brk base { st with mem := m', pool := { st.pool with totalLength := t } }
        (pre ++ (carve b size n ++ post)) ∧
      Preserves st { st with mem := m', pool := { st.pool with totalLength := t } }
        (pre ++ b :: post) ∧
      userStart m' (base + span Blk.len pre) = base + span Blk.len pre + 32 ∧
      ∀ c ∈ (carve b size n).head?, ∀ x, base + span Blk.len pre + 32 ≤ x →
        x + 8 < base + span Blk.len pre + c.len → m' x = 0 := by
  have hbase := h.start_eq
  obtain ⟨a, hpre, hrest⟩ := tiles_append.1 h.laid
  obtain ⟨hb, hpost⟩ := tiles_cons.1 hrest
  have ha := hpre.2
  have hend := hpost.2
  have haeq : base + span Blk.len pre = a := by rw [← ha, hbase]
  rw [haeq]
  obtain ⟨hlaid, hout, hzero⟩ := markMemBlk_spec (n := n) h.bounds hb hfit h8 (by omega) (by omega) hn
  obtain ⟨u, rest, hcarve, huser, -, -, hspan⟩ := carve_eq n h8 hfit.2
  refine ⟨_, rfl, ⟨hbase, h.brk_eq, ⟨h.bounds.start_ge, h.bounds.size_lt, h.bounds.addr_le⟩, ?_,
    h.noAdj.carve h8 hfit, by simp [hcarve]⟩, ⟨rfl, Nat.le_refl _, ?_, ?_⟩, ?_, hzero⟩
  · -- in front of the block and behind it nothing has changed
    refine tiles_append.2 ⟨a, ?_, tiles_append.2 ⟨a + b.len, hlaid, ?_⟩⟩
    · exact laid_congr hpre fun x _ hx => hout x (Or.inl hx)
    · exact laid_congr hpost fun x hx _ => hout x (Or.inr hx)
  · intro z c hc y hy₁ hy₂
    rw [used_append, used_cons_of_free hfit.1] at hc
    rcases List.mem_append.1 hc with hc | hc
    · have := placed_bounds (mem_used.1 hc).1
      exact hout y (by omega)
    · have := placed_bounds (mem_used.1 hc).1
      exact hout y (by omega)
  · intro x hx
    simp only at hx
    exact hout x (by omega)
  · rw [hcarve] at hlaid
    exact ((tiles_cons.1 hlaid).1.user n huser).1

/-- `alloc_mem`: either the pool has grown as far as it can and nothing fits, or the first block
that fits, after as many doublings as it takes, is handed out with zeroed contents. -/
theorem allocMem_spec {st : PoolState σ} {bs : List Blk} {size : Nat} (h : PoolWf brk base st bs)
    (hsize : size < 2 ^ 64) :
    ∃ p st' k, allocMem sbrkFunc st size = some (p, st') ∧ Preserves st st' bs ∧
      used base (growBlks^[k] bs) = used base bs ∧
      ((p = 0 ∧ PoolWf brk base st' (growBlks^[k] bs) ∧
          st'.pool.totalLength = st.pool.totalLength) ∨
        ∃ pre b post, growBlks^[k] bs = pre ++ b :: post ∧ b.Fits (alignedTo8Bytes size) ∧
          (∀ c ∈ pre, ¬c.Fits (alignedTo8Bytes size)) ∧ p = base + span Blk.len pre + 32 ∧
          PoolWf brk base st' (pre ++ (carve b (alignedTo8Bytes size) size ++ post)) ∧
          st'.pool.totalLength = add64 st.pool.totalLength size ∧
          ∀ c ∈ (carve b (alignedTo8Bytes size) size).head?, ∀ x, p ≤ x →
            x + 8 < base + span Blk.len pre + c.len → st'.mem x = 0) := by
  by_cases hzero : size = 0
  · exact ⟨0, st, 0, by simp [allocMem, hzero], Preserves.refl st bs, rfl, Or.inl ⟨rfl, h, rfl⟩⟩
  · -- 64 rounds are more than any pool can double
    have hrounds : 2 ^ 31 ≤ span Blk.len bs * 2 ^ 64 := by
      have := h.span_ge
      omega
    obtain ⟨p, st₁, k, t, hfind, -, -, hwf, hpres, hused, htot, hres⟩ :=
      findAFreeBlk_spec hsbrk (alignedTo8Bytes size) h hrounds
    rcases hres with ⟨rfl, -, -⟩ | ⟨pre, b, post, heq, rfl, -, hfit, hpre⟩
    · refine ⟨0, st₁, k, ?_, hpres, hused, Or.inl ⟨rfl, hwf, htot⟩⟩
      simp [allocMem, hzero, getMemBlk, hfind]
    · have h8 : 8 ∣ alignedTo8Bytes size := Nat.dvd_mul_left _ _
      have hp : base + span Blk.len pre ≠ 0 := by
        have := hsbrk.base_ge
        omega
      rw [heq] at hwf
      obtain ⟨m', hm', hwf', hpres', hstart, hclear⟩ :=
        markMemBlk_wf (t := add64 st.pool.totalLength size) hwf hfit h8 hsize
      refine ⟨base + span Blk.len pre + 32, _, k, ?_, hpres.trans hpres' ?_, hused,
        Or.inr ⟨pre, b, post, heq, hfit, hpre, rfl, hwf', rfl, hclear⟩⟩
      · simp only [allocMem, hzero, if_false, getMemBlk, hfind, Option.map_some, ne_eq, hp,
          not_false_eq_true, if_true, htot, hm', hstart]
      · intro xb hxb
        rw [h.start_eq] at hxb ⊢
        rwa [← heq, hused]

/-! ## Freeing -/

omit hsbrk

/-- Clearing the flag of a block in use. -/
theorem HdrAt.clearInUse {m : Mem} {a : Nat} {b : Blk} (hb : HdrAt m a b) :
    HdrAt (setInUse m a 0) a { b with user := none } := by
  have hlen : Blk.len { b with user := none } = b.len := rfl
  have hge := b.len_ge
  refine ⟨?_, ?_, ?_, ?_, ?_⟩
  · exact (load_store_ne (by omega)).trans hb.magic
  · exact load_store_same (by decide)
  · exact (load_store_ne (by omega)).trans hb.blkLen
  · rw [hlen]
    exact (load_store_ne (by omega)).trans hb.tail
  · intro n hn
    cases hn

/-- `free_mem` on the pointer of a block in use. -/
theorem freeMem_spec {st : PoolState σ} {pre post : List Blk} {b : Blk} {n : Nat}
    (h : PoolWf brk base st (pre ++ b :: post)) (huser : b.user = some n) :
    ∃ st', freeMem st (base + span Blk.len pre + 32) = some st' ∧
      PoolWf brk base st' (coalesce pre b.len post) ∧
      Preserves st st' (coalesce pre b.len post) ∧ st'.pool.end_ = st.pool.end_ ∧
      st'.pool.totalLength = sub64 st.pool.totalLength n := by
  have hbase := h.start_eq
  have hstart := h.bounds.start_ge
  have hsize := h.bounds.size_lt
  have haddr := h.bounds.addr_le
  obtain ⟨a, hpre, hrest⟩ := tiles_append.1 h.laid
  obtain ⟨hb, hpost⟩ := tiles_cons.1 hrest
  have ha := hpre.2
  have hend := hpost.2
  have hlen := b.len_ge
  have haeq : base + span Blk.len pre = a := by rw [← ha, hbase]
  rw [haeq]
  have hused : b.isFree = false := by simp [Blk.isFree, huser]
  have hhdr : sub64 (a + 32) sizeofMemBlk = a :=
    (sub64_of_le (show 32 ≤ a + 32 by omega) (by omega)).trans (by simp)
  have hok : memBlkOk st.mem a = true := by
    simp [memBlkOk, hb.magic, hb.inUse, hused]
  -- before the merge only `in_use` is written
  have hout : ∀ x, x < a ∨ a + b.len ≤ x → setInUse st.mem a 0 x = st.mem x := by
    intro x hx
    simp only [setInUse, store]
    exact if_neg (by omega)
  have hpool : PoolBounds { st.pool with totalLength := sub64 st.pool.totalLength n } :=
    ⟨hstart, hsize, haddr⟩
  obtain ⟨m', hmerge, hlaid, hkeeps, hframe⟩ := mergeFreeBlk_spec hpool
    (laid_congr hpre fun x _ hx => hout x (Or.inl hx)) hb.clearInUse rfl
    (laid_congr hpost fun x hx _ => hout x (Or.inr hx))
  obtain ⟨hnoPre, hnoPost⟩ := h.noAdj.split
  refine ⟨⟨m', { st.pool with totalLength := sub64 st.pool.totalLength n }, st.sbrk⟩, ?_,
    ⟨hbase, h.brk_eq, hpool, hlaid, hnoPre.coalesce hnoPost, by simp [coalesce]⟩,
    ⟨rfl, Nat.le_refl _, ?_, ?_⟩, rfl, rfl⟩
  · simp only [freeMem, show a + 32 ≠ 0 by omega, if_false, hhdr, hok, if_true, (hb.user n huser).2,
      freeMemBlk, hmerge, Option.map_some]
  · intro z c hc y hy₁ hy₂
    refine (hkeeps z c hc y hy₁ hy₂).trans (hout y ?_)
    rw [used_coalesce b.dvd_len hlen] at hc
    rcases List.mem_append.1 hc with hc | hc
    · have := placed_bounds (mem_used.1 hc).1
      omega
    · have := placed_bounds (mem_used.1 hc).1
      omega
  · intro x hx
    simp only at hx
    exact (hframe x hx).trans (hout x (by omega))

include hsbrk

/-- `init_mm` makes one free block without payload. -/
theorem initMm_spec {m : Mem} {k : σ} {st : PoolState σ} (hk : brk k = base)
    (hinit : initMm sbrkFunc m k = some st) :
    PoolWf brk base st [freeBlk initialBlkLen] ∧ st.pool.totalLength = 0 := by
  have hge := hsbrk.base_ge
  have hle := hsbrk.base_le
  rcases hcall : sbrkFunc k initialBlkLen with ⟨_ | start, k'⟩
  · simp [initMm, hcall] at hinit
  · obtain ⟨rfl, hbrk, hlim⟩ := hsbrk.success _ _ _ _ hcall
    have hend : add64 (brk k) initialBlkLen = brk k + 40 :=
      add64_of_lt (show brk k + 40 < 2 ^ 64 by omega)
    simp only [initMm, hcall, hend, Option.some.injEq] at hinit
    subst hinit
    have hbounds : PoolBounds { start := brk k, end_ := brk k + 40, totalLength := 0 } :=
      ⟨by simp only; omega, by simp only; omega, by simp only; omega⟩
    refine ⟨⟨hk, hbrk, hbounds, tiles_cons.2 ⟨?_, tiles_nil.2 rfl⟩, List.isChain_singleton _, by simp⟩,
      rfl⟩
    have h40 : initialBlkLen = 40 := rfl
    dsimp only
    exact initFreeBlk_spec (by omega) (by omega) (by omega) (by omega)

end Operations

end Mm
end ToutOS
