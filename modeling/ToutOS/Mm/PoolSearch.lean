import ToutOS.Mm.PoolRuns

/-!
# PoolSearch — how far the kernel's pool grows for a request

`find_a_free_blk` looks for the first block that fits, and doubles the pool as long as there is none
and `kernel_mock_sbrk` has memory left.  `doubled` of `PoolSpec` is the pool after so many doublings;
here it is said when a doubling succeeds (`enlargeMemPool_mock`), and which of these pools the search
ends in (`allocMem_firstFit`).
-/

namespace ToutOS
namespace Mm

open Base

/-- The blocks `bs` fill the kernel's pool. -/
abbrev KernelPoolWf (st : PoolState MockSbrk) (bs : List Blk) : Prop :=
  PoolWf MockSbrk.last mockSbrkInit.last st bs

/-- After `k` doublings the pool is within `MEM_POOL_SIZE` and has a free block for `size` bytes. -/
def FitsAfter (bs : List Blk) (size k : Nat) : Prop :=
  2 ^ k * span Blk.len bs ≤ memPoolSize ∧ ∃ b ∈ growBlks^[k] bs, b.Fits size

section Doublings

variable {st : PoolState MockSbrk} {bs : List Blk}

/-- All that `kernel_mock_sbrk` has handed out is the pool. -/
theorem allocatedSize_eq (h : KernelPoolWf st bs) : st.sbrk.allocatedSize = span Blk.len bs := by
  have hend := h.laid.2
  have hbrk := h.brk_eq
  have hlast := st.sbrk.last_eq
  have hbase : st.pool.start = memPoolStart := h.start_eq
  omega

/-- The pool doubles exactly if the double is within `MEM_POOL_SIZE`; else nothing changes. -/
theorem enlargeMemPool_mock (h : KernelPoolWf st bs) :
    (2 * span Blk.len bs ≤ memPoolSize ∧
      ∃ t, enlargeMemPool kernelMockSbrk st = some (true, t) ∧ KernelPoolWf t (growBlks bs)) ∨
    (memPoolSize < 2 * span Blk.len bs ∧ enlargeMemPool kernelMockSbrk st = some (false, st)) := by
  have hinc : sub64 st.pool.end_ st.pool.start = span Blk.len bs := by
    have hend := h.laid.2
    have hsize := h.bounds.size_lt
    have haddr := h.bounds.addr_le
    rw [sub64_of_le (by omega) (by omega)]
    omega
  have hsize := allocatedSize_eq h
  by_cases hfit : st.sbrk.allocatedSize + span Blk.len bs ≤ memPoolSize
  · refine Or.inl ⟨by omega, ?_⟩
    rcases enlargeMemPool_spec kernelMockSbrk_contiguous h with ⟨k, henl, -⟩ | ⟨t, henl, hwf, -⟩
    · -- the call has memory left
      simp only [enlargeMemPool, hinc, kernelMockSbrk, dif_pos hfit, Option.map_eq_some_iff] at henl
      obtain ⟨m, -, hm⟩ := henl
      cases (Prod.mk.inj hm).1
    · exact ⟨t, henl, hwf⟩
  · refine Or.inr ⟨by omega, ?_⟩
    simp only [enlargeMemPool, hinc, kernelMockSbrk, dif_neg hfit]

/-- A call that fails leaves the pool and the state of `kernel_mock_sbrk` as they are. -/
theorem enlargeMemPool_refused {t : PoolState MockSbrk}
    (h : enlargeMemPool kernelMockSbrk st = some (false, t)) : t = st := by
  rw [enlargeMemPool] at h
  split at h
  · rename_i k hcall
    have hk : k = st.sbrk := by
      rw [kernelMockSbrk] at hcall
      split at hcall
      · cases (Prod.mk.inj hcall).1
      · exact (Prod.mk.inj hcall).2.symm
    rw [hk] at h
    exact (Prod.mk.inj (Option.some.inj h)).2.symm
  · obtain ⟨m, -, hm⟩ := Option.map_eq_some_iff.1 h
    cases (Prod.mk.inj hm).1

/-- `k` doublings succeed exactly if the result is within `MEM_POOL_SIZE`. -/
theorem doubled_mock {k : Nat} (h : KernelPoolWf st bs) :
    (2 ^ k * span Blk.len bs ≤ memPoolSize →
      ∃ t, doubled kernelMockSbrk k st = some t ∧ KernelPoolWf t (growBlks^[k] bs)) ∧
    (memPoolSize < 2 ^ k * span Blk.len bs → doubled kernelMockSbrk k st = none) := by
  induction k generalizing st bs with
  | zero =>
      refine ⟨fun _ => ⟨st, rfl, h⟩, fun hlt => ?_⟩
      have hle := st.sbrk.size_le
      rw [allocatedSize_eq h] at hle
      omega
  | succ k ih =>
      have hgrow := span_growBlks h.span_ge
      have hpow : 2 ^ (k + 1) * span Blk.len bs = 2 ^ k * span Blk.len (growBlks bs) := by
        rw [hgrow, Nat.pow_succ, Nat.mul_assoc]
      have hle : 1 ≤ 2 ^ k := Nat.one_le_two_pow
      rw [hpow]
      rcases enlargeMemPool_mock h with ⟨-, t, henl, hwf⟩ | ⟨hfull, henl⟩
      · have ht := ih hwf
        simp only [doubled, henl, Function.iterate_succ_apply]
        exact ht
      · have hbig : memPoolSize < 2 ^ k * span Blk.len (growBlks bs) := by
          rw [hgrow]
          calc memPoolSize < 1 * (2 * span Blk.len bs) := by rwa [Nat.one_mul]
            _ ≤ 2 ^ k * (2 * span Blk.len bs) := Nat.mul_le_mul_right _ hle
        refine ⟨fun hsmall => absurd hsmall (Nat.not_le.2 hbig), fun _ => ?_⟩
        simp only [doubled, henl]

/-- Doublings that have succeeded are within `MEM_POOL_SIZE`, and the others are not. -/
theorem doubled_le (h : KernelPoolWf st bs) {k : Nat} {t : PoolState MockSbrk}
    (ht : doubled kernelMockSbrk k st = some t) : 2 ^ k * span Blk.len bs ≤ memPoolSize := by
  by_contra hbig
  rw [(doubled_mock h).2 (Nat.lt_of_not_le hbig)] at ht
  cases ht

theorem lt_doubled (h : KernelPoolWf st bs) {k : Nat} (hnone : doubled kernelMockSbrk k st = none) :
    memPoolSize < 2 ^ k * span Blk.len bs := by
  by_contra hsmall
  obtain ⟨t, ht, -⟩ := (doubled_mock h).1 (Nat.le_of_not_lt hsmall)
  rw [hnone] at ht
  cases ht

/-- One doubling after `k` of them. -/
theorem doubled_succ {k : Nat} {t : PoolState MockSbrk} (ht : doubled kernelMockSbrk k st = some t)
    (hstop : enlargeMemPool kernelMockSbrk t = some (false, t)) :
    doubled kernelMockSbrk (k + 1) st = none := by
  induction k generalizing st with
  | zero =>
      cases ht
      simp only [doubled, hstop]
  | succ k ih =>
      rw [doubled] at ht ⊢
      split at ht
      · exact ih ht
      · cases ht

end Doublings

/-! ## The search -/

/-- What `alloc_mem` does for a request of at least one byte: it ends in the pool after the least number
of doublings that has a block for it, and hands out the first one there; without one, in the last
pool there is. -/
theorem allocMem_search {st : PoolState MockSbrk} {bs : List Blk} (h : KernelPoolWf st bs) {size : Nat}
    (h₁ : 1 ≤ size) (h₂ : size ≤ 2 ^ 64 - 8) :
    ∃ k t, doubled kernelMockSbrk k st = some t ∧
      (∀ j < k, ∀ b ∈ growBlks^[j] bs, ¬b.Fits ((size + 7) / 8 * 8)) ∧
      ((∃ pre b post st', growBlks^[k] bs = pre ++ b :: post ∧ b.Fits ((size + 7) / 8 * 8) ∧
          (∀ c ∈ pre, ¬c.Fits ((size + 7) / 8 * 8)) ∧
          allocMem kernelMockSbrk st size = some (t.pool.start + span Blk.len pre + sizeofMemBlk, st') ∧
          st'.pool.start = t.pool.start ∧ st'.pool.end_ = t.pool.end_ ∧ st'.sbrk = t.sbrk) ∨
        (doubled kernelMockSbrk (k + 1) st = none ∧
          (∀ b ∈ growBlks^[k] bs, ¬b.Fits ((size + 7) / 8 * 8)) ∧
          allocMem kernelMockSbrk st size = some (0, t))) := by
  have hneed : alignedTo8Bytes size = (size + 7) / 8 * 8 := by
    rw [alignedTo8Bytes, add64_of_lt (by omega)]
  have hzero : size ≠ 0 := by omega
  have hrounds : 2 ^ 31 ≤ span Blk.len bs * 2 ^ 64 := by
    have := h.span_ge
    omega
  obtain ⟨p, st₁, k, t, hfind, hdoubled, hleast, hwf, -, -, -, hres⟩ :=
    findAFreeBlk_spec kernelMockSbrk_contiguous (alignedTo8Bytes size) h hrounds
  rw [hneed] at hleast hres
  refine ⟨k, t, hdoubled, hleast, ?_⟩
  rcases hres with ⟨rfl, hstop, hnone⟩ | ⟨pre, b, post, heq, rfl, rfl, hfit, hpre⟩
  · -- the last call of `enlarge_mem_pool` has changed nothing
    have hlast : st₁ = t := enlargeMemPool_refused hstop
    rw [hlast] at hstop hfind
    refine Or.inr ⟨doubled_succ hdoubled hstop, hnone, ?_⟩
    simp [allocMem, hzero, getMemBlk, hfind]
  · have h8 : 8 ∣ alignedTo8Bytes size := Nat.dvd_mul_left _ _
    have hp : mockSbrkInit.last + span Blk.len pre ≠ 0 := by
      have := kernelMockSbrk_contiguous.base_ge
      omega
    rw [← hneed] at hfit
    rw [heq] at hwf
    obtain ⟨m', hm', -, -, hstart, -⟩ :=
      @markMemBlk_wf _ _ _ st₁ pre post b (alignedTo8Bytes size) size
        (add64 st₁.pool.totalLength size) hwf hfit h8 (by omega)
    rw [hneed] at hfit
    refine Or.inl ⟨pre, b, post,
      { st₁ with
        mem := m'
        pool := { st₁.pool with totalLength := add64 st₁.pool.totalLength size } },
      heq, hfit, hpre, ?_, rfl, rfl, rfl⟩
    rw [hwf.start_eq]
    simp only [allocMem, hzero, if_false, getMemBlk, hfind, Option.map_some, ne_eq, hp,
      not_false_eq_true, if_true, hm', hstart]
    rfl

/-- In every pool that the calls of `alloc_mem` and `free_mem` have led to, for every size that can be
rounded up: `alloc_mem` returns.  If the pool after some number of doublings, within `MEM_POOL_SIZE`,
has a free block with room for the rounded size, the pool is doubled the least such number of times
and the payload of the first such block is returned; otherwise the pool is doubled as often as
possible and `NULL` is returned. -/
theorem allocMem_firstFit {m : Mem} {st : PoolState MockSbrk} {acts : List PoolAction}
    {s : PoolSys MockSbrk} (hinit : initMm kernelMockSbrk m mockSbrkInit = some st)
    (hacts : Along (poolStep kernelMockSbrk) CallersInPayload { st := st, live := [] } acts)
    (hrun : runFrom (poolStep kernelMockSbrk) { st := st, live := [] } acts = some s) {size : Nat}
    (h₁ : 1 ≤ size) (h₂ : size ≤ 2 ^ 64 - 8) :
    ∃ bs, Laid s.st.mem s.st.pool.start bs s.st.pool.end_ ∧
      (∀ k, 2 ^ k * span Blk.len bs ≤ memPoolSize → ∃ t, doubled kernelMockSbrk k s.st = some t ∧
        t.pool.start = s.st.pool.start ∧ Laid t.mem t.pool.start (growBlks^[k] bs) t.pool.end_) ∧
      (∀ k, FitsAfter bs ((size + 7) / 8 * 8) k →
        (∀ j < k, ¬FitsAfter bs ((size + 7) / 8 * 8) j) →
        ∃ t pre b post st', doubled kernelMockSbrk k s.st = some t ∧
          growBlks^[k] bs = pre ++ b :: post ∧ b.Fits ((size + 7) / 8 * 8) ∧
          (∀ c ∈ pre, ¬c.Fits ((size + 7) / 8 * 8)) ∧
          allocMem kernelMockSbrk s.st size =
            some (t.pool.start + span Blk.len pre + sizeofMemBlk, st') ∧
          st'.pool.start = t.pool.start ∧ st'.pool.end_ = t.pool.end_ ∧ st'.sbrk = t.sbrk) ∧
      ((∀ k, ¬FitsAfter bs ((size + 7) / 8 * 8) k) →
        ∃ k t, 2 ^ k * span Blk.len bs ≤ memPoolSize ∧ memPoolSize < 2 ^ (k + 1) * span Blk.len bs ∧
          doubled kernelMockSbrk k s.st = some t ∧
          allocMem kernelMockSbrk s.st size = some (0, t)) := by
  obtain ⟨s', hrun', bs, hinv⟩ := poolRun_inv kernelMockSbrk_contiguous rfl hinit hacts
  obtain rfl := Option.some.inj (hrun.symm.trans hrun')
  have hwf : KernelPoolWf s.st bs := hinv.wf
  obtain ⟨k, t, hdoubled, hleast, hres⟩ := allocMem_search hwf h₁ h₂
  have hk := doubled_le hwf hdoubled
  have hearlier : ∀ j < k, ¬FitsAfter bs ((size + 7) / 8 * 8) j := fun j hj hfits => by
    obtain ⟨b, hb, hfit⟩ := hfits.2
    exact hleast j hj b hb hfit
  refine ⟨bs, hwf.laid, fun j hj => ?_, fun j hfits hfirst => ?_, fun hnone => ?_⟩
  · obtain ⟨u, hu, huwf⟩ := (doubled_mock hwf).1 hj
    exact ⟨u, hu, by rw [huwf.start_eq, hwf.start_eq], huwf.laid⟩
  · rcases hres with ⟨pre, b, post, st', heq, hfit, hpre, halloc, hst'⟩ | ⟨hstop, hnofit, -⟩
    · -- `k` is the least number of doublings
      have hkfits : FitsAfter bs ((size + 7) / 8 * 8) k :=
        ⟨hk, b, by rw [heq]; exact List.mem_append_right _ List.mem_cons_self, hfit⟩
      have hjk : j = k := by
        rcases Nat.lt_trichotomy j k with hlt | heq | hgt
        · exact absurd hfits (hearlier j hlt)
        · exact heq
        · exact absurd hkfits (hfirst k hgt)
      subst hjk
      exact ⟨t, pre, b, post, st', hdoubled, heq, hfit, hpre, halloc, hst'⟩
    · -- nothing fits up to `k`, and there is no pool after it
      exfalso
      rcases Nat.lt_trichotomy j k with hlt | heq | hgt
      · exact hearlier j hlt hfits
      · rw [heq] at hfits
        obtain ⟨b, hb, hfit⟩ := hfits.2
        exact hnofit b hb hfit
      · have hle : 2 ^ (k + 1) * span Blk.len bs ≤ memPoolSize :=
          Nat.le_trans (Nat.mul_le_mul_right _ (Nat.pow_le_pow_right (by decide) hgt)) hfits.1
        exact absurd hle (Nat.not_le.2 (lt_doubled hwf hstop))
  · rcases hres with ⟨pre, b, post, st', heq, hfit, -⟩ | ⟨hstop, -, halloc⟩
    · exfalso
      exact hnone k ⟨hk, b, by rw [heq]; exact List.mem_append_right _ List.mem_cons_self, hfit⟩
    · exact ⟨k, t, hk, lt_doubled hwf hstop, hdoubled, halloc⟩

/-- The pool of 80 bytes is full after the first request; the second one finds its block after two
doublings. -/
theorem allocMem_firstFit_kmalloc :
    ∃ s st', runFrom (poolStep kernelMockSbrk) { st := kmallocPool, live := [] } [.alloc 24] = some s ∧
      allocMem kernelMockSbrk s.st 100 = some (memPoolStart + 80 + sizeofMemBlk, st') ∧
      ∃ bs, Laid s.st.mem s.st.pool.start bs s.st.pool.end_ ∧
        ∀ k, 2 ^ k * span Blk.len bs ≤ memPoolSize → ∃ t, doubled kernelMockSbrk k s.st = some t ∧
          t.pool.start = s.st.pool.start ∧ Laid t.mem t.pool.start (growBlks^[k] bs) t.pool.end_ := by
  have hend : (runFrom (poolStep kernelMockSbrk) { st := kmallocPool, live := [] } [.alloc 24]).bind
      (fun s => (allocMem kernelMockSbrk s.st 100).map Prod.fst) =
      some (memPoolStart + 80 + sizeofMemBlk) := by
    decide +kernel
  obtain ⟨s, hrun, hs⟩ := Option.bind_eq_some_iff.1 hend
  obtain ⟨⟨p, st'⟩, halloc, rfl⟩ := Option.map_eq_some_iff.1 hs
  obtain ⟨bs, hlaid, hdoubled, -, -⟩ :=
    @allocMem_firstFit _ _ _ _ kmallocPool_init (by decide) hrun 100 (by decide) (by decide)
  exact ⟨s, st', hrun, halloc, bs, hlaid, hdoubled⟩

end Mm
end ToutOS
