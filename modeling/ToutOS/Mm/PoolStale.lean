import ToutOS.Mm.PoolRuns

/-!
# PoolStale — pointers that have been freed before

`free_mem` looks at two words in front of the pointer, the magic number and `in_use`.  When the pointer
has been freed before, that place may be anywhere in a block by now.

* `SlackOk` — behind the range asked for, the blocks in use are zero up to their tails.
* `PoolStale` — the invariant; `poolStep_stale` keeps it.
* `memBlkOk_word` — both words together are a number between `2 ^ 32` and `2 ^ 33`, which no other field
  of a header, no tail and no zeroed byte is.
* `freeMem_stale` — freeing such a pointer changes nothing.
-/

namespace ToutOS
namespace Mm

open Base

variable {σ : Type} {sbrkFunc : σ → Nat → Option Nat × σ} {brk : σ → Nat} {base : Nat}
  {s s' : PoolSys σ} {bs : List Blk}

/-! ## The invariant -/

/-- Callers that ask for no more than the pool can have, free what they own and write inside the ranges
they asked for. -/
def CallersOfKmalloc (s : PoolSys σ) : PoolAction → Prop
  | .alloc size => size.toNat ≤ memPoolSize
  | .free p => CallersInRange s (.free p)
  | .write x v => CallersInRange s (.write x v)

instance (s : PoolSys σ) : ∀ a, Decidable (CallersOfKmalloc s a)
  | .alloc size => inferInstanceAs (Decidable (size.toNat ≤ memPoolSize))
  | .free p => inferInstanceAs (Decidable (CallersInRange s (.free p)))
  | .write x v => inferInstanceAs (Decidable (CallersInRange s (.write x v)))

/-- The block `b` in use at `x` has room for the range asked for, which is not longer than the pool can
be, and behind it the block is zero. -/
def SlackOk (m : Mem) (x : Nat) (b : Blk) : Prop :=
  ∀ n, b.user = some n → n ≤ memPoolSize ∧ 40 + n ≤ b.len ∧
    ∀ y, x + 32 + n ≤ y → y + 8 < x + b.len → m y = 0

structure PoolStale (brk : σ → Nat) (base : Nat) (s : PoolSys σ) (bs : List Blk) : Prop where
  inv : PoolInv brk base s bs
  slack : ∀ x b, (x, b) ∈ used base bs → SlackOk s.st.mem x b

theorem PoolStale.roomy (h : PoolStale brk base s bs) : Roomy base bs := fun x b hb n hn =>
  (h.slack x b hb n hn).2.1

theorem SlackOk.congr {m m' : Mem} {x : Nat} {b : Blk} (h : SlackOk m x b)
    (hsame : ∀ y, x ≤ y → y < x + b.len → m' y = m y) : SlackOk m' x b := by
  intro n hn
  obtain ⟨hle, hlen, hzero⟩ := h n hn
  refine ⟨hle, hlen, fun y hy₁ hy₂ => ?_⟩
  rw [hsame y (by omega) (by omega)]
  exact hzero y hy₁ hy₂

theorem alloc_stale (hsbrk : ContiguousSbrk sbrkFunc brk base) (h : PoolStale brk base s bs) {size : UInt64}
    (hsize : size.toNat ≤ memPoolSize) :
    ∃ s' bs', poolStep sbrkFunc s (.alloc size) = some s' ∧ PoolStale brk base s' bs' ∧
      s.st.pool.end_ ≤ s'.st.pool.end_ := by
  have hbase := h.inv.wf.start_eq
  obtain ⟨p, st', bs', halloc, hpres, hinv, hres⟩ := allocMem_inv hsbrk h.inv size.toNat_lt
  refine ⟨_, bs', by simp only [poolStep, halloc, Option.map_some], ⟨hinv, ?_⟩, hpres.end_le⟩
  have hold : ∀ x b, (x, b) ∈ used base bs → SlackOk st'.mem x b := fun x b hb =>
    (h.slack x b hb).congr (hpres.keeps x b (hbase ▸ hb))
  rcases hres with ⟨-, hused⟩ | ⟨x, u, rfl, huser, hlen, hused, hzero⟩
  · intro x b hb
    exact hold x b (hused ▸ hb)
  · intro y c hc
    rcases (hused (y, c)).1 hc with heq | hc
    · -- the block that has been handed out is zero as a whole
      obtain ⟨rfl, rfl⟩ := Prod.mk.inj heq
      intro n hn
      obtain rfl : size.toNat = n := by simpa [huser] using hn
      have hle : size.toNat ≤ alignedTo8Bytes size.toNat := by
        simp only [memPoolSize] at hsize
        simp only [alignedTo8Bytes, add64]
        omega
      exact ⟨hsize, by omega, fun z hz₁ hz₂ => hzero z (by omega) hz₂⟩
    · exact hold y c hc

theorem free_stale (h : PoolStale brk base s bs) {p : Nat} (hp : FreeAllowed s p) :
    ∃ s' bs', poolStep sbrkFunc s (.free p) = some s' ∧ PoolStale brk base s' bs' ∧
      s.st.pool.end_ ≤ s'.st.pool.end_ := by
  have hrefused : p = 0 ∨ memBlkOk s.st.mem (sub64 p sizeofMemBlk) = false →
      poolStep sbrkFunc s (.free p) = some s := fun hno => by
    obtain ⟨hfree, hforget⟩ := freeMem_refused h.inv hno
    simp only [poolStep, hfree, Option.map_some, hforget]
  rcases hp with hnull | ⟨n, hlive⟩ | hno
  · exact ⟨s, bs, hrefused (Or.inl hnull), h, Nat.le_refl _⟩
  · obtain ⟨st', bs', hfree, hinv, hpres, hused⟩ := freeMem_inv h.inv hlive
    refine ⟨_, bs', by simp only [poolStep, hfree, Option.map_some], ⟨hinv, fun x b hb => ?_⟩, hpres.end_le⟩
    exact (h.slack x b ((hused x b).1 hb).1).congr (hpres.keeps x b (h.inv.wf.start_eq ▸ hb))
  · exact ⟨s, bs, hrefused (Or.inr hno), h, Nat.le_refl _⟩

theorem write_stale (h : PoolStale brk base s bs) {w : Nat} {v : UInt8}
    (hw : CallersInRange s (.write w v)) :
    ∃ s' bs', poolStep sbrkFunc s (.write w v) = some s' ∧ PoolStale brk base s' bs' ∧
      s.st.pool.end_ ≤ s'.st.pool.end_ := by
  have hend := h.inv.wf.laid.2
  rw [h.inv.wf.start_eq] at hend
  have hpayload : CallersInPayload s (.write w v) := by
    rcases hw with hout | ⟨p, n, hlive, hw₁, hw₂⟩
    · exact Or.inl hout
    · obtain ⟨z, c, hc, rfl, huser⟩ := h.inv.mem_live.1 hlive
      have hplaced := (mem_used.1 hc).1
      rw [← h.inv.wf.start_eq] at hplaced
      have hblk := h.inv.wf.laid.1 z c hplaced
      have hroom := h.roomy z c hc n huser
      refine Or.inr ⟨z + 32, n, hlive, hw₁, ?_⟩
      simp only [sizeofMemBlk, sizeofMemBlkTail, Nat.add_sub_cancel, hblk.blkLen]
      omega
  refine ⟨_, bs, rfl, ⟨write_inv h.inv hpayload, fun x b hb n hn => ?_⟩, Nat.le_refl _⟩
  obtain ⟨hle, hlen, hzero⟩ := h.slack x b hb n hn
  have hbounds := placed_bounds (mem_used.1 hb).1
  refine ⟨hle, hlen, fun y hy₁ hy₂ => ?_⟩
  -- what is written is in a range that has been asked for
  have hne : y ≠ w := by
    rcases hw with hout | ⟨p, k, hlive, hw₁, hw₂⟩
    · have hstart := h.inv.wf.start_eq
      simp only [OutsidePool] at hout
      omega
    · obtain ⟨z, c, hc, rfl, huser⟩ := h.inv.mem_live.1 hlive
      have hroom := h.roomy z c hc k huser
      rcases placed_apart (mem_used.1 hb).1 (mem_used.1 hc).1 with ⟨rfl, rfl⟩ | hsep
      · rw [hn] at huser
        obtain rfl := Option.some.inj huser
        omega
      · omega
  rw [← hzero y hy₁ hy₂]
  exact Function.update_of_ne hne ..

/-- Every step of such callers is carried out and keeps the invariant, and the pool does not shrink. -/
theorem poolStep_stale (hsbrk : ContiguousSbrk sbrkFunc brk base) {a : PoolAction}
    (h : PoolStale brk base s bs) (ha : CallersOfKmalloc s a) :
    ∃ s' bs', poolStep sbrkFunc s a = some s' ∧ PoolStale brk base s' bs' ∧
      s.st.pool.end_ ≤ s'.st.pool.end_ := by
  cases a with
  | alloc size => exact alloc_stale hsbrk h ha
  | free p => exact free_stale h ha
  | write x v => exact write_stale h ha

/-! ## The two words -/

/-- What the check accepts, as one number. -/
theorem memBlkOk_word {m : Mem} {q : Nat} (h : memBlkOk m q = true) :
    2 ^ 32 ≤ load m q 8 ∧ load m q 8 < 2 ^ 33 := by
  simp only [memBlkOk, Bool.and_eq_true, decide_eq_true_eq] at h
  have hlow := load_lt m q 4
  have hsplit := load_add m q 4 4
  have huse : load m (q + 4) 4 = 1 := h.2
  rw [huse] at hsplit
  norm_num at hlow hsplit ⊢
  omega

/-- A place in front of a pointer that is not live, outside of the ranges of the live blocks. -/
theorem PoolStale.refused (h : PoolStale brk base s bs) (hhigh : 2 ^ 33 ≤ base) (hdvd : 8 ∣ base) {q : Nat}
    (hq : 8 ∣ q) (hge : base ≤ q) (hlt : q < s.st.pool.end_) (hlive : q + 32 ∉ s.live.map Prod.fst)
    (hout : ∀ p n, (p, n) ∈ s.live → ¬(p ≤ q ∧ q < p + n)) : memBlkOk s.st.mem q = false := by
  have hstart := h.inv.wf.start_eq
  have hend := h.inv.wf.laid.2
  have hsize := h.inv.wf.bounds.size_lt
  have haddr := h.inv.wf.bounds.addr_le
  rw [hstart] at hend
  by_contra hok
  rw [Bool.not_eq_false] at hok
  obtain ⟨hword, hword'⟩ := memBlkOk_word hok
  obtain ⟨x, b, hplaced, hx₁, hx₂⟩ := placed_cover hge (hend ▸ hlt)
  have hbounds := placed_bounds hplaced
  have hb := h.inv.wf.laid.1 x b (by rwa [hstart])
  have hb8 := b.dvd_len
  have hx8 : 8 ∣ x := by
    obtain ⟨pre, post, -, rfl⟩ := mem_placed.1 hplaced
    exact Nat.dvd_add hdvd (dvd_span pre)
  -- the place is a field of a header, zeroed, or the tail
  rcases Nat.lt_or_ge q (x + b.len - 8) with hbefore | htail
  swap
  · obtain rfl : q = x + b.len - 8 := by omega
    rw [hb.tail] at hword'
    omega
  have hwhere : q = x ∨ q = x + 8 ∨ x + 16 ≤ q := by omega
  rcases hwhere with rfl | rfl | hq16
  · -- a header: the block would be in use, and its pointer live
    have huse : inUse s.st.mem q = 1 := by
      simp only [memBlkOk, Bool.and_eq_true, decide_eq_true_eq] at hok
      exact hok.2
    rw [hb.inUse] at huse
    cases hfree : b.isFree with
    | true => simp [hfree] at huse
    | false =>
        obtain ⟨n, hn⟩ : ∃ n, b.user = some n := by
          cases huser : b.user with
          | none => simp [Blk.isFree, huser] at hfree
          | some n => exact ⟨n, rfl⟩
        refine hlive (List.mem_map.2 ⟨(q + 32, n), ?_, rfl⟩)
        exact h.inv.mem_live.2 ⟨q, b, mem_used.2 ⟨hplaced, hfree⟩, rfl, hn⟩
  · have hlen : load s.st.mem (x + 8) 8 = b.len := hb.blkLen
    omega
  -- the rest of a free block is zero
  cases huser : b.user with
  | none =>
      have hzero : load s.st.mem q 8 = 0 := load_zero fun y hy₁ hy₂ =>
        hb.zero huser y (by omega) (by omega)
      omega
  | some n =>
      have hused : (x, b) ∈ used base bs := mem_used.2 ⟨hplaced, by simp [Blk.isFree, huser]⟩
      obtain ⟨hle, hlen, hzero⟩ := h.slack x b hused n huser
      obtain ⟨hptr, hcount⟩ := hb.user n huser
      simp only [memPoolSize] at hle
      have hwhere : q = x + 16 ∨ q = x + 24 ∨ x + 32 ≤ q := by omega
      rcases hwhere with rfl | rfl | hq32
      · rw [show load s.st.mem (x + 16) 8 = x + 32 from hptr] at hword'
        omega
      · rw [show load s.st.mem (x + 24) 8 = n from hcount] at hword
        omega
      · -- behind the range that has been asked for
        have hbehind : x + 32 + n ≤ q := by
          by_contra hin
          exact hout (x + 32) n (h.inv.mem_live.2 ⟨x, b, hused, rfl, huser⟩) ⟨hq32, by omega⟩
        have hzeros : load s.st.mem q 8 = 0 := load_zero fun y hy₁ hy₂ =>
          hzero y (by omega) (by omega)
        omega

/-! ## Runs -/

/-- A call of `alloc_mem` in the run has returned `p`. -/
def Returned (sbrkFunc : σ → Nat → Option Nat × σ) (s : PoolSys σ) (acts : List PoolAction) (p : Nat) :
    Prop :=
  ∃ before size after t st', acts = before ++ .alloc size :: after ∧
    runFrom (poolStep sbrkFunc) s before = some t ∧ allocMem sbrkFunc t.st size.toNat = some (p, st')

theorem poolRun_stale (hsbrk : ContiguousSbrk sbrkFunc brk base) {acts : List PoolAction}
    (h : PoolStale brk base s bs) (hacts : Along (poolStep sbrkFunc) CallersOfKmalloc s acts) :
    ∃ s', runFrom (poolStep sbrkFunc) s acts = some s' ∧ (∃ bs', PoolStale brk base s' bs') ∧
      s.st.pool.end_ ≤ s'.st.pool.end_ := by
  refine runFrom_progress_along (I := fun t => (∃ bs', PoolStale brk base t bs') ∧
    s.st.pool.end_ ≤ t.st.pool.end_) ?_ ⟨⟨bs, h⟩, Nat.le_refl _⟩ hacts
  rintro t a ⟨⟨bt, ht⟩, hle⟩ ha
  obtain ⟨t', bt', hstep, ht', hgrow⟩ := poolStep_stale hsbrk ht ha
  exact ⟨t', hstep, ⟨bt', ht'⟩, Nat.le_trans hle hgrow⟩

/-- A pointer that has been returned points behind a multiple of 8 in the pool. -/
theorem Returned.place (hsbrk : ContiguousSbrk sbrkFunc brk base) (hdvd : 8 ∣ base) {acts : List PoolAction}
    {p : Nat} (h : PoolStale brk base s bs) (hacts : Along (poolStep sbrkFunc) CallersOfKmalloc s acts)
    (hrun : runFrom (poolStep sbrkFunc) s acts = some s') (hp : Returned sbrkFunc s acts p) (hne : p ≠ 0) :
    ∃ q, p = q + 32 ∧ 8 ∣ q ∧ base ≤ q ∧ q + 40 ≤ s'.st.pool.end_ := by
  obtain ⟨before, size, after, t, st', rfl, hbefore, halloc⟩ := hp
  obtain ⟨hacts₁, hrest⟩ := along_append.1 hacts
  obtain ⟨t₀, hrun₀, ⟨bt, ht⟩, -⟩ := poolRun_stale hsbrk h hacts₁
  obtain rfl := Option.some.inj (hbefore.symm.trans hrun₀)
  obtain ⟨hsize, hafter⟩ := hrest t hbefore
  obtain ⟨t₁, bt₁, hstep, ht₁, -⟩ := alloc_stale hsbrk ht hsize
  obtain ⟨s₁, hrun₁, -, hgrow⟩ := poolRun_stale hsbrk ht₁ (hafter t₁ hstep)
  have hs₁ : s' = s₁ := by
    obtain ⟨t₂, ht₂, hrest'⟩ := runFrom_append.1 hrun
    obtain rfl := Option.some.inj (hbefore.symm.trans ht₂)
    obtain ⟨t₃, ht₃, hend⟩ := runFrom_cons.1 hrest'
    obtain rfl := Option.some.inj (hstep.symm.trans ht₃)
    exact Option.some.inj (hend.symm.trans hrun₁)
  -- the pointer is live right after the call
  have hlive : (p, size.toNat) ∈ t₁.live := by
    rw [poolStep, halloc, Option.map_some, Option.some.injEq] at hstep
    have hrecord : t₁.live = PoolSys.record t.live p size.toNat := by rw [← hstep]
    rw [hrecord, PoolSys.record, if_neg hne]
    exact List.mem_cons_self
  obtain ⟨x, b, hb, rfl, -⟩ := ht₁.inv.mem_live.1 hlive
  have hbounds := placed_bounds (mem_used.1 hb).1
  have hend := ht₁.inv.wf.laid.2
  rw [ht₁.inv.wf.start_eq] at hend
  have hlen := b.len_ge
  refine ⟨x, rfl, ?_, hbounds.1, ?_⟩
  · obtain ⟨pre, post, -, rfl⟩ := mem_placed.1 (mem_used.1 hb).1
    exact Nat.dvd_add hdvd (dvd_span pre)
  · rw [hs₁]
    omega

/-- Whatever merges, splits and growth have happened: freeing a pointer that `kmalloc` has returned
earlier and that is not live any more changes nothing, unless its header would be in the range of a live
block. -/
theorem freeMem_stale {m : Mem} {st : PoolState MockSbrk} {acts : List PoolAction}
    (hinit : initMm kernelMockSbrk m mockSbrkInit = some st)
    (hacts : Along (poolStep kernelMockSbrk) CallersOfKmalloc { st := st, live := [] } acts) :
    ∃ s, runFrom (poolStep kernelMockSbrk) { st := st, live := [] } acts = some s ∧
      ∀ p, Returned kernelMockSbrk { st := st, live := [] } acts p → p ∉ s.live.map Prod.fst →
        (∀ q n, (q, n) ∈ s.live → ¬(q ≤ sub64 p sizeofMemBlk ∧ sub64 p sizeofMemBlk < q + n)) →
        freeMem s.st p = some s.st := by
  have hstart : PoolStale MockSbrk.last mockSbrkInit.last { st := st, live := [] }
      [freeBlk initialBlkLen] := by
    refine ⟨(initMm_inv kernelMockSbrk_contiguous rfl hinit).1, fun x b hb => ?_⟩
    rw [used_of_free (by simp)] at hb
    cases hb
  obtain ⟨s, hrun, ⟨bs, hs⟩, -⟩ := poolRun_stale kernelMockSbrk_contiguous hstart hacts
  refine ⟨s, hrun, fun p hp hlive hout => ?_⟩
  by_cases hne : p = 0
  · exact (freeMem_refused hs.inv (Or.inl hne)).1
  obtain ⟨q, rfl, hq, hge, hlt⟩ := hp.place kernelMockSbrk_contiguous (by decide) hstart hacts hrun hne
  have hsize := hs.inv.wf.bounds.size_lt
  have haddr := hs.inv.wf.bounds.addr_le
  have hhdr : sub64 (q + 32) sizeofMemBlk = q := by
    have hle : sizeofMemBlk ≤ q + 32 := Nat.le_add_left _ _
    rw [sub64_of_le hle (by omega)]
    exact Nat.add_sub_cancel _ _
  rw [hhdr] at hout
  refine (freeMem_refused hs.inv (Or.inr ?_)).1
  rw [hhdr]
  exact hs.refused (by decide) (by decide) hq hge (by omega) hlive hout

/-- Two neighbours are freed, and the pointer of the second one is freed again: its header is inside of the
merged block. -/
def sampleMerge : List PoolAction :=
  [.alloc 24, .alloc 24, .alloc 24, .free (memPoolStart + 32), .free (memPoolStart + 112)]

theorem freeMem_stale_merged :
    ∃ s, runFrom (poolStep kernelMockSbrk) { st := kmallocPool, live := [] } sampleMerge = some s ∧
      freeMem s.st (memPoolStart + 112) = some s.st := by
  have hacts : Along (poolStep kernelMockSbrk) CallersOfKmalloc { st := kmallocPool, live := [] }
      sampleMerge := by decide +kernel
  have hlive : (runFrom (poolStep kernelMockSbrk) { st := kmallocPool, live := [] } sampleMerge).map
      (fun s => s.live) = some [(memPoolStart + 192, 24)] := by decide +kernel
  have hreturn : (runFrom (poolStep kernelMockSbrk) { st := kmallocPool, live := [] } [.alloc 24]).bind
      (fun t => (allocMem kernelMockSbrk t.st 24).map Prod.fst) = some (memPoolStart + 112) := by
    decide +kernel
  obtain ⟨s, hrun, hstale⟩ := freeMem_stale kmallocPool_init hacts
  rw [hrun, Option.map_some, Option.some.injEq] at hlive
  refine ⟨s, hrun, hstale (memPoolStart + 112) ?_ ?_ ?_⟩
  · obtain ⟨t, ht, hcall⟩ := Option.bind_eq_some_iff.1 hreturn
    obtain ⟨⟨p, st'⟩, halloc, rfl⟩ := Option.map_eq_some_iff.1 hcall
    exact ⟨[.alloc 24], 24, _, t, st', rfl, ht, halloc⟩
  · rw [hlive]
    decide
  · rw [hlive]
    rintro q n hq ⟨hle, -⟩
    obtain ⟨rfl, rfl⟩ := Prod.mk.inj (List.mem_singleton.1 hq)
    exact absurd hle (by decide)

end Mm
end ToutOS
