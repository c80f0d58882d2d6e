import Mathlib.Data.UInt
import ToutOS.Base.Run
import ToutOS.Mm.PoolSpec

/-!
# PoolRuns — a pool and its callers

Any number of `alloc_mem` and `free_mem` calls, in any order, mixed with writes of the callers.  The
ghost list `live` holds the pointers that have been handed out and not been freed, each with the
size asked for.

* `PoolInv` — the invariant: the blocks in use are the live ones.
* `poolStep_inv` — every step of well-behaved callers is carried out and keeps it.
* `poolRun_tiled`, `allocMem_range`, `poolRun_frame` — what follows for whole runs: the blocks always
  tile the pool, a pointer returned has room for what was asked for, and nobody's data is touched.

`ALIGNED_TO_8BYTES` wraps around for sizes above `2 ^ 64 - 8`, so that a request for almost the whole
address space is served with an empty block; the last two results exclude such requests.
-/

namespace ToutOS
namespace Mm

open Base

variable {σ : Type} (sbrkFunc : σ → Nat → Option Nat × σ)

/-! ## Callers -/

structure PoolSys (σ : Type) where
  st : PoolState σ
  /-- The pointers in the callers' hands, with the sizes asked for. -/
  live : List (Nat × Nat)

inductive PoolAction
  /-- `alloc_mem(pool, size)`. -/
  | alloc (size : UInt64)
  /-- `free_mem(pool, p)`. -/
  | free (p : Nat)
  /-- A caller writes a byte. -/
  | write (x : Nat) (v : UInt8)
  deriving DecidableEq

/-- The caller of `alloc_mem` keeps the pointer it got. -/
def PoolSys.record (live : List (Nat × Nat)) (p size : Nat) : List (Nat × Nat) :=
  if p = 0 then live else (p, size) :: live

/-- A pointer is gone after `free_mem`. -/
def PoolSys.forget (live : List (Nat × Nat)) (p : Nat) : List (Nat × Nat) :=
  live.filter fun q => q.1 ≠ p

def poolStep (s : PoolSys σ) : PoolAction → Option (PoolSys σ)
  | .alloc size =>
      (allocMem sbrkFunc s.st size.toNat).map fun (p, st) =>
        { st := st, live := PoolSys.record s.live p size.toNat }
  | .free p => (freeMem s.st p).map fun st => { st := st, live := PoolSys.forget s.live p }
  | .write x v => some { s with st := { s.st with mem := Function.update s.st.mem x v } }

/-- `p` is null, live, or refused by the check of its header. -/
def FreeAllowed (s : PoolSys σ) (p : Nat) : Prop :=
  p = 0 ∨ (∃ n, (p, n) ∈ s.live) ∨ memBlkOk s.st.mem (sub64 p sizeofMemBlk) = false

/-- `x` does not belong to the pool. -/
def OutsidePool (s : PoolSys σ) (x : Nat) : Prop := x < s.st.pool.start ∨ s.st.pool.end_ ≤ x

/-- Callers free what they own and write between the headers and tails of their blocks. -/
def CallersInPayload (s : PoolSys σ) : PoolAction → Prop
  | .alloc _ => True
  | .free p => FreeAllowed s p
  | .write x _ =>
      OutsidePool s x ∨ ∃ p n, (p, n) ∈ s.live ∧ p ≤ x ∧
        x + sizeofMemBlkTail < p - sizeofMemBlk + blkLen s.st.mem (p - sizeofMemBlk)

/-- Callers ask for sizes that can be rounded up, free what they own and write inside the range they
asked for. -/
def CallersInRange (s : PoolSys σ) : PoolAction → Prop
  | .alloc size => size.toNat ≤ 2 ^ 64 - 8
  | .free p => FreeAllowed s p
  | .write x _ => OutsidePool s x ∨ ∃ p n, (p, n) ∈ s.live ∧ p ≤ x ∧ x < p + n

instance (s : PoolSys σ) (p : Nat) : Decidable (FreeAllowed s p) :=
  decidable_of_iff
    (p = 0 ∨ p ∈ s.live.map Prod.fst ∨ memBlkOk s.st.mem (sub64 p sizeofMemBlk) = false)
    (by simp [FreeAllowed])

instance (s : PoolSys σ) (x : Nat) : Decidable (OutsidePool s x) :=
  inferInstanceAs (Decidable (_ ∨ _))

instance (s : PoolSys σ) : ∀ a, Decidable (CallersInPayload s a)
  | .alloc _ => isTrue trivial
  | .free p => inferInstanceAs (Decidable (FreeAllowed s p))
  | .write x _ =>
      decidable_of_iff
        (OutsidePool s x ∨ ∃ q ∈ s.live, q.1 ≤ x ∧
          x + sizeofMemBlkTail < q.1 - sizeofMemBlk + blkLen s.st.mem (q.1 - sizeofMemBlk))
        (by simp [CallersInPayload])

instance (s : PoolSys σ) : ∀ a, Decidable (CallersInRange s a)
  | .alloc size => inferInstanceAs (Decidable (size.toNat ≤ 2 ^ 64 - 8))
  | .free p => inferInstanceAs (Decidable (FreeAllowed s p))
  | .write x _ =>
      decidable_of_iff
        (OutsidePool s x ∨ ∃ q ∈ s.live, q.1 ≤ x ∧ x < q.1 + q.2)
        (by simp [CallersInRange])

/-! ## The invariant -/

/-- The pointer and the size of a block in use. -/
def liveOf (xb : Nat × Blk) : Nat × Nat := (xb.1 + 32, xb.2.user.getD 0)

/-- The pool consists of the blocks `bs`, and those in use are the live ones. -/
structure PoolInv (brk : σ → Nat) (base : Nat) (s : PoolSys σ) (bs : List Blk) : Prop where
  wf : PoolWf brk base s.st bs
  live : s.live.Perm ((used base bs).map liveOf)

/-- Every block in use has room for the size asked for. -/
def Roomy (a : Nat) (bs : List Blk) : Prop :=
  ∀ x b, (x, b) ∈ used a bs → ∀ n, b.user = some n → 40 + n ≤ b.len

variable {sbrkFunc} {brk : σ → Nat} {base : Nat}

/-- The break may be moved or described in another way, as long as it is where the pool ends. -/
theorem PoolInv.rebrk {brk' : σ → Nat} {s : PoolSys σ} {bs : List Blk} {k : σ}
    (h : PoolInv brk base s bs) (hbrk : brk' k = s.st.pool.end_) :
    PoolInv brk' base { s with st := { s.st with sbrk := k } } bs :=
  ⟨⟨h.wf.start_eq, hbrk, h.wf.bounds, h.wf.laid, h.wf.noAdj, h.wf.ne_nil⟩, h.live⟩

theorem PoolInv.mem_live {s : PoolSys σ} {bs : List Blk} (h : PoolInv brk base s bs) {p n : Nat} :
    (p, n) ∈ s.live ↔ ∃ x b, (x, b) ∈ used base bs ∧ p = x + 32 ∧ b.user = some n := by
  rw [h.live.mem_iff, List.mem_map]
  constructor
  · rintro ⟨⟨x, b⟩, hxb, heq⟩
    have hused := (mem_used.1 hxb).2
    obtain ⟨k, hk⟩ : ∃ k, b.user = some k := by
      cases hb : b.user with
      | none => simp [Blk.isFree, hb] at hused
      | some k => exact ⟨k, rfl⟩
    simp only [liveOf, hk, Option.getD_some, Prod.mk.injEq] at heq
    obtain ⟨rfl, rfl⟩ := heq
    exact ⟨x, b, hxb, rfl, hk⟩
  · rintro ⟨x, b, hxb, rfl, hb⟩
    exact ⟨(x, b), hxb, by simp [liveOf, hb]⟩

/-- No pointer is live twice. -/
theorem PoolInv.pointers_nodup {s : PoolSys σ} {bs : List Blk} (h : PoolInv brk base s bs) :
    (s.live.map Prod.fst).Nodup := by
  have hsorted : (placed Blk.len base bs).Pairwise fun x y => x.1 < y.1 :=
    placed_sorted (fun b => Nat.lt_of_lt_of_le (by decide) b.len_ge) bs base
  have hused : ((used base bs).map fun xb => xb.1 + 32).Nodup := by
    rw [List.Nodup, List.pairwise_map]
    exact (hsorted.sublist List.filter_sublist).imp fun hlt heq => by omega
  rw [(h.live.map Prod.fst).nodup_iff, List.map_map]
  exact hused

/-! ## Single steps -/

/-- Taking a block out of the free ones. -/
theorem used_carve (a : Nat) (pre post : List Blk) {b u : Blk} {rest : List Blk} {size n : Nat}
    (hfree : b.isFree = true) (hcarve : carve b size n = u :: rest) (hu : u.isFree = false)
    (hrest : ∀ c ∈ rest, c.isFree = true) (hspan : u.len + span Blk.len rest = b.len) :
    used a (pre ++ b :: post) =
        used a pre ++ used (a + span Blk.len pre + b.len) post ∧
      used a (pre ++ (carve b size n ++ post)) =
        used a pre ++ (a + span Blk.len pre, u) :: used (a + span Blk.len pre + b.len) post := by
  constructor
  · rw [used_append, used_cons_of_free hfree]
  · rw [used_append, hcarve, List.cons_append, used_cons_of_used hu, used_append,
      used_of_free hrest, List.nil_append, Nat.add_assoc _ u.len, hspan]

/-- `alloc_mem` on a pool with the blocks `bs`: what is returned lies in a block of its own. -/
theorem allocMem_inv (hsbrk : ContiguousSbrk sbrkFunc brk base) {s : PoolSys σ} {bs : List Blk}
    {size : Nat} (h : PoolInv brk base s bs) (hsize : size < 2 ^ 64) :
    ∃ p st' bs', allocMem sbrkFunc s.st size = some (p, st') ∧ Preserves s.st st' bs ∧
      PoolInv brk base { st := st', live := PoolSys.record s.live p size } bs' ∧
      ((p = 0 ∧ used base bs' = used base bs) ∨
        ∃ x u, p = x + 32 ∧ u.user = some size ∧ 40 + alignedTo8Bytes size ≤ u.len ∧
          (∀ yc, yc ∈ used base bs' ↔ yc = (x, u) ∨ yc ∈ used base bs) ∧
          ∀ y, p ≤ y → y + 8 < x + u.len → st'.mem y = 0) := by
  obtain ⟨p, st', k, halloc, hpres, hused, hres⟩ := allocMem_spec hsbrk h.wf hsize
  rcases hres with ⟨rfl, hwf, -⟩ | ⟨pre, b, post, heq, hfit, -, rfl, hwf, -, hzero⟩
  · refine ⟨0, st', growBlks^[k] bs, halloc, hpres, ⟨hwf, ?_⟩, Or.inl ⟨rfl, hused⟩⟩
    simpa [PoolSys.record, hused] using h.live
  · obtain ⟨u, rest, hcarve, huser, hlen, hrest, hspan⟩ :=
      carve_eq size (show 8 ∣ alignedTo8Bytes size from Nat.dvd_mul_left _ _) hfit.2
    obtain ⟨hold, hnew⟩ := used_carve base pre post hfit.1 hcarve
      (by simp [Blk.isFree, huser]) hrest hspan
    rw [← heq, hused] at hold
    refine ⟨_, st', _, halloc, hpres, ⟨hwf, ?_⟩, Or.inr ⟨base + span Blk.len pre, u, rfl, huser, hlen,
      ?_, hzero u (by rw [hcarve]; rfl)⟩⟩
    · have hne : base + span Blk.len pre + 32 ≠ 0 := by omega
      have hlive : liveOf (base + span Blk.len pre, u) = (base + span Blk.len pre + 32, size) := by
        simp [liveOf, huser]
      simp only [PoolSys.record, hne, if_false, hnew, List.map_append, List.map_cons, hlive]
      refine List.Perm.trans (List.Perm.cons _ h.live) ?_
      rw [hold, List.map_append]
      exact List.perm_middle.symm
    · intro yc
      rw [hnew, hold]
      simp only [List.mem_append, List.mem_cons]
      tauto

/-- `free_mem` on a live pointer. -/
theorem freeMem_inv {s : PoolSys σ} {bs : List Blk} {p n : Nat} (h : PoolInv brk base s bs)
    (hlive : (p, n) ∈ s.live) :
    ∃ st' bs', freeMem s.st p = some st' ∧
      PoolInv brk base { st := st', live := PoolSys.forget s.live p } bs' ∧
      Preserves s.st st' bs' ∧
      ∀ x b, (x, b) ∈ used base bs' ↔ (x, b) ∈ used base bs ∧ x + 32 ≠ p := by
  obtain ⟨x, b, hxb, rfl, huser⟩ := h.mem_live.1 hlive
  obtain ⟨hplaced, hbused⟩ := mem_used.1 hxb
  obtain ⟨pre, post, rfl, rfl⟩ := mem_placed.1 hplaced
  obtain ⟨st', hfree, hwf, hpres, -, -⟩ := freeMem_spec h.wf huser
  have hold : used base (pre ++ b :: post) = used base pre ++ (base + span Blk.len pre, b) ::
      used (base + span Blk.len pre + b.len) post := by
    rw [used_append, used_cons_of_used hbused]
  have hnew : used base (coalesce pre b.len post) = used base pre ++
      used (base + span Blk.len pre + b.len) post := used_coalesce b.dvd_len b.len_ge
  -- the other blocks in use lie elsewhere
  have hbge := b.len_ge
  have hpre : ∀ yc ∈ used base pre, yc.1 + 32 ≠ base + span Blk.len pre + 32 := by
    rintro ⟨y, c⟩ hc
    have := placed_bounds (mem_used.1 hc).1
    have := c.len_ge
    simp only
    omega
  have hpost : ∀ yc ∈ used (base + span Blk.len pre + b.len) post,
      yc.1 + 32 ≠ base + span Blk.len pre + 32 := by
    rintro ⟨y, c⟩ hc
    have := placed_bounds (mem_used.1 hc).1
    simp only
    omega
  refine ⟨st', _, hfree, ⟨hwf, ?_⟩, hpres, ?_⟩
  · have hfilter : ∀ l : List (Nat × Blk), (∀ yc ∈ l, yc.1 + 32 ≠ base + span Blk.len pre + 32) →
        (l.map liveOf).filter (fun q => q.1 ≠ base + span Blk.len pre + 32) = l.map liveOf := by
      intro l hl
      rw [List.filter_eq_self]
      intro q hq
      obtain ⟨yc, hyc, rfl⟩ := List.mem_map.1 hq
      simpa [liveOf] using hl yc hyc
    have hperm := h.live.filter fun q => decide (q.1 ≠ base + span Blk.len pre + 32)
    rw [hold, List.map_append, List.map_cons, List.filter_append, List.filter_cons_of_neg (by simp [liveOf]),
      hfilter _ hpre, hfilter _ hpost, ← List.map_append, ← hnew] at hperm
    exact hperm
  · intro y c
    rw [hnew, hold]
    simp only [List.mem_append, List.mem_cons, Prod.mk.injEq]
    constructor
    · rintro (hc | hc)
      · exact ⟨Or.inl hc, hpre _ hc⟩
      · exact ⟨Or.inr (Or.inr hc), hpost _ hc⟩
    · rintro ⟨hc | ⟨rfl, rfl⟩ | hc, hne⟩
      · exact Or.inl hc
      · exact absurd rfl hne
      · exact Or.inr hc

theorem PoolInv.memBlkOk_live {s : PoolSys σ} {bs : List Blk} (h : PoolInv brk base s bs)
    {p n : Nat} (hlive : (p, n) ∈ s.live) :
    memBlkOk s.st.mem (sub64 p sizeofMemBlk) = true := by
  obtain ⟨x, b, hxb, rfl, -⟩ := h.mem_live.1 hlive
  obtain ⟨hplaced, hused⟩ := mem_used.1 hxb
  rw [← h.wf.start_eq] at hplaced
  have hb := h.wf.laid.1 x b hplaced
  have hbounds := placed_bounds hplaced
  have hend := h.wf.laid.2
  have hsize := h.wf.bounds.size_lt
  have haddr := h.wf.bounds.addr_le
  have hge := b.len_ge
  have hhdr : sub64 (x + 32) sizeofMemBlk = x :=
    (sub64_of_le (show 32 ≤ x + 32 by omega) (by omega)).trans (by simp)
  simp [hhdr, memBlkOk, hb.magic, hb.inUse, hused]

/-- A null pointer or one that is refused changes nothing. -/
theorem freeMem_refused {s : PoolSys σ} {bs : List Blk} {p : Nat} (h : PoolInv brk base s bs)
    (hp : p = 0 ∨ memBlkOk s.st.mem (sub64 p sizeofMemBlk) = false) :
    freeMem s.st p = some s.st ∧ PoolSys.forget s.live p = s.live := by
  constructor
  · rcases hp with rfl | hrefused
    · simp [freeMem]
    · simp [freeMem, hrefused]
  · simp only [PoolSys.forget, List.filter_eq_self, decide_eq_true_eq]
    rintro ⟨q, n⟩ hq rfl
    rcases hp with rfl | hrefused
    · obtain ⟨x, b, -, hx, -⟩ := h.mem_live.1 hq
      omega
    · rw [h.memBlkOk_live hq] at hrefused
      cases hrefused

/-- Writing between header and tail of a block in use. -/
theorem BlkAt.write {m : Mem} {a x : Nat} {b : Blk} {v : UInt8} (hb : BlkAt m a b)
    (hused : b.isFree = false) (h₁ : a + 32 ≤ x) (h₂ : x + 8 < a + b.len) :
    BlkAt (Function.update m x v) a b := by
  have hsame : ∀ y, y ≠ x → Function.update m x v y = m y := fun y hy => by simp [hy]
  have hload : ∀ y n, y + n ≤ x ∨ x < y → load (Function.update m x v) y n = load m y n :=
    fun y n hy => load_congr fun z hz₁ hz₂ => hsame z (by omega)
  refine ⟨⟨?_, ?_, ?_, ?_, ?_⟩, ?_⟩
  · exact (hload a 4 (by omega)).trans hb.magic
  · exact (hload (a + 4) 4 (by omega)).trans hb.inUse
  · exact (hload (a + 8) 8 (by omega)).trans hb.blkLen
  · exact (hload _ 8 (by omega)).trans hb.tail
  · intro n hn
    exact ⟨(hload (a + 16) 8 (by omega)).trans (hb.user n hn).1,
      (hload (a + 24) 8 (by omega)).trans (hb.user n hn).2⟩
  · intro hfree
    simp [Blk.isFree, hfree] at hused

theorem write_inv {s : PoolSys σ} {bs : List Blk} {x : Nat} {v : UInt8}
    (h : PoolInv brk base s bs) (hx : CallersInPayload s (.write x v)) :
    PoolInv brk base { s with st := { s.st with mem := Function.update s.st.mem x v } } bs := by
  suffices hlaid : Laid (Function.update s.st.mem x v) s.st.pool.start bs s.st.pool.end_ from
    ⟨⟨h.wf.start_eq, h.wf.brk_eq, h.wf.bounds, hlaid, h.wf.noAdj, h.wf.ne_nil⟩, h.live⟩
  rcases hx with hout | ⟨p, n, hlive, hx₁, hx₂⟩
  · refine laid_congr h.wf.laid fun y hy₁ hy₂ => ?_
    have hyx : y ≠ x := by
      rcases hout with hlt | hge
      · omega
      · omega
    simp [hyx]
  · obtain ⟨z, b, hzb, rfl, huser⟩ := h.mem_live.1 hlive
    obtain ⟨hplaced, hused⟩ := mem_used.1 hzb
    rw [← h.wf.start_eq] at hplaced
    have hb := h.wf.laid.1 z b hplaced
    have hlen : x + 8 < z + b.len := by
      simpa [sizeofMemBlk, sizeofMemBlkTail, hb.blkLen] using hx₂
    -- only the block that holds `x` is concerned
    refine tiles_congr h.wf.laid fun y c hc hyc => ?_
    rcases placed_apart hplaced hc with ⟨rfl, rfl⟩ | hsep
    · exact hyc.write hused hx₁ hlen
    · refine hyc.congr fun w hw₁ hw₂ => ?_
      have hwx : w ≠ x := by omega
      simp [hwx]

/-- Every step of callers that write only between headers and tails is carried out and keeps the
invariant. -/
theorem poolStep_inv (hsbrk : ContiguousSbrk sbrkFunc brk base) {s : PoolSys σ} {bs : List Blk}
    {a : PoolAction} (h : PoolInv brk base s bs) (ha : CallersInPayload s a) :
    ∃ s' bs', poolStep sbrkFunc s a = some s' ∧ PoolInv brk base s' bs' := by
  cases a with
  | alloc size =>
      obtain ⟨p, st', bs', halloc, -, hinv, -⟩ := allocMem_inv hsbrk h size.toNat_lt
      exact ⟨_, bs', by simp only [poolStep, halloc, Option.map_some], hinv⟩
  | free p =>
      rcases ha with hnull | ⟨n, hlive⟩ | hrefused
      · obtain ⟨hfree, hforget⟩ := freeMem_refused h (Or.inl hnull)
        exact ⟨s, bs, by simp only [poolStep, hfree, Option.map_some, hforget], h⟩
      · obtain ⟨st', bs', hfree, hinv, -⟩ := freeMem_inv h hlive
        exact ⟨_, bs', by simp only [poolStep, hfree, Option.map_some], hinv⟩
      · obtain ⟨hfree, hforget⟩ := freeMem_refused h (Or.inr hrefused)
        exact ⟨s, bs, by simp only [poolStep, hfree, Option.map_some, hforget], h⟩
  | write x v => exact ⟨_, bs, rfl, write_inv h ha⟩

/-- The same for callers that write only inside the ranges they asked for; all blocks in use then
have room for their range. -/
theorem poolStep_roomy (hsbrk : ContiguousSbrk sbrkFunc brk base) {s : PoolSys σ} {bs : List Blk}
    {a : PoolAction} (h : PoolInv brk base s bs) (hroom : Roomy base bs)
    (ha : CallersInRange s a) :
    ∃ s' bs', poolStep sbrkFunc s a = some s' ∧ PoolInv brk base s' bs' ∧ Roomy base bs' := by
  cases a with
  | alloc size =>
      obtain ⟨p, st', bs', halloc, -, hinv, hres⟩ := allocMem_inv hsbrk h size.toNat_lt
      refine ⟨_, bs', by simp only [poolStep, halloc, Option.map_some], hinv, ?_⟩
      rcases hres with ⟨-, hused⟩ | ⟨x, u, -, huser, hlen, hused, -⟩
      · intro y c hc
        rw [hused] at hc
        exact hroom y c hc
      · intro y c hc n hn
        rcases (hused (y, c)).1 hc with heq | hc
        · obtain ⟨rfl, rfl⟩ := Prod.mk.inj heq
          obtain rfl : size.toNat = n := by simpa [huser] using hn
          have hle : size.toNat ≤ alignedTo8Bytes size.toNat := by
            have hsize : size.toNat ≤ 2 ^ 64 - 8 := ha
            simp only [alignedTo8Bytes, add64]
            omega
          omega
        · exact hroom y c hc n hn
  | free p =>
      rcases ha with hnull | ⟨n, hlive⟩ | hrefused
      · obtain ⟨hfree, hforget⟩ := freeMem_refused h (Or.inl hnull)
        exact ⟨s, bs, by simp only [poolStep, hfree, Option.map_some, hforget], h, hroom⟩
      · obtain ⟨st', bs', hfree, hinv, -, hused⟩ := freeMem_inv h hlive
        exact ⟨_, bs', by simp only [poolStep, hfree, Option.map_some], hinv,
          fun y c hc => hroom y c ((hused y c).1 hc).1⟩
      · obtain ⟨hfree, hforget⟩ := freeMem_refused h (Or.inr hrefused)
        exact ⟨s, bs, by simp only [poolStep, hfree, Option.map_some, hforget], h, hroom⟩
  | write x v =>
      refine ⟨_, bs, rfl, write_inv h ?_, hroom⟩
      rcases ha with hout | ⟨p, n, hlive, hx₁, hx₂⟩
      · exact Or.inl hout
      · -- the range asked for ends in front of the tail
        obtain ⟨z, b, hzb, rfl, huser⟩ := h.mem_live.1 hlive
        have hplaced := (mem_used.1 hzb).1
        rw [← h.wf.start_eq] at hplaced
        have hb := h.wf.laid.1 z b hplaced
        have hfit := hroom z b hzb n huser
        refine Or.inr ⟨z + 32, n, hlive, hx₁, ?_⟩
        simp only [sizeofMemBlk, sizeofMemBlkTail, Nat.add_sub_cancel, hb.blkLen]
        omega

/-! ## Whole runs -/

/-- The pool after `init_mm`. -/
theorem initMm_inv (hsbrk : ContiguousSbrk sbrkFunc brk base) {m : Mem} {k : σ} {st : PoolState σ}
    (hk : brk k = base) (hinit : initMm sbrkFunc m k = some st) :
    PoolInv brk base { st := st, live := [] } [freeBlk initialBlkLen] ∧
      Roomy base [freeBlk initialBlkLen] := by
  have hfree : used base [freeBlk initialBlkLen] = [] := used_of_free (by simp)
  refine ⟨⟨(initMm_spec hsbrk hk hinit).1, by simp [hfree]⟩, ?_⟩
  intro x b hb
  simp [hfree] at hb

/-- Runs of callers that write only between headers and tails. -/
theorem poolRun_inv (hsbrk : ContiguousSbrk sbrkFunc brk base) {m : Mem} {k : σ}
    {st : PoolState σ} {acts : List PoolAction} (hk : brk k = base)
    (hinit : initMm sbrkFunc m k = some st)
    (hacts : Along (poolStep sbrkFunc) CallersInPayload { st := st, live := [] } acts) :
    ∃ s, runFrom (poolStep sbrkFunc) { st := st, live := [] } acts = some s ∧
      ∃ bs, PoolInv brk base s bs := by
  refine runFrom_progress_along ?_ ⟨_, (initMm_inv hsbrk hk hinit).1⟩ hacts
  rintro s a ⟨bs, h⟩ ha
  obtain ⟨s', bs', hstep, hinv⟩ := poolStep_inv hsbrk h ha
  exact ⟨s', hstep, bs', hinv⟩

/-- Runs of callers that write only inside the ranges they asked for. -/
theorem poolRun_roomy (hsbrk : ContiguousSbrk sbrkFunc brk base) {m : Mem} {k : σ}
    {st : PoolState σ} {acts : List PoolAction} (hk : brk k = base)
    (hinit : initMm sbrkFunc m k = some st)
    (hacts : Along (poolStep sbrkFunc) CallersInRange { st := st, live := [] } acts) :
    ∃ s, runFrom (poolStep sbrkFunc) { st := st, live := [] } acts = some s ∧
      ∃ bs, PoolInv brk base s bs ∧ Roomy base bs := by
  refine runFrom_progress_along ?_ ⟨_, initMm_inv hsbrk hk hinit⟩ hacts
  rintro s a ⟨bs, h, hroom⟩ ha
  obtain ⟨s', bs', hstep, hinv⟩ := poolStep_roomy hsbrk h hroom ha
  exact ⟨s', hstep, bs', hinv⟩

/-- The blocks `bs` tile the pool, the walks in both directions visit them in order, and those in
use are the live ones. -/
structure TiledBy (s : PoolSys σ) (bs : List Blk) : Prop where
  tiles : Tiles Blk.len (HdrAt s.st.mem) s.st.pool.start bs s.st.pool.end_
  len_ok : ∀ b ∈ bs, 8 ∣ b.len ∧ sizeofMemBlk + sizeofMemBlkTail ≤ b.len
  noAdjFree : NoAdjFree bs
  prev_first : prevMemBlk s.st.pool s.st.mem s.st.pool.start = 0
  next_last : ∀ pre b, bs = pre ++ [b] →
    nextMemBlk s.st.pool s.st.mem (s.st.pool.start + span Blk.len pre) = 0
  next_inner : ∀ pre b c post, bs = pre ++ b :: c :: post →
    nextMemBlk s.st.pool s.st.mem (s.st.pool.start + span Blk.len pre) =
      s.st.pool.start + span Blk.len (pre ++ [b])
  prev_inner : ∀ pre b c post, bs = pre ++ b :: c :: post →
    prevMemBlk s.st.pool s.st.mem (s.st.pool.start + span Blk.len (pre ++ [b])) =
      s.st.pool.start + span Blk.len pre
  live_iff : ∀ p n, (p, n) ∈ s.live ↔
    ∃ x b, (x, b) ∈ placed Blk.len s.st.pool.start bs ∧ p = x + sizeofMemBlk ∧ b.user = some n
  all_free : s.live = [] → ∃ b, bs = [b] ∧ b.isFree = true

theorem PoolInv.tiledBy {s : PoolSys σ} {bs : List Blk} (h : PoolInv brk base s bs) :
    TiledBy s bs := by
  have hend := h.wf.laid.2
  have hhdr : Tiles Blk.len (HdrAt s.st.mem) s.st.pool.start bs s.st.pool.end_ :=
    tiles_congr h.wf.laid fun _ _ _ hb => hb.toHdrAt
  refine ⟨hhdr, fun b _ => ⟨b.dvd_len, b.len_ge⟩, h.wf.noAdj, prevMemBlk_first h.wf.bounds, ?_, ?_, ?_,
    ?_, ?_⟩
  · rintro pre b rfl
    have hb := hhdr.1 (s.st.pool.start + span Blk.len pre) b (mem_placed.2 ⟨pre, [], rfl, rfl⟩)
    refine nextMemBlk_last h.wf.bounds hb ?_
    simp only [span_append, span_cons, span_nil] at hend
    omega
  · rintro pre b c post rfl
    have hb := hhdr.1 (s.st.pool.start + span Blk.len pre) b (mem_placed.2 ⟨pre, _, rfl, rfl⟩)
    have hc := c.len_ge
    simp only [span_append, span_cons, span_nil] at hend ⊢
    rw [nextMemBlk_inner h.wf.bounds hb (by omega)]
    omega
  · rintro pre b c post rfl
    have hb := hhdr.1 (s.st.pool.start + span Blk.len pre) b (mem_placed.2 ⟨pre, _, rfl, rfl⟩)
    simp only [span_append, span_cons, span_nil] at hend ⊢
    have := prevMemBlk_inner h.wf.bounds hb (by omega) (by omega)
    simpa [Nat.add_assoc] using this
  · intro p n
    rw [h.mem_live, h.wf.start_eq]
    constructor
    · rintro ⟨x, b, hxb, hp, hb⟩
      exact ⟨x, b, (mem_used.1 hxb).1, hp, hb⟩
    · rintro ⟨x, b, hxb, hp, hb⟩
      exact ⟨x, b, mem_used.2 ⟨hxb, by simp [Blk.isFree, hb]⟩, hp, hb⟩
  · intro hnone
    refine h.wf.noAdj.eq_singleton h.wf.ne_nil fun b hb => ?_
    have hused : used base bs = [] := by
      have := h.live
      rw [hnone] at this
      simpa using this.symm.eq_nil
    -- a block in use would be live
    by_contra hbused
    obtain ⟨pre, post, rfl⟩ := List.append_of_mem hb
    have : (base + span Blk.len pre, b) ∈ used base (pre ++ b :: post) :=
      mem_used.2 ⟨mem_placed.2 ⟨pre, post, rfl, rfl⟩, by simpa using hbused⟩
    simp [hused] at this

/-- Whatever sizes are asked for and in whatever order pointers are freed, the blocks tile the
pool. -/
theorem poolRun_tiled {m : Mem} {k : σ} {st : PoolState σ} {acts : List PoolAction}
    (hsbrk : ContiguousSbrk sbrkFunc brk (brk k)) (hinit : initMm sbrkFunc m k = some st)
    (hacts : Along (poolStep sbrkFunc) CallersInPayload { st := st, live := [] } acts) :
    ∃ s, runFrom (poolStep sbrkFunc) { st := st, live := [] } acts = some s ∧
      ∃ bs, TiledBy s bs := by
  obtain ⟨s, hrun, bs, h⟩ := poolRun_inv hsbrk rfl hinit hacts
  exact ⟨s, hrun, bs, h.tiledBy⟩

/-- The kernel's pool after `init_kmalloc_free`, in memory that was zero before. -/
def kmallocPool : PoolState MockSbrk :=
  { mem := initFreeBlk (fun _ => 0) memPoolStart initialBlkLen
    pool := { start := memPoolStart, end_ := memPoolStart + initialBlkLen, totalLength := 0 }
    sbrk := (kernelMockSbrk mockSbrkInit initialBlkLen).2 }

theorem kmallocPool_init : initMm kernelMockSbrk (fun _ => 0) mockSbrkInit = some kmallocPool := rfl

theorem poolRun_tiled_kmalloc :
    ∃ s, runFrom (poolStep kernelMockSbrk) { st := kmallocPool, live := [] }
        [.alloc 24, .alloc 100, .write (memPoolStart + 33) 7, .free (memPoolStart + 32)] = some s ∧
      ∃ bs, TiledBy s bs :=
  poolRun_tiled kernelMockSbrk_contiguous kmallocPool_init (by decide +kernel)

/-! ## The range returned by `alloc_mem` -/

/-- The ranges `[a, a + n)` and `[b, b + k)` do not overlap. -/
def Apart (a n b k : Nat) : Prop := a + n ≤ b ∨ b + k ≤ a

/-- The range `[p, p + size)` is aligned, lies between header and tail of a block of the pool, and
overlaps no other block. -/
def RangeOk (st : PoolState σ) (p size : Nat) : Prop :=
  8 ∣ p ∧ st.pool.start ≤ p ∧ p + size ≤ st.pool.end_ ∧
    ∃ bs x b, Tiles Blk.len (HdrAt st.mem) st.pool.start bs st.pool.end_ ∧
      (x, b) ∈ placed Blk.len st.pool.start bs ∧ x + sizeofMemBlk ≤ p ∧
      p + size + sizeofMemBlkTail ≤ x + b.len ∧
      ∀ z c, (z, c) ∈ placed Blk.len st.pool.start bs → z ≠ x →
        Apart p size z sizeofMemBlk ∧ Apart p size (z + c.len - sizeofMemBlkTail) sizeofMemBlkTail ∧
          ∀ n, c.user = some n → Apart p size (z + sizeofMemBlk) n

/-- As long as no size above `2 ^ 64 - 8` has been asked for, the pointer returned for any size has
room for it exactly when the size is not above that bound. -/
theorem allocMem_range {m : Mem} {k : σ} {st : PoolState σ} {acts : List PoolAction}
    (hsbrk : ContiguousSbrk sbrkFunc brk (brk k)) (halign : 8 ∣ brk k)
    (hinit : initMm sbrkFunc m k = some st)
    (hacts : Along (poolStep sbrkFunc) CallersInRange { st := st, live := [] } acts) :
    ∃ s, runFrom (poolStep sbrkFunc) { st := st, live := [] } acts = some s ∧
      ∀ size : UInt64, ∃ p st', allocMem sbrkFunc s.st size.toNat = some (p, st') ∧
        (p ≠ 0 → (RangeOk st' p size.toNat ↔ size.toNat ≤ 2 ^ 64 - 8)) := by
  obtain ⟨s, hrun, bs, h, hroom⟩ := poolRun_roomy hsbrk rfl hinit hacts
  refine ⟨s, hrun, fun size => ?_⟩
  obtain ⟨p, st', bs', halloc, -, hinv, hres⟩ := allocMem_inv hsbrk h size.toNat_lt
  refine ⟨p, st', halloc, fun hp => ?_⟩
  rcases hres with ⟨rfl, -⟩ | ⟨x, u, rfl, huser, hlen, hused, -⟩
  · exact absurd rfl hp
  have hlaid := hinv.wf.laid
  have hbase := hinv.wf.start_eq
  have hend := hlaid.2
  have hsize := hinv.wf.bounds.size_lt
  have haddr := hinv.wf.bounds.addr_le
  dsimp only at hlaid hbase hend hsize haddr
  obtain ⟨hplaced, hu⟩ := mem_used.1 ((hused (x, u)).2 (Or.inl rfl))
  rw [← hbase] at hplaced
  have hbounds := placed_bounds hplaced
  have h64 := size.toNat_lt
  constructor
  · rintro ⟨-, -, hle, -⟩
    omega
  · intro hsz
    have hle : size.toNat ≤ alignedTo8Bytes size.toNat := by
      simp only [alignedTo8Bytes, add64]
      omega
    have hdvd : 8 ∣ x := by
      obtain ⟨pre, post, -, rfl⟩ := mem_placed.1 hplaced
      rw [hbase]
      exact Nat.dvd_add halign (dvd_span pre)
    have hge := u.len_ge
    refine ⟨by omega, by omega, by omega, bs', x, u, tiles_congr hlaid fun _ _ _ hb => hb.toHdrAt,
      hplaced, Nat.le_refl _, by simp only [sizeofMemBlkTail]; omega, ?_⟩
    intro z c hc hne
    have hcge := c.len_ge
    -- other blocks lie apart, and their user ranges lie inside them
    have hsep : x + u.len ≤ z ∨ z + c.len ≤ x := by
      rcases placed_apart hplaced hc with ⟨rfl, -⟩ | hsep
      · exact absurd rfl hne
      · exact hsep
    have hroomc : ∀ n, c.user = some n → 40 + n ≤ c.len := by
      intro n hn
      have hcused : (z, c) ∈ used (brk k) bs' := by
        rw [← hbase]
        exact mem_used.2 ⟨hc, by simp [Blk.isFree, hn]⟩
      rcases (hused (z, c)).1 hcused with heq | hold
      · exact absurd (Prod.mk.inj heq).1 hne
      · exact hroom z c hold n hn
    simp only [Apart, sizeofMemBlk, sizeofMemBlkTail]
    refine ⟨by omega, by omega, fun n hn => ?_⟩
    have := hroomc n hn
    omega

theorem allocMem_range_kmalloc :
    ∃ s, runFrom (poolStep kernelMockSbrk) { st := kmallocPool, live := [] }
        [.alloc 24, .alloc 100, .free (memPoolStart + 32)] = some s ∧
      ∀ size : UInt64, ∃ p st', allocMem kernelMockSbrk s.st size.toNat = some (p, st') ∧
        (p ≠ 0 → (RangeOk st' p size.toNat ↔ size.toNat ≤ 2 ^ 64 - 8)) :=
  allocMem_range kernelMockSbrk_contiguous (by decide) kmallocPool_init (by decide +kernel)

/-- Asking for `2 ^ 64 - 1` bytes right after `init_mm` returns the empty first block. -/
theorem allocMem_wraps :
    ∃ st p st', initMm kernelMockSbrk (fun _ => 0) mockSbrkInit = some st ∧
      allocMem kernelMockSbrk st (2 ^ 64 - 1) = some (p, st') ∧ p ≠ 0 ∧
      ¬RangeOk st' p (2 ^ 64 - 1) := by
  have heval : (allocMem kernelMockSbrk kmallocPool (2 ^ 64 - 1)).map
      (fun r => (r.1, r.2.pool.end_)) = some (memPoolStart + 32, memPoolStart + 40) := by
    decide +kernel
  obtain ⟨⟨p, st'⟩, halloc, hres⟩ := Option.map_eq_some_iff.1 heval
  obtain ⟨rfl, hend⟩ := Prod.mk.inj hres
  refine ⟨kmallocPool, _, st', kmallocPool_init, halloc, by decide, ?_⟩
  rintro ⟨-, -, hle, -⟩
  dsimp only at hle hend
  omega

/-! ## Frames -/

/-- The bytes between header and tail of every free block are zero. -/
def FreeInteriorsZero (st : PoolState σ) (bs : List Blk) : Prop :=
  ∀ x b, (x, b) ∈ placed Blk.len st.pool.start bs → b.isFree = true →
    ∀ y, x + sizeofMemBlk ≤ y → y + sizeofMemBlkTail < x + b.len → st.mem y = 0

/-- The user ranges in `live` hold the same bytes in both memories. -/
def KeepsRanges (live : List (Nat × Nat)) (m m' : Mem) : Prop :=
  ∀ p n, (p, n) ∈ live → ∀ y, p ≤ y → y < p + n → m' y = m y

/-- As long as no size above `2 ^ 64 - 8` is asked for, neither `alloc_mem` nor `free_mem` touches
the range of another live block, and what `alloc_mem` returns is zero. -/
theorem poolRun_frame {m : Mem} {k : σ} {st : PoolState σ} {acts : List PoolAction}
    (hsbrk : ContiguousSbrk sbrkFunc brk (brk k)) (hinit : initMm sbrkFunc m k = some st)
    (hacts : Along (poolStep sbrkFunc) CallersInRange { st := st, live := [] } acts) :
    ∃ s, runFrom (poolStep sbrkFunc) { st := st, live := [] } acts = some s ∧
      (∃ bs, TiledBy s bs ∧ FreeInteriorsZero s.st bs) ∧
      (∀ size : UInt64, ∃ p st', allocMem sbrkFunc s.st size.toNat = some (p, st') ∧
        KeepsRanges s.live s.st.mem st'.mem ∧
        (p ≠ 0 → size.toNat ≤ 2 ^ 64 - 8 →
          ∀ y, p ≤ y → y < p + size.toNat → st'.mem y = 0)) ∧
      ∀ p, FreeAllowed s p → ∃ st', freeMem s.st p = some st' ∧
        KeepsRanges (PoolSys.forget s.live p) s.st.mem st'.mem := by
  obtain ⟨s, hrun, bs, h, hroom⟩ := poolRun_roomy hsbrk rfl hinit hacts
  have hbase := h.wf.start_eq
  refine ⟨s, hrun, ⟨bs, h.tiledBy, ?_⟩, fun size => ?_, fun p hp => ?_⟩
  · intro x b hb hfree y hy₁ hy₂
    simp only [sizeofMemBlk, sizeofMemBlkTail] at hy₁ hy₂
    exact (h.wf.laid.1 x b hb).zero (Blk.isFree_iff.1 hfree) y (by omega) (by omega)
  · obtain ⟨p, st', bs', halloc, hpres, -, hres⟩ := allocMem_inv hsbrk h size.toNat_lt
    refine ⟨p, st', halloc, ?_, ?_⟩
    · intro q n hq y hy₁ hy₂
      obtain ⟨x, b, hxb, rfl, huser⟩ := h.mem_live.1 hq
      have hfit := hroom x b hxb n huser
      exact hpres.keeps x b (hbase ▸ hxb) y (by omega) (by omega)
    · intro hne hsz y hy₁ hy₂
      rcases hres with ⟨rfl, -⟩ | ⟨x, u, rfl, -, hlen, -, hzero⟩
      · exact absurd rfl hne
      · have hle : size.toNat ≤ alignedTo8Bytes size.toNat := by
          simp only [alignedTo8Bytes, add64]
          omega
        exact hzero y hy₁ (by omega)
  · -- `free_mem` changes nothing when it does not accept the pointer
    have hrefused : p = 0 ∨ memBlkOk s.st.mem (sub64 p sizeofMemBlk) = false →
        ∃ st', freeMem s.st p = some st' ∧
          KeepsRanges (PoolSys.forget s.live p) s.st.mem st'.mem := fun hr =>
      ⟨s.st, (freeMem_refused h hr).1, fun _ _ _ _ _ _ => rfl⟩
    rcases hp with hnull | ⟨n, hlive⟩ | hbad
    · exact hrefused (Or.inl hnull)
    · obtain ⟨st', bs', hfree, -, hpres, hused⟩ := freeMem_inv h hlive
      refine ⟨st', hfree, fun q i hq y hy₁ hy₂ => ?_⟩
      obtain ⟨hqlive, hqp⟩ := List.mem_filter.1 hq
      obtain ⟨x, b, hxb, rfl, huser⟩ := h.mem_live.1 hqlive
      have hfit := hroom x b hxb i huser
      have hkept := (hused x b).2 ⟨hxb, by simpa using hqp⟩
      exact hpres.keeps x b (hbase ▸ hkept) y (by omega) (by omega)
    · exact hrefused (Or.inr hbad)

theorem poolRun_frame_kmalloc :
    ∃ s, runFrom (poolStep kernelMockSbrk) { st := kmallocPool, live := [] }
        [.alloc 24, .alloc 100, .write (memPoolStart + 33) 7] = some s ∧
      (∃ bs, TiledBy s bs ∧ FreeInteriorsZero s.st bs) ∧
      (∀ size : UInt64, ∃ p st', allocMem kernelMockSbrk s.st size.toNat = some (p, st') ∧
        KeepsRanges s.live s.st.mem st'.mem ∧
        (p ≠ 0 → size.toNat ≤ 2 ^ 64 - 8 →
          ∀ y, p ≤ y → y < p + size.toNat → st'.mem y = 0)) ∧
      ∀ p, FreeAllowed s p → ∃ st', freeMem s.st p = some st' ∧
        KeepsRanges (PoolSys.forget s.live p) s.st.mem st'.mem :=
  poolRun_frame kernelMockSbrk_contiguous kmallocPool_init (by decide +kernel)

/-- After a request for `2 ^ 64 - 1` bytes the next block is placed inside the range asked for. -/
theorem allocMem_overwrites :
    ∃ st s p st', initMm kernelMockSbrk (fun _ => 0) mockSbrkInit = some st ∧
      runFrom (poolStep kernelMockSbrk) { st := st, live := [] } [.alloc (2 ^ 64 - 1)] = some s ∧
      allocMem kernelMockSbrk s.st 8 = some (p, st') ∧
      ¬KeepsRanges s.live s.st.mem st'.mem := by
  have hrun : (runFrom (poolStep kernelMockSbrk) { st := kmallocPool, live := [] }
      [.alloc (2 ^ 64 - 1)]).bind (fun s => (allocMem kernelMockSbrk s.st 8).map fun r =>
        (s.live, s.st.mem (memPoolStart + 40), r.2.mem (memPoolStart + 40))) =
      some ([(memPoolStart + 32, 2 ^ 64 - 1)], 0, 0x34) := by
    decide +kernel
  obtain ⟨s, hs, hres⟩ := Option.bind_eq_some_iff.1 hrun
  obtain ⟨⟨p, st'⟩, halloc, heq⟩ := Option.map_eq_some_iff.1 hres
  simp only [Prod.mk.injEq] at heq
  obtain ⟨hlive, hbefore, hafter⟩ := heq
  refine ⟨kmallocPool, s, p, st', kmallocPool_init, hs, halloc, fun hkeeps => ?_⟩
  -- the low byte of the magic number of the new block
  have hsame := hkeeps (memPoolStart + 32) (2 ^ 64 - 1) (by simp [hlive]) (memPoolStart + 40)
    (by omega) (by omega)
  rw [hbefore, hafter] at hsame
  exact absurd hsame (by decide)

end Mm
end ToutOS
