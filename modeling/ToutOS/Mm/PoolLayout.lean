import Mathlib.Data.List.Chain
import ToutOS.Base.Tiling
import ToutOS.Mm.Pool

/-!
# PoolLayout — the blocks a pool consists of

The abstract picture of a pool is a list of blocks.  `BlkAt m a b` reads one of them back from
memory, and `Tiles` lays the list out over the address range of the pool.  The file shows what each
function of the allocator does to the list:

* `initFreeBlk_spec` — writes one free block and nothing outside it;
* `prevMemBlk_*`, `nextMemBlk_*` — step to the neighbours;
* `mergeFreeBlk_spec` — `coalesce`: a free block absorbs the free blocks on both sides;
* `scanFreeBlk_spec` — first fit;
* `markMemBlk_spec` — `carve`: the block found is cut down to size.
-/

namespace ToutOS
namespace Mm

open Base

/-! ## Blocks -/

/-- A block with room for `words` words of 8 bytes; a block in use keeps the size that was asked
for. -/
structure Blk where
  words : Nat
  user : Option Nat
  deriving DecidableEq, Repr

def Blk.len (b : Blk) : Nat := sizeofMemBlk + 8 * b.words + sizeofMemBlkTail

def Blk.isFree (b : Blk) : Bool := b.user.isNone

/-- The free block of `n` bytes. -/
def freeBlk (n : Nat) : Blk := { words := (n - initialBlkLen) / 8, user := none }

theorem Blk.len_eq (b : Blk) : b.len = 40 + 8 * b.words := by
  simp only [Blk.len, sizeofMemBlk, sizeofMemBlkTail]
  omega

theorem Blk.len_ge (b : Blk) : 40 ≤ b.len := by
  rw [b.len_eq]
  omega

theorem Blk.dvd_len (b : Blk) : 8 ∣ b.len := by
  rw [b.len_eq]
  omega

theorem dvd_span (bs : List Blk) : 8 ∣ span Blk.len bs := by
  induction bs with
  | nil => simp
  | cons b bs ih => simpa using Nat.dvd_add b.dvd_len ih

theorem length_le_span (bs : List Blk) : bs.length ≤ span Blk.len bs := by
  induction bs with
  | nil => simp
  | cons b bs ih =>
      have := b.len_ge
      simp only [List.length_cons, span_cons]
      omega

theorem freeBlk_len {n : Nat} (h8 : 8 ∣ n) (h40 : 40 ≤ n) : (freeBlk n).len = n := by
  rw [Blk.len_eq]
  simp only [freeBlk, initialBlkLen, sizeofMemBlk, sizeofMemBlkTail]
  omega

@[simp] theorem freeBlk_user (n : Nat) : (freeBlk n).user = none := rfl

@[simp] theorem freeBlk_isFree (n : Nat) : (freeBlk n).isFree = true := rfl

theorem Blk.isFree_iff {b : Blk} : b.isFree = true ↔ b.user = none := by
  simp [Blk.isFree]

/-- Header and tail of `b` at `a`. -/
structure HdrAt (m : Mem) (a : Nat) (b : Blk) : Prop where
  magic : magicNum m a = memBlkMagic
  inUse : inUse m a = if b.isFree then 0 else 1
  blkLen : blkLen m a = b.len
  tail : load m (a + b.len - 8) 8 = a
  user : ∀ n, b.user = some n → userStart m a = a + 32 ∧ userLen m a = n

/-- The block `b` at `a`; what lies between the length field and the tail of a free block is
zero. -/
structure BlkAt (m : Mem) (a : Nat) (b : Blk) : Prop extends HdrAt m a b where
  zero : b.user = none → ∀ x, a + 16 ≤ x → x < a + b.len - 8 → m x = 0

/-- A block depends on its own bytes only. -/
theorem HdrAt.congr {m m' : Mem} {a : Nat} {b : Blk} (h : HdrAt m a b)
    (hagree : ∀ x, a ≤ x → x < a + b.len → m' x = m x) : HdrAt m' a b := by
  have hlen := b.len_ge
  have hload : ∀ x n, a ≤ x → x + n ≤ a + b.len → load m' x n = load m x n := fun x n h₁ h₂ =>
    load_congr fun y h₃ h₄ => hagree y (by omega) (by omega)
  refine ⟨?_, ?_, ?_, ?_, ?_⟩
  · exact (hload a 4 (by omega) (by omega)).trans h.magic
  · exact (hload (a + 4) 4 (by omega) (by omega)).trans h.inUse
  · exact (hload (a + 8) 8 (by omega) (by omega)).trans h.blkLen
  · exact (hload _ 8 (by omega) (by omega)).trans h.tail
  · intro n hn
    exact ⟨(hload (a + 16) 8 (by omega) (by omega)).trans (h.user n hn).1,
      (hload (a + 24) 8 (by omega) (by omega)).trans (h.user n hn).2⟩

theorem BlkAt.congr {m m' : Mem} {a : Nat} {b : Blk} (h : BlkAt m a b)
    (hagree : ∀ x, a ≤ x → x < a + b.len → m' x = m x) : BlkAt m' a b := by
  refine ⟨h.toHdrAt.congr hagree, ?_⟩
  intro hfree x h₁ h₂
  rw [hagree x (by omega) (by omega)]
  exact h.zero hfree x h₁ h₂

theorem HdrAt.isBlkFree_eq {m : Mem} {a : Nat} {b : Blk} (h : HdrAt m a b) :
    isBlkFree m a = b.isFree := by
  simp only [isBlkFree, h.inUse]
  cases b.isFree <;> simp

/-- The blocks `bs` fill `[a, e)`. -/
abbrev Laid (m : Mem) (a : Nat) (bs : List Blk) (e : Nat) : Prop := Tiles Blk.len (BlkAt m) a bs e

theorem laid_congr {m m' : Mem} {a e : Nat} {bs : List Blk} (h : Laid m a bs e)
    (hagree : ∀ x, a ≤ x → x < e → m' x = m x) : Laid m' a bs e := by
  refine tiles_congr h fun x b hb hblk => hblk.congr fun y h₁ h₂ => ?_
  have hbounds := placed_bounds hb
  have hend := h.2
  exact hagree y (by omega) (by omega)

/-! ## Writing a free block -/

theorem blkLen_setBlkLen {m : Mem} {p n : Nat} (hn : n < 2 ^ 64) :
    blkLen (setBlkLen m p n) p = n :=
  load_store_same (by simpa using hn)

/-- `init_free_blk` with the address of the tail worked out. -/
theorem initFreeBlk_eq {m : Mem} {p n : Nat} (h40 : 40 ≤ n) (hn : n < 2 ^ 31)
    (hp : p + n < 2 ^ 64) :
    initFreeBlk m p n =
      store (setBlkLen (setInUse (setMagicNum (fill m p n 0) p memBlkMagic) p 0) p n)
        (p + n - 8) 8 p := by
  have hmin : min n (2 ^ 31) = n := by omega
  have htail : ∀ m', getTail (setBlkLen m' p n) p = p + n - 8 := by
    intro m'
    rw [getTail, blkLen_setBlkLen (by omega), add64_of_lt hp, sizeofMemBlkTail,
      sub64_of_le (by omega) (by omega)]
  simp only [initFreeBlk, htail, hmin]

theorem initFreeBlk_outside {m : Mem} {p n x : Nat} (h40 : 40 ≤ n) (hn : n < 2 ^ 31)
    (hp : p + n < 2 ^ 64) (hx : x < p ∨ p + n ≤ x) : initFreeBlk m p n x = m x := by
  rw [initFreeBlk_eq h40 hn hp]
  simp only [setBlkLen, setInUse, setMagicNum, store, fill]
  rw [if_neg (by omega), if_neg (by omega), if_neg (by omega), if_neg (by omega), if_neg (by omega)]

/-- `init_free_blk` writes a free block. -/
theorem initFreeBlk_spec {m : Mem} {p n : Nat} (h8 : 8 ∣ n) (h40 : 40 ≤ n) (hn : n < 2 ^ 31)
    (hp : p + n < 2 ^ 64) : BlkAt (initFreeBlk m p n) p (freeBlk n) := by
  rw [initFreeBlk_eq h40 hn hp]
  have hfree := freeBlk_len h8 h40
  refine ⟨⟨?_, ?_, ?_, ?_, ?_⟩, ?_⟩
  · rw [magicNum, load_store_ne (by omega), setBlkLen, load_store_ne (by omega), setInUse,
      load_store_ne (by omega), setMagicNum, load_store_same (by decide)]
  · rw [inUse, load_store_ne (by omega), setBlkLen, load_store_ne (by omega), setInUse,
      load_store_same (by decide)]
    rfl
  · rw [blkLen, load_store_ne (by omega), hfree]
    exact blkLen_setBlkLen (by omega)
  · rw [hfree, load_store_same (by norm_num; omega)]
  · intro k hk
    cases hk
  · -- everything between the length field and the tail was cleared and not written again
    rw [hfree]
    intro _ x h₁ h₂
    rw [store_apply_of_lt h₂, setBlkLen, store_apply_of_ge (by omega), setInUse,
      store_apply_of_ge (by omega), setMagicNum, store_apply_of_ge (by omega)]
    exact fill_apply_of_mem (by omega) (by omega)

/-! ## Neighbours -/

/-- Where a pool may lie: not at the very beginning of the address space, and below `2 ^ 31` bytes
long. -/
structure PoolBounds (pool : MemPool) : Prop where
  start_ge : 8 ≤ pool.start
  size_lt : pool.end_ < pool.start + 2 ^ 31
  addr_le : pool.start + 2 ^ 31 ≤ 2 ^ 64

theorem nextMemBlk_last {pool : MemPool} {m : Mem} {a : Nat} {b : Blk} (hpool : PoolBounds pool)
    (hb : HdrAt m a b) (hend : a + b.len = pool.end_) : nextMemBlk pool m a = 0 := by
  have h₁ := hpool.size_lt
  have h₂ := hpool.addr_le
  simp only [nextMemBlk, hb.blkLen]
  rw [add64_of_lt (by omega), if_pos (by omega)]

theorem nextMemBlk_inner {pool : MemPool} {m : Mem} {a : Nat} {b : Blk} (hpool : PoolBounds pool)
    (hb : HdrAt m a b) (hend : a + b.len < pool.end_) : nextMemBlk pool m a = a + b.len := by
  have h₁ := hpool.size_lt
  have h₂ := hpool.addr_le
  simp only [nextMemBlk, hb.blkLen]
  rw [add64_of_lt (by omega), if_neg (by omega)]

theorem prevMemBlk_first {pool : MemPool} {m : Mem} (hpool : PoolBounds pool) :
    prevMemBlk pool m pool.start = 0 := by
  have h₀ := hpool.start_ge
  have h₂ := hpool.addr_le
  have htail : sub64 pool.start sizeofMemBlkTail = pool.start - 8 := sub64_of_le h₀ (by omega)
  simp only [prevMemBlk, htail]
  exact if_pos (by omega)

theorem prevMemBlk_inner {pool : MemPool} {m : Mem} {a : Nat} {b : Blk} (hpool : PoolBounds pool)
    (hb : HdrAt m a b) (ha : pool.start ≤ a) (hend : a + b.len ≤ pool.end_) :
    prevMemBlk pool m (a + b.len) = a := by
  have h₁ := hpool.size_lt
  have h₂ := hpool.addr_le
  have h₃ := b.len_ge
  have htail : sub64 (a + b.len) sizeofMemBlkTail = a + b.len - 8 :=
    sub64_of_le (show 8 ≤ a + b.len by omega) (by omega)
  simp only [prevMemBlk, htail, hb.tail]
  exact if_neg (by omega)

/-! ## Merging -/

theorem mostPrev_null {pool : MemPool} {m : Mem} {fuel most : Nat} :
    mostPrev pool m fuel 0 most = some most := by
  cases fuel <;> simp [mostPrev]

theorem mostNext_null {pool : MemPool} {m : Mem} {fuel most : Nat} :
    mostNext pool m fuel 0 most = some most := by
  cases fuel <;> simp [mostNext]

theorem mostPrev_succ {pool : MemPool} {m : Mem} {fuel p most : Nat} {b : Blk} (hp : p ≠ 0)
    (hb : HdrAt m p b) :
    mostPrev pool m (fuel + 1) p most =
      if b.isFree then mostPrev pool m fuel (prevMemBlk pool m p) p else some most := by
  simp [mostPrev, hp, hb.isBlkFree_eq]

theorem mostNext_succ {pool : MemPool} {m : Mem} {fuel p most : Nat} {b : Blk} (hp : p ≠ 0)
    (hb : HdrAt m p b) :
    mostNext pool m (fuel + 1) p most =
      if b.isFree then mostNext pool m fuel (nextMemBlk pool m p) p else some most := by
  simp [mostNext, hp, hb.isBlkFree_eq]

/-- From a block whose predecessors end with the free blocks `fs`, the first loop stops at the
first of these. -/
theorem mostPrev_spec {pool : MemPool} {m : Mem} {pre fs : List Blk} {x : Nat}
    (hpool : PoolBounds pool) (hpre : Laid m pool.start pre x)
    (hfs : ∀ f ∈ fs, f.isFree = true) (hlast : ∀ c ∈ pre.getLast?, c.isFree = false) :
    ∀ {fuel a : Nat}, Laid m x fs a → a ≤ pool.end_ → (pre ++ fs).length ≤ fuel →
      mostPrev pool m fuel (prevMemBlk pool m a) a = some x := by
  have hstart := hpool.start_ge
  have hx := hpre.2
  -- from the right end of `fs`: each step back drops one free block
  induction fs using List.reverseRecOn with
  | nil =>
      intro fuel a hfsm ha hfuel
      obtain rfl : x = a := tiles_nil.1 hfsm
      rcases List.eq_nil_or_concat pre with rfl | ⟨pre', c, rfl⟩
      · obtain rfl : pool.start = x := tiles_nil.1 hpre
        rw [prevMemBlk_first hpool, mostPrev_null]
      · rw [List.concat_eq_append] at *
        obtain ⟨y, hpre', hc, rfl⟩ := tiles_concat.1 hpre
        have hy := hpre'.2
        have hcfree : c.isFree = false := hlast c (by simp)
        obtain ⟨fuel, rfl⟩ : ∃ k, fuel = k + 1 := ⟨fuel - 1, by simp at hfuel; omega⟩
        rw [prevMemBlk_inner hpool hc.toHdrAt (by omega) ha,
          mostPrev_succ (by omega) hc.toHdrAt, hcfree]
        rfl
  | append_singleton fs f ih =>
      intro fuel a hfsm ha hfuel
      obtain ⟨y, hfs', hf, rfl⟩ := tiles_concat.1 hfsm
      have hy := hfs'.2
      have hffree : f.isFree = true := hfs f (by simp)
      have hlen := f.len_ge
      obtain ⟨fuel, rfl⟩ : ∃ k, fuel = k + 1 := ⟨fuel - 1, by simp at hfuel; omega⟩
      rw [prevMemBlk_inner hpool hf.toHdrAt (by omega) ha, mostPrev_succ (by omega) hf.toHdrAt,
        hffree, if_pos rfl]
      refine ih (fun g hg => hfs g (by simp [hg])) hfs' (by omega) ?_
      simp only [List.length_append, List.length_cons, List.length_nil] at hfuel ⊢
      omega

/-- From a block whose successors begin with the free blocks `gs`, the second loop stops at the
last of these. -/
theorem mostNext_spec {pool : MemPool} {m : Mem} {post gs : List Blk} (hpool : PoolBounds pool)
    (hgs : ∀ g ∈ gs, g.isFree = true) (hhead : ∀ c ∈ post.head?, c.isFree = false) :
    ∀ {fuel a : Nat} {b : Blk}, a ≠ 0 → HdrAt m a b →
      Laid m (a + b.len) (gs ++ post) pool.end_ → (gs ++ post).length ≤ fuel →
      ∃ y, mostNext pool m fuel (nextMemBlk pool m a) a = some y ∧
        y + blkLen m y = a + b.len + span Blk.len gs := by
  induction gs with
  | nil =>
      intro fuel a b ha hb hpost hfuel
      refine ⟨a, ?_, by simp [hb.blkLen]⟩
      cases post with
      | nil => rw [nextMemBlk_last hpool hb (tiles_nil.1 hpost), mostNext_null]
      | cons c post =>
          have hcfree : c.isFree = false := hhead c (by simp)
          obtain ⟨hc, hrest⟩ := tiles_cons.1 hpost
          have hend := hrest.2
          have hlen := c.len_ge
          obtain ⟨fuel, rfl⟩ : ∃ k, fuel = k + 1 := ⟨fuel - 1, by simp at hfuel; omega⟩
          rw [nextMemBlk_inner hpool hb (by omega), mostNext_succ (by omega) hc.toHdrAt, hcfree]
          rfl
  | cons g gs ih =>
      intro fuel a b ha hb hpost hfuel
      obtain ⟨hg, hrest⟩ := tiles_cons.1 hpost
      have hgfree : g.isFree = true := hgs g (by simp)
      have hend := hrest.2
      have hlen := g.len_ge
      obtain ⟨fuel, rfl⟩ : ∃ k, fuel = k + 1 := ⟨fuel - 1, by simp at hfuel; omega⟩
      obtain ⟨y, hy, hylen⟩ := ih (fun c hc => hgs c (by simp [hc]))
        (show a + b.len ≠ 0 by omega) hg.toHdrAt hrest (by simpa using hfuel)
      refine ⟨y, ?_, by simp only [hylen, span_cons]; omega⟩
      rw [nextMemBlk_inner hpool hb (by omega), mostNext_succ (by omega) hg.toHdrAt, hgfree,
        if_pos rfl, hy]

/-- A free block of `n` bytes between `pre` and `post` absorbs the free blocks next to it. -/
def coalesce (pre : List Blk) (n : Nat) (post : List Blk) : List Blk :=
  pre.rdropWhile Blk.isFree ++
    freeBlk (span Blk.len (pre.rtakeWhile Blk.isFree) + n +
      span Blk.len (post.takeWhile Blk.isFree)) :: post.dropWhile Blk.isFree

/-- The blocks in use, with their addresses. -/
def used (a : Nat) (bs : List Blk) : List (Nat × Blk) :=
  (placed Blk.len a bs).filter fun xb => !xb.2.isFree

theorem mem_used {a x : Nat} {b : Blk} {bs : List Blk} :
    (x, b) ∈ used a bs ↔ (x, b) ∈ placed Blk.len a bs ∧ b.isFree = false := by
  simp [used]

@[simp] theorem used_append (a : Nat) (bs cs : List Blk) :
    used a (bs ++ cs) = used a bs ++ used (a + span Blk.len bs) cs := by
  simp [used]

theorem used_of_free {a : Nat} {bs : List Blk} (h : ∀ b ∈ bs, b.isFree = true) :
    used a bs = [] := by
  simp only [used, List.filter_eq_nil_iff]
  rintro ⟨x, b⟩ hb
  obtain ⟨pre, post, rfl, -⟩ := mem_placed.1 hb
  simp [h b (by simp)]

theorem used_cons_of_free {a : Nat} {b : Blk} {bs : List Blk} (h : b.isFree = true) :
    used a (b :: bs) = used (a + b.len) bs := by
  simp [used, h]

theorem used_cons_of_used {a : Nat} {b : Blk} {bs : List Blk} (h : b.isFree = false) :
    used a (b :: bs) = (a, b) :: used (a + b.len) bs := by
  simp [used, h]

theorem span_coalesce {pre post : List Blk} {n : Nat} (h8 : 8 ∣ n) (h40 : 40 ≤ n) :
    span Blk.len (coalesce pre n post) = span Blk.len pre + n + span Blk.len post := by
  have hpre : span Blk.len pre = span Blk.len (pre.rdropWhile Blk.isFree) +
      span Blk.len (pre.rtakeWhile Blk.isFree) := by
    rw [← span_append, List.rdropWhile_append_rtakeWhile]
  have hpost : span Blk.len post = span Blk.len (post.takeWhile Blk.isFree) +
      span Blk.len (post.dropWhile Blk.isFree) := by
    rw [← span_append, List.takeWhile_append_dropWhile]
  have hd₁ := dvd_span (pre.rtakeWhile Blk.isFree)
  have hd₂ := dvd_span (post.takeWhile Blk.isFree)
  rw [coalesce, span_append, span_cons, freeBlk_len (by omega) (by omega)]
  omega

/-- Merging free blocks leaves the blocks in use where they are. -/
theorem used_coalesce {a n : Nat} {pre post : List Blk} (h8 : 8 ∣ n) (h40 : 40 ≤ n) :
    used a (coalesce pre n post) = used a pre ++ used (a + span Blk.len pre + n) post := by
  have hd₁ := dvd_span (pre.rtakeWhile Blk.isFree)
  have hd₂ := dvd_span (post.takeWhile Blk.isFree)
  have hpre : used a pre = used a (pre.rdropWhile Blk.isFree) := by
    conv_lhs => rw [← @List.rdropWhile_append_rtakeWhile _ Blk.isFree pre]
    rw [used_append, used_of_free (fun b hb => List.mem_rtakeWhile_imp hb), List.append_nil]
  have hpost : ∀ x, used x post =
      used (x + span Blk.len (post.takeWhile Blk.isFree)) (post.dropWhile Blk.isFree) := by
    intro x
    conv_lhs => rw [← List.takeWhile_append_dropWhile (p := Blk.isFree) (l := post)]
    rw [used_append, used_of_free (fun b hb => (List.mem_takeWhile_imp hb)), List.nil_append]
  have hspan : span Blk.len pre = span Blk.len (pre.rdropWhile Blk.isFree) +
      span Blk.len (pre.rtakeWhile Blk.isFree) := by
    rw [← span_append, List.rdropWhile_append_rtakeWhile]
  rw [hpre, hpost, coalesce, used_append, used_cons_of_free (freeBlk_isFree _),
    freeBlk_len (by omega) (by omega), hspan]
  congr 2
  omega

/-- The bytes of the blocks in use are the same in both memories. -/
def KeepsUsed (m m' : Mem) (a : Nat) (bs : List Blk) : Prop :=
  ∀ z c, (z, c) ∈ used a bs → ∀ y, z ≤ y → y < z + c.len → m' y = m y

theorem KeepsUsed.trans {m₁ m₂ m₃ : Mem} {a : Nat} {bs : List Blk} (h₁ : KeepsUsed m₁ m₂ a bs)
    (h₂ : KeepsUsed m₂ m₃ a bs) : KeepsUsed m₁ m₃ a bs := fun z c hc y hy₁ hy₂ =>
  (h₂ z c hc y hy₁ hy₂).trans (h₁ z c hc y hy₁ hy₂)

/-- `merge_free_blk` on a free block: the free blocks around it become one, and all other bytes
stay. -/
theorem mergeFreeBlk_spec {pool : MemPool} {m : Mem} {pre post : List Blk} {a : Nat} {b : Blk}
    (hpool : PoolBounds pool) (hpre : Laid m pool.start pre a) (hb : HdrAt m a b)
    (hfree : b.isFree = true) (hpost : Laid m (a + b.len) post pool.end_) :
    ∃ m', mergeFreeBlk pool m a = some m' ∧
      Laid m' pool.start (coalesce pre b.len post) pool.end_ ∧
      KeepsUsed m m' pool.start (coalesce pre b.len post) ∧
      ∀ x, x < pool.start ∨ pool.end_ ≤ x → m' x = m x := by
  -- `pre` ends and `post` begins with the free blocks that are absorbed
  obtain ⟨x, hkeep, hfs⟩ : ∃ x, Laid m pool.start (pre.rdropWhile Blk.isFree) x ∧
      Laid m x (pre.rtakeWhile Blk.isFree) a := by
    rw [← tiles_append, List.rdropWhile_append_rtakeWhile]
    exact hpre
  obtain ⟨y, hgs, hrest⟩ : ∃ y, Laid m (a + b.len) (post.takeWhile Blk.isFree) y ∧
      Laid m y (post.dropWhile Blk.isFree) pool.end_ := by
    rw [← tiles_append, List.takeWhile_append_dropWhile]
    exact hpost
  have hx := hkeep.2
  have hxa := hfs.2
  have hya := hgs.2
  have hye := hrest.2
  have hd₁ := dvd_span (pre.rtakeWhile Blk.isFree)
  have hd₂ := dvd_span (post.takeWhile Blk.isFree)
  have hdb := b.dvd_len
  have hlb := b.len_ge
  have hstart := hpool.start_ge
  have hsize := hpool.size_lt
  have haddr := hpool.addr_le
  have hfuel : pre.length + post.length + 1 ≤ pool.fuel := by
    have h₁ := length_le_span pre
    have h₂ := length_le_span post
    have h₃ := hpre.2
    have h₄ := hpost.2
    simp only [MemPool.fuel]
    omega
  -- the two loops find the ends of the free range
  obtain ⟨fuel, hk⟩ : ∃ k, pool.fuel = k + 1 := ⟨pool.fuel - 1, by omega⟩
  have hprev : mostPrev pool m pool.fuel a a = some x := by
    rw [hk, mostPrev_succ (by omega) hb, hfree, if_pos rfl]
    refine mostPrev_spec hpool hkeep (fun f hf => List.mem_rtakeWhile_imp hf)
      (fun c hc => rdropWhile_getLast? hc) hfs (by omega) ?_
    rw [List.rdropWhile_append_rtakeWhile]
    omega
  obtain ⟨z, hnext, hz⟩ : ∃ z, mostNext pool m pool.fuel a a = some z ∧
      z + blkLen m z = a + b.len + span Blk.len (post.takeWhile Blk.isFree) := by
    rw [hk, mostNext_succ (by omega) hb, hfree, if_pos rfl]
    refine mostNext_spec hpool (fun g hg => List.mem_takeWhile_imp hg)
      (fun c hc => dropWhile_head? hc) (by omega) hb (tiles_append.2 ⟨y, hgs, hrest⟩) ?_
    rw [List.takeWhile_append_dropWhile]
    omega
  have hlen : sub64 (add64 z (blkLen m z)) x = y - x := by
    rw [add64_of_lt (by omega), hz, hya, sub64_of_le (by omega) (by omega)]
  have hn : span Blk.len (pre.rtakeWhile Blk.isFree) + b.len +
      span Blk.len (post.takeWhile Blk.isFree) = y - x := by omega
  have hout : ∀ w, w < x ∨ y ≤ w → initFreeBlk m x (y - x) w = m w := fun w hw =>
    initFreeBlk_outside (by omega) (by omega) (by omega) (by omega)
  have hlaid₁ := laid_congr hkeep fun w _ hw => hout w (Or.inl hw)
  have hlaid₂ := laid_congr hrest fun w hw _ => hout w (Or.inr hw)
  refine ⟨initFreeBlk m x (y - x), ?_, ?_, ?_, ?_⟩
  · simp only [mergeFreeBlk, hprev, hnext, Option.bind_some, Option.map_some, hlen]
  · rw [coalesce, hn]
    refine tiles_append.2 ⟨x, hlaid₁, tiles_cons.2 ⟨?_, ?_⟩⟩
    · exact initFreeBlk_spec (by omega) (by omega) (by omega) (by omega)
    · rw [freeBlk_len (by omega) (by omega)]
      have hxy : x + (y - x) = y := by omega
      rwa [hxy]
  · intro w c hc v hv₁ hv₂
    rw [coalesce, hn, used_append, used_cons_of_free (freeBlk_isFree _),
      freeBlk_len (by omega) (by omega)] at hc
    -- a block in use lies in front of the free range or behind it
    rcases List.mem_append.1 hc with hc | hc
    · have := placed_bounds (mem_used.1 hc).1
      exact hout v (by omega)
    · have := placed_bounds (mem_used.1 hc).1
      exact hout v (by omega)
  · intro w hw
    exact hout w (by omega)

/-! ## Free neighbours -/

/-- No two neighbouring blocks are both free. -/
def NoAdjFree (bs : List Blk) : Prop :=
  bs.IsChain fun b c => b.isFree = false ∨ c.isFree = false

theorem NoAdjFree.split {pre post : List Blk} {b : Blk} (h : NoAdjFree (pre ++ b :: post)) :
    NoAdjFree pre ∧ NoAdjFree post := by
  obtain ⟨hpre, hrest, -⟩ := List.isChain_append.1 h
  exact ⟨hpre, hrest.tail⟩

theorem NoAdjFree.coalesce {pre post : List Blk} {n : Nat} (hpre : NoAdjFree pre)
    (hpost : NoAdjFree post) : NoAdjFree (coalesce pre n post) := by
  rw [← @List.rdropWhile_append_rtakeWhile _ Blk.isFree pre] at hpre
  rw [← List.takeWhile_append_dropWhile (p := Blk.isFree) (l := post)] at hpost
  refine List.isChain_append.2 ⟨(List.isChain_append.1 hpre).1, ?_, ?_⟩
  · refine List.isChain_cons.2 ⟨?_, (List.isChain_append.1 hpost).2.1⟩
    intro c hc
    exact Or.inr (dropWhile_head? hc)
  · intro c hc d _
    exact Or.inl (rdropWhile_getLast? hc)

/-- A pool without a block in use is one free block. -/
theorem NoAdjFree.eq_singleton {bs : List Blk} (h : NoAdjFree bs) (hne : bs ≠ [])
    (hfree : ∀ b ∈ bs, b.isFree = true) : ∃ b, bs = [b] ∧ b.isFree = true := by
  cases bs with
  | nil => exact absurd rfl hne
  | cons b bs =>
      cases bs with
      | nil => exact ⟨b, rfl, hfree b (by simp)⟩
      | cons c bs =>
          have hbc := (List.isChain_cons_cons.1 h).1
          simp [hfree b (by simp), hfree c (by simp)] at hbc

/-! ## First fit -/

/-- A free block with room for `size` bytes. -/
def Blk.Fits (b : Blk) (size : Nat) : Prop := b.isFree = true ∧ 40 + size ≤ b.len

instance (b : Blk) (size : Nat) : Decidable (b.Fits size) :=
  inferInstanceAs (Decidable (_ ∧ _))

theorem bigMemBlk_iff {m : Mem} {a size : Nat} {b : Blk} (hb : HdrAt m a b) (hlen : b.len < 2 ^ 64) :
    bigMemBlk m a size = true ↔ 40 + size ≤ b.len := by
  have hge := b.len_ge
  have h₁ : sub64 b.len sizeofMemBlk = b.len - 32 := sub64_of_le (show 32 ≤ b.len by omega) hlen
  have h₂ : sub64 (b.len - 32) sizeofMemBlkTail = b.len - 32 - 8 :=
    sub64_of_le (show 8 ≤ b.len - 32 by omega) (by omega)
  simp only [bigMemBlk, hb.blkLen, h₁, h₂, decide_eq_true_eq]
  omega

theorem scanFreeBlk_null {pool : MemPool} {m : Mem} {size fuel : Nat} :
    scanFreeBlk pool m size fuel 0 = some 0 := by
  cases fuel <;> simp [scanFreeBlk]

/-- The scan finds the first block that fits, or `0` if there is none. -/
theorem scanFreeBlk_spec {pool : MemPool} {m : Mem} (size : Nat) (hpool : PoolBounds pool) :
    ∀ {fuel a : Nat} {b : Blk} {bs : List Blk}, a ≠ 0 → Laid m a (b :: bs) pool.end_ →
      (b :: bs).length ≤ fuel →
      (scanFreeBlk pool m size fuel a = some 0 ∧ ∀ c ∈ b :: bs, ¬c.Fits size) ∨
      ∃ pre c post, b :: bs = pre ++ c :: post ∧
        scanFreeBlk pool m size fuel a = some (a + span Blk.len pre) ∧ c.Fits size ∧
        ∀ d ∈ pre, ¬d.Fits size := by
  have h₁ := hpool.size_lt
  have h₂ := hpool.addr_le
  intro fuel
  induction fuel with
  | zero =>
      intro a b bs _ _ hfuel
      simp at hfuel
  | succ fuel ih =>
      intro a b bs ha hlaid hfuel
      obtain ⟨hb, hrest⟩ := tiles_cons.1 hlaid
      have hend := hrest.2
      -- the two tests of the loop are `Fits`
      have hcond : (isBlkFree m a && bigMemBlk m a size) = true ↔ b.Fits size := by
        rw [Bool.and_eq_true, hb.isBlkFree_eq,
          bigMemBlk_iff hb.toHdrAt (show b.len < 2 ^ 64 by omega), Blk.Fits]
      have hscan : scanFreeBlk pool m size (fuel + 1) a =
          if b.Fits size then some a
          else scanFreeBlk pool m size fuel (nextMemBlk pool m a) := by
        rw [scanFreeBlk, if_neg ha]
        exact if_congr hcond rfl rfl
      by_cases hfit : b.Fits size
      · exact Or.inr ⟨[], b, bs, rfl, by rw [hscan, if_pos hfit]; simp, hfit, by simp⟩
      · rw [hscan, if_neg hfit]
        cases bs with
        | nil =>
            -- after the last block `next_mem_blk` is null
            rw [nextMemBlk_last hpool hb.toHdrAt (tiles_nil.1 hrest), scanFreeBlk_null]
            exact Or.inl ⟨rfl, by simpa using hfit⟩
        | cons c bs =>
            have hlen := c.len_ge
            rw [span_cons] at hend
            rw [nextMemBlk_inner hpool hb.toHdrAt (by omega)]
            rcases ih (by omega) hrest (by simpa using hfuel) with ⟨hnone, hall⟩ |
              ⟨pre, d, post, heq, hfound, hd, hpre⟩
            · refine Or.inl ⟨hnone, ?_⟩
              intro e he
              rcases List.mem_cons.1 he with rfl | he
              · exact hfit
              · exact hall e he
            · refine Or.inr ⟨b :: pre, d, post, by rw [heq]; rfl, ?_, hd, ?_⟩
              · rw [hfound, span_cons, Nat.add_assoc]
              · intro e he
                rcases List.mem_cons.1 he with rfl | he
                · exact hfit
                · exact hpre e he

/-! ## Cutting a block down to size -/

/-- The free block `b` handed out for `size` bytes, `n` of which were asked for; what is left over
becomes a free block if it has room for a header, a tail and more. -/
def carve (b : Blk) (size n : Nat) : List Blk :=
  if 80 + size < b.len then
    [{ words := size / 8, user := some n }, freeBlk (b.len - (40 + size))]
  else [{ words := b.words, user := some n }]

/-- The block handed out, followed by at most one free block. -/
theorem carve_eq {b : Blk} {size : Nat} (n : Nat) (h8 : 8 ∣ size) (hlen : 40 + size ≤ b.len) :
    ∃ u rest, carve b size n = u :: rest ∧ u.user = some n ∧ 40 + size ≤ u.len ∧
      (∀ c ∈ rest, c.isFree = true) ∧ u.len + span Blk.len rest = b.len := by
  have hb8 := b.dvd_len
  unfold carve
  split_ifs with hsplit
  · refine ⟨_, _, rfl, rfl, ?_, by simp, ?_⟩
    · rw [Blk.len_eq]
      simp only
      omega
    · rw [Blk.len_eq, span_cons, span_nil, freeBlk_len (by omega) (by omega)]
      simp only
      omega
  · exact ⟨_, _, rfl, rfl, by simpa [Blk.len_eq] using hlen, by simp, by simp [Blk.len_eq]⟩

theorem NoAdjFree.carve {pre post : List Blk} {b : Blk} {size n : Nat} (h8 : 8 ∣ size)
    (hfit : b.Fits size) (h : NoAdjFree (pre ++ b :: post)) :
    NoAdjFree (pre ++ (carve b size n ++ post)) := by
  obtain ⟨hpre, hrest, -⟩ := List.isChain_append.1 h
  obtain ⟨hhead, hpost⟩ := List.isChain_cons.1 hrest
  -- the successor of a free block is in use
  have hnext : ∀ c ∈ post.head?, c.isFree = false := fun c hc => by
    simpa [hfit.1] using hhead c hc
  refine List.isChain_append.2 ⟨hpre, ?_, ?_⟩
  · unfold Mm.carve
    split_ifs
    · refine List.isChain_cons_cons.2 ⟨Or.inl rfl, List.isChain_cons.2 ⟨?_, hpost⟩⟩
      exact fun c hc => Or.inr (hnext c hc)
    · exact List.isChain_cons.2 ⟨fun c _ => Or.inl rfl, hpost⟩
  · obtain ⟨u, rest, hcarve, huser, -⟩ := carve_eq n h8 hfit.2
    intro c _ d hd
    rw [hcarve] at hd
    simp only [List.cons_append, List.head?_cons, Option.mem_def, Option.some.injEq] at hd
    subst hd
    exact Or.inr (by simp [Blk.isFree, huser])

/-- Marking a free block as used, with the size asked for. -/
theorem mark_used {m : Mem} {a n : Nat} {b : Blk} (hb : BlkAt m a b) (ha : a + 32 < 2 ^ 64)
    (size : Nat) (hn : n < 2 ^ 64) :
    BlkAt (setUserLen (setUserLen (setUserStart (setInUse m a 1) a (add64 a sizeofMemBlk)) a size)
      a n) a { b with user := some n } := by
  have hlen : Blk.len { b with user := some n } = b.len := rfl
  have hge := b.len_ge
  have hstart : add64 a sizeofMemBlk = a + 32 := add64_of_lt ha
  rw [hstart]
  refine ⟨⟨?_, ?_, ?_, ?_, ?_⟩, ?_⟩
  · rw [magicNum, setUserLen, load_store_ne (by omega), setUserLen, load_store_ne (by omega),
      setUserStart, load_store_ne (by omega), setInUse, load_store_ne (by omega)]
    exact hb.magic
  · rw [inUse, setUserLen, load_store_ne (by omega), setUserLen, load_store_ne (by omega),
      setUserStart, load_store_ne (by omega), setInUse, load_store_same (by decide)]
    rfl
  · rw [blkLen, setUserLen, load_store_ne (by omega), setUserLen, load_store_ne (by omega),
      setUserStart, load_store_ne (by omega), setInUse, load_store_ne (by omega)]
    exact hb.blkLen
  · rw [hlen, setUserLen, load_store_ne (by omega), setUserLen, load_store_ne (by omega),
      setUserStart, load_store_ne (by omega), setInUse, load_store_ne (by omega)]
    exact hb.tail
  · intro k hk
    obtain rfl : n = k := by simpa using hk
    refine ⟨?_, ?_⟩
    · rw [userStart, setUserLen, load_store_ne (by omega), setUserLen, load_store_ne (by omega),
        setUserStart, load_store_same (by norm_num; omega)]
    · rw [userLen, setUserLen, load_store_same (by norm_num; omega)]
  · intro hfree
    cases hfree

theorem mark_used_outside {m : Mem} {a v n size x : Nat} (hx : x < a ∨ a + 32 ≤ x) :
    setUserLen (setUserLen (setUserStart (setInUse m a 1) a v) a size) a n x = m x := by
  simp only [setUserLen, setUserStart, setInUse, store]
  rw [if_neg (by omega), if_neg (by omega), if_neg (by omega), if_neg (by omega)]

/-- `split_mem_blk` cuts a free block in two. -/
theorem splitMemBlk_spec {pool : MemPool} {m : Mem} {a size : Nat} {b : Blk}
    (hpool : PoolBounds pool) (hb : BlkAt m a b) (h8 : 8 ∣ size) (hsplit : 80 + size < b.len)
    (ha : pool.start ≤ a) (hend : a + b.len ≤ pool.end_) :
    Laid (splitMemBlk pool m a size) a [freeBlk (40 + size), freeBlk (b.len - (40 + size))]
        (a + b.len) ∧
      ∀ x, x < a ∨ a + b.len ≤ x → splitMemBlk pool m a size x = m x := by
  have h₁ := hpool.size_lt
  have h₂ := hpool.addr_le
  have hb8 := b.dvd_len
  have hlen₁ : (freeBlk (40 + size)).len = 40 + size := freeBlk_len (by omega) (by omega)
  have hlen₂ : (freeBlk (b.len - (40 + size))).len = b.len - (40 + size) :=
    freeBlk_len (by omega) (by omega)
  have hnew : add64 (add64 sizeofMemBlk size) sizeofMemBlkTail = 40 + size := by
    simp only [add64, sizeofMemBlk, sizeofMemBlkTail]
    omega
  have hsub : sub64 b.len (40 + size) = b.len - (40 + size) := sub64_of_le (by omega) (by omega)
  have hfirst := initFreeBlk_spec (m := m) (p := a) (show 8 ∣ 40 + size by omega) (by omega)
    (by omega) (by omega)
  have hnext : nextMemBlk pool (initFreeBlk m a (40 + size)) a = a + (40 + size) := by
    rw [nextMemBlk_inner hpool hfirst.toHdrAt (by omega), hlen₁]
  have hout₁ : ∀ x, x < a ∨ a + (40 + size) ≤ x → initFreeBlk m a (40 + size) x = m x := fun x hx =>
    initFreeBlk_outside (by omega) (by omega) (by omega) hx
  have hout₂ : ∀ x, x < a + (40 + size) ∨ a + b.len ≤ x →
      initFreeBlk (initFreeBlk m a (40 + size)) (a + (40 + size)) (b.len - (40 + size)) x =
        initFreeBlk m a (40 + size) x := fun x hx =>
    initFreeBlk_outside (by omega) (by omega) (by omega) (by omega)
  have heq : splitMemBlk pool m a size =
      initFreeBlk (initFreeBlk m a (40 + size)) (a + (40 + size)) (b.len - (40 + size)) := by
    simp only [splitMemBlk, hb.blkLen, hnew, hnext, hsub]
  rw [heq]
  refine ⟨tiles_cons.2 ⟨?_, tiles_cons.2 ⟨?_, tiles_nil.2 (by omega)⟩⟩, ?_⟩
  · -- writing the second block does not touch the first
    exact hfirst.congr fun x _ hx => hout₂ x (by omega)
  · rw [hlen₁]
    exact initFreeBlk_spec (by omega) (by omega) (by omega) (by omega)
  · intro x hx
    rw [hout₂ x (by omega), hout₁ x (by omega)]

/-- `mark_mem_blk` on a free block that fits, with the size asked for written over the rounded
one; the block handed out is zero between its header and its tail. -/
theorem markMemBlk_spec {pool : MemPool} {m : Mem} {a size n : Nat} {b : Blk}
    (hpool : PoolBounds pool) (hb : BlkAt m a b) (hfit : b.Fits size) (h8 : 8 ∣ size)
    (ha : pool.start ≤ a) (hend : a + b.len ≤ pool.end_) (hn : n < 2 ^ 64) :
    Laid (setUserLen (markMemBlk pool m a size) a n) a (carve b size n) (a + b.len) ∧
      (∀ x, x < a ∨ a + b.len ≤ x → setUserLen (markMemBlk pool m a size) a n x = m x) ∧
      ∀ c ∈ (carve b size n).head?, ∀ x, a + 32 ≤ x → x + 8 < a + c.len →
        setUserLen (markMemBlk pool m a size) a n x = 0 := by
  have h₁ := hpool.size_lt
  have h₂ := hpool.addr_le
  have hlen := hfit.2
  have hge := b.len_ge
  -- the sum in `should_split` does not overflow
  have hcond : shouldSplit m a size = decide (80 + size < b.len) := by
    simp only [shouldSplit, hb.blkLen, add64, sizeofMemBlk, sizeofMemBlkTail]
    congr 1
    simp only [eq_iff_iff]
    omega
  simp only [markMemBlk, hcond, carve]
  by_cases hsplit : 80 + size < b.len
  · simp only [hsplit, decide_true, if_true]
    obtain ⟨hlaid, hout⟩ := splitMemBlk_spec hpool hb h8 hsplit ha hend
    obtain ⟨hfst, hsnd⟩ := tiles_cons.1 hlaid
    obtain ⟨hsnd, hnil⟩ := tiles_cons.1 hsnd
    have hlen₁ : (freeBlk (40 + size)).len = 40 + size := freeBlk_len (by omega) (by omega)
    -- `mark_mem_blk` writes the rounded size, and `alloc_mem` the one asked for over it
    have hwords : ({ freeBlk (40 + size) with user := some n } : Blk) =
        { words := size / 8, user := some n } := by
      simp only [freeBlk, initialBlkLen, sizeofMemBlk, sizeofMemBlkTail, Blk.mk.injEq, and_true]
      omega
    have hmark := mark_used hfst (by omega) size hn
    rw [hwords] at hmark
    have hlen₂ : Blk.len { words := size / 8, user := some n } = 40 + size := by
      rw [← hwords]
      exact hlen₁
    refine ⟨tiles_cons.2 ⟨hmark, tiles_cons.2 ⟨?_, ?_⟩⟩, ?_, ?_⟩
    · rw [hlen₁] at hsnd
      rw [hlen₂]
      exact hsnd.congr fun x hx _ => mark_used_outside (by omega)
    · rw [hlen₁] at hnil
      rw [hlen₂]
      exact tiles_nil.2 (tiles_nil.1 hnil)
    · intro x hx
      rw [mark_used_outside (by omega), hout x hx]
    · intro c hc x hx₁ hx₂
      obtain rfl := Option.some.inj hc
      rw [mark_used_outside (by omega)]
      exact hfst.zero rfl x (by omega) (by omega)
  · simp only [hsplit, decide_false, if_false]
    refine ⟨tiles_cons.2 ⟨mark_used hb (by omega) size hn, tiles_nil.2 rfl⟩, ?_, ?_⟩
    · intro x hx
      exact mark_used_outside (by omega)
    · intro c hc x hx₁ hx₂
      obtain rfl := Option.some.inj hc
      have hlen₁ : Blk.len { words := b.words, user := some n } = b.len := rfl
      rw [mark_used_outside (by omega)]
      exact hb.zero (Blk.isFree_iff.1 hfit.1) x (by omega) (by omega)

end Mm
end ToutOS
