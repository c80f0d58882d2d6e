import ToutOS.Mm.PagesUsage

/-!
# PageOrders — the block for a size: `get_free_pages(get_order(size))`

`get_order` counts in 64 bits, `get_free_pages` computes the number of pages in 32 bits, where the
instruction shifts by the order modulo 32.

* `getOrder_big` — the order for sizes above `2 ^ 63`, where the product of `get_order` overflows;
* `Covered`, `covered_iff` — the pages that have been marked have room for the size;
* `OrderFits` — what a caller relies on;
* `ShiftWraps`, `shiftWraps_iff` — the sizes whose order is 32 or more;
* `orderFits_iff` — for these, and only these, a block that is found is too small.
-/

namespace ToutOS
namespace Mm

open Base

variable {size k : Nat}

/-! ## The order -/

/-- The product never gets above `2 ^ 63`. -/
theorem orderSize_le {i : Nat} (hi : i < 64) : 2 ^ i * pageSize % 2 ^ 64 ≤ 2 ^ 63 := by
  rcases Nat.lt_or_ge 51 i with hhigh | hlow
  · -- all bits have been shifted out
    obtain ⟨j, rfl⟩ := Nat.exists_eq_add_of_le (show 52 ≤ i from hhigh)
    have hproduct : 2 ^ (52 + j) * pageSize = 2 ^ 64 * 2 ^ j := by
      rw [Nat.mul_comm, pageSize_mul_two_pow, ← Nat.pow_add]
      congr 1
      omega
    rw [hproduct, Nat.mul_mod_right]
    exact Nat.zero_le _
  · rw [orderSize_eq hlow, pageSize_mul_two_pow]
    exact Nat.pow_le_pow_right (by decide) (by omega)

/-- Sizes for which no order is enough. -/
theorem getOrderLoop_big (hsize : 2 ^ 63 < size) :
    ∀ {left i : Nat}, i + left = 64 → getOrderLoop size left i = 64 := by
  intro left
  induction left with
  | zero => exact fun hleft => hleft
  | succ left ih =>
      intro i hleft
      have htest := orderSize_le (show i < 64 by omega)
      rw [getOrderLoop, if_neg (Nat.not_le.2 (Nat.lt_of_le_of_lt htest hsize))]
      exact ih (by omega)

theorem getOrder_big (hsize : 2 ^ 63 < size) : getOrder size = 64 := getOrderLoop_big hsize rfl

/-- The number of pages is computed from the order modulo 32: `2 ^ k` of them for these sizes. -/
def ShiftWraps (size k : Nat) : Prop :=
  (2 ^ (43 + k) < size ∧ size ≤ 2 ^ (44 + k) ∧ k < 20) ∨ (2 ^ 63 < size ∧ k = 0)

theorem ShiftWraps.size_gt (h : ShiftWraps size k) : 2 ^ 43 < size := by
  rcases h with ⟨hgt, -, -⟩ | ⟨hgt, -⟩
  · exact Nat.lt_of_le_of_lt (Nat.pow_le_pow_right (by decide) (Nat.le_add_right 43 k)) hgt
  · exact Nat.lt_trans (by decide) hgt

/-- When the number of pages has lost the high bits of the order, there is no room. -/
theorem ShiftWraps.too_small (h : ShiftWraps size k) : pageSize * 2 ^ k < size := by
  rw [pageSize_mul_two_pow]
  rcases h with ⟨hgt, -, -⟩ | ⟨hgt, rfl⟩
  · exact Nat.lt_of_le_of_lt (Nat.pow_le_pow_right (by decide) (by omega)) hgt
  · exact Nat.lt_trans (by decide) hgt

/-- A size and its order. -/
theorem getOrder_eq_iff {order : Nat} (hsize : size ≤ 2 ^ 63) (horder : order ≠ 0) :
    getOrder size = order ↔ 2 ^ (11 + order) < size ∧ size ≤ 2 ^ (12 + order) := by
  have hleast := getOrder_isLeast hsize
  constructor
  · rintro rfl
    refine ⟨?_, by rw [← pageSize_mul_two_pow]; exact hleast.1⟩
    -- the order before is not enough
    by_contra hle
    have hbefore := hleast.2 (show size ≤ pageSize * 2 ^ (getOrder size - 1) by
      rw [pageSize_mul_two_pow, show 12 + (getOrder size - 1) = 11 + getOrder size by omega]
      exact Nat.le_of_not_lt hle)
    omega
  · rintro ⟨hgt, hle⟩
    refine Nat.le_antisymm (hleast.2 ?_) ?_
    · rw [Set.mem_ofPred_eq, pageSize_mul_two_pow]
      exact hle
    · by_contra hlt
      have henough : size ≤ 2 ^ (12 + getOrder size) := by
        rw [← pageSize_mul_two_pow]
        exact hleast.1
      have hpow : 2 ^ (12 + getOrder size) ≤ 2 ^ (11 + order) :=
        Nat.pow_le_pow_right (by decide) (by omega)
      omega

/-- The sizes above `2 ^ 43`, and their numbers of pages. -/
theorem shiftWraps_iff (hsize : 2 ^ 43 < size) : ShiftWraps size k ↔ k = getOrder size % 32 := by
  rcases Nat.lt_or_ge (2 ^ 63) size with hbig | hle
  · rw [getOrder_big hbig]
    constructor
    · rintro (⟨-, hle, hk⟩ | ⟨-, hk⟩)
      · have hpow : 2 ^ (44 + k) ≤ 2 ^ 63 := Nat.pow_le_pow_right (by decide) (by omega)
        exact absurd (hle.trans hpow) (Nat.not_le.2 hbig)
      · exact hk
    · exact fun hk => Or.inr ⟨hbig, hk⟩
  · have hleast := getOrder_isLeast hle
    have hhigh : getOrder size ≤ 51 := hleast.2 hle
    have hlow : 32 ≤ getOrder size := by
      by_contra hlt
      have hpow : pageSize * 2 ^ getOrder size ≤ 2 ^ 43 := by
        rw [pageSize_mul_two_pow]
        exact Nat.pow_le_pow_right (by decide) (by omega)
      exact absurd (Nat.le_trans hleast.1 hpow) (Nat.not_le.2 hsize)
    have heq : getOrder size = 32 + k ↔ 2 ^ (43 + k) < size ∧ size ≤ 2 ^ (44 + k) := by
      rw [getOrder_eq_iff hle (by omega), show 11 + (32 + k) = 43 + k by omega,
        show 12 + (32 + k) = 44 + k by omega]
    constructor
    · rintro (⟨hgt, hle', hk⟩ | ⟨hbig, -⟩)
      · have horder := heq.2 ⟨hgt, hle'⟩
        omega
      · exact absurd hle (Nat.not_le.2 hbig)
    · intro hk
      obtain ⟨hgt, hle'⟩ := heq.1 (by omega)
      exact Or.inl ⟨hgt, hle', by omega⟩

/-! ## The block -/

namespace UsageArray

/-- Every byte of a block of `size` bytes at `p` is in a page that was free and is marked. -/
def Covered (usage usage' : UsageArray) (p size : Nat) : Prop :=
  ∀ x, p ≤ x → x < p + size → ∃ page < maxNumPages, pagePoolStart + pageSize * page ≤ x ∧
    x < pagePoolStart + pageSize * (page + 1) ∧ usage page = 0 ∧ usage' page = 1

variable {usage : UsageArray}

theorem covered_iff {first num : Nat} (hend : first + num ≤ maxNumPages)
    (hfree : Stretch (fun k => usage k = 0) first num) :
    Covered usage (setStretch usage first num 1) (pagePoolStart + pageSize * first) size ↔
      size ≤ pageSize * num := by
  constructor
  · intro h
    by_contra hlt
    -- the first byte behind the block
    obtain ⟨page, -, hlow, hhigh, hzero, hone⟩ := h (pagePoolStart + pageSize * (first + num))
      (by simp only [pageSize]; omega) (by simp only [pageSize] at hlt ⊢; omega)
    have hpage : page = first + num := by
      simp only [pageSize] at hlow hhigh
      omega
    have hsame : setStretch usage first num 1 page = usage page := if_neg (by omega)
    rw [hsame, hzero] at hone
    exact absurd hone (by decide)
  · intro hle x hlow hhigh
    have hin : pagePoolStart + pageSize * ((x - pagePoolStart) / pageSize) ≤ x ∧
        x < pagePoolStart + pageSize * ((x - pagePoolStart) / pageSize + 1) := by
      simp only [pageSize] at hlow ⊢
      omega
    have hrange : first ≤ (x - pagePoolStart) / pageSize ∧
        (x - pagePoolStart) / pageSize < first + num := by
      simp only [pageSize] at hlow hhigh hle ⊢
      omega
    exact ⟨(x - pagePoolStart) / pageSize, by omega, hin.1, hin.2, hfree _ hrange.1 hrange.2,
      setStretch_of_mem hrange.1 hrange.2⟩

/-- A block that is found for the size has room for it, and the order is the least that is enough. -/
structure OrderFits (usage : UsageArray) (size : Nat) : Prop where
  covered : (getFreePages usage (getOrder size)).1 ≠ 0 →
    Covered usage (getFreePages usage (getOrder size)).2 (getFreePages usage (getOrder size)).1 size
  least : 1 ≤ size → size ≤ 2 ^ 63 → IsLeast {order | size ≤ 4096 * 2 ^ order} (getOrder size)

/-- The block has room, or there is none. -/
theorem orderFits_iff_room :
    OrderFits usage size ↔
      size ≤ pageSize * numOfOrder (getOrder size) ∨ ¬HasRun usage (numOfOrder (getOrder size)) := by
  have hleast : 1 ≤ size → size ≤ 2 ^ 63 → IsLeast {order | size ≤ 4096 * 2 ^ order} (getOrder size) :=
    fun _ hle => getOrder_isLeast hle
  rcases getFreePages_cases usage rfl (Nat.two_pow_pos (getOrder size % 32)) with
    ⟨hnone, heq⟩ | ⟨first, hend, hlowest, heq⟩
  · refine iff_of_true ⟨fun hne => ?_, hleast⟩ (Or.inr hnone)
    rw [heq] at hne
    exact absurd rfl hne
  · have hcovered : Covered usage (setStretch usage first (2 ^ (getOrder size % 32)) 1)
        (pagePoolStart + pageSize * first) size ↔ size ≤ pageSize * 2 ^ (getOrder size % 32) :=
      covered_iff hend hlowest.1
    constructor
    · intro h
      have hblock := h.covered (by rw [heq]; exact pagePool_ne_zero first)
      rw [heq] at hblock
      exact Or.inl (hcovered.1 hblock)
    · rintro (hroom | hnone)
      · refine ⟨fun _ => ?_, hleast⟩
        rw [heq]
        exact hcovered.2 hroom
      · exact absurd ⟨first, hend, hlowest.1⟩ hnone

/-- For every contents of `pages_usage`, the block that is found for a size is large enough, unless
the shift goes round and there is a run of as many pages as it then asks for. -/
theorem orderFits_iff (usage : UsageArray) (size : Nat) :
    OrderFits usage size ↔ ∀ k, ShiftWraps size k → ¬HasRun usage (2 ^ k) := by
  rw [orderFits_iff_room]
  rcases Nat.lt_or_ge (2 ^ 43) size with hgt | hle
  · have hwraps : ShiftWraps size (getOrder size % 32) := (shiftWraps_iff hgt).2 rfl
    constructor
    · rintro (hroom | hnone) k hk
      · exact absurd hroom (Nat.not_le.2 hwraps.too_small)
      · rw [(shiftWraps_iff hgt).1 hk]
        exact hnone
    · exact fun h => Or.inr (h _ hwraps)
  · exact iff_of_true (Or.inl (getOrder_spec hle)) fun k hk =>
      absurd hk.size_gt (Nat.not_lt.2 hle)

/-- One byte more than `2 ^ 43`, with all pages free: one page is marked. -/
theorem order_too_small :
    getOrder (2 ^ 43 + 1) = 32 ∧
      getFreePages (fun _ => 0) 32 = (pagePoolStart, setStretch (fun _ => 0) 0 1 1) ∧
      ¬OrderFits (fun _ => 0) (2 ^ 43 + 1) := by
  have horder : getOrder (2 ^ 43 + 1) = 32 := by decide
  have hfree : ∀ num, Stretch (fun k => (fun _ => 0 : UsageArray) k = 0) 0 num := fun _ _ _ _ => rfl
  have hrun : HasRun (fun _ => 0) 1 := ⟨0, by decide, hfree 1⟩
  refine ⟨horder, ?_, ?_⟩
  · rcases getFreePages_cases (fun _ => 0) (show numOfOrder 32 = 1 from rfl) Nat.one_pos with
      ⟨hnone, -⟩ | ⟨first, -, hlowest, heq⟩
    · exact absurd hrun hnone
    · obtain rfl := hlowest.unique ⟨hfree 1, fun l hl => absurd hl (Nat.not_lt_zero l)⟩
      exact heq
  · rw [orderFits_iff_room, horder]
    rintro (hroom | hnone)
    · exact absurd hroom (by decide)
    · exact hnone hrun

end UsageArray

end Mm
end ToutOS
