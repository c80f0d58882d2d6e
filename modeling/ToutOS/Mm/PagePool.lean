import ToutOS.Mm.Pool
import ToutOS.Mm.PageTableSpec

/-!
# PagePool — the page allocator of `mm/memory.c`

The page pool is the range of `MAX_NUM_PAGES` pages behind the `kmalloc` pool; `pages_usage` has one
flag per page.

* `getFreePages`, `getZeroedPages`, `freePages` — the interface; a null pointer is `0`.
* `UsedFrame` — the physical addresses of the pages in use.
* `getFreePages_spec`, `freePages_spec` — a run of free pages becomes used, a run of used pages
  becomes free; `free_pages` runs into its assertion only on a page that is not in use.
* `getZeroedPages_ok` — page tables can be built from the pool.
-/

namespace ToutOS
namespace Mm

open Base

/-! ## The allocator -/

/-- `MAX_NUM_PAGES`. -/
def maxNumPages : Nat := 65536

/-- `PAGE_POOL_START`. -/
def pagePoolStart : Nat := memPoolStart + memPoolSize

/-- `PAGE_POOL_END`. -/
def pagePoolEnd : Nat := pagePoolStart + pageSize * maxNumPages

/-- `pages_usage`, whose entries are `0` or `1`. -/
abbrev PagesUsage := Nat → Bool

/-- The loop of `find_free_pages` from page `i` on, with `count` free pages just seen: the last page
of the first run of `num`. -/
def scanFreePages (usage : PagesUsage) (num : Nat) : Nat → Nat → Nat → Option Nat
  | 0, _, _ => none
  | left + 1, i, count =>
      if usage i = false then
        if count + 1 = num then some i else scanFreePages usage num left (i + 1) (count + 1)
      else scanFreePages usage num left (i + 1) 0

/-- The flags with the `num` pages from `first` on set to `b`. -/
def markPages (usage : PagesUsage) (first num : Nat) (b : Bool) : PagesUsage := fun k =>
  if first ≤ k ∧ k < first + num then b else usage k

/-- `find_free_pages`; `none` stands for `-1`. -/
def findFreePages (usage : PagesUsage) (num : Nat) : Option (Nat × PagesUsage) :=
  if num = 0 then none
  else
    (scanFreePages usage num maxNumPages 0 0).map fun lastPage =>
      let firstPage := lastPage + 1 - num
      (firstPage, markPages usage firstPage num true)

/-- `1 << order` as an `unsigned int`; the instruction shifts by `order` modulo 32. -/
def numOfOrder (order : Nat) : Nat := 2 ^ (order % 32)

/-- `get_free_pages`. -/
def getFreePages (usage : PagesUsage) (order : Nat) : Nat × PagesUsage :=
  match findFreePages usage (numOfOrder order) with
  | some (firstPage, usage') => (pagePoolStart + pageSize * firstPage, usage')
  | none => (0, usage)

/-- `get_zeroed_pages`. -/
def getZeroedPages (order : Nat) (m : Mem) (usage : PagesUsage) : Nat × Mem × PagesUsage :=
  let (pages, usage') := getFreePages usage order
  if pages ≠ 0 then (pages, fill m pages (pageSize * numOfOrder order) 0, usage')
  else (0, m, usage')

/-- The loop of `free_pages`. -/
def freeRun (usage : PagesUsage) (firstPage : Nat) : Nat → Except Halt PagesUsage
  | 0 => .ok usage
  | num + 1 =>
      if usage firstPage = true then
        freeRun (Function.update usage firstPage false) (firstPage + 1) num
      else .error .freeOfUnused

/-- `free_pages`; addresses outside of the pool and unaligned ones are only reported. -/
def freePages (usage : PagesUsage) (addr order : Nat) : Except Halt PagesUsage :=
  if addr < pagePoolStart ∨ pagePoolEnd ≤ addr then .ok usage
  else if addr % pageSize ≠ 0 then .ok usage
  else freeRun usage ((addr - pagePoolStart) / pageSize) (numOfOrder order)

/-- The loop of `get_order` from `i` on; the product is an `unsigned long`. -/
def getOrderLoop (size : Nat) : Nat → Nat → Nat
  | 0, i => i
  | left + 1, i => if size ≤ 2 ^ i * pageSize % 2 ^ 64 then i else getOrderLoop size left (i + 1)

/-- `get_order`. -/
def getOrder (size : Nat) : Nat := getOrderLoop size 64 0

theorem pageSize_mul_two_pow (order : Nat) : pageSize * 2 ^ order = 2 ^ (12 + order) := by
  rw [Nat.pow_add]
  rfl

/-- Up to the order 51, the product does not overflow. -/
theorem orderSize_eq {i : Nat} (hi : i ≤ 51) : 2 ^ i * pageSize % 2 ^ 64 = pageSize * 2 ^ i := by
  rw [Nat.mul_comm, Nat.mod_eq_of_lt]
  rw [pageSize_mul_two_pow]
  exact Nat.pow_lt_pow_right (by decide) (by omega)

theorem getOrderLoop_isLeast {size : Nat} (hsize : size ≤ 2 ^ 63) :
    ∀ {left i : Nat}, i + left = 64 → i ≤ 51 → (∀ k, k < i → pageSize * 2 ^ k < size) →
      IsLeast {order | size ≤ pageSize * 2 ^ order} (getOrderLoop size left i) := by
  intro left
  induction left with
  | zero =>
      intro i hleft hi
      omega
  | succ left ih =>
      intro i hleft hi hbefore
      rw [getOrderLoop, orderSize_eq hi]
      split_ifs with htest
      · exact ⟨htest, fun k hk => Nat.le_of_not_lt fun hlt => Nat.not_lt.2 hk (hbefore k hlt)⟩
      · -- the order 51 is enough
        have hne : i ≠ 51 := by
          rintro rfl
          exact htest hsize
        refine ih (by omega) (by omega) fun k hk => ?_
        rcases Nat.lt_or_eq_of_le (Nat.le_of_lt_succ hk) with hlt | rfl
        · exact hbefore k hlt
        · exact Nat.lt_of_not_le htest

/-- `get_order` finds the least order that is enough. -/
theorem getOrder_isLeast {size : Nat} (hsize : size ≤ 2 ^ 63) :
    IsLeast {order | size ≤ pageSize * 2 ^ order} (getOrder size) :=
  getOrderLoop_isLeast hsize rfl (by decide) fun k hk => absurd hk (Nat.not_lt_zero k)

theorem numOfOrder_of_lt {order : Nat} (h : order < 32) : numOfOrder order = 2 ^ order := by
  rw [numOfOrder, Nat.mod_eq_of_lt h]

/-- The run of `get_order` has room for the size. -/
theorem getOrder_spec {size : Nat} (h : size ≤ 2 ^ 43) :
    size ≤ pageSize * numOfOrder (getOrder size) := by
  obtain ⟨henough, hleast⟩ := getOrder_isLeast (h.trans (by decide))
  have hle : getOrder size ≤ 31 := hleast (h.trans (by decide))
  rw [numOfOrder_of_lt (by omega)]
  exact henough

/-! ## Frames -/

/-- The physical address of page `k` of the pool. -/
def frame (k : Nat) : Nat := 0x70000000 + pageSize * k

/-- `a` is the physical address of a page in use. -/
def UsedFrame (usage : PagesUsage) (a : Nat) : Prop :=
  ∃ k, k < maxNumPages ∧ usage k = true ∧ a = frame k

/-- `a` is a physical address in the pool. -/
def InPool (a : Nat) : Prop := frame 0 ≤ a ∧ a < frame maxNumPages

theorem frame_inj {k l : Nat} (h : frame k = frame l) : k = l := by
  simp only [frame, pageSize] at h
  omega

theorem linear_frame {k : Nat} (h : k < maxNumPages) :
    linear true (frame k) = pagePoolStart + pageSize * k := by
  simp only [linear, if_true, va, add64, frame, pageOffset, pagePoolStart, memPoolStart,
    memPoolSize, pageSize, maxNumPages] at *
  omega

theorem physOk_frame {k : Nat} (h : k < maxNumPages) : PhysOk (frame k) := by
  simp only [PhysOk, frame, pageSize, maxNumPages] at *
  omega

theorem physical_pagePool {k : Nat} (h : k < maxNumPages) :
    physical true (pagePoolStart + pageSize * k) = frame k := by
  rw [← linear_frame h]
  exact physical_linear true ((physOk_frame h).2.trans (by decide))

theorem UsedFrame.inPool {usage : PagesUsage} {a : Nat} (h : UsedFrame usage a) : InPool a := by
  obtain ⟨k, hk, -, rfl⟩ := h
  simp only [InPool, frame, pageSize, maxNumPages] at *
  omega

theorem UsedFrame.page {usage : PagesUsage} {a : Nat} (h : UsedFrame usage a) :
    pageSize ∣ a ∧ a < 2 ^ 64 := by
  obtain ⟨k, hk, -, rfl⟩ := h
  exact ⟨(physOk_frame hk).1, (physOk_frame hk).2.trans (by decide)⟩

/-! ## Allocating -/

theorem scanFreePages_spec {usage : PagesUsage} {num last : Nat} :
    ∀ {left i count : Nat}, scanFreePages usage num left i count = some last → count ≤ i →
      (∀ k, i - count ≤ k → k < i → usage k = false) →
      num ≤ last + 1 ∧ last < i + left ∧ ∀ k, last + 1 - num ≤ k → k ≤ last → usage k = false := by
  intro left
  induction left with
  | zero =>
      intro i count h
      simp [scanFreePages] at h
  | succ left ih =>
      intro i count h hcount hfree
      simp only [scanFreePages] at h
      split_ifs at h with hi hnum
      · -- the run is complete with page `i`
        obtain rfl : i = last := by simpa using h
        refine ⟨by omega, by omega, fun k h₁ h₂ => ?_⟩
        rcases Nat.eq_or_lt_of_le h₂ with rfl | hlt
        · exact hi
        · exact hfree k (by omega) hlt
      · obtain ⟨h₁, h₂, h₃⟩ := ih h (by omega) (by
          intro k hk₁ hk₂
          by_cases hki : k = i
          · exact hki ▸ hi
          · exact hfree k (by omega) (by omega))
        exact ⟨h₁, by omega, h₃⟩
      · obtain ⟨h₁, h₂, h₃⟩ := ih h (by omega) (by
          intro k hk₁ hk₂
          omega)
        exact ⟨h₁, by omega, h₃⟩

/-- What a call of `get_free_pages` returns. -/
theorem getFreePages_spec {usage usage' : PagesUsage} {order p : Nat}
    (h : getFreePages usage order = (p, usage')) :
    (p = 0 ∧ usage' = usage) ∨
    ∃ first, p = pagePoolStart + pageSize * first ∧ first + numOfOrder order ≤ maxNumPages ∧
      0 < numOfOrder order ∧
      (∀ k, first ≤ k → k < first + numOfOrder order → usage k = false) ∧
      usage' = markPages usage first (numOfOrder order) true := by
  unfold getFreePages findFreePages at h
  split_ifs at h with hnum
  · simp only [Prod.mk.injEq] at h
    exact Or.inl ⟨h.1.symm, h.2.symm⟩
  · cases hscan : scanFreePages usage (numOfOrder order) maxNumPages 0 0 with
    | none =>
        simp only [hscan, Option.map_none, Prod.mk.injEq] at h
        exact Or.inl ⟨h.1.symm, h.2.symm⟩
    | some last =>
        simp only [hscan, Option.map_some, Prod.mk.injEq] at h
        obtain ⟨rfl, rfl⟩ := h
        obtain ⟨h₁, h₂, h₃⟩ := scanFreePages_spec hscan (Nat.le_refl 0) (by omega)
        exact Or.inr ⟨last + 1 - numOfOrder order, rfl, by omega, by omega,
          fun k hk₁ hk₂ => h₃ k (by omega) (by omega), rfl⟩

theorem pagePool_ne_zero (k : Nat) : pagePoolStart + pageSize * k ≠ 0 := by
  simp only [pagePoolStart, memPoolStart]
  omega

/-- The frames in use after a run of pages has been taken. -/
theorem usedFrame_markPages {usage : PagesUsage} {first num a : Nat}
    (hend : first + num ≤ maxNumPages) :
    UsedFrame (markPages usage first num true) a ↔
      UsedFrame usage a ∨ ∃ k, first ≤ k ∧ k < first + num ∧ a = frame k := by
  constructor
  · rintro ⟨k, hk, hused, rfl⟩
    by_cases hin : first ≤ k ∧ k < first + num
    · exact Or.inr ⟨k, hin.1, hin.2, rfl⟩
    · exact Or.inl ⟨k, hk, by simpa [markPages, hin] using hused, rfl⟩
  · rintro (⟨k, hk, hused, rfl⟩ | ⟨k, h₁, h₂, rfl⟩)
    · exact ⟨k, hk, by simp [markPages, hused], rfl⟩
    · exact ⟨k, by omega, by simp [markPages, h₁, h₂], rfl⟩

theorem numOfOrder_zero : numOfOrder 0 = 1 := rfl

/-- One page. -/
theorem getFreePages_one {usage usage' : PagesUsage} {p : Nat}
    (h : getFreePages usage 0 = (p, usage')) (hp : p ≠ 0) :
    ∃ k, p = pagePoolStart + pageSize * k ∧ k < maxNumPages ∧ usage k = false ∧
      usage' = markPages usage k 1 true := by
  rcases getFreePages_spec h with ⟨hzero, -⟩ | ⟨k, hk, hend, -, hfree, husage⟩
  · exact absurd hzero hp
  · rw [numOfOrder_zero] at hend hfree husage
    exact ⟨k, hk, by omega, hfree k (Nat.le_refl k) (by omega), husage⟩

/-- One zeroed page. -/
theorem getZeroedPages_one {m m' : Mem} {usage usage' : PagesUsage} {p : Nat}
    (h : getZeroedPages 0 m usage = (p, m', usage')) :
    (p = 0 ∧ m' = m ∧ usage' = usage) ∨
    ∃ k, p = pagePoolStart + pageSize * k ∧ k < maxNumPages ∧ usage k = false ∧
      usage' = markPages usage k 1 true ∧ m' = fill m p pageSize 0 := by
  rcases hget : getFreePages usage 0 with ⟨q, u₁⟩
  simp only [getZeroedPages, hget, numOfOrder_zero, Nat.mul_one] at h
  split_ifs at h with hq
  · simp only [Prod.mk.injEq] at h
    obtain ⟨rfl, rfl, rfl⟩ := h
    obtain ⟨k, hk, hlt, hfree, husage⟩ := getFreePages_one hget hq
    exact Or.inr ⟨k, hk, hlt, hfree, husage, rfl⟩
  · simp only [Prod.mk.injEq] at h
    obtain ⟨rfl, rfl, rfl⟩ := h
    rcases getFreePages_spec hget with ⟨-, husage⟩ | ⟨first, hfirst, -⟩
    · exact Or.inl ⟨rfl, rfl, husage⟩
    · exact absurd hfirst (by rw [not_not.1 hq]; exact (pagePool_ne_zero first).symm)

/-- Page tables can be built from the pool. -/
theorem getZeroedPages_ok :
    PgCallocOk (getZeroedPages 0) true fun usage => {a | UsedFrame usage a} := by
  have hcall : ∀ {m u p m' u'}, getZeroedPages 0 m u = (p, m', u') → p ≠ 0 →
      ∃ k, p = pagePoolStart + pageSize * k ∧ k < maxNumPages ∧ u k = false ∧
        u' = markPages u k 1 true ∧ m' = fill m p pageSize 0 := fun h hp =>
    (getZeroedPages_one h).resolve_left fun hno => hp hno.1
  refine ⟨?_, ?_, ?_, ?_, ?_⟩
  · intro m u p m' u' h hp
    obtain ⟨k, rfl, hk, -⟩ := hcall h hp
    rw [← linear_frame hk]
    exact dvd_linear true (physOk_frame hk).1
  · intro m u p m' u' h hp
    obtain ⟨k, rfl, hk, -⟩ := hcall h hp
    refine ⟨?_, ?_⟩
    · rw [← linear_frame hk]
      exact linear_lt ((physOk_frame hk).2.trans (by decide))
    · rw [physical_pagePool hk]
      exact (physOk_frame hk).2
  · intro m u p m' u' h hp
    obtain ⟨k, rfl, hk, hfree, rfl, -⟩ := hcall h hp
    rw [physical_pagePool hk]
    constructor
    · -- the page that is handed out has been free
      rintro ⟨l, -, hused, heq⟩
      rw [← frame_inj heq, hfree] at hused
      cases hused
    · ext a
      simp only [Set.mem_ofPred_eq, Set.mem_insert_iff, usedFrame_markPages (show k + 1 ≤ _ by omega)]
      constructor
      · rintro (hused | ⟨l, h₁, h₂, rfl⟩)
        · exact Or.inr hused
        · obtain rfl : l = k := by omega
          exact Or.inl rfl
      · rintro (rfl | hused)
        · exact Or.inr ⟨k, Nat.le_refl k, by omega, rfl⟩
        · exact Or.inl hused
  · intro m u p m' u' h hp x hx₁ hx₂
    obtain ⟨k, -, -, -, -, rfl⟩ := hcall h hp
    exact fill_apply_of_mem hx₁ hx₂
  · intro m u p m' u' h hp x hx
    obtain ⟨k, -, -, -, -, rfl⟩ := hcall h hp
    rcases hx with hx | hx
    · exact fill_apply_of_lt hx
    · exact fill_apply_of_ge hx

/-! ## Freeing -/

theorem freeRun_spec {num : Nat} :
    ∀ {usage : PagesUsage} {first : Nat},
      (∀ k, first ≤ k → k < first + num → usage k = true) →
      freeRun usage first num = .ok (markPages usage first num false) := by
  induction num with
  | zero =>
      intro usage first _
      have : markPages usage first 0 false = usage := by
        funext k
        simp only [markPages, ite_eq_right_iff]
        omega
      rw [freeRun, this]
  | succ num ih =>
      intro usage first hused
      have hrest : ∀ k, first + 1 ≤ k → k < first + 1 + num →
          Function.update usage first false k = true := by
        intro k h₁ h₂
        have hne : k ≠ first := by omega
        simpa [hne] using hused k (by omega) (by omega)
      rw [freeRun, if_pos (hused first (Nat.le_refl _) (by omega)), ih hrest]
      congr 1
      funext k
      by_cases hk : k = first
      · subst hk
        simp [markPages]
      · have hiff : (first + 1 ≤ k ∧ k < first + 1 + num) ↔ (first ≤ k ∧ k < first + (num + 1)) := by
          omega
        simp only [markPages, Function.update_of_ne hk, hiff]

/-- `free_pages` on a run of pages in use. -/
theorem freePages_spec {usage : PagesUsage} {first order : Nat}
    (hend : first + numOfOrder order ≤ maxNumPages) (hpos : 0 < numOfOrder order)
    (hused : ∀ k, first ≤ k → k < first + numOfOrder order → usage k = true) :
    freePages usage (pagePoolStart + pageSize * first) order =
      .ok (markPages usage first (numOfOrder order) false) := by
  have hin : ¬(pagePoolStart + pageSize * first < pagePoolStart ∨
      pagePoolEnd ≤ pagePoolStart + pageSize * first) := by
    simp only [pagePoolEnd, pageSize]
    omega
  have haligned : (pagePoolStart + pageSize * first) % pageSize = 0 := by
    simp only [pagePoolStart, memPoolStart, memPoolSize, pageSize]
    omega
  have hfirst : (pagePoolStart + pageSize * first - pagePoolStart) / pageSize = first := by
    simp only [pageSize]
    omega
  rw [freePages, if_neg hin, if_neg (by simp [haligned]), hfirst, freeRun_spec hused]

end Mm
end ToutOS
