import ToutOS.Base.Stretch
import ToutOS.Mm.PageRuns

/-!
# PagesUsage — the page allocator on any contents of `pages_usage`

`pages_usage` is an array of `char`.  `find_free_pages` takes every entry other than `0` for a page
in use, `free_pages` only an entry `1`; here the entries are bytes, and nothing is assumed of them.

* `UsageArray.getFreePages`, `UsageArray.freePages` — the two functions on the bytes, the latter
  with the indices it uses and with a failing assertion.
* `getFreePages_taken`, `freePages_taken` — the flags of `PagePool` are the bytes that are not `0`.
* `scanFreePages_lowest` — the single pass finds the lowest run, or there is none.
* `getFreePages_lowest` — what `get_free_pages` returns and which entries it sets.
* `freePages_allOrNothing_iff` — when `free_pages` frees the whole block or nothing, inside the
  array.
-/

namespace ToutOS
namespace Mm

open Base

/-! ## The functions -/

/-- The bytes from the start of `pages_usage` on; the array has `maxNumPages` of them. -/
abbrev UsageArray := Nat → UInt8

namespace UsageArray

/-- The pages that the test of `find_free_pages` does not take for free. -/
def taken (usage : UsageArray) : PagesUsage := fun k => decide (usage k ≠ 0)

/-- The second loop of `find_free_pages`, from page `i` on. -/
def setUsed (usage : UsageArray) (i : Nat) : Nat → UsageArray
  | 0 => usage
  | left + 1 => setUsed (Function.update usage i 1) (i + 1) left

/-- `find_free_pages`; the first page is computed as an `unsigned int`. -/
def findFreePages (usage : UsageArray) (num : Nat) : Option (Nat × UsageArray) :=
  if num = 0 then none
  else
    (scanFreePages (taken usage) num maxNumPages 0 0).map fun lastPage =>
      let first := (lastPage + (2 ^ 32 - num) + 1) % 2 ^ 32
      (first, setUsed usage first (lastPage + 1 - first))

/-- `get_free_pages`. -/
def getFreePages (usage : UsageArray) (order : Nat) : Nat × UsageArray :=
  match findFreePages usage (numOfOrder order) with
  | some (first, usage') => (pagePoolStart + pageSize * first, usage')
  | none => (0, usage)

/-- What a call of `free_pages` leaves behind. -/
structure FreeOutcome where
  usage : UsageArray
  /-- The indices read or written. -/
  indices : List Nat := []
  /-- The assertion has failed; the CPU never leaves it. -/
  halted : Bool := false

/-- The loop of `free_pages`. -/
def freeRun (usage : UsageArray) (page : Nat) : Nat → FreeOutcome
  | 0 => { usage := usage }
  | num + 1 =>
      if usage page ≠ 1 then { usage := usage, indices := [page], halted := true }
      else
        let rest := freeRun (Function.update usage page 0) (page + 1) num
        { rest with indices := page :: rest.indices }

/-- The `first_page` of `free_pages`. -/
def firstPage (addr : Nat) : Nat := (addr - pagePoolStart) / pageSize

/-- `free_pages`. -/
def freePages (usage : UsageArray) (addr order : Nat) : FreeOutcome :=
  if addr < pagePoolStart ∨ pagePoolEnd ≤ addr then { usage := usage }
  else if addr % pageSize ≠ 0 then { usage := usage }
  else freeRun usage (firstPage addr) (numOfOrder order)

theorem setUsed_eq {usage : UsageArray} {first num : Nat} :
    setUsed usage first num = setStretch usage first num 1 := by
  induction num generalizing usage first with
  | zero => exact setStretch_zero.symm
  | succ num ih => rw [setUsed, ih, ← setStretch_succ]

/-- `get_free_pages` with the first page as a difference of numbers. -/
theorem getFreePages_eq (usage : UsageArray) {order : Nat} (hnum : numOfOrder order ≠ 0) :
    getFreePages usage order =
      match scanFreePages (taken usage) (numOfOrder order) maxNumPages 0 0 with
      | some last =>
          (pagePoolStart + pageSize * (last + 1 - numOfOrder order),
            setStretch usage (last + 1 - numOfOrder order) (numOfOrder order) 1)
      | none => (0, usage) := by
  rw [getFreePages, findFreePages, if_neg hnum]
  cases hscan : scanFreePages (taken usage) (numOfOrder order) maxNumPages 0 0 with
  | none => rfl
  | some last =>
      obtain ⟨hlast, -, -⟩ := scanFreePages_spec hscan (Nat.le_refl 0) (by omega)
      have hlen : last + 1 - (last + 1 - numOfOrder order) = numOfOrder order := by omega
      simp only [Option.map_some, firstPage_unsigned hscan, setUsed_eq, hlen]

/-! ## The flags of the pages -/

theorem taken_setStretch_one {usage : UsageArray} {first num : Nat} :
    taken (setStretch usage first num 1) = markPages (taken usage) first num true := by
  funext k
  simp only [taken, setStretch, markPages]
  by_cases hin : first ≤ k ∧ k < first + num
  · simp only [if_pos hin]
    decide
  · simp only [if_neg hin]

/-- On the flags, this is the `get_free_pages` of `PagePool`. -/
theorem getFreePages_taken (usage : UsageArray) (order : Nat) :
    Mm.getFreePages (taken usage) order =
      ((getFreePages usage order).1, taken (getFreePages usage order).2) := by
  by_cases hnum : numOfOrder order = 0
  · rw [getFreePages, findFreePages, Mm.getFreePages, Mm.findFreePages, if_pos hnum, if_pos hnum]
  · rw [getFreePages_eq usage hnum, Mm.getFreePages, Mm.findFreePages, if_neg hnum]
    cases scanFreePages (taken usage) (numOfOrder order) maxNumPages 0 0 with
    | none => rfl
    | some last => simp only [Option.map_some, taken_setStretch_one]

theorem freeRun_taken {num : Nat} : ∀ {usage : UsageArray} {first : Nat},
    (∀ k, usage k = 0 ∨ usage k = 1) →
      Mm.freeRun (taken usage) first num =
        if (freeRun usage first num).halted = true then .error .freeOfUnused
        else .ok (taken (freeRun usage first num).usage) := by
  induction num with
  | zero =>
      intro usage first _
      rfl
  | succ num ih =>
      intro usage first hbits
      rw [Mm.freeRun, freeRun]
      rcases hbits first with hzero | hone
      · have hfree : taken usage first = false := by simp [taken, hzero]
        have hne : usage first ≠ 1 := by
          rw [hzero]
          decide
        rw [if_neg (by simp [hfree]), if_pos hne, if_pos rfl]
      · have hused : taken usage first = true := by simp [taken, hone]
        have hupdate : Function.update (taken usage) first false =
            taken (Function.update usage first 0) := by
          funext k
          by_cases hk : k = first
          · subst hk
            simp [taken]
          · simp [taken, hk]
        rw [if_pos hused, if_neg (not_not.2 hone), hupdate]
        refine ih fun k => ?_
        by_cases hk : k = first
        · exact Or.inl (by rw [hk, Function.update_self])
        · rw [Function.update_of_ne hk]
          exact hbits k

/-- On the flags of an array of zeros and ones, this is the `free_pages` of `PagePool`. -/
theorem freePages_taken {usage : UsageArray} (hbits : ∀ k, usage k = 0 ∨ usage k = 1)
    (addr order : Nat) :
    Mm.freePages (taken usage) addr order =
      if (freePages usage addr order).halted = true then .error .freeOfUnused
      else .ok (taken (freePages usage addr order).usage) := by
  rw [Mm.freePages, freePages]
  by_cases hout : addr < pagePoolStart ∨ pagePoolEnd ≤ addr
  · rw [if_pos hout, if_pos hout]
    rfl
  · rw [if_neg hout, if_neg hout]
    by_cases hodd : addr % pageSize ≠ 0
    · rw [if_pos hodd, if_pos hodd]
      rfl
    · rw [if_neg hodd, if_neg hodd]
      exact freeRun_taken hbits

/-! ## The search -/

/-- The rest of a pass: no run at all below the end, or the lowest one. -/
theorem scanFreePages_lowest {usage : PagesUsage} {num : Nat} : ∀ {left i count : Nat},
    Scanned (fun k => usage k = false) num i count →
      match scanFreePages usage num left i count with
      | none => ∀ l, l + num ≤ i + left → ¬Stretch (fun k => usage k = false) l num
      | some last => LowestStretch (fun k => usage k = false) num (last + 1 - num) := by
  intro left
  induction left with
  | zero =>
      intro i count h
      exact h.missed
  | succ left ih =>
      intro i count h
      rw [scanFreePages]
      by_cases hi : usage i = false
      · rw [if_pos hi]
        by_cases hnum : count + 1 = num
        · rw [if_pos hnum]
          exact h.found hi hnum
        · rw [if_neg hnum, ← Nat.add_assoc, Nat.add_right_comm i]
          have hshort := h.short
          exact ih (h.hit hi (by omega))
      · rw [if_neg hi, ← Nat.add_assoc, Nat.add_right_comm i]
        exact ih (h.miss hi)

theorem taken_eq_false {usage : UsageArray} {k : Nat} : taken usage k = false ↔ usage k = 0 := by
  simp [taken]

/-- There is a run of `num` entries `0` in the array. -/
def HasRun (usage : UsageArray) (num : Nat) : Prop :=
  ∃ first, first + num ≤ maxNumPages ∧ Stretch (fun k => usage k = 0) first num

/-- Either there is no run of the pages asked for, or the lowest one is marked. -/
theorem getFreePages_cases (usage : UsageArray) {order num : Nat} (hnum : numOfOrder order = num)
    (hpos : 0 < num) :
    (¬HasRun usage num ∧ getFreePages usage order = (0, usage)) ∨
    ∃ first, first + num ≤ maxNumPages ∧ LowestStretch (fun k => usage k = 0) num first ∧
      getFreePages usage order =
        (pagePoolStart + pageSize * first, setStretch usage first num 1) := by
  have heq := getFreePages_eq usage (show numOfOrder order ≠ 0 by omega)
  have hpass := @scanFreePages_lowest (taken usage) num maxNumPages 0 0 (Scanned.init hpos)
  simp only [taken_eq_false, Nat.zero_add] at hpass
  rw [hnum] at heq
  cases hscan : scanFreePages (taken usage) num maxNumPages 0 0 with
  | none =>
      rw [hscan] at heq hpass
      refine Or.inl ⟨?_, heq⟩
      rintro ⟨first, hend, hrun⟩
      exact hpass first hend hrun
  | some last =>
      rw [hscan] at heq hpass
      obtain ⟨hlast, hlt, -⟩ := scanFreePages_spec hscan (Nat.le_refl 0) (by omega)
      exact Or.inr ⟨last + 1 - num, by omega, hpass, heq⟩

/-- For every contents of `pages_usage`: `get_free_pages` returns a null pointer exactly when there
is no run of `2 ^ order` entries `0` in the array, which it then leaves as it is.  Otherwise it
returns the address of the lowest such run, and its entries are now `1`. -/
theorem getFreePages_lowest (usage : UsageArray) {order : Nat} (horder : order ≤ 30) :
    ((getFreePages usage order).1 = 0 ↔
      ¬∃ first, first + 2 ^ order ≤ maxNumPages ∧
        Stretch (fun k => usage k = 0) first (2 ^ order)) ∧
    ((getFreePages usage order).1 = 0 → (getFreePages usage order).2 = usage) ∧
    ((getFreePages usage order).1 ≠ 0 → ∃ first, first + 2 ^ order ≤ maxNumPages ∧
      LowestStretch (fun k => usage k = 0) (2 ^ order) first ∧
      getFreePages usage order =
        (pagePoolStart + pageSize * first, setStretch usage first (2 ^ order) 1)) := by
  rcases getFreePages_cases usage (numOfOrder_of_le horder) (Nat.two_pow_pos order) with
    ⟨hnone, heq⟩ | ⟨first, hend, hlowest, heq⟩
  · rw [heq]
    exact ⟨⟨fun _ => hnone, fun _ => rfl⟩, fun _ => rfl, fun hne => absurd rfl hne⟩
  · have hne := pagePool_ne_zero first
    rw [heq]
    exact ⟨⟨fun hzero => absurd hzero hne, fun hno => absurd ⟨first, hend, hlowest.1⟩ hno⟩,
      fun hzero => absurd hzero hne, fun _ => ⟨first, hend, hlowest, rfl⟩⟩

/-- Pages 1 and 4 are in use: two free pages are first found behind page 1. -/
theorem getFreePages_lowest_holes :
    getFreePages (fun k => if k = 1 ∨ k = 4 then 7 else 0) 1 =
      (pagePoolStart + pageSize * 2,
        setStretch (fun k => if k = 1 ∨ k = 4 then 7 else 0) 2 2 1) := by
  obtain ⟨hnull, -, hrun⟩ :=
    @getFreePages_lowest (fun k => if k = 1 ∨ k = 4 then 7 else 0) 1 (by decide)
  have hlowest :
      LowestStretch (fun k => (if k = 1 ∨ k = 4 then 7 else 0 : UInt8) = 0) (2 ^ 1) 2 := by
    refine ⟨?_, ?_⟩
    · intro k h₁ h₂
      rw [if_neg (by omega)]
    · intro l hl hs
      -- page 1 is in both runs before
      exact absurd (hs 1 (by omega) (by omega)) (by decide)
  have hne := fun hzero => hnull.1 hzero ⟨2, by decide, hlowest.1⟩
  obtain ⟨first, -, hfirst, heq⟩ := hrun hne
  rw [heq, hfirst.unique hlowest]
  rfl

/-! ## Freeing -/

/-- The whole block is in use: the loop frees it. -/
theorem freeRun_stretch {num : Nat} : ∀ {usage : UsageArray} {first : Nat},
    Stretch (fun k => usage k = 1) first num →
      freeRun usage first num =
        { usage := setStretch usage first num 0, indices := List.range' first num } := by
  induction num with
  | zero =>
      intro usage first _
      rw [freeRun, setStretch_zero, List.range'_zero]
  | succ num ih =>
      intro usage first h
      obtain ⟨hfirst, hrest⟩ := stretch_succ.1 h
      have hrest' : Stretch (fun k => Function.update usage first 0 k = 1) (first + 1) num := by
        intro k h₁ h₂
        rw [Function.update_of_ne (by omega)]
        exact hrest k h₁ h₂
      rw [freeRun, if_neg (not_not.2 hfirst), ih hrest', ← setStretch_succ, List.range'_succ]

/-- The block is in use up to an entry: the loop frees the entries before, and stops there. -/
theorem freeRun_break {j num : Nat} (hj : j < num) : ∀ {usage : UsageArray} {first : Nat},
    Stretch (fun k => usage k = 1) first j → usage (first + j) ≠ 1 →
      freeRun usage first num =
        { usage := setStretch usage first j 0
          indices := List.range' first (j + 1)
          halted := true } := by
  induction j generalizing num with
  | zero =>
      intro usage first _ hbreak
      obtain ⟨num, rfl⟩ := Nat.exists_eq_add_one_of_ne_zero (by omega : num ≠ 0)
      rw [freeRun, if_pos (by simpa using hbreak), setStretch_zero]
      rfl
  | succ j ih =>
      intro usage first h hbreak
      obtain ⟨num, rfl⟩ := Nat.exists_eq_add_one_of_ne_zero (by omega : num ≠ 0)
      obtain ⟨hfirst, hrest⟩ := stretch_succ.1 h
      have hrest' : Stretch (fun k => Function.update usage first 0 k = 1) (first + 1) j := by
        intro k h₁ h₂
        rw [Function.update_of_ne (by omega)]
        exact hrest k h₁ h₂
      have hbreak' : Function.update usage first 0 (first + 1 + j) ≠ 1 := by
        rw [Function.update_of_ne (by omega), Nat.add_right_comm]
        exact hbreak
      rw [freeRun, if_neg (not_not.2 hfirst), ih (by omega) hrest' hbreak', ← setStretch_succ,
        @List.range'_succ first (j + 1)]

/-- The block is freed as a whole, after all of its entries were `1`, or nothing is changed, and all
indices are inside the array. -/
def AllOrNothing (usage : UsageArray) (addr order : Nat) : Prop :=
  (Stretch (fun k => usage k = 1) (firstPage addr) (2 ^ order) ∧
      (freePages usage addr order).usage = setStretch usage (firstPage addr) (2 ^ order) 0 ∨
    (freePages usage addr order).usage = usage) ∧
  ∀ k ∈ (freePages usage addr order).indices, k < maxNumPages

/-- `free_pages` does not accept the address. -/
def Rejected (addr : Nat) : Prop :=
  addr < pagePoolStart ∨ pagePoolEnd ≤ addr ∨ addr % pageSize ≠ 0

theorem freePages_rejected {usage : UsageArray} {addr order : Nat} (h : Rejected addr) :
    freePages usage addr order = { usage := usage } := by
  rw [freePages]
  by_cases hout : addr < pagePoolStart ∨ pagePoolEnd ≤ addr
  · rw [if_pos hout]
  · have hodd : addr % pageSize ≠ 0 := by
      rcases h with h | h | h
      · exact absurd (Or.inl h) hout
      · exact absurd (Or.inr h) hout
      · exact h
    rw [if_neg hout, if_pos hodd]

theorem freePages_accepted {usage : UsageArray} {addr order : Nat} (h : ¬Rejected addr) :
    freePages usage addr order = freeRun usage (firstPage addr) (numOfOrder order) := by
  have hout : ¬(addr < pagePoolStart ∨ pagePoolEnd ≤ addr) := fun hout =>
    h (hout.elim Or.inl fun hend => Or.inr (Or.inl hend))
  rw [freePages, if_neg hout, if_neg fun hodd => h (Or.inr (Or.inr hodd))]

/-- Only the first page is known to be in the pool. -/
theorem firstPage_lt {addr : Nat} (h : ¬Rejected addr) : firstPage addr < maxNumPages := by
  have hend : ¬pagePoolEnd ≤ addr := fun hend => h (Or.inr (Or.inl hend))
  simp only [pagePoolEnd, firstPage, pageSize, maxNumPages] at *
  omega

/-- For every contents of `pages_usage` and every address, `free_pages` frees the whole block or
nothing, inside the array, exactly when it does not accept the address, or the first entry is not
`1`, or the block is inside the pool and all of its entries are `1`. -/
theorem freePages_allOrNothing_iff (usage : UsageArray) (addr : Nat) {order : Nat}
    (horder : order ≤ 30) :
    AllOrNothing usage addr order ↔
      Rejected addr ∨ usage (firstPage addr) ≠ 1 ∨
        firstPage addr + 2 ^ order ≤ maxNumPages ∧
          Stretch (fun k => usage k = 1) (firstPage addr) (2 ^ order) := by
  by_cases hrej : Rejected addr
  · simp only [AllOrNothing, freePages_rejected hrej, hrej, true_or, or_true, iff_true, true_and]
    intro k hk
    cases hk
  · have hlt := firstPage_lt hrej
    have hpos : 0 < 2 ^ order := Nat.two_pow_pos order
    simp only [AllOrNothing, freePages_accepted hrej, numOfOrder_of_le horder, hrej, false_or]
    rcases stretch_or_break (fun k => usage k = 1) (firstPage addr) (2 ^ order) with
      hall | ⟨j, hj, hbefore, hbreak⟩
    · -- everything is freed, and the last index decides
      have hfirst : usage (firstPage addr) = 1 := hall _ (Nat.le_refl _) (by omega)
      simp only [freeRun_stretch hall, hall, hfirst, List.mem_range'_1, true_and, true_or,
        ne_eq, not_true_eq_false, false_or, and_true]
      constructor
      · intro h
        have := h (firstPage addr + 2 ^ order - 1) (by omega)
        omega
      · intro h k hk
        omega
    · have hnot : ¬Stretch (fun k => usage k = 1) (firstPage addr) (2 ^ order) := fun hall =>
        hbreak (hall _ (Nat.le_add_right _ _) (by omega))
      simp only [freeRun_break hj hbefore hbreak, hnot, false_and, false_or, and_false, or_false]
      rcases Nat.eq_zero_or_pos j with rfl | hjpos
      · -- the loop stops at once
        have hne : usage (firstPage addr) ≠ 1 := by simpa using hbreak
        simp only [setStretch_zero, true_and, List.mem_range'_1, hne, ne_eq, not_false_eq_true,
          iff_true]
        intro k hk
        omega
      · -- the first entry is cleared before the loop stops
        have hfirst : usage (firstPage addr) = 1 := hbefore _ (Nat.le_refl _) (by omega)
        simp only [hfirst, ne_eq, not_true_eq_false, iff_false]
        rintro ⟨hsame, -⟩
        have hclear := congrFun hsame (firstPage addr)
        rw [setStretch_of_mem (Nat.le_refl _) (by omega), hfirst] at hclear
        exact absurd hclear (by decide)

/-- A block of two pages, all in use, is freed. -/
theorem freePages_allOrNothing_block : AllOrNothing (fun _ => 1) pagePoolStart 1 :=
  (freePages_allOrNothing_iff _ _ (by decide)).2
    (Or.inr (Or.inr ⟨by decide, fun _ _ _ => rfl⟩))

/-- With the second page free, the first one is cleared before the assertion fails; and a block of
two pages is freed past the end of the array. -/
theorem freePages_partly :
    ¬AllOrNothing (fun k => if k = 0 then 1 else 0) pagePoolStart 1 ∧
      ¬AllOrNothing (fun _ => 1) (pagePoolEnd - pageSize) 1 := by
  constructor
  · rintro ⟨⟨hall, -⟩ | hsame, -⟩
    · exact absurd (hall 1 (by decide) (by decide)) (by decide)
    · exact absurd (congrFun hsame 0) (by decide)
  · rintro ⟨-, hindices⟩
    exact absurd (hindices 65536 (by decide)) (by decide)

end UsageArray

end Mm
end ToutOS
