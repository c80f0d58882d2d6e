import ToutOS.Base.Run
import ToutOS.Mm.PagePool

/-!
# PageRuns — sequences of `get_free_pages` and `free_pages`

The callers of the page allocator get blocks of `2 ^ order` pages and give them back in any order.

* `PageBlock`, `PageCall`, `pageStep` — the calls; the blocks that have been returned and not yet
  freed are kept as history.
* `getIndices`, `freeIndices` — the indices into `pages_usage` that a call uses.
* `PageInv` — the live blocks are disjoint and `pages_usage` is their union.
* `pageRun_blocks` — that this holds after every sequence of calls, with all indices in range and
  no failing assertion.
-/

namespace ToutOS
namespace Mm

open Base

/-! ## Calls -/

/-- A block returned by `get_free_pages`. -/
structure PageBlock where
  addr : Nat
  order : Nat
  deriving DecidableEq, Repr

/-- The end of the block. -/
def PageBlock.fin (b : PageBlock) : Nat := b.addr + pageSize * 2 ^ b.order

/-- Page `k` of the pool is in the block. -/
def PageBlock.HasPage (b : PageBlock) (k : Nat) : Prop :=
  b.addr ≤ pagePoolStart + pageSize * k ∧ pagePoolStart + pageSize * k < b.fin

/-- The block is a run of pages inside the pool. -/
structure PageBlock.Inside (b : PageBlock) : Prop where
  order : b.order ≤ 30
  aligned : b.addr % pageSize = 0
  start : pagePoolStart ≤ b.addr
  fin : b.fin ≤ pagePoolEnd

def PageBlock.Disjoint (b c : PageBlock) : Prop := b.fin ≤ c.addr ∨ c.fin ≤ b.addr

inductive PageCall
  | get (order : Nat)
  | free (b : PageBlock)
  deriving DecidableEq, Repr

structure PageState where
  usage : PagesUsage := fun _ => false
  /-- History: the blocks returned and not yet freed. -/
  live : List PageBlock := []

/-- One call; only a live block is freed, with its own order. -/
def pageStep (s : PageState) : PageCall → Option PageState
  | .get order =>
      if order ≤ 30 then
        let (p, usage) := getFreePages s.usage order
        some { usage := usage, live := if p = 0 then s.live else ⟨p, order⟩ :: s.live }
      else none
  | .free b =>
      if b ∈ s.live then
        (freePages s.usage b.addr b.order).toOption.map fun usage =>
          { usage := usage, live := s.live.erase b }
      else none

/-! ## Indices -/

/-- The indices read by the search of `find_free_pages`. -/
def scanIndices (usage : PagesUsage) (num : Nat) : Nat → Nat → Nat → List Nat
  | 0, _, _ => []
  | left + 1, i, count =>
      i ::
        if usage i = false then
          if count + 1 = num then [] else scanIndices usage num left (i + 1) (count + 1)
        else scanIndices usage num left (i + 1) 0

/-- The indices that `get_free_pages` reads and writes. -/
def getIndices (usage : PagesUsage) (order : Nat) : List Nat :=
  let num := numOfOrder order
  if num = 0 then []
  else
    scanIndices usage num maxNumPages 0 0 ++
      match scanFreePages usage num maxNumPages 0 0 with
      | none => []
      | some lastPage => List.range' (lastPage + 1 - num) num

/-- The indices that the loop of `free_pages` reads and writes. -/
def freeRunIndices (usage : PagesUsage) (firstPage : Nat) : Nat → List Nat
  | 0 => []
  | num + 1 =>
      firstPage ::
        if usage firstPage = true then
          freeRunIndices (Function.update usage firstPage false) (firstPage + 1) num
        else []

/-- The indices that `free_pages` reads and writes. -/
def freeIndices (usage : PagesUsage) (addr order : Nat) : List Nat :=
  if addr < pagePoolStart ∨ pagePoolEnd ≤ addr then []
  else if addr % pageSize ≠ 0 then []
  else freeRunIndices usage ((addr - pagePoolStart) / pageSize) (numOfOrder order)

theorem lt_of_mem_scanIndices {usage : PagesUsage} {num j : Nat} :
    ∀ {left i count : Nat}, j ∈ scanIndices usage num left i count → j < i + left := by
  intro left
  induction left with
  | zero =>
      intro i count h
      simp [scanIndices] at h
  | succ left ih =>
      intro i count h
      rw [scanIndices, List.mem_cons] at h
      rcases h with rfl | h
      · omega
      · split_ifs at h
        · simp at h
        · have := ih h
          omega
        · have := ih h
          omega

theorem lt_of_mem_freeRunIndices {j num : Nat} :
    ∀ {usage : PagesUsage} {first : Nat}, j ∈ freeRunIndices usage first num → j < first + num := by
  induction num with
  | zero =>
      intro usage first h
      simp [freeRunIndices] at h
  | succ num ih =>
      intro usage first h
      rw [freeRunIndices, List.mem_cons] at h
      rcases h with rfl | h
      · omega
      · split_ifs at h
        · have := ih h
          omega
        · simp at h

/-- `get_free_pages` stays inside the array, whatever it finds there. -/
theorem lt_of_mem_getIndices {usage : PagesUsage} {order j : Nat} (h : j ∈ getIndices usage order) :
    j < maxNumPages := by
  simp only [getIndices] at h
  split_ifs at h with hnum
  · simp at h
  · rcases List.mem_append.1 h with h | h
    · simpa using lt_of_mem_scanIndices h
    · cases hscan : scanFreePages usage (numOfOrder order) maxNumPages 0 0 with
      | none => simp [hscan] at h
      | some last =>
          obtain ⟨h₁, h₂, -⟩ := scanFreePages_spec hscan (Nat.le_refl 0) (by omega)
          simp only [hscan, List.mem_range'_1] at h
          omega

/-- The first page as the source computes it, `last_page - num + 1` in `unsigned int`. -/
theorem firstPage_unsigned {usage : PagesUsage} {num last : Nat}
    (h : scanFreePages usage num maxNumPages 0 0 = some last) :
    (last + (2 ^ 32 - num) + 1) % 2 ^ 32 = last + 1 - num := by
  obtain ⟨h₁, h₂, -⟩ := scanFreePages_spec h (Nat.le_refl 0) (by omega)
  simp only [maxNumPages] at h₂
  omega

/-! ## The invariant -/

theorem numOfOrder_of_le {order : Nat} (h : order ≤ 30) : numOfOrder order = 2 ^ order :=
  numOfOrder_of_lt (by omega)

/-- A block inside the pool is a run of page numbers. -/
theorem PageBlock.Inside.run {b : PageBlock} (h : b.Inside) :
    ∃ first, b.addr = pagePoolStart + pageSize * first ∧
      first + numOfOrder b.order ≤ maxNumPages ∧ 0 < numOfOrder b.order ∧
      ∀ k, b.HasPage k ↔ first ≤ k ∧ k < first + numOfOrder b.order := by
  have hfin := h.fin
  have hpos : 0 < 2 ^ b.order := Nat.two_pow_pos _
  have haligned := h.aligned
  have hstart := h.start
  simp only [PageBlock.HasPage]
  rw [PageBlock.fin] at hfin ⊢
  rw [numOfOrder_of_le h.order]
  generalize 2 ^ b.order = num at *
  simp only [pagePoolEnd, pagePoolStart, memPoolStart, memPoolSize, pageSize, maxNumPages] at *
  exact ⟨(b.addr - (0xFFFFFFC050000000 + 512 * 2 ^ 20)) / 4096, by omega, by omega, hpos,
    fun k => by omega⟩

structure PageInv (s : PageState) : Prop where
  inside : ∀ b ∈ s.live, b.Inside
  apart : s.live.Pairwise PageBlock.Disjoint
  usage : ∀ k, k < maxNumPages → (s.usage k = true ↔ ∃ b ∈ s.live, b.HasPage k)

variable {s s' : PageState}

theorem PageInv.init : PageInv {} :=
  ⟨by simp, List.Pairwise.nil, by simp⟩

/-- All pages of a live block are in use. -/
theorem PageInv.used (h : PageInv s) {b : PageBlock} (hb : b ∈ s.live) {k : Nat}
    (hk : k < maxNumPages) (hpage : b.HasPage k) : s.usage k = true :=
  (h.usage k hk).2 ⟨b, hb, hpage⟩

/-- A run of pages that are free is disjoint from the live blocks. -/
theorem PageInv.fresh (h : PageInv s) {new : PageBlock} (hnew : new.Inside)
    (hfree : ∀ k, new.HasPage k → s.usage k = false) {b : PageBlock} (hb : b ∈ s.live) :
    new.Disjoint b := by
  obtain ⟨f, hf, hfend, hfpos, hfpage⟩ := hnew.run
  obtain ⟨g, hg, hgend, hgpos, hgpage⟩ := (h.inside b hb).run
  have hnum := numOfOrder_of_le hnew.order
  have hnum' := numOfOrder_of_le (h.inside b hb).order
  -- otherwise they would share a page
  have hcommon : ∀ k, ¬(f ≤ k ∧ k < f + numOfOrder new.order ∧ g ≤ k ∧
      k < g + numOfOrder b.order) := by
    rintro k ⟨h₁, h₂, h₃, h₄⟩
    have hk := hfree k ((hfpage k).2 ⟨h₁, h₂⟩)
    rw [h.used hb (by omega) ((hgpage k).2 ⟨h₃, h₄⟩)] at hk
    cases hk
  have h₁ := hcommon f
  have h₂ := hcommon g
  rw [PageBlock.Disjoint, PageBlock.fin, PageBlock.fin, hf, hg, ← hnum, ← hnum']
  simp only [pageSize]
  omega

theorem PageInv.get (h : PageInv s) {order p : Nat} {usage : PagesUsage} (horder : order ≤ 30)
    (hget : getFreePages s.usage order = (p, usage)) :
    PageInv { usage := usage, live := if p = 0 then s.live else ⟨p, order⟩ :: s.live } := by
  rcases getFreePages_spec hget with ⟨rfl, rfl⟩ | ⟨first, rfl, hend, hpos, hfree, rfl⟩
  · rw [if_pos rfl]
    exact h
  · rw [if_neg (pagePool_ne_zero first)]
    have hnum := numOfOrder_of_le horder
    have hnew : PageBlock.Inside ⟨pagePoolStart + pageSize * first, order⟩ := by
      refine ⟨horder, ?_, by simp, ?_⟩
      · simp only [pagePoolStart, memPoolStart, memPoolSize, pageSize]
        omega
      · simp only [PageBlock.fin, ← hnum, pagePoolEnd, pageSize]
        omega
    have hpage : ∀ k, PageBlock.HasPage ⟨pagePoolStart + pageSize * first, order⟩ k ↔
        first ≤ k ∧ k < first + numOfOrder order := by
      intro k
      simp only [PageBlock.HasPage, PageBlock.fin, ← hnum, pageSize]
      omega
    refine ⟨?_, ?_, ?_⟩
    · intro b hb
      rcases List.mem_cons.1 hb with rfl | hb
      · exact hnew
      · exact h.inside b hb
    · exact List.pairwise_cons.2 ⟨fun b hb => h.fresh hnew
        (fun k hk => hfree k ((hpage k).1 hk).1 ((hpage k).1 hk).2) hb, h.apart⟩
    · intro k hk
      simp only [List.exists_mem_cons_iff, hpage, markPages]
      by_cases hin : first ≤ k ∧ k < first + numOfOrder order
      · simp [hin]
      · simp only [hin, false_or]
        exact h.usage k hk

/-- Freeing a live block does not run into the assertion. -/
theorem PageInv.freePages (h : PageInv s) {b : PageBlock} (hb : b ∈ s.live) :
    ∃ first, (∀ k, b.HasPage k ↔ first ≤ k ∧ k < first + numOfOrder b.order) ∧
      freePages s.usage b.addr b.order =
        .ok (markPages s.usage first (numOfOrder b.order) false) ∧
      ∀ j ∈ freeIndices s.usage b.addr b.order, j < maxNumPages := by
  obtain ⟨first, haddr, hend, hpos, hpage⟩ := (h.inside b hb).run
  refine ⟨first, hpage, ?_, ?_⟩
  · rw [haddr]
    exact freePages_spec hend hpos fun k h₁ h₂ => h.used hb (by omega) ((hpage k).2 ⟨h₁, h₂⟩)
  · intro j hj
    simp only [freeIndices] at hj
    split_ifs at hj
    · simp at hj
    · simp at hj
    · have hfirst : (b.addr - pagePoolStart) / pageSize = first := by
        rw [haddr]
        simp only [pageSize]
        omega
      rw [hfirst] at hj
      have := lt_of_mem_freeRunIndices hj
      omega

theorem PageInv.free (h : PageInv s) {b : PageBlock} {usage : PagesUsage} (hb : b ∈ s.live)
    (hfree : Mm.freePages s.usage b.addr b.order = .ok usage) :
    PageInv { usage := usage, live := s.live.erase b } := by
  obtain ⟨first, hpage, hok, -⟩ := h.freePages hb
  rw [hok] at hfree
  cases hfree
  -- the other live blocks share no page with `b`
  have hperm := List.perm_cons_erase hb
  have hsplit : (b :: s.live.erase b).Pairwise PageBlock.Disjoint :=
    (hperm.pairwise_iff fun hd => hd.symm).1 h.apart
  obtain ⟨hother, hrest⟩ := List.pairwise_cons.1 hsplit
  have hnot : ∀ c ∈ s.live.erase b, ∀ k, b.HasPage k → ¬c.HasPage k := by
    intro c hc k hbk hck
    rcases hother c hc with hd | hd
    · have h₁ := hbk.2
      have h₂ := hck.1
      omega
    · have h₁ := hck.2
      have h₂ := hbk.1
      omega
  refine ⟨fun c hc => h.inside c (List.mem_of_mem_erase hc), hrest, ?_⟩
  intro k hk
  have hused := h.usage k hk
  simp only [hperm.mem_iff, List.exists_mem_cons_iff] at hused
  change markPages s.usage first (numOfOrder b.order) false k = true ↔ _
  by_cases hin : first ≤ k ∧ k < first + numOfOrder b.order
  · simp only [markPages, if_pos hin, Bool.false_eq_true, false_iff]
    rintro ⟨c, hc, hck⟩
    exact hnot c hc k ((hpage k).2 hin) hck
  · have hbk : ¬b.HasPage k := fun hk => hin ((hpage k).1 hk)
    simp only [markPages, if_neg hin]
    rw [hused]
    simp [hbk]

theorem PageInv.step (h : PageInv s) {call : PageCall} (hs : pageStep s call = some s') :
    PageInv s' := by
  cases call with
  | get order =>
      simp only [pageStep] at hs
      by_cases horder : order ≤ 30
      swap
      · rw [if_neg horder] at hs
        cases hs
      rw [if_pos horder] at hs
      rcases hget : getFreePages s.usage order with ⟨p, usage⟩
      simp only [hget] at hs
      cases hs
      exact h.get horder hget
  | free b =>
      simp only [pageStep] at hs
      split_ifs at hs with hb
      obtain ⟨usage, husage, rfl⟩ := Option.map_eq_some_iff.1 hs
      obtain ⟨first, -, hok, -⟩ := h.freePages hb
      rw [hok] at husage
      cases husage
      exact h.free hb hok

/-- After every sequence of calls: the live blocks are disjoint runs of `2 ^ order` pages inside the
pool, `pages_usage` marks exactly their pages, the next call uses only indices inside the array, and
a live block can be freed without failing the assertion. -/
theorem pageRun_blocks {calls : List PageCall} (hrun : runFrom pageStep {} calls = some s) :
    (∀ b ∈ s.live, b.Inside) ∧ s.live.Pairwise PageBlock.Disjoint ∧
      (∀ k, k < maxNumPages → (s.usage k = true ↔ ∃ b ∈ s.live, b.HasPage k)) ∧
      (∀ order, ∀ j ∈ getIndices s.usage order, j < maxNumPages) ∧
      ∀ b ∈ s.live, (∀ j ∈ freeIndices s.usage b.addr b.order, j < maxNumPages) ∧
        ∃ usage, freePages s.usage b.addr b.order = .ok usage := by
  have hinv : PageInv s := runFrom_invariant (fun _ _ _ h hs => h.step hs) PageInv.init hrun
  refine ⟨hinv.inside, hinv.apart, hinv.usage, fun order j hj => lt_of_mem_getIndices hj, ?_⟩
  intro b hb
  obtain ⟨first, -, hok, hindices⟩ := hinv.freePages hb
  exact ⟨hindices, _, hok⟩

/-- A hole of one page is passed over by a request for two. -/
theorem pageRun_blocks_hole :
    ∃ s, runFrom pageStep {} [.get 0, .get 1, .free ⟨pagePoolStart, 0⟩, .get 1, .get 0] = some s ∧
      s.live = [⟨pagePoolStart, 0⟩, ⟨pagePoolStart + 3 * pageSize, 1⟩, ⟨pagePoolStart + pageSize, 1⟩] ∧
      s.live.Pairwise PageBlock.Disjoint := by
  have hend : (runFrom pageStep {} [.get 0, .get 1, .free ⟨pagePoolStart, 0⟩, .get 1, .get 0]).map
      PageState.live =
        some [⟨pagePoolStart, 0⟩, ⟨pagePoolStart + 3 * pageSize, 1⟩, ⟨pagePoolStart + pageSize, 1⟩] := by
    decide +kernel
  obtain ⟨s, hrun, hs⟩ := Option.map_eq_some_iff.1 hend
  exact ⟨s, hrun, hs, (pageRun_blocks hrun).2.1⟩

end Mm
end ToutOS
