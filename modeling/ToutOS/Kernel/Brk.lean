import Mathlib.Data.List.Flatten
import ToutOS.Kernel.Paging
import ToutOS.Kernel.Release

/-!
# Brk — `sys_brk` on an address space

When the break moves down, the pages above it are found through the page table and freed, and their
entries in the list of the heap are found by their addresses and deleted.

* `unmapOneUserPage_none`, `unmapOneUserPage_some` — one page; the walk runs through the physical
  page 0 when a table is missing, which is why that page has to read as zero;
* `unmapLoop_spec` — the pages of a range;
* `sysBrk_cases` — everything that `sys_brk` can do;
* `sysBrk_spec` — it keeps the invariant of the address space.
-/

namespace ToutOS
namespace Kernel

open Base Mm

variable {κ : Type} {H : KernelHeap κ}

/-! ## One page -/

/-- The entry of the last level that the walk of `unmap_one_user_page` reaches. -/
def lastEntry (m : Mem) (pgDir virtAddr : Nat) : Nat :=
  entryAddr ([30, 21].foldl (fun table layer =>
    linear true (getPhyAddr (load m (entryAddr table (getPgEntryIndex virtAddr layer)) 8))) pgDir)
    (getPgEntryIndex virtAddr 12)

/-- One level of the walk; an empty entry leads to page 0. -/
theorem walk_level (m : Mem) (n : Nat) (i : Fin 512) :
    getPhyAddr (load m (entryAddr (linear true n) i) 8) = (ptSlot true m n i).getD 0 := by
  by_cases hzero : load m (entryAddr (linear true n) i) 8 = 0
  · have hphys : getPhyAddr 0 = 0 := by decide
    have hslot : ptSlot true m n i = none := by simp [ptSlot, hzero]
    rw [hzero, hphys, hslot, Option.getD_none]
  · have hslot : ptSlot true m n i = some (getPhyAddr (load m (entryAddr (linear true n) i) 8)) := by
      simp [ptSlot, hzero]
    rw [hslot, Option.getD_some]

theorem load_of_ptSlot {m : Mem} {n : Nat} {i : Fin 512} :
    load m (entryAddr (linear true n) i) 8 = 0 ↔ ptSlot true m n i = none := by
  simp [ptSlot]

theorem lastEntry_eq (m : Mem) (d v : Nat) :
    lastEntry m (linear true d) v = entryAddr (linear true
      ((ptSlot true m ((ptSlot true m d (getPgEntryIndex v 30)).getD 0) (getPgEntryIndex v 21)).getD 0))
      (getPgEntryIndex v 12) := by
  rw [lastEntry, List.foldl_cons, List.foldl_cons, List.foldl_nil, walk_level, walk_level]

theorem lookup_eq (m : Mem) (d v : Nat) :
    lookup true m d v = (ptSlot true m d (getPgEntryIndex v 30)).bind fun t =>
      (ptSlot true m t (getPgEntryIndex v 21)).bind fun n => ptSlot true m n (getPgEntryIndex v 12) := by
  have hpath : pathOf v = [getPgEntryIndex v 30, getPgEntryIndex v 21, getPgEntryIndex v 12] := rfl
  rw [lookup, hpath, descend_three]

/-- The entry that is reached for a page that is not mapped is zero. -/
theorem load_lastEntry_none {m : Mem} {d v : Nat} (hzero : ZeroPage m)
    (h : lookup true m d v = none) : load m (lastEntry m (linear true d) v) 8 = 0 := by
  have hslot0 : ∀ i, ptSlot true m 0 i = none := ptSlot_zero hzero
  -- whatever tables are on the way, the last entry is empty
  have hlast : ptSlot true m
      ((ptSlot true m ((ptSlot true m d (getPgEntryIndex v 30)).getD 0) (getPgEntryIndex v 21)).getD 0)
      (getPgEntryIndex v 12) = none := by
    rw [lookup_eq] at h
    rcases h₁ : ptSlot true m d (getPgEntryIndex v 30) with _ | t
    · rw [Option.getD_none, hslot0, Option.getD_none, hslot0]
    · rw [h₁, Option.bind_some] at h
      rw [Option.getD_some]
      rcases h₂ : ptSlot true m t (getPgEntryIndex v 21) with _ | n
      · rw [Option.getD_none, hslot0]
      · rw [h₂, Option.bind_some] at h
        rw [Option.getD_some, h]
  rw [lastEntry_eq, load_of_ptSlot, hlast]

/-- The walk of a mapped page. -/
theorem load_lastEntry_some {m : Mem} {d v a : Nat} (h : lookup true m d v = some a) :
    ∃ t, descend (ptSlot true m) d [getPgEntryIndex v 30, getPgEntryIndex v 21] = some t ∧
      lastEntry m (linear true d) v = entryAddr (linear true t) (getPgEntryIndex v 12) ∧
      load m (lastEntry m (linear true d) v) 8 ≠ 0 ∧
      getPhyAddr (load m (lastEntry m (linear true d) v) 8) = a := by
  rw [lookup_eq] at h
  obtain ⟨t, ht, h⟩ := Option.bind_eq_some_iff.1 h
  obtain ⟨n, hn, h⟩ := Option.bind_eq_some_iff.1 h
  have hentry := lastEntry_eq m d v
  rw [ht, Option.getD_some, hn, Option.getD_some] at hentry
  refine ⟨n, by simp [descend, ht, hn], hentry, ?_, ?_⟩
  · rw [hentry, ne_eq, load_of_ptSlot, h]
    exact Option.some_ne_none a
  · rw [hentry, walk_level, h, Option.getD_some]

/-- The walk of a page whose tables are there. -/
theorem lastEntry_of_table {m : Mem} {d v t : Nat}
    (ht : descend (ptSlot true m) d [getPgEntryIndex v 30, getPgEntryIndex v 21] = some t) :
    lastEntry m (linear true d) v = entryAddr (linear true t) (getPgEntryIndex v 12) ∧
      lookup true m d v = ptSlot true m t (getPgEntryIndex v 12) := by
  simp only [descend, Option.bind_eq_some_iff, Option.some.injEq] at ht
  obtain ⟨n, hn, n', hn', rfl⟩ := ht
  constructor
  · rw [lastEntry_eq, hn, Option.getD_some, hn', Option.getD_some]
  · rw [lookup_eq, hn, Option.bind_some, hn', Option.bind_some]

theorem lookup_of_no_table {m : Mem} {d v : Nat}
    (h : descend (ptSlot true m) d [getPgEntryIndex v 30, getPgEntryIndex v 21] = none) :
    lookup true m d v = none := by
  have hpath : pathOf v = [getPgEntryIndex v 30, getPgEntryIndex v 21] ++ [getPgEntryIndex v 12] := rfl
  rw [lookup, hpath, descend_concat, h]
  rfl

/-- `unmap_one_user_page` in terms of the entry it reaches. -/
theorem unmapOneUserPage_eq (pgDir v : Nat) (vm : VmState κ) :
    unmapOneUserPage pgDir v vm =
      (if load vm.mem (lastEntry vm.mem pgDir v) 8 ≠ 0 then
        freePages vm.pagesUsage (va (getPhyAddr (load vm.mem (lastEntry vm.mem pgDir v) 8))) 0
      else .ok vm.pagesUsage).map fun usage =>
        { vm with mem := store vm.mem (lastEntry vm.mem pgDir v) 8 0, pagesUsage := usage } := rfl

theorem unmapOneUserPage_of_zero {pgDir v : Nat} {vm : VmState κ}
    (h : load vm.mem (lastEntry vm.mem pgDir v) 8 = 0) : unmapOneUserPage pgDir v vm = .ok vm := by
  rw [unmapOneUserPage_eq, if_neg (not_not.2 h), except_map_ok, store_zero_of_load h]

theorem unmapOneUserPage_of_ne {pgDir v : Nat} {vm : VmState κ} {usage : PagesUsage}
    (h : load vm.mem (lastEntry vm.mem pgDir v) 8 ≠ 0)
    (hfree : freePages vm.pagesUsage
      (va (getPhyAddr (load vm.mem (lastEntry vm.mem pgDir v) 8))) 0 = .ok usage) :
    unmapOneUserPage pgDir v vm =
      .ok { vm with mem := store vm.mem (lastEntry vm.mem pgDir v) 8 0, pagesUsage := usage } := by
  rw [unmapOneUserPage_eq, if_pos h, hfree, except_map_ok]

/-- `free_pages` on a mapped page: one of the pool is freed, all others are none of its business. -/
theorem freePages_mapped {usage : PagesUsage} {a : Nat} (hphys : PhysOk a)
    (hused : InPool a → ¬FreeFrame usage a) : freePages usage (va a) 0 = .ok (freed usage [a]) := by
  by_cases hpool : InPool a
  · rw [← freeFrames_singleton]
    refine freeFrames_spec ?_ (List.nodup_singleton a) ?_
    · simpa using ⟨hpool, hphys.1, hphys.2.trans (by decide)⟩
    · simpa using hused hpool
  · have hout : va a < pagePoolStart ∨ pagePoolEnd ≤ va a := by
      have hlt := hphys.2
      simp only [InPool, Mm.frame, maxNumPages, pageSize, va, add64, pageOffset, pagePoolEnd,
        pagePoolStart, memPoolStart, memPoolSize] at *
      omega
    have hsame : freed usage [a] = usage := by
      funext k
      have : ¬(k < maxNumPages ∧ frame k ∈ [a]) := by
        rintro ⟨hk, hmem⟩
        rw [List.mem_singleton] at hmem
        exact hpool (hmem ▸ inPool_frame.2 hk)
      simp only [freed, if_neg this]
    rw [freePages, if_pos hout, hsame]

/-- A call of `free_pages` on a mapped page that returns has met a page in use. -/
theorem freePages_of_ok {usage usage' : PagesUsage} {a : Nat} (hphys : PhysOk a)
    (h : freePages usage (va a) 0 = .ok usage') : usage' = freed usage [a] := by
  by_cases hused : InPool a → ¬FreeFrame usage a
  · exact Except.ok.inj (h.symm.trans (freePages_mapped hphys hused))
  · obtain ⟨-, hnot⟩ := Classical.not_imp.1 hused
    obtain ⟨k, hk, hfree, rfl⟩ := not_not.1 hnot
    -- the assertion of `free_pages`
    have hin : ¬(pagePoolStart + pageSize * k < pagePoolStart ∨
        pagePoolEnd ≤ pagePoolStart + pageSize * k) := by
      simp only [pagePoolEnd, pagePoolStart, memPoolStart, memPoolSize, maxNumPages, pageSize] at *
      omega
    have haligned : ¬(pagePoolStart + pageSize * k) % pageSize ≠ 0 := by
      simp only [pagePoolStart, memPoolStart, memPoolSize, pageSize]
      omega
    have hindex : (pagePoolStart + pageSize * k - pagePoolStart) / pageSize = k := by
      rw [Nat.add_sub_cancel_left, Nat.mul_div_cancel_left k (by decide)]
    rw [va_frame hk, freePages, if_neg hin, if_neg haligned, hindex, numOfOrder_zero, freeRun, hfree,
      if_neg Bool.false_ne_true] at h
    cases h

/-! ## A range of pages -/

/-- What unmapping relies on. -/
structure Unmappable (m : Mem) (usage : PagesUsage) (d : Nat) : Prop where
  zero : ZeroPage m
  tables : PtWf true m d (tableFrames m d)
  tables_pool : ∀ n ∈ tableFrames m d, InPool n
  place : ∀ v a, lookup true m d v = some a → InPool a ∨ InImage a
  mapped_inj : ∀ v v' a, lookup true m d v = some a → lookup true m d v' = some a → InPool a →
    pathOf v = pathOf v'
  used : ∀ v a, lookup true m d v = some a → InPool a → ¬FreeFrame usage a

/-- The `n` pages from `addr` on have been unmapped and freed. -/
structure Unmapped (d addr n : Nat) (vm vm' : VmState κ) : Prop where
  heap : vm'.heap = vm.heap
  tables : PtWf true vm'.mem d (tableFrames vm'.mem d)
  tables_eq : tableFrames vm'.mem d = tableFrames vm.mem d
  frame : ∀ x, (∀ t ∈ tableFrames vm.mem d, ¬InPage true t x) → vm'.mem x = vm.mem x
  gone : ∀ v, (∃ j < n, pathOf v = pathOf (addr + pageSize * j)) → lookup true vm'.mem d v = none
  other : ∀ v, (∀ j < n, pathOf v ≠ pathOf (addr + pageSize * j)) →
    lookup true vm'.mem d v = lookup true vm.mem d v
  usage : ∃ l, vm'.pagesUsage = freed vm.pagesUsage l ∧
    ∀ a, a ∈ l ↔ ∃ j < n, lookup true vm.mem d (addr + pageSize * j) = some a

variable {d : Nat} {vm : VmState κ}

theorem Unmapped.tables_subset {addr n : Nat} {vm' : VmState κ} (hu : Unmapped d addr n vm vm') :
    tableFrames vm'.mem d ⊆ tableFrames vm.mem d := hu.tables_eq.subset

theorem lookup_congr {m : Mem} {v v' : Nat} (h : pathOf v = pathOf v') :
    lookup true m d v = lookup true m d v' := by
  rw [lookup, h, lookup]

/-- Page 0 is none of the pages of the pool. -/
theorem zeroPage_of_pages {m m' : Mem} {T : Set Nat} (hzero : ZeroPage m)
    (hpool : ∀ n ∈ T, InPool n ∧ IsPage n) (hframe : ∀ x, (∀ n ∈ T, ¬InPage true n x) → m' x = m x) :
    ZeroPage m' := by
  intro x hx
  rw [hframe x, hzero x hx]
  intro n hn hin
  obtain ⟨hpool, hpage⟩ := hpool n hn
  have heq := inPage_unique ⟨Nat.dvd_zero _, by decide⟩ hpage hx hin
  simp only [← heq, InPool, Mm.frame, pageSize] at hpool
  omega

theorem zeroPage_frame {m m' : Mem} (hzero : ZeroPage m) (htables : PtWf true m d (tableFrames m d))
    (hpool : ∀ n ∈ tableFrames m d, InPool n)
    (hframe : ∀ x, (∀ t ∈ tableFrames m d, ¬InPage true t x) → m' x = m x) : ZeroPage m' :=
  zeroPage_of_pages hzero (fun n hn => ⟨hpool n hn, htables.pages n hn⟩) hframe

theorem range_one {addr v : Nat} :
    (∃ j < 1, pathOf v = pathOf (addr + pageSize * j)) ↔ pathOf v = pathOf addr := by
  constructor
  · rintro ⟨j, hj, hpath⟩
    obtain rfl : j = 0 := by omega
    simpa using hpath
  · intro hpath
    exact ⟨0, by decide, by simpa using hpath⟩

/-- Nothing has to be done for a page that is not mapped. -/
theorem Unmapped.of_none {addr : Nat} (htables : PtWf true vm.mem d (tableFrames vm.mem d))
    (hlook : lookup true vm.mem d addr = none) : Unmapped d addr 1 vm vm := by
  refine ⟨rfl, htables, rfl, fun _ _ => rfl, ?_, fun _ _ => rfl, ⟨[], (freed_nil _).symm, ?_⟩⟩
  · intro v hv
    rw [lookup_congr (range_one.1 hv), hlook]
  · intro a
    simp [hlook]

/-- One page whose tables are there: the only word written is its entry. -/
theorem unmapOneUserPage_leaf {addr t : Nat} (htables : PtWf true vm.mem d (tableFrames vm.mem d))
    (ht : descend (ptSlot true vm.mem) d [getPgEntryIndex addr 30, getPgEntryIndex addr 21] = some t)
    (hfree : ∀ a, lookup true vm.mem d addr = some a →
      freePages vm.pagesUsage (va a) 0 = .ok (freed vm.pagesUsage [a])) :
    ∃ vm', unmapOneUserPage (linear true d) addr vm = .ok vm' ∧ Unmapped d addr 1 vm vm' ∧
      vm'.mem = store vm.mem (entryAddr (linear true t) (getPgEntryIndex addr 12)) 8 0 := by
  obtain ⟨hentry, hleaf⟩ := lastEntry_of_table ht
  cases hlook : lookup true vm.mem d addr with
  | none =>
      have hload : load vm.mem (lastEntry vm.mem (linear true d) addr) 8 = 0 := by
        rw [hentry, load_of_ptSlot, ← hleaf, hlook]
      refine ⟨vm, unmapOneUserPage_of_zero hload, Unmapped.of_none htables hlook, ?_⟩
      rw [← hentry, store_zero_of_load hload]
  | some a =>
      obtain ⟨-, -, -, hne, hphys⟩ := load_lastEntry_some hlook
      have hfree := hfree a hlook
      rw [← hphys] at hfree
      have hmem : t ∈ tableFrames vm.mem d := ⟨_, by simp, ht⟩
      obtain ⟨hwf, hdesc⟩ := storeLeaf_spec (i := getPgEntryIndex addr 12) (e := 0) htables ht rfl
        (by decide)
      rw [← hentry] at hwf hdesc
      have hpath : [getPgEntryIndex addr 30, getPgEntryIndex addr 21] ++ [getPgEntryIndex addr 12] =
          pathOf addr := rfl
      have hshort : ∀ ρ : List (Fin 512), ρ.length < 3 → descend (ptSlot true
          (store vm.mem (lastEntry vm.mem (linear true d) addr) 8 0)) d ρ =
          descend (ptSlot true vm.mem) d ρ := fun ρ hρ => by
        rw [hentry]
        exact storeLeaf_short htables ht rfl (by decide) hρ
      refine ⟨_, unmapOneUserPage_of_ne hne hfree, ⟨rfl, ptWf_self hwf, ?_, ?_, ?_, ?_,
        ⟨[a], by rw [hphys], ?_⟩⟩, by rw [hentry]⟩
      · ext t
        exact exists_congr fun ρ => and_congr_right fun hρ => by rw [hshort ρ hρ]
      · -- only the entry is written
        intro x hx
        have hout : ¬(lastEntry vm.mem (linear true d) addr ≤ x ∧
            x < lastEntry vm.mem (linear true d) addr + 8) := by
          rw [hentry]
          exact fun hin => hx t hmem (inPage_entry hin.1 hin.2)
        simp only [store, if_neg hout]
      · intro v hv
        rw [lookup, hdesc _ (length_pathOf v), hpath, if_pos (range_one.1 hv), if_pos rfl]
      · intro v hv
        have hne : pathOf v ≠ pathOf addr := by simpa using hv 0 (by decide)
        rw [lookup, hdesc _ (length_pathOf v), hpath, if_neg hne, lookup]
      · intro b
        constructor
        · intro hb
          rw [List.mem_singleton] at hb
          subst hb
          exact ⟨0, by decide, by simpa using hlook⟩
        · rintro ⟨j, hj, hb⟩
          obtain rfl : j = 0 := by omega
          rw [Nat.mul_zero, Nat.add_zero, hlook] at hb
          rw [List.mem_singleton, Option.some.inj hb]

/-- One page. -/
theorem unmapOneUserPage_spec (h : Unmappable vm.mem vm.pagesUsage d) (addr : Nat) :
    ∃ vm', unmapOneUserPage (linear true d) addr vm = .ok vm' ∧ Unmapped d addr 1 vm vm' := by
  cases hlook : lookup true vm.mem d addr with
  | none =>
      exact ⟨vm, unmapOneUserPage_of_zero (load_lastEntry_none h.zero hlook),
        Unmapped.of_none h.tables hlook⟩
  | some a =>
      obtain ⟨t, ht, -⟩ := load_lastEntry_some hlook
      obtain ⟨vm', hrun, hu, -⟩ := unmapOneUserPage_leaf h.tables ht fun b hb =>
        freePages_mapped (physOk_of_lookup hb) (h.used addr b hb)
      exact ⟨vm', hrun, hu⟩

theorem Unmapped.zero {addr : Nat} (htables : PtWf true vm.mem d (tableFrames vm.mem d)) :
    Unmapped d addr 0 vm vm :=
  ⟨rfl, htables, rfl, fun _ _ => rfl, by simp, fun _ _ => rfl, [], (freed_nil _).symm, by simp⟩

/-- What is mapped afterwards was mapped before, and is not one of the pages of the range. -/
theorem Unmapped.old {addr n : Nat} {vm' : VmState κ} (hu : Unmapped d addr n vm vm') {v a : Nat}
    (ha : lookup true vm'.mem d v = some a) :
    lookup true vm.mem d v = some a ∧ ∀ j < n, pathOf v ≠ pathOf (addr + pageSize * j) := by
  have hout : ∀ j < n, pathOf v ≠ pathOf (addr + pageSize * j) := by
    intro j hj hpath
    rw [hu.gone v ⟨j, hj, hpath⟩] at ha
    cases ha
  exact ⟨by rw [← hu.other v hout, ha], hout⟩

/-- The pages after the first one are different ones, and so still mapped when their turn comes. -/
theorem Unmapped.later {addr n j : Nat} {vm₁ : VmState κ} (hu : Unmapped d addr 1 vm vm₁)
    (hn : n < 2 ^ 27) (hj : j < n) :
    lookup true vm₁.mem d (addr + pageSize + pageSize * j) =
      lookup true vm.mem d (addr + pageSize + pageSize * j) := by
  refine hu.other _ fun i hi hpath => ?_
  obtain rfl : i = 0 := by omega
  rw [pathOf_eq_iff] at hpath
  simp only [pageSize] at hpath
  omega

/-- The pages that remain can be unmapped in turn. -/
theorem Unmapped.unmappable {addr n : Nat} {vm' : VmState κ} (hu : Unmapped d addr n vm vm')
    (h : Unmappable vm.mem vm.pagesUsage d) : Unmappable vm'.mem vm'.pagesUsage d := by
  refine ⟨zeroPage_frame h.zero h.tables h.tables_pool hu.frame, hu.tables,
    fun t ht => h.tables_pool t (hu.tables_subset ht), fun v a ha => h.place v a (hu.old ha).1, ?_, ?_⟩
  · intro v v' a ha ha'
    exact h.mapped_inj v v' a (hu.old ha).1 (hu.old ha').1
  · intro v a ha hpool
    obtain ⟨l, hl, hmem⟩ := hu.usage
    obtain ⟨hv, hout⟩ := hu.old ha
    rw [hl]
    refine not_freeFrame_freed (h.used v a hv hpool) fun hin => ?_
    obtain ⟨j, hj, hj'⟩ := (hmem a).1 hin
    exact hout j hj (h.mapped_inj v _ a hv hj' hpool)

/-- The first page and the pages after it; no page is met twice in `2 ^ 27` of them. -/
theorem Unmapped.cons {addr n : Nat} {vm₁ vm' : VmState κ} (hn : n < 2 ^ 27)
    (hu₁ : Unmapped d addr 1 vm vm₁) (hu : Unmapped d (addr + pageSize) n vm₁ vm') :
    Unmapped d addr (n + 1) vm vm' := by
  have hshift : ∀ j, addr + pageSize + pageSize * j = addr + pageSize * (j + 1) := by
    intro j
    rw [Nat.mul_add]
    omega
  refine ⟨hu.heap.trans hu₁.heap, hu.tables, hu.tables_eq.trans hu₁.tables_eq, ?_, ?_, ?_, ?_⟩
  · intro x hx
    rw [hu.frame x fun t ht => hx t (hu₁.tables_subset ht), hu₁.frame x hx]
  · rintro v ⟨j, hj, hpath⟩
    -- a page of the range is the first one, unless one of the later ones is the same
    by_cases hlater : ∃ i < n, pathOf v = pathOf (addr + pageSize + pageSize * i)
    · exact hu.gone v hlater
    · rw [hu.other v fun i hi hp => hlater ⟨i, hi, hp⟩]
      refine hu₁.gone v ⟨0, by decide, ?_⟩
      cases j with
      | zero => simpa using hpath
      | succ j => exact absurd ⟨j, by omega, by rw [hshift, hpath]⟩ hlater
  · intro v hv
    rw [hu.other v fun j hj => by rw [hshift]; exact hv (j + 1) (by omega)]
    refine hu₁.other v fun j hj => ?_
    obtain rfl : j = 0 := by omega
    exact hv 0 (by omega)
  · obtain ⟨l₁, husage₁, hl₁⟩ := hu₁.usage
    obtain ⟨l, husage, hl⟩ := hu.usage
    refine ⟨l₁ ++ l, by rw [husage, husage₁, freed_append], fun a => ?_⟩
    rw [List.mem_append, hl₁, hl]
    have hlater := fun j hj => hu₁.later hn (show j < n from hj)
    constructor
    · rintro (⟨j, hj, ha⟩ | ⟨j, hj, ha⟩)
      · exact ⟨j, by omega, ha⟩
      · exact ⟨j + 1, by omega, by rw [← hshift, ← hlater j hj, ha]⟩
    · rintro ⟨j, hj, ha⟩
      cases j with
      | zero => exact Or.inl ⟨0, by decide, ha⟩
      | succ j => exact Or.inr ⟨j, by omega, by rw [hlater j (by omega), hshift, ha]⟩

/-- The loop of `unmap_user_page_mapping`. -/
theorem unmapLoop_spec :
    ∀ {n addr : Nat} {vm : VmState κ}, n ≤ 2 ^ 27 → Unmappable vm.mem vm.pagesUsage d →
      ∃ vm', unmapLoop (linear true d) n addr vm = .ok vm' ∧ Unmapped d addr n vm vm' := by
  intro n
  induction n with
  | zero =>
      intro addr vm _ h
      exact ⟨vm, rfl, Unmapped.zero h.tables⟩
  | succ n ih =>
      intro addr vm hn h
      obtain ⟨vm₁, hrun₁, hu₁⟩ := unmapOneUserPage_spec h addr
      obtain ⟨vm', hrun, hu⟩ := @ih (addr + pageSize) vm₁ (by omega) (hu₁.unmappable h)
      exact ⟨vm', by rw [unmapLoop, hrun₁, except_bind_ok, hrun], hu₁.cons (by omega) hu⟩

/-! ## The two halves of `sys_brk` -/

variable {mm : MmStruct}

theorem unmappable_of_spaceOk (h : SpaceOk vm.mem d mm) (hzero : ZeroPage vm.mem)
    (hused : ∀ a ∈ footprint vm.mem d mm.mmap, ¬FreeFrame vm.pagesUsage a) :
    Unmappable vm.mem vm.pagesUsage d :=
  ⟨hzero, h.holdings.tables, h.holdings.tables_pool, h.maps.place, h.holdings.mapped_inj,
    fun v a ha hpool => hused a (Or.inr (Or.inr ⟨hpool, v, ha⟩))⟩

theorem SpaceStep.trans {vm₁ vm₂ : VmState κ} {mm₁ mm₂ : MmStruct} (h₁ : SpaceStep d mm vm mm₁ vm₁)
    (h₂ : SpaceStep d mm₁ vm₁ mm₂ vm₂) : SpaceStep d mm vm mm₂ vm₂ := by
  refine ⟨h₂.ok, h₁.moves.trans h₂.moves, h₂.start.trans h₁.start, fun x hx => ?_⟩
  rcases h₂.kept x hx with ⟨y, hy, hbare⟩ | ⟨hstart, hlma, hshared⟩
  · rcases h₁.kept y hy with ⟨z, hz, hbare'⟩ | ⟨hstart, hlma, hshared⟩
    · exact Or.inl ⟨z, hz, hbare'.trans hbare⟩
    · rw [(range_congr hbare).1] at hstart
      rw [lma_congr hbare] at hlma
      rw [shared_congr hbare] at hshared
      exact Or.inr ⟨hstart, hlma, hshared⟩
  · exact Or.inr ⟨hstart.trans h₁.start, hlma, hshared⟩

/-- A vma that covers an address the heap may take is the heap. -/
theorem VmArea.Ok.heap {startBrk brk p : Nat} {vma : VmArea} (h : vma.Ok startBrk brk)
    (hge : startBrk ≤ p) (hlt : p < maxBrkAddr) (hcov : vma.covers p = true) :
    vma.vmStart = startBrk ∧ vma.lma = noLma ∧ vma.vmEnd = brk := by
  rw [VmArea.covers_iff] at hcov
  rcases h.place with ⟨hs, hlma, hend | hend⟩ | hend | hbegin
  · exact ⟨hs, hlma, hend⟩
  · omega
  · omega
  · omega

/-- A page of the heap that is mapped lies below the break. -/
theorem SpaceOk.below_brk {m : Mem} (h : SpaceOk m d mm) {v a : Nat} (hge : mm.startBrk ≤ v)
    (hlt : v < maxBrkAddr) (ha : lookup true m d v = some a) : pageAddr v < mm.brk := by
  obtain ⟨vma, hvma, hcov⟩ := h.maps.covered v a (hlt.trans (by decide)) ha
  have hdvd := h.layout.brk_dvd
  have hpage : mm.startBrk ≤ pageAddr v ∧ pageAddr v < maxBrkAddr := by
    simp only [pageAddr, pageSize, maxBrkAddr] at *
    omega
  obtain ⟨-, -, hend⟩ := (h.layout.vma vma hvma).heap hpage.1 hpage.2 hcov
  have := (VmArea.covers_iff.1 hcov).2
  omega

/-- The pages of `[lo, hi)` of the heap are unmapped and their entries deleted. -/
def dropHeap (lo hi : Nat) (mm : MmStruct) : MmStruct :=
  { mm with mmap := updateVma mm.startBrk (dropBlocks lo hi) mm.mmap }

theorem dropHeap_bare (lo hi : Nat) (mm : MmStruct) :
    (dropHeap lo hi mm).mmap.map VmArea.bare = mm.mmap.map VmArea.bare :=
  map_bare_updateVma (f := dropBlocks lo hi) (fun _ => rfl) mm.mmap

/-- A vma afterwards and its old self; the heap has lost the entries of the range. -/
theorem dropHeap_vma (hlayout : Layout mm) {lo hi : Nat} {x : VmArea} (hx : x ∈ (dropHeap lo hi mm).mmap) :
    ∃ y ∈ mm.mmap, y.bare = x.bare ∧ x.pagesBlockList.Sublist y.pagesBlockList ∧
      (y.covers mm.startBrk = true → ∀ pb ∈ x.pagesBlockList,
        ¬(lo ≤ pb.userVirtAddr ∧ pb.userVirtAddr < hi)) ∧
      ∀ pb ∈ y.pagesBlockList, ¬(y.covers mm.startBrk = true ∧ lo ≤ pb.userVirtAddr ∧
        pb.userVirtAddr < hi) → pb ∈ x.pagesBlockList := by
  cases hfind : findVma mm.mmap mm.startBrk with
  | none =>
      rw [dropHeap, updateVma_of_none hfind] at hx
      refine ⟨x, hx, rfl, List.Sublist.refl _, fun hcov => ?_, fun pb hpb _ => hpb⟩
      rw [findVma_eq_none.1 hfind x hx] at hcov
      cases hcov
  | some z =>
      obtain ⟨hcovz, l₁, l₂, hsplit, hl₁, hupdate⟩ := findVma_split hfind
      have hapart := hlayout.apart
      rw [hsplit, List.pairwise_append, List.pairwise_cons] at hapart
      simp only [dropHeap, hupdate, List.mem_append, List.mem_cons] at hx
      rw [hsplit]
      rcases hx with hx | rfl | hx
      · refine ⟨x, by simp [hx], rfl, List.Sublist.refl _, fun hcov => ?_, fun pb hpb _ => hpb⟩
        rw [hl₁ x hx] at hcov
        cases hcov
      · refine ⟨z, by simp, rfl, List.filter_sublist, fun _ pb hpb => ?_, fun pb hpb hkeep => ?_⟩
        · have hkeep := (List.mem_filter.1 hpb).2
          simp only [Bool.not_eq_true', Bool.and_eq_false_iff, decide_eq_false_iff_not] at hkeep
          omega
        · refine List.mem_filter.2 ⟨hpb, ?_⟩
          simp only [Bool.not_eq_true', Bool.and_eq_false_iff, decide_eq_false_iff_not]
          have : ¬(lo ≤ pb.userVirtAddr ∧ pb.userVirtAddr < hi) := fun hin => hkeep ⟨hcovz, hin⟩
          omega
      · refine ⟨x, by simp [hx], rfl, List.Sublist.refl _, fun hcov => ?_, fun pb hpb _ => hpb⟩
        rw [hapart.2.1.1 x hx _ hcovz] at hcov
        cases hcov

theorem dropHeap_blocks (lo hi : Nat) (mm : MmStruct) :
    (blocks (dropHeap lo hi mm).mmap).Sublist (blocks mm.mmap) := by
  cases hfind : findVma mm.mmap mm.startBrk with
  | none =>
      rw [dropHeap, updateVma_of_none hfind]
  | some z =>
      obtain ⟨-, l₁, l₂, hsplit, -, hupdate⟩ := findVma_split hfind
      simp only [dropHeap, hupdate, blocks]
      rw [hsplit]
      simp only [List.flatMap_append, List.flatMap_cons]
      refine (List.Sublist.refl _).append (List.Sublist.append ?_ (List.Sublist.refl _))
      exact List.filter_sublist

/-- The first half of `sys_brk` when the break moves down. -/
theorem dropHeap_step (h : SpaceOk vm.mem d mm)
    (hused : ∀ a ∈ footprint vm.mem d mm.mmap, ¬FreeFrame vm.pagesUsage a) {lo n : Nat}
    {vm' : VmState κ} (hlo : mm.startBrk ≤ lo) (hhi : lo + pageSize * n ≤ maxBrkAddr)
    (hdvd : pageSize ∣ lo) (hu : Unmapped d lo n vm vm') :
    SpaceStep d mm vm (dropHeap lo (lo + pageSize * n) mm) vm' := by
  have hbare := dropHeap_bare lo (lo + pageSize * n) mm
  have hblocks : (blockFrames (dropHeap lo (lo + pageSize * n) mm).mmap).Sublist
      (blockFrames mm.mmap) := (dropHeap_blocks lo (lo + pageSize * n) mm).flatMap _
  -- inside the window, the pages of the range are known by their addresses
  have hin : ∀ v, v < 2 ^ 39 → ∀ j < n, pathOf v = pathOf (lo + pageSize * j) →
      pageAddr v = lo + pageSize * j := by
    intro v hv j hj hpath
    rw [pathOf_eq_iff] at hpath
    simp only [pageAddr, pageSize, maxBrkAddr] at *
    omega
  have hpage : ∀ j, pageAddr (lo + pageSize * j) = lo + pageSize * j := by
    intro j
    simp only [pageAddr, pageSize] at *
    omega
  refine ⟨⟨h.layout.congr hbare, ?_, ?_⟩, ?_, rfl, fun x hx => Or.inl (bare_mem hbare hx)⟩
  · refine ⟨hu.tables, fun t ht => h.holdings.tables_pool t (hu.tables_subset ht), ?_, ?_, ?_, ?_, ?_⟩
    · intro pb hpb
      exact h.holdings.blocks_valid pb ((dropHeap_blocks _ _ mm).subset hpb)
    · exact h.holdings.blocks_nodup.sublist hblocks
    · intro t ht hin
      exact h.holdings.tables_blocks t (hu.tables_subset ht) (hblocks.subset hin)
    · intro v a ha ht
      exact h.holdings.tables_mapped v a (hu.old ha).1 (hu.tables_subset ht)
    · intro v v' a ha ha'
      exact h.holdings.mapped_inj v v' a (hu.old ha).1 (hu.old ha').1
  · refine ⟨fun v a ha => h.maps.place v a (hu.old ha).1, ?_, ?_, ?_, ?_⟩
    · intro v a hv ha
      obtain ⟨y, hy, hcov⟩ := h.maps.covered v a hv (hu.old ha).1
      obtain ⟨x, hx, hb⟩ := bare_mem hbare.symm hy
      rw [← covers_congr hb] at hcov
      exact ⟨x, hx, hcov⟩
    · -- the range holds no page of a vma that is mapped as a whole
      intro x hx hlma v hv hcov
      obtain ⟨y, hy, hb⟩ := bare_mem hbare hx
      rw [← lma_congr hb] at hlma
      rw [← covers_congr hb] at hcov
      rw [← target_congr hb, hu.other v, h.maps.static y hy hlma v hv hcov]
      intro j hj hpath
      rw [hin v hv j hj hpath] at hcov
      refine hlma ((h.layout.vma y hy).heap ?_ ?_ hcov).2.1
      · omega
      · simp only [pageSize, maxBrkAddr] at *
        omega
    · intro x hx hlma v a hv hcov ha
      obtain ⟨y, hy, hb⟩ := bare_mem hbare hx
      rw [← lma_congr hb] at hlma
      rw [← covers_congr hb] at hcov
      exact h.maps.demand y hy hlma v a hv hcov (hu.old ha).1
    · intro v a hge hlt ha x hx pb hpb hmem
      obtain ⟨y, hy, hb, hsub, -, -⟩ := dropHeap_vma h.layout hx
      have := h.maps.heap v a hge hlt (hu.old ha).1 y hy pb (hsub.subset hpb) hmem
      rwa [covers_congr hb] at this
  · obtain ⟨l, husage, hl⟩ := hu.usage
    -- the pages freed were mapped
    have hmapped : ∀ a ∈ l, FreeFrame vm'.pagesUsage a → a ∈ footprint vm.mem d mm.mmap := by
      intro a ha hfree
      obtain ⟨j, -, hj⟩ := (hl a).1 ha
      exact Or.inr (Or.inr ⟨FreeFrame.inPool hfree, _, hj⟩)
    have hsub : footprint vm'.mem d (dropHeap lo (lo + pageSize * n) mm).mmap ⊆
        footprint vm.mem d mm.mmap := by
      rintro a (ha | ha | ⟨hpool, v, ha⟩)
      · exact Or.inl (hu.tables_subset ha)
      · exact Or.inr (Or.inl (hblocks.subset ha))
      · exact Or.inr (Or.inr ⟨hpool, v, (hu.old ha).1⟩)
    refine ⟨?_, fun a ha => Or.inl (hsub ha), ?_, ?_⟩
    · intro x hx _
      refine hu.frame x fun t ht hin => hx (Or.inl ?_)
      rwa [pageOf_of_inPage (h.holdings.tables.pages t ht) hin]
    · intro a ha
      change FreeFrame vm'.pagesUsage a at ha
      have ha' := ha
      rw [husage] at ha'
      rcases freeFrame_freed ha' with hf | hf
      · exact Or.inl hf
      · exact Or.inr (hmapped a hf ha)
    · intro a ha hfree
      change FreeFrame vm'.pagesUsage a at hfree
      rw [husage] at hfree
      refine (freeFrame_freed hfree).elim (hused a (hsub ha)) fun hin => ?_
      obtain ⟨j, hj, hlook⟩ := (hl a).1 hin
      have hheap : mm.startBrk ≤ lo + pageSize * j ∧ lo + pageSize * j < maxBrkAddr := by
        simp only [pageSize, maxBrkAddr] at *
        omega
      -- a page that has been freed is no longer in use as a table, in a block, or mapped
      rcases ha with ha | ha | ⟨hpool, v, ha⟩
      · exact h.holdings.tables_mapped _ a hlook (hu.tables_subset ha)
      · obtain ⟨pb, hpb, hmem⟩ := List.mem_flatMap.1 ha
        obtain ⟨x, hx, hpb⟩ := List.mem_flatMap.1 hpb
        obtain ⟨y, hy, hb, hsubl, hdrop, -⟩ := dropHeap_vma h.layout hx
        obtain ⟨hcov, huser⟩ := h.maps.heap _ a hheap.1 hheap.2 hlook y hy pb (hsubl.subset hpb) hmem
        rw [hpage] at huser
        refine hdrop hcov pb hpb ⟨by omega, ?_⟩
        simp only [pageSize] at *
        omega
      · obtain ⟨hv, hout⟩ := hu.old ha
        exact hout j hj (h.holdings.mapped_inj v _ a hv hlook hpool)

/-- A vma that does not hold the start of the heap has no address in common with the heap. -/
theorem VmArea.Ok.apart_heap {startBrk brk : Nat} {x heap : VmArea} (h : x.Ok startBrk brk)
    (hx : x.covers startBrk = false) (hstart : heap.vmStart = startBrk)
    (hend : heap.vmEnd ≤ maxBrkAddr) : x.Apart heap := by
  intro p hp
  by_contra hcov
  rw [Bool.not_eq_false, VmArea.covers_iff] at hcov
  rw [VmArea.covers_iff] at hp
  have hno : ¬(x.vmStart ≤ startBrk ∧ startBrk < x.vmEnd) := fun hin => by
    rw [VmArea.covers_iff.2 hin] at hx
    cases hx
  rcases h.place with ⟨hs, -, -⟩ | hplace | hplace
  · omega
  · omega
  · omega

/-- A vma that does not hold the start of the heap stays in place when the break moves. -/
theorem VmArea.Ok.move_brk {startBrk brk b : Nat} {x : VmArea} (h : x.Ok startBrk brk)
    (hx : x.covers startBrk = false) : x.Ok startBrk b := by
  have hno : ¬(x.vmStart ≤ startBrk ∧ startBrk < x.vmEnd) := fun hin => by
    rw [VmArea.covers_iff.2 hin] at hx
    cases hx
  refine ⟨h.start_dvd, h.start_pos, h.start_le, h.end_le, h.end_dvd, h.lma_dvd, h.lma_le, h.shared, ?_⟩
  have hle := h.start_le
  rcases h.place with ⟨hs, hlma, -⟩ | hplace | hplace
  · exact Or.inl ⟨hs, hlma, Or.inr (by omega)⟩
  · exact Or.inr (Or.inl hplace)
  · exact Or.inr (Or.inr hplace)

/-- A heap with the new break. -/
theorem heap_ok {startBrk b : Nat} {x : VmArea} (hdvd : pageSize ∣ startBrk) (hpos : 0 < startBrk)
    (hge : startBrk ≤ b) (hle : b ≤ maxBrkAddr) (hstart : x.vmStart = startBrk) (hend : x.vmEnd = b)
    (hlma : x.lma = noLma) (hshared : x.shared = false) : x.Ok startBrk b := by
  have hwindow : maxBrkAddr ≤ 2 ^ 39 := by decide
  refine ⟨by rwa [hstart], by omega, by omega, by omega, fun h => absurd hlma h,
    fun h => absurd hlma h, fun h => absurd hlma h, ?_, Or.inl ⟨hstart, hlma, Or.inl hend⟩⟩
  intro h
  rw [hshared] at h
  cases h

theorem holdings_congr {m : Mem} {mmap mmap' : List VmArea} (h : Holdings m d mmap)
    (hblocks : blocks mmap' = blocks mmap) : Holdings m d mmap' := by
  obtain ⟨h₁, h₂, h₃, h₄, h₅, h₆, h₇⟩ := h
  unfold blockFrames at h₄ h₅
  rw [← hblocks] at h₃ h₄ h₅
  exact ⟨h₁, h₂, h₃, h₄, h₅, h₆, h₇⟩

theorem footprint_congr {m : Mem} {mmap mmap' : List VmArea} (hblocks : blocks mmap' = blocks mmap) :
    footprint m d mmap' = footprint m d mmap := by
  unfold footprint blockFrames
  rw [hblocks]

/-- The break is set to `b`, and the heap, if there is one, ends there: what `mmap'` has to be for
the address space to stay in order. -/
theorem moveBrk_step (h : SpaceOk vm.mem d mm)
    (hused : ∀ a ∈ footprint vm.mem d mm.mmap, ¬FreeFrame vm.pagesUsage a) {b : Nat}
    {mmap' : List VmArea} {heap' : κ} (hge : mm.startBrk ≤ b) (hle : b ≤ maxBrkAddr)
    (hbelow : ∀ v a, mm.startBrk ≤ v → v < maxBrkAddr → lookup true vm.mem d v = some a →
      pageAddr v < b)
    (hblocks : blocks mmap' = blocks mm.mmap) (hapart : mmap'.Pairwise VmArea.Apart)
    (hvma : ∀ x ∈ mmap', (x ∈ mm.mmap ∧ x.covers mm.startBrk = false) ∨
      (x.vmStart = mm.startBrk ∧ x.vmEnd = b ∧ x.lma = noLma ∧ x.shared = false ∧
        ∀ pb ∈ x.pagesBlockList, ∃ y ∈ mm.mmap, pb ∈ y.pagesBlockList))
    (hkeep : ∀ y ∈ mm.mmap, y ∈ mmap' ∨
      y.covers mm.startBrk = true ∧ ∃ x ∈ mmap', x.vmStart = mm.startBrk ∧ x.vmEnd = b) :
    SpaceStep d mm vm { mm with mmap := mmap', brk := b } { vm with heap := heap' } := by
  have hdvd := h.layout.brk_dvd
  -- a page of the new heap that is mapped belongs to the heap there was
  have hheap : ∀ v a, mm.startBrk ≤ pageAddr v → pageAddr v < b → lookup true vm.mem d v = some a →
      InPool a := by
    intro v a h₁ h₂ ha
    have hv : v < 2 ^ 39 := by
      simp only [pageAddr, pageSize, maxBrkAddr] at *
      omega
    obtain ⟨y, hy, hcov⟩ := h.maps.covered v a hv ha
    have := (h.layout.vma y hy).heap h₁ (by omega) hcov
    exact h.maps.demand y hy this.2.1 v a hv hcov ha
  have hpage : ∀ v, mm.startBrk ≤ v → mm.startBrk ≤ pageAddr v := by
    intro v hv
    simp only [pageAddr, pageSize] at *
    omega
  refine ⟨⟨⟨hdvd, h.layout.brk_pos, h.layout.brk_lt, hge, hle, ?_, hapart⟩,
    holdings_congr h.holdings hblocks, ⟨h.maps.place, ?_, ?_, ?_, ?_⟩⟩, ?_, rfl, ?_⟩
  · intro x hx
    rcases hvma x hx with ⟨hold, hcov⟩ | ⟨hs, he, hlma, hshared, -⟩
    · exact (h.layout.vma x hold).move_brk hcov
    · exact heap_ok hdvd h.layout.brk_pos hge hle hs he hlma hshared
  · intro v a hv ha
    obtain ⟨y, hy, hcov⟩ := h.maps.covered v a hv ha
    rcases hkeep y hy with hkept | ⟨hbrk, x, hx, hs, he⟩
    · exact ⟨y, hkept, hcov⟩
    · -- the page is one of the heap
      have hplace := (h.layout.vma y hy).heap (Nat.le_refl _) h.layout.brk_lt hbrk
      have hle' := h.layout.brk_le
      rw [VmArea.covers_iff] at hcov
      have hv' : mm.startBrk ≤ v ∧ v < maxBrkAddr := by
        simp only [pageAddr, pageSize, maxBrkAddr] at *
        omega
      have := hbelow v a hv'.1 hv'.2 ha
      have := hpage v hv'.1
      exact ⟨x, hx, VmArea.covers_iff.2 ⟨by omega, by omega⟩⟩
  · intro x hx hlma v hv hcov
    rcases hvma x hx with ⟨hold, -⟩ | ⟨-, -, hno, -, -⟩
    · exact h.maps.static x hold hlma v hv hcov
    · exact absurd hno hlma
  · intro x hx hlma v a hv hcov ha
    rcases hvma x hx with ⟨hold, -⟩ | ⟨hs, he, -, -, -⟩
    · exact h.maps.demand x hold hlma v a hv hcov ha
    · rw [VmArea.covers_iff] at hcov
      exact hheap v a (by omega) (by omega) ha
  · intro v a hlo hhi ha x hx pb hpb hmem
    have hlt := hbelow v a hlo hhi ha
    have := hpage v hlo
    rcases hvma x hx with ⟨hold, -⟩ | ⟨hs, he, -, -, hlist⟩
    · exact h.maps.heap v a hlo hhi ha x hold pb hpb hmem
    · obtain ⟨y, hy, hpby⟩ := hlist pb hpb
      refine ⟨VmArea.covers_iff.2 ⟨?_, ?_⟩, (h.maps.heap v a hlo hhi ha y hy pb hpby hmem).2⟩
      · change x.vmStart ≤ mm.startBrk
        omega
      · change mm.startBrk < x.vmEnd
        omega
  · have hfoot : footprint vm.mem d mmap' = footprint vm.mem d mm.mmap := footprint_congr hblocks
    change Local pageOf _ (footprint vm.mem d mmap') vm.world vm.world
    rw [hfoot]
    exact Local.refl hused
  · intro x hx
    rcases hvma x hx with ⟨hold, -⟩ | ⟨hs, -, hlma, hshared, -⟩
    · exact Or.inl ⟨x, hold, rfl⟩
    · exact Or.inr ⟨hs, hlma, hshared⟩

/-- What the end of `sys_brk` does with the vmas, when the break has been set to `b`. -/
theorem brkOut_cases (mm : MmStruct) (vm : VmState κ) (b : Nat) :
    (∃ heap', brkOut H { mm with brk := b } vm = ({ mm with brk := b }, { vm with heap := heap' }) ∧
      findVma mm.mmap mm.startBrk = none) ∨
    (∃ x heap', brkOut H { mm with brk := b } vm =
        ({ mm with mmap := x :: mm.mmap, brk := b }, { vm with heap := heap' }) ∧
      findVma mm.mmap mm.startBrk = none ∧ x.vmStart = mm.startBrk ∧ x.vmEnd = b ∧ x.lma = noLma ∧
      x.shared = false ∧ x.pagesBlockList = []) ∨
    ∃ x, brkOut H { mm with brk := b } vm =
        ({ mm with
            mmap := updateVma mm.startBrk (fun vma => { vma with vmEnd := b }) mm.mmap, brk := b },
          { vm with heap := vm.heap }) ∧
      findVma mm.mmap mm.startBrk = some x := by
  cases hfind : findVma mm.mmap mm.startBrk with
  | none =>
      rcases hcall : H.kmalloc vm.heap sizeofVmArea with ⟨self, heap'⟩
      by_cases hself : self = 0
      · refine Or.inl ⟨heap', ?_, rfl⟩
        simp only [brkOut, hfind, setupVma, hcall, hself, if_true]
      · refine Or.inr (Or.inl ⟨_, heap', by
          simp only [brkOut, hfind, setupVma, hcall, if_neg hself]; rfl, rfl, rfl, rfl, rfl, ?_, rfl⟩)
        have hflags : (vmRead ||| vmWrite) &&& vmShared = 0 := by decide
        simp [VmArea.shared, hflags]
  | some x =>
      refine Or.inr (Or.inr ⟨x, ?_, rfl⟩)
      simp only [brkOut, hfind]

theorem brkOut_mem (mm : MmStruct) (vm : VmState κ) : (brkOut H mm vm).2.mem = vm.mem := by
  rw [brkOut]
  cases findVma mm.mmap mm.startBrk with
  | none => rfl
  | some _ => rfl

/-- The second half of `sys_brk`. -/
theorem brkOut_step (h : SpaceOk vm.mem d mm)
    (hused : ∀ a ∈ footprint vm.mem d mm.mmap, ¬FreeFrame vm.pagesUsage a) {b : Nat}
    (hge : mm.startBrk ≤ b) (hle : b ≤ maxBrkAddr)
    (hbelow : ∀ v a, mm.startBrk ≤ v → v < maxBrkAddr → lookup true vm.mem d v = some a →
      pageAddr v < b) :
    SpaceStep d mm vm (brkOut H { mm with brk := b } vm).1 (brkOut H { mm with brk := b } vm).2 := by
  rcases brkOut_cases (H := H) mm vm b with
    ⟨heap', hout, hfind⟩ | ⟨x, heap', hout, hfind, hs, he, hlma, hshared, hlist⟩ | ⟨x, hout, hfind⟩
  · -- there is no memory for the vma
    rw [hout]
    rw [findVma_eq_none] at hfind
    exact moveBrk_step h hused hge hle hbelow rfl h.layout.apart (fun y hy => Or.inl ⟨hy, hfind y hy⟩)
      fun y hy => Or.inl hy
  · rw [hout]
    rw [findVma_eq_none] at hfind
    refine moveBrk_step h hused hge hle hbelow ?_ ?_ ?_ fun y hy => Or.inl (List.mem_cons_of_mem _ hy)
    · simp [blocks, hlist]
    · rw [List.pairwise_cons]
      refine ⟨fun y hy => ?_, h.layout.apart⟩
      exact ((h.layout.vma y hy).apart_heap (hfind y hy) hs (by omega)).symm
    · intro y hy
      rcases List.mem_cons.1 hy with rfl | hy
      · exact Or.inr ⟨hs, he, hlma, hshared, by simp [hlist]⟩
      · exact Or.inl ⟨hy, hfind y hy⟩
  · rw [hout]
    obtain ⟨hcov, l₁, l₂, hsplit, hl₁, hupdate⟩ := findVma_split hfind
    have hmem : x ∈ mm.mmap := by simp [hsplit]
    obtain ⟨hs, hlma, -⟩ := (h.layout.vma x hmem).heap (Nat.le_refl _) h.layout.brk_lt hcov
    have hshared : x.shared = false := by
      by_contra hno
      exact ((h.layout.vma x hmem).shared (by simpa using hno)).1 hlma
    -- no other vma holds the start of the heap
    have hapart := h.layout.apart
    rw [hsplit, List.pairwise_append, List.pairwise_cons] at hapart
    obtain ⟨hapart₁, ⟨hapartx, hapart₂⟩, hapart₁₂⟩ := hapart
    have hl₂ : ∀ y ∈ l₂, y.covers mm.startBrk = false := fun y hy => hapartx y hy _ hcov
    have hok : ∀ y, y ∈ l₁ ∨ y ∈ l₂ → y.Ok mm.startBrk mm.brk := by
      intro y hy
      refine h.layout.vma y ?_
      rw [hsplit]
      rcases hy with hy | hy <;> simp [hy]
    rw [hupdate]
    refine moveBrk_step h hused hge hle hbelow ?_ ?_ ?_ ?_
    · simp [blocks, hsplit]
    · rw [List.pairwise_append, List.pairwise_cons]
      refine ⟨hapart₁, ⟨fun y hy => ?_, hapart₂⟩, fun y hy z hz => ?_⟩
      · exact (@VmArea.Ok.apart_heap _ _ y { x with vmEnd := b } (hok y (Or.inr hy)) (hl₂ y hy) hs
          hle).symm
      · rcases List.mem_cons.1 hz with rfl | hz
        · exact @VmArea.Ok.apart_heap _ _ y { x with vmEnd := b } (hok y (Or.inl hy)) (hl₁ y hy) hs hle
        · exact hapart₁₂ y hy z (List.mem_cons_of_mem _ hz)
    · intro y hy
      simp only [List.mem_append, List.mem_cons] at hy
      rcases hy with hy | rfl | hy
      · exact Or.inl ⟨by simp [hsplit, hy], hl₁ y hy⟩
      · exact Or.inr ⟨hs, rfl, hlma, hshared, fun pb hpb => ⟨x, hmem, hpb⟩⟩
      · exact Or.inl ⟨by simp [hsplit, hy], hl₂ y hy⟩
    · intro y hy
      rw [hsplit] at hy
      simp only [List.mem_append, List.mem_cons] at hy ⊢
      rcases hy with hy | rfl | hy
      · exact Or.inl (Or.inl hy)
      · exact Or.inr ⟨hcov, _, Or.inr (Or.inl rfl), hs, rfl⟩
      · exact Or.inl (Or.inr (Or.inr hy))

/-! ## `sys_brk` -/

/-- Rounding up to the next page. -/
theorem upperPageAddr_spec {a : Nat} (h : a ≤ maxBrkAddr) :
    pageSize ∣ upperPageAddr a ∧ a ≤ upperPageAddr a ∧ upperPageAddr a < a + pageSize ∧
      upperPageAddr a ≤ maxBrkAddr := by
  have hsum : add64 a (pageSize - 1) = a + (pageSize - 1) := by
    refine add64_of_lt ?_
    simp only [maxBrkAddr, pageSize] at *
    omega
  rw [upperPageAddr, hsum]
  simp only [maxBrkAddr, pageSize] at *
  omega

/-- The break is moved from `mm.brk` down to `b`, past the `n` pages from `lo` on. -/
structure Shrink (d lo n b : Nat) (mm : MmStruct) (vm vm₁ : VmState κ) : Prop where
  lo_eq : lo = upperPageAddr b
  hi_eq : lo + pageSize * n = upperPageAddr mm.brk
  lo_dvd : pageSize ∣ lo
  ge : mm.startBrk ≤ b
  le_lo : b ≤ lo
  lo_lt : lo < b + pageSize
  hi_le : lo + pageSize * n ≤ maxBrkAddr
  brk_le : mm.brk ≤ lo + pageSize * n
  unmapped : Unmapped d lo n vm vm₁

/-- The argument is one that `sys_brk` leaves the break alone for. -/
def KeepsBrk (mm : MmStruct) (addr : Nat) : Prop :=
  addr = 0 ∨ addr < mm.startBrk ∨ maxBrkAddr < addr

instance (mm : MmStruct) (addr : Nat) : Decidable (KeepsBrk mm addr) :=
  inferInstanceAs (Decidable (_ ∨ _ ∨ _))

/-- The break after a call. -/
def nextBrk (mm : MmStruct) (addr : Nat) : Nat := if KeepsBrk mm addr then mm.brk else addr

/-- The call takes pages away from the heap. -/
def Shrinks (mm : MmStruct) (addr : Nat) : Prop :=
  ¬KeepsBrk mm addr ∧ upperPageAddr addr < upperPageAddr mm.brk

instance (mm : MmStruct) (addr : Nat) : Decidable (Shrinks mm addr) :=
  inferInstanceAs (Decidable (_ ∧ _))

/-- Everything that `sys_brk` can do: set the break (also to what it was), or unmap pages before; it
fails only when there is no heap to shrink. -/
theorem sysBrk_cases (h : SpaceOk vm.mem d mm) (hzero : ZeroPage vm.mem)
    (hused : ∀ a ∈ footprint vm.mem d mm.mmap, ¬FreeFrame vm.pagesUsage a) (addr : Nat) :
    (sysBrk H (linear true d) addr mm vm = .error .kernelPanic ∧ Shrinks mm addr ∧
      findVma mm.mmap mm.startBrk = none) ∨
    (∃ b, sysBrk H (linear true d) addr mm vm = .ok (brkOut H { mm with brk := b } vm) ∧
      mm.startBrk ≤ b ∧ b ≤ maxBrkAddr ∧
      ∀ v a, mm.startBrk ≤ v → v < maxBrkAddr → lookup true vm.mem d v = some a → pageAddr v < b) ∨
    ∃ lo n vm₁, sysBrk H (linear true d) addr mm vm =
        .ok (brkOut H { dropHeap lo (lo + pageSize * n) mm with brk := addr } vm₁) ∧
      Shrink d lo n addr mm vm vm₁ := by
  have hbrk_ge := h.layout.brk_ge
  have hbrk_le := h.layout.brk_le
  have hpos := h.layout.brk_pos
  have hdir := linear_ne_zero h.holdings
  generalize hp : linear true d = p at hdir ⊢
  by_cases hout : addr = 0 ∨ addr < mm.startBrk ∨ maxBrkAddr < addr
  · refine Or.inr (Or.inl ⟨mm.brk, ?_, hbrk_ge, hbrk_le, fun v a h₁ h₂ ha => h.below_brk h₁ h₂ ha⟩)
    rw [sysBrk, if_pos hout]
  obtain ⟨-, hge, hle⟩ : addr ≠ 0 ∧ mm.startBrk ≤ addr ∧ addr ≤ maxBrkAddr := by omega
  have hmod : addr % 2 ^ 32 = addr := by
    simp only [maxBrkAddr] at hle
    omega
  obtain ⟨hnew₁, hnew₂, hnew₃, hnew₄⟩ := upperPageAddr_spec hle
  obtain ⟨hold₁, hold₂, hold₃, hold₄⟩ := upperPageAddr_spec hbrk_le
  simp only [sysBrk, if_neg hout, hmod]
  by_cases hshrink : upperPageAddr addr < upperPageAddr mm.brk
  · rw [if_pos hshrink]
    obtain ⟨n, hn⟩ : ∃ n, upperPageAddr mm.brk = upperPageAddr addr + pageSize * n := by
      obtain ⟨i, hi⟩ := hnew₁
      obtain ⟨j, hj⟩ := hold₁
      refine ⟨j - i, ?_⟩
      simp only [pageSize] at *
      omega
    have hsize : upperPageAddr mm.brk - upperPageAddr addr = pageSize * n := by omega
    have hcond : ¬(upperPageAddr addr = 0 ∨ pageSize * n % pageSize ≠ 0) := by
      have := Nat.mul_mod_right pageSize n
      omega
    have hloop : unmapUserPageMapping p (upperPageAddr addr)
        (upperPageAddr mm.brk - upperPageAddr addr) vm = unmapLoop p n (upperPageAddr addr) vm := by
      rw [hsize, unmapUserPageMapping, if_neg hdir, if_neg hcond,
        Nat.mul_div_cancel_left n (by decide)]
    obtain ⟨vm₁, hrun, hu⟩ := @unmapLoop_spec κ d n (upperPageAddr addr) vm (by
      simp only [pageSize, maxBrkAddr] at *
      omega) (unmappable_of_spaceOk h hzero hused)
    rw [hp] at hrun
    rw [hloop, hrun, except_bind_ok]
    split_ifs with hnone
    · exact Or.inl ⟨rfl, ⟨hout, hshrink⟩, hnone⟩
    · refine Or.inr (Or.inr ⟨upperPageAddr addr, n, vm₁, ?_,
        ⟨rfl, hn.symm, hnew₁, hge, hnew₂, hnew₃, by omega, by omega, hu⟩⟩)
      rw [← hn, dropHeap]
  · rw [if_neg hshrink]
    refine Or.inr (Or.inl ⟨addr, rfl, hge, hle, fun v a h₁ h₂ ha => ?_⟩)
    -- the page lies below the old break, which is on the same page as the new one or lower
    have hlt := h.below_brk h₁ h₂ ha
    simp only [pageAddr, pageSize] at *
    omega

/-- The pages that are mapped after the pages above the new break are gone lie below it. -/
theorem Shrink.below {lo n b : Nat} {vm₁ : VmState κ} (hs : Shrink d lo n b mm vm vm₁)
    (h : SpaceOk vm.mem d mm) {v a : Nat} (hge : mm.startBrk ≤ v) (hlt : v < maxBrkAddr)
    (ha : lookup true vm₁.mem d v = some a) : pageAddr v < b := by
  have hout : ∀ j < n, pathOf v ≠ pathOf (lo + pageSize * j) := by
    intro j hj hpath
    rw [hs.unmapped.gone v ⟨j, hj, hpath⟩] at ha
    cases ha
  rw [hs.unmapped.other v hout] at ha
  have hbelow := h.below_brk hge hlt ha
  have hdvd := hs.lo_dvd
  have hlo := hs.lo_lt
  have hbrk := hs.brk_le
  by_contra hno
  -- otherwise the page is one of those unmapped
  have hj : ∃ j < n, pageAddr v = lo + pageSize * j := by
    refine ⟨(pageAddr v - lo) / pageSize, ?_, ?_⟩ <;>
    · simp only [pageAddr, pageSize] at *
      omega
  obtain ⟨j, hjn, hj⟩ := hj
  refine hout j hjn ?_
  rw [pathOf_eq_iff]
  simp only [pageAddr, pageSize] at hj ⊢
  omega

/-- `sys_brk` keeps the address space in order; it fails only when there is no heap to shrink. -/
theorem sysBrk_spec (h : SpaceOk vm.mem d mm) (hzero : ZeroPage vm.mem)
    (hused : ∀ a ∈ footprint vm.mem d mm.mmap, ¬FreeFrame vm.pagesUsage a) (addr : Nat) :
    (sysBrk H (linear true d) addr mm vm = .error .kernelPanic ∧ Shrinks mm addr ∧
      findVma mm.mmap mm.startBrk = none) ∨
    ∃ mm' vm', sysBrk H (linear true d) addr mm vm = .ok (mm', vm') ∧ SpaceStep d mm vm mm' vm' := by
  rcases sysBrk_cases (H := H) h hzero hused addr with
    ⟨herr, hpanic⟩ | ⟨b, hok, hge, hle, hbelow⟩ | ⟨lo, n, vm₁, hok, hs⟩
  · exact Or.inl ⟨herr, hpanic⟩
  · exact Or.inr ⟨_, _, hok, brkOut_step h hused hge hle hbelow⟩
  · have hge := hs.ge
    have hlo := hs.le_lo
    have hhi := hs.hi_le
    have hfirst := dropHeap_step h hused (by omega) hhi hs.lo_dvd hs.unmapped
    have hsecond := @brkOut_step κ H d vm₁ (dropHeap lo (lo + pageSize * n) mm) hfirst.ok
      hfirst.moves.held addr hge (by omega) fun v a h₁ h₂ ha => hs.below h h₁ h₂ ha
    exact Or.inr ⟨_, _, hok, hfirst.trans hsecond⟩

end Kernel
end ToutOS
