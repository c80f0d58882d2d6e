import Mathlib.Order.Interval.Finset.Nat
import ToutOS.Base.Budget
import ToutOS.Mm.Leaf
import ToutOS.Mm.PagePool

/-!
# TableCount — how many pages the tables take

`setup_pg_for_addr` takes a page for every table that is missing on the way, and runs into its assertion
when there is none left.

* `freeCount` — the number of pages of the pool that are not in use.
* `tablePaths`, `hasTable` — the tables below the directory on the way to an address, by their indices,
  and those that are there.
* `setupPgForAddr_spends`, `addSingleMap_spends` — the pool pays for exactly the tables that are
  missing, and the assertion fails exactly when it cannot.
-/

namespace ToutOS
namespace Mm

open Base

/-! ## The stock -/

/-- The number of pages that are not in use. -/
def freeCount (usage : PagesUsage) : Nat := ((Finset.range maxNumPages).filter fun k => usage k = false).card

theorem freeCount_eq_zero {usage : PagesUsage} :
    freeCount usage = 0 ↔ ∀ k < maxNumPages, usage k = true := by
  simp [freeCount, Finset.filter_eq_empty_iff]

/-- Taking a free page. -/
theorem freeCount_markPages {usage : PagesUsage} {k : Nat} (hk : k < maxNumPages) (hfree : usage k = false) :
    freeCount usage = freeCount (markPages usage k 1 true) + 1 := by
  have hmem : k ∈ (Finset.range maxNumPages).filter fun l => usage l = false :=
    Finset.mem_filter.2 ⟨Finset.mem_range.2 hk, hfree⟩
  have herase : (Finset.range maxNumPages).filter (fun l => markPages usage k 1 true l = false) =
      ((Finset.range maxNumPages).filter fun l => usage l = false).erase k := by
    ext l
    rw [Finset.mem_erase, Finset.mem_filter, Finset.mem_filter]
    by_cases hlk : l = k
    · simp [hlk, markPages]
    · have hsame : markPages usage k 1 true l = usage l := if_neg (by omega)
      simp [hlk, hsame]
  rw [freeCount, freeCount, herase, Finset.card_erase_add_one hmem]

/-- The search for one page looks at all of them. -/
theorem scanFreePages_one_eq_none {usage : PagesUsage} :
    ∀ {left i : Nat}, scanFreePages usage 1 left i 0 = none → ∀ k, i ≤ k → k < i + left → usage k = true := by
  intro left
  induction left with
  | zero =>
      intro i _ k h₁ h₂
      omega
  | succ left ih =>
      intro i h k h₁ h₂
      simp only [scanFreePages, Nat.zero_add, if_true] at h
      split_ifs at h with hused
      rcases Nat.eq_or_lt_of_le h₁ with rfl | hlt
      · simpa using hused
      · exact ih h k hlt (by omega)

/-- `get_free_pages` for one page fails exactly when none is free. -/
theorem getFreePages_one_cases {usage usage' : PagesUsage} {p : Nat} (h : getFreePages usage 0 = (p, usage')) :
    (p = 0 ∧ freeCount usage = 0) ∨ (p ≠ 0 ∧ freeCount usage = freeCount usage' + 1) := by
  by_cases hp : p = 0
  · refine Or.inl ⟨hp, freeCount_eq_zero.2 fun k hk => ?_⟩
    rw [getFreePages, findFreePages, numOfOrder_zero, if_neg Nat.one_ne_zero] at h
    cases hscan : scanFreePages usage 1 maxNumPages 0 0 with
    | none => exact scanFreePages_one_eq_none hscan k (Nat.zero_le k) (by omega)
    | some last =>
        rw [hscan] at h
        have hlast : pagePoolStart + pageSize * (last + 1 - 1) = p := congrArg Prod.fst h
        exact absurd (hlast.trans hp) (pagePool_ne_zero _)
  · obtain ⟨k, -, hk, hfree, rfl⟩ := getFreePages_one h hp
    exact Or.inr ⟨hp, freeCount_markPages hk hfree⟩

theorem getZeroedPages_one_cases {m m' : Mem} {usage usage' : PagesUsage} {p : Nat}
    (h : getZeroedPages 0 m usage = (p, m', usage')) :
    (p = 0 ∧ freeCount usage = 0) ∨ (p ≠ 0 ∧ freeCount usage = freeCount usage' + 1) := by
  rcases hget : getFreePages usage 0 with ⟨q, u₁⟩
  simp only [getZeroedPages, hget] at h
  rcases getFreePages_one_cases hget with ⟨hq, hcount⟩ | ⟨hq, hcount⟩
  · rw [if_neg (not_not.2 hq)] at h
    exact Or.inl ⟨(congrArg Prod.fst h).symm, hcount⟩
  · rw [if_pos hq] at h
    have hp : q = p := congrArg Prod.fst h
    have husage : u₁ = usage' := congrArg (fun r => r.2.2) h
    rw [← hp, ← husage]
    exact Or.inr ⟨hq, hcount⟩

/-! ## The tables on the way -/

/-- The two tables below the directory on the way to `virtAddr`. -/
def tablePaths (virtAddr : Nat) : Finset (List (Fin 512)) :=
  {[getPgEntryIndex virtAddr 30], [getPgEntryIndex virtAddr 30, getPgEntryIndex virtAddr 21]}

/-- There is a table at the end of the path. -/
def hasTable (m : Mem) (d : Nat) (π : List (Fin 512)) : Bool :=
  decide (π.length < 3) && (descend (ptSlot true m) d π).isSome

/-- What the tables are paid from, and which of them are there. -/
abbrev PtSpends (d : Nat) (S : Finset (List (Fin 512))) (st : PtState PagesUsage) :
    Except Halt (PtState PagesUsage) → Prop :=
  Spends (fun st => freeCount st.alloc) (fun st => hasTable st.mem d) Halt.assertFailed S st

theorem hasTable_eq_true {m : Mem} {d : Nat} {π : List (Fin 512)} :
    hasTable m d π = true ↔ π.length < 3 ∧ ∃ t, descend (ptSlot true m) d π = some t := by
  rw [hasTable, Bool.and_eq_true, decide_eq_true_eq, Option.isSome_iff_exists]

/-- In an empty directory there is none. -/
theorem hasTable_empty {m : Mem} {d v : Nat} (hzero : ∀ x, InPage true d x → m x = 0)
    {π : List (Fin 512)} (hπ : π ∈ tablePaths v) : hasTable m d π = false := by
  have hnone : ∀ i ρ, descend (ptSlot true m) d (i :: ρ) = none := fun i ρ => by
    simp [descend, ptSlot_zero hzero]
  simp only [tablePaths, Finset.mem_insert, Finset.mem_singleton] at hπ
  rcases hπ with rfl | rfl <;> simp [hasTable, hnone]

section Setup

variable {d attrs phyAddr : Nat} {T : Set Nat} {st : PtState PagesUsage}

/-- The tables are those of before, and the new one. -/
theorem paid_of_table {m m' : Mem} {n n' : Nat} {π : List (Fin 512)} {i : Fin 512} (hlen : π.length < 2)
    (hcost : n = n' + missing (hasTable m d) {π ++ [i]}) (hnew : ∃ t, descend (ptSlot true m') d (π ++ [i]) = some t)
    (hsame : ∀ ρ : List (Fin 512), ρ.length < 3 → ρ ≠ π ++ [i] →
      descend (ptSlot true m') d ρ = descend (ptSlot true m) d ρ) :
    Paid n n' (hasTable m d) (hasTable m' d) {π ++ [i]} := by
  refine ⟨hcost, fun ρ => ?_⟩
  rw [hasTable_eq_true, hasTable_eq_true, Finset.mem_singleton]
  have hshort : (π ++ [i]).length < 3 := by
    rw [List.length_append, List.length_singleton]
    omega
  by_cases hρ : ρ = π ++ [i]
  · rw [hρ]
    exact iff_of_true ⟨hshort, hnew⟩ (Or.inr rfl)
  · simp only [hρ, or_false]
    exact and_congr_right fun hlt => by rw [hsame ρ hlt hρ]

/-- The entry of an upper level on the way. -/
theorem upperEntry_spends (h : PtWf true st.mem d T) (hT : T ⊆ {a | UsedFrame st.alloc a})
    (hattrs : AttrsOk attrs) (h64 : attrs < 2 ^ 64) (phyAddr : Nat) {t layer : Nat} (i : Fin 512)
    {π : List (Fin 512)} (hlayer : layer ≠ 12) (hπ : descend (ptSlot true st.mem) d π = some t)
    (hlen : π.length < 2) :
    PtSpends d {π ++ [i]} st
      (if load st.mem (entryAddr (linear true t) i) 8 = 0 then
        fillEntry (getZeroedPages 0) true phyAddr attrs layer (entryAddr (linear true t) i) st
      else .ok st) := by
  by_cases hload : load st.mem (entryAddr (linear true t) i) 8 = 0
  · -- the table is missing
    have hslot : ptSlot true st.mem t i = none := by simp [ptSlot, hload]
    have hmissing : missing (hasTable st.mem d) {π ++ [i]} = 1 := by
      have hno : hasTable st.mem d (π ++ [i]) = false := by
        rw [hasTable, descend_concat, hπ, Option.bind_some, hslot]
        exact Bool.and_false _
      rw [missing_singleton, hno]
      rfl
    rw [if_pos hload, fillEntry, if_pos hlayer]
    rcases hcall : getZeroedPages 0 st.mem st.alloc with ⟨p, m', usage'⟩
    rcases getZeroedPages_one_cases hcall with ⟨hp, hcount⟩ | ⟨hp, hcount⟩
    · simp only [if_pos hp]
      refine .short ?_
      rw [hmissing]
      omega
    · have hdvd := getZeroedPages_ok.aligned hcall hp
      obtain ⟨hlt, hphys⟩ := getZeroedPages_ok.lt hcall hp
      obtain ⟨hfresh, -⟩ := getZeroedPages_ok.fresh hcall hp
      obtain ⟨m'', hm'', -, hdesc, -, hsame⟩ := storeTable_spec (i := i) h hπ hlen hslot
        ⟨dvd_physical hdvd, hphys⟩ hlt hattrs h64 (fun hmem => hfresh (hT hmem))
        (getZeroedPages_ok.zero hcall hp) (getZeroedPages_ok.same hcall hp)
      have haligned : ¬p % pageSize ≠ 0 := not_not.2 (Nat.mod_eq_zero_of_dvd hdvd)
      simp only [if_neg hp, if_neg haligned, ← hm'']
      refine .paid _ (paid_of_table hlen ?_ ⟨_, hdesc⟩ fun ρ hρ hne => hsame ρ (by omega) hne)
      rw [hmissing]
      exact hcount
  · rw [if_neg hload]
    have hthere : ∃ t', descend (ptSlot true st.mem) d (π ++ [i]) = some t' := by
      refine ⟨getPhyAddr (load st.mem (entryAddr (linear true t) i) 8), ?_⟩
      simp [descend_concat, hπ, ptSlot, hload]
    refine .paid st (paid_of_table hlen ?_ hthere fun _ _ _ => rfl)
    have hhas : hasTable st.mem d (π ++ [i]) = true := by
      refine hasTable_eq_true.2 ⟨?_, hthere⟩
      rw [List.length_append, List.length_singleton]
      omega
    rw [missing_singleton, if_pos hhas, Nat.add_zero]

/-- The entry of the last level costs nothing. -/
theorem lastEntry_spends (h : PtWf true st.mem d T) (h64 : attrs < 2 ^ 64) (hphys : PhysOk phyAddr)
    {t : Nat} (i : Fin 512) {π : List (Fin 512)} (hπ : descend (ptSlot true st.mem) d π = some t)
    (hlen : π.length = 2) :
    PtSpends d ∅ st
      (if load st.mem (entryAddr (linear true t) i) 8 = 0 then
        fillEntry (getZeroedPages 0) true phyAddr attrs 12 (entryAddr (linear true t) i) st
      else .ok st) := by
  by_cases hload : load st.mem (entryAddr (linear true t) i) 8 = 0
  · rw [if_pos hload, fillEntry, if_neg (not_not.2 rfl)]
    refine .paid _ ⟨?_, fun ρ => ?_⟩
    · rw [missing_empty, Nat.add_zero]
    simp only [Finset.notMem_empty, or_false]
    rw [hasTable_eq_true, hasTable_eq_true]
    exact and_congr_right fun hlt => by rw [storeLeaf_short h hπ hlen (descriptor_lt hphys h64) hlt]
  · rw [if_neg hload]
    exact Spends.refl st

/-- `setup_pg_for_addr` pays for the tables that are missing. -/
theorem setupPgForAddr_spends (h : PtWf true st.mem d T) (hT : T ⊆ {a | UsedFrame st.alloc a})
    (hattrs : AttrsOk attrs) (h64 : attrs < 2 ^ 64) (hphys : PhysOk phyAddr) (virtAddr : Nat) :
    PtSpends d (tablePaths virtAddr) st
      (setupPgForAddr (getZeroedPages 0) true (linear true d) phyAddr virtAddr attrs st) := by
  have hpaths : tablePaths virtAddr = {[] ++ [getPgEntryIndex virtAddr 30]} ∪
      ({[getPgEntryIndex virtAddr 30] ++ [getPgEntryIndex virtAddr 21]} ∪ ∅) := by
    rw [Finset.union_empty]
    rfl
  simp only [setupPgForAddr, layers, setupPgLoop]
  rw [hpaths]
  refine (upperEntry_spends h hT hattrs h64 phyAddr (getPgEntryIndex virtAddr 30) (by decide) rfl
    (by decide)).seq fun st₁ hrun₁ => ?_
  -- the first level leads to a table now
  rcases upperEntry_spec (π := []) (t := d) getZeroedPages_ok h hT hattrs h64 phyAddr
    (getPgEntryIndex virtAddr 30) (show 30 ≠ 12 by decide) rfl (by decide) with
    herr | ⟨s₁, T₁, t₁, hok₁, hwf₁, hgrow₁, hdesc₁, ht₁, -⟩
  · rw [herr] at hrun₁
    cases hrun₁
  rw [hok₁] at hrun₁
  obtain rfl := Except.ok.inj hrun₁
  rw [ht₁]
  refine (upperEntry_spends hwf₁ hgrow₁.tables_given hattrs h64 phyAddr (getPgEntryIndex virtAddr 21)
    (by decide) hdesc₁ (by simp)).seq fun st₂ hrun₂ => ?_
  rcases upperEntry_spec getZeroedPages_ok hwf₁ hgrow₁.tables_given hattrs h64 phyAddr
    (getPgEntryIndex virtAddr 21) (show 21 ≠ 12 by decide) hdesc₁ (by simp) with
    herr | ⟨s₂, T₂, t₂, hok₂, hwf₂, hgrow₂, hdesc₂, ht₂, -⟩
  · rw [herr] at hrun₂
    cases hrun₂
  rw [hok₂] at hrun₂
  obtain rfl := Except.ok.inj hrun₂
  rw [ht₂]
  have hlast := lastEntry_spends hwf₂ h64 hphys (getPgEntryIndex virtAddr 12) hdesc₂ (by simp)
  generalize hrun : (if load s₂.mem _ 8 = 0 then _ else _ : Except Halt (PtState PagesUsage)) = result at hlast ⊢
  cases result with
  | ok st₃ => exact hlast
  | error e => exact hlast

end Setup

/-! ## A range of pages -/

/-- The tables below the directory on the way to the `r` pages from `virtAddr` on. -/
def rangePaths (virtAddr r : Nat) : Finset (List (Fin 512)) :=
  (Finset.range r).biUnion fun j => tablePaths (virtAddr + pageSize * j)

theorem mem_rangePaths {virtAddr r : Nat} {π : List (Fin 512)} :
    π ∈ rangePaths virtAddr r ↔ ∃ j < r, π ∈ tablePaths (virtAddr + pageSize * j) := by
  simp [rangePaths]

theorem tablePaths_congr {u v : Nat} (h : pathOf u = pathOf v) : tablePaths u = tablePaths v := by
  simp only [pathOf, layers, List.map_cons, List.map_nil, List.cons.injEq, and_true] at h
  obtain ⟨h₁, h₂, -⟩ := h
  rw [tablePaths, h₁, h₂, tablePaths]

/-- The first page and the others, as the loop counts their addresses. -/
theorem rangePaths_succ (virtAddr r : Nat) :
    rangePaths virtAddr (r + 1) = tablePaths virtAddr ∪ rangePaths (add64 virtAddr pageSize) r := by
  have hshift : ∀ j, tablePaths (add64 virtAddr pageSize + pageSize * j) =
      tablePaths (virtAddr + pageSize * (j + 1)) := fun j => tablePaths_congr <| by
    rw [pathOf_eq_iff]
    simp only [add64, pageSize]
    omega
  ext π
  rw [Finset.mem_union, mem_rangePaths, mem_rangePaths]
  simp only [hshift]
  constructor
  · rintro ⟨j, hj, hπ⟩
    cases j with
    | zero => exact Or.inl hπ
    | succ j => exact Or.inr ⟨j, by omega, hπ⟩
  · rintro (hπ | ⟨j, hj, hπ⟩)
    · exact ⟨0, by omega, hπ⟩
    · exact ⟨j + 1, by omega, hπ⟩

section Range

variable {d attrs : Nat}

/-- The loop of `add_single_map` with `r` pages to go. -/
theorem addSingleMapLoop_spends (hattrs : AttrsOk attrs) (h64 : attrs < 2 ^ 64) (endAddr : Nat) :
    ∀ {fuel r phy : Nat} (virt : Nat) {st : PtState PagesUsage} {T : Set Nat}, r ≤ fuel → r ≤ 2 ^ 27 →
      pageSize ∣ phy → phy + pageSize * r ≤ 2 ^ 48 → endAddr ≤ phy + pageSize * r →
      (0 < r → phy + pageSize * r < endAddr + pageSize) → PtWf true st.mem d T →
      T ⊆ {a | UsedFrame st.alloc a} →
      PtSpends d (rangePaths virt r) st
        (addSingleMapLoop (getZeroedPages 0) true (linear true d) endAddr attrs fuel phy virt st) := by
  intro fuel
  induction fuel with
  | zero =>
      intro r phy virt st T hfuel _ _ _ hend _ _ _
      obtain rfl : r = 0 := by omega
      rw [addSingleMapLoop, if_neg (by omega)]
      exact Spends.refl st
  | succ fuel ih =>
      intro r phy virt st T hfuel hr hdvd hlim hend hlast hwf hT
      cases r with
      | zero =>
          rw [addSingleMapLoop, if_neg (by omega)]
          exact Spends.refl st
      | succ r =>
          have hlast := hlast (Nat.succ_pos r)
          -- the last of the pages to go starts below the end
          have hlt : phy < endAddr := by
            simp only [pageSize] at hlast
            omega
          have hphys : PhysOk phy := ⟨hdvd, by simp only [pageSize] at hlim; omega⟩
          rw [addSingleMapLoop, if_pos hlt, rangePaths_succ]
          refine (setupPgForAddr_spends hwf hT hattrs h64 hphys virt).seq fun st₁ hrun => ?_
          rcases setupPgForAddr_spec getZeroedPages_ok hwf hT hattrs h64 hphys virt with
            herr | ⟨s₁, T₁, hok, hwf₁, hgrow₁, -⟩
          · rw [herr] at hrun
            cases hrun
          rw [hok] at hrun
          obtain rfl := Except.ok.inj hrun
          have hnext : add64 phy pageSize = phy + pageSize := by
            simp only [add64, pageSize] at *
            omega
          rw [hnext]
          simp only [pageSize] at hdvd hlim hend hlast ih ⊢
          exact ih (add64 virt 4096) (by omega) (by omega) (by omega) (by omega) (by omega)
            (fun _ => by omega) hwf₁ hgrow₁.tables_given

/-- `add_single_map` pays for the tables that are missing. -/
theorem addSingleMap_spends {w : Nat} {map : MemoryMap} (hm : MapOk w map) {st : PtState PagesUsage}
    {T : Set Nat} (hwf : PtWf true st.mem d T) (hT : T ⊆ {a | UsedFrame st.alloc a}) :
    PtSpends d (rangePaths map.virtAddr (numPages map.size)) st
      (addSingleMap (getZeroedPages 0) true (linear true d) map st) := by
  obtain ⟨hn₁, hn₂, hn₃⟩ := add_single_numPages map.size
  have hphy := hm.phy_le
  have hvirt := hm.virt_le
  have hge := hm.virt_ge
  have hend : add64 map.phyAddr map.size = map.phyAddr + map.size := add64_of_lt (by omega)
  have hr : numPages map.size ≤ 2 ^ 27 := by
    simp only [pageSize] at hvirt
    omega
  rw [addSingleMap, hend]
  exact addSingleMapLoop_spends hm.attrs_ok hm.attrs_lt (map.phyAddr + map.size) map.virtAddr hn₃ hr
    hm.phy_dvd hphy (by omega) (fun hpos => by have := hn₂ hpos; omega) hwf hT

end Range

end Mm
end ToutOS
