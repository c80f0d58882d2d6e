import ToutOS.Mm.PageTableSpec

/-!
# Mapping — `add_single_map` on any sequence of ranges

What `add_single_map` maps, page by page, is seen again by `walk_virt_addr`.

* `pathOf_eq_iff` — the three indices of an address are its page number modulo `2 ^ 27`;
* `addSingleMapLoop_spec` — the loop maps the pages of the range that are not mapped yet, in order,
  and runs to its end;
* `addSingleMap_lookup` — after any sequence of maps inside one window of `2 ^ 39` bytes.
-/

namespace ToutOS
namespace Mm

open Base

/-! ## Paths and page numbers -/

/-- `PAGE_ADDR`. -/
def pageAddr (addr : Nat) : Nat := addr / pageSize * pageSize

theorem pathOf_eq_iff {u v : Nat} :
    pathOf u = pathOf v ↔ u / 4096 % 2 ^ 27 = v / 4096 % 2 ^ 27 := by
  simp only [pathOf, layers, List.map_cons, List.map_nil, List.cons.injEq, and_true,
    getPgEntryIndex, Fin.mk.injEq, Nat.shiftRight_eq_div_pow]
  omega

/-- The walk reads what `lookup` finds. -/
theorem walkVirtAddr_eq {mmuOn : Bool} {m : Mem} {d v a : Nat} (h : lookup mmuOn m d v = some a) :
    walkVirtAddr mmuOn m (linear mmuOn d) v = a := by
  -- one level of the walk
  have hslot : ∀ {n n' : Nat} {i : Fin 512}, ptSlot mmuOn m n i = some n' →
      getPhyAddr (load m (entryAddr (linear mmuOn n) i) 8) = n' := by
    intro n n' i hn
    by_cases hzero : load m (entryAddr (linear mmuOn n) i) 8 = 0
    · simp [ptSlot, hzero] at hn
    · simpa [ptSlot, hzero] using hn
  simp only [lookup, pathOf, layers, List.map_cons, List.map_nil, descend, Option.bind_eq_some_iff,
    Option.some.injEq] at h
  obtain ⟨n₁, h₁, n₂, h₂, n₃, h₃, rfl⟩ := h
  simp only [walkVirtAddr, layers, List.foldl_cons, List.foldl_nil, hslot h₁, hslot h₂, hslot h₃]
  refine physical_linear mmuOn ?_
  rw [← hslot h₃]
  exact (physOk_getPhyAddr _).2.trans (by decide)

/-! ## A range of pages -/

/-- The number of pages that a range of `size` bytes takes. -/
def numPages (size : Nat) : Nat := (size + (pageSize - 1)) / pageSize

section Ranges

variable {κ : Type} {pgCallocFunc : Mem → κ → Nat × Mem × κ} {mmuOn : Bool} {given : κ → Set Nat}
  {d attrs : Nat}

/-- The loop of `add_single_map` with `r` pages to go. -/
theorem addSingleMapLoop_spec (hc : PgCallocOk pgCallocFunc mmuOn given) (hattrs : AttrsOk attrs)
    (h64 : attrs < 2 ^ 64) (endAddr : Nat) :
    ∀ {fuel r phy : Nat} (virt : Nat) {st : PtState κ} {T : Set Nat}, r ≤ fuel → r ≤ 2 ^ 27 →
      pageSize ∣ phy → phy + pageSize * r ≤ 2 ^ 48 → endAddr ≤ phy + pageSize * r →
      (0 < r → phy + pageSize * r < endAddr + pageSize) → PtWf mmuOn st.mem d T →
      T ⊆ given st.alloc →
      addSingleMapLoop pgCallocFunc mmuOn (linear mmuOn d) endAddr attrs fuel phy virt st =
          .error .assertFailed ∨
      ∃ st' T', addSingleMapLoop pgCallocFunc mmuOn (linear mmuOn d) endAddr attrs fuel phy virt st =
          .ok st' ∧ PtWf mmuOn st'.mem d T' ∧ TablesGrow mmuOn given d st st' T T' ∧
        (∀ v a, lookup mmuOn st.mem d v = some a → lookup mmuOn st'.mem d v = some a) ∧
        (∀ v j, j < r → pathOf v = pathOf (virt + pageSize * j) → lookup mmuOn st.mem d v = none →
          lookup mmuOn st'.mem d v = some (phy + pageSize * j)) ∧
        ∀ v, (∀ j < r, pathOf v ≠ pathOf (virt + pageSize * j)) →
          lookup mmuOn st'.mem d v = lookup mmuOn st.mem d v := by
  intro fuel
  induction fuel with
  | zero =>
      intro r phy virt st T hfuel _ _ _ hend _ hwf hT
      obtain rfl : r = 0 := by omega
      refine Or.inr ⟨st, T, ?_, hwf, TablesGrow.refl hT, fun _ _ h => h, by simp, by simp⟩
      simp only [addSingleMapLoop]
      rw [if_neg (by omega)]
  | succ fuel ih =>
      intro r phy virt st T hfuel hr hdvd hlim hend hlast hwf hT
      cases r with
      | zero =>
          refine Or.inr ⟨st, T, ?_, hwf, TablesGrow.refl hT, fun _ _ h => h, by simp, by simp⟩
          simp only [addSingleMapLoop]
          rw [if_neg (by omega)]
      | succ r =>
          have hlast := hlast (Nat.succ_pos r)
          simp only [pageSize] at hdvd hlim hend hlast ih ⊢
          have hlt : phy < endAddr := by omega
          simp only [addSingleMapLoop, hlt, if_true]
          rcases setupPgForAddr_spec hc hwf hT hattrs h64
            (show PhysOk phy from ⟨hdvd, by omega⟩) virt with herr | ⟨st₁, T₁, hok, hwf₁, hgrow₁, hlook⟩
          · exact Or.inl (by rw [herr]; rfl)
          rw [hok]
          have hnext : add64 phy pageSize = phy + 4096 := by
            simp only [add64, pageSize]
            omega
          simp only [Except.bind, hnext]
          -- the pages after the first one, seen from the next iteration
          have hshift : ∀ j, pathOf (add64 virt pageSize + 4096 * j) = pathOf (virt + 4096 * (j + 1)) := by
            intro j
            rw [pathOf_eq_iff]
            simp only [add64, pageSize]
            omega
          rcases @ih r (phy + 4096) (add64 virt pageSize) st₁ T₁ (by omega) (by omega) (by omega)
            (by omega) (by omega) (by omega) hwf₁ hgrow₁.tables_given with
            herr | ⟨st', T', hok', hwf', hgrow', hkeep, hmap, hother⟩
          · exact Or.inl herr
          refine Or.inr ⟨st', T', hok', hwf', hgrow₁.trans hgrow', ?_, ?_, ?_⟩
          · intro v a hv
            refine hkeep v a ?_
            rw [hlook]
            split_ifs <;> simp [hv]
          · intro v j hj hpath hv
            cases j with
            | zero =>
                refine hkeep v _ ?_
                rw [hlook, if_pos (by simpa using hpath), hv]
                simp
            | succ j =>
                -- the first page is a different one
                have hne : pathOf v ≠ pathOf virt := by
                  rw [hpath, ne_eq, pathOf_eq_iff]
                  omega
                have hv₁ : lookup mmuOn st₁.mem d v = none := by rw [hlook, if_neg hne, hv]
                have hj' := hmap v j (by omega) (by rw [hshift, hpath]) hv₁
                have hphy : phy + 4096 + 4096 * j = phy + 4096 * (j + 1) := by omega
                rw [hj', hphy]
          · intro v hv
            rw [hother v fun j hj => by
              rw [hshift]
              exact hv (j + 1) (by omega)]
            rw [hlook, if_neg (by simpa using hv 0 (Nat.succ_pos r))]

/-- A range of whole pages of the window `[w, w + 2 ^ 39)`, mapped to physical addresses below
`2 ^ 48` with attributes that stay clear of the address bits. -/
structure MapOk (w : Nat) (m : MemoryMap) : Prop where
  phy_dvd : pageSize ∣ m.phyAddr
  virt_dvd : pageSize ∣ m.virtAddr
  phy_le : m.phyAddr + pageSize * numPages m.size ≤ 2 ^ 48
  virt_ge : w ≤ m.virtAddr
  virt_le : m.virtAddr + pageSize * numPages m.size ≤ w + 2 ^ 39
  attrs_ok : AttrsOk m.attrs
  attrs_lt : m.attrs < 2 ^ 64

/-- The page of `v` belongs to the range of `m`. -/
def InRange (m : MemoryMap) (v : Nat) : Prop :=
  m.virtAddr ≤ pageAddr v ∧ pageAddr v < m.virtAddr + pageSize * numPages m.size

theorem add_single_numPages (size : Nat) :
    size ≤ pageSize * numPages size ∧ (0 < numPages size → pageSize * numPages size < size + pageSize) ∧
      numPages size ≤ size / pageSize + 1 := by
  simp only [numPages, pageSize]
  omega

/-- Inside the window the path of an address determines its page. -/
theorem pathOf_window {w v : Nat} {m : MemoryMap} (hm : MapOk w m) (hv₁ : w ≤ v)
    (hv₂ : v < w + 2 ^ 39) {j : Nat} (hj : j < numPages m.size) :
    pathOf v = pathOf (m.virtAddr + pageSize * j) ↔ pageAddr v = m.virtAddr + pageSize * j := by
  have h₁ := hm.virt_dvd
  have h₂ := hm.virt_ge
  have h₃ := hm.virt_le
  rw [pathOf_eq_iff]
  simp only [pageAddr, pageSize] at *
  omega

/-- `add_single_map` on a table: what is mapped stays, the pages of the range that are not mapped
yet become so, all others stay unmapped. -/
theorem addSingleMap_spec {w : Nat} (hc : PgCallocOk pgCallocFunc mmuOn given) {m : MemoryMap}
    (hm : MapOk w m) {st : PtState κ} {T : Set Nat} (hwf : PtWf mmuOn st.mem d T)
    (hT : T ⊆ given st.alloc) :
    addSingleMap pgCallocFunc mmuOn (linear mmuOn d) m st = .error .assertFailed ∨
    ∃ st' T', addSingleMap pgCallocFunc mmuOn (linear mmuOn d) m st = .ok st' ∧
      PtWf mmuOn st'.mem d T' ∧ TablesGrow mmuOn given d st st' T T' ∧
      ∀ v, w ≤ v → v < w + 2 ^ 39 →
        (∀ a, lookup mmuOn st.mem d v = some a → lookup mmuOn st'.mem d v = some a) ∧
        (InRange m v → lookup mmuOn st.mem d v = none →
          lookup mmuOn st'.mem d v = some (m.phyAddr + (pageAddr v - m.virtAddr))) ∧
        (¬InRange m v → lookup mmuOn st'.mem d v = lookup mmuOn st.mem d v) := by
  obtain ⟨hn₁, hn₂, hn₃⟩ := add_single_numPages m.size
  have hphy := hm.phy_le
  have hvirt := hm.virt_le
  have hge := hm.virt_ge
  have hdvd := hm.virt_dvd
  have hend : add64 m.phyAddr m.size = m.phyAddr + m.size := add64_of_lt (by omega)
  have hr : numPages m.size ≤ 2 ^ 27 := by
    simp only [pageSize] at hvirt
    omega
  rcases addSingleMapLoop_spec (d := d) hc hm.attrs_ok hm.attrs_lt (m.phyAddr + m.size)
    m.virtAddr hn₃ hr hm.phy_dvd hphy (by omega) (fun h => by have := hn₂ h; omega) hwf hT
    with herr | ⟨st', T', hok, hwf', hgrow, hkeep, hmap, hother⟩
  · exact Or.inl (by rw [addSingleMap, hend, herr])
  refine Or.inr ⟨st', T', by rw [addSingleMap, hend, hok], hwf', hgrow, fun v hv₁ hv₂ => ⟨hkeep v, ?_, ?_⟩⟩
  · rintro ⟨hin₁, hin₂⟩ hnone
    -- the page is number `j` of the range
    obtain ⟨j, hj⟩ : ∃ j, pageAddr v = m.virtAddr + pageSize * j := by
      refine ⟨(pageAddr v - m.virtAddr) / pageSize, ?_⟩
      simp only [pageAddr, pageSize] at *
      omega
    have hjr : j < numPages m.size := by
      simp only [pageSize] at *
      omega
    have := hmap v j hjr ((pathOf_window hm hv₁ hv₂ hjr).2 hj) hnone
    rw [this, hj, Nat.add_sub_cancel_left]
  · intro hout
    refine hother v fun j hj hpath => hout ?_
    have := (pathOf_window hm hv₁ hv₂ hj).1 hpath
    simp only [InRange, this, pageSize]
    omega

/-- Any number of maps leaves a table without shared pages, and the loops run to their end. -/
theorem addMaps_spec {w : Nat} (hc : PgCallocOk pgCallocFunc mmuOn given) :
    ∀ {ms : List MemoryMap} {st : PtState κ} {T : Set Nat}, (∀ m ∈ ms, MapOk w m) →
      PtWf mmuOn st.mem d T → T ⊆ given st.alloc →
      addMaps pgCallocFunc mmuOn (linear mmuOn d) ms st = .error .assertFailed ∨
      ∃ st' T', addMaps pgCallocFunc mmuOn (linear mmuOn d) ms st = .ok st' ∧
        PtWf mmuOn st'.mem d T' ∧ TablesGrow mmuOn given d st st' T T' := by
  intro ms
  induction ms with
  | nil =>
      intro st T _ hwf hT
      exact Or.inr ⟨st, T, rfl, hwf, TablesGrow.refl hT⟩
  | cons m ms ih =>
      intro st T hms hwf hT
      rcases addSingleMap_spec hc (hms m (by simp)) hwf hT with herr | ⟨st₁, T₁, hok, hwf₁, hgrow₁, -⟩
      · exact Or.inl (by simp only [addMaps, herr]; rfl)
      · simp only [addMaps, hok, Except.bind]
        rcases ih (fun m' hm' => hms m' (by simp [hm'])) hwf₁ hgrow₁.tables_given with
          herr | ⟨st', T', hok', hwf', hgrow'⟩
        · exact Or.inl herr
        · exact Or.inr ⟨st', T', hok', hwf', hgrow₁.trans hgrow'⟩

theorem addMaps_concat (p : Nat) (ms : List MemoryMap) (m : MemoryMap) (st : PtState κ) :
    addMaps pgCallocFunc mmuOn p (ms ++ [m]) st =
      (addMaps pgCallocFunc mmuOn p ms st).bind (addSingleMap pgCallocFunc mmuOn p m) := by
  induction ms generalizing st with
  | nil =>
      simp only [List.nil_append, addMaps, Except.bind]
      cases addSingleMap pgCallocFunc mmuOn p m st <;> rfl
  | cons m' ms ih =>
      simp only [List.cons_append, addMaps]
      cases addSingleMap pgCallocFunc mmuOn p m' st with
      | error e => rfl
      | ok st₁ => exact ih st₁

/-- All three entries on the way to the page of `virtAddr` are filled. -/
def Mapped (mmuOn : Bool) (m : Mem) (pgDir virtAddr : Nat) : Prop :=
  lookup mmuOn m (physical mmuOn pgDir) virtAddr ≠ none

/-- A table built from an empty directory by any sequence of maps inside one window: the next map
changes what `walk_virt_addr` returns for the pages of its range that were not mapped, and nothing
else.  The run is one in which no call of `pg_calloc_func` fails. -/
theorem addSingleMap_walk {w : Nat} (hc : PgCallocOk pgCallocFunc mmuOn given) {pgDir : Nat}
    (hdir : pageSize ∣ pgDir ∧ pgDir < 2 ^ 64) {st₀ : PtState κ}
    (hgiven : physical mmuOn pgDir ∈ given st₀.alloc)
    (hzero : ∀ x, pgDir ≤ x → x < pgDir + pageSize → st₀.mem x = 0) {ms : List MemoryMap}
    (hms : ∀ m ∈ ms, MapOk w m) {m : MemoryMap} (hm : MapOk w m)
    (hnofail : addMaps pgCallocFunc mmuOn pgDir (ms ++ [m]) st₀ ≠ .error .assertFailed) :
    ∃ st st', addMaps pgCallocFunc mmuOn pgDir ms st₀ = .ok st ∧
      addSingleMap pgCallocFunc mmuOn pgDir m st = .ok st' ∧
      ∀ v, w ≤ v → v < w + 2 ^ 39 →
        (Mapped mmuOn st.mem pgDir v → Mapped mmuOn st'.mem pgDir v ∧
          walkVirtAddr mmuOn st'.mem pgDir v = walkVirtAddr mmuOn st.mem pgDir v) ∧
        (¬Mapped mmuOn st.mem pgDir v → InRange m v → Mapped mmuOn st'.mem pgDir v ∧
          walkVirtAddr mmuOn st'.mem pgDir v = m.phyAddr + (pageAddr v - m.virtAddr)) ∧
        (¬Mapped mmuOn st.mem pgDir v → ¬InRange m v → ¬Mapped mmuOn st'.mem pgDir v) := by
  have hlin : linear mmuOn (physical mmuOn pgDir) = pgDir := linear_physical hdir.2
  have hdirPage : Pages {physical mmuOn pgDir} := by
    rintro n rfl
    exact ⟨dvd_physical hdir.1, physical_lt hdir.2⟩
  have hempty : PtWf mmuOn st₀.mem (physical mmuOn pgDir) {physical mmuOn pgDir} :=
    (ptWf_empty (Set.mem_singleton _) hdirPage fun x hx => hzero x (by simpa only [hlin] using hx.1)
      (by simpa only [hlin] using hx.2)).1
  rw [addMaps_concat] at hnofail
  rcases addMaps_spec hc hms hempty (by simpa using hgiven) with herr | ⟨st, T, hok, hwf, hgrow⟩
  · rw [hlin] at herr
    rw [herr] at hnofail
    exact absurd rfl hnofail
  rcases addSingleMap_spec hc hm hwf hgrow.tables_given with herr | ⟨st', T', hok', -, -, hlook⟩
  · rw [hlin] at hok herr
    rw [hok] at hnofail
    exact absurd herr hnofail
  rw [hlin] at hok hok'
  -- for a page that is mapped the walk finds what the tables say
  have hwalk : ∀ {m' : Mem} {v a : Nat}, lookup mmuOn m' (physical mmuOn pgDir) v = some a →
      walkVirtAddr mmuOn m' pgDir v = a := by
    intro m' v a h
    rw [← walkVirtAddr_eq h, hlin]
  refine ⟨st, st', hok, hok', fun v hv₁ hv₂ => ?_⟩
  obtain ⟨hkeep, hmap, hother⟩ := hlook v hv₁ hv₂
  simp only [Mapped, ne_eq, not_not]
  refine ⟨fun hmapped => ?_, fun hnone hin => ?_, fun hnone hout => ?_⟩
  · obtain ⟨a, ha⟩ := Option.ne_none_iff_exists'.1 hmapped
    rw [hwalk ha, hwalk (hkeep a ha), hkeep a ha]
    simp
  · rw [hwalk (hmap hin hnone), hmap hin hnone]
    simp
  · rw [hother hout, hnone]

end Ranges

/-! ## The tables of the boot code -/

/-- The pages that are not available to `pg_calloc`: the directories, and what it has given away. -/
def bootGiven (pgMem : Nat) (dirs : Set Nat) (offset : { o : Nat // pageSize ∣ o }) : Set Nat :=
  fun n => n ∈ dirs ∨ (pageSize ∣ n ∧ pgMem ≤ n ∧ n < pgMem + offset.val)

/-- `pg_calloc` of `mm/mmu.c`, before the MMU is on. -/
theorem pgCalloc_ok (pgMem pageTableRamSize : Nat) (dirs : Set Nat) (hmem : pageSize ∣ pgMem)
    (hend : pgMem + pageTableRamSize ≤ 2 ^ 48)
    (hdirs : ∀ n ∈ dirs, n < pgMem ∨ pgMem + pageTableRamSize ≤ n) :
    PgCallocOk (pgCalloc pgMem pageTableRamSize) false (bootGiven pgMem dirs) := by
  -- a call that does not return null hands out the page at `offset`
  have hcall : ∀ {m k p m' k'}, pgCalloc pgMem pageTableRamSize m k = (p, m', k') → p ≠ 0 →
      p = pgMem + k.val ∧ k.val + pageSize < pageTableRamSize ∧ m' = fill m p pageSize 0 ∧
        k'.val = k.val + pageSize := by
    intro m k p m' k' h hp
    unfold pgCalloc at h
    split_ifs at h with hfull
    · simp only [Prod.mk.injEq] at h
      exact absurd h.1.symm hp
    · simp only [Prod.mk.injEq] at h
      obtain ⟨rfl, rfl, rfl⟩ := h
      exact ⟨rfl, by omega, rfl, rfl⟩
  refine ⟨?_, ?_, ?_, ?_, ?_⟩
  · intro m k p m' k' h hp
    obtain ⟨rfl, -, -, -⟩ := hcall h hp
    exact Nat.dvd_add hmem k.property
  · intro m k p m' k' h hp
    obtain ⟨rfl, hlt, -, -⟩ := hcall h hp
    simp only [physical, Bool.false_eq_true, if_false]
    omega
  · intro m k p m' k' h hp
    obtain ⟨rfl, hlt, -, hk'⟩ := hcall h hp
    simp only [physical, Bool.false_eq_true, if_false]
    have hdvd := k.property
    constructor
    · rintro (hin | ⟨-, -, hin⟩)
      · have := hdirs _ hin
        omega
      · omega
    · ext n
      simp only [Set.mem_insert_iff]
      change (n ∈ dirs ∨ _) ↔ (n = _ ∨ n ∈ dirs ∨ _)
      simp only [pageSize] at *
      constructor
      · rintro (hin | ⟨hn, hge, hle⟩)
        · exact Or.inr (Or.inl hin)
        · by_cases hnew : n = pgMem + k.val
          · exact Or.inl hnew
          · exact Or.inr (Or.inr ⟨hn, hge, by omega⟩)
      · rintro (hnew | hin | ⟨hn, hge, hle⟩)
        · exact Or.inr ⟨by omega, by omega, by omega⟩
        · exact Or.inl hin
        · exact Or.inr ⟨hn, hge, by omega⟩
  · intro m k p m' k' h hp x hx₁ hx₂
    obtain ⟨-, -, rfl, -⟩ := hcall h hp
    exact fill_apply_of_mem hx₁ hx₂
  · intro m k p m' k' h hp x hx
    obtain ⟨-, -, rfl, -⟩ := hcall h hp
    rcases hx with hx | hx
    · exact fill_apply_of_lt hx
    · exact fill_apply_of_ge hx

theorem attrsOk_of_lt {attrs : Nat} (h : attrs < 2 ^ 12) : AttrsOk attrs := fun i hi _ =>
  Nat.testBit_lt_two_pow (h.trans_le (Nat.pow_le_pow_right (by decide) hi))

/-- Nothing given away, all memory zero. -/
def bootState : PtState { o : Nat // pageSize ∣ o } :=
  { mem := fun _ => 0, alloc := ⟨0, Nat.dvd_zero _⟩ }

def kernelImageMap : MemoryMap :=
  { phyAddr := 0x40000000, virtAddr := 0x40000000, size := 4097, attrs := 0x704 }

def overlappingMap : MemoryMap :=
  { phyAddr := 0x50000000, virtAddr := 0x40001000, size := 8192, attrs := 0x704 }

/-- Two overlapping ranges, entered into an empty directory with the MMU off. -/
theorem addSingleMap_walk_boot :
    ∃ st st',
      addMaps (pgCalloc 0x40200000 0x2000000) false 0x40100000 [kernelImageMap] bootState = .ok st ∧
      addSingleMap (pgCalloc 0x40200000 0x2000000) false 0x40100000 overlappingMap st = .ok st' ∧
      ∀ v, 0 ≤ v → v < 0 + 2 ^ 39 →
        (Mapped false st.mem 0x40100000 v → Mapped false st'.mem 0x40100000 v ∧
          walkVirtAddr false st'.mem 0x40100000 v = walkVirtAddr false st.mem 0x40100000 v) ∧
        (¬Mapped false st.mem 0x40100000 v → InRange overlappingMap v →
          Mapped false st'.mem 0x40100000 v ∧ walkVirtAddr false st'.mem 0x40100000 v =
            overlappingMap.phyAddr + (pageAddr v - overlappingMap.virtAddr)) ∧
        (¬Mapped false st.mem 0x40100000 v → ¬InRange overlappingMap v →
          ¬Mapped false st'.mem 0x40100000 v) := by
  have hok : (addMaps (pgCalloc 0x40200000 0x2000000) false 0x40100000
      ([kernelImageMap] ++ [overlappingMap]) bootState).isOk = true := by
    decide +kernel
  have hfirst : MapOk 0 kernelImageMap :=
    ⟨by decide, by decide, by decide, by decide, by decide, attrsOk_of_lt (by decide), by decide⟩
  have hsecond : MapOk 0 overlappingMap :=
    ⟨by decide, by decide, by decide, by decide, by decide, attrsOk_of_lt (by decide), by decide⟩
  have hcalloc := pgCalloc_ok 0x40200000 0x2000000 {0x40100000}
    (by decide) (by decide) (by
      rintro n rfl
      exact Or.inl (by decide))
  refine addSingleMap_walk hcalloc ⟨by decide, by decide⟩ (Or.inl rfl) (fun _ _ _ => rfl)
    (by simpa using hfirst) hsecond ?_
  intro herr
  rw [herr] at hok
  cases hok

end Mm
end ToutOS
