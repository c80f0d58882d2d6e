import Mathlib.Data.Nat.Bitwise
import ToutOS.Base.ByteMem

/-!
# PageTable — the three-level tables of `mm/page_table.c`

A page table is a tree of pages of 512 descriptors each.  The functions below read and write the
descriptors in memory through the pointers the kernel uses: with the MMU on these are the linear
addresses `__va(x)`, otherwise the physical addresses themselves.

* `setup_pg_for_addr` walks down the levels `30, 21, 12`, fills empty entries on the way with new
  tables from `pg_calloc_func`, and an empty last entry with the page to map.  A null pointer or an
  unaligned one from `pg_calloc_func` runs into `assert(0)`.
* `walk_virt_addr` reads the levels without looking whether an entry is empty.
* `add_single_map` maps page after page; its loop takes a bound on the number of iterations.
-/

namespace ToutOS
namespace Mm

open Base

/-! ## Addresses and descriptors -/

/-- `PAGE_SIZE`. -/
def pageSize : Nat := 4096

/-- `PAGE_OFFSET`. -/
def pageOffset : Nat := 0xFFFFFFC000000000

/-- `__va`. -/
def va (x : Nat) : Nat := add64 x pageOffset

/-- `__pa`. -/
def pa (x : Nat) : Nat := sub64 x pageOffset

/-- The levels, by the lowest address bit they are indexed with. -/
def layers : List Nat := [30, 21, 12]

/-- `get_pg_entry_index`. -/
def getPgEntryIndex (addr layer : Nat) : Fin 512 :=
  ⟨(addr >>> layer) % 512, Nat.mod_lt _ (by decide)⟩

/-- `get_phy_addr`. -/
def getPhyAddr (descriptor : Nat) : Nat := descriptor &&& (2 ^ 64 - pageSize) &&& (2 ^ 48 - 1)

/-- `PTE_TYPE_TABLE`. -/
def pteTypeTable : Nat := 3

/-- `PTE_BLOCK_AF`. -/
def pteBlockAf : Nat := 1 <<< 10

/-- The descriptor for the table or page at `addr`. -/
def descriptor (addr attrs : Nat) : Nat := addr ||| attrs ||| pteTypeTable ||| pteBlockAf

/-- Why the code does not go on. -/
inductive Halt
  /-- The assertions in `setup_pg_for_addr` and `user_test`. -/
  | assertFailed
  /-- The assertion in `free_pages`. -/
  | freeOfUnused
  /-- A data abort at EL1: `do_el1_sync` panics. -/
  | kernelPanic
  /-- In the model only: a loop has used up its iterations. -/
  | outOfFuel
  deriving DecidableEq, Repr

section Tables

variable {κ : Type}

/-- Memory, and the state of `pg_calloc_func`. -/
structure PtState (κ : Type) where
  mem : Mem
  alloc : κ

/-- The pointer through which the kernel reaches the physical address `x`. -/
def linear (mmuOn : Bool) (x : Nat) : Nat := if mmuOn then va x else x

/-- The physical address behind a pointer of the kernel. -/
def physical (mmuOn : Bool) (p : Nat) : Nat := if mmuOn then pa p else p

/-- The address of a descriptor in the table at the pointer `table`. -/
def entryAddr (table : Nat) (index : Fin 512) : Nat := table + 8 * index.val

/-- What `setup_pg_for_addr` does to an entry that is zero. -/
def fillEntry (pgCallocFunc : Mem → κ → Nat × Mem × κ) (mmuOn : Bool) (phyAddr attrs layer entry : Nat)
    (st : PtState κ) : Except Halt (PtState κ) :=
  if layer ≠ 12 then
    let (newPt, mem, alloc) := pgCallocFunc st.mem st.alloc
    if newPt = 0 then .error .assertFailed
    else if newPt % pageSize ≠ 0 then .error .assertFailed
    else
      .ok { mem := store mem entry 8 (descriptor (physical mmuOn newPt) attrs), alloc := alloc }
  else .ok { st with mem := store st.mem entry 8 (descriptor phyAddr attrs) }

/-- The loop of `setup_pg_for_addr` over the remaining levels, at the table `table`. -/
def setupPgLoop (pgCallocFunc : Mem → κ → Nat × Mem × κ) (mmuOn : Bool)
    (phyAddr virtAddr attrs : Nat) : List Nat → Nat → PtState κ → Except Halt (PtState κ)
  | [], _, st => .ok st
  | layer :: rest, table, st =>
      let entry := entryAddr table (getPgEntryIndex virtAddr layer)
      (if load st.mem entry 8 = 0 then fillEntry pgCallocFunc mmuOn phyAddr attrs layer entry st
        else .ok st).bind fun st =>
          setupPgLoop pgCallocFunc mmuOn phyAddr virtAddr attrs rest
            (linear mmuOn (getPhyAddr (load st.mem entry 8))) st

/-- `setup_pg_for_addr`. -/
def setupPgForAddr (pgCallocFunc : Mem → κ → Nat × Mem × κ) (mmuOn : Bool)
    (pgDir phyAddr virtAddr attrs : Nat) (st : PtState κ) : Except Halt (PtState κ) :=
  setupPgLoop pgCallocFunc mmuOn phyAddr virtAddr attrs layers pgDir st

/-- `walk_virt_addr`. -/
def walkVirtAddr (mmuOn : Bool) (m : Mem) (pgDir virtAddr : Nat) : Nat :=
  let last := layers.foldl (fun table layer =>
    linear mmuOn (getPhyAddr (load m (entryAddr table (getPgEntryIndex virtAddr layer)) 8))) pgDir
  physical mmuOn last

/-- `struct memory_map`. -/
structure MemoryMap where
  phyAddr : Nat
  virtAddr : Nat
  size : Nat
  attrs : Nat
  deriving DecidableEq, Repr

/-- The loop of `add_single_map`. -/
def addSingleMapLoop (pgCallocFunc : Mem → κ → Nat × Mem × κ) (mmuOn : Bool)
    (pgDirStart endAddr attrs : Nat) : Nat → Nat → Nat → PtState κ → Except Halt (PtState κ)
  | 0, phyAddr, _, st => if phyAddr < endAddr then .error .outOfFuel else .ok st
  | fuel + 1, phyAddr, virtAddr, st =>
      if phyAddr < endAddr then
        (setupPgForAddr pgCallocFunc mmuOn pgDirStart phyAddr virtAddr attrs st).bind fun st =>
          addSingleMapLoop pgCallocFunc mmuOn pgDirStart endAddr attrs fuel
            (add64 phyAddr pageSize) (add64 virtAddr pageSize) st
      else .ok st

/-- `add_single_map`. -/
def addSingleMap (pgCallocFunc : Mem → κ → Nat × Mem × κ) (mmuOn : Bool) (pgDirStart : Nat)
    (m : MemoryMap) (st : PtState κ) : Except Halt (PtState κ) :=
  addSingleMapLoop pgCallocFunc mmuOn pgDirStart (add64 m.phyAddr m.size) m.attrs
    (m.size / pageSize + 1) m.phyAddr m.virtAddr st

/-- The maps of `ms`, one after the other. -/
def addMaps (pgCallocFunc : Mem → κ → Nat × Mem × κ) (mmuOn : Bool) (pgDirStart : Nat) :
    List MemoryMap → PtState κ → Except Halt (PtState κ)
  | [], st => .ok st
  | m :: ms, st =>
      (addSingleMap pgCallocFunc mmuOn pgDirStart m st).bind fun st =>
        addMaps pgCallocFunc mmuOn pgDirStart ms st

/-- `pg_calloc` of `mm/mmu.c` with its static variable `offset`, a multiple of the page size; the
pages come from the `PAGE_TABLE_RAM_SIZE` bytes that the linker script sets aside at `pg_mem`. -/
def pgCalloc (pgMem pageTableRamSize : Nat) (m : Mem) (offset : { o : Nat // pageSize ∣ o }) :
    Nat × Mem × { o : Nat // pageSize ∣ o } :=
  if pageTableRamSize ≤ offset.val + pageSize then (0, m, offset)
  else
    (pgMem + offset.val, fill m (pgMem + offset.val) pageSize 0,
      ⟨offset.val + pageSize, Nat.dvd_add offset.property (Nat.dvd_refl _)⟩)

end Tables

/-! ## Descriptors -/

/-- `attrs` stays clear of the address bits. -/
def AttrsOk (attrs : Nat) : Prop := ∀ i, 12 ≤ i → i < 48 → attrs.testBit i = false

/-- A physical address that fits into a descriptor. -/
def PhysOk (addr : Nat) : Prop := pageSize ∣ addr ∧ addr < 2 ^ 48

theorem testBit_getPhyAddr (d i : Nat) :
    (getPhyAddr d).testBit i = (d.testBit i && decide (12 ≤ i ∧ i < 48)) := by
  have hmask : 2 ^ 64 - pageSize = (2 ^ 52 - 1) <<< 12 := by decide
  rw [getPhyAddr, hmask, Nat.testBit_and, Nat.testBit_and, Nat.testBit_shiftLeft,
    Nat.testBit_two_pow_sub_one, Nat.testBit_two_pow_sub_one]
  by_cases h₁ : 12 ≤ i <;> by_cases h₂ : i < 48
  · simp [h₁, h₂]
    omega
  · simp [h₂]
  · simp [h₁]
  · simp [h₁, h₂]

theorem PhysOk.testBit_eq_false {addr i : Nat} (h : PhysOk addr) (hi : ¬(12 ≤ i ∧ i < 48)) :
    addr.testBit i = false := by
  obtain ⟨⟨k, rfl⟩, hlt⟩ := h
  by_cases h₁ : 12 ≤ i
  · exact Nat.testBit_lt_two_pow (hlt.trans_le (Nat.pow_le_pow_right (by decide) (by omega)))
  · have : pageSize * k = k <<< 12 := by rw [Nat.shiftLeft_eq, Nat.mul_comm, pageSize]
    rw [this, Nat.testBit_shiftLeft]
    simp [h₁]

/-- The address comes back out of a descriptor. -/
theorem getPhyAddr_descriptor {addr attrs : Nat} (haddr : PhysOk addr) (hattrs : AttrsOk attrs) :
    getPhyAddr (descriptor addr attrs) = addr := by
  refine Nat.eq_of_testBit_eq fun i => ?_
  rw [testBit_getPhyAddr]
  by_cases hi : 12 ≤ i ∧ i < 48
  · have h₃ : pteTypeTable.testBit i = false :=
      Nat.testBit_lt_two_pow
        ((show pteTypeTable < 2 ^ 12 by decide).trans_le (Nat.pow_le_pow_right (by decide) hi.1))
    have h₄ : pteBlockAf.testBit i = false :=
      Nat.testBit_lt_two_pow
        ((show pteBlockAf < 2 ^ 12 by decide).trans_le (Nat.pow_le_pow_right (by decide) hi.1))
    simp [descriptor, hi, hattrs i hi.1 hi.2, h₃, h₄]
  · simp [hi, haddr.testBit_eq_false hi]

theorem descriptor_ne_zero (addr attrs : Nat) : descriptor addr attrs ≠ 0 := by
  intro h
  have hbit : (descriptor addr attrs).testBit 0 = true := by
    simp [descriptor, pteTypeTable]
  simp [h] at hbit

theorem descriptor_lt {addr attrs : Nat} (haddr : PhysOk addr) (hattrs : attrs < 2 ^ 64) :
    descriptor addr attrs < 2 ^ 64 := by
  have h₁ : addr < 2 ^ 64 := haddr.2.trans (by decide)
  have h₂ : pteTypeTable < 2 ^ 64 := by decide
  have h₃ : pteBlockAf < 2 ^ 64 := by decide
  exact Nat.or_lt_two_pow (Nat.or_lt_two_pow (Nat.or_lt_two_pow h₁ hattrs) h₂) h₃

/-- An address read from a descriptor is page-aligned and below `2 ^ 48`. -/
theorem physOk_getPhyAddr (d : Nat) : PhysOk (getPhyAddr d) := by
  constructor
  · have h : getPhyAddr d = (getPhyAddr d >>> 12) <<< 12 := by
      refine Nat.eq_of_testBit_eq fun i => ?_
      rw [Nat.testBit_shiftLeft, Nat.testBit_shiftRight, testBit_getPhyAddr]
      by_cases hi : 12 ≤ i
      · have : 12 + (i - 12) = i := by omega
        simp [hi, this, testBit_getPhyAddr]
      · simp [hi]
    rw [h, Nat.shiftLeft_eq]
    exact Nat.dvd_mul_left _ _
  · exact Nat.and_lt_two_pow _ (by decide)

/-! ## Pointers -/

theorem physical_linear (mmuOn : Bool) {x : Nat} (h : x < 2 ^ 64) :
    physical mmuOn (linear mmuOn x) = x := by
  cases mmuOn
  · rfl
  · simp only [physical, linear, if_true, pa, va, add64, sub64, pageOffset]
    omega

theorem linear_physical {mmuOn : Bool} {p : Nat} (h : p < 2 ^ 64) :
    linear mmuOn (physical mmuOn p) = p := by
  cases mmuOn
  · rfl
  · simp only [physical, linear, if_true, pa, va, add64, sub64, pageOffset]
    omega

theorem linear_lt {mmuOn : Bool} {x : Nat} (h : x < 2 ^ 64) : linear mmuOn x < 2 ^ 64 := by
  cases mmuOn
  · simpa only [linear, Bool.false_eq_true, if_false] using h
  · simp only [linear, if_true, va, add64]
    omega

theorem physical_lt {mmuOn : Bool} {p : Nat} (h : p < 2 ^ 64) : physical mmuOn p < 2 ^ 64 := by
  cases mmuOn
  · simpa only [physical, Bool.false_eq_true, if_false] using h
  · simp only [physical, if_true, pa, sub64]
    omega

theorem dvd_linear (mmuOn : Bool) {x : Nat} (h : pageSize ∣ x) : pageSize ∣ linear mmuOn x := by
  simp only [pageSize] at h ⊢
  cases mmuOn
  · exact h
  · simp only [linear, if_true, va, add64, pageOffset]
    omega

theorem dvd_physical {mmuOn : Bool} {p : Nat} (h : pageSize ∣ p) : pageSize ∣ physical mmuOn p := by
  simp only [pageSize] at h ⊢
  cases mmuOn
  · exact h
  · simp only [physical, if_true, pa, sub64, pageOffset]
    omega

theorem linear_inj (mmuOn : Bool) {x y : Nat} (hx : x < 2 ^ 64) (hy : y < 2 ^ 64)
    (h : linear mmuOn x = linear mmuOn y) : x = y := by
  rw [← physical_linear mmuOn hx, h, physical_linear mmuOn hy]

end Mm
end ToutOS
