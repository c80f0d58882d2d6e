import Mathlib.Data.List.Nodup
import Mathlib.Data.List.Pairwise
import ToutOS.Base.Ownership
import ToutOS.Kernel.Process

/-!
# Space — what holds of an address space

The pages of the pool that an address space owns are those of its page table, those of its
`pages_block`s, and those that only the page table knows of.

* `VmState.world`, `pageOf` — memory as regions: every byte lies in a physical page, and the free
  regions are the pages of the pool that are not in use.
* `Layout` — where the vmas lie.  It does not depend on their `pages_block`s.
* `SpaceOk` — the invariant of one address space; `footprint` — the pages it owns.
* `spaceOk_frame` — both depend on memory only through the pages of the page table.
-/

namespace ToutOS
namespace Kernel

open Base Mm

/-! ## Regions -/

/-- The physical page of an address of the kernel. -/
def pageOf (x : Nat) : Nat := pa (pageAddr x)

/-- A physical page. -/
def IsPage (n : Nat) : Prop := pageSize ∣ n ∧ n < 2 ^ 64

/-- `a` is the physical address of a page of the pool that is not in use. -/
def FreeFrame (usage : PagesUsage) (a : Nat) : Prop :=
  ∃ k, k < maxNumPages ∧ usage k = false ∧ a = frame k

def VmState.world {κ : Type} (vm : VmState κ) : World Nat UInt8 Nat :=
  { mem := vm.mem, free := FreeFrame vm.pagesUsage }

theorem pageOf_of_inPage {n x : Nat} (hn : IsPage n) (h : InPage true n x) : pageOf x = n := by
  have hdvd := dvd_linear true hn.1
  have haddr : pageAddr x = linear true n := by
    simp only [InPage, pageAddr, pageSize] at *
    omega
  have := physical_linear true hn.2
  rw [pageOf, haddr]
  simpa only [physical, if_true] using this

theorem isPage_frame {k : Nat} (h : k < maxNumPages) : IsPage (frame k) :=
  ⟨(physOk_frame h).1, (physOk_frame h).2.trans (by decide)⟩

theorem inPool_frame {k : Nat} : InPool (frame k) ↔ k < maxNumPages := by
  simp only [InPool, frame, pageSize, maxNumPages]
  omega

/-- A page of the pool has a number. -/
theorem exists_frame {a : Nat} (hpool : InPool a) (hdvd : pageSize ∣ a) :
    ∃ k, k < maxNumPages ∧ a = frame k := by
  refine ⟨(a - frame 0) / pageSize, ?_, ?_⟩ <;>
  · simp only [InPool, frame, pageSize, maxNumPages] at *
    omega

theorem freeFrame_frame {usage : PagesUsage} {k : Nat} (h : k < maxNumPages) :
    FreeFrame usage (frame k) ↔ usage k = false := by
  constructor
  · rintro ⟨l, -, hfree, heq⟩
    rwa [frame_inj heq]
  · intro hfree
    exact ⟨k, h, hfree, rfl⟩

theorem FreeFrame.inPool {usage : PagesUsage} {a : Nat} (h : FreeFrame usage a) : InPool a := by
  obtain ⟨k, hk, -, rfl⟩ := h
  exact inPool_frame.2 hk

theorem FreeFrame.isPage {usage : PagesUsage} {a : Nat} (h : FreeFrame usage a) : IsPage a := by
  obtain ⟨k, hk, -, rfl⟩ := h
  exact isPage_frame hk

theorem not_freeFrame_of_usedFrame {usage : PagesUsage} {a : Nat} (h : UsedFrame usage a) :
    ¬FreeFrame usage a := by
  obtain ⟨k, hk, hused, rfl⟩ := h
  simp [freeFrame_frame hk, hused]

theorem usedFrame_of_not_freeFrame {usage : PagesUsage} {a : Nat} (hpool : InPool a)
    (hdvd : pageSize ∣ a) (h : ¬FreeFrame usage a) : UsedFrame usage a := by
  obtain ⟨k, hk, rfl⟩ := exists_frame hpool hdvd
  rw [freeFrame_frame hk, Bool.not_eq_false] at h
  exact ⟨k, hk, h, rfl⟩

theorem inPool_usage {usage : PagesUsage} {k : Nat} (hk : k < maxNumPages)
    (h : ¬FreeFrame usage (frame k)) : usage k = true := by
  rwa [freeFrame_frame hk, Bool.not_eq_false] at h

theorem ne_zero_of_inPool {a : Nat} (h : InPool a) : va a ≠ 0 := by
  simp only [InPool, frame, pageSize, maxNumPages, va, add64, pageOffset] at *
  omega

/-! ## Vmas and their blocks -/

/-- The pages of a block. -/
def PagesBlock.frames (pb : PagesBlock) : List Nat :=
  (List.range (numOfOrder pb.order)).map fun j => pa pb.linearAddr + pageSize * j

/-- The block is a run of pages of the pool. -/
def PagesBlock.Valid (pb : PagesBlock) : Prop :=
  ∃ first, pb.linearAddr = pagePoolStart + pageSize * first ∧
    first + numOfOrder pb.order ≤ maxNumPages ∧ 0 < numOfOrder pb.order

/-- All blocks of a list of vmas. -/
def blocks (mmap : List VmArea) : List PagesBlock := mmap.flatMap fun vma => vma.pagesBlockList

/-- The pages of all blocks. -/
def blockFrames (mmap : List VmArea) : List Nat := (blocks mmap).flatMap PagesBlock.frames

/-- A vma without its blocks. -/
def VmArea.bare (vma : VmArea) : VmArea := { vma with self := 0, pagesBlockList := [] }

theorem pa_pagePool {k : Nat} (h : k < maxNumPages) : pa (pagePoolStart + pageSize * k) = frame k := by
  simpa only [physical, if_true] using physical_pagePool h

theorem PagesBlock.Valid.frames_eq {pb : PagesBlock} {first : Nat}
    (hlin : pb.linearAddr = pagePoolStart + pageSize * first)
    (hend : first + numOfOrder pb.order ≤ maxNumPages) (hpos : 0 < numOfOrder pb.order) :
    pb.frames = (List.range (numOfOrder pb.order)).map fun j => frame (first + j) := by
  have hpa : pa pb.linearAddr = frame first := by rw [hlin, pa_pagePool (by omega)]
  refine List.map_congr_left fun j _ => ?_
  rw [hpa]
  simp only [frame, pageSize]
  omega

theorem PagesBlock.Valid.mem_frames {pb : PagesBlock} (h : pb.Valid) {a : Nat} (ha : a ∈ pb.frames) :
    InPool a ∧ IsPage a := by
  obtain ⟨first, hlin, hend, hpos⟩ := h
  rw [frames_eq hlin hend hpos, List.mem_map] at ha
  obtain ⟨j, hj, rfl⟩ := ha
  have hlt : first + j < maxNumPages := by
    have := List.mem_range.1 hj
    omega
  exact ⟨inPool_frame.2 hlt, isPage_frame hlt⟩

/-- `find_vma` and the change of the vma it finds, seen in the list. -/
theorem findVma_split {mmap : List VmArea} {addr : Nat} {vma : VmArea}
    (h : findVma mmap addr = some vma) :
    vma.covers addr = true ∧ ∃ l₁ l₂, mmap = l₁ ++ vma :: l₂ ∧
      (∀ x ∈ l₁, x.covers addr = false) ∧ ∀ f, updateVma addr f mmap = l₁ ++ f vma :: l₂ := by
  unfold findVma at h
  induction mmap with
  | nil => simp at h
  | cons x mmap ih =>
      by_cases hx : x.covers addr = true
      · simp only [List.find?_cons, hx, Option.some.injEq] at h
        obtain rfl := h
        exact ⟨hx, [], mmap, rfl, by simp, fun f => by simp [updateVma, hx]⟩
      · simp only [List.find?_cons, hx] at h
        obtain ⟨hcovers, l₁, l₂, rfl, hl₁, hupdate⟩ := ih h
        refine ⟨hcovers, x :: l₁, l₂, rfl, ?_, fun f => by simp [updateVma, hx, hupdate]⟩
        intro y hy
        rcases List.mem_cons.1 hy with rfl | hy
        · simpa using hx
        · exact hl₁ y hy

theorem findVma_eq_none {mmap : List VmArea} {addr : Nat} :
    findVma mmap addr = none ↔ ∀ vma ∈ mmap, vma.covers addr = false := by
  simp [findVma, List.find?_eq_none]

theorem updateVma_of_none {mmap : List VmArea} {addr : Nat} (h : findVma mmap addr = none)
    (f : VmArea → VmArea) : updateVma addr f mmap = mmap := by
  rw [findVma_eq_none] at h
  induction mmap with
  | nil => rfl
  | cons x mmap ih =>
      have hx := h x (by simp)
      simp [updateVma, hx, ih fun y hy => h y (by simp [hy])]

/-- Adding a block to the vma of an address. -/
def appendBlock (pb : PagesBlock) (vma : VmArea) : VmArea :=
  { vma with pagesBlockList := vma.pagesBlockList ++ [pb] }

theorem blocks_appendBlock {mmap : List VmArea} {addr : Nat} {pb : PagesBlock}
    (h : findVma mmap addr ≠ none) :
    (blocks (updateVma addr (appendBlock pb) mmap)).Perm (pb :: blocks mmap) := by
  obtain ⟨vma, hvma⟩ := Option.ne_none_iff_exists'.1 h
  obtain ⟨-, l₁, l₂, rfl, -, hupdate⟩ := findVma_split hvma
  rw [hupdate]
  simp only [blocks, appendBlock, List.flatMap_append, List.flatMap_cons, List.append_assoc]
  refine List.Perm.trans ?_ List.perm_middle
  exact List.Perm.append_left _ (by simp)

/-- A change that keeps the place of a vma keeps the places of all. -/
theorem map_bare_updateVma {addr : Nat} {f : VmArea → VmArea} (hf : ∀ vma, (f vma).bare = vma.bare) :
    ∀ mmap, (updateVma addr f mmap).map VmArea.bare = mmap.map VmArea.bare
  | [] => rfl
  | x :: mmap => by
      by_cases hx : x.covers addr = true
      · simp [updateVma, hx, hf]
      · simp [updateVma, hx, map_bare_updateVma hf mmap]

theorem bare_mem {mmap mmap' : List VmArea} (h : mmap'.map VmArea.bare = mmap.map VmArea.bare)
    {x : VmArea} (hx : x ∈ mmap') : ∃ y ∈ mmap, y.bare = x.bare := by
  have hmem : x.bare ∈ mmap.map VmArea.bare := h ▸ List.mem_map_of_mem hx
  obtain ⟨y, hy, heq⟩ := List.mem_map.1 hmem
  exact ⟨y, hy, heq⟩

theorem covers_congr {x y : VmArea} (h : y.bare = x.bare) (p : Nat) : y.covers p = x.covers p := by
  have := congrArg (fun vma => VmArea.covers vma p) h
  exact this

theorem lma_congr {x y : VmArea} (h : y.bare = x.bare) : y.lma = x.lma := by
  have := congrArg VmArea.lma h
  exact this

theorem range_congr {x y : VmArea} (h : y.bare = x.bare) :
    y.vmStart = x.vmStart ∧ y.vmEnd = x.vmEnd := by
  have h₁ := congrArg VmArea.vmStart h
  have h₂ := congrArg VmArea.vmEnd h
  exact ⟨h₁, h₂⟩

theorem shared_congr {x y : VmArea} (h : y.bare = x.bare) : y.shared = x.shared := by
  have := congrArg VmArea.shared h
  exact this

/-- The vmas after a change to one of them. -/
theorem mem_updateVma {mmap : List VmArea} {addr : Nat} {f : VmArea → VmArea} {x : VmArea}
    (hx : x ∈ updateVma addr f mmap) :
    x ∈ mmap ∨ ∃ vma, findVma mmap addr = some vma ∧ x = f vma := by
  cases hfind : findVma mmap addr with
  | none =>
      rw [updateVma_of_none hfind] at hx
      exact Or.inl hx
  | some vma =>
      obtain ⟨-, l₁, l₂, rfl, -, hupdate⟩ := findVma_split hfind
      rw [hupdate] at hx
      simp only [List.mem_append, List.mem_cons] at hx ⊢
      rcases hx with hx | rfl | hx
      · exact Or.inl (Or.inl hx)
      · exact Or.inr ⟨vma, rfl, rfl⟩
      · exact Or.inl (Or.inr (Or.inr hx))

theorem findVma_mem {mmap : List VmArea} {addr : Nat} {vma : VmArea}
    (h : findVma mmap addr = some vma) : vma ∈ mmap ∧ vma.covers addr = true := by
  obtain ⟨hcov, l₁, l₂, rfl, -, -⟩ := findVma_split h
  exact ⟨by simp, hcov⟩

theorem mem_blockFrames {mmap : List VmArea} {vma : VmArea} {pb : PagesBlock} {a : Nat}
    (hvma : vma ∈ mmap) (hpb : pb ∈ vma.pagesBlockList) (ha : a ∈ pb.frames) :
    a ∈ blockFrames mmap :=
  List.mem_flatMap.2 ⟨pb, List.mem_flatMap.2 ⟨vma, hvma, hpb⟩, ha⟩

/-! ## Where the vmas lie -/

/-- `a` is a physical address of the user image or of the UART. -/
def InImage (a : Nat) : Prop :=
  (lmaUser ≤ a ∧ a < lmaUser + userSize) ∨ (uartBase ≤ a ∧ a < uartBase + pageSize)

/-- The physical page behind a page of a vma that is mapped as a whole. -/
def VmArea.target (vma : VmArea) (page : Nat) : Nat := vma.lma + (page - vma.vmStart)

theorem target_congr {x y : VmArea} (h : y.bare = x.bare) (p : Nat) : y.target p = x.target p := by
  have := congrArg (fun vma => VmArea.target vma p) h
  exact this

/-- The vma is the heap, or it lies outside of the addresses the heap may take. -/
def VmArea.InPlace (startBrk brk : Nat) (vma : VmArea) : Prop :=
  (vma.vmStart = startBrk ∧ vma.lma = noLma ∧ (vma.vmEnd = brk ∨ vma.vmEnd = startBrk)) ∨
    vma.vmEnd ≤ startBrk ∨ maxBrkAddr ≤ vma.vmStart

structure VmArea.Ok (startBrk brk : Nat) (vma : VmArea) : Prop where
  start_dvd : pageSize ∣ vma.vmStart
  start_pos : 0 < vma.vmStart
  start_le : vma.vmStart ≤ vma.vmEnd
  end_le : vma.vmEnd ≤ 2 ^ 39
  end_dvd : vma.lma ≠ noLma → pageSize ∣ vma.vmEnd
  lma_dvd : vma.lma ≠ noLma → pageSize ∣ vma.lma
  lma_le : vma.lma ≠ noLma → vma.lma + (vma.vmEnd - vma.vmStart) ≤ 2 ^ 48
  shared : vma.shared = true →
    vma.lma ≠ noLma ∧ ∀ p, vma.covers p = true → InImage (vma.target (pageAddr p))
  place : vma.InPlace startBrk brk

/-- Two vmas have no address in common. -/
def VmArea.Apart (x y : VmArea) : Prop := ∀ p, x.covers p = true → y.covers p = false

structure Layout (mm : MmStruct) : Prop where
  brk_dvd : pageSize ∣ mm.startBrk
  brk_pos : 0 < mm.startBrk
  brk_lt : mm.startBrk < maxBrkAddr
  brk_ge : mm.startBrk ≤ mm.brk
  brk_le : mm.brk ≤ maxBrkAddr
  vma : ∀ vma ∈ mm.mmap, vma.Ok mm.startBrk mm.brk
  apart : mm.mmap.Pairwise VmArea.Apart

theorem VmArea.Apart.symm {x y : VmArea} (h : x.Apart y) : y.Apart x := by
  intro p hy
  by_contra hx
  rw [h p (by simpa using hx)] at hy
  cases hy

/-- No shared vma holds the start of one that is not shared. -/
def SharedApart (mmap : List VmArea) : Prop :=
  ∀ x ∈ mmap, ∀ y ∈ mmap, x.shared = true → y.shared = false → x.covers y.vmStart = false

instance : Std.Symm VmArea.Apart := ⟨fun _ _ h => h.symm⟩

/-- At most one vma covers an address. -/
theorem Layout.unique {mm : MmStruct} (h : Layout mm) {x y : VmArea} (hx : x ∈ mm.mmap)
    (hy : y ∈ mm.mmap) {p : Nat} (hxp : x.covers p = true) (hyp : y.covers p = true) : x = y := by
  by_contra hne
  rw [h.apart.forall hx hy hne p hxp] at hyp
  cases hyp

/-- The layout is that of the vmas without their blocks. -/
theorem Layout.congr {mm : MmStruct} (h : Layout mm) {mmap : List VmArea}
    (hbare : mmap.map VmArea.bare = mm.mmap.map VmArea.bare) : Layout { mm with mmap := mmap } := by
  have hvma : ∀ x ∈ mm.mmap.map VmArea.bare, x.Ok mm.startBrk mm.brk := by
    intro x hx
    obtain ⟨y, hy, rfl⟩ := List.mem_map.1 hx
    obtain ⟨h₁, h₂, h₃, h₄, h₅, h₆, h₇, h₈, h₉⟩ := h.vma y hy
    exact ⟨h₁, h₂, h₃, h₄, h₅, h₆, h₇, h₈, h₉⟩
  have hapart : (mm.mmap.map VmArea.bare).Pairwise VmArea.Apart := List.pairwise_map.2 h.apart
  rw [← hbare] at hvma hapart
  refine ⟨h.brk_dvd, h.brk_pos, h.brk_lt, h.brk_ge, h.brk_le, ?_,
    (List.pairwise_map.1 hapart).imp id⟩
  intro x hx
  obtain ⟨h₁, h₂, h₃, h₄, h₅, h₆, h₇, h₈, h₉⟩ := hvma _ (List.mem_map_of_mem hx)
  exact ⟨h₁, h₂, h₃, h₄, h₅, h₆, h₇, h₈, h₉⟩

/-! ## Address spaces -/

/-- The pages of the page table with root `d`. -/
def tableFrames (m : Mem) (d : Nat) : Set Nat := fun n =>
  ∃ π : List (Fin 512), π.length < 3 ∧ descend (ptSlot true m) d π = some n

/-- What an address space owns: its tables, its blocks, and pages of the pool that are mapped. -/
def footprint (m : Mem) (d : Nat) (mmap : List VmArea) : Set Nat := fun a =>
  a ∈ tableFrames m d ∨ a ∈ blockFrames mmap ∨ InPool a ∧ ∃ v, lookup true m d v = some a

/-- Every page is owned once. -/
structure Holdings (m : Mem) (d : Nat) (mmap : List VmArea) : Prop where
  tables : PtWf true m d (tableFrames m d)
  tables_pool : ∀ n ∈ tableFrames m d, InPool n
  blocks_valid : ∀ pb ∈ blocks mmap, pb.Valid
  blocks_nodup : (blockFrames mmap).Nodup
  tables_blocks : ∀ n ∈ tableFrames m d, n ∉ blockFrames mmap
  tables_mapped : ∀ v a, lookup true m d v = some a → a ∉ tableFrames m d
  mapped_inj : ∀ v v' a, lookup true m d v = some a → lookup true m d v' = some a → InPool a →
    pathOf v = pathOf v'

/-- The page table maps what the vmas say. -/
structure Maps (m : Mem) (d : Nat) (mm : MmStruct) : Prop where
  place : ∀ v a, lookup true m d v = some a → InPool a ∨ InImage a
  covered : ∀ v a, v < 2 ^ 39 → lookup true m d v = some a →
    ∃ vma ∈ mm.mmap, vma.covers (pageAddr v) = true
  static : ∀ vma ∈ mm.mmap, vma.lma ≠ noLma → ∀ v, v < 2 ^ 39 → vma.covers (pageAddr v) = true →
    lookup true m d v = some (vma.target (pageAddr v))
  demand : ∀ vma ∈ mm.mmap, vma.lma = noLma → ∀ v a, v < 2 ^ 39 → vma.covers (pageAddr v) = true →
    lookup true m d v = some a → InPool a
  heap : ∀ v a, mm.startBrk ≤ v → v < maxBrkAddr → lookup true m d v = some a →
    ∀ vma ∈ mm.mmap, ∀ pb ∈ vma.pagesBlockList, a ∈ pb.frames →
      vma.covers mm.startBrk = true ∧ pb.userVirtAddr = pageAddr v

structure SpaceOk (m : Mem) (d : Nat) (mm : MmStruct) : Prop where
  layout : Layout mm
  holdings : Holdings m d mm.mmap
  maps : Maps m d mm

section Frame

variable {m m' : Mem} {d : Nat} {mmap : List VmArea} {mm : MmStruct}

theorem root_mem_tableFrames (m : Mem) (d : Nat) : d ∈ tableFrames m d := ⟨[], by simp, rfl⟩

/-- The tables are among the pages `T` of any description. -/
theorem tableFrames_subset {T : Set Nat} (h : PtWf true m d T) : tableFrames m d ⊆ T := by
  rintro n ⟨π, hπ, hn⟩
  exact h.tables π n hπ hn

theorem ptWf_self {T : Set Nat} (h : PtWf true m d T) : PtWf true m d (tableFrames m d) :=
  ⟨h.tree, fun π _ hπ hn => ⟨π, hπ, hn⟩, fun n hn => h.pages n (tableFrames_subset h hn)⟩

theorem physOk_of_lookup {v a : Nat} (h : lookup true m d v = some a) : PhysOk a := by
  have hpath : pathOf v = [getPgEntryIndex v 30, getPgEntryIndex v 21] ++ [getPgEntryIndex v 12] := rfl
  rw [lookup, hpath, descend_concat] at h
  obtain ⟨t, -, ht⟩ := Option.bind_eq_some_iff.1 h
  simp only [ptSlot] at ht
  split_ifs at ht
  obtain rfl := Option.some.inj ht
  exact physOk_getPhyAddr _

theorem isPage_of_lookup {v a : Nat} (h : lookup true m d v = some a) : IsPage a :=
  ⟨(physOk_of_lookup h).1, (physOk_of_lookup h).2.trans (by decide)⟩

theorem Holdings.footprint_pool (h : Holdings m d mmap) {a : Nat} (ha : a ∈ footprint m d mmap) :
    InPool a ∧ IsPage a := by
  rcases ha with ha | ha | ⟨hpool, v, hv⟩
  · exact ⟨h.tables_pool a ha, h.tables.pages a ha⟩
  · obtain ⟨pb, hpb, ha⟩ := List.mem_flatMap.1 ha
    exact (h.blocks_valid pb hpb).mem_frames ha
  · exact ⟨hpool, isPage_of_lookup hv⟩

/-- The pages of the tables are unchanged. -/
def SameTables (m m' : Mem) (d : Nat) : Prop :=
  ∀ n ∈ tableFrames m d, ∀ x, InPage true n x → m' x = m x

theorem tableFrames_frame (h : PtWf true m d (tableFrames m d)) (hsame : SameTables m m' d) :
    tableFrames m' d = tableFrames m d := by
  have hdesc : ∀ π : List (Fin 512), π.length < 3 →
      descend (ptSlot true m') d π = descend (ptSlot true m) d π := fun π hπ =>
    descend_frame (agreeWithin_frame h hsame) (Nat.le_of_lt hπ)
  ext n
  constructor
  · rintro ⟨π, hπ, hn⟩
    exact ⟨π, hπ, by rw [← hdesc π hπ, hn]⟩
  · rintro ⟨π, hπ, hn⟩
    exact ⟨π, hπ, by rw [hdesc π hπ, hn]⟩

theorem footprint_frame (h : PtWf true m d (tableFrames m d)) (hsame : SameTables m m' d) :
    footprint m' d mmap = footprint m d mmap := by
  ext a
  change (a ∈ tableFrames m' d ∨ _) ↔ (a ∈ tableFrames m d ∨ _)
  simp only [tableFrames_frame h hsame, lookup_frame h hsame]

theorem holdings_frame (h : Holdings m d mmap) (hsame : SameTables m m' d) : Holdings m' d mmap := by
  have htables := tableFrames_frame h.tables hsame
  have hlook := lookup_frame h.tables hsame
  obtain ⟨h₁, h₂, h₃, h₄, h₅, h₆, h₇⟩ := h
  refine ⟨?_, ?_, h₃, h₄, ?_, ?_, ?_⟩
  · rw [htables]
    exact ptWf_frame h₁ hsame
  · rwa [htables]
  · rwa [htables]
  · simpa only [htables, hlook] using h₆
  · simpa only [hlook] using h₇

theorem maps_frame (h : Maps m d mm) (hsame : ∀ v, lookup true m' d v = lookup true m d v) :
    Maps m' d mm := by
  obtain ⟨h₁, h₂, h₃, h₄, h₅⟩ := h
  refine ⟨?_, ?_, ?_, ?_, ?_⟩
  · simpa only [hsame] using h₁
  · simpa only [hsame] using h₂
  · simpa only [hsame] using h₃
  · simpa only [hsame] using h₄
  · simpa only [hsame] using h₅

/-- The invariant depends on memory only through the tables. -/
theorem spaceOk_frame (h : SpaceOk m d mm) (hsame : SameTables m m' d) : SpaceOk m' d mm :=
  ⟨h.layout, holdings_frame h.holdings hsame,
    maps_frame h.maps (lookup_frame h.holdings.tables hsame)⟩

end Frame

end Kernel
end ToutOS
