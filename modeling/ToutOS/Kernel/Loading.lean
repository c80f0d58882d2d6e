import ToutOS.Kernel.Steps

/-!
# Loading — the program that `user_test` hands over to

The vmas of `user_test` map the sections of the program to the copy of its image; the bytes of bss are
then cleared through that mapping.

* `readUser` — a byte read at a user address;
* `clearUser_in`, `clearUser_out` — the bytes that `memset` clears;
* `UserTested.section_frame`, `UserTested.gap_frame` — the sections are mapped, what lies between them
  is not;
* `UserTested.read_section` — what a program reads in its sections;
* `image_loaded_iff` — the sections follow on each other and the bytes that `memset` leaves out have
  been zero before.
-/

namespace ToutOS
namespace Kernel

open Base Mm

/-- The byte at a user address, if its page is mapped. -/
def readUser (m : Mem) (pgDir virtAddr : Nat) : Option UInt8 :=
  (userFrame m pgDir virtAddr).map fun a => m (va a + virtAddr % pageSize)

/-- The task has a page table, and all calls of `setup_vma` have succeeded. -/
def VmasSet (u : UserImage) (t : TaskStruct) : Prop :=
  t.pgDir ≠ 0 ∧ ∃ mm ∈ t.mm, ∀ a ∈ u.areas, ∃ vma ∈ mm.mmap, vma = a.vma vma.self

/-- The program finds the bytes of its image `m` up to the end of its data, and a bss of zeros. -/
structure ImageLoaded (u : UserImage) (m m' : Mem) (pgDir : Nat) : Prop where
  loaded : ∀ k, u.textStart + k < u.dataEnd →
    readUser m' pgDir (u.textStart + k) = some (m (va (lmaUser + k)))
  cleared : ∀ v, u.bssStart ≤ v → v < u.bssEnd → readUser m' pgDir v = some 0

/-! ## Addresses -/

theorem va_add {x y : Nat} (h : x + y < 2 ^ 38) : va (x + y) = va x + y := by
  simp only [va, add64, pageOffset]
  omega

theorem va_inj {x y : Nat} (hx : x < 2 ^ 38) (hy : y < 2 ^ 38) (h : va x = va y) : x = y := by
  simp only [va, add64, pageOffset] at h
  omega

theorem userFrame_congr {m : Mem} {pgDir v w : Nat} (h : pageAddr v = pageAddr w) :
    userFrame m pgDir v = userFrame m pgDir w := by
  refine lookup_congr ?_
  rw [pathOf_eq_iff]
  simp only [pageAddr, pageSize] at h
  omega

/-! ## `memset` on user memory -/

section Clear

variable {m m' : Mem} {pgDir virtAddr n : Nat}

/-- The bytes of the range are cleared. -/
theorem clearUser_in (h : clearUser m pgDir virtAddr n = .ok m') {w a : Nat}
    (ha : userFrame m pgDir w = some a) (hw : virtAddr ≤ w ∧ w < virtAddr + n) :
    m' (va a + w % pageSize) = 0 := by
  unfold clearUser at h
  split_ifs at h
  obtain rfl := Except.ok.inj h
  refine if_pos (List.any_eq_true.2 ⟨w / pageSize - virtAddr / pageSize, ?_, ?_⟩)
  · rw [List.mem_range]
    simp only [pageSize]
    omega
  · have hpage : pageAddr virtAddr + pageSize * (w / pageSize - virtAddr / pageSize) = pageAddr w := by
      simp only [pageAddr, pageSize]
      omega
    have hframe : userFrame m pgDir (pageAddr w) = some a := by
      rw [userFrame_congr (pageAddr_pageAddr w), ha]
    have hlt := Nat.mod_lt w (show 0 < pageSize by decide)
    have hback : pageAddr w + w % pageSize = w := by
      simp only [pageAddr, pageSize]
      omega
    dsimp only
    rw [hpage, hframe]
    simp only [Bool.and_eq_true, decide_eq_true_eq]
    rw [Nat.add_sub_cancel_left, hback]
    omega

/-- No other byte is changed. -/
theorem clearUser_out (h : clearUser m pgDir virtAddr n = .ok m') {x : Nat}
    (hx : ∀ w a, virtAddr ≤ w → w < virtAddr + n → userFrame m pgDir w = some a →
      x ≠ va a + w % pageSize) : m' x = m x := by
  unfold clearUser at h
  split_ifs at h
  obtain rfl := Except.ok.inj h
  refine if_neg fun hany => ?_
  obtain ⟨j, -, hj⟩ := List.any_eq_true.1 hany
  dsimp only at hj
  split at hj
  · cases hj
  · rename_i a ha
    simp only [Bool.and_eq_true, decide_eq_true_eq] at hj
    obtain ⟨⟨⟨hle, hlt⟩, hfrom⟩, hto⟩ := hj
    -- the address of the byte in the page
    refine hx (pageAddr virtAddr + pageSize * j + (x - va a)) a hfrom hto ?_ ?_
    · rw [← ha]
      refine userFrame_congr ?_
      simp only [pageAddr, pageSize] at *
      omega
    · simp only [pageAddr, pageSize] at *
      omega

end Clear

/-! ## The sections -/

/-- The address lies in a section of the program. -/
def UserImage.InSection (u : UserImage) (v : Nat) : Prop :=
  (u.textStart ≤ v ∧ v < u.textEnd) ∨ (u.rodataStart ≤ v ∧ v < u.rodataEnd) ∨
    (u.dataStart ≤ v ∧ v < u.dataEnd) ∨ (u.bssStart ≤ v ∧ v < u.bssEnd)

section Sections

variable {u : UserImage}

theorem inSection_bounds {v : Nat} (h : u.InSection v) : u.textStart ≤ v ∧ v < u.bssEnd := by
  have h₁ := u.text_le
  have h₂ := u.rodata_ge
  have h₃ := u.rodata_le
  have h₄ := u.data_ge
  have h₅ := u.data_le
  have h₆ := u.bss_ge
  have h₇ := u.bss_le
  simp only [UserImage.InSection] at h
  omega

/-- The area of a section: the copy of the program begins at `lma_user`. -/
theorem inSection_area {v : Nat} (h : u.InSection v) : ∃ a ∈ u.areas, u.textStart ≤ a.vmStart ∧
    a.vmStart ≤ v ∧ v < a.vmEnd ∧ a.lma = lmaUser + (a.vmStart - u.textStart) := by
  have hrodata := u.text_le.trans u.rodata_ge
  have hdata := hrodata.trans (u.rodata_le.trans u.data_ge)
  have hbss := hdata.trans (u.data_le.trans u.bss_ge)
  rcases h with h | h | h | h
  · exact ⟨⟨u.textStart, u.textEnd, vmRead ||| vmExec ||| vmShared, lmaUser⟩, by simp [UserImage.areas],
      Nat.le_refl _, h.1, h.2, by simp⟩
  · exact ⟨_, List.mem_cons_of_mem _ (List.mem_cons_self ..), hrodata, h.1, h.2, rfl⟩
  · exact ⟨_, List.mem_cons_of_mem _ (List.mem_cons_of_mem _ (List.mem_cons_self ..)), hdata, h.1, h.2,
      rfl⟩
  · exact ⟨_, List.mem_cons_of_mem _ (List.mem_cons_of_mem _ (List.mem_cons_of_mem _
      (List.mem_cons_self ..))), hbss, h.1, h.2, rfl⟩

/-- An area that begins in the program is one of its sections. -/
theorem area_inSection {a : Area} (ha : a ∈ u.areas) {v : Nat} (hv : a.vmStart ≤ v ∧ v < a.vmEnd)
    (hlt : v < u.bssEnd) : u.InSection v := by
  have h₈ := u.bssEnd_le
  simp only [UserImage.areas, List.mem_cons, List.not_mem_nil, or_false] at ha
  rcases ha with rfl | rfl | rfl | rfl | rfl | rfl
  · exact Or.inl hv
  · exact Or.inr (Or.inl hv)
  · exact Or.inr (Or.inr (Or.inl hv))
  · exact Or.inr (Or.inr (Or.inr hv))
  · simp only [userStackStart, vmaUser, userSize] at *
    omega
  · simp only [uva, uartBase, vmaUser, userSize] at *
    omega

/-- The sections lie in the window of the program, as their copy does. -/
theorem inSection_image {v : Nat} (h : u.InSection v) :
    lmaUser + (v - u.textStart) < lmaUser + userSize ∧ v < 2 ^ 39 := by
  obtain ⟨hge, hlt⟩ := inSection_bounds h
  have h₀ := u.text_ge
  have h₈ := u.bssEnd_le
  simp only [vmaUser, userSize, lmaUser] at *
  omega

end Sections

/-! ## The mapping -/

section Mapping

variable {κ : Type} {H : KernelHeap κ} {img : KernelImage} {u : UserImage} {s s' : KernelState κ}
  {i d : Nat} {mm' : MmStruct} {vm₁ vm : VmState κ}

/-- The sections are mapped to the copy of the program. -/
theorem UserTested.section_frame (ht : UserTested u i d s s' mm' vm₁ vm) (hu : u.aligned = true)
    (hset : ∀ a ∈ u.areas, ∃ vma ∈ mm'.mmap, vma = a.vma vma.self) {v : Nat} (hv : u.InSection v) :
    userFrame vm.mem (linear true d) v = some (lmaUser + (pageAddr v - u.textStart)) := by
  obtain ⟨a, ha, hge, hstart, hend, hlma⟩ := inSection_area hv
  obtain ⟨vma, hvma, heq⟩ := hset a ha
  obtain ⟨hspace, -, -⟩ := ht.built
  have hdvd := (area_facts hu ha).1
  have hpage : vma.vmStart ≤ pageAddr v := by
    rw [heq]
    simp only [Area.vma, pageAddr, pageSize] at *
    omega
  have hcov : vma.covers (pageAddr v) = true := by
    refine VmArea.covers_iff.2 ⟨hpage, ?_⟩
    rw [heq]
    simp only [Area.vma, pageAddr, pageSize] at *
    omega
  have himage := inSection_image hv
  have hstatic : vma.lma ≠ noLma := by
    rw [heq]
    simp only [Area.vma, hlma, lmaUser, noLma, userSize] at *
    omega
  rw [userFrame, ht.physical, hspace.maps.static vma hvma hstatic v himage.2 hcov]
  -- the copies of the sections keep their distances
  have htarget : vma.target (pageAddr v) = lmaUser + (pageAddr v - u.textStart) := by
    rw [heq] at hpage ⊢
    simp only [VmArea.target, Area.vma, hlma] at *
    omega
  rw [htarget]

/-- What lies between the sections is not mapped. -/
theorem UserTested.gap_frame (ht : UserTested u i d s s' mm' vm₁ vm) (hu : u.aligned = true) {v : Nat}
    (hlt : v < u.bssEnd) (hv : ¬u.InSection v) : userFrame vm.mem (linear true d) v = none := by
  obtain ⟨-, -, hmapped⟩ := ht.built
  have hwindow : v < 2 ^ 39 := by
    have h₈ := u.bssEnd_le
    simp only [vmaUser, userSize] at h₈
    omega
  rw [userFrame, ht.physical, Option.eq_none_iff_forall_ne_some]
  intro a ha
  obtain ⟨vma, hvma, -, hcov, -⟩ := hmapped v a hwindow ha
  obtain ⟨area, harea, self, rfl⟩ := ht.areas vma hvma
  obtain ⟨hs, -, -, -, he, -⟩ := area_facts hu harea
  rw [VmArea.covers_iff] at hcov
  refine hv (area_inSection harea ?_ hlt)
  simp only [Area.vma, pageAddr, pageSize] at *
  omega

theorem UserTested.userFrame_eq (ht : UserTested u i d s s' mm' vm₁ vm) (v : Nat) :
    userFrame s'.vm.mem (linear true d) v = userFrame vm.mem (linear true d) v := by
  obtain ⟨hspace, -, -⟩ := ht.built
  rw [userFrame, ht.physical, lookup_frame hspace.holdings.tables ht.tables, userFrame, ht.physical]

/-- The copy of the program has not been written while the tables were built. -/
theorem UserTested.image_same (ht : UserTested u i d s s' mm' vm₁ vm) {x : Nat}
    (hx : InImage (pageOf x)) : vm.mem x = s.vm.mem x := by
  obtain ⟨-, hlocal, -⟩ := ht.built
  have hpool := not_inPool_of_inImage hx
  have hdir : pageOf x ∉ ({d} : Set Nat) := fun heq => hpool (Set.mem_singleton_iff.1 heq ▸ ht.dir.pool.1)
  have hsecond := hlocal.same x hdir fun hfree => hpool (FreeFrame.inPool hfree)
  have hfirst := ht.dir.moves.same x (fun hno => hno) fun hfree => hpool (FreeFrame.inPool hfree)
  exact Eq.trans hsecond hfirst

/-- The byte of the copy behind an address of a section. -/
theorem copy_byte (hu : u.aligned = true) {v : Nat} (hv : u.InSection v) :
    va (lmaUser + (pageAddr v - u.textStart)) + v % pageSize = va (lmaUser + (v - u.textStart)) := by
  obtain ⟨hge, hlt⟩ := inSection_bounds hv
  have himage := inSection_image hv
  have hdvd := (aligned_iff.1 hu).1
  have hsum : lmaUser + (pageAddr v - u.textStart) + v % pageSize = lmaUser + (v - u.textStart) := by
    simp only [pageAddr, pageSize] at *
    omega
  rw [← hsum]
  refine (va_add ?_).symm
  rw [hsum]
  simp only [lmaUser, userSize] at *
  omega

theorem copy_inj {v w : Nat} (hv : u.InSection v) (hw : u.InSection w)
    (h : va (lmaUser + (v - u.textStart)) = va (lmaUser + (w - u.textStart))) : v = w := by
  obtain ⟨hv_ge, -⟩ := inSection_bounds hv
  obtain ⟨hw_ge, -⟩ := inSection_bounds hw
  have hv_lt := (inSection_image hv).1
  have hw_lt := (inSection_image hw).1
  simp only [lmaUser, userSize] at hv_lt hw_lt
  have := va_inj (by simp only [lmaUser]; omega) (by simp only [lmaUser]; omega) h
  omega

theorem copy_inImage (hu : u.aligned = true) {v : Nat} (hv : u.InSection v) :
    InImage (pageOf (va (lmaUser + (v - u.textStart)))) := by
  obtain ⟨hge, -⟩ := inSection_bounds hv
  have himage := (inSection_image hv).1
  have hdvd := (aligned_iff.1 hu).1
  have hpage : IsPage (lmaUser + (pageAddr v - u.textStart)) := by
    simp only [IsPage, lmaUser, userSize, pageAddr, pageSize] at *
    omega
  rw [← copy_byte hu hv, pageOf_of_inPage hpage]
  · refine Or.inl ?_
    simp only [lmaUser, userSize, pageAddr, pageSize] at *
    omega
  · have hlt := Nat.mod_lt v (show 0 < pageSize by decide)
    simp only [InPage, linear, if_true]
    omega

/-- What the program reads in its sections: zero where `memset` has been, the bytes that the memory
behind the image held before elsewhere. -/
theorem UserTested.read_section (ht : UserTested u i d s s' mm' vm₁ vm) (hu : u.aligned = true)
    (hset : ∀ a ∈ u.areas, ∃ vma ∈ mm'.mmap, vma = a.vma vma.self)
    (hclear : clearUser vm.mem (linear true d) u.bssStart ((u.bssEnd - u.bssStart) / 4) = .ok s'.vm.mem)
    {v : Nat} (hv : u.InSection v) :
    readUser s'.vm.mem (linear true d) v =
      some (if u.bssStart ≤ v ∧ v < u.bssStart + (u.bssEnd - u.bssStart) / 4 then 0
        else s.vm.mem (va (lmaUser + (v - u.textStart)))) := by
  have hframe := ht.section_frame hu hset hv
  rw [readUser, ht.userFrame_eq, hframe, Option.map_some]
  split_ifs with hin
  · rw [clearUser_in hclear hframe hin]
  · rw [copy_byte hu hv]
    have hsame : s'.vm.mem (va (lmaUser + (v - u.textStart))) =
        vm.mem (va (lmaUser + (v - u.textStart))) := by
      refine clearUser_out hclear fun w a hfrom hto ha heq => hin ?_
      -- a byte that is cleared belongs to one address only
      have hw : u.InSection w := Or.inr (Or.inr (Or.inr ⟨hfrom, by omega⟩))
      rw [ht.section_frame hu hset hw] at ha
      obtain rfl := Option.some.inj ha
      rw [copy_byte hu hw] at heq
      obtain rfl := copy_inj hv hw heq
      exact ⟨hfrom, hto⟩
    rw [hsame, ht.image_same (copy_inImage hu hv)]

theorem UserTested.read_gap (ht : UserTested u i d s s' mm' vm₁ vm) (hu : u.aligned = true) {v : Nat}
    (hlt : v < u.bssEnd) (hv : ¬u.InSection v) : readUser s'.vm.mem (linear true d) v = none := by
  rw [readUser, ht.userFrame_eq, ht.gap_frame hu hlt hv, Option.map_none]

/-! ## The program in memory -/

/-- The step has set up an address space. -/
theorem userTest_set (h : Invariant img u s) (hstep : step H img u s (.userTest i) = some s')
    (hset : VmasSet u (s'.tasks i)) : u.aligned = true ∧ ∃ d mm' vm₁ vm,
      UserTested u i d s s' mm' vm₁ vm ∧ (s'.tasks i).pgDir = linear true d ∧
      (∀ a ∈ u.areas, ∃ vma ∈ mm'.mmap, vma = a.vma vma.self) ∧
      clearUser vm.mem (linear true d) u.bssStart ((u.bssEnd - u.bssStart) / 4) = .ok s'.vm.mem := by
  obtain ⟨⟨hlive, hdir, -⟩, hexec⟩ := step_eq hstep
  change userTest H u i s = .ok s' at hexec
  rcases userTest_runs (H := H) h hlive hdir with
    herr | herr | hrun | ⟨hu, t, d, mm', vm₁, vm, hrun, ht, hclear⟩
  · rw [herr] at hexec
    cases hexec
  · rw [herr] at hexec
    cases hexec
  · rw [hrun] at hexec
    rw [← Except.ok.inj hexec] at hset
    exact absurd hdir hset.1
  · rw [hrun] at hexec
    obtain rfl := Except.ok.inj hexec
    obtain ⟨-, mm, hmm, hareas⟩ := hset
    rw [ht.tasks, Function.update_self] at hmm ⊢
    obtain rfl := Option.some.inj hmm
    exact ⟨hu, d, _, vm₁, vm, ht, rfl, hareas, hclear⟩

/-- `user_test` hands the program over as its image says if, and only if, the sections up to the data
follow on each other, and the bytes of bss behind the first quarter have been zero before: the length
that `memset` is given is a difference of pointers to `int`. -/
theorem image_loaded_iff (h : Reachable H img u s) (hstep : step H img u s (.userTest i) = some s')
    (hset : VmasSet u (s'.tasks i)) :
    ImageLoaded u s.vm.mem s'.vm.mem (s'.tasks i).pgDir ↔
      (u.textEnd = u.rodataStart ∧ u.rodataEnd = u.dataStart) ∧
        ∀ v, u.bssStart + (u.bssEnd - u.bssStart) / 4 ≤ v → v < u.bssEnd →
          s.vm.mem (va (lmaUser + (v - u.textStart))) = 0 := by
  obtain ⟨hu, d, mm', vm₁, vm, ht, hdir, hareas, hclear⟩ := userTest_set h.invariant hstep hset
  have hread : ∀ {v}, u.InSection v → _ := fun hv => ht.read_section hu hareas hclear hv
  have h₁ := u.text_le
  have h₂ := u.rodata_ge
  have h₃ := u.rodata_le
  have h₄ := u.data_ge
  have h₅ := u.data_le
  have h₆ := u.bss_ge
  have h₇ := u.bss_le
  rw [hdir]
  constructor
  · intro hload
    -- a byte between two sections cannot be read, and one that is loaded can
    have hmapped : ∀ v, u.textStart ≤ v → v < u.dataEnd → u.InSection v := by
      intro v hge hlt
      by_contra hno
      have hsome := hload.loaded (v - u.textStart) (by omega)
      rw [Nat.add_sub_cancel' hge, ht.read_gap hu (by omega) hno] at hsome
      cases hsome
    refine ⟨⟨?_, ?_⟩, fun v hfrom hto => ?_⟩
    · by_contra hne
      have := hmapped u.textEnd h₁ (by omega)
      simp only [UserImage.InSection] at this
      omega
    · by_contra hne
      have := hmapped u.rodataEnd (by omega) (by omega)
      simp only [UserImage.InSection] at this
      omega
    · -- behind the first quarter of bss there is what has been there before
      have hzero := hload.cleared v (by omega) hto
      rw [hread (Or.inr (Or.inr (Or.inr ⟨by omega, hto⟩))), if_neg (by omega)] at hzero
      exact Option.some.inj hzero
  · rintro ⟨⟨htext, hrodata⟩, hzero⟩
    refine ⟨fun k hk => ?_, fun v hfrom hto => ?_⟩
    · have hv : u.InSection (u.textStart + k) := by
        simp only [UserImage.InSection]
        omega
      rw [hread hv, if_neg (by omega), Nat.add_sub_cancel_left]
    · rw [hread (Or.inr (Or.inr (Or.inr ⟨hfrom, hto⟩)))]
      split_ifs with hin
      · rfl
      · rw [hzero v (by omega) hto]

end Mapping

/-- What is decided of a run of `user_test`: the vmas, and the last byte of bss. -/
def sampleLoaded (s : KernelState (List Nat)) : Bool × Option UInt8 :=
  ((s.tasks 0).pgDir ≠ 0 && (s.tasks 0).mm.any fun mm =>
      decide (∀ a ∈ sampleUser.areas, ∃ vma ∈ mm.mmap, vma = a.vma vma.self),
    readUser s.vm.mem (s.tasks 0).pgDir (sampleUser.bssEnd - 1))

theorem vmasSet_of_sampleLoaded {s : KernelState (List Nat)} (h : (sampleLoaded s).1 = true) :
    VmasSet sampleUser (s.tasks 0) := by
  simp only [sampleLoaded, Bool.and_eq_true, decide_eq_true_eq] at h
  obtain ⟨mm, hmm, hareas⟩ := (Option.any_eq_true _ _).1 h.2
  exact ⟨h.1, mm, hmm, of_decide_eq_true hareas⟩

/-- The memory has been zero before. -/
theorem image_loaded_zero : ∃ s',
    step sampleHeap sampleImage sampleUser sampleBoot (.userTest 0) = some s' ∧
      VmasSet sampleUser (s'.tasks 0) ∧
      ImageLoaded sampleUser sampleBoot.vm.mem s'.vm.mem (s'.tasks 0).pgDir := by
  have hend : (step sampleHeap sampleImage sampleUser sampleBoot (.userTest 0)).map sampleLoaded =
      some (true, some 0) := by decide +kernel
  obtain ⟨s', hstep, hs'⟩ := Option.map_eq_some_iff.1 hend
  have hset := vmasSet_of_sampleLoaded (congrArg Prod.fst hs')
  have hboot : Reachable sampleHeap sampleImage sampleUser sampleBoot :=
    ⟨sampleBoot, [], sampleBoot_boot, rfl⟩
  exact ⟨s', hstep, hset, (image_loaded_iff hboot hstep hset).2 ⟨⟨rfl, rfl⟩, fun _ _ _ => rfl⟩⟩

/-- A boot state in which the last byte behind bss is not zero. -/
def sampleDirty : KernelState (List Nat) :=
  sampleBoot.withMem fun x => if x = va (lmaUser + 0x2FFF) then 1 else 0

theorem sampleDirty_boot : Boot sampleImage sampleDirty := by
  have hb := sampleBoot_boot
  have hzero : ZeroPage sampleDirty.vm.mem := by
    intro x hx
    simp only [sampleDirty, KernelState.withMem]
    refine if_neg ?_
    simp only [InPage, linear, if_true, va, add64, pageOffset, pageSize, lmaUser] at *
    omega
  exact ⟨hzero, hb.user, hb.slots, hb.unused, hb.stack, hb.pgDir, hb.mm⟩

/-- The byte is still there: a bss of one page is cleared up to its first quarter. -/
theorem image_loaded_dirty : ∃ s', Boot sampleImage sampleDirty ∧
    step sampleHeap sampleImage sampleUser sampleDirty (.userTest 0) = some s' ∧
      VmasSet sampleUser (s'.tasks 0) ∧
      ¬ImageLoaded sampleUser sampleDirty.vm.mem s'.vm.mem (s'.tasks 0).pgDir := by
  have hend : (step sampleHeap sampleImage sampleUser sampleDirty (.userTest 0)).map sampleLoaded =
      some (true, some 1) := by decide +kernel
  obtain ⟨s', hstep, hs'⟩ := Option.map_eq_some_iff.1 hend
  have hset := vmasSet_of_sampleLoaded (congrArg Prod.fst hs')
  refine ⟨s', sampleDirty_boot, hstep, hset, fun hload => ?_⟩
  rw [sampleLoaded, Prod.mk.injEq] at hs'
  obtain ⟨-, hbyte⟩ := hs'
  have hzero := hload.cleared (sampleUser.bssEnd - 1) (by decide) (by decide)
  rw [hbyte] at hzero
  exact absurd (Option.some.inj hzero) (by decide)

end Kernel
end ToutOS
