import ToutOS.Kernel.Space
import ToutOS.Mm.Leaf

/-!
# Paging — entering pages into the table of an address space

* `setupUserPageMappings_spec` — the vmas that are mapped as a whole, on any table;
* `handleFault_page`, `handleFault_cases` — everything an exception can do to an address space that
  has a vma for the address;
* `handleFault_spec` — it keeps the invariant of the address space.

What a call does to memory and to the pool is stated as a local step (`SpaceStep`).
-/

namespace ToutOS
namespace Kernel

open Base Mm

variable {κ : Type} {H : KernelHeap κ}

/-- The pages in use, as those that `get_zeroed_pages` has given away. -/
abbrev usedFrames (usage : PagesUsage) : Set Nat := {a | UsedFrame usage a}

theorem mem_usedFrames {usage : PagesUsage} {a : Nat} : a ∈ usedFrames usage ↔ UsedFrame usage a :=
  Iff.rfl

/-- Growing tables is a step that is local to the tables. -/
theorem local_of_tablesGrow {d : Nat} {st st' : PtState PagesUsage} {T T' : Set Nat}
    (h : TablesGrow true usedFrames d st st' T T') (hT : Pages T') :
    Local pageOf T T' { mem := st.mem, free := FreeFrame st.alloc }
      { mem := st'.mem, free := FreeFrame st'.alloc } := by
  -- a new table was free
  have hnew : ∀ n ∈ T', n ∈ T ∨ FreeFrame st.alloc n := by
    intro n hn
    rcases h.new n hn with hn' | hn'
    · exact Or.inl hn'
    · have hpool := UsedFrame.inPool (h.tables_given hn)
      have hdvd := (UsedFrame.page (h.tables_given hn)).1
      by_contra hno
      rw [not_or] at hno
      exact hn' (usedFrame_of_not_freeFrame hpool hdvd hno.2)
  refine ⟨?_, hnew, ?_, ?_⟩
  · intro x hx hfree
    refine h.frame x fun n hn hin => ?_
    have hpage := pageOf_of_inPage (hT n hn) hin
    rcases hnew n hn with hn' | hn'
    · exact hx (hpage ▸ hn')
    · exact hfree (hpage ▸ hn')
  · intro a ha
    refine Or.inl (Classical.byContradiction fun hno => ?_)
    have hused := usedFrame_of_not_freeFrame (FreeFrame.inPool ha) (FreeFrame.isPage ha).1 hno
    exact not_freeFrame_of_usedFrame (h.given_subset hused) ha
  · intro n hn
    exact not_freeFrame_of_usedFrame (h.tables_given hn)

/-- All pages that are taken become tables. -/
theorem lossless_of_tablesGrow {d : Nat} {st st' : PtState PagesUsage} {T T' : Set Nat}
    (h : TablesGrow true usedFrames d st st' T T') :
    Lossless T T' (⟨st.mem, FreeFrame st.alloc⟩ : World Nat UInt8 Nat)
      ⟨st'.mem, FreeFrame st'.alloc⟩ := by
  rintro a (ha | ha)
  · by_cases hfree : FreeFrame st'.alloc a
    · exact Or.inl hfree
    · have hused := usedFrame_of_not_freeFrame (FreeFrame.inPool ha) (FreeFrame.isPage ha).1 hfree
      rcases h.given_new a hused with hold | hnew
      · exact absurd ha (not_freeFrame_of_usedFrame hold)
      · exact Or.inr hnew
  · exact Or.inr (h.subset ha)

/-! ## Whole vmas -/

theorem attrsOk_userAttrs (rdonly : Bool) : AttrsOk (userAttrs rdonly) ∧ userAttrs rdonly < 2 ^ 64 := by
  cases rdonly <;> exact ⟨attrsOk_of_lt (by decide), by decide⟩

/-- One range of user memory. -/
theorem setupUserPageMapping_spec {d virtAddr phyAddr size : Nat} {rdonly : Bool} {vm : VmState κ}
    {T : Set Nat} (hd : linear true d ≠ 0) (hphy : phyAddr ≠ noLma) (hphy_dvd : pageSize ∣ phyAddr)
    (hvirt_dvd : pageSize ∣ virtAddr) (hphy_le : phyAddr + pageSize * numPages size ≤ 2 ^ 48)
    (hvirt_le : virtAddr + pageSize * numPages size ≤ 2 ^ 39) (hwf : PtWf true vm.mem d T)
    (hT : T ⊆ usedFrames vm.pagesUsage) :
    setupUserPageMapping (linear true d) virtAddr phyAddr size rdonly vm = .error .assertFailed ∨
    ∃ vm' T', setupUserPageMapping (linear true d) virtAddr phyAddr size rdonly vm = .ok vm' ∧
      vm'.heap = vm.heap ∧ PtWf true vm'.mem d T' ∧
      TablesGrow true usedFrames d ⟨vm.mem, vm.pagesUsage⟩ ⟨vm'.mem, vm'.pagesUsage⟩ T T' ∧
      ∀ v, v < 2 ^ 39 →
        (∀ a, lookup true vm.mem d v = some a → lookup true vm'.mem d v = some a) ∧
        (virtAddr ≤ pageAddr v → pageAddr v < virtAddr + pageSize * numPages size →
          lookup true vm.mem d v = none →
          lookup true vm'.mem d v = some (phyAddr + (pageAddr v - virtAddr))) ∧
        (¬(virtAddr ≤ pageAddr v ∧ pageAddr v < virtAddr + pageSize * numPages size) →
          lookup true vm'.mem d v = lookup true vm.mem d v) := by
  obtain ⟨hattrs, h64⟩ := attrsOk_userAttrs rdonly
  have hm : MapOk 0 ⟨phyAddr, virtAddr, size, userAttrs rdonly⟩ :=
    ⟨hphy_dvd, hvirt_dvd, hphy_le, Nat.zero_le _, by simpa using hvirt_le, hattrs, h64⟩
  simp only [setupUserPageMapping, if_neg hd, if_neg hphy]
  rcases @addSingleMap_spec _ (getZeroedPages 0) true usedFrames d 0 getZeroedPages_ok
    _ hm ⟨vm.mem, vm.pagesUsage⟩ T hwf hT with herr | ⟨st', T', hok, hwf', hgrow, hlook⟩
  · exact Or.inl (by rw [herr]; rfl)
  · refine Or.inr ⟨{ vm with mem := st'.mem, pagesUsage := st'.alloc }, T', by rw [hok]; rfl, rfl,
      hwf', hgrow, fun v hv => ?_⟩
    obtain ⟨h₁, h₂, h₃⟩ := hlook v (Nat.zero_le v) (by simpa using hv)
    exact ⟨h₁, fun hge hlt => h₂ ⟨hge, hlt⟩, h₃⟩

/-- The pages of a vma that is mapped as a whole. -/
theorem VmArea.Ok.pages {startBrk brk : Nat} {vma : VmArea} (h : vma.Ok startBrk brk)
    (hlma : vma.lma ≠ noLma) :
    pageSize * numPages (vma.vmEnd - vma.vmStart) = vma.vmEnd - vma.vmStart := by
  have h₁ := h.start_dvd
  have h₂ := h.end_dvd hlma
  have h₃ := h.start_le
  simp only [numPages, pageSize] at *
  omega

theorem VmArea.covers_iff {vma : VmArea} {p : Nat} :
    vma.covers p = true ↔ vma.vmStart ≤ p ∧ p < vma.vmEnd := by
  simp [VmArea.covers]

/-- `setup_user_page_mappings`: the vmas with an `lma` are mapped, the others are passed over. -/
theorem setupUserPageMappings_spec {d startBrk brk : Nat} (hd : linear true d ≠ 0) :
    ∀ {mmap : List VmArea} {vm : VmState κ} {T : Set Nat}, (∀ vma ∈ mmap, vma.Ok startBrk brk) →
      mmap.Pairwise VmArea.Apart → PtWf true vm.mem d T → T ⊆ usedFrames vm.pagesUsage →
      setupUserPageMappings (linear true d) mmap vm = .error .assertFailed ∨
      ∃ vm' T', setupUserPageMappings (linear true d) mmap vm = .ok vm' ∧ vm'.heap = vm.heap ∧
        PtWf true vm'.mem d T' ∧
        TablesGrow true usedFrames d ⟨vm.mem, vm.pagesUsage⟩ ⟨vm'.mem, vm'.pagesUsage⟩ T T' ∧
        ∀ v, v < 2 ^ 39 →
          (∀ a, lookup true vm.mem d v = some a → lookup true vm'.mem d v = some a) ∧
          (lookup true vm.mem d v = none → ∀ vma ∈ mmap, vma.lma ≠ noLma →
            vma.covers (pageAddr v) = true →
            lookup true vm'.mem d v = some (vma.target (pageAddr v))) ∧
          ((∀ vma ∈ mmap, vma.lma ≠ noLma → vma.covers (pageAddr v) = false) →
            lookup true vm'.mem d v = lookup true vm.mem d v) := by
  intro mmap
  induction mmap with
  | nil =>
      intro vm T _ _ hwf hT
      exact Or.inr ⟨vm, T, rfl, rfl, hwf, TablesGrow.refl hT, fun v _ => ⟨fun _ h => h, by simp, by simp⟩⟩
  | cons x mmap ih =>
      intro vm T hok hapart hwf hT
      obtain ⟨hx, hapart⟩ := List.pairwise_cons.1 hapart
      have hokx := hok x (by simp)
      simp only [setupUserPageMappings]
      by_cases hlma : x.lma = noLma
      · -- a vma that is filled on demand
        have hskip : setupUserPageMapping (linear true d) x.vmStart x.lma (x.vmEnd - x.vmStart)
            (!x.writable) vm = .ok vm := by
          simp only [setupUserPageMapping, if_neg hd, if_pos hlma]
        rw [hskip]
        rcases ih (fun vma hvma => hok vma (by simp [hvma])) hapart hwf hT with
          herr | ⟨vm', T', hrun, hheap, hwf', hgrow, hlook⟩
        · exact Or.inl herr
        refine Or.inr ⟨vm', T', hrun, hheap, hwf', hgrow, fun v hv => ?_⟩
        obtain ⟨h₁, h₂, h₃⟩ := hlook v hv
        refine ⟨h₁, fun hnone vma hvma hstatic hcov => ?_, fun hno => h₃ fun vma hvma =>
          hno vma (by simp [hvma])⟩
        rcases List.mem_cons.1 hvma with rfl | hvma
        · exact absurd hlma hstatic
        · exact h₂ hnone vma hvma hstatic hcov
      · have hsize := hokx.pages hlma
        have hsub : x.vmStart + (x.vmEnd - x.vmStart) = x.vmEnd := by
          have := hokx.start_le
          omega
        rcases @setupUserPageMapping_spec κ d x.vmStart x.lma (x.vmEnd - x.vmStart) (!x.writable) vm T
          hd hlma (hokx.lma_dvd hlma) hokx.start_dvd (by rw [hsize]; exact hokx.lma_le hlma)
          (by rw [hsize, hsub]; exact hokx.end_le) hwf hT with
          herr | ⟨vm₁, T₁, hrun₁, hheap₁, hwf₁, hgrow₁, hlook₁⟩
        · exact Or.inl (by rw [herr]; rfl)
        rw [hrun₁]
        simp only [hsize, hsub, ← VmArea.covers_iff] at hlook₁
        rcases ih (fun vma hvma => hok vma (by simp [hvma])) hapart hwf₁ hgrow₁.tables_given with
          herr | ⟨vm', T', hrun, hheap, hwf', hgrow, hlook⟩
        · exact Or.inl herr
        refine Or.inr ⟨vm', T', hrun, hheap.trans hheap₁, hwf', hgrow₁.trans hgrow, fun v hv => ?_⟩
        obtain ⟨h₁, h₂, h₃⟩ := hlook v hv
        obtain ⟨g₁, g₂, g₃⟩ := hlook₁ v hv
        refine ⟨fun a ha => h₁ a (g₁ a ha), fun hnone vma hvma hstatic hcov => ?_, fun hno => ?_⟩
        · rcases List.mem_cons.1 hvma with rfl | hvma
          · obtain ⟨hge, hlt⟩ := VmArea.covers_iff.1 hcov
            exact h₁ _ (g₂ hge hlt hnone)
          · -- the first vma has no address in common with this one
            have hnot : ¬x.covers (pageAddr v) = true := by
              intro hxc
              rw [hx vma hvma _ hxc] at hcov
              cases hcov
            exact h₂ (by rw [g₃ hnot, hnone]) vma hvma hstatic hcov
        · have hnot : ¬x.covers (pageAddr v) = true := by
            rw [hno x (by simp) hlma]
            exact Bool.false_ne_true
          rw [h₃ fun vma hvma => hno vma (by simp [hvma]), g₃ hnot]

/-! ## Entries -/

/-- Mapping user memory keeps the entries that are filled. -/
theorem setupUserPageMapping_kept {d virtAddr phyAddr size : Nat} {rdonly : Bool} {vm vm' : VmState κ}
    {T : Set Nat} (hd : pageSize ∣ d) (hpages : Pages T) (hT : T ⊆ usedFrames vm.pagesUsage)
    (hrun : setupUserPageMapping (linear true d) virtAddr phyAddr size rdonly vm = .ok vm') :
    EntriesKept true T vm.mem vm'.mem ∧ T ⊆ usedFrames vm'.pagesUsage := by
  rw [setupUserPageMapping] at hrun
  split_ifs at hrun
  · obtain rfl := Except.ok.inj hrun
    exact ⟨EntriesKept.refl T _, hT⟩
  · obtain rfl := Except.ok.inj hrun
    exact ⟨EntriesKept.refl T _, hT⟩
  · obtain ⟨st, hmap, rfl⟩ := except_map_eq_ok.1 hrun
    have hkept := @addSingleMap_kept true d T _ (getZeroedPages 0) usedFrames
      ⟨vm.mem, vm.pagesUsage⟩ st getZeroedPages_ok hpages hT hd _ hmap
    exact ⟨hkept.kept, hkept.given⟩

theorem setupUserPageMappings_kept {d : Nat} {T : Set Nat} (hd : pageSize ∣ d) (hpages : Pages T) :
    ∀ {mmap : List VmArea} {vm vm' : VmState κ}, T ⊆ usedFrames vm.pagesUsage →
      setupUserPageMappings (linear true d) mmap vm = .ok vm' → EntriesKept true T vm.mem vm'.mem := by
  intro mmap
  induction mmap with
  | nil =>
      intro vm vm' _ hrun
      obtain rfl := Except.ok.inj hrun
      exact EntriesKept.refl T _
  | cons x mmap ih =>
      intro vm vm' hT hrun
      obtain ⟨vm₁, hfirst, hrun⟩ := except_bind_eq_ok.1 hrun
      obtain ⟨hkept, hT₁⟩ := setupUserPageMapping_kept hd hpages hT hfirst
      exact hkept.trans (ih hT₁ hrun)

/-- The entries of the pages of a range that were not mapped. -/
theorem setupUserPageMapping_leaf {d virtAddr phyAddr size : Nat} {rdonly : Bool} {vm vm' : VmState κ}
    {T : Set Nat} (hd : linear true d ≠ 0) (hphy : phyAddr ≠ noLma) (hphy_dvd : pageSize ∣ phyAddr)
    (hvirt_dvd : pageSize ∣ virtAddr) (hphy_le : phyAddr + pageSize * numPages size ≤ 2 ^ 48)
    (hvirt_le : virtAddr + pageSize * numPages size ≤ 2 ^ 39) (hwf : PtWf true vm.mem d T)
    (hT : T ⊆ usedFrames vm.pagesUsage)
    (hrun : setupUserPageMapping (linear true d) virtAddr phyAddr size rdonly vm = .ok vm') {v : Nat}
    (hv : v < 2 ^ 39) (hge : virtAddr ≤ pageAddr v)
    (hlt : pageAddr v < virtAddr + pageSize * numPages size) (hnone : lookup true vm.mem d v = none) :
    leafPte true vm'.mem d v =
      some (descriptor (phyAddr + (pageAddr v - virtAddr)) (userAttrs rdonly)) := by
  obtain ⟨hattrs, h64⟩ := attrsOk_userAttrs rdonly
  have hm : MapOk 0 ⟨phyAddr, virtAddr, size, userAttrs rdonly⟩ :=
    ⟨hphy_dvd, hvirt_dvd, hphy_le, Nat.zero_le _, by simpa using hvirt_le, hattrs, h64⟩
  rw [setupUserPageMapping, if_neg hd, if_neg hphy] at hrun
  obtain ⟨st, hmap, rfl⟩ := except_map_eq_ok.1 hrun
  have hwindow : v < 0 + 2 ^ 39 := by rwa [Nat.zero_add]
  exact addSingleMap_leaf getZeroedPages_ok hm hwf hT hmap (Nat.zero_le v) hwindow ⟨hge, hlt⟩ hnone

/-- `setup_user_page_mappings` on pages that were not mapped: the entries say whether the vma may be
written. -/
theorem setupUserPageMappings_leaf {d startBrk brk : Nat} (hd : linear true d ≠ 0) :
    ∀ {mmap : List VmArea} {vm vm' : VmState κ} {T : Set Nat}, (∀ vma ∈ mmap, vma.Ok startBrk brk) →
      mmap.Pairwise VmArea.Apart → PtWf true vm.mem d T → T ⊆ usedFrames vm.pagesUsage →
      setupUserPageMappings (linear true d) mmap vm = .ok vm' →
      ∀ vma ∈ mmap, vma.lma ≠ noLma → ∀ v, v < 2 ^ 39 → vma.covers (pageAddr v) = true →
        lookup true vm.mem d v = none →
        leafPte true vm'.mem d v =
          some (descriptor (vma.target (pageAddr v)) (userAttrs (!vma.writable))) := by
  intro mmap
  induction mmap with
  | nil =>
      intro vm vm' T _ _ _ _ _ vma hvma
      cases hvma
  | cons x mmap ih =>
      intro vm vm' T hok hapart hwf hT hrun vma hvma hlma v hv hcov hnone
      obtain ⟨hx, htail⟩ := List.pairwise_cons.1 hapart
      have hokx := hok x (by simp)
      obtain ⟨vm₁, hfirst, hrest⟩ := except_bind_eq_ok.1 hrun
      by_cases hxlma : x.lma = noLma
      · -- the first vma is passed over
        rw [setupUserPageMapping, if_neg hd, if_pos hxlma] at hfirst
        obtain rfl := Except.ok.inj hfirst
        rcases List.mem_cons.1 hvma with rfl | hvma
        · exact absurd hxlma hlma
        · exact ih (fun y hy => hok y (by simp [hy])) htail hwf hT hrest vma hvma hlma v hv hcov hnone
      have hsize := hokx.pages hxlma
      have hsub : x.vmStart + (x.vmEnd - x.vmStart) = x.vmEnd := by
        have := hokx.start_le
        omega
      have hphy_le : x.lma + pageSize * numPages (x.vmEnd - x.vmStart) ≤ 2 ^ 48 := by
        rw [hsize]
        exact hokx.lma_le hxlma
      have hvirt_le : x.vmStart + pageSize * numPages (x.vmEnd - x.vmStart) ≤ 2 ^ 39 := by
        rw [hsize, hsub]
        exact hokx.end_le
      rcases @setupUserPageMapping_spec κ d x.vmStart x.lma (x.vmEnd - x.vmStart) (!x.writable) vm T
        hd hxlma (hokx.lma_dvd hxlma) hokx.start_dvd hphy_le hvirt_le hwf hT with
        herr | ⟨vm₂, T₁, hrun₁, -, hwf₁, hgrow₁, hlook₁⟩
      · rw [herr] at hfirst
        cases hfirst
      rw [hrun₁] at hfirst
      obtain rfl := Except.ok.inj hfirst
      rcases List.mem_cons.1 hvma with rfl | hvma
      · -- its pages are entered now, and the entries are kept by the rest
        obtain ⟨hge, hlt⟩ := VmArea.covers_iff.1 hcov
        have hleaf := setupUserPageMapping_leaf hd hlma (hokx.lma_dvd hlma) hokx.start_dvd hphy_le
          hvirt_le hwf hT hrun₁ hv hge (by rwa [hsize, hsub]) hnone
        have hdvd := (hwf.pages d (hwf.tables [] d (by simp) rfl)).1
        have hkept := setupUserPageMappings_kept (d := d) hdvd hwf₁.pages hgrow₁.tables_given hrest
        rw [VmArea.target]
        exact hkept.leafPte hwf₁ hleaf
      · have hnot : ¬(x.vmStart ≤ pageAddr v ∧
            pageAddr v < x.vmStart + pageSize * numPages (x.vmEnd - x.vmStart)) := by
          rw [hsize, hsub, ← VmArea.covers_iff]
          intro hxc
          rw [hx vma hvma _ hxc] at hcov
          cases hcov
        have hnone₁ : lookup true vm₂.mem d v = none := by rw [(hlook₁ v hv).2.2 hnot, hnone]
        exact ih (fun y hy => hok y (by simp [hy])) htail hwf₁ hgrow₁.tables_given hrest vma hvma hlma v
          hv hcov hnone₁

/-! ## Taking pages from the pool -/

/-- Taking a run of free pages. -/
theorem local_markPages {m : Mem} {usage : PagesUsage} {first num : Nat} {own : Set Nat}
    (hend : first + num ≤ maxNumPages) (hfree : ∀ k, first ≤ k → k < first + num → usage k = false)
    (hown : ∀ a ∈ own, ¬FreeFrame usage a) :
    Local pageOf own (own ∪ {a | ∃ k, first ≤ k ∧ k < first + num ∧ a = frame k})
      { mem := m, free := FreeFrame usage }
      { mem := m, free := FreeFrame (markPages usage first num true) } := by
  have hsub : ∀ a, FreeFrame (markPages usage first num true) a → FreeFrame usage a := by
    rintro a ⟨k, hk, hmark, rfl⟩
    simp only [markPages] at hmark
    split_ifs at hmark
    exact ⟨k, hk, hmark, rfl⟩
  refine ⟨fun _ _ _ => rfl, ?_, fun a ha => Or.inl (hsub a ha), ?_⟩
  · rintro a (ha | ⟨k, h₁, h₂, rfl⟩)
    · exact Or.inl ha
    · exact Or.inr ⟨k, by omega, hfree k h₁ h₂, rfl⟩
  · rintro a (ha | ⟨k, h₁, h₂, rfl⟩) hno
    · exact hown a ha (hsub a hno)
    · change FreeFrame _ _ at hno
      rw [freeFrame_frame (show k < maxNumPages by omega)] at hno
      simp [markPages, h₁, h₂] at hno

theorem lossless_markPages {m : Mem} {usage : PagesUsage} {first num : Nat} (own : Set Nat) :
    Lossless own (own ∪ {a | ∃ k, first ≤ k ∧ k < first + num ∧ a = frame k})
      (⟨m, FreeFrame usage⟩ : World Nat UInt8 Nat)
      ⟨m, FreeFrame (markPages usage first num true)⟩ := by
  rintro a (⟨k, hk, hfree, rfl⟩ | ha)
  · by_cases hin : first ≤ k ∧ k < first + num
    · exact Or.inr (Or.inr ⟨k, hin.1, hin.2, rfl⟩)
    · exact Or.inl ⟨k, hk, by simpa [markPages, hin] using hfree, rfl⟩
  · exact Or.inr (Or.inl ha)

/-- The window of `2 ^ 39` bytes has all paths. -/
theorem lookup_mod (m : Mem) (d v : Nat) : lookup true m d (v % 2 ^ 39) = lookup true m d v := by
  have hpath : pathOf (v % 2 ^ 39) = pathOf v := by
    rw [pathOf_eq_iff]
    omega
  rw [lookup, hpath, lookup]

theorem mod_window_lt (v : Nat) : v % 2 ^ 39 < 2 ^ 39 := Nat.mod_lt _ (by decide)

/-! ## Exceptions -/

/-- What a call that changes an address space keeps. -/
structure SpaceStep (d : Nat) (mm : MmStruct) (vm : VmState κ) (mm' : MmStruct) (vm' : VmState κ) :
    Prop where
  ok : SpaceOk vm'.mem d mm'
  moves : Local pageOf (footprint vm.mem d mm.mmap) (footprint vm'.mem d mm'.mmap) vm.world vm'.world
  start : mm'.startBrk = mm.startBrk
  /-- A vma has been there before, but for its blocks, or it is the heap. -/
  kept : ∀ x ∈ mm'.mmap, (∃ y ∈ mm.mmap, y.bare = x.bare) ∨
    (x.vmStart = mm.startBrk ∧ x.lma = noLma ∧ x.shared = false)

/-- The exception at `addr` has been given page `k` of the pool. -/
structure Faulted (H : KernelHeap κ) (d addr k : Nat) (mm : MmStruct) (vm : VmState κ)
    (mmap' : List VmArea) (vm' : VmState κ) (T' : Set Nat) : Prop where
  lt : k < maxNumPages
  free : vm.pagesUsage k = false
  wf : PtWf true vm'.mem d T'
  grow : TablesGrow true usedFrames d ⟨vm.mem, markPages vm.pagesUsage k 1 true⟩
    ⟨vm'.mem, vm'.pagesUsage⟩ (tableFrames vm.mem d) T'
  lookup : ∀ v, v < 2 ^ 39 → lookup true vm'.mem d v =
    if pageAddr v = pageAddr addr then some ((lookup true vm.mem d v).getD (frame k))
    else lookup true vm.mem d v
  entries : EntriesKept true (tableFrames vm.mem d) vm.mem vm'.mem
  blocks : (mmap' = mm.mmap ∧ (H.kmalloc vm.heap sizeofPagesBlock).1 = 0) ∨
    (H.kmalloc vm.heap sizeofPagesBlock).1 ≠ 0 ∧ ∃ pb : PagesBlock, pb.userVirtAddr = pageAddr addr ∧
      pb.linearAddr = pagePoolStart + pageSize * k ∧ pb.order = 0 ∧
      mmap' = updateVma addr (appendBlock pb) mm.mmap

section Fault

variable {d addr : Nat} {mm : MmStruct} {vm : VmState κ}

/-- The tables of an address space are pages in use. -/
theorem tableFrames_used {mmap : List VmArea} (h : Holdings vm.mem d mmap)
    (hused : ∀ a ∈ footprint vm.mem d mmap, ¬FreeFrame vm.pagesUsage a) :
    tableFrames vm.mem d ⊆ usedFrames vm.pagesUsage := fun n hn =>
  usedFrame_of_not_freeFrame (h.tables_pool n hn) (h.tables.pages n hn).1 (hused n (Or.inl hn))

theorem linear_ne_zero {mmap : List VmArea} (h : Holdings vm.mem d mmap) : linear true d ≠ 0 := by
  have := ne_zero_of_inPool (h.tables_pool d (root_mem_tableFrames _ d))
  simpa only [linear, if_true] using this

/-- The page of a covered address is covered. -/
theorem VmArea.Ok.covers_pageAddr {startBrk brk : Nat} {vma : VmArea} (h : vma.Ok startBrk brk)
    (hcov : vma.covers addr = true) : vma.covers (pageAddr addr) = true := by
  have hdvd := h.start_dvd
  rw [VmArea.covers_iff] at hcov ⊢
  simp only [pageAddr, pageSize] at *
  omega

/-- `add_pages_block` fails only for want of memory. -/
theorem addPagesBlock_spec (heap : κ) {mmap : List VmArea} {addr userVirtAddr linearAddr : Nat}
    (order : Nat) (hvma : findVma mmap addr ≠ none) (huser : userVirtAddr ≠ 0)
    (hlinear : linearAddr ≠ 0) :
    (∃ heap', addPagesBlock H heap mmap addr userVirtAddr linearAddr order = (false, mmap, heap') ∧
      (H.kmalloc heap sizeofPagesBlock).1 = 0) ∨
    (H.kmalloc heap sizeofPagesBlock).1 ≠ 0 ∧
      ∃ heap' pb, pb.userVirtAddr = userVirtAddr ∧ pb.linearAddr = linearAddr ∧ pb.order = order ∧
        addPagesBlock H heap mmap addr userVirtAddr linearAddr order =
          (true, updateVma addr (appendBlock pb) mmap, heap') := by
  have hnotnull : ¬(findVma mmap addr = none ∨ userVirtAddr = 0 ∨ linearAddr = 0) := by
    rintro (hno | hno | hno)
    · exact hvma hno
    · exact huser hno
    · exact hlinear hno
  rcases hcall : H.kmalloc heap sizeofPagesBlock with ⟨self, heap'⟩
  rw [addPagesBlock, if_neg hnotnull]
  simp only [hcall]
  by_cases hself : self = 0
  · rw [if_pos hself]
    exact Or.inl ⟨heap', rfl, hself⟩
  · rw [if_neg hself]
    exact Or.inr ⟨hself, heap', ⟨self, userVirtAddr, linearAddr, order⟩, rfl, rfl, rfl, rfl⟩

/-- The arguments of `setup_user_page_mapping` for one page of the pool. -/
theorem onePage_args {k : Nat} (hk : k < maxNumPages) (addr : Nat) :
    frame k ≠ noLma ∧ pageSize ∣ frame k ∧ pageSize ∣ pageAddr addr ∧ frame k + pageSize ≤ 2 ^ 48 := by
  have hphys := physOk_frame hk
  refine ⟨?_, hphys.1, ?_, ?_⟩
  · have := hphys.2
    simp only [noLma]
    omega
  · rw [pageAddr]
    exact Nat.dvd_mul_left _ _
  · simp only [frame, pageSize, maxNumPages] at *
    omega

/-- One page of the pool is mapped, unless the place is taken. -/
theorem setupOnePage_spec {T : Set Nat} {k : Nat} (hd : linear true d ≠ 0) (hk : k < maxNumPages)
    (haddr : pageAddr addr + pageSize ≤ 2 ^ 39) (hwf : PtWf true vm.mem d T)
    (hT : T ⊆ usedFrames vm.pagesUsage) :
    setupUserPageMapping (linear true d) (pageAddr addr) (frame k) pageSize false vm =
      .error .assertFailed ∨
    ∃ vm' T', setupUserPageMapping (linear true d) (pageAddr addr) (frame k) pageSize false vm =
        .ok vm' ∧ vm'.heap = vm.heap ∧ PtWf true vm'.mem d T' ∧
      TablesGrow true usedFrames d ⟨vm.mem, vm.pagesUsage⟩ ⟨vm'.mem, vm'.pagesUsage⟩ T T' ∧
      ∀ v, v < 2 ^ 39 → lookup true vm'.mem d v =
        if pageAddr v = pageAddr addr then some ((lookup true vm.mem d v).getD (frame k))
        else lookup true vm.mem d v := by
  obtain ⟨hne, hphys, hdvd, hle⟩ := onePage_args hk addr
  have hone : pageSize * numPages pageSize = pageSize := by decide
  rcases @setupUserPageMapping_spec κ d (pageAddr addr) (frame k) pageSize false vm T hd hne hphys
    hdvd (by rwa [hone]) (by rwa [hone]) hwf hT with
    herr | ⟨vm', T', hrun, hheap, hwf', hgrow, hlook⟩
  · exact Or.inl herr
  rw [hone] at hlook
  refine Or.inr ⟨vm', T', hrun, hheap, hwf', hgrow, fun v hv => ?_⟩
  obtain ⟨h₁, h₂, h₃⟩ := hlook v hv
  -- the pages before and after it stay as they are
  have hrange : (pageAddr addr ≤ pageAddr v ∧ pageAddr v < pageAddr addr + pageSize) ↔
      pageAddr v = pageAddr addr := by
    simp only [pageAddr, pageSize]
    omega
  split_ifs with heq
  · cases hold : lookup true vm.mem d v with
    | some a => simpa using h₁ a hold
    | none =>
        have hin := hrange.2 heq
        rw [h₂ hin.1 hin.2 hold, heq]
        simp
  · exact h₃ fun hin => heq (hrange.1 hin)

/-- The entry of that page. -/
theorem setupOnePage_leaf {vm' : VmState κ} {T : Set Nat} {k v : Nat} (hd : linear true d ≠ 0)
    (hk : k < maxNumPages) (haddr : pageAddr addr + pageSize ≤ 2 ^ 39) (hwf : PtWf true vm.mem d T)
    (hT : T ⊆ usedFrames vm.pagesUsage)
    (hrun : setupUserPageMapping (linear true d) (pageAddr addr) (frame k) pageSize false vm = .ok vm')
    (hv : v < 2 ^ 39) (hpage : pageAddr v = pageAddr addr) (hnone : lookup true vm.mem d v = none) :
    leafPte true vm'.mem d v = some (descriptor (frame k) (userAttrs false)) := by
  obtain ⟨hne, hphys, hdvd, hle⟩ := onePage_args hk addr
  have hone : pageSize * numPages pageSize = pageSize := by decide
  have hleaf := setupUserPageMapping_leaf hd hne hphys hdvd (by rwa [hone]) (by rwa [hone]) hwf hT hrun
    hv hpage.ge (by rw [hone, hpage]; exact Nat.lt_add_of_pos_right (by decide)) hnone
  rwa [hpage, Nat.sub_self, Nat.add_zero] at hleaf

/-- What `do_el0_sync` can do when there is a vma for the address, and a page. -/
theorem handleFault_page (h : SpaceOk vm.mem d mm)
    (hused : ∀ a ∈ footprint vm.mem d mm.mmap, ¬FreeFrame vm.pagesUsage a)
    (hvma : findVma mm.mmap addr ≠ none) (hpage : (getFreePages vm.pagesUsage 0).1 ≠ 0) :
    handleFault H (linear true d) addr mm vm = .error .assertFailed ∨
    ∃ k mmap' vm' T', handleFault H (linear true d) addr mm vm = .ok ({ mm with mmap := mmap' }, vm') ∧
      Faulted H d addr k mm vm mmap' vm' T' := by
  obtain ⟨vma, hfind⟩ := Option.ne_none_iff_exists'.1 hvma
  obtain ⟨hcov, l₁, l₂, hsplit, -, -⟩ := findVma_split hfind
  have hmem : vma ∈ mm.mmap := by simp [hsplit]
  have hok := h.layout.vma vma hmem
  have hcovp := VmArea.covers_iff.1 (hok.covers_pageAddr hcov)
  rcases hget : getFreePages vm.pagesUsage 0 with ⟨page, usage⟩
  rw [hget] at hpage
  simp only [handleFault, hget]
  rw [if_neg hpage]
  obtain ⟨k, hpagek, hk, hfree, rfl⟩ := getFreePages_one hget hpage
  have hframe : pa page = frame k := by rw [hpagek, pa_pagePool hk]
  have hwindow : pageAddr addr + pageSize ≤ 2 ^ 39 := by
    have := hok.end_le
    simp only [pageAddr, pageSize] at *
    omega
  -- the frames of the tables are in use, with the page as without it
  have hT : tableFrames vm.mem d ⊆ usedFrames (markPages vm.pagesUsage k 1 true) := by
    intro n hn
    have := tableFrames_used h.holdings hused hn
    exact (usedFrame_markPages (show k + 1 ≤ maxNumPages by omega)).2 (Or.inl this)
  rw [hframe]
  rcases @setupOnePage_spec κ d addr { vm with pagesUsage := markPages vm.pagesUsage k 1 true }
    (tableFrames vm.mem d) k (linear_ne_zero h.holdings) hk hwindow h.holdings.tables hT with
    herr | ⟨vm', T', hrun, hheap, hwf, hgrow, hlookup⟩
  · rw [herr]
    exact Or.inl rfl
  have hentries : EntriesKept true (tableFrames vm.mem d) vm.mem vm'.mem :=
    (setupUserPageMapping_kept (h.holdings.tables.pages d (root_mem_tableFrames _ d)).1
      h.holdings.tables.pages hT hrun).1
  rw [hrun]
  simp only [Except.map]
  refine Or.inr ?_
  have huser : pageAddr addr ≠ 0 := by
    have := hok.start_pos
    omega
  -- the page is mapped; only the record of it may still be refused
  rcases addPagesBlock_spec (H := H) vm'.heap 0 hvma huser hpage with
    ⟨heap', hadd, hnull⟩ | ⟨hsome, heap', pb, h₁, h₂, h₃, hadd⟩
  · refine ⟨k, mm.mmap, { vm' with heap := heap' }, T', by rw [hadd],
      ⟨hk, hfree, hwf, hgrow, hlookup, hentries, Or.inl ⟨rfl, ?_⟩⟩⟩
    rw [← hnull, hheap]
  · exact ⟨k, _, { vm' with heap := heap' }, T', by rw [hadd],
      ⟨hk, hfree, hwf, hgrow, hlookup, hentries, Or.inr ⟨hheap ▸ hsome, pb, h₁, h₂.trans hpagek, h₃, rfl⟩⟩⟩

/-- Everything that `do_el0_sync` can do when there is a vma for the address. -/
theorem handleFault_cases (h : SpaceOk vm.mem d mm)
    (hused : ∀ a ∈ footprint vm.mem d mm.mmap, ¬FreeFrame vm.pagesUsage a)
    (hvma : findVma mm.mmap addr ≠ none) :
    handleFault H (linear true d) addr mm vm = .ok (mm, vm) ∨
    handleFault H (linear true d) addr mm vm = .error .assertFailed ∨
    ∃ k mmap' vm' T', handleFault H (linear true d) addr mm vm = .ok ({ mm with mmap := mmap' }, vm') ∧
      Faulted H d addr k mm vm mmap' vm' T' := by
  by_cases hpage : (getFreePages vm.pagesUsage 0).1 = 0
  · refine Or.inl ?_
    simp only [handleFault, hpage, if_true]
  · exact Or.inr (handleFault_page h hused hvma hpage)

/-! ### The invariant after an exception -/

variable {k : Nat} {mmap' : List VmArea} {vm' : VmState κ} {T' : Set Nat}

/-- The place of the vmas is not changed. -/
theorem Faulted.bare (hf : Faulted H d addr k mm vm mmap' vm' T') :
    mmap'.map VmArea.bare = mm.mmap.map VmArea.bare := by
  rcases hf.blocks with ⟨rfl, -⟩ | ⟨-, pb, -, -, -, rfl⟩
  · rfl
  · exact map_bare_updateVma (f := appendBlock pb) (fun _ => rfl) mm.mmap

/-- The block of a page. -/
theorem onePage_frames {pb : PagesBlock} (hk : k < maxNumPages)
    (hlin : pb.linearAddr = pagePoolStart + pageSize * k) (horder : pb.order = 0) :
    pb.Valid ∧ pb.frames = [frame k] := by
  have hend : k + numOfOrder pb.order ≤ maxNumPages := by
    rw [horder, numOfOrder_zero]
    omega
  have hpos : 0 < numOfOrder pb.order := by
    rw [horder]
    decide
  refine ⟨⟨k, hlin, hend, hpos⟩, ?_⟩
  rw [PagesBlock.Valid.frames_eq hlin hend hpos, horder]
  rfl

/-- The pages of the lists of blocks after a page has been entered. -/
theorem blockFrames_appendPage {mmap : List VmArea} {pb : PagesBlock} (hk : k < maxNumPages)
    (hlin : pb.linearAddr = pagePoolStart + pageSize * k) (horder : pb.order = 0)
    (hvma : findVma mmap addr ≠ none) :
    (blockFrames (updateVma addr (appendBlock pb) mmap)).Perm (frame k :: blockFrames mmap) := by
  refine ((blocks_appendBlock hvma).flatMap_right _).trans ?_
  rw [List.flatMap_cons, (onePage_frames hk hlin horder).2]
  exact List.Perm.refl _

/-- The pages of the new lists of blocks. -/
theorem Faulted.blockFrames (hf : Faulted H d addr k mm vm mmap' vm' T')
    (hvma : findVma mm.mmap addr ≠ none) :
    mmap' = mm.mmap ∨ (blockFrames mmap').Perm (frame k :: blockFrames mm.mmap) := by
  rcases hf.blocks with ⟨rfl, -⟩ | ⟨-, pb, -, hlin, horder, rfl⟩
  · exact Or.inl rfl
  · exact Or.inr (blockFrames_appendPage hf.lt hlin horder hvma)

/-- A table is an old one, or it comes from another free page. -/
theorem Faulted.table (hf : Faulted H d addr k mm vm mmap' vm' T') {n : Nat} (hn : n ∈ T') :
    n ∈ tableFrames vm.mem d ∨ FreeFrame vm.pagesUsage n ∧ n ≠ frame k := by
  have hused := hf.grow.tables_given hn
  have hpool := UsedFrame.inPool hused
  have hdvd := (UsedFrame.page hused).1
  have hlt := hf.lt
  have hmark : ∀ a, UsedFrame (markPages vm.pagesUsage k 1 true) a ↔
      UsedFrame vm.pagesUsage a ∨ ∃ l, k ≤ l ∧ l < k + 1 ∧ a = frame l := fun a =>
    usedFrame_markPages (by omega)
  rcases hf.grow.new n hn with hn' | hn'
  · exact Or.inl hn'
  · rw [mem_usedFrames, hmark, not_or] at hn'
    refine Or.inr ⟨?_, fun heq => hn'.2 ⟨k, by omega, by omega, heq⟩⟩
    by_contra hno
    exact hn'.1 (usedFrame_of_not_freeFrame hpool hdvd hno)

/-- A mapped page was mapped before, or it is the new one. -/
theorem Faulted.mapped (hf : Faulted H d addr k mm vm mmap' vm' T') {v a : Nat}
    (ha : Mm.lookup true vm'.mem d v = some a) :
    Mm.lookup true vm.mem d v = some a ∨
      a = frame k ∧ Mm.lookup true vm.mem d v = none ∧ pageAddr (v % 2 ^ 39) = pageAddr addr := by
  rw [← lookup_mod, hf.lookup _ (mod_window_lt v)] at ha
  rw [← lookup_mod vm.mem]
  split_ifs at ha with heq
  · cases hold : Mm.lookup true vm.mem d (v % 2 ^ 39) with
    | some b =>
        rw [hold] at ha
        exact Or.inl ha
    | none =>
        rw [hold] at ha
        exact Or.inr ⟨(Option.some.inj ha).symm, rfl, heq⟩
  · exact Or.inl ha

theorem Faulted.kept (hf : Faulted H d addr k mm vm mmap' vm' T') {v a : Nat} (hv : v < 2 ^ 39)
    (ha : Mm.lookup true vm.mem d v = some a) : Mm.lookup true vm'.mem d v = some a := by
  rw [hf.lookup v hv]
  split_ifs <;> simp [ha]

theorem Faulted.holdings (hf : Faulted H d addr k mm vm mmap' vm' T') (h : SpaceOk vm.mem d mm)
    (hused : ∀ a ∈ footprint vm.mem d mm.mmap, ¬FreeFrame vm.pagesUsage a)
    (hvma : findVma mm.mmap addr ≠ none) : Holdings vm'.mem d mmap' := by
  have hfree : FreeFrame vm.pagesUsage (frame k) := ⟨k, hf.lt, hf.free, rfl⟩
  have hfresh : frame k ∉ footprint vm.mem d mm.mmap := fun hin => hused _ hin hfree
  have hsub := tableFrames_subset hf.wf
  -- the new tables are neither blocks nor mapped
  have hnoblock : ∀ n ∈ T', n ∉ Kernel.blockFrames mm.mmap := by
    intro n hn hin
    rcases hf.table hn with hn' | hn'
    · exact h.holdings.tables_blocks n hn' hin
    · exact hused n (Or.inr (Or.inl hin)) hn'.1
  have hnomap : ∀ n ∈ T', ∀ v, Mm.lookup true vm.mem d v ≠ some n := by
    intro n hn v hv
    rcases hf.table hn with hn' | hn'
    · exact h.holdings.tables_mapped v n hv hn'
    · exact hused n (Or.inr (Or.inr ⟨FreeFrame.inPool hn'.1, v, hv⟩)) hn'.1
  have hnoframe : frame k ∉ T' := by
    intro hn
    rcases hf.table hn with hn' | hn'
    · exact hfresh (Or.inl hn')
    · exact hn'.2 rfl
  refine ⟨ptWf_self hf.wf, ?_, ?_, ?_, ?_, ?_, ?_⟩
  · intro n hn
    exact UsedFrame.inPool (hf.grow.tables_given (hsub hn))
  · rcases hf.blocks with ⟨rfl, -⟩ | ⟨-, pb, -, hlin, horder, rfl⟩
    · exact h.holdings.blocks_valid
    · intro p hp
      rcases List.mem_cons.1 ((blocks_appendBlock hvma).mem_iff.1 hp) with rfl | hp
      · exact (onePage_frames hf.lt hlin horder).1
      · exact h.holdings.blocks_valid p hp
  · rcases hf.blockFrames hvma with rfl | hperm
    · exact h.holdings.blocks_nodup
    · rw [hperm.nodup_iff, List.nodup_cons]
      exact ⟨fun hin => hfresh (Or.inr (Or.inl hin)), h.holdings.blocks_nodup⟩
  · intro n hn hin
    rcases hf.blockFrames hvma with rfl | hperm
    · exact hnoblock n (hsub hn) hin
    · rcases List.mem_cons.1 (hperm.mem_iff.1 hin) with rfl | hin
      · exact hnoframe (hsub hn)
      · exact hnoblock n (hsub hn) hin
  · intro v a ha hin
    rcases hf.mapped ha with hold | ⟨rfl, -, -⟩
    · exact hnomap a (hsub hin) v hold
    · exact hnoframe (hsub hin)
  · intro v v' a ha ha' hpool
    rcases hf.mapped ha with hold | ⟨rfl, -, hpage⟩ <;> rcases hf.mapped ha' with hold' | ⟨h', -, hpage'⟩
    · exact h.holdings.mapped_inj v v' a hold hold' hpool
    · exact absurd (Or.inr (Or.inr ⟨hpool, v, hold⟩)) (h' ▸ hfresh)
    · exact absurd (Or.inr (Or.inr ⟨hpool, v', hold'⟩)) hfresh
    · rw [pathOf_eq_iff]
      simp only [pageAddr, pageSize] at hpage hpage'
      omega

/-- A vma after the exception, its old self, and the block it may have got. -/
theorem Faulted.vma (hf : Faulted H d addr k mm vm mmap' vm' T') {x : VmArea} (hx : x ∈ mmap') :
    ∃ y ∈ mm.mmap, y.bare = x.bare ∧ ∀ pb ∈ x.pagesBlockList, pb ∈ y.pagesBlockList ∨
      pb.userVirtAddr = pageAddr addr ∧ pb.frames = [frame k] ∧ x.covers addr = true := by
  rcases hf.blocks with ⟨rfl, -⟩ | ⟨-, pb, huser, hlin, horder, rfl⟩
  · exact ⟨x, hx, rfl, fun p hp => Or.inl hp⟩
  · rcases mem_updateVma hx with hx | ⟨y, hy, rfl⟩
    · exact ⟨x, hx, rfl, fun p hp => Or.inl hp⟩
    · obtain ⟨hmem, hcov⟩ := findVma_mem hy
      refine ⟨y, hmem, rfl, fun p hp => ?_⟩
      rcases List.mem_append.1 hp with hp | hp
      · exact Or.inl hp
      · rw [List.mem_singleton] at hp
        subst hp
        exact Or.inr ⟨huser, (onePage_frames hf.lt hlin horder).2, hcov⟩

/-- A vma with a page of the heap is the heap. -/
theorem VmArea.Ok.covers_brk {startBrk brk v : Nat} {vma : VmArea} (h : vma.Ok startBrk brk)
    (hdvd : pageSize ∣ startBrk) (hcov : vma.covers addr = true) (hge : startBrk ≤ v)
    (hlt : v < maxBrkAddr) (hpage : pageAddr v = pageAddr addr) : vma.covers startBrk = true := by
  rw [VmArea.covers_iff] at hcov ⊢
  have hstart := h.start_dvd
  simp only [pageAddr, pageSize, maxBrkAddr] at *
  rcases h.place with ⟨hs, -, -⟩ | hend | hbegin
  · omega
  · omega
  · simp only [maxBrkAddr] at hbegin
    omega

theorem Faulted.maps (hf : Faulted H d addr k mm vm mmap' vm' T') (h : SpaceOk vm.mem d mm)
    (hused : ∀ a ∈ footprint vm.mem d mm.mmap, ¬FreeFrame vm.pagesUsage a)
    (hvma : findVma mm.mmap addr ≠ none) : Maps vm'.mem d { mm with mmap := mmap' } := by
  have hfree : FreeFrame vm.pagesUsage (frame k) := ⟨k, hf.lt, hf.free, rfl⟩
  have hfresh : frame k ∉ footprint vm.mem d mm.mmap := fun hin => hused _ hin hfree
  have hpool : InPool (frame k) := FreeFrame.inPool hfree
  refine ⟨?_, ?_, ?_, ?_, ?_⟩
  · intro v a ha
    rcases hf.mapped ha with hold | ⟨rfl, -, -⟩
    · exact h.maps.place v a hold
    · exact Or.inl hpool
  · intro v a hv ha
    have hcover : ∃ y ∈ mm.mmap, y.covers (pageAddr v) = true := by
      rcases hf.mapped ha with hold | ⟨rfl, -, hpage⟩
      · exact h.maps.covered v a hv hold
      · obtain ⟨y, hy⟩ := Option.ne_none_iff_exists'.1 hvma
        obtain ⟨hmem, hcov⟩ := findVma_mem hy
        rw [Nat.mod_eq_of_lt hv] at hpage
        rw [hpage]
        exact ⟨y, hmem, (h.layout.vma y hmem).covers_pageAddr hcov⟩
    obtain ⟨y, hy, hcov⟩ := hcover
    obtain ⟨x, hx, hbare⟩ := bare_mem hf.bare.symm hy
    rw [← covers_congr hbare] at hcov
    exact ⟨x, hx, hcov⟩
  · intro x hx hlma v hv hcov
    obtain ⟨y, hy, hbare, -⟩ := hf.vma hx
    rw [← lma_congr hbare] at hlma
    rw [← covers_congr hbare] at hcov
    rw [← target_congr hbare]
    exact hf.kept hv (h.maps.static y hy hlma v hv hcov)
  · intro x hx hlma v a hv hcov ha
    obtain ⟨y, hy, hbare, -⟩ := hf.vma hx
    rw [← lma_congr hbare] at hlma
    rw [← covers_congr hbare] at hcov
    rcases hf.mapped ha with hold | ⟨rfl, -, -⟩
    · exact h.maps.demand y hy hlma v a hv hcov hold
    · exact hpool
  · intro v a hge hlt ha x hx pb hpb hmem
    dsimp only at hge hx ⊢
    obtain ⟨y, hy, hbare, hblocks⟩ := hf.vma hx
    have hv : v < 2 ^ 39 := hlt.trans (by decide)
    rcases hf.mapped ha with hold | ⟨rfl, -, hpage⟩
    · rcases hblocks pb hpb with hpb | ⟨-, hframes, -⟩
      · rw [← covers_congr hbare]
        exact h.maps.heap v a hge hlt hold y hy pb hpb hmem
      · -- the new page was not mapped
        rw [hframes, List.mem_singleton] at hmem
        subst hmem
        exact absurd (Or.inr (Or.inr ⟨hpool, v, hold⟩)) hfresh
    · rcases hblocks pb hpb with hpb | ⟨huser, -, hcov⟩
      · exact absurd (Or.inr (Or.inl (mem_blockFrames hy hpb hmem))) hfresh
      · rw [Nat.mod_eq_of_lt hv] at hpage
        refine ⟨?_, by rw [huser, hpage]⟩
        rw [← covers_congr hbare] at hcov ⊢
        exact (h.layout.vma y hy).covers_brk h.layout.brk_dvd hcov hge hlt hpage

/-- An exception keeps the address space in order. -/
theorem Faulted.step (hf : Faulted H d addr k mm vm mmap' vm' T') (h : SpaceOk vm.mem d mm)
    (hused : ∀ a ∈ footprint vm.mem d mm.mmap, ¬FreeFrame vm.pagesUsage a)
    (hvma : findVma mm.mmap addr ≠ none) : SpaceStep d mm vm { mm with mmap := mmap' } vm' := by
  have hlt := hf.lt
  refine ⟨⟨h.layout.congr hf.bare, hf.holdings h hused hvma, hf.maps h hused hvma⟩, ?_, rfl, ?_⟩
  · -- first the page is taken, then the tables grow
    have htake : Local pageOf (footprint vm.mem d mm.mmap)
        (footprint vm.mem d mm.mmap ∪ {a | ∃ l, k ≤ l ∧ l < k + 1 ∧ a = frame l}) vm.world
        { mem := vm.mem, free := FreeFrame (markPages vm.pagesUsage k 1 true) } :=
      local_markPages (by omega) (fun l h₁ h₂ => by
        obtain rfl : l = k := by omega
        exact hf.free) hused
    have hgrow := (local_of_tablesGrow hf.grow hf.wf.pages).frame htake.held
      fun n _ hn => hf.grow.subset hn
    refine htake.trans (hgrow.weaken (Set.union_subset (fun n hn => Or.inl (Or.inl hn)) subset_rfl) ?_)
    -- everything owned afterwards is among the new tables, the new page and what was owned before
    rintro a (ha | ha | ⟨hpool, v, ha⟩)
    · exact Or.inl (tableFrames_subset hf.wf ha)
    · rcases hf.blockFrames hvma with rfl | hperm
      · exact Or.inr (Or.inl (Or.inr (Or.inl ha)))
      · rcases List.mem_cons.1 (hperm.mem_iff.1 ha) with rfl | ha
        · exact Or.inr (Or.inr ⟨k, Nat.le_refl k, by omega, rfl⟩)
        · exact Or.inr (Or.inl (Or.inr (Or.inl ha)))
    · rcases hf.mapped ha with hold | ⟨rfl, -, -⟩
      · exact Or.inr (Or.inl (Or.inr (Or.inr ⟨hpool, v, hold⟩)))
      · exact Or.inr (Or.inr ⟨k, Nat.le_refl k, by omega, rfl⟩)
  · intro x hx
    exact Or.inl (bare_mem hf.bare hx)

/-- When the page is entered in a list, it is not lost. -/
theorem Faulted.lossless (hf : Faulted H d addr k mm vm mmap' vm' T')
    (hvma : findVma mm.mmap addr ≠ none) (hlisted : (H.kmalloc vm.heap sizeofPagesBlock).1 ≠ 0) :
    Lossless (footprint vm.mem d mm.mmap) (footprint vm'.mem d mmap') vm.world vm'.world := by
  have hperm : (Kernel.blockFrames mmap').Perm (frame k :: Kernel.blockFrames mm.mmap) := by
    rcases hf.blocks with ⟨-, hnull⟩ | ⟨-, pb, -, hlin, horder, rfl⟩
    · exact absurd hnull hlisted
    · exact blockFrames_appendPage hf.lt hlin horder hvma
  have htake := @lossless_markPages vm.mem vm.pagesUsage k 1 (footprint vm.mem d mm.mmap)
  have hgrow := (lossless_of_tablesGrow hf.grow).frame
    (footprint vm.mem d mm.mmap ∪ {a | ∃ l, k ≤ l ∧ l < k + 1 ∧ a = frame l})
  intro a ha
  refine (hgrow a ((htake a ha).imp_right Or.inr)).imp_right ?_
  -- what was owned, the page and the new tables are owned afterwards
  rintro (ht | (ht | ht | ⟨hpool, v, hv⟩) | ⟨l, h₁, h₂, rfl⟩)
  · exact Or.inl (hf.grow.reached (fun n hn => hn) a ht)
  · exact Or.inl (hf.grow.reached (fun n hn => hn) a (hf.grow.subset ht))
  · exact Or.inr (Or.inl (hperm.mem_iff.2 (List.mem_cons_of_mem _ ht)))
  · refine Or.inr (Or.inr ⟨hpool, v % 2 ^ 39, hf.kept (mod_window_lt v) ?_⟩)
    rw [lookup_mod, hv]
  · obtain rfl : l = k := by omega
    exact Or.inr (Or.inl (hperm.mem_iff.2 List.mem_cons_self))

theorem SpaceStep.refl (h : SpaceOk vm.mem d mm)
    (hused : ∀ a ∈ footprint vm.mem d mm.mmap, ¬FreeFrame vm.pagesUsage a) :
    SpaceStep d mm vm mm vm :=
  ⟨h, Local.refl hused, rfl, fun x hx => Or.inl ⟨x, hx, rfl⟩⟩

/-- `do_el0_sync` on an address that has a vma. -/
theorem handleFault_spec (h : SpaceOk vm.mem d mm)
    (hused : ∀ a ∈ footprint vm.mem d mm.mmap, ¬FreeFrame vm.pagesUsage a)
    (hvma : findVma mm.mmap addr ≠ none) :
    handleFault H (linear true d) addr mm vm = .error .assertFailed ∨
    ∃ mm' vm', handleFault H (linear true d) addr mm vm = .ok (mm', vm') ∧
      SpaceStep d mm vm mm' vm' := by
  rcases handleFault_cases (H := H) h hused hvma with hnone | herr | ⟨k, mmap', vm', T', hok, hf⟩
  · exact Or.inr ⟨mm, vm, hnone, SpaceStep.refl h hused⟩
  · exact Or.inl herr
  · exact Or.inr ⟨_, vm', hok, hf.step h hused hvma⟩

end Fault

end Kernel
end ToutOS
