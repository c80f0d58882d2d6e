import ToutOS.Base.Relate
import ToutOS.Kernel.Forking

/-!
# Agree — the same call on two memories

Two memories agree on a set of pages.  When the page tables of a call are among these pages, the call
takes the same way on both memories: it fails in both for the same reason, or it leaves the same
`pages_usage` and the same state of `kmalloc`, and memories that agree again.

* `AgreeOn` — the memories agree, with the rules for stores;
* `setupPgForAddr_agree`, `setupUserPageMappings_agree` — building tables: new ones are cleared, so
  the memories agree on them as well;
* `unmapLoop_agree`, `exitMm_agree` — taking them down;
* `forkVmas_agree` — copying: the memories need not agree on the copies.
-/

namespace ToutOS
namespace Kernel

open Base Mm

variable {κ : Type} {H : KernelHeap κ}

/-! ## Memories that agree on some pages -/

/-- The memories agree on the pages of `C`. -/
def AgreeOn (C : Set Nat) (m m₂ : Mem) : Prop := ∀ n ∈ C, ∀ x, InPage true n x → m₂ x = m x

variable {C : Set Nat} {m m₂ : Mem}

theorem AgreeOn.mono (h : AgreeOn C m m₂) {C' : Set Nat} (hsub : C' ⊆ C) : AgreeOn C' m m₂ :=
  fun n hn => h n (hsub hn)

theorem AgreeOn.store (h : AgreeOn C m m₂) (a n v : Nat) :
    AgreeOn C (Base.store m a n v) (Base.store m₂ a n v) := by
  intro k hk x hx
  simp only [Base.store, h k hk x hx]

/-- A page that is cleared in both memories. -/
theorem AgreeOn.fill (h : AgreeOn C m m₂) (n : Nat) :
    AgreeOn (insert n C) (Base.fill m (linear true n) pageSize 0)
      (Base.fill m₂ (linear true n) pageSize 0) := by
  rintro k (rfl | hk) x hx
  · rw [fill_apply_of_mem hx.1 hx.2, fill_apply_of_mem hx.1 hx.2]
  · simp only [Base.fill, h k hk x hx]

/-- Changes to other pages. -/
theorem AgreeOn.write (h : AgreeOn C m m₂) {m' m₂' : Mem}
    (hm : ∀ n ∈ C, ∀ x, InPage true n x → m' x = m x)
    (hm₂ : ∀ n ∈ C, ∀ x, InPage true n x → m₂' x = m₂ x) : AgreeOn C m' m₂' := by
  intro n hn x hx
  rw [hm n hn x hx, hm₂ n hn x hx, h n hn x hx]

theorem AgreeOn.load_entry (h : AgreeOn C m m₂) {n : Nat} (hn : n ∈ C) (i : Fin 512) :
    load m₂ (entryAddr (linear true n) i) 8 = load m (entryAddr (linear true n) i) 8 :=
  load_congr fun x h₁ h₂ => h n hn x (inPage_entry h₁ h₂)

theorem AgreeOn.ptSlot (h : AgreeOn C m m₂) {n : Nat} (hn : n ∈ C) (i : Fin 512) :
    ptSlot true m₂ n i = ptSlot true m n i := ptSlot_congr (h n hn) i

/-! ## Building tables -/

/-- The pages that have been taken from the pool. -/
def newlyUsed (usage usage' : PagesUsage) : Set Nat :=
  {a | UsedFrame usage' a ∧ ¬UsedFrame usage a}

theorem newlyUsed_trans (u u' u'' : PagesUsage) :
    newlyUsed u u'' ⊆ newlyUsed u u' ∪ newlyUsed u' u'' := by
  rintro a ⟨ha, hno⟩
  by_cases hmid : UsedFrame u' a
  · exact Or.inl ⟨hmid, hno⟩
  · exact Or.inr ⟨ha, hmid⟩

theorem union_newlyUsed_subset {u u' : PagesUsage} {C' : Set Nat} (hC : C ⊆ C')
    (hnew : newlyUsed u u' ⊆ C') (u'' : PagesUsage) :
    C ∪ newlyUsed u u'' ⊆ C' ∪ newlyUsed u' u'' := by
  rintro a (ha | ha)
  · exact Or.inl (hC ha)
  · exact (newlyUsed_trans u u' u'' ha).imp_left (@hnew a)

theorem newlyUsed_self (usage : PagesUsage) : newlyUsed usage usage = ∅ := by
  ext a
  exact ⟨fun ha => ha.2 ha.1, fun ha => ha.elim⟩

/-- Two states of the building of a table that began with `usage`. -/
def PtAgree (C : Set Nat) (usage : PagesUsage) (st st₂ : PtState PagesUsage) : Prop :=
  st₂.alloc = st.alloc ∧ AgreeOn (C ∪ newlyUsed usage st.alloc) st.mem st₂.mem

theorem PtAgree.refl {st st₂ : PtState PagesUsage} (halloc : st₂.alloc = st.alloc)
    (hagree : AgreeOn C st.mem st₂.mem) : PtAgree C st.alloc st st₂ :=
  ⟨halloc, by rwa [newlyUsed_self, Set.union_empty]⟩

theorem PtAgree.weaken {usage usage' : PagesUsage} {C' : Set Nat} {st st₂ : PtState PagesUsage}
    (h : PtAgree C' usage' st st₂) (hC : C ⊆ C') (hnew : newlyUsed usage usage' ⊆ C') :
    PtAgree C usage st st₂ :=
  ⟨h.1, h.2.mono (union_newlyUsed_subset hC hnew st.alloc)⟩

/-- `get_zeroed_pages` returns the same page, whatever is in memory. -/
theorem getZeroedPages_both (m m₂ : Mem) (usage : PagesUsage) :
    (getZeroedPages 0 m usage = (0, m, usage) ∧ getZeroedPages 0 m₂ usage = (0, m₂, usage)) ∨
    ∃ k, k < maxNumPages ∧ usage k = false ∧
      getZeroedPages 0 m usage =
        (linear true (frame k), fill m (linear true (frame k)) pageSize 0, markPages usage k 1 true) ∧
      getZeroedPages 0 m₂ usage =
        (linear true (frame k), fill m₂ (linear true (frame k)) pageSize 0, markPages usage k 1 true) := by
  rcases hget : getFreePages usage 0 with ⟨p, usage'⟩
  simp only [getZeroedPages, hget, numOfOrder_zero, Nat.mul_one]
  by_cases hp : p = 0
  · rcases getFreePages_spec hget with ⟨-, rfl⟩ | ⟨first, hfirst, -⟩
    · exact Or.inl (by simp [hp])
    · exact absurd (hfirst.symm.trans hp) (pagePool_ne_zero first)
  · obtain ⟨k, hk, hlt, hfree, rfl⟩ := getFreePages_one hget hp
    rw [← linear_frame hlt] at hk
    exact Or.inr ⟨k, hlt, hfree, by rw [if_pos hp, hk], by rw [if_pos hp, hk]⟩

/-- Only the page that is handed out comes into use. -/
theorem newlyUsed_markPages (usage : PagesUsage) {k : Nat} (hk : k < maxNumPages) :
    newlyUsed usage (markPages usage k 1 true) ⊆ {frame k} := by
  rintro a ⟨ha, hno⟩
  rcases (usedFrame_markPages (by omega)).1 ha with ha | ⟨l, h₁, h₂, rfl⟩
  · exact absurd ha hno
  · rw [Set.mem_singleton_iff, show l = k by omega]

section Setup

variable {phyAddr virtAddr attrs : Nat}

/-- One entry of an upper level that is filled with a new table. -/
theorem fillTable_agree (h64 : attrs < 2 ^ 64) {layer t : Nat} (i : Fin 512)
    (hlayer : layer ≠ 12) {st st₂ : PtState PagesUsage} (halloc : st₂.alloc = st.alloc)
    (hagree : AgreeOn C st.mem st₂.mem) (ht : UsedFrame st.alloc t) :
    Together (fun st' st₂' => ∃ k, k < maxNumPages ∧ st'.alloc = markPages st.alloc k 1 true ∧
        st₂'.alloc = st'.alloc ∧ AgreeOn (insert (frame k) C) st'.mem st₂'.mem ∧
        (∀ j, ptSlot true st'.mem (frame k) j = none) ∧
        load st'.mem (entryAddr (linear true t) i) 8 = descriptor (frame k) attrs ∧
        load st₂'.mem (entryAddr (linear true t) i) 8 = descriptor (frame k) attrs)
      (fillEntry (getZeroedPages 0) true phyAddr attrs layer (entryAddr (linear true t) i) st)
      (fillEntry (getZeroedPages 0) true phyAddr attrs layer (entryAddr (linear true t) i) st₂) := by
  simp only [fillEntry, if_pos hlayer, halloc]
  rcases getZeroedPages_both st.mem st₂.mem st.alloc with ⟨h, h₂⟩ | ⟨k, hk, hfree, h, h₂⟩
  · simp only [h, h₂, if_true]
    exact .error _
  have hpage := isPage_frame hk
  have hne : linear true (frame k) ≠ 0 := by
    rw [linear_frame hk]
    exact pagePool_ne_zero k
  have haligned : linear true (frame k) % pageSize = 0 :=
    Nat.mod_eq_zero_of_dvd (dvd_linear true hpage.1)
  have hphys : physical true (linear true (frame k)) = frame k := physical_linear true hpage.2
  have hdesc : descriptor (frame k) attrs < 256 ^ 8 := by
    simpa using descriptor_lt (physOk_frame hk) h64
  simp only [h, h₂, if_neg hne, haligned, ne_eq, not_true_eq_false, if_false, hphys]
  refine Together.ok ⟨k, hk, rfl, rfl, (hagree.fill (frame k)).store _ _ _, fun j => ?_,
    load_store_same hdesc, load_store_same hdesc⟩
  -- the entry is not in the new table, which was free
  have htk : frame k ≠ t := by
    rintro rfl
    exact not_freeFrame_of_usedFrame ht ⟨k, hk, hfree, rfl⟩
  refine ptSlot_zero (fun x hx => ?_) j
  have hout : ¬(entryAddr (linear true t) i ≤ x ∧ x < entryAddr (linear true t) i + 8) := fun hin =>
    htk (inPage_unique hpage (UsedFrame.page ht) hx (inPage_entry hin.1 hin.2))
  dsimp only
  rw [store_same hout]
  exact fill_apply_of_mem hx.1 hx.2

/-- The loop of `setup_pg_for_addr` from the table `t` on, whose tables are clean. -/
theorem setupPgLoop_agree (hattrs : AttrsOk attrs) (h64 : attrs < 2 ^ 64) :
    ∀ {ls : List Nat} {t : Nat} {C : Set Nat} {st st₂ : PtState PagesUsage},
      ls.Pairwise (fun a _ => a ≠ 12) → st₂.alloc = st.alloc → AgreeOn C st.mem st₂.mem →
      (∀ (π : List (Fin 512)) n, π.length < ls.length → descend (ptSlot true st.mem) t π = some n →
        n ∈ C ∧ UsedFrame st.alloc n) →
      Together (PtAgree C st.alloc)
        (setupPgLoop (getZeroedPages 0) true phyAddr virtAddr attrs ls (linear true t) st)
        (setupPgLoop (getZeroedPages 0) true phyAddr virtAddr attrs ls (linear true t) st₂) := by
  intro ls
  induction ls with
  | nil =>
      intro t C st st₂ _ halloc hagree _
      exact .ok (.refl halloc hagree)
  | cons layer rest ih =>
      intro t C st st₂ hls halloc hagree hclean
      obtain ⟨hlayer, hls⟩ := List.pairwise_cons.1 hls
      obtain ⟨ht, hused⟩ := hclean [] t (by simp) rfl
      have hsame := hagree.load_entry ht (getPgEntryIndex virtAddr layer)
      rcases eq_or_ne (load st.mem (entryAddr (linear true t) (getPgEntryIndex virtAddr layer)) 8) 0
        with hload | hload
      · simp only [setupPgLoop]
        rw [if_pos hload, if_pos (hsame.trans hload)]
        by_cases h12 : layer = 12
        · -- the last level: the page itself is entered
          obtain rfl : rest = [] := by
            cases rest with
            | nil => rfl
            | cons l rest => exact absurd h12 (hlayer l (by simp))
          simp only [fillEntry, if_neg (not_not.2 h12), except_bind_ok]
          exact .ok (@PtAgree.refl C { st with mem := _ } { st₂ with mem := _ } halloc
            (hagree.store _ _ _))
        · refine (fillTable_agree h64 _ h12 halloc hagree hused).bind ?_
          rintro st' st₂' - - ⟨k, hk, hmark, halloc', hagree', hempty, hentry, hentry₂⟩
          have hphys := getPhyAddr_descriptor (physOk_frame hk) hattrs
          rw [hentry, hentry₂, hphys]
          have hmarked : UsedFrame st'.alloc (frame k) := by
            rw [hmark]
            exact (usedFrame_markPages (by omega)).2 (Or.inr ⟨k, Nat.le_refl k, by omega, rfl⟩)
          have hnext : ∀ (π : List (Fin 512)) n, π.length < rest.length →
              descend (ptSlot true st'.mem) (frame k) π = some n →
              n ∈ insert (frame k) C ∧ UsedFrame st'.alloc n := by
            intro π n _ hn
            cases π with
            | nil =>
                cases hn
                exact ⟨Set.mem_insert _ _, hmarked⟩
            | cons j π => simp [descend, hempty] at hn
          refine (ih hls halloc' hagree' hnext).mono fun b b' hb =>
            hb.weaken (Set.subset_insert _ _) ?_
          rw [hmark]
          exact (newlyUsed_markPages st.alloc hk).trans (by simp)
      · simp only [setupPgLoop]
        rw [if_neg hload, if_neg (by rw [hsame]; exact hload), except_bind_ok, except_bind_ok, hsame]
        refine ih hls halloc hagree fun π n hπ hn => ?_
        refine hclean (getPgEntryIndex virtAddr layer :: π) n (by simpa using hπ) ?_
        simpa [descend, ptSlot, hload] using hn

variable {d : Nat} {st st₂ : PtState PagesUsage} {T T' : Set Nat}

/-- The tables of a tree are clean, and new ones are cleared. -/
theorem tablesGrow_clean {st' : PtState PagesUsage}
    (h : TablesGrow true usedFrames d st st' T T') (hC : T ⊆ C) :
    T' ⊆ C ∪ newlyUsed st.alloc st'.alloc := by
  intro n hn
  rcases h.new n hn with hold | hnew
  · exact Or.inl (hC hold)
  · exact Or.inr ⟨h.tables_given hn, hnew⟩

theorem setupPgForAddr_agree (hattrs : AttrsOk attrs) (h64 : attrs < 2 ^ 64)
    (hwf : PtWf true st.mem d T) (hT : T ⊆ usedFrames st.alloc) (hC : T ⊆ C)
    (halloc : st₂.alloc = st.alloc) (hagree : AgreeOn C st.mem st₂.mem) :
    Together (PtAgree C st.alloc)
      (setupPgForAddr (getZeroedPages 0) true (linear true d) phyAddr virtAddr attrs st)
      (setupPgForAddr (getZeroedPages 0) true (linear true d) phyAddr virtAddr attrs st₂) :=
  setupPgLoop_agree hattrs h64 (by decide) halloc hagree fun π n hπ hn =>
    ⟨hC (hwf.tables π n hπ hn), hT (hwf.tables π n hπ hn)⟩

/-- The loop of `add_single_map`. -/
theorem addSingleMapLoop_agree (hattrs : AttrsOk attrs) (h64 : attrs < 2 ^ 64) {endAddr : Nat}
    (hend : endAddr ≤ 2 ^ 48) :
    ∀ {fuel phy : Nat} (virt : Nat) {st st₂ : PtState PagesUsage} {T C : Set Nat}, pageSize ∣ phy →
      PtWf true st.mem d T → T ⊆ usedFrames st.alloc → T ⊆ C → st₂.alloc = st.alloc →
      AgreeOn C st.mem st₂.mem →
      Together (PtAgree C st.alloc)
        (addSingleMapLoop (getZeroedPages 0) true (linear true d) endAddr attrs fuel phy virt st)
        (addSingleMapLoop (getZeroedPages 0) true (linear true d) endAddr attrs fuel phy virt st₂) := by
  intro fuel
  induction fuel with
  | zero =>
      intro phy virt st st₂ T C _ _ _ _ halloc hagree
      rw [addSingleMapLoop, addSingleMapLoop]
      split_ifs
      · exact .error _
      · exact .ok (.refl halloc hagree)
  | succ fuel ih =>
      intro phy virt st st₂ T C hdvd hwf hT hC halloc hagree
      rw [addSingleMapLoop, addSingleMapLoop]
      split_ifs with hlt
      · refine (setupPgForAddr_agree hattrs h64 hwf hT hC halloc hagree).bind ?_
        rintro st' st₂' hok - ⟨halloc', hagree'⟩
        rcases setupPgForAddr_spec getZeroedPages_ok hwf hT hattrs h64
          (show PhysOk phy from ⟨hdvd, by omega⟩) virt with herr | ⟨st'', T', hok', hwf', hgrow, -⟩
        · rw [herr] at hok
          cases hok
        obtain rfl : st'' = st' := Except.ok.inj (hok'.symm.trans hok)
        have hnext : pageSize ∣ add64 phy pageSize := by
          simp only [add64, pageSize] at *
          omega
        exact (ih (add64 virt pageSize) hnext hwf' hgrow.tables_given (tablesGrow_clean hgrow hC) halloc'
          hagree').mono fun b b' hb => hb.weaken Set.subset_union_left Set.subset_union_right
      · exact .ok (.refl halloc hagree)

end Setup

/-! ### Mappings of user memory -/

/-- Two states of the same call. -/
structure VmAgree (C : Set Nat) (vm vm₂ : VmState κ) : Prop where
  usage : vm₂.pagesUsage = vm.pagesUsage
  heap : vm₂.heap = vm.heap
  mem : AgreeOn C vm.mem vm₂.mem

theorem VmAgree.mono {C' : Set Nat} {vm vm₂ : VmState κ} (h : VmAgree C' vm vm₂) (hC : C ⊆ C') :
    VmAgree C vm vm₂ := ⟨h.usage, h.heap, h.mem.mono hC⟩

theorem VmAgree.extend {vm vm₂ : VmState κ} (h : VmAgree C vm vm₂) :
    VmAgree (C ∪ newlyUsed vm.pagesUsage vm.pagesUsage) vm vm₂ := by
  rwa [newlyUsed_self, Set.union_empty]

section Mappings

variable {d : Nat} {T : Set Nat} {vm vm₂ : VmState κ}

/-- One range of user memory. -/
theorem setupUserPageMapping_agree {virtAddr phyAddr size : Nat} {rdonly : Bool}
    (hphy : phyAddr ≠ noLma → pageSize ∣ phyAddr ∧ phyAddr + size ≤ 2 ^ 48)
    (hwf : PtWf true vm.mem d T) (hT : T ⊆ usedFrames vm.pagesUsage) (hC : T ⊆ C)
    (h : VmAgree C vm vm₂) :
    Together (fun vm' => VmAgree (C ∪ newlyUsed vm.pagesUsage vm'.pagesUsage) vm')
      (setupUserPageMapping (linear true d) virtAddr phyAddr size rdonly vm)
      (setupUserPageMapping (linear true d) virtAddr phyAddr size rdonly vm₂) := by
  rw [setupUserPageMapping, setupUserPageMapping]
  split_ifs with hdir hlma
  · exact .ok h.extend
  · exact .ok h.extend
  · obtain ⟨hdvd, hle⟩ := hphy hlma
    obtain ⟨hattrs, h64⟩ := attrsOk_userAttrs rdonly
    have hend : add64 phyAddr size ≤ 2 ^ 48 := by
      rw [add64_of_lt (by omega)]
      exact hle
    refine (addSingleMapLoop_agree hattrs h64 hend virtAddr hdvd hwf hT hC h.usage h.mem).map ?_
    rintro st st₂ - - ⟨halloc, hmem⟩
    exact ⟨halloc, h.heap, hmem⟩

/-- The vmas with an `lma`. -/
theorem setupUserPageMappings_agree {startBrk brk : Nat} (hd : linear true d ≠ 0) :
    ∀ {mmap : List VmArea} {vm vm₂ : VmState κ} {T C : Set Nat},
      (∀ vma ∈ mmap, vma.Ok startBrk brk) → PtWf true vm.mem d T → T ⊆ usedFrames vm.pagesUsage →
      T ⊆ C → VmAgree C vm vm₂ →
      Together (fun vm' => VmAgree (C ∪ newlyUsed vm.pagesUsage vm'.pagesUsage) vm')
        (setupUserPageMappings (linear true d) mmap vm)
        (setupUserPageMappings (linear true d) mmap vm₂) := by
  intro mmap
  induction mmap with
  | nil =>
      intro vm vm₂ T C _ _ _ _ h
      exact .ok h.extend
  | cons x mmap ih =>
      intro vm vm₂ T C hok hwf hT hC h
      have hokx := hok x (by simp)
      have hsize : x.lma ≠ noLma → pageSize ∣ x.lma ∧ x.lma + (x.vmEnd - x.vmStart) ≤ 2 ^ 48 :=
        fun hlma => ⟨hokx.lma_dvd hlma, hokx.lma_le hlma⟩
      rw [setupUserPageMappings, setupUserPageMappings]
      refine (setupUserPageMapping_agree hsize hwf hT hC h).bind ?_
      rintro vm' vm₂' hrun - h'
      -- the tables after the first vma
      obtain ⟨T', hwf', hT', hC'⟩ : ∃ T', PtWf true vm'.mem d T' ∧ T' ⊆ usedFrames vm'.pagesUsage ∧
          T' ⊆ C ∪ newlyUsed vm.pagesUsage vm'.pagesUsage := by
        by_cases hlma : x.lma = noLma
        · rw [setupUserPageMapping, if_neg hd, if_pos hlma] at hrun
          cases hrun
          exact ⟨T, hwf, hT, fun n hn => Or.inl (hC hn)⟩
        · have hpages := hokx.pages hlma
          have hsub : x.vmStart + (x.vmEnd - x.vmStart) = x.vmEnd := by
            have := hokx.start_le
            omega
          rcases @setupUserPageMapping_spec κ d x.vmStart x.lma (x.vmEnd - x.vmStart) (!x.writable) vm T
            hd hlma (hokx.lma_dvd hlma) hokx.start_dvd (by rw [hpages]; exact hokx.lma_le hlma)
            (by rw [hpages, hsub]; exact hokx.end_le) hwf hT with
            herr | ⟨vm'', T', hok', -, hwf', hgrow, -⟩
          · rw [herr] at hrun
            cases hrun
          obtain rfl : vm'' = vm' := Except.ok.inj (hok'.symm.trans hrun)
          exact ⟨T', hwf', hgrow.tables_given, tablesGrow_clean hgrow hC⟩
      refine (ih (fun vma hvma => hok vma (by simp [hvma])) hwf' hT' hC' h').mono fun b b' hb => ?_
      exact hb.mono (union_newlyUsed_subset Set.subset_union_left Set.subset_union_right _)

end Mappings

/-! ## Taking tables down -/

section Unmap

variable {d : Nat} {vm vm₂ : VmState κ}

/-- The walk of `unmap_one_user_page` ends in the same entry, which is in a clean page. -/
theorem lastEntry_agree (h : AgreeOn C m m₂) (hzero : ZeroPage m) (hC : tableFrames m d ⊆ C)
    (h0 : 0 ∈ C) (v : Nat) :
    lastEntry m₂ (linear true d) v = lastEntry m (linear true d) v ∧
      load m₂ (lastEntry m (linear true d) v) 8 = load m (lastEntry m (linear true d) v) 8 := by
  have hd : d ∈ C := hC (root_mem_tableFrames m d)
  -- the table of the middle level, and that of the last one, or page 0 in its place
  have hslot0 : ∀ i, ptSlot true m 0 i = none := ptSlot_zero hzero
  have hmid : (ptSlot true m d (getPgEntryIndex v 30)).getD 0 ∈ C := by
    rcases hs : ptSlot true m d (getPgEntryIndex v 30) with _ | t
    · exact h0
    · exact hC ⟨[getPgEntryIndex v 30], by simp, by simp [descend, hs]⟩
  have hlast : (ptSlot true m ((ptSlot true m d (getPgEntryIndex v 30)).getD 0)
      (getPgEntryIndex v 21)).getD 0 ∈ C := by
    rcases hs : ptSlot true m d (getPgEntryIndex v 30) with _ | t
    · rw [Option.getD_none, hslot0]
      exact h0
    · rw [Option.getD_some]
      rcases hs' : ptSlot true m t (getPgEntryIndex v 21) with _ | n
      · exact h0
      · exact hC ⟨[getPgEntryIndex v 30, getPgEntryIndex v 21], by simp, by simp [descend, hs, hs']⟩
  rw [lastEntry_eq, lastEntry_eq, h.ptSlot hd, h.ptSlot hmid]
  exact ⟨rfl, h.load_entry hlast _⟩

theorem unmapOneUserPage_agree (h : VmAgree C vm vm₂) (hzero : ZeroPage vm.mem)
    (hC : tableFrames vm.mem d ⊆ C) (h0 : 0 ∈ C) (addr : Nat) :
    Together (VmAgree C) (unmapOneUserPage (linear true d) addr vm)
      (unmapOneUserPage (linear true d) addr vm₂) := by
  obtain ⟨hentry, hload⟩ := lastEntry_agree h.mem hzero hC h0 addr
  rw [unmapOneUserPage_eq, unmapOneUserPage_eq, hentry, hload, h.usage]
  generalize (if load vm.mem (lastEntry vm.mem (linear true d) addr) 8 ≠ 0 then
    freePages vm.pagesUsage (va (getPhyAddr (load vm.mem (lastEntry vm.mem (linear true d) addr) 8))) 0
    else .ok vm.pagesUsage) = r
  cases r with
  | error e => exact .error e
  | ok usage => exact .ok ⟨rfl, h.heap, h.mem.store _ _ _⟩

/-- The loop of `unmap_user_page_mapping`. -/
theorem unmapLoop_agree (h0 : 0 ∈ C) :
    ∀ {n addr : Nat} {vm vm₂ : VmState κ}, Unmappable vm.mem vm.pagesUsage d →
      tableFrames vm.mem d ⊆ C → VmAgree C vm vm₂ →
      Together (VmAgree C) (unmapLoop (linear true d) n addr vm) (unmapLoop (linear true d) n addr vm₂) := by
  intro n
  induction n with
  | zero =>
      intro addr vm vm₂ _ _ h
      exact .ok h
  | succ n ih =>
      intro addr vm vm₂ hu hC h
      rw [unmapLoop, unmapLoop]
      refine (unmapOneUserPage_agree h hu.zero hC h0 addr).bind ?_
      rintro vm' vm₂' hrun - h'
      obtain ⟨vm'', hrun', hdone⟩ := unmapOneUserPage_spec hu addr
      obtain rfl : vm'' = vm' := Except.ok.inj (hrun'.symm.trans hrun)
      exact ih (hdone.unmappable hu) (by rw [hdone.tables_eq]; exact hC) h'

end Unmap

/-! ### The end of an address space -/

section Exit

variable {d : Nat} {vm vm₂ : VmState κ}

theorem entriesList_congr {n : Nat} {g g₂ : Nat → List Nat} (h : ∀ i, ptSlot true m₂ n i = ptSlot true m n i)
    (hg : ∀ i t, ptSlot true m n i = some t → g₂ t = g t) : entriesList m₂ n g₂ = entriesList m n g := by
  have hentry : (fun i => ((ptSlot true m₂ n i).map g₂).getD []) =
      fun i => ((ptSlot true m n i).map g).getD [] := by
    funext i
    rw [h i]
    cases hs : ptSlot true m n i with
    | none => rfl
    | some t => rw [Option.map_some, Option.map_some, Option.getD_some, Option.getD_some, hg i t hs]
  rw [entriesList, entriesList, hentry]

/-- The same tables are freed. -/
theorem freePageTables_agree (h : AgreeOn C m m₂) (htables : PtWf true m d (tableFrames m d))
    (hpool : ∀ n ∈ tableFrames m d, InPool n) (hC : tableFrames m d ⊆ C) (usage : PagesUsage) :
    freePageTables m₂ (linear true d) usage = freePageTables m (linear true d) usage := by
  have hsame : SameTables m m₂ d := fun n hn => h n (hC hn)
  have hframes := tableFrames_frame htables hsame
  have hlist : tableList m₂ d = tableList m d := by
    rw [tableList, tableList,
      entriesList_congr (h.ptSlot (hC (root_mem_tableFrames m d))) fun i t ht => ?_]
    have ht : t ∈ tableFrames m d := ⟨[i], by simp, by simp [descend, ht]⟩
    rw [entriesList_congr (h.ptSlot (hC ht)) fun _ _ _ => rfl]
  rw [freePageTables_eq hpool, freePageTables_eq (by rw [hframes]; exact hpool), hlist]

/-- The loop of `exit_mm` over the vmas does not look at memory. -/
theorem exitVmas_agree :
    ∀ {mmap : List VmArea} {vm vm₂ : VmState κ}, vm₂.pagesUsage = vm.pagesUsage → vm₂.heap = vm.heap →
      Together (fun vm' vm₂' => vm₂'.pagesUsage = vm'.pagesUsage ∧ vm₂'.heap = vm'.heap ∧
        vm'.mem = vm.mem ∧ vm₂'.mem = vm₂.mem) (exitVmas H mmap vm) (exitVmas H mmap vm₂) := by
  intro mmap
  induction mmap with
  | nil =>
      intro vm vm₂ husage hheap
      exact .ok ⟨husage, hheap, rfl, rfl⟩
  | cons x mmap ih =>
      intro vm vm₂ husage hheap
      rw [exitVmas, exitVmas, husage]
      generalize (if x.shared = true then Except.ok vm.pagesUsage
        else freePagesBlocks x.pagesBlockList vm.pagesUsage) = r
      cases r with
      | error e => exact .error e
      | ok usage =>
          rw [except_bind_ok, except_bind_ok]
          exact @ih ⟨vm.mem, usage, H.kfree vm.heap x.self⟩ ⟨vm₂.mem, usage, H.kfree vm₂.heap x.self⟩ rfl
            (by rw [hheap])

/-- `exit_mm`. -/
theorem exitMm_agree (h : VmAgree C vm vm₂) (mm : Option MmStruct) {pgDir : Nat}
    (hfree : ∀ usage, freePageTables vm₂.mem pgDir usage = freePageTables vm.mem pgDir usage) :
    Together (VmAgree C) (exitMm H pgDir mm vm) (exitMm H pgDir mm vm₂) := by
  cases mm with
  | none => exact .ok h
  | some mm =>
      refine (exitVmas_agree h.usage h.heap).bind ?_
      rintro vm' vm₂' - - ⟨husage, hheap, hmem, hmem₂⟩
      rw [husage, hmem, hmem₂, hfree, hheap]
      cases freePageTables vm.mem pgDir vm'.pagesUsage with
      | error e => exact .error e
      | ok usage => exact .ok ⟨rfl, rfl, h.mem⟩

end Exit

/-! ## Copying -/

/-- The loops of `sys_fork`, begun in `vm`: the pages of `C` are in use and not written. -/
structure ForkAgree (C : Set Nat) (vm : VmState κ) (fs fs₂ : ForkState κ) : Prop where
  ok : fs₂.ok = fs.ok
  mmap : fs₂.mmap = fs.mmap
  vms : VmAgree C fs.vm fs₂.vm
  used : ∀ a ∈ C, ¬FreeFrame fs.vm.pagesUsage a
  same : AgreeOn C vm.mem fs.vm.mem

theorem ForkAgree.from {vm vm' : VmState κ} {fs fs₂ : ForkState κ} (h : ForkAgree C vm' fs fs₂)
    (hsame : AgreeOn C vm.mem vm'.mem) : ForkAgree C vm fs fs₂ :=
  ⟨h.ok, h.mmap, h.vms, h.used, fun n hn x hx => (h.same n hn x hx).trans (hsame n hn x hx)⟩

section Fork

variable {vm vm₂ : VmState κ}

/-- A loop that is left without having written. -/
theorem ForkAgree.stay (h : VmAgree C vm vm₂) (hused : ∀ a ∈ C, ¬FreeFrame vm.pagesUsage a) (ok : Bool)
    (mmap : List VmArea) (heap : κ) :
    ForkAgree C vm ⟨ok, { vm with heap := heap }, mmap⟩ ⟨ok, { vm₂ with heap := heap }, mmap⟩ :=
  ⟨rfl, rfl, ⟨h.usage, rfl, h.mem⟩, hused, fun _ _ _ _ => rfl⟩

theorem Taken.freeFrame {usage usage' : PagesUsage} {first order page a : Nat}
    (ht : Taken usage usage' first order page) (ha : FreeFrame usage' a) : FreeFrame usage a := by
  obtain ⟨k, hk, hfree, rfl⟩ := ha
  rw [ht.usage_eq, markPages] at hfree
  split_ifs at hfree
  exact ⟨k, hk, hfree, rfl⟩

/-- The loop over the pages of a vma that is filled on demand. -/
theorem forkBlocks_agree (hpages : ∀ a ∈ C, IsPage a) (vmStart : Nat) :
    ∀ {pbs : List PagesBlock} {vm vm₂ : VmState κ} {mmap : List VmArea}, VmAgree C vm vm₂ →
      (∀ a ∈ C, ¬FreeFrame vm.pagesUsage a) →
      Together (ForkAgree C vm) (forkBlocks H vmStart pbs vm mmap) (forkBlocks H vmStart pbs vm₂ mmap) := by
  intro pbs
  induction pbs with
  | nil =>
      intro vm vm₂ mmap h hused
      exact .ok ⟨rfl, rfl, h, hused, fun _ _ _ _ => rfl⟩
  | cons pb pbs ih =>
      intro vm vm₂ mmap h hused
      rcases hget : getFreePages vm.pagesUsage 0 with ⟨page, usage⟩
      simp only [forkBlocks, h.usage, h.heap, hget]
      by_cases hpage : page = 0
      · rw [if_pos hpage, if_pos hpage]
        exact .ok ⟨rfl, rfl, h, hused, fun _ _ _ _ => rfl⟩
      rw [if_neg hpage, if_neg hpage]
      obtain ⟨first, ht⟩ := taken_of_getFreePages hget hpage
      rcases addPagesBlock H vm.heap mmap vmStart pb.userVirtAddr page 0 with ⟨ok, mmap', heap⟩
      cases ok with
      | false =>
          simp only [Bool.false_eq_true, if_false, freePages_undo hget hpage, except_map_ok]
          exact .ok ⟨rfl, rfl, ⟨rfl, rfl, h.mem⟩, hused, fun _ _ _ _ => rfl⟩
      | true =>
          simp only [if_true]
          -- the copy is not one of the pages of `C`
          have hcopy : ∀ m : Mem, AgreeOn C m (copy m page pb.linearAddr pageSize) := by
            intro m a ha x hx
            have hout := ht.inPage (hused a ha) (hpages a ha) hx
            rw [numOfOrder_zero, Nat.mul_one] at hout
            simp only [copy, if_neg hout]
          have hnext : VmAgree C (⟨copy vm.mem page pb.linearAddr pageSize, usage, heap⟩ : VmState κ)
              ⟨copy vm₂.mem page pb.linearAddr pageSize, usage, heap⟩ :=
            ⟨rfl, rfl, h.mem.write (hcopy vm.mem) (hcopy vm₂.mem)⟩
          exact (ih hnext fun a ha hfree => hused a ha (ht.freeFrame hfree)).mono fun fs fs₂ hfs =>
            hfs.from (hcopy vm.mem)

/-- `memcpy` from user memory to pages that are not in `C`. -/
theorem copyFromUser_agree {pgDir dst virtAddr n : Nat}
    (hframes : ∀ v, userFrame m₂ pgDir v = userFrame m pgDir v) (h : AgreeOn C m m₂)
    (hdst : ∀ a ∈ C, ∀ x, InPage true a x → ¬(dst ≤ x ∧ x < dst + n)) :
    Together (fun m' m₂' => AgreeOn C m m' ∧ AgreeOn C m' m₂') (copyFromUser m pgDir dst virtAddr n)
      (copyFromUser m₂ pgDir dst virtAddr n) := by
  have hmapped : userRangeMapped m₂ pgDir virtAddr n = userRangeMapped m pgDir virtAddr n := by
    simp only [userRangeMapped, hframes]
  rw [copyFromUser, copyFromUser, hmapped]
  split_ifs
  · refine .ok ⟨fun a ha x hx => ?_, fun a ha x hx => ?_⟩
    · exact if_neg (hdst a ha x hx)
    · dsimp only
      rw [if_neg (hdst a ha x hx), if_neg (hdst a ha x hx)]
      exact h a ha x hx
  · exact .error _

variable {pgDir : Nat} {T : Set Nat}

/-- A vma that is mapped as a whole. -/
theorem forkStatic_agree (hpages : ∀ a ∈ C, IsPage a) {x : VmArea}
    (hsize : x.vmEnd - x.vmStart ≤ 2 ^ 39) (mmap : List VmArea)
    (hwf : PtWf true vm.mem (physical true pgDir) T) (hT : T ⊆ C) (h : VmAgree C vm vm₂)
    (hused : ∀ a ∈ C, ¬FreeFrame vm.pagesUsage a) :
    Together (ForkAgree C vm) (forkStatic H pgDir x vm mmap) (forkStatic H pgDir x vm₂ mmap) := by
  rcases hget : getFreePages vm.pagesUsage (getOrder (x.vmEnd - x.vmStart)) with ⟨page, usage⟩
  simp only [forkStatic, h.usage, h.heap, hget]
  by_cases hpage : page = 0
  · rw [if_pos hpage, if_pos hpage]
    exact .ok ⟨rfl, rfl, h, hused, fun _ _ _ _ => rfl⟩
  rw [if_neg hpage, if_neg hpage]
  obtain ⟨first, ht⟩ := taken_of_getFreePages hget hpage
  have hroom := getOrder_spec (hsize.trans (by decide))
  rcases setupVma H vm.heap mmap x.vmStart x.vmEnd x.vmFlags (pa page) with ⟨ok, mmap₁, heap₁⟩
  cases ok with
  | false =>
      simp only [Bool.false_eq_true, if_false, freePages_undo hget hpage, except_map_ok]
      exact .ok ⟨rfl, rfl, ⟨rfl, rfl, h.mem⟩, hused, fun _ _ _ _ => rfl⟩
  | true =>
      simp only [if_true]
      rcases addPagesBlock H heap₁ mmap₁ x.vmStart x.vmStart page (getOrder (x.vmEnd - x.vmStart)) with
        ⟨ok, mmap₂, heap₂⟩
      cases ok with
      | false =>
          simp only [Bool.false_eq_true, if_false, freePages_undo hget hpage, except_map_ok]
          exact .ok ⟨rfl, rfl, ⟨rfl, rfl, h.mem⟩, hused, fun _ _ _ _ => rfl⟩
      | true =>
          simp only [if_true]
          have hframes : ∀ v, userFrame vm₂.mem pgDir v = userFrame vm.mem pgDir v :=
            lookup_frame hwf fun n hn => h.mem n (hT hn)
          refine (copyFromUser_agree hframes h.mem fun a ha z hz hin => ?_).map ?_
          · exact ht.inPage (hused a ha) (hpages a ha) hz ⟨hin.1, by omega⟩
          · rintro m' m₂' - - ⟨hsame, hagree⟩
            exact ⟨rfl, rfl, ⟨rfl, rfl, hagree⟩, fun a ha hfree => hused a ha (ht.freeFrame hfree), hsame⟩

/-- The body of the loop of `sys_fork` over the vmas of the parent. -/
theorem forkVma_agree (hpages : ∀ a ∈ C, IsPage a) {x : VmArea}
    (hsize : x.vmEnd - x.vmStart ≤ 2 ^ 39) (mmap : List VmArea)
    (hwf : PtWf true vm.mem (physical true pgDir) T) (hT : T ⊆ C) (h : VmAgree C vm vm₂)
    (hused : ∀ a ∈ C, ¬FreeFrame vm.pagesUsage a) :
    Together (ForkAgree C vm) (forkVma H pgDir x vm mmap) (forkVma H pgDir x vm₂ mmap) := by
  rw [forkVma, forkVma]
  by_cases hshared : x.shared = true
  · rw [if_pos hshared, if_pos hshared, h.heap]
    exact .ok (.stay h hused _ _ _)
  rw [if_neg hshared, if_neg hshared]
  by_cases hlma : x.lma ≠ noLma
  · rw [if_pos hlma, if_pos hlma]
    exact forkStatic_agree hpages hsize mmap hwf hT h hused
  rw [if_neg hlma, if_neg hlma, h.heap]
  rcases setupVma H vm.heap mmap x.vmStart x.vmEnd x.vmFlags noLma with ⟨ok, mmap', heap⟩
  cases ok with
  | false => exact .ok (.stay h hused _ _ _)
  | true =>
      simp only [if_true]
      have hnext : VmAgree C { vm with heap := heap } { vm₂ with heap := heap } := ⟨h.usage, rfl, h.mem⟩
      exact (forkBlocks_agree hpages x.vmStart hnext hused).mono fun fs fs₂ hfs =>
        ⟨hfs.ok, hfs.mmap, hfs.vms, hfs.used, hfs.same⟩

/-- The loop of `sys_fork` over the vmas of the parent. -/
theorem forkVmas_agree (hpages : ∀ a ∈ C, IsPage a) (hT : T ⊆ C) :
    ∀ {vmas : List VmArea} {vm vm₂ : VmState κ} {mmap : List VmArea},
      (∀ x ∈ vmas, x.vmEnd - x.vmStart ≤ 2 ^ 39) → PtWf true vm.mem (physical true pgDir) T →
      VmAgree C vm vm₂ → (∀ a ∈ C, ¬FreeFrame vm.pagesUsage a) →
      Together (ForkAgree C vm) (forkVmas H pgDir vmas vm mmap) (forkVmas H pgDir vmas vm₂ mmap) := by
  intro vmas
  induction vmas with
  | nil =>
      intro vm vm₂ mmap _ _ h hused
      exact .ok ⟨rfl, rfl, h, hused, fun _ _ _ _ => rfl⟩
  | cons x vmas ih =>
      intro vm vm₂ mmap hsize hwf h hused
      rw [forkVmas, forkVmas]
      refine (forkVma_agree hpages (hsize x (by simp)) mmap hwf hT h hused).bind ?_
      rintro fs fs₂ - - hfs
      rw [hfs.ok, hfs.mmap]
      by_cases hok : fs.ok = true
      · rw [if_pos hok, if_pos hok]
        refine (ih (fun z hz => hsize z (by simp [hz])) ?_ hfs.vms hfs.used).mono fun fs' fs₂' hfs' =>
          hfs'.from hfs.same
        exact ptWf_frame hwf fun n hn => hfs.same n (hT hn)
      · rw [if_neg hok, if_neg hok]
        exact .ok hfs

end Fork

end Kernel
end ToutOS
