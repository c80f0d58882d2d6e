import ToutOS.Kernel.Slots
import ToutOS.Kernel.System

/-!
# Forking — `sys_fork` as a whole

* `NewDir` — a page that has been taken from the pool for a directory and cleared;
* `forkSpace_spec` — the address space of the child: on failure nothing is left of it, on success it
  is a copy of the vmas that are mapped as a whole (`ChildSpace`);
* `ForkBegun`, `sysFork_cases` — how far a call of `sys_fork` comes;
* `ForkFailed`, `Forked`, `sysFork_spec` — everything that `sys_fork` can do;
* `StepOf.forkFailed`, `StepOf.forked` — it is a step of the child.
-/

namespace ToutOS
namespace Kernel

open Base Mm

variable {κ : Type} {H : KernelHeap κ} {img : KernelImage} {u : UserImage} {s s' : KernelState κ}
  {vm vm' vm₀ : VmState κ} {d : Nat} {mm parent : MmStruct} {mmap : List VmArea}

/-! ## Address spaces that do not take part -/

/-- What is in use does not notice a step from and to free pages. -/
theorem local_bystander {own : Set Nat} (hm : Local pageOf ∅ own vm.world vm'.world) {a x : Nat}
    (hpage : IsPage a) (ha : ¬FreeFrame vm.pagesUsage a) (hx : InPage true a x) :
    vm'.mem x = vm.mem x := by
  refine hm.same x (fun hno => hno) ?_
  rw [pageOf_of_inPage hpage hx]
  exact ha

section Bystander

variable {own : Set Nat} (hm : Local pageOf ∅ own vm.world vm'.world)
  (h : SpaceOk vm.mem d mm) (hused : ∀ a ∈ footprint vm.mem d mm.mmap, ¬FreeFrame vm.pagesUsage a)

include hm h hused

theorem sameTables_bystander : SameTables vm.mem vm'.mem d := fun n hn _ hx =>
  local_bystander hm (h.holdings.tables.pages n hn) (hused n (Or.inl hn)) hx

theorem space_bystander : SpaceOk vm'.mem d mm ∧
    ∀ a ∈ footprint vm'.mem d mm.mmap, ¬FreeFrame vm'.pagesUsage a := by
  have hsame := sameTables_bystander hm h hused
  refine ⟨spaceOk_frame h hsame, fun a ha hfree => ?_⟩
  rw [footprint_frame h.holdings.tables hsame] at ha
  exact (hm.released a hfree).elim (hused a ha) fun hno => hno

/-- The bytes that a task sees. -/
theorem userByte_bystander {pgDir p a : Nat} (hd : d = physical true pgDir)
    (ha : lookup true vm.mem d p = some a) :
    userFrame vm'.mem pgDir p = userFrame vm.mem pgDir p ∧
      vm'.mem (userByteAddr vm'.mem pgDir p) = vm.mem (userByteAddr vm.mem pgDir p) := by
  have hlook := lookup_frame h.holdings.tables (sameTables_bystander hm h hused) p
  rw [hd] at ha hlook
  have hframe : userFrame vm'.mem pgDir p = userFrame vm.mem pgDir p := hlook
  have hsome : userFrame vm.mem pgDir p = some a := ha
  refine ⟨hframe, ?_⟩
  rw [userByteAddr, userByteAddr, hframe, hsome, Option.getD_some]
  refine local_bystander hm (isPage_of_lookup ha) (fun hfree => ?_) (a := a) ?_
  · rw [← hd] at ha
    exact hused a (Or.inr (Or.inr ⟨FreeFrame.inPool hfree, p, ha⟩)) hfree
  · have := Nat.mod_lt p (show 0 < pageSize by decide)
    simp only [InPage, linear, if_true]
    omega

end Bystander

/-! ## A new directory -/

/-- The page `d` has been taken from the pool and cleared. -/
structure NewDir (vm vm' : VmState κ) (d : Nat) : Prop where
  pool : InPool d ∧ IsPage d
  used : ¬FreeFrame vm'.pagesUsage d
  zero : ∀ x, InPage true d x → vm'.mem x = 0
  moves : Local pageOf ∅ {d} vm.world vm'.world
  lossless : Lossless ∅ {d} vm.world vm'.world

theorem getZeroedPages_cases {m m' : Mem} {usage usage' : PagesUsage} {p : Nat}
    (h : getZeroedPages 0 m usage = (p, m', usage')) (heap heap' : κ) :
    (p = 0 ∧ m' = m ∧ usage' = usage) ∨
    ∃ d, p = linear true d ∧ p ≠ 0 ∧ NewDir ⟨m, usage, heap⟩ ⟨m', usage', heap'⟩ d := by
  rcases getZeroedPages_one h with hno | ⟨k, hp, hk, hfree, rfl, rfl⟩
  · exact Or.inl hno
  have hlin := linear_frame hk
  have hpool := inPool_frame.2 hk
  have hrun : (∅ ∪ {a | ∃ l, k ≤ l ∧ l < k + 1 ∧ a = frame l} : Set Nat) = {frame k} := by
    ext a
    simp only [Set.empty_union, Set.mem_ofPred_eq, Set.mem_singleton_iff]
    constructor
    · rintro ⟨l, h₁, h₂, rfl⟩
      rw [show l = k by omega]
    · rintro rfl
      exact ⟨k, Nat.le_refl k, by omega, rfl⟩
  have htake := @local_markPages m usage k 1 ∅ (by omega) (fun l h₁ h₂ => by
    rw [show l = k by omega, hfree]) fun a ha => ha.elim
  have hnone := @lossless_markPages m usage k 1 ∅
  rw [hrun] at htake hnone
  refine Or.inr ⟨frame k, hp.trans hlin.symm, hp ▸ pagePool_ne_zero k, ⟨hpool, isPage_frame hk⟩, ?_, ?_, ?_,
    hnone⟩
  · exact htake.held _ (Set.mem_singleton _)
  · intro x hx
    rw [InPage, hlin, ← hp] at hx
    exact fill_apply_of_mem hx.1 hx.2
  · -- the page is taken, then cleared
    refine htake.trans (Local.write (fun x hx => ?_) rfl htake.held)
    have hout : ¬(p ≤ x ∧ x < p + pageSize) := by
      rw [hp, ← hlin]
      exact fun hin => hx (Set.mem_singleton_iff.2 (pageOf_of_inPage (isPage_frame hk) hin))
    change fill m p pageSize 0 x = m x
    simp only [fill, if_neg hout]

/-- The blocks for the vmas of the child are taken after the directory. -/
theorem Filled.afterDir (h : Filled vm' vm₀ mmap) (hd : NewDir vm vm' d) :
    Local pageOf ∅ ({d} ∪ {a | a ∈ blockFrames mmap}) vm.world vm₀.world ∧
      Lossless ∅ ({d} ∪ {a | a ∈ blockFrames mmap}) vm.world vm₀.world := by
  have hrest : ∀ a ∈ ({d} : Set Nat), ¬FreeFrame vm'.pagesUsage a := fun a ha => ha ▸ hd.used
  have hmoves := h.moves.frame hrest fun a _ hno => hno.elim
  have hlossless := h.lossless.frame {d}
  rw [Set.empty_union, Set.union_comm] at hmoves hlossless
  exact ⟨hd.moves.trans hmoves, hd.lossless.trans hlossless⟩

/-- The directory is still empty when the blocks have been filled. -/
theorem Filled.empty (h : Filled vm' vm₀ mmap) (hd : NewDir vm vm' d) {x : Nat}
    (hx : InPage true d x) : vm₀.mem x = 0 :=
  (local_bystander h.moves hd.pool.2 hd.used hx).trans (hd.zero x hx)

/-- Blocks and an empty directory. -/
theorem Filled.holdings (h : Filled vm' vm₀ mmap) (hd : NewDir vm vm' d) :
    Holdings vm₀.mem d mmap ∧ (∀ v, lookup true vm₀.mem d v = none) ∧
      footprint vm₀.mem d mmap = {d} ∪ {a | a ∈ blockFrames mmap} := by
  have hpages : Pages {d} := by
    rintro n rfl
    exact hd.pool.2
  obtain ⟨hwf, hempty⟩ := @ptWf_empty true vm₀.mem d {d} (Set.mem_singleton d) hpages
    fun x hx => h.empty hd hx
  -- an empty directory is the only table of its tree
  have htables : ∀ n, n ∈ tableFrames vm₀.mem d ↔ n = d := by
    intro n
    refine ⟨fun hn => tableFrames_subset hwf hn, ?_⟩
    rintro rfl
    exact root_mem_tableFrames _ _
  refine ⟨⟨ptWf_self hwf, ?_, h.valid, h.nodup, ?_, ?_, ?_⟩, hempty, ?_⟩
  · intro n hn
    rw [(htables n).1 hn]
    exact hd.pool.1
  · intro n hn hin
    rw [(htables n).1 hn] at hin
    exact (h.moves.taken d hin).elim (fun hno => hno) hd.used
  · intro v a ha
    rw [hempty] at ha
    cases ha
  · intro v v' a ha
    rw [hempty] at ha
    cases ha
  · ext a
    constructor
    · rintro (ha | ha | ⟨-, v, ha⟩)
      · exact Or.inl ((htables a).1 ha)
      · exact Or.inr ha
      · rw [hempty] at ha
        cases ha
    · rintro (ha | ha)
      · exact Or.inl ((htables a).2 ha)
      · exact Or.inr (Or.inl ha)

/-- When `sys_fork` gives up, `exit_mm` gives back all that has been taken. -/
theorem Filled.giveBack (h : Filled vm' vm₀ mmap) (hd : NewDir vm vm' d) (self startBrk brk : Nat) :
    ∃ vm₁, exitMm H (linear true d)
        (some { self := self, mmap := mmap, startBrk := startBrk, brk := brk }) vm₀ = .ok vm₁ ∧
      Local pageOf ∅ ∅ vm.world vm₁.world ∧ Lossless ∅ ∅ vm.world vm₁.world := by
  obtain ⟨hholdings, hempty, hfoot⟩ := h.holdings hd
  obtain ⟨hmoves, hlossless⟩ := h.afterDir hd
  rw [← hfoot] at hmoves hlossless
  obtain ⟨vm₁, hexit, -, husage, hlocal⟩ := @exitMm_spec κ H d
    { self := self, mmap := mmap, startBrk := startBrk, brk := brk } vm₀ hholdings hmoves.held
  have hret : Returnable vm₀.mem d mmap := ⟨h.unshared, fun v a ha => by
    rw [hempty] at ha
    cases ha⟩
  exact ⟨vm₁, hexit, hmoves.trans hlocal, hlossless.trans (exit_lossless hholdings hret husage)⟩

/-! ## The address space of the child -/

/-- The new address space `cm` with directory `d`, a copy of what is mapped as a whole in the address
space `parent` with the directory at `pgDir`. -/
structure ChildSpace (vm vm' : VmState κ) (pgDir d : Nat) (parent cm : MmStruct) : Prop where
  space : SpaceOk vm'.mem d cm
  moves : Local pageOf ∅ (footprint vm'.mem d cm.mmap) vm.world vm'.world
  lossless : Lossless ∅ (footprint vm'.mem d cm.mmap) vm.world vm'.world
  returnable : Returnable vm'.mem d cm.mmap
  start : cm.startBrk = parent.startBrk
  brk : cm.brk = parent.brk
  areas : cm.mmap.map VmArea.area = (parent.mmap.map VmArea.area).reverse
  own : OwnPages cm
  /-- What is mapped is mapped in the parent as well. -/
  mapped : ∀ v a, v < 2 ^ 39 → lookup true vm'.mem d v = some a → ∃ x ∈ parent.mmap, x.lma ≠ noLma ∧
    x.covers (pageAddr v) = true ∧ (x.shared = true → a = x.target (pageAddr v)) ∧
    (x.shared = false → FreeFrame vm.pagesUsage a ∧ ∀ p, pageAddr p = pageAddr v →
      vm'.mem (va a + p % pageSize) = vm.mem (userByteAddr vm.mem pgDir p))
  static : ∀ x ∈ parent.mmap, x.lma ≠ noLma → ∀ v, v < 2 ^ 39 → x.covers (pageAddr v) = true →
    lookup true vm'.mem d v ≠ none
  /-- The entries say whether a vma may be written. -/
  leaf : ∀ y ∈ cm.mmap, y.lma ≠ noLma → ∀ v, v < 2 ^ 39 → y.covers (pageAddr v) = true →
    leafPte true vm'.mem d v = some (descriptor (y.target (pageAddr v)) (userAttrs (!y.writable)))

section Child

variable {pgDir : Nat} {vm₁ vm₂ : VmState κ}

/-- The pages of the blocks are not written when the vmas are mapped. -/
theorem block_unchanged {T' : Set Nat} {cm : MmStruct} (hnew : NewSpace vm₁.pagesUsage d cm)
    (hgrow : TablesGrow true usedFrames d ⟨vm₁.mem, vm₁.pagesUsage⟩ ⟨vm₂.mem, vm₂.pagesUsage⟩ {d} T')
    (hT : Pages T') {a x : Nat} (ha : a ∈ blockFrames cm.mmap) (hx : InPage true a x) :
    vm₂.mem x = vm₁.mem x := by
  obtain ⟨pb, hpb, hapb⟩ := List.mem_flatMap.1 ha
  have hpage := ((hnew.blocks_valid pb hpb).mem_frames hapb).2
  refine hgrow.frame x fun n hn hin => ?_
  rw [inPage_unique (hT n hn) hpage hin hx] at hn
  rcases hgrow.new a hn with rfl | hfree
  · exact hnew.dir_blocks ha
  · exact hfree (usedFrame_of_not_freeFrame ((hnew.blocks_valid pb hpb).mem_frames hapb).1 hpage.1
      (hnew.blocks_used a ha))

/-- The child after the vmas of the copy have been mapped. -/
theorem childSpace_spec (hp : SpaceOk vm.mem (physical true pgDir) parent)
    (hused : ∀ a ∈ footprint vm.mem (physical true pgDir) parent.mmap, ¬FreeFrame vm.pagesUsage a)
    (hd : NewDir vm vm' d) (hc : Copied vm' pgDir parent.mmap vm₁ mmap) (self : Nat) :
    setupUserPageMappings (linear true d) mmap vm₁ = .error .assertFailed ∨
    ∃ vm₂, setupUserPageMappings (linear true d) mmap vm₁ = .ok vm₂ ∧
      ChildSpace vm vm₂ pgDir d parent
        { self := self, mmap := mmap, startBrk := parent.startBrk, brk := parent.brk } := by
  generalize hcm : (⟨self, mmap, parent.startBrk, parent.brk⟩ : MmStruct) = cm
  have hmmap : cm.mmap = mmap := by rw [← hcm]
  have hstart : cm.startBrk = parent.startBrk := by rw [← hcm]
  have hbrk : cm.brk = parent.brk := by rw [← hcm]
  obtain ⟨hp', hused'⟩ := space_bystander hd.moves hp hused
  have hnew : NewSpace vm₁.pagesUsage d cm := hcm ▸ hc.newSpace hp.layout self hd.pool hd.used
  rcases newSpace_spec hnew (fun x hx => hc.filled.empty hd hx) with
    herr | ⟨vm₂, T', hok, hheap, hspace, hwf, hgrow, hlocal, hmapped⟩
  · rw [hmmap] at herr
    exact Or.inl herr
  rw [hmmap] at hok
  obtain ⟨hmoves, hlossless⟩ := hc.filled.afterDir hd
  -- what is mapped in the pool is in a block, and it belongs to a copy
  have htarget : ∀ {v a}, lookup true vm₂.mem d v = some a → InPool a → a ∈ blockFrames mmap := by
    intro v a ha hpool
    rw [← lookup_mod] at ha
    obtain ⟨y, hy, hlma, hcov, rfl⟩ := hmapped _ a (mod_window_lt v) ha
    rw [← hmmap]
    have := hnew.target y hy hlma _ hcov
    rw [pageAddr_pageAddr] at this
    exact this.resolve_left fun himage => not_inPool_of_inImage himage hpool
  refine Or.inr ⟨vm₂, hok, ⟨hspace, ?_, ?_, ⟨?_, ?_⟩, hstart, hbrk, ?_, ?_, ?_, ?_, ?_⟩⟩
  · rw [hmmap] at hlocal ⊢
    exact hmoves.trans hlocal
  · -- the tables are the directory and pages taken for them
    have htables := (lossless_of_tablesGrow hgrow).frame {a | a ∈ blockFrames mmap}
    refine (hlossless.trans htables).trans ?_
    rintro a (ha | ha | ha)
    · exact Or.inl ha
    · refine Or.inr (Or.inl (hgrow.reached ?_ a ha))
      rintro n rfl
      exact root_mem_tableFrames _ _
    · rw [hmmap]
      exact Or.inr (Or.inr (Or.inl ha))
  · rw [hmmap]
    exact hc.filled.unshared
  · rw [hmmap]
    intro v a ha hpool
    exact htarget ha hpool
  · rw [hmmap]
    exact hc.areas
  · intro y hy hpriv p hcov
    rw [hmmap] at hy
    obtain ⟨pb, hpb, ha⟩ := List.mem_flatMap.1 ((hc.private_ y hy hpriv).target p hcov)
    exact ((hc.filled.valid pb hpb).mem_frames ha).1
  · intro v a hv ha
    obtain ⟨y, hy, hlma, hcov, rfl⟩ := hmapped v a hv ha
    rw [hmmap] at hy
    obtain ⟨x, hx, harea⟩ := hc.original hy
    obtain ⟨-, -, -, hxlma⟩ := area_eq harea
    refine ⟨x, hx, fun hno => hlma (hxlma.1 hno), (covers_of_area harea _).trans hcov, fun hshared => ?_,
      fun hshared => ?_⟩
    · rw [shared_of_area harea] at hshared
      obtain ⟨z, hz, harea', hlma'⟩ := hc.shared y hy hshared
      -- the vma with the `lma` is the same one
      have hxz : z = x := hp.layout.unique hz hx ((covers_of_area harea' _).trans hcov)
        ((covers_of_area harea _).trans hcov)
      rw [target_of_area harea' hlma', hxz]
    · rw [shared_of_area harea] at hshared
      have hcopy := hc.private_ y hy ⟨hshared, hlma⟩
      have hblock : y.target (pageAddr v) ∈ blockFrames mmap := by
        have := hcopy.target _ hcov
        rwa [pageAddr_pageAddr] at this
      have hfree : FreeFrame vm.pagesUsage (y.target (pageAddr v)) :=
        (hmoves.taken _ (Or.inr hblock)).elim (fun hno => hno.elim) id
      refine ⟨hfree, fun p hpage => ?_⟩
      have hpcov : y.covers p = true := by
        have hdvd := (hspace.layout.vma y (hmmap ▸ hy)).start_dvd
        have hend := (hspace.layout.vma y (hmmap ▸ hy)).end_dvd hlma
        rw [VmArea.covers_iff] at hcov ⊢
        simp only [pageAddr, pageSize] at *
        omega
      have hin : InPage true (y.target (pageAddr v)) (va (y.target (pageAddr v)) + p % pageSize) := by
        have := Nat.mod_lt p (show 0 < pageSize by decide)
        simp only [InPage, linear, if_true]
        omega
      rw [block_unchanged hnew hgrow hwf.pages (hmmap ▸ hblock) hin, ← hpage, hcopy.content p hpcov]
      have hxstatic := hp.maps.static x hx (fun hno => hlma (hxlma.1 hno)) p (by
        have := (hp.layout.vma x hx).end_le
        rw [← covers_of_area harea, VmArea.covers_iff] at hpcov
        omega) (by rw [hpage, covers_of_area harea, hcov])
      exact (userByte_bystander hd.moves hp hused rfl hxstatic).2
  · intro x hx hlma v hv hcov
    obtain ⟨y, hy, harea⟩ := hc.copy hx
    obtain ⟨-, -, -, hylma⟩ := area_eq harea
    rw [hspace.maps.static y (hmmap ▸ hy) (fun hno => hlma (hylma.1 hno)) v hv
      ((covers_of_area harea _).trans hcov)]
    exact Option.some_ne_none _
  · intro y hy hlma v hv hcov
    rw [← hmmap] at hok
    exact newSpace_leaf hnew (fun x hx => hc.filled.empty hd hx) hok hy hlma hv hcov

end Child

/-- Once there is a directory, the vmas are copied and mapped, or everything is given back. -/
theorem forkSpace_eq {regs c self : Nat} {t : TaskStruct} {tasks : TaskTable} {s : KernelState κ} {p d : Nat}
    {m' : Mem} {usage' : PagesUsage} (hmm : t.mm = some parent)
    (hcall : getZeroedPages 0 vm.mem vm.pagesUsage = (p, m', usage')) (hp0 : p ≠ 0)
    (hpd : p = linear true d) : forkSpace H img regs c self t tasks vm s =
      (forkVmas H t.pgDir parent.mmap ⟨m', usage', vm.heap⟩ []).bind fun fs =>
        if fs.ok then
          (setupUserPageMappings (linear true d) fs.mmap fs.vm).map fun vm' =>
            forkDone img regs c tasks
              { tasks c with
                pgDir := linear true d
                mm := some ⟨self, fs.mmap, parent.startBrk, parent.brk⟩ } vm' s
        else
          (exitMm H (linear true d) (some ⟨self, fs.mmap, 0, 0⟩) fs.vm).map fun vm' =>
            forkFailed regs (freeTaskSlot tasks c) vm' s := by
  simp only [forkSpace, hcall, if_neg hp0, hmm, ← hpd]

/-- The part of `sys_fork` that builds the address space of the child. -/
theorem forkSpace_spec {regs c self : Nat} {t : TaskStruct} (tasks : TaskTable) (s : KernelState κ)
    (hmm : t.mm = some parent) (hp : ProcessOk u vm.mem t.pgDir parent)
    (hused : ∀ a ∈ footprint vm.mem (physical true t.pgDir) parent.mmap, ¬FreeFrame vm.pagesUsage a) :
    forkSpace H img regs c self t tasks vm s = .error .kernelPanic ∨
    forkSpace H img regs c self t tasks vm s = .error .assertFailed ∨
    (∃ vm', forkSpace H img regs c self t tasks vm s =
        .ok (forkFailed regs (freeTaskSlot tasks c) vm' s) ∧
      Local pageOf ∅ ∅ vm.world vm'.world ∧ Lossless ∅ ∅ vm.world vm'.world) ∨
    ∃ vm' d cm, forkSpace H img regs c self t tasks vm s =
        .ok (forkDone img regs c tasks
          { tasks c with pgDir := linear true d, mm := some cm } vm' s) ∧
      ChildSpace vm vm' t.pgDir d parent cm := by
  rcases hcall : getZeroedPages 0 vm.mem vm.pagesUsage with ⟨p, m', usage'⟩
  rcases getZeroedPages_cases hcall vm.heap vm.heap with ⟨hp0, rfl, rfl⟩ | ⟨d, hpd, hp0, hd⟩
  · -- there is no page for the directory
    refine Or.inr (Or.inr (Or.inl ⟨{ vm with heap := H.kfree vm.heap self }, ?_, ?_, Lossless.refl _ _⟩))
    · simp only [forkSpace, hcall, if_pos hp0]
      rw [exitMm_kernel rfl, except_map_ok]
    · exact Local.refl fun a ha => ha.elim
  obtain ⟨hp', hused'⟩ := space_bystander hd.moves hp.space hused
  rw [forkSpace_eq hmm hcall hp0 hpd]
  rcases @forkVmas_spec κ H ⟨m', usage', vm.heap⟩ t.pgDir parent hp' hused' hp.vmas.sharedApart parent.mmap
    [] ⟨m', usage', vm.heap⟩ [] (fun x hx => hx) (by simp) (copied_nil _ _) with
    herr | ⟨fs, hfs, hfilled, hcopied⟩
  · exact Or.inl (by rw [herr, except_bind_error])
  rw [hfs, except_bind_ok]
  by_cases hok : fs.ok = true
  · rw [if_pos hok]
    rcases childSpace_spec hp.space hused hd (by simpa using hcopied hok) self with
      herr | ⟨vm', hmap, hchild⟩
    · rw [herr, except_map_error]
      exact Or.inr (Or.inl rfl)
    · rw [hmap, except_map_ok]
      exact Or.inr (Or.inr (Or.inr ⟨vm', d, _, rfl, hchild⟩))
  · rw [if_neg hok]
    obtain ⟨vm', hexit, hmoves, hlossless⟩ := hfilled.giveBack (H := H) hd self 0 0
    rw [hexit, except_map_ok]
    exact Or.inr (Or.inr (Or.inl ⟨vm', rfl, hmoves, hlossless⟩))

/-! ## `sys_fork` -/

/-- The slots after `get_task_slot` has returned `slot`, but for that slot itself. -/
structure SlotsKept (tasks tasks' : TaskTable) (slot : Option Nat) : Prop where
  taken : ∀ c, slot = some c → SlotVisited tasks c ∧ (tasks c).inUse = false
  reaped : ∀ k, Reapable tasks k → tasks' k = {}
  same : ∀ k, slot ≠ some k → ¬Reapable tasks k → tasks' k = tasks k

/-- The address lies in the kernel stack of slot `c`. -/
def InStack (img : KernelImage) (c x : Nat) : Prop := img.stack c ≤ x ∧ x < img.stack c + pageSize

/-- `sys_fork` has stored `-1`. -/
structure ForkFailed (img : KernelImage) (regs : Nat) (slot : Option Nat) (s s' : KernelState κ) :
    Prop where
  slots : SlotsKept s.tasks s'.tasks slot
  cleared : ∀ c, slot = some c → s'.tasks c = {}
  usage : ∀ k < maxNumPages, s'.vm.pagesUsage k = s.vm.pagesUsage k
  result : load s'.vm.mem regs 8 = 2 ^ 64 - 1
  mem : ∀ x, ¬(regs ≤ x ∧ x < regs + 8) → (∀ c, slot = some c → ¬InStack img c x) →
    ¬FreeFrame s.vm.pagesUsage (pageOf x) → s'.vm.mem x = s.vm.mem x
  user : s'.userTask = s.userTask

/-- Task `i` with the vmas `parent` has a child in slot `c` with directory `d` and the vmas `cm`. -/
structure Forked (img : KernelImage) (i regs c d : Nat) (parent cm : MmStruct) (s s' : KernelState κ) :
    Prop where
  slots : SlotsKept s.tasks s'.tasks (some c)
  inUse : (s'.tasks c).inUse = true
  running : (s'.tasks c).state = .running
  stack : (s'.tasks c).stack = img.stack c
  pgDir : (s'.tasks c).pgDir = linear true d
  mm : (s'.tasks c).mm = some cm
  user : s'.userTask = s.userTask
  pid : (s'.tasks c).pid = c + 1
  pc : (s'.tasks c).thread.pc = img.childReturnsFromFork
  sp : (s'.tasks c).thread.sp = img.stack c + regs % pageSize
  /-- The word at the base of the stack of the child. -/
  info : 8 ≤ regs % pageSize → load s'.vm.mem (img.stack c) 8 = img.task c % 2 ^ 64
  /-- First the stack of the child is written, then its address space, then the results. -/
  space : ∃ vm vm' : VmState κ, (∀ x, ¬InStack img c x → vm.mem x = s.vm.mem x) ∧
    vm.pagesUsage = s.vm.pagesUsage ∧ ChildSpace vm vm' (s.tasks i).pgDir d parent cm ∧
    s'.vm.pagesUsage = vm'.pagesUsage ∧
    ∀ x, ¬InStack img c x → ¬(regs ≤ x ∧ x < regs + 8) → s'.vm.mem x = vm'.mem x

theorem TaskStruct.live_iff {t : TaskStruct} : t.live = true ↔ t.inUse = true ∧ t.state ≠ .stopped := by
  simp [TaskStruct.live]

theorem not_reapable_of_live {tasks : TaskTable} {k : Nat} (h : (tasks k).live = true) :
    ¬Reapable tasks k := fun hr => (TaskStruct.live_iff.1 h).2 hr.2.2

/-- A task that is alive keeps its slot when a free one is handed out. -/
theorem live_kept {tasks tasks' : TaskTable} {slot : Option Nat} {i : Nat}
    (hfree : ∀ c, slot = some c → (tasks c).inUse = false)
    (hsame : ∀ k, slot ≠ some k → ¬Reapable tasks k → tasks' k = tasks k)
    (hlive : (tasks i).live = true) : slot ≠ some i ∧ tasks' i = tasks i := by
  have hne : slot ≠ some i := by
    intro hi
    have hin := hfree i hi
    rw [(TaskStruct.live_iff.1 hlive).1] at hin
    cases hin
  exact ⟨hne, hsame i hne (not_reapable_of_live hlive)⟩

theorem SlotCall.not_live {img : KernelImage} {tasks tasks' : TaskTable} {mem mem' : Mem}
    {slot : Option Nat} {i : Nat} (h : SlotCall img tasks mem slot tasks' mem')
    (hlive : (tasks i).live = true) : slot ≠ some i ∧ tasks' i = tasks i :=
  live_kept (fun c hc => (h.found c hc).2.1) h.same hlive

theorem usage_eq_of_free {usage usage' : PagesUsage} (h : FreeFrame usage' = FreeFrame usage) :
    ∀ k < maxNumPages, usage' k = usage k := by
  intro k hk
  have hiff : usage' k = false ↔ usage k = false := by
    rw [← freeFrame_frame hk, ← freeFrame_frame hk, h]
  cases h₁ : usage' k <;> cases h₂ : usage k <;> simp_all

section Fork

variable {i regs c : Nat}

theorem slotsKept_of_call {tasks' : TaskTable} {m m' : Mem} {slot : Option Nat} {f : TaskStruct}
    (hcall : SlotCall img s.tasks m slot tasks' m') (c : Nat) (hc : slot = some c) :
    SlotsKept s.tasks (Function.update tasks' c f) slot := by
  subst hc
  obtain ⟨hvis, hfree, -⟩ := hcall.found c rfl
  have hne : ∀ k, (s.tasks k).inUse = true → k ≠ c := by
    rintro k hk rfl
    rw [hk] at hfree
    cases hfree
  refine ⟨?_, fun k hk => ?_, fun k hk hnot => ?_⟩
  · rintro c' hc'
    cases hc'
    exact ⟨hvis, hfree⟩
  · rw [Function.update_of_ne (hne k hk.2.1), hcall.reaped k hk]
  · have hkc : k ≠ c := fun heq => hk (by rw [heq])
    rw [Function.update_of_ne hkc, hcall.same k hk hnot]

/-- Nothing has been taken, or all has been given back. -/
theorem forkFailed_spec {slot : Option Nat} {tasks' : TaskTable} {vm vm' : VmState κ}
    (hslots : SlotsKept s.tasks tasks' slot) (hcleared : ∀ c, slot = some c → tasks' c = {})
    (hmem : ∀ x, (∀ c, slot = some c → ¬InStack img c x) → vm.mem x = s.vm.mem x)
    (husage : vm.pagesUsage = s.vm.pagesUsage) (hmoves : Local pageOf ∅ ∅ vm.world vm'.world)
    (hlossless : Lossless ∅ ∅ vm.world vm'.world) :
    ForkFailed img regs slot s (forkFailed regs tasks' vm' s).1 := by
  refine ⟨hslots, hcleared, ?_, ?_, ?_, rfl⟩
  · rw [← husage]
    exact usage_eq_of_free (hmoves.free_eq hlossless)
  · exact load_store_same (by decide)
  · intro x hregs hstack hfree
    rw [← husage] at hfree
    have hsame : vm'.mem x = vm.mem x := hmoves.same x (fun hno => hno) hfree
    rw [← hmem x hstack, ← hsame]
    exact store_same hregs

theorem img_stack_dvd (img : KernelImage) (c : Nat) : pageSize ∣ img.stack c :=
  Nat.dvd_add img.stacks_dvd (Nat.dvd_mul_right _ _)

/-- The stack of the child is written before its address space is built. -/
theorem copyStack_same {m : Mem} {src v x : Nat} (hx : ¬InStack img c x) :
    store (copy (store m (img.stack c) 8 v) (img.stack c) src pageSize) (img.stack c) 8 v x = m x := by
  rw [InStack] at hx
  have hx8 : ¬(img.stack c ≤ x ∧ x < img.stack c + 8) := by
    simp only [pageSize] at hx
    omega
  rw [store_same hx8]
  simp only [copy, if_neg hx]
  exact store_same hx8

theorem stacks_apart (hne : i ≠ c) :
    img.stack i + pageSize ≤ img.stack c ∨ img.stack c + pageSize ≤ img.stack i := by
  rcases Nat.lt_or_gt_of_ne hne with hlt | hlt
  · simp only [KernelImage.stack, pageSize]
    omega
  · simp only [KernelImage.stack, pageSize]
    omega

/-- A byte of the copy of a stack, above the word at its base. -/
theorem copyStack_copied {m : Mem} {v j : Nat} (hne : i ≠ c) (h₁ : 8 ≤ j) (h₂ : j < pageSize) :
    store (copy (store m (img.stack c) 8 v) (img.stack c) (img.stack i) pageSize) (img.stack c) 8 v
        (img.stack c + j) = m (img.stack i + j) := by
  have hapart : ¬(img.stack c ≤ img.stack i + j ∧ img.stack i + j < img.stack c + 8) := by
    have := @stacks_apart img i c hne
    simp only [pageSize] at *
    omega
  rw [store_same (by omega)]
  simp only [copy, if_pos (show img.stack c ≤ img.stack c + j ∧ img.stack c + j < img.stack c + pageSize by
    omega), Nat.add_sub_cancel_left]
  exact store_same hapart

/-- An address space does not depend on a kernel stack. -/
theorem Invariant.process_offStack {m : Mem} (h : Invariant img u s) (hlive : (s.tasks i).live = true)
    (hdir : (s.tasks i).pgDir ≠ 0) (hmm : (s.tasks i).mm = some mm) (hc : c < maxNumProcesses)
    (hmem : ∀ x, ¬InStack img c x → m x = s.vm.mem x) :
    ProcessOk u m (s.tasks i).pgDir mm ∧
      ∀ a ∈ footprint m (physical true (s.tasks i).pgDir) mm.mmap, ¬FreeFrame s.vm.pagesUsage a := by
  have hp := (h.tasks i).process_of hlive hdir hmm
  have hsame : SameTables s.vm.mem m (physical true (s.tasks i).pgDir) := by
    intro n hn x hx
    refine hmem x fun hin => not_outside (hp.space.holdings.tables_pool n hn) ?_
    rw [← pageOf_of_inPage (hp.space.holdings.tables.pages n hn) hx]
    exact img.stack_outside hc hin.1 hin.2
  refine ⟨⟨hp.dir_lt, spaceOk_frame hp.space hsame, hp.vmas⟩, ?_⟩
  rw [footprint_frame hp.space.holdings.tables hsame]
  exact h.used hlive hdir hmm

/-- `sys_fork` of task `i` has come to the address space of the child: slot `c` is taken, the stack of the
parent has been copied, and `t` is the task of the child so far. -/
structure ForkBegun (img : KernelImage) (s : KernelState κ) (i c : Nat) (tasks' : TaskTable) (m : Mem)
    (t : TaskStruct) : Prop where
  call : SlotCall img s.tasks s.vm.mem (some c) tasks' (store s.vm.mem (img.stack c) 8 (img.task c))
  lt : c < maxNumProcesses
  ne : i ≠ c
  unused : (s.tasks c).inUse = false
  stack : t.stack = img.stack c
  inUse : t.inUse = true
  pid : t.pid = c + 1
  mem : ∀ x, ¬InStack img c x → m x = s.vm.mem x
  copied : (s.tasks i).stack = img.stack i → ∀ j, 8 ≤ j → j < pageSize →
    m (img.stack c + j) = s.vm.mem (img.stack i + j)
  word : load m (img.stack c) 8 = img.task c % 2 ^ 64

/-- How far a call of `sys_fork` comes: there is no slot, or no memory for the `mm_struct`, or the address
space of the child is built. -/
theorem sysFork_cases (H : KernelHeap κ) (img : KernelImage) (regs : Nat) (hlive : (s.tasks i).live = true) :
    (∃ tasks', SlotCall img s.tasks s.vm.mem none tasks' s.vm.mem ∧
      sysFork H img i regs s = .ok (forkFailed regs tasks' s.vm s)) ∨
    ∃ c tasks' m t self heap, ForkBegun img s i c tasks' m t ∧
      H.kmalloc s.vm.heap sizeofMmStruct = (self, heap) ∧
      sysFork H img i regs s =
        if self = 0 then .ok (forkFailed regs (freeTaskSlot (Function.update tasks' c t) c)
          ⟨m, s.vm.pagesUsage, heap⟩ s)
        else forkSpace H img regs c self (s.tasks i) (Function.update tasks' c t)
          ⟨m, s.vm.pagesUsage, heap⟩ s := by
  rcases hcall : getTaskSlot img s.tasks s.vm.mem with ⟨slot, tasks', mem'⟩
  have hslot := getTaskSlot_call hcall
  obtain ⟨hparent, hti⟩ := hslot.not_live hlive
  cases slot with
  | none =>
      obtain ⟨-, rfl⟩ := hslot.full rfl
      exact Or.inl ⟨tasks', hslot, by simp only [sysFork, hcall]⟩
  | some c =>
      obtain ⟨hvis, hfree, htaken, rfl⟩ := hslot.found c rfl
      have hlt : c < maxNumProcesses := by
        have := hvis.2.1
        omega
      have hne : i ≠ c := fun hci => hparent (by rw [hci])
      have hstack : (tasks' c).stack = img.stack c := by rw [htaken, takenSlot]
      generalize hm : store (copy (store s.vm.mem (img.stack c) 8 (img.task c)) (tasks' c).stack
        (tasks' i).stack pageSize) (tasks' c).stack 8 (img.task c) = m
      generalize ht : ({ tasks' c with
        thread := (tasks' i).thread
        comm := strncpy (tasks' c).comm (tasks' i).comm (taskCommLen - 1) } : TaskStruct) = t
      rcases hkm : H.kmalloc s.vm.heap sizeofMmStruct with ⟨self, heap⟩
      refine Or.inr ⟨c, tasks', m, t, self, heap, ⟨hslot, hlt, hne, hfree, ?_, ?_, ?_, ?_, ?_, ?_⟩, rfl, ?_⟩
      · rw [← ht, ← hstack]
      · rw [← ht, htaken, takenSlot]
      · rw [← ht, htaken, takenSlot]
      · -- only the stack of the child has been written so far
        intro x hx
        rw [← hm, hstack]
        exact copyStack_same hx
      · intro hiStack j h₁ h₂
        rw [← hm, hstack, hti, hiStack]
        exact copyStack_copied hne h₁ h₂
      · rw [← hm, hstack, load_store_mod, show (256 : Nat) ^ 8 = 2 ^ 64 by decide]
      · simp only [sysFork, hcall, hkm, hm, ht]
        rw [hti]

/-- Everything that `sys_fork` can do. -/
theorem sysFork_spec (h : Invariant img u s) (hruns : UserRuns s i) (hregs : RegsOk s i regs) :
    sysFork H img i regs s = .error .kernelPanic ∨ sysFork H img i regs s = .error .assertFailed ∨
    (∃ slot s', sysFork H img i regs s = .ok (s', none) ∧ ForkFailed img regs slot s s') ∨
    ∃ c d parent cm s', sysFork H img i regs s = .ok (s', some c) ∧
      (s.tasks i).mm = some parent ∧ Forked img i regs c d parent cm s s' := by
  obtain ⟨hlive, hdir⟩ := hruns
  obtain ⟨parent, hmm, hp⟩ := (h.tasks i).process hlive hdir
  rcases sysFork_cases H img regs hlive with
    ⟨tasks', hslot, hrun⟩ | ⟨c, tasks', m, t, self, heap, hb, -, hrun⟩
  · refine Or.inr (Or.inr (Or.inl ⟨none, _, hrun, ?_⟩))
    refine @forkFailed_spec κ img s regs none tasks' s.vm s.vm ⟨?_, hslot.reaped, hslot.same⟩ ?_
      (fun _ _ => rfl) rfl (Local.refl fun a ha => ha.elim) (Lossless.refl _ _)
    · intro c hc
      cases hc
    · intro c hc
      cases hc
  · have hcleared : freeTaskSlot (Function.update tasks' c t) c = Function.update tasks' c {} := by
      rw [freeTaskSlot, Function.update_idem]
    have hfailed : ∀ vm' : VmState κ, Local pageOf ∅ ∅
        (VmState.world ⟨m, s.vm.pagesUsage, heap⟩) vm'.world →
        Lossless ∅ ∅ (VmState.world ⟨m, s.vm.pagesUsage, heap⟩) vm'.world →
        ForkFailed img regs (some c) s
          (forkFailed regs (freeTaskSlot (Function.update tasks' c t) c) vm' s).1 := by
      intro vm' hmoves hlossless
      rw [hcleared]
      refine @forkFailed_spec κ img s regs (some c) _ ⟨m, s.vm.pagesUsage, heap⟩ vm'
        (slotsKept_of_call hb.call c rfl) ?_ (fun x hx => hb.mem x (hx c rfl)) rfl hmoves hlossless
      rintro c' hc'
      cases hc'
      exact Function.update_self ..
    rw [hrun]
    by_cases hself : self = 0
    · rw [if_pos hself]
      exact Or.inr (Or.inr (Or.inl ⟨some c, _, rfl,
        hfailed _ (Local.refl fun a ha => ha.elim) (Lossless.refl _ _)⟩))
    rw [if_neg hself]
    -- the parent does not notice the write to the stack of the child
    obtain ⟨hp', hused⟩ := h.process_offStack hlive hdir hmm hb.lt hb.mem
    rcases @forkSpace_spec κ H img u ⟨m, s.vm.pagesUsage, heap⟩ parent regs c self (s.tasks i)
      (Function.update tasks' c t) s hmm hp' hused with
      herr | herr | ⟨vm', hok, hmoves, hlossless⟩ | ⟨vm', d, cm, hok, hchild⟩
    · exact Or.inl herr
    · exact Or.inr (Or.inl herr)
    · exact Or.inr (Or.inr (Or.inl ⟨some c, _, hok, hfailed vm' hmoves hlossless⟩))
    · refine Or.inr (Or.inr (Or.inr ⟨c, d, parent, cm, _, hok, hmm, ?_⟩))
      refine ⟨?_, ?_, ?_, ?_, ?_, ?_, rfl, ?_, ?_, ?_, fun hword => ?_,
        ⟨⟨m, s.vm.pagesUsage, heap⟩, vm', hb.mem, rfl, hchild, rfl, fun x hx hxr => ?_⟩⟩
      · simp only [Function.update_idem]
        exact slotsKept_of_call hb.call c rfl
      · simp only [Function.update_self, hb.inUse]
      · simp only [Function.update_self]
      · simp only [Function.update_self, hb.stack]
      · simp only [Function.update_self]
      · simp only [Function.update_self]
      · simp only [Function.update_self, hb.pid]
      · simp only [Function.update_self]
      · simp only [Function.update_self, hb.stack]
      · have hne : regs + 8 ≤ img.stack c ∨ img.stack c + 8 ≤ regs := by
          have hic := hb.ne
          obtain ⟨hge, hle⟩ := hregs
          rw [((h.tasks i).stack (TaskStruct.live_iff.1 hlive).1).1] at hge hle
          simp only [KernelImage.stack, sizeofPtRegs, pageSize] at *
          omega
        have hm' : load vm'.mem (img.stack c) 8 = load m (img.stack c) 8 := by
          refine load_congr fun x h₁ h₂ => hchild.moves.same x (fun hno => hno) fun hno => ?_
          have hx : img.stack c ≤ x ∧ x < img.stack c + pageSize := ⟨h₁, by simp only [pageSize]; omega⟩
          exact (img.stack_outside hb.lt hx.1 hx.2).1 (FreeFrame.inPool hno)
        simp only [Function.update_self, hb.stack]
        rw [load_store_ne hne.symm, load_store_ne (Or.inl (by omega)), hm', hb.word]
      · -- the results are stored on the two stacks
        have hdvd := img_stack_dvd img i
        obtain ⟨hge, hle⟩ := hregs
        rw [((h.tasks i).stack (TaskStruct.live_iff.1 hlive).1).1] at hge hle
        have hsp : ¬(img.stack c + regs % pageSize ≤ x ∧ x < img.stack c + regs % pageSize + 8) := by
          rw [InStack] at hx
          simp only [sizeofPtRegs, pageSize] at *
          omega
        simp only [Function.update_self, hb.stack]
        rw [store_same hxr, store_same hsp]

/-! ### As a step -/

theorem freeFrame_congr {usage usage' : PagesUsage} (h : ∀ k < maxNumPages, usage' k = usage k) :
    FreeFrame usage' = FreeFrame usage := by
  ext a
  refine exists_congr fun k => and_congr_right fun hk => ?_
  rw [h k hk]

/-- The other slots: nothing is alive in those that have changed. -/
theorem SlotsKept.others {tasks tasks' : TaskTable} {slot : Option Nat} (h : SlotsKept tasks tasks' slot)
    {k : Nat} (hk : slot ≠ some k) :
    tasks' k = tasks k ∨ (tasks' k = {} ∧ (tasks k).live = false) := by
  by_cases hreap : Reapable tasks k
  · refine Or.inr ⟨h.reaped k hreap, ?_⟩
    by_contra hlive
    exact not_reapable_of_live (by simpa using hlive) hreap
  · exact Or.inl (h.same k hk hreap)

/-- The slot that is handed out is not that of a task that is alive. -/
theorem SlotsKept.not_live {tasks tasks' : TaskTable} {slot : Option Nat}
    (h : SlotsKept tasks tasks' slot) (hlive : (tasks i).live = true) :
    slot ≠ some i ∧ tasks' i = tasks i :=
  live_kept (fun c hc => (h.taken c hc).2) h.same hlive

/-- What a call that fails has written lies outside of the pool. -/
theorem ForkFailed.same {slot : Option Nat} {x : Nat} (h : Invariant img u s)
    (hlive : (s.tasks i).live = true) (hregs : RegsOk s i regs) (hf : ForkFailed img regs slot s s')
    (hx : pageOf x ∉ outside) (hused : ¬FreeFrame s.vm.pagesUsage (pageOf x)) :
    s'.vm.mem x = s.vm.mem x := by
  refine hf.mem x (fun hin => hx (h.regs_outside hlive hregs hin.1 hin.2)) (fun c hc hin => hx ?_) hused
  have := (hf.slots.taken c hc).1.2.1
  exact img.stack_outside (by omega) hin.1 hin.2

/-- The tables of the caller are unchanged. -/
theorem ForkFailed.tables {slot : Option Nat} (h : Invariant img u s)
    (hlive : (s.tasks i).live = true) (hregs : RegsOk s i regs) (hf : ForkFailed img regs slot s s') :
    SameTaskTables s.vm.mem s'.vm.mem (s.tasks i) := by
  intro _ hdir n hn x hx
  obtain ⟨mm, hmm, hp⟩ := (h.tasks i).process hlive hdir
  have hpage := pageOf_of_inPage (hp.space.holdings.tables.pages n hn) hx
  refine hf.same h hlive hregs ?_ ?_
  · rw [hpage]
    exact not_outside (hp.space.holdings.tables_pool n hn)
  · rw [hpage]
    exact h.used hlive hdir hmm n (Or.inl hn)

/-- A call that fails is a step of its caller. -/
theorem StepOf.forkFailed {slot : Option Nat} (h : Invariant img u s) (hlive : (s.tasks i).live = true)
    (hregs : RegsOk s i regs) (hf : ForkFailed img regs slot s s') : StepOf img u i s s' := by
  obtain ⟨-, hti⟩ := hf.slots.not_live hlive
  have hfree := freeFrame_congr hf.usage
  obtain ⟨htask, hfoot⟩ := (h.tasks i).frame (hf.tables h hlive hregs)
  refine ⟨?_, fun k hk => ?_, hti ▸ htask, ?_, Or.inl hf.user⟩
  · rw [hti, hfoot]
    have hheld : ∀ a ∈ taskFootprint s.vm.mem (s.tasks i) ∪ outside, ¬FreeFrame s.vm.pagesUsage a := by
      rintro a (ha | ha) hno
      · exact h.owned.held i a ha hno
      · exact ha.1 (FreeFrame.inPool hno)
    refine ⟨fun x hx hno => hf.same h hlive hregs (fun hin => hx (Or.inr hin)) hno, fun a ha => Or.inl ha,
      fun a ha => Or.inl ?_, fun a ha hno => hheld a ha ?_⟩
    · rwa [VmState.world, hfree] at ha
    · rwa [VmState.world, hfree] at hno
  · by_cases hslot : slot = some k
    · refine Or.inr ⟨hf.cleared k hslot, ?_⟩
      rw [TaskStruct.live, (hf.slots.taken k hslot).2, Bool.false_and]
    · exact hf.slots.others hslot
  · rw [hf.user, hti]
    exact h.pool i

theorem VmArea.From.of_area {x y : VmArea} (h : x.From u) (harea : x.area = y.area) : y.From u := by
  obtain ⟨hs, -, -, hlma⟩ := area_eq harea
  rcases h with ⟨a, ha, heq⟩ | ⟨hstart, hno, hshared⟩
  · exact Or.inl ⟨a, ha, harea ▸ heq⟩
  · exact Or.inr ⟨hs ▸ hstart, hlma.1 hno, (shared_of_area harea).symm.trans hshared⟩

theorem ChildSpace.vmasOf {vm vm' : VmState κ} {pgDir d : Nat} {parent cm : MmStruct}
    (h : ChildSpace vm vm' pgDir d parent cm) (hp : VmasOf u parent) : VmasOf u cm := by
  refine ⟨h.start.trans hp.start, fun y hy => ?_⟩
  have hmem : y.area ∈ (parent.mmap.map VmArea.area).reverse := h.areas ▸ List.mem_map_of_mem hy
  rw [List.mem_reverse] at hmem
  obtain ⟨x, hx, harea⟩ := List.mem_map.1 hmem
  exact (hp.vma x hx).of_area harea

/-- The page table of the child, seen after the call. -/
theorem Forked.spaceOk {d : Nat} {parent cm : MmStruct} (h : Invariant img u s)
    (hlive : (s.tasks i).live = true) (hregs : RegsOk s i regs)
    (hf : Forked img i regs c d parent cm s s') :
    SpaceOk s'.vm.mem d cm ∧
      Local pageOf (∅ ∪ outside) (footprint s'.vm.mem d cm.mmap ∪ outside) s.vm.world s'.vm.world ∧
      Lossless ∅ (footprint s'.vm.mem d cm.mmap) s.vm.world s'.vm.world ∧
      Returnable s'.vm.mem d cm.mmap := by
  obtain ⟨vm, vm', hmem, husage, hchild, husage', hmem'⟩ := hf.space
  have hc : c < maxNumProcesses := by
    have := (hf.slots.taken c rfl).1.2.1
    omega
  -- around the address space only the stack of the child and the registers are written
  have hbefore : ∀ x, pageOf x ∉ outside → vm.mem x = s.vm.mem x := fun x hx =>
    hmem x fun hin => hx (img.stack_outside hc hin.1 hin.2)
  have hafter : ∀ x, pageOf x ∉ outside → s'.vm.mem x = vm'.mem x := fun x hx =>
    hmem' x (fun hin => hx (img.stack_outside hc hin.1 hin.2)) fun hin =>
      hx (h.regs_outside hlive hregs hin.1 hin.2)
  have htables : SameTables vm'.mem s'.vm.mem d := by
    intro n hn x hx
    refine hafter x ?_
    rw [pageOf_of_inPage (hchild.space.holdings.tables.pages n hn) hx]
    exact not_outside (hchild.space.holdings.tables_pool n hn)
  have hlook := lookup_frame hchild.space.holdings.tables htables
  have hfoot : footprint s'.vm.mem d cm.mmap = footprint vm'.mem d cm.mmap :=
    footprint_frame hchild.space.holdings.tables htables
  have hworld : vm.world.free = s.vm.world.free := congrArg FreeFrame husage
  have hworld' : s'.vm.world.free = vm'.world.free := congrArg FreeFrame husage'
  refine ⟨spaceOk_frame hchild.space htables, ?_, ?_, ?_⟩
  · rw [hfoot]
    have hout : ∀ (w : VmState κ), ∀ a ∈ (∅ ∪ outside : Set Nat), a ∉ w.world.free := by
      rintro w a (ha | ha) hno
      · exact ha.elim
      · exact ha.1 (FreeFrame.inPool hno)
    -- the three parts of the call, one after the other
    have h₁ : Local pageOf (∅ ∪ outside) (∅ ∪ outside) s.vm.world vm.world :=
      Local.write (fun x hx => hbefore x fun hin => hx (Or.inr hin)) hworld (hout s.vm)
    have h₂ := local_outside hchild.moves fun a ha => ha.elim
    have h₃ : Local pageOf (footprint vm'.mem d cm.mmap ∪ outside)
        (footprint vm'.mem d cm.mmap ∪ outside) vm'.world s'.vm.world :=
      Local.write (fun x hx => hafter x fun hin => hx (Or.inr hin)) hworld' h₂.held
    exact (h₁.trans h₂).trans h₃
  · rw [hfoot]
    intro a ha
    rw [← hworld] at ha
    rw [hworld']
    exact hchild.lossless a ha
  · refine ⟨hchild.returnable.unshared, fun v a ha => hchild.returnable.listed v a ?_⟩
    rwa [← hlook]

/-- A call that succeeds is a step of the child. -/
theorem StepOf.forked {d : Nat} {parent cm : MmStruct} (h : Invariant img u s) (hruns : UserRuns s i)
    (hregs : RegsOk s i regs) (hmm : (s.tasks i).mm = some parent)
    (hf : Forked img i regs c d parent cm s s') : StepOf img u c s s' := by
  obtain ⟨hlive, hdir⟩ := hruns
  have hp := (h.tasks i).process_of hlive hdir hmm
  obtain ⟨hspace, hmoves, -, -⟩ := hf.spaceOk h hlive hregs
  obtain ⟨vm, vm', -, -, hchild, -⟩ := hf.space
  have hc : c < maxNumProcesses := by
    have := (hf.slots.taken c rfl).1.2.1
    omega
  have hclive : (s'.tasks c).live = true := by
    rw [TaskStruct.live_iff, hf.running]
    exact ⟨hf.inUse, by decide⟩
  -- the slot has been free, so the task has owned nothing
  have hfree : (s.tasks c).live = false := by
    rw [TaskStruct.live, (hf.slots.taken c rfl).2, Bool.false_and]
  have hdpool := hspace.holdings.tables_pool d (root_mem_tableFrames _ d)
  have hdpage := hspace.holdings.tables.pages d (root_mem_tableFrames _ d)
  have hcdir : (s'.tasks c).pgDir ≠ 0 := by
    rw [hf.pgDir]
    simpa only [linear, if_true] using ne_zero_of_inPool hdpool
  have hphys : physical true (s'.tasks c).pgDir = d := by
    rw [hf.pgDir]
    exact physical_linear true hdpage.2
  refine ⟨?_, fun k hk => hf.slots.others fun hno => hk (Option.some.inj hno).symm, ?_, ?_,
    Or.inl hf.user⟩
  · rw [taskFootprint_of_not_live hfree, taskFootprint_eq hclive hcdir hf.mm, hphys]
    exact hmoves
  · refine ⟨fun _ => ⟨hf.stack, hc⟩, fun hno => ?_, fun _ => ⟨cm, hf.mm, fun hno => absurd hno hcdir,
      fun _ => ⟨?_, ?_, hchild.vmasOf hp.vmas⟩⟩⟩
    · rw [hf.inUse] at hno
      cases hno
    · rw [hf.pgDir]
      exact linear_lt hdpage.2
    · rwa [hphys]
  · intro _ _ mm₁ hmm₁
    rw [hf.mm] at hmm₁
    cases hmm₁
    exact hchild.own

end Fork

end Kernel
end ToutOS
