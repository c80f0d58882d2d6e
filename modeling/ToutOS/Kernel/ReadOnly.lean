import ToutOS.Kernel.SpaceRules

/-!
# ReadOnly — the pages of vmas that may not be written

The exception handler enters every page as one that may be written.  Vmas without `VM_WRITE` are
mapped as a whole when they are made, so it finds their entries filled.

* `ReadOnly` — vmas without `VM_WRITE` have an `lma`, and the entries of their pages have
  `PTE_RDONLY` set; one lemma for each call that keeps it (`ReadOnly.fault`, `ReadOnly.sysBrk`) or
  establishes it (`readOnly_of_leaf`).
* `readOnly_rules` — it is so in all address spaces.
* `reachable_readOnly` — the entries in every state that can be reached.
-/

namespace ToutOS
namespace Kernel

open Base Mm

variable {κ : Type} {H : KernelHeap κ} {img : KernelImage} {u : UserImage} {s s' : KernelState κ}
  {m m' : Mem} {d : Nat} {mm mm' : MmStruct} {vm vm' : VmState κ}

/-! ## One address space -/

/-- `PTE_RDONLY`. -/
def pteRdonly : Nat := 1 <<< 7

/-- The pages of the vmas that may not be written are entered so. -/
structure ReadOnly (m : Mem) (d : Nat) (mm : MmStruct) : Prop where
  static : ∀ x ∈ mm.mmap, x.writable = false → x.lma ≠ noLma
  marked : ∀ x ∈ mm.mmap, x.writable = false → ∀ v, v < 2 ^ 39 → x.covers (pageAddr v) = true →
    ∀ e, leafPte true m d v = some e → e &&& pteRdonly ≠ 0

theorem descriptor_rdonly (addr : Nat) : descriptor addr (userAttrs true) &&& pteRdonly ≠ 0 := by
  intro hzero
  have hbit : (descriptor addr (userAttrs true) &&& pteRdonly).testBit 7 = true := by
    have h₁ : pteRdonly.testBit 7 = true := by decide
    have h₂ : (userAttrs true).testBit 7 = true := by decide
    simp [descriptor, h₁, h₂]
  rw [hzero, Nat.zero_testBit] at hbit
  cases hbit

/-- An address space whose entries are those of its vmas. -/
theorem readOnly_of_leaf (hstatic : ∀ x ∈ mm.mmap, x.writable = false → x.lma ≠ noLma)
    (hleaf : ∀ x ∈ mm.mmap, x.lma ≠ noLma → ∀ v, v < 2 ^ 39 → x.covers (pageAddr v) = true →
      leafPte true m d v = some (descriptor (x.target (pageAddr v)) (userAttrs (!x.writable)))) :
    ReadOnly m d mm := by
  refine ⟨hstatic, fun x hx hro v hv hcov e he => ?_⟩
  rw [hleaf x hx (hstatic x hx hro) v hv hcov, hro] at he
  obtain rfl := Option.some.inj he
  exact descriptor_rdonly _

/-- The vmas are those of before, but for their blocks, and what was mapped is mapped by the same
entries. -/
theorem ReadOnly.entries (h : ReadOnly m d mm) (hspace : SpaceOk m d mm)
    (hbare : mm'.mmap.map VmArea.bare = mm.mmap.map VmArea.bare)
    (hkept : ∀ v e, leafPte true m d v = some e → leafPte true m' d v = some e) : ReadOnly m' d mm' := by
  have hold : ∀ x ∈ mm'.mmap, ∃ y ∈ mm.mmap, y.bare = x.bare := by
    intro x hx
    have hmem : x.bare ∈ mm.mmap.map VmArea.bare := hbare ▸ List.mem_map_of_mem hx
    exact List.mem_map.1 hmem
  have hwritable : ∀ {x y : VmArea}, y.bare = x.bare → y.writable = x.writable := fun hb => by
    have := congrArg VmArea.writable hb
    exact this
  refine ⟨fun x hx hro => ?_, fun x hx hro v hv hcov e he => ?_⟩
  · obtain ⟨y, hy, hb⟩ := hold x hx
    rw [← lma_congr hb]
    exact h.static y hy ((hwritable hb).trans hro)
  · obtain ⟨y, hy, hb⟩ := hold x hx
    have hro' := (hwritable hb).trans hro
    have hcov' := (covers_congr hb _).trans hcov
    -- the page was mapped before
    have hlook := hspace.maps.static y hy (h.static y hy hro') v hv hcov'
    rw [lookup_eq_leafPte] at hlook
    obtain ⟨e', he', -⟩ := Option.map_eq_some_iff.1 hlook
    rw [hkept v e' he'] at he
    obtain rfl := Option.some.inj he
    exact h.marked y hy hro' v hv hcov' _ he'

theorem ReadOnly.frame (h : ReadOnly m d mm) (hspace : SpaceOk m d mm) (hsame : SameTables m m' d) :
    ReadOnly m' d mm :=
  h.entries hspace rfl fun _ _ he => leafPte_frame hspace.holdings.tables hsame he

/-- The handler of an exception does not replace an entry. -/
theorem ReadOnly.fault {addr k : Nat} {mmap' : List VmArea} {T' : Set Nat} (h : ReadOnly vm.mem d mm)
    (hspace : SpaceOk vm.mem d mm) (hf : Faulted H d addr k mm vm mmap' vm' T') :
    ReadOnly vm'.mem d { mm with mmap := mmap' } :=
  h.entries hspace hf.bare fun _ _ he => hf.entries.leafPte hspace.holdings.tables he

/-! ## `sys_brk` -/

theorem entriesCleared_unmapOneUserPage {addr : Nat}
    (hrun : unmapOneUserPage (linear true d) addr vm = .ok vm') : EntriesCleared vm.mem vm'.mem := by
  rw [unmapOneUserPage_eq] at hrun
  obtain ⟨usage, -, rfl⟩ := except_map_eq_ok.1 hrun
  refine entriesCleared_store vm.mem ?_
  rw [lastEntry, List.foldl_cons, List.foldl_cons, List.foldl_nil]
  exact dvd_entryAddr (physOk_getPhyAddr _).1 _

theorem entriesCleared_unmapLoop :
    ∀ {n addr : Nat} {vm : VmState κ}, unmapLoop (linear true d) n addr vm = .ok vm' →
      EntriesCleared vm.mem vm'.mem := by
  intro n
  induction n with
  | zero =>
      intro addr vm hrun
      obtain rfl := Except.ok.inj hrun
      exact EntriesCleared.refl _
  | succ n ih =>
      intro addr vm hrun
      rw [unmapLoop] at hrun
      obtain ⟨vm₁, hfirst, hrest⟩ := except_bind_eq_ok.1 hrun
      exact (entriesCleared_unmapOneUserPage hfirst).trans (ih hrest)

theorem entriesCleared_unmap {addr size : Nat}
    (hrun : unmapUserPageMapping (linear true d) addr size vm = .ok vm') :
    EntriesCleared vm.mem vm'.mem := by
  rw [unmapUserPageMapping] at hrun
  split_ifs at hrun
  · obtain rfl := Except.ok.inj hrun
    exact EntriesCleared.refl _
  · obtain rfl := Except.ok.inj hrun
    exact EntriesCleared.refl _
  · exact entriesCleared_unmapLoop hrun

/-- A vma keeps its flags, or it is the heap that is made now. -/
def KeepsFlags (mmap mmap' : List VmArea) : Prop :=
  ∀ x ∈ mmap', x.writable = true ∨ ∃ y ∈ mmap, y.vmFlags = x.vmFlags ∧ y.lma = x.lma

theorem keepsFlags_updateVma {addr : Nat} {f : VmArea → VmArea}
    (hf : ∀ x, (f x).vmFlags = x.vmFlags ∧ (f x).lma = x.lma) (mmap : List VmArea) :
    KeepsFlags mmap (updateVma addr f mmap) := by
  intro x hx
  refine Or.inr ?_
  rcases mem_updateVma hx with hx | ⟨y, hfind, rfl⟩
  · exact ⟨x, hx, rfl, rfl⟩
  · exact ⟨y, List.mem_of_find?_eq_some hfind, (hf y).1.symm, (hf y).2.symm⟩

theorem KeepsFlags.trans {l₁ l₂ l₃ : List VmArea} (h₁ : KeepsFlags l₁ l₂) (h₂ : KeepsFlags l₂ l₃) :
    KeepsFlags l₁ l₃ := by
  intro x hx
  rcases h₂ x hx with hw | ⟨y, hy, hflags, hlma⟩
  · exact Or.inl hw
  · rcases h₁ y hy with hw | ⟨z, hz, hflags', hlma'⟩
    · refine Or.inl ?_
      rw [VmArea.writable, ← hflags]
      exact hw
    · exact Or.inr ⟨z, hz, hflags'.trans hflags, hlma'.trans hlma⟩

theorem brkOut_flags (mm : MmStruct) : KeepsFlags mm.mmap (brkOut H mm vm).1.mmap := by
  cases hfind : findVma mm.mmap mm.startBrk with
  | none =>
      rcases hcall : H.kmalloc vm.heap sizeofVmArea with ⟨self, heap'⟩
      simp only [brkOut, hfind, setupVma, hcall]
      by_cases hself : self = 0
      · rw [if_pos hself]
        exact fun x hx => Or.inr ⟨x, hx, rfl, rfl⟩
      · -- the heap is made
        rw [if_neg hself]
        intro x hx
        rcases List.mem_cons.1 hx with rfl | hx
        · exact Or.inl (by simp [VmArea.writable, vmRead, vmWrite])
        · exact Or.inr ⟨x, hx, rfl, rfl⟩
  | some x =>
      simp only [brkOut, hfind]
      exact keepsFlags_updateVma (f := fun vma => { vma with vmEnd := mm.brk }) (fun _ => ⟨rfl, rfl⟩) mm.mmap

/-- `sys_brk` takes entries away, and makes no vma that may not be written. -/
theorem sysBrk_entries {addr : Nat} (hrun : sysBrk H (linear true d) addr mm vm = .ok (mm', vm')) :
    EntriesCleared vm.mem vm'.mem ∧ KeepsFlags mm.mmap mm'.mmap := by
  unfold sysBrk at hrun
  by_cases hout : addr = 0 ∨ addr < mm.startBrk ∨ maxBrkAddr < addr
  · rw [if_pos hout] at hrun
    have hpair := Except.ok.inj hrun
    rw [← show (brkOut H mm vm).2 = vm' by rw [hpair], ← show (brkOut H mm vm).1 = mm' by rw [hpair],
      brkOut_mem]
    exact ⟨EntriesCleared.refl _, brkOut_flags mm⟩
  rw [if_neg hout] at hrun
  dsimp only at hrun
  by_cases hlt : upperPageAddr addr < upperPageAddr mm.brk
  · rw [if_pos hlt] at hrun
    obtain ⟨vm₁, hunmap, hrun⟩ := except_bind_eq_ok.1 hrun
    split_ifs at hrun
    have hpair := Except.ok.inj hrun
    have hdrop := @keepsFlags_updateVma mm.startBrk
      (dropBlocks (upperPageAddr addr) (upperPageAddr mm.brk)) (fun _ => ⟨rfl, rfl⟩) mm.mmap
    generalize updateVma mm.startBrk _ mm.mmap = mmap at hpair hdrop
    have hmm := congrArg Prod.fst hpair
    have hvm := congrArg (fun r => VmState.mem r.2) hpair
    dsimp only at hmm hvm
    rw [brkOut_mem] at hvm
    rw [← hmm, ← hvm]
    refine ⟨entriesCleared_unmap hunmap, hdrop.trans ?_⟩
    exact brkOut_flags { mm with mmap := mmap, brk := addr % 2 ^ 32 }
  · rw [if_neg hlt] at hrun
    have hpair := Except.ok.inj hrun
    have hmm := congrArg Prod.fst hpair
    have hvm := congrArg (fun r => VmState.mem r.2) hpair
    dsimp only at hmm hvm
    rw [brkOut_mem] at hvm
    rw [← hmm, ← hvm]
    exact ⟨EntriesCleared.refl _, brkOut_flags { mm with brk := addr % 2 ^ 32 }⟩

theorem ReadOnly.sysBrk {addr : Nat} (h : ReadOnly vm.mem d mm) (hd : pageSize ∣ d)
    (hs : SpaceStep d mm vm mm' vm') (hrun : sysBrk H (linear true d) addr mm vm = .ok (mm', vm')) :
    ReadOnly vm'.mem d mm' := by
  obtain ⟨hcleared, hflags⟩ := sysBrk_entries hrun
  have hstatic : ∀ x ∈ mm'.mmap, x.writable = false → x.lma ≠ noLma := by
    intro x hx hro
    rcases hflags x hx with hw | ⟨y, hy, hflag, hlma⟩
    · rw [hw] at hro
      cases hro
    · rw [← hlma]
      refine h.static y hy ?_
      rw [← hro, VmArea.writable, hflag, VmArea.writable]
  refine ⟨hstatic, fun x hx hro v hv hcov e he => ?_⟩
  rcases hs.kept x hx with ⟨y, hy, hbare⟩ | ⟨-, hlma, -⟩
  · have hro' : y.writable = false := by
      rw [← hro]
      have := congrArg VmArea.writable hbare
      exact this
    exact h.marked y hy hro' v hv ((covers_congr hbare _).trans hcov) e (hcleared.leafPte hd he)
  · exact absurd hlma (hstatic x hx hro)

/-! ## All address spaces -/

/-- It is so in all address spaces. -/
def AllReadOnly (s : KernelState κ) : Prop :=
  ∀ i, UserRuns s i → ∀ mm, (s.tasks i).mm = some mm →
    ReadOnly s.vm.mem (physical true (s.tasks i).pgDir) mm

/-- The address spaces that are made have it, and the calls keep it. -/
theorem readOnly_rules : SpaceRules H ReadOnly where
  static h := h.static
  frame h hspace hsame := h.frame hspace hsame
  made h := readOnly_of_leaf h.static h.leaf
  fault h hspace _ _ hf := h.fault hspace hf
  brk h hspace hs hrun :=
    h.sysBrk (hspace.holdings.tables.pages _ (root_mem_tableFrames _ _)).1 hs hrun

theorem Reachable.readOnly (h : Reachable H img u s) : AllReadOnly s := readOnly_rules.reachable h

/-- The entry that maps a page of a vma without `VM_WRITE` is read-only, and it leads to the page that
the `lma` of the vma stands for. -/
theorem reachable_readOnly {i v e : Nat} {vma : VmArea} (h : Reachable H img u s) (hruns : UserRuns s i)
    (hmm : (s.tasks i).mm = some mm) (hvma : vma ∈ mm.mmap) (hro : vma.vmFlags &&& vmWrite = 0)
    (hcov : vma.covers v = true)
    (he : leafPte true s.vm.mem (physical true (s.tasks i).pgDir) v = some e) :
    e &&& pteRdonly ≠ 0 ∧ getPhyAddr e = vma.lma + (pageAddr v - vma.vmStart) := by
  have hp := (h.invariant.tasks i).process_of hruns.1 hruns.2 hmm
  have hok := hp.space.layout.vma vma hvma
  have hwritable : vma.writable = false := by simp [VmArea.writable, hro]
  have hread := h.readOnly i hruns mm hmm
  have hpage := hok.covers_pageAddr hcov
  have hv : v < 2 ^ 39 := by
    have := hok.end_le
    rw [VmArea.covers_iff] at hcov
    omega
  have hlook := hp.space.maps.static vma hvma (hread.static vma hvma hwritable) v hv hpage
  rw [lookup_eq_leafPte, he, Option.map_some, VmArea.target] at hlook
  exact ⟨hread.marked vma hvma hwritable v hv hpage e he, Option.some.inj hlook⟩

/-- The first word of the text of the program that `user_test` starts. -/
theorem sampleText_readOnly : ∃ s mm vma e,
    runFrom (step sampleHeap sampleImage sampleUser) sampleBoot [.userTest 0] = some s ∧
      (s.tasks 0).mm = some mm ∧ vma ∈ mm.mmap ∧
      leafPte true s.vm.mem (physical true (s.tasks 0).pgDir) vmaUser = some e ∧
      e &&& pteRdonly ≠ 0 ∧ getPhyAddr e = vma.lma + (pageAddr vmaUser - vma.vmStart) := by
  have hend : ((runFrom (step sampleHeap sampleImage sampleUser) sampleBoot [.userTest 0]).bind fun s =>
      (s.tasks 0).mm.bind fun mm => (findVma mm.mmap vmaUser).bind fun vma =>
        (leafPte true s.vm.mem (physical true (s.tasks 0).pgDir) vmaUser).map fun e =>
          (s, mm, vma, e)).map (fun r => (decide (UserRuns r.1 0), r.2.2.1.vmFlags &&& vmWrite)) =
      some (true, 0) := by decide +kernel
  obtain ⟨⟨s, mm, vma, e⟩, hbind, hflags⟩ := Option.map_eq_some_iff.1 hend
  obtain ⟨s₁, hrun, hbind⟩ := Option.bind_eq_some_iff.1 hbind
  obtain ⟨mm₁, hmm, hbind⟩ := Option.bind_eq_some_iff.1 hbind
  obtain ⟨vma₁, hfind, hbind⟩ := Option.bind_eq_some_iff.1 hbind
  obtain ⟨e₁, he, hsome⟩ := Option.map_eq_some_iff.1 hbind
  cases hsome
  simp only [Prod.mk.injEq, decide_eq_true_eq] at hflags
  obtain ⟨hvma, hcov⟩ := findVma_mem hfind
  exact ⟨s, mm, vma, e, hrun, hmm, hvma, he,
    reachable_readOnly ⟨sampleBoot, _, sampleBoot_boot, hrun⟩ hflags.1 hmm hvma hflags.2
      hcov he⟩

end Kernel
end ToutOS
