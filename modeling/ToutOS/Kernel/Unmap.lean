import ToutOS.Kernel.Brk

/-!
# Unmap — `unmap_user_page_mapping` on any table

A user page table is built by calls of `setup_user_page_mapping` and `unmap_user_page_mapping`, in any
order, from a directory that `get_zeroed_pages` has returned.  What a call of
`unmap_user_page_mapping` touches is kept as a trace.

* `unmapTrace` — the entries followed as tables, the pointers given to `free_pages` and the words
  written for one page; `unmapLoopTraced_replay` says that the call does what its trace tells.
* `Built` — the tables that can come about; the pages mapped are the caller's to give.
* `Built.tableOk` — no table is shared, and tables and mapped pages are pages in use.
* `unmap_unmapsRange_iff` — when a call touches its range and nothing else: the upper entries are
  taken for tables without a look whether they are empty.
-/

namespace ToutOS
namespace Kernel

open Base Mm

variable {κ : Type}

/-! ## Traces -/

/-- What a call of `unmap_user_page_mapping` touches. -/
structure UnmapTrace where
  /-- The entries of the upper levels that are followed. -/
  followed : List Nat
  /-- The pointers given to `free_pages`. -/
  freed : List Nat
  /-- The addresses of the words written. -/
  written : List Nat
  deriving DecidableEq, Repr

def UnmapTrace.append (t t' : UnmapTrace) : UnmapTrace where
  followed := t.followed ++ t'.followed
  freed := t.freed ++ t'.freed
  written := t.written ++ t'.written

/-- What `unmap_one_user_page` touches. -/
def unmapTrace (m : Mem) (pgDir virtAddr : Nat) : UnmapTrace :=
  let entry := load m (entryAddr pgDir (getPgEntryIndex virtAddr 30)) 8
  let table := linear true (getPhyAddr entry)
  let entry' := load m (entryAddr table (getPgEntryIndex virtAddr 21)) 8
  let last := lastEntry m pgDir virtAddr
  let descriptor := load m last 8
  { followed := [entry, entry']
    freed := if descriptor ≠ 0 then [va (getPhyAddr descriptor)] else []
    written := [last] }

/-- The loop of `unmap_user_page_mapping`, with its trace. -/
def unmapLoopTraced (pgDir : Nat) : Nat → Nat → VmState κ → Except Halt (VmState κ × UnmapTrace)
  | 0, _, vm => .ok (vm, ⟨[], [], []⟩)
  | n + 1, addr, vm =>
      (unmapOneUserPage pgDir addr vm).bind fun vm' =>
        (unmapLoopTraced pgDir n (addr + pageSize) vm').map fun r =>
          (r.1, (unmapTrace vm.mem pgDir addr).append r.2)

/-- `unmap_user_page_mapping`, with its trace. -/
def unmapUserPageMappingTraced (pgDir virtAddr size : Nat) (vm : VmState κ) :
    Except Halt (VmState κ × UnmapTrace) :=
  if pgDir = 0 then .ok (vm, ⟨[], [], []⟩)
  else if virtAddr = 0 ∨ size % pageSize ≠ 0 then .ok (vm, ⟨[], [], []⟩)
  else unmapLoopTraced pgDir (size / pageSize) virtAddr vm

theorem unmapLoopTraced_erase (pgDir : Nat) :
    ∀ (n addr : Nat) (vm : VmState κ),
      (unmapLoopTraced pgDir n addr vm).map Prod.fst = unmapLoop pgDir n addr vm := by
  intro n
  induction n with
  | zero =>
      intro addr vm
      rfl
  | succ n ih =>
      intro addr vm
      rw [unmapLoopTraced, unmapLoop]
      cases hone : unmapOneUserPage pgDir addr vm with
      | error e => rfl
      | ok vm₁ =>
          rw [except_bind_ok, except_bind_ok, ← ih (addr + pageSize) vm₁]
          cases unmapLoopTraced pgDir n (addr + pageSize) vm₁ <;> rfl

/-- The trace belongs to a call of `unmap_user_page_mapping`. -/
theorem unmapUserPageMappingTraced_erase (pgDir virtAddr size : Nat) (vm : VmState κ) :
    (unmapUserPageMappingTraced pgDir virtAddr size vm).map Prod.fst =
      unmapUserPageMapping pgDir virtAddr size vm := by
  rw [unmapUserPageMappingTraced, unmapUserPageMapping]
  split_ifs
  · rfl
  · rfl
  · exact unmapLoopTraced_erase pgDir _ _ vm

/-- The words of the trace are set to zero and its pointers are given to `free_pages`, in order. -/
def UnmapTrace.Replays (t : UnmapTrace) (vm vm' : VmState κ) : Prop :=
  vm'.heap = vm.heap ∧ vm'.mem = t.written.foldl (fun m entry => store m entry 8 0) vm.mem ∧
    t.freed.foldlM (fun usage p => freePages usage p 0) vm.pagesUsage = .ok vm'.pagesUsage

theorem unmapTrace_written (m : Mem) (pgDir addr : Nat) :
    (unmapTrace m pgDir addr).written = [lastEntry m pgDir addr] := rfl

theorem unmapTrace_freed (m : Mem) (pgDir addr : Nat) :
    (unmapTrace m pgDir addr).freed =
      if load m (lastEntry m pgDir addr) 8 ≠ 0 then
        [va (getPhyAddr (load m (lastEntry m pgDir addr) 8))] else [] := by
  simp only [unmapTrace]

theorem unmapOneUserPage_replay {pgDir addr : Nat} {vm vm' : VmState κ}
    (h : unmapOneUserPage pgDir addr vm = .ok vm') : (unmapTrace vm.mem pgDir addr).Replays vm vm' := by
  rw [unmapOneUserPage_eq, except_map_eq_ok] at h
  obtain ⟨usage, hfree, rfl⟩ := h
  refine ⟨rfl, ?_, ?_⟩
  · rw [unmapTrace_written, List.foldl_cons, List.foldl_nil]
  · rw [unmapTrace_freed]
    split_ifs at hfree ⊢
    · rw [List.foldlM_cons, hfree]
      rfl
    · exact hfree

/-- A call does what its trace tells. -/
theorem unmapLoopTraced_replay {pgDir : Nat} :
    ∀ {n addr : Nat} {vm vm' : VmState κ} {t : UnmapTrace},
      unmapLoopTraced pgDir n addr vm = .ok (vm', t) → t.Replays vm vm' := by
  intro n
  induction n with
  | zero =>
      intro addr vm vm' t h
      simp only [unmapLoopTraced, Except.ok.injEq, Prod.mk.injEq] at h
      obtain ⟨rfl, rfl⟩ := h
      exact ⟨rfl, rfl, rfl⟩
  | succ n ih =>
      intro addr vm vm' t h
      rw [unmapLoopTraced, except_bind_eq_ok] at h
      obtain ⟨vm₁, hone, h⟩ := h
      obtain ⟨⟨vm₂, t₂⟩, hrest, heq⟩ := except_map_eq_ok.1 h
      obtain ⟨rfl, rfl⟩ := Prod.mk.inj heq
      obtain ⟨hheap, hmem, hfree⟩ := unmapOneUserPage_replay hone
      obtain ⟨hheap', hmem', hfree'⟩ := ih hrest
      refine ⟨hheap'.trans hheap, ?_, ?_⟩
      · rw [UnmapTrace.append, List.foldl_append, ← hmem, hmem']
      · rw [UnmapTrace.append, List.foldlM_append, hfree]
        exact hfree'

/-! ## Tables built by any sequence of calls -/

/-- The entries of the two upper levels on the way to the page of `addr` are filled. -/
def HasTables (m : Mem) (pgDir addr : Nat) : Prop :=
  descend (ptSlot true m) (physical true pgDir)
    [getPgEntryIndex addr 30, getPgEntryIndex addr 21] ≠ none

instance (m : Mem) (pgDir addr : Nat) : Decidable (HasTables m pgDir addr) :=
  inferInstanceAs (Decidable (_ ≠ none))

/-- The arguments of `setup_user_page_mapping`: whole pages of user space, and pages to map that lie
outside of the pool, or have been taken from it and are neither tables nor mapped so far. -/
structure MapArgs (pgDir virtAddr phyAddr size : Nat) (vm : VmState κ) : Prop where
  virt_dvd : pageSize ∣ virtAddr
  virt_le : virtAddr + pageSize * numPages size ≤ 2 ^ 39
  phy_dvd : pageSize ∣ phyAddr
  phy_le : phyAddr + pageSize * numPages size ≤ 2 ^ 48
  given : ∀ j < numPages size, ¬Mapped true vm.mem pgDir (virtAddr + pageSize * j) →
    InPool (phyAddr + pageSize * j) → UsedFrame vm.pagesUsage (phyAddr + pageSize * j) ∧
      phyAddr + pageSize * j ∉ tableFrames vm.mem (physical true pgDir) ∧
      ∀ v, lookup true vm.mem (physical true pgDir) v ≠ some (phyAddr + pageSize * j)

/-- The states in which the table with the directory `pgDir` can come about. -/
inductive Built (pgDir : Nat) : VmState κ → Prop
  /-- The directory is taken from the pool. -/
  | directory {vm : VmState κ} {mem : Mem} {usage : PagesUsage} :
      getZeroedPages 0 vm.mem vm.pagesUsage = (pgDir, mem, usage) → pgDir ≠ 0 →
      Built pgDir { vm with mem := mem, pagesUsage := usage }
  | map {vm vm' : VmState κ} {virtAddr phyAddr size : Nat} {rdonly : Bool} : Built pgDir vm →
      phyAddr = noLma ∨ MapArgs pgDir virtAddr phyAddr size vm →
      setupUserPageMapping pgDir virtAddr phyAddr size rdonly vm = .ok vm' → Built pgDir vm'
  /-- A call that runs into a missing table goes on in page 0; what is there has to be zero then. -/
  | unmap {vm vm' : VmState κ} {virtAddr size : Nat} : Built pgDir vm → virtAddr + size ≤ 2 ^ 39 →
      ZeroPage vm.mem ∨ (∀ j < size / pageSize, HasTables vm.mem pgDir (virtAddr + pageSize * j)) →
      unmapUserPageMapping pgDir virtAddr size vm = .ok vm' → Built pgDir vm'
  /-- The rest of the kernel and the user programs leave the tables and the mapped pages in use. -/
  | elsewhere {vm vm' : VmState κ} : Built pgDir vm →
      SameTables vm.mem vm'.mem (physical true pgDir) →
      (∀ a, UsedFrame vm.pagesUsage a → a ∈ tableFrames vm.mem (physical true pgDir) ∨
        (∃ v, lookup true vm.mem (physical true pgDir) v = some a) → UsedFrame vm'.pagesUsage a) →
      Built pgDir vm'

/-- What holds of every such table. -/
structure TableOk (m : Mem) (usage : PagesUsage) (d : Nat) : Prop where
  tables : PtWf true m d (tableFrames m d)
  tables_used : tableFrames m d ⊆ usedFrames usage
  mapped_used : ∀ v a, lookup true m d v = some a → InPool a → UsedFrame usage a
  mapped_apart : ∀ v a, lookup true m d v = some a → a ∉ tableFrames m d
  mapped_inj : ∀ v v' a, lookup true m d v = some a → lookup true m d v' = some a → InPool a →
    pathOf v = pathOf v'

section Table

variable {d : Nat} {vm vm' : VmState κ}

theorem TableOk.root (h : TableOk vm.mem vm.pagesUsage d) : InPool d ∧ IsPage d :=
  have hroot := h.tables_used (root_mem_tableFrames vm.mem d)
  ⟨UsedFrame.inPool hroot, UsedFrame.page hroot⟩

theorem TableOk.linear_ne_zero (h : TableOk vm.mem vm.pagesUsage d) : linear true d ≠ 0 := by
  have := ne_zero_of_inPool h.root.1
  simpa only [linear, if_true] using this

theorem TableOk.physical_linear (h : TableOk vm.mem vm.pagesUsage d) :
    physical true (linear true d) = d := Mm.physical_linear true h.root.2.2

/-- A directory without entries. -/
theorem tableOk_directory {k : Nat} {m : Mem} {usage : PagesUsage} (hk : k < maxNumPages)
    (husage : usage k = true) (hzero : ∀ x, InPage true (frame k) x → m x = 0) :
    TableOk m usage (frame k) := by
  have hpages : Pages {frame k} := by
    rintro n rfl
    exact isPage_frame hk
  obtain ⟨hwf, hnone⟩ := ptWf_empty (Set.mem_singleton (frame k)) hpages hzero
  refine ⟨ptWf_self hwf, ?_, ?_, ?_, ?_⟩
  · intro n hn
    obtain rfl := tableFrames_subset hwf hn
    exact ⟨k, hk, husage, rfl⟩
  · intro v a ha
    rw [hnone] at ha
    cases ha
  · intro v a ha
    rw [hnone] at ha
    cases ha
  · intro v v' a ha
    rw [hnone] at ha
    cases ha

/-- What is mapped after a call of `setup_user_page_mapping`. -/
theorem TableOk.map (h : TableOk vm.mem vm.pagesUsage d) {virtAddr phyAddr size : Nat} {rdonly : Bool}
    (hargs : MapArgs (linear true d) virtAddr phyAddr size vm) (hlma : phyAddr ≠ noLma)
    (hrun : setupUserPageMapping (linear true d) virtAddr phyAddr size rdonly vm = .ok vm') :
    TableOk vm'.mem vm'.pagesUsage d := by
  have hgiven := hargs.given
  simp only [Mapped, h.physical_linear, ne_eq, not_not] at hgiven
  rcases @setupUserPageMapping_spec κ d virtAddr phyAddr size rdonly vm _ h.linear_ne_zero hlma
    hargs.phy_dvd hargs.virt_dvd hargs.phy_le hargs.virt_le h.tables h.tables_used with
    herr | ⟨vm'', T', hok, -, hwf, hgrow, hlook⟩
  · rw [herr] at hrun
    cases hrun
  obtain rfl : vm'' = vm' := Except.ok.inj (hok.symm.trans hrun)
  -- a page that is mapped now was mapped before, or it is page `j` of the range
  have hmapped : ∀ v a, lookup true vm''.mem d v = some a → lookup true vm.mem d v = some a ∨
      ∃ j < numPages size, lookup true vm.mem d (virtAddr + pageSize * j) = none ∧
        a = phyAddr + pageSize * j ∧ pathOf v = pathOf (virtAddr + pageSize * j) := by
    intro v a ha
    rw [← lookup_mod] at ha
    rw [← lookup_mod vm.mem]
    obtain ⟨hkeep, hnew, hother⟩ := hlook _ (mod_window_lt v)
    cases hold : lookup true vm.mem d (v % 2 ^ 39) with
    | some b =>
        rw [hkeep b hold] at ha
        exact Or.inl ha
    | none =>
        refine Or.inr ?_
        by_cases hin : virtAddr ≤ pageAddr (v % 2 ^ 39) ∧
            pageAddr (v % 2 ^ 39) < virtAddr + pageSize * numPages size
        · rw [hnew hin.1 hin.2 hold, Option.some.injEq] at ha
          obtain ⟨j, hj⟩ : ∃ j, pageAddr (v % 2 ^ 39) = virtAddr + pageSize * j := by
            have := hargs.virt_dvd
            refine ⟨(pageAddr (v % 2 ^ 39) - virtAddr) / pageSize, ?_⟩
            simp only [pageAddr, pageSize] at *
            omega
          have hpath : pathOf v = pathOf (virtAddr + pageSize * j) := by
            rw [pathOf_eq_iff, ← hj]
            simp only [pageAddr, pageSize]
            omega
          refine ⟨j, ?_, ?_, ?_, hpath⟩
          · rw [hj] at hin
            simp only [pageSize] at hin
            omega
          · rw [← lookup_congr hpath, ← lookup_mod, hold]
          · rw [← ha, hj, Nat.add_sub_cancel_left]
        · rw [hother hin, hold] at ha
          cases ha
  have hsub := tableFrames_subset hwf
  -- a table was one before, or it was not in use
  have htable : ∀ a ∈ tableFrames vm''.mem d, a ∈ tableFrames vm.mem d ∨
      ¬UsedFrame vm.pagesUsage a := fun a ha => hgrow.new a (hsub ha)
  refine ⟨ptWf_self hwf, fun a ha => hgrow.tables_given (hsub ha), ?_, ?_, ?_⟩
  · intro v a ha hpool
    refine hgrow.given_subset ?_
    rcases hmapped v a ha with hold | ⟨j, hj, hnone, rfl, -⟩
    · exact h.mapped_used v a hold hpool
    · exact (hgiven j hj hnone hpool).1
  · intro v a ha hin
    have hpool := UsedFrame.inPool (hgrow.tables_given (hsub hin))
    rcases hmapped v a ha with hold | ⟨j, hj, hnone, rfl, -⟩
    · rcases htable a hin with hin | hunused
      · exact h.mapped_apart v a hold hin
      · exact hunused (h.mapped_used v a hold hpool)
    · obtain ⟨hused, hnot, -⟩ := hgiven j hj hnone hpool
      rcases htable _ hin with hin | hunused
      · exact hnot hin
      · exact hunused hused
  · intro v v' a ha ha' hpool
    rcases hmapped v a ha with hold | ⟨j, hj, hnone, rfl, hpath⟩
    · rcases hmapped v' a ha' with hold' | ⟨j', hj', hnone', rfl, -⟩
      · exact h.mapped_inj v v' a hold hold' hpool
      · exact absurd hold ((hgiven j' hj' hnone' hpool).2.2 v)
    · rcases hmapped v' _ ha' with hold' | ⟨j', hj', -, heq, hpath'⟩
      · exact absurd hold' ((hgiven j hj hnone hpool).2.2 v')
      · obtain rfl : j = j' := by
          simp only [pageSize] at heq
          omega
        rw [hpath, hpath']

/-- A page that was not one of the range is in use as before. -/
theorem Unmapped.stays {addr n a : Nat} (hu : Unmapped d addr n vm vm') (ha : UsedFrame vm.pagesUsage a)
    (hnot : ∀ j < n, lookup true vm.mem d (addr + pageSize * j) ≠ some a) :
    UsedFrame vm'.pagesUsage a := by
  obtain ⟨l, husage, hl⟩ := hu.usage
  have hout : a ∉ l := fun hin => by
    obtain ⟨j, hj, hlook⟩ := (hl a).1 hin
    exact hnot j hj hlook
  rw [husage]
  exact usedFrame_of_not_freeFrame (UsedFrame.inPool ha) (UsedFrame.page ha).1
    (not_freeFrame_freed (not_freeFrame_of_usedFrame ha) hout)

/-- A page that has been freed was mapped, and so is not a table. -/
theorem TableOk.unmapped (h : TableOk vm.mem vm.pagesUsage d) {addr n : Nat}
    (hu : Unmapped d addr n vm vm') : TableOk vm'.mem vm'.pagesUsage d := by
  refine ⟨hu.tables, ?_, ?_, ?_, ?_⟩
  · intro t ht
    rw [hu.tables_eq] at ht
    exact hu.stays (h.tables_used ht) fun j _ hj => h.mapped_apart _ t hj ht
  · intro v a ha hpool
    obtain ⟨hold, hout⟩ := hu.old ha
    exact hu.stays (h.mapped_used v a hold hpool) fun j hj hj' =>
      hout j hj (h.mapped_inj v _ a hold hj' hpool)
  · intro v a ha
    rw [hu.tables_eq]
    exact h.mapped_apart v a (hu.old ha).1
  · intro v v' a ha ha'
    exact h.mapped_inj v v' a (hu.old ha).1 (hu.old ha').1

theorem TableOk.elsewhere (h : TableOk vm.mem vm.pagesUsage d) (hsame : SameTables vm.mem vm'.mem d)
    (hused : ∀ a, UsedFrame vm.pagesUsage a → a ∈ tableFrames vm.mem d ∨
      (∃ v, lookup true vm.mem d v = some a) → UsedFrame vm'.pagesUsage a) :
    TableOk vm'.mem vm'.pagesUsage d := by
  have htables := tableFrames_frame h.tables hsame
  have hlook := lookup_frame h.tables hsame
  refine ⟨ptWf_self (ptWf_frame h.tables hsame), ?_, ?_, ?_, ?_⟩
  · intro t ht
    rw [htables] at ht
    exact hused t (h.tables_used ht) (Or.inl ht)
  · intro v a ha hpool
    rw [hlook] at ha
    exact hused a (h.mapped_used v a ha hpool) (Or.inr ⟨v, ha⟩)
  · intro v a ha
    rw [hlook] at ha
    rw [htables]
    exact h.mapped_apart v a ha
  · intro v v' a ha ha'
    rw [hlook] at ha ha'
    exact h.mapped_inj v v' a ha ha'

/-- The entries of the upper levels are the same in both states. -/
def SameUpper (m m' : Mem) (d : Nat) : Prop := ∀ ρ : List (Fin 512), ρ.length < 3 →
  descend (ptSlot true m') d ρ = descend (ptSlot true m) d ρ

theorem hasTables_congr {m m' : Mem} {pgDir addr : Nat} (h : SameUpper m m' (physical true pgDir)) :
    HasTables m' pgDir addr ↔ HasTables m pgDir addr := by
  rw [HasTables, h _ (by simp), HasTables]

/-- One page. -/
theorem TableOk.unmapOne (h : TableOk vm.mem vm.pagesUsage d) {addr : Nat}
    (hway : ZeroPage vm.mem ∨ HasTables vm.mem (linear true d) addr) :
    ∃ vm', unmapOneUserPage (linear true d) addr vm = .ok vm' ∧ Unmapped d addr 1 vm vm' ∧
      SameUpper vm.mem vm'.mem d := by
  rw [HasTables, h.physical_linear] at hway
  cases hdesc : descend (ptSlot true vm.mem) d [getPgEntryIndex addr 30, getPgEntryIndex addr 21] with
  | none =>
      have hzero := hway.resolve_right fun hno => hno hdesc
      have hlook := lookup_of_no_table hdesc
      exact ⟨vm, unmapOneUserPage_of_zero (load_lastEntry_none hzero hlook),
        Unmapped.of_none h.tables hlook, fun _ _ => rfl⟩
  | some t =>
      obtain ⟨vm', hrun, hu, hmem⟩ := unmapOneUserPage_leaf h.tables hdesc fun a ha =>
        freePages_mapped (physOk_of_lookup ha) fun hpool =>
          not_freeFrame_of_usedFrame (h.mapped_used addr a ha hpool)
      refine ⟨vm', hrun, hu, fun ρ hρ => ?_⟩
      rw [hmem]
      exact storeLeaf_short h.tables hdesc rfl (by decide) hρ

theorem page_succ (addr j : Nat) : addr + pageSize + pageSize * j = addr + pageSize * (j + 1) := by
  rw [Nat.mul_add]
  omega

/-- The pages of a range; a missing table does no harm if page 0 reads as zero. -/
theorem TableOk.unmapLoop :
    ∀ {n addr : Nat} {vm : VmState κ}, n ≤ 2 ^ 27 → TableOk vm.mem vm.pagesUsage d →
      ZeroPage vm.mem ∨ (∀ j < n, HasTables vm.mem (linear true d) (addr + pageSize * j)) →
      ∃ vm', Kernel.unmapLoop (linear true d) n addr vm = .ok vm' ∧ Unmapped d addr n vm vm' := by
  intro n
  induction n with
  | zero =>
      intro addr vm _ h _
      exact ⟨vm, rfl, Unmapped.zero h.tables⟩
  | succ n ih =>
      intro addr vm hn h hway
      have hfirst : ZeroPage vm.mem ∨ HasTables vm.mem (linear true d) addr :=
        hway.imp_right fun hall => by simpa using hall 0 (by omega)
      obtain ⟨vm₁, hrun₁, hu₁, hupper⟩ := h.unmapOne hfirst
      have hnext : ZeroPage vm₁.mem ∨
          ∀ j < n, HasTables vm₁.mem (linear true d) (addr + pageSize + pageSize * j) := by
        refine hway.imp (fun hzero => ?_) fun hall j hj => ?_
        · exact zeroPage_frame hzero h.tables (fun t ht => UsedFrame.inPool (h.tables_used ht)) hu₁.frame
        · rw [hasTables_congr (by rw [h.physical_linear]; exact hupper), page_succ]
          exact hall (j + 1) (by omega)
      obtain ⟨vm', hrun, hu⟩ := @ih (addr + pageSize) vm₁ (by omega) (h.unmapped hu₁) hnext
      exact ⟨vm', by rw [Kernel.unmapLoop, hrun₁, except_bind_ok, hrun], hu₁.cons (by omega) hu⟩

/-- The invariant of a call that returns. -/
theorem TableOk.unmap (h : TableOk vm.mem vm.pagesUsage d) {virtAddr size : Nat}
    (hle : virtAddr + size ≤ 2 ^ 39)
    (hway : ZeroPage vm.mem ∨
      ∀ j < size / pageSize, HasTables vm.mem (linear true d) (virtAddr + pageSize * j))
    (hrun : unmapUserPageMapping (linear true d) virtAddr size vm = .ok vm') :
    TableOk vm'.mem vm'.pagesUsage d := by
  rw [unmapUserPageMapping, if_neg h.linear_ne_zero] at hrun
  split_ifs at hrun with hargs
  · cases hrun
    exact h
  · obtain ⟨vm'', hok, hu⟩ := TableOk.unmapLoop (by simp only [pageSize]; omega) h hway
    rw [hok] at hrun
    cases hrun
    exact h.unmapped hu

end Table

/-- Every table that can come about is in order. -/
theorem Built.tableOk {pgDir : Nat} {vm : VmState κ} (h : Built pgDir vm) :
    linear true (physical true pgDir) = pgDir ∧
      TableOk vm.mem vm.pagesUsage (physical true pgDir) := by
  induction h with
  | directory hcall hne =>
      rcases getZeroedPages_one hcall with ⟨hzero, -⟩ | ⟨k, hk, hlt, -, rfl, rfl⟩
      · exact absurd hzero hne
      · have hphys : physical true pgDir = frame k := by rw [hk, physical_pagePool hlt]
        have hlin : linear true (frame k) = pgDir := by rw [linear_frame hlt, hk]
        rw [hphys]
        refine ⟨hlin, tableOk_directory hlt (by simp [markPages]) fun x hx => ?_⟩
        simp only [InPage, hlin] at hx
        exact fill_apply_of_mem hx.1 hx.2
  | @map vm vm' virtAddr phyAddr size rdonly _ hargs hrun ih =>
      obtain ⟨hlin, ih⟩ := ih
      refine ⟨hlin, ?_⟩
      by_cases hlma : phyAddr = noLma
      · rw [← hlin, setupUserPageMapping, if_neg ih.linear_ne_zero, if_pos hlma] at hrun
        cases hrun
        exact ih
      · refine ih.map ?_ hlma (by rw [hlin]; exact hrun)
        rw [hlin]
        exact hargs.resolve_left hlma
  | unmap _ hle hway hrun ih =>
      obtain ⟨hlin, ih⟩ := ih
      exact ⟨hlin, ih.unmap hle (by rw [hlin]; exact hway) (by rw [hlin]; exact hrun)⟩
  | elsewhere _ hsame hused ih =>
      exact ⟨ih.1, ih.2.elsewhere hsame hused⟩

/-- The page that an exception has taken from the pool is its to give. -/
theorem Built.takePage {pgDir page addr : Nat} {vm : VmState κ} {usage : PagesUsage}
    (h : Built pgDir vm) (hcall : getFreePages vm.pagesUsage 0 = (page, usage)) (hne : page ≠ 0)
    (haddr : addr < 2 ^ 39) :
    Built pgDir { vm with pagesUsage := usage } ∧
      MapArgs pgDir (pageAddr addr) (pa page) pageSize { vm with pagesUsage := usage } := by
  obtain ⟨k, hk, hlt, hfree, rfl⟩ := getFreePages_one hcall hne
  obtain ⟨-, hok⟩ := h.tableOk
  have hused : ∀ a, UsedFrame (markPages vm.pagesUsage k 1 true) a ↔
      UsedFrame vm.pagesUsage a ∨ ∃ l, k ≤ l ∧ l < k + 1 ∧ a = frame l := fun a =>
    usedFrame_markPages (by omega)
  have hfresh : ¬UsedFrame vm.pagesUsage (frame k) := fun hno =>
    not_freeFrame_of_usedFrame hno ⟨k, hlt, hfree, rfl⟩
  have hpa : pa page = frame k := by rw [hk, pa_pagePool hlt]
  have hone : numPages pageSize = 1 := by decide
  refine ⟨h.elsewhere (fun _ _ _ _ => rfl) fun a ha _ => (hused a).2 (Or.inl ha), ?_⟩
  rw [hpa]
  refine ⟨?_, ?_, (physOk_frame hlt).1, ?_, ?_⟩
  · simp only [pageAddr]
    exact Nat.dvd_mul_left _ _
  · simp only [hone, pageAddr, pageSize] at *
    omega
  · have := physOk_frame hlt
    simp only [hone, PhysOk, pageSize] at *
    omega
  · intro j hj _ hpool
    obtain rfl : j = 0 := by omega
    rw [Nat.mul_zero, Nat.add_zero] at hpool ⊢
    refine ⟨(hused _).2 (Or.inr ⟨k, Nat.le_refl k, by omega, rfl⟩), ?_, ?_⟩
    · intro hin
      exact hfresh (hok.tables_used hin)
    · intro v hv
      exact hfresh (hok.mapped_used v _ hv hpool)

/-- An exception builds on the table. -/
theorem Built.handleFault {H : KernelHeap κ} {pgDir addr : Nat} {mm mm' : MmStruct}
    {vm vm' : VmState κ} (h : Built pgDir vm) (haddr : addr < 2 ^ 39)
    (hrun : Kernel.handleFault H pgDir addr mm vm = .ok (mm', vm')) : Built pgDir vm' := by
  rcases hcall : getFreePages vm.pagesUsage 0 with ⟨page, usage⟩
  simp only [Kernel.handleFault, hcall] at hrun
  split_ifs at hrun with hpage
  · cases hrun
    exact h
  · obtain ⟨hbuilt, hargs⟩ := h.takePage hcall hpage haddr
    obtain ⟨vm₁, hmap, heq⟩ := except_map_eq_ok.1 hrun
    obtain ⟨-, rfl⟩ := Prod.mk.inj heq
    exact (hbuilt.map (Or.inr hargs) hmap).elsewhere (fun _ _ _ _ => rfl) fun _ ha _ => ha

/-- `sys_brk` builds on the table. -/
theorem Built.sysBrk {H : KernelHeap κ} {pgDir addr : Nat} {mm mm' : MmStruct}
    {vm vm' : VmState κ} (h : Built pgDir vm) (hzero : ZeroPage vm.mem) (hbrk : mm.brk ≤ maxBrkAddr)
    (hrun : Kernel.sysBrk H pgDir addr mm vm = .ok (mm', vm')) : Built pgDir vm' := by
  -- the end of `sys_brk` changes neither tables nor pages
  have hout : ∀ (mm : MmStruct) {vm : VmState κ}, Built pgDir vm →
      (Except.ok (brkOut H mm vm) : Except Halt _) = .ok (mm', vm') → Built pgDir vm' := by
    intro mm vm hb heq
    obtain rfl : (brkOut H mm vm).2 = vm' := by rw [Except.ok.inj heq]
    rw [brkOut]
    split
    · exact hb.elsewhere (fun _ _ _ _ => rfl) fun _ ha _ => ha
    · exact hb
  rw [Kernel.sysBrk] at hrun
  by_cases hargs : addr = 0 ∨ addr < mm.startBrk ∨ maxBrkAddr < addr
  · rw [if_pos hargs] at hrun
    exact hout mm h hrun
  rw [if_neg hargs] at hrun
  by_cases hlt : upperPageAddr addr < upperPageAddr mm.brk
  · simp only [if_pos hlt] at hrun
    obtain ⟨vm₁, hunmap, hrest⟩ := except_bind_eq_ok.1 hrun
    by_cases hvma : findVma mm.mmap mm.startBrk = none
    · rw [if_pos hvma] at hrest
      cases hrest
    · rw [if_neg hvma] at hrest
      refine hout _ (h.unmap ?_ (Or.inl hzero) hunmap) hrest
      simp only [upperPageAddr, add64, pageSize, maxBrkAddr] at *
      omega
  · simp only [if_neg hlt] at hrun
    exact hout _ h hrun

/-! ## What a call touches -/

/-- `entry` is the address of an entry of a table of the last level. -/
def IsLeafEntry (m : Mem) (pgDir entry : Nat) : Prop :=
  ∃ (i j k : Fin 512) (t : Nat), descend (ptSlot true m) (physical true pgDir) [i, j] = some t ∧
    entry = entryAddr (linear true t) k

/-- The pointers to the pages that are mapped in a range, in order. -/
def mappedPages (m : Mem) (d addr n : Nat) : List Nat :=
  (List.range n).filterMap fun j => (lookup true m d (addr + pageSize * j)).map va

/-- The `n` pages from `addr` on, and nothing else, have been unmapped. -/
structure UnmapsRange (pgDir addr n : Nat) (vm vm' : VmState κ) (t : UnmapTrace) : Prop where
  gone : ∀ v, addr ≤ v → v < addr + pageSize * n → ¬Mapped true vm'.mem pgDir v
  other : ∀ v, v < 2 ^ 39 → ¬(addr ≤ v ∧ v < addr + pageSize * n) → Mapped true vm.mem pgDir v →
    Mapped true vm'.mem pgDir v ∧
      walkVirtAddr true vm'.mem pgDir v = walkVirtAddr true vm.mem pgDir v
  /-- Every page that was mapped is freed once, and no other one is. -/
  freed : t.freed = mappedPages vm.mem (physical true pgDir) addr n
  /-- Every word written is an entry of the last level. -/
  written : ∀ entry ∈ t.written, IsLeafEntry vm.mem pgDir entry
  frame : ∀ x, (∀ entry ∈ t.written, ¬(entry ≤ x ∧ x < entry + 8)) → vm'.mem x = vm.mem x
  /-- No empty entry is taken for a table. -/
  followed : ∀ entry ∈ t.followed, entry ≠ 0

section Trace

variable {d : Nat} {vm vm' : VmState κ} {t : UnmapTrace}

/-- The entries followed for a page are filled when it has its tables. -/
theorem unmapTrace_followed (h : TableOk vm.mem vm.pagesUsage d) (addr : Nat) :
    (∀ entry ∈ (unmapTrace vm.mem (linear true d) addr).followed, entry ≠ 0) ↔
      HasTables vm.mem (linear true d) addr := by
  simp only [unmapTrace, List.mem_cons, List.not_mem_nil, or_false, forall_eq_or_imp, forall_eq,
    HasTables, h.physical_linear, descend]
  rw [ne_eq, load_of_ptSlot]
  rcases hslot : ptSlot true vm.mem d (getPgEntryIndex addr 30) with _ | n
  · simp
  · have hnext := walk_level vm.mem d (getPgEntryIndex addr 30)
    rw [hslot, Option.getD_some] at hnext
    rw [hnext, ne_eq, load_of_ptSlot]
    rcases hslot' : ptSlot true vm.mem n (getPgEntryIndex addr 21) with _ | n' <;> simp [hslot']

theorem unmapTrace_freed_eq (h : TableOk vm.mem vm.pagesUsage d) {addr : Nat}
    (hway : HasTables vm.mem (linear true d) addr) :
    (unmapTrace vm.mem (linear true d) addr).freed =
      ((lookup true vm.mem d addr).map va).toList := by
  rw [HasTables, h.physical_linear] at hway
  obtain ⟨n, hn⟩ := Option.ne_none_iff_exists'.1 hway
  obtain ⟨hentry, hleaf⟩ := lastEntry_of_table hn
  rw [unmapTrace_freed, hentry, hleaf]
  by_cases hload : load vm.mem (entryAddr (linear true n) (getPgEntryIndex addr 12)) 8 = 0
  · rw [if_neg (not_not.2 hload), load_of_ptSlot.1 hload]
    rfl
  · have hslot : ptSlot true vm.mem n (getPgEntryIndex addr 12) =
        some (getPhyAddr (load vm.mem (entryAddr (linear true n) (getPgEntryIndex addr 12)) 8)) := by
      simp only [ptSlot, if_neg hload]
    rw [if_pos hload, hslot]
    rfl

theorem unmapTrace_isLeafEntry (h : TableOk vm.mem vm.pagesUsage d) {addr : Nat}
    (hway : HasTables vm.mem (linear true d) addr) {entry : Nat}
    (hentry : entry ∈ (unmapTrace vm.mem (linear true d) addr).written) :
    IsLeafEntry vm.mem (linear true d) entry := by
  rw [HasTables, h.physical_linear] at hway
  obtain ⟨n, hn⟩ := Option.ne_none_iff_exists'.1 hway
  rw [unmapTrace_written, List.mem_singleton, (lastEntry_of_table hn).1] at hentry
  exact ⟨_, _, _, n, by rw [h.physical_linear]; exact hn, hentry⟩

theorem mappedPages_succ (m : Mem) (d addr n : Nat) :
    mappedPages m d addr (n + 1) =
      ((lookup true m d addr).map va).toList ++ mappedPages m d (addr + pageSize) n := by
  rw [mappedPages, List.range_succ_eq_map, List.filterMap_cons, List.filterMap_map, mappedPages]
  simp only [Nat.mul_zero, Nat.add_zero, page_succ, Function.comp_def, Nat.succ_eq_add_one]
  cases lookup true m d addr <;> rfl

/-- All entries followed in a call that returns are filled exactly when the pages have their
tables. -/
theorem unmapLoopTraced_followed :
    ∀ {n addr : Nat} {vm vm' : VmState κ} {t : UnmapTrace}, TableOk vm.mem vm.pagesUsage d →
      unmapLoopTraced (linear true d) n addr vm = .ok (vm', t) →
      (∀ entry ∈ t.followed, entry ≠ 0) →
      ∀ j < n, HasTables vm.mem (linear true d) (addr + pageSize * j) := by
  intro n
  induction n with
  | zero =>
      intro addr vm vm' t _ _ _ j hj
      omega
  | succ n ih =>
      intro addr vm vm' t h hrun hfollowed j hj
      rw [unmapLoopTraced, except_bind_eq_ok] at hrun
      obtain ⟨vm₁, hone, hrun⟩ := hrun
      obtain ⟨⟨vm₂, t₂⟩, hrest, heq⟩ := except_map_eq_ok.1 hrun
      obtain ⟨rfl, rfl⟩ := Prod.mk.inj heq
      simp only [UnmapTrace.append, List.mem_append] at hfollowed
      have hfirst := (unmapTrace_followed h addr).1 fun entry hin => hfollowed entry (Or.inl hin)
      obtain ⟨vm₁', hone', hu, hupper⟩ := h.unmapOne (Or.inr hfirst)
      obtain rfl : vm₁' = vm₁ := Except.ok.inj (hone'.symm.trans hone)
      cases j with
      | zero => simpa using hfirst
      | succ j =>
          -- the table that the later pages are found in is the same
          have hlater := ih (h.unmapped hu) hrest (fun entry hin => hfollowed entry (Or.inr hin)) j
            (by omega)
          rwa [hasTables_congr (by rw [h.physical_linear]; exact hupper), page_succ] at hlater

/-- The trace of a call on pages that have their tables. -/
theorem unmapLoopTraced_spec :
    ∀ {n addr : Nat} {vm vm' : VmState κ} {t : UnmapTrace}, n ≤ 2 ^ 27 →
      TableOk vm.mem vm.pagesUsage d →
      (∀ j < n, HasTables vm.mem (linear true d) (addr + pageSize * j)) →
      unmapLoopTraced (linear true d) n addr vm = .ok (vm', t) →
      t.freed = mappedPages vm.mem d addr n ∧
        (∀ entry ∈ t.written, IsLeafEntry vm.mem (linear true d) entry) ∧
        ∀ entry ∈ t.followed, entry ≠ 0 := by
  intro n
  induction n with
  | zero =>
      intro addr vm vm' t _ _ _ hrun
      simp only [unmapLoopTraced, Except.ok.injEq, Prod.mk.injEq] at hrun
      obtain ⟨-, rfl⟩ := hrun
      exact ⟨rfl, by simp, by simp⟩
  | succ n ih =>
      intro addr vm vm' t hn h hway hrun
      rw [unmapLoopTraced, except_bind_eq_ok] at hrun
      obtain ⟨vm₁, hone, hrun⟩ := hrun
      obtain ⟨⟨vm₂, t₂⟩, hrest, heq⟩ := except_map_eq_ok.1 hrun
      obtain ⟨rfl, rfl⟩ := Prod.mk.inj heq
      have hfirst : HasTables vm.mem (linear true d) addr := by simpa using hway 0 (by omega)
      obtain ⟨vm₁', hone', hu, hupper⟩ := h.unmapOne (Or.inr hfirst)
      obtain rfl : vm₁' = vm₁ := Except.ok.inj (hone'.symm.trans hone)
      have hupper' : SameUpper vm.mem vm₁'.mem (physical true (linear true d)) := by
        rw [h.physical_linear]
        exact hupper
      -- the first page changes a leaf entry only, so the others have their tables still
      obtain ⟨hfreed, hwritten, hfollowed⟩ := ih (by omega) (h.unmapped hu) (fun j hj => by
        rw [hasTables_congr hupper', page_succ]
        exact hway (j + 1) (by omega)) hrest
      refine ⟨?_, ?_, ?_⟩
      · have hlater : mappedPages vm₁'.mem d (addr + pageSize) n =
            mappedPages vm.mem d (addr + pageSize) n :=
          List.filterMap_congr fun j hj => by rw [hu.later (show n < 2 ^ 27 by omega) (List.mem_range.1 hj)]
        rw [mappedPages_succ, ← unmapTrace_freed_eq h hfirst, ← hlater, ← hfreed]
        rfl
      · intro entry hin
        rcases List.mem_append.1 hin with hin | hin
        · exact unmapTrace_isLeafEntry h hfirst hin
        · obtain ⟨i, j, k, n', hn', heq⟩ := hwritten entry hin
          rw [hupper' _ (by simp)] at hn'
          exact ⟨i, j, k, n', hn', heq⟩
      · intro entry hin
        rcases List.mem_append.1 hin with hin | hin
        · exact (unmapTrace_followed h addr).2 hfirst entry hin
        · exact hfollowed entry hin

/-- Bytes outside of the words written. -/
theorem foldl_store_zero {x : Nat} :
    ∀ {l : List Nat} {m : Mem}, (∀ entry ∈ l, ¬(entry ≤ x ∧ x < entry + 8)) →
      l.foldl (fun m entry => store m entry 8 0) m x = m x := by
  intro l
  induction l with
  | nil =>
      intro m _
      rfl
  | cons entry l ih =>
      intro m h
      rw [List.foldl_cons, ih fun e he => h e (List.mem_cons_of_mem _ he)]
      simp only [store, if_neg (h entry List.mem_cons_self)]

end Trace

/-! ## When a call keeps to its range -/

section Range

variable {pgDir virtAddr size : Nat} {vm vm' : VmState κ} {t : UnmapTrace}

theorem mapped_iff (m : Mem) (pgDir v : Nat) :
    Mapped true m pgDir v ↔ ∃ a, lookup true m (physical true pgDir) v = some a :=
  Option.ne_none_iff_exists'

/-- The path of an address of user space tells whether it lies in the range. -/
theorem pathOf_range {addr n v : Nat} (hdvd : pageSize ∣ addr) (hle : addr + pageSize * n ≤ 2 ^ 39)
    (hv : v < 2 ^ 39) :
    (∃ j < n, pathOf v = pathOf (addr + pageSize * j)) ↔ addr ≤ v ∧ v < addr + pageSize * n := by
  simp only [pathOf_eq_iff]
  simp only [pageSize] at *
  constructor
  · rintro ⟨j, hj, hpath⟩
    omega
  · rintro ⟨hge, hlt⟩
    exact ⟨(v - addr) / 4096, by omega, by omega⟩

/-- A loop over pages that have their tables keeps to its range. -/
theorem unmapLoopTraced_unmapsRange {n : Nat} (hlin : linear true (physical true pgDir) = pgDir)
    (h : TableOk vm.mem vm.pagesUsage (physical true pgDir)) (hdvd : pageSize ∣ virtAddr)
    (hle : virtAddr + pageSize * n ≤ 2 ^ 39)
    (hway : ∀ j < n, HasTables vm.mem pgDir (virtAddr + pageSize * j)) :
    ∃ vm' t, unmapLoopTraced pgDir n virtAddr vm = .ok (vm', t) ∧
      UnmapsRange pgDir virtAddr n vm vm' t := by
  have hn : n ≤ 2 ^ 27 := by
    simp only [pageSize] at hle
    omega
  rw [← hlin] at hway
  obtain ⟨vm', hrun, hu⟩ := TableOk.unmapLoop hn h (Or.inr hway)
  rw [← unmapLoopTraced_erase, except_map_eq_ok] at hrun
  obtain ⟨⟨vm'', t⟩, hrun, rfl⟩ := hrun
  obtain ⟨hfreed, hwritten, hfollowed⟩ := unmapLoopTraced_spec hn h hway hrun
  obtain ⟨-, hmem, -⟩ := unmapLoopTraced_replay hrun
  rw [hlin] at hrun hwritten
  refine ⟨vm'', t, hrun, ⟨?_, ?_, hfreed, hwritten, ?_, hfollowed⟩⟩
  · intro v hge hlt hmapped
    exact hmapped (hu.gone v ((pathOf_range hdvd hle (by omega)).2 ⟨hge, hlt⟩))
  · intro v hv hout hmapped
    obtain ⟨a, ha⟩ := (mapped_iff _ _ _).1 hmapped
    have ha' : lookup true vm''.mem (physical true pgDir) v = some a := by
      rw [hu.other v fun j hj hpath => hout ((pathOf_range hdvd hle hv).1 ⟨j, hj, hpath⟩), ha]
    refine ⟨(mapped_iff _ _ _).2 ⟨a, ha'⟩, ?_⟩
    have hwalk := walkVirtAddr_eq ha
    have hwalk' := walkVirtAddr_eq ha'
    rw [hlin] at hwalk hwalk'
    rw [hwalk, hwalk']
  · intro x hx
    rw [hmem, foldl_store_zero hx]

/-- A call on the null pointer does nothing, which is right if there is nothing to do. -/
theorem unmapsRange_refl_iff {n : Nat} (hdvd : pageSize ∣ virtAddr) :
    UnmapsRange pgDir virtAddr n vm vm ⟨[], [], []⟩ ↔
      ∀ j < n, ¬Mapped true vm.mem pgDir (virtAddr + pageSize * j) := by
  constructor
  · intro h j hj
    refine h.gone _ (by omega) ?_
    simp only [pageSize]
    omega
  · intro h
    have hnone : ∀ j < n, lookup true vm.mem (physical true pgDir) (virtAddr + pageSize * j) = none :=
      fun j hj => not_not.1 (h j hj)
    refine ⟨?_, fun v _ _ hmapped => ⟨hmapped, rfl⟩, ?_, by simp, fun _ _ => rfl, by simp⟩
    · intro v hge hlt hmapped
      have hpage : pathOf v = pathOf (virtAddr + pageSize * ((v - virtAddr) / pageSize)) := by
        rw [pathOf_eq_iff]
        simp only [pageSize] at *
        omega
      refine h ((v - virtAddr) / pageSize) ?_ ?_
      · simp only [pageSize] at *
        omega
      · rw [Mapped, ← lookup_congr hpage]
        exact hmapped
    · symm
      rw [mappedPages, List.filterMap_eq_nil_iff]
      intro j hj
      rw [hnone j (List.mem_range.1 hj)]
      rfl

/-- `unmap_user_page_mapping` on any table and any range of user space: it returns, having unmapped
and freed the pages of the range and touched nothing else, exactly when all of these pages have
their tables; on the null pointer, exactly when none of them is mapped. -/
theorem unmap_unmapsRange_iff (h : Built pgDir vm) (hdvd : pageSize ∣ virtAddr)
    (hsize : pageSize ∣ size) (hle : virtAddr + size ≤ 2 ^ 39) :
    (∃ vm' t, unmapUserPageMappingTraced pgDir virtAddr size vm = .ok (vm', t) ∧
      UnmapsRange pgDir virtAddr (size / pageSize) vm vm' t) ↔
    virtAddr ≠ 0 ∧ (∀ j < size / pageSize, HasTables vm.mem pgDir (virtAddr + pageSize * j)) ∨
      virtAddr = 0 ∧ ∀ j < size / pageSize, ¬Mapped true vm.mem pgDir (virtAddr + pageSize * j) := by
  obtain ⟨hlin, hok⟩ := h.tableOk
  have hdir : pgDir ≠ 0 := by
    have := hok.linear_ne_zero
    rwa [hlin] at this
  have hrange : pageSize * (size / pageSize) = size := Nat.mul_div_cancel' hsize
  rw [unmapUserPageMappingTraced, if_neg hdir]
  by_cases hnull : virtAddr = 0
  · rw [if_pos (Or.inl hnull)]
    constructor
    · rintro ⟨vm', t, hrun, hr⟩
      obtain ⟨rfl, rfl⟩ := Prod.mk.inj (Except.ok.inj hrun)
      exact Or.inr ⟨hnull, (unmapsRange_refl_iff hdvd).1 hr⟩
    · rintro (⟨hno, -⟩ | ⟨-, hnone⟩)
      · exact absurd hnull hno
      · exact ⟨vm, _, rfl, (unmapsRange_refl_iff hdvd).2 hnone⟩
  · have hargs : ¬(virtAddr = 0 ∨ size % pageSize ≠ 0) := by
      rintro (hno | hno)
      · exact hnull hno
      · exact hno (Nat.mod_eq_zero_of_dvd hsize)
    rw [if_neg hargs]
    constructor
    · rintro ⟨vm', t, hrun, hr⟩
      rw [← hlin] at hrun
      have hway := unmapLoopTraced_followed hok hrun hr.followed
      rw [hlin] at hway
      exact Or.inl ⟨hnull, hway⟩
    · rintro (⟨-, hway⟩ | ⟨hno, -⟩)
      · exact unmapLoopTraced_unmapsRange hlin hok hdvd (by rw [hrange]; exact hle) hway
      · exact absurd hno hnull

end Range

/-- A directory from an empty pool, after an exception at `0x08050000`. -/
def sampleTable : Except Halt (MmStruct × VmState (List Nat)) :=
  let (pgDir, mem, usage) := getZeroedPages 0 (fun _ => 0) fun _ => false
  handleFault sampleHeap pgDir 0x08050000 { self := 16 } { mem := mem, pagesUsage := usage, heap := [] }

theorem sampleTable_built {mm : MmStruct} {vm : VmState (List Nat)} (h : sampleTable = .ok (mm, vm)) :
    Built pagePoolStart vm := by
  rcases hcall : getZeroedPages 0 (fun _ => 0) fun _ => false with ⟨pgDir, mem, usage⟩
  have hdir : pagePoolStart = pgDir := by
    have hfst : (getZeroedPages 0 (fun _ => 0) fun _ => false).1 = pagePoolStart := by decide +kernel
    rw [← hfst, hcall]
  subst hdir
  simp only [sampleTable, hcall] at h
  have hdirectory : Built pagePoolStart (⟨mem, usage, []⟩ : VmState (List Nat)) :=
    @Built.directory _ pagePoolStart ⟨fun _ => 0, fun _ => false, []⟩ mem usage hcall
      (pagePool_ne_zero 0)
  exact hdirectory.handleFault (by decide) h

/-- The page of the exception is unmapped again. -/
theorem sampleTable_unmapsRange :
    ∃ (mm : MmStruct) (vm : VmState (List Nat)), sampleTable = .ok (mm, vm) ∧ Built pagePoolStart vm ∧
      ∃ vm' t, unmapUserPageMappingTraced pagePoolStart 0x08050000 pageSize vm = .ok (vm', t) ∧
        UnmapsRange pagePoolStart 0x08050000 (pageSize / pageSize) vm vm' t := by
  have hrun : sampleTable.toOption.map (fun r => decide (HasTables r.2.mem pagePoolStart 0x08050000)) =
      some true := by decide +kernel
  obtain ⟨⟨mm, vm⟩, hok, htables⟩ := Option.map_eq_some_iff.1 hrun
  have hok : sampleTable = .ok (mm, vm) := except_toOption_eq_some.1 hok
  have hbuilt := sampleTable_built hok
  refine ⟨mm, vm, hok, hbuilt, (unmap_unmapsRange_iff hbuilt (by decide) (by decide) (by decide)).2
    (Or.inl ⟨by decide, fun j hj => ?_⟩)⟩
  obtain rfl : j = 0 := by
    simp only [pageSize] at hj
    omega
  simpa using htables

/-- No page was mapped near `0x08400000`: an empty entry is followed, and a word of page 0 is
written. -/
theorem sampleTable_follows_empty :
    ∃ (mm : MmStruct) (vm vm' : VmState (List Nat)) (t : UnmapTrace), sampleTable = .ok (mm, vm) ∧
      Built pagePoolStart vm ∧
      unmapUserPageMappingTraced pagePoolStart 0x08400000 pageSize vm = .ok (vm', t) ∧
      0 ∈ t.followed ∧ t.written = [entryAddr (linear true 0) (getPgEntryIndex 0x08400000 12)] ∧
      ¬UnmapsRange pagePoolStart 0x08400000 (pageSize / pageSize) vm vm' t := by
  have hrun : (sampleTable.bind fun r =>
      (unmapUserPageMappingTraced pagePoolStart 0x08400000 pageSize r.2).map fun q =>
        decide (0 ∈ q.2.followed ∧
          q.2.written = [entryAddr (linear true 0) (getPgEntryIndex 0x08400000 12)])).toOption =
      some true := by decide +kernel
  obtain ⟨⟨mm, vm⟩, hok, hrun⟩ := except_bind_eq_ok.1 (except_toOption_eq_some.1 hrun)
  obtain ⟨⟨vm', t⟩, hunmap, hseen⟩ := except_map_eq_ok.1 hrun
  obtain ⟨hfollowed, hwritten⟩ := of_decide_eq_true hseen
  exact ⟨mm, vm, vm', t, hok, sampleTable_built hok, hunmap, hfollowed, hwritten,
    fun hr => hr.followed 0 hfollowed rfl⟩

end Kernel
end ToutOS
