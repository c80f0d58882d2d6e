import ToutOS.Kernel.Unmap
import ToutOS.Mm.TableLog

/-!
# FreeTables — `free_page_tables` gives back what the table has been given

A user page table is built from a zeroed directory by calls of `setup_user_page_mapping` and
`unmap_user_page_mapping` in any order.  The pages that `get_zeroed_pages` has returned for it are written
down.

* `TableSys`, `tableStep` — the table and its list, and what can happen to them.
* `TableInv` — the tables of the tree are the pages of the list, and what is mapped are frames that
  `setup_user_page_mapping` was given.
* `runFrom_tableInv` — whatever the calls, and however many leaves have come and gone.
* `freePageTables_givesBack` — `free_page_tables` calls `free_pages` once for each page of the list.
-/

namespace ToutOS
namespace Kernel

open Base Mm

/-! ## The system -/

/-- A page table with `pages_usage` and the pointers that `get_zeroed_pages` has returned for it. -/
abbrev TableSys : Type := PtState (PagesUsage × List Nat)

/-- The part that the code knows of. -/
def TableSys.vm (s : TableSys) : VmState Unit := { mem := s.mem, pagesUsage := s.alloc.1, heap := () }

/-- No page has been obtained on the way. -/
def TableSys.withVm (s : TableSys) (vm : VmState Unit) : TableSys :=
  { mem := vm.mem, alloc := (vm.pagesUsage, s.alloc.2) }

/-- `setup_user_page_mapping`, with the list. -/
def setupUserPageMappingLogged (pgDir virtAddr phyAddr size : Nat) (rdonly : Bool) (s : TableSys) :
    Except Halt TableSys :=
  if pgDir = 0 then .ok s
  else if phyAddr = noLma then .ok s
  else
    let map : MemoryMap :=
      { phyAddr := phyAddr, virtAddr := virtAddr, size := size, attrs := userAttrs rdonly }
    addSingleMap (logCalloc (getZeroedPages 0)) true pgDir map s

/-- The list changes nothing. -/
theorem setupUserPageMappingLogged_erase (pgDir virtAddr phyAddr size : Nat) (rdonly : Bool)
    (s : TableSys) :
    (setupUserPageMappingLogged pgDir virtAddr phyAddr size rdonly s).map TableSys.vm =
      setupUserPageMapping pgDir virtAddr phyAddr size rdonly s.vm := by
  rw [setupUserPageMappingLogged, setupUserPageMapping]
  split_ifs
  · rfl
  · rfl
  · have herase := @addSingleMap_unlogged _ (getZeroedPages 0) true pgDir
      ⟨phyAddr, virtAddr, size, userAttrs rdonly⟩ s
    have hstart : s.mapAlloc Prod.fst = { mem := s.vm.mem, alloc := s.vm.pagesUsage } := rfl
    rw [hstart] at herase
    dsimp only
    rw [← herase]
    cases addSingleMap (logCalloc (getZeroedPages 0)) true pgDir
      ⟨phyAddr, virtAddr, size, userAttrs rdonly⟩ s <;> rfl

/-- What happens to a table. -/
inductive TableAction where
  | map (virtAddr phyAddr size : Nat) (rdonly : Bool)
  | unmap (virtAddr size : Nat)
  /-- The rest of the kernel and the user programs run. -/
  | elsewhere (mem : Mem) (usage : PagesUsage)

/-- One call that returns. -/
def tableStep (pgDir : Nat) (s : TableSys) : TableAction → Option TableSys
  | .map virtAddr phyAddr size rdonly =>
      (setupUserPageMappingLogged pgDir virtAddr phyAddr size rdonly s).toOption
  | .unmap virtAddr size => ((unmapUserPageMapping pgDir virtAddr size s.vm).map s.withVm).toOption
  | .elsewhere mem usage => some { mem := mem, alloc := (usage, s.alloc.2) }

/-- The frames that a call is given to map. -/
def TableAction.Maps (f : Nat) : TableAction → Prop
  | .map _ phyAddr size _ => phyAddr ≠ noLma ∧ FrameOf phyAddr (phyAddr + size) f
  | .unmap _ _ => False
  | .elsewhere _ _ => False

/-- Whole pages with addresses that fit into a descriptor are mapped; other code leaves the pages
obtained for the table alone, and page 0 reads as zero. -/
def TableAction.Ok (s : TableSys) : TableAction → Prop
  | .map _ phyAddr size _ => phyAddr ≠ noLma → pageSize ∣ phyAddr ∧ phyAddr + size ≤ 2 ^ 48
  | .unmap _ _ => True
  | .elsewhere mem usage =>
      (∀ n ∈ logged true s.alloc, UsedFrame usage n ∧ ∀ x, InPage true n x → mem x = s.mem x) ∧
        ZeroPage mem

/-- A call adds to the list. -/
theorem tableStep_obtained {pgDir : Nat} {s s' : TableSys} {a : TableAction}
    (h : tableStep pgDir s a = some s') : s.alloc.2 ⊆ s'.alloc.2 := by
  cases a with
  | map virtAddr phyAddr size rdonly =>
      have h := except_toOption_eq_some.1 h
      rw [setupUserPageMappingLogged] at h
      split_ifs at h
      · cases h
        exact fun _ hp => hp
      · cases h
        exact fun _ hp => hp
      · refine addSingleMap_alloc (P := fun k => s.alloc.2 ⊆ k.2) (fun m k hk => ?_) (fun _ hp => hp) h
        simp only [logCalloc]
        split_ifs
        · exact hk
        · exact fun p hp => List.mem_append_left _ (hk hp)
  | unmap virtAddr size =>
      obtain ⟨vm, -, rfl⟩ := except_map_eq_ok.1 (except_toOption_eq_some.1 h)
      exact fun _ hp => hp
  | elsewhere mem usage =>
      cases h
      exact fun _ hp => hp

theorem runFrom_obtained {pgDir : Nat} {s t : TableSys} {as : List TableAction}
    (hrun : runFrom (tableStep pgDir) s as = some t) : s.alloc.2 ⊆ t.alloc.2 :=
  runFrom_invariant (I := fun t => s.alloc.2 ⊆ t.alloc.2)
    (fun _ _ _ hs hstep _ hp => tableStep_obtained hstep (hs hp)) (fun _ hp => hp) hrun

/-! ## The invariant -/

/-- The pages in use. -/
abbrev inUse : PagesUsage → Set Nat := fun usage => {a | UsedFrame usage a}

/-- The tables of the tree with root `d` are the pages of the list, and only frames of `F` are mapped. -/
structure TableInv (d : Nat) (F : Set Nat) (s : TableSys) : Prop where
  log : TableLog true inUse d s
  mapped : ∀ v a, lookup true s.mem d v = some a → a ∈ F
  zero : ZeroPage s.mem

section Inv

variable {d : Nat} {F : Set Nat} {s s' : TableSys}

theorem TableInv.tableFrames_eq (h : TableInv d F s) : tableFrames s.mem d = logged true s.alloc :=
  Set.Subset.antisymm (tableFrames_subset h.log.tables) h.log.reached

theorem TableInv.used (h : TableInv d F s) {n : Nat} (hn : n ∈ logged true s.alloc) :
    UsedFrame s.alloc.1 n := h.log.log.given hn

theorem TableInv.pool (h : TableInv d F s) {n : Nat} (hn : n ∈ logged true s.alloc) :
    InPool n ∧ IsPage n :=
  ⟨(h.used hn).inPool, (h.used hn).page⟩

theorem TableInv.root (h : TableInv d F s) : d ∈ logged true s.alloc := by
  rw [← h.tableFrames_eq]
  exact root_mem_tableFrames s.mem d

theorem TableInv.linear_ne_zero (h : TableInv d F s) : linear true d ≠ 0 := by
  have := ne_zero_of_inPool (h.pool h.root).1
  simpa only [linear, if_true] using this

/-- A directory without entries. -/
theorem tableInv_directory {mem : Mem} {usage : PagesUsage} {pgDir : Nat}
    (hdir : logCalloc (getZeroedPages 0) mem (usage, []) = (pgDir, s.mem, s.alloc)) (hne : pgDir ≠ 0)
    (hzero : ZeroPage mem) :
    linear true (physical true pgDir) = pgDir ∧ TableInv (physical true pgDir) F s := by
  rcases hcall : getZeroedPages 0 mem usage with ⟨p, m, u⟩
  simp only [logCalloc, hcall, List.nil_append, Prod.mk.injEq] at hdir
  obtain ⟨rfl, hm, halloc⟩ := hdir
  rw [if_neg hne] at halloc
  rcases getZeroedPages_one hcall with ⟨hno, -⟩ | ⟨k, hk, hlt, -, rfl, rfl⟩
  · exact absurd hno hne
  have hphys : physical true p = frame k := by rw [hk, physical_pagePool hlt]
  have hlin : linear true (frame k) = p := by rw [linear_frame hlt, hk]
  have hlog : logged true s.alloc = {frame k} := by
    rw [← halloc, ← hphys]
    ext n
    simp [logged]
  have hpage : ∀ n ∈ ({frame k} : Set Nat), InPool n ∧ IsPage n := by
    rintro n rfl
    exact ⟨inPool_frame.2 hlt, isPage_frame hlt⟩
  -- the page is full of zeros
  have hempty : ∀ x, InPage true (frame k) x → s.mem x = 0 := by
    intro x hx
    rw [InPage, hlin] at hx
    rw [← hm]
    exact fill_apply_of_mem hx.1 hx.2
  obtain ⟨hwf, hnone⟩ := ptWf_empty (Set.mem_singleton (frame k)) (fun n hn => (hpage n hn).2) hempty
  rw [hphys]
  refine ⟨hlin, ⟨⟨?_, ?_, ?_⟩, by rwa [hlog], ?_⟩, ?_, ?_⟩
  · rw [← halloc]
    simp
  · rw [hlog, ← halloc]
    rintro n rfl
    exact ⟨k, hlt, by simp [markPages], rfl⟩
  · rw [← halloc]
    intro q hq
    rw [List.mem_singleton.1 hq, ← hlin]
    exact linear_lt (isPage_frame hlt).2
  · rw [hlog]
    rintro n rfl
    exact ⟨[], by simp, rfl⟩
  · intro v a ha
    rw [hnone] at ha
    cases ha
  · refine zeroPage_of_pages hzero hpage fun x hx => ?_
    have hout := hx _ rfl
    rw [InPage, hlin] at hout
    rw [← hm]
    by_cases hlow : x < p
    · exact fill_apply_of_lt hlow
    · exact fill_apply_of_ge (Nat.le_of_not_lt fun hlt => hout ⟨Nat.le_of_not_lt hlow, hlt⟩)

/-! ## The calls -/

theorem TableInv.map (h : TableInv d F s) {virtAddr phyAddr size : Nat} {rdonly : Bool}
    (hok : phyAddr ≠ noLma → pageSize ∣ phyAddr ∧ phyAddr + size ≤ 2 ^ 48)
    (hF : phyAddr ≠ noLma → ∀ f, FrameOf phyAddr (phyAddr + size) f → f ∈ F)
    (hrun : setupUserPageMappingLogged (linear true d) virtAddr phyAddr size rdonly s = .ok s') :
    TableInv d F s' := by
  rw [setupUserPageMappingLogged, if_neg h.linear_ne_zero] at hrun
  by_cases hlma : phyAddr = noLma
  · rw [if_pos hlma] at hrun
    cases hrun
    exact h
  rw [if_neg hlma] at hrun
  obtain ⟨hattrs, h64⟩ := attrsOk_userAttrs rdonly
  obtain ⟨hdvd, hle⟩ := hok hlma
  rcases @TableLog.addSingleMap _ _ true _ d s h.log getZeroedPages_ok
    ⟨phyAddr, virtAddr, size, userAttrs rdonly⟩ hdvd hle hattrs h64 with herr | ⟨st, hst, hlog, -, hframe, hlook⟩
  · rw [herr] at hrun
    cases hrun
  obtain rfl : st = s' := Except.ok.inj (hst.symm.trans hrun)
  refine ⟨hlog, fun v a ha => ?_, ?_⟩
  · rcases hlook v a ha with hold | hnew
    · exact h.mapped v a hold
    · exact hF hlma a hnew
  · refine zeroPage_of_pages h.zero (fun n hn => ?_) hframe
    have hused : UsedFrame st.alloc.1 n := hlog.log.given hn
    exact ⟨hused.inPool, hused.page⟩

/-- A page that has been freed was mapped, and so is not a table. -/
theorem TableInv.unmapOne (h : TableInv d F s) (hF : ∀ f ∈ F, f ∉ logged true s.alloc) {addr : Nat}
    {vm : VmState Unit} (hrun : unmapOneUserPage (linear true d) addr s.vm = .ok vm) :
    TableInv d F (s.withVm vm) := by
  have htables : PtWf true s.vm.mem d (tableFrames s.vm.mem d) := ptWf_self h.log.tables
  cases hdesc : descend (ptSlot true s.vm.mem) d [getPgEntryIndex addr 30, getPgEntryIndex addr 21] with
  | none =>
      -- the walk goes on in page 0
      have hlook : lookup true s.vm.mem d addr = none := lookup_of_no_table hdesc
      rw [unmapOneUserPage_of_zero (load_lastEntry_none h.zero hlook)] at hrun
      cases hrun
      exact h
  | some t =>
      have hfree : ∀ a, lookup true s.vm.mem d addr = some a →
          freePages s.vm.pagesUsage (va a) 0 = .ok (freed s.vm.pagesUsage [a]) := by
        intro a ha
        obtain ⟨-, -, -, hload, hphys⟩ := load_lastEntry_some ha
        rw [unmapOneUserPage_eq, if_pos hload, hphys] at hrun
        obtain ⟨usage, husage, -⟩ := except_map_eq_ok.1 hrun
        rw [husage, freePages_of_ok (physOk_of_lookup ha) husage]
      obtain ⟨vm', hok, hu, -⟩ := unmapOneUserPage_leaf htables hdesc hfree
      obtain rfl : vm' = vm := Except.ok.inj (hok.symm.trans hrun)
      have heq : tableFrames vm'.mem d = logged true s.alloc := hu.tables_eq.trans h.tableFrames_eq
      refine ⟨⟨⟨h.log.log.nodup, fun n hn => ?_, h.log.log.lt⟩, ?_, fun n hn => ?_⟩, fun v a ha => ?_, ?_⟩
      · exact hu.stays (h.used hn) fun j _ hj => hF n (h.mapped _ n hj) hn
      · have hwf := hu.tables
        rw [heq] at hwf
        exact hwf
      · have hin : n ∈ tableFrames vm'.mem d := by
          rw [heq]
          exact hn
        exact hin
      · exact h.mapped v a (hu.old ha).1
      · refine zeroPage_frame h.zero htables (fun n hn => ?_) hu.frame
        have hin : n ∈ logged true s.alloc := by
          rw [← h.tableFrames_eq]
          exact hn
        exact (h.pool hin).1

theorem TableInv.unmapLoop {F : Set Nat} :
    ∀ {n addr : Nat} {s : TableSys} {vm : VmState Unit}, TableInv d F s →
      (∀ f ∈ F, f ∉ logged true s.alloc) → Kernel.unmapLoop (linear true d) n addr s.vm = .ok vm →
      TableInv d F (s.withVm vm) := by
  intro n
  induction n with
  | zero =>
      intro addr s vm h _ hrun
      cases hrun
      exact h
  | succ n ih =>
      intro addr s vm h hF hrun
      rw [Kernel.unmapLoop, except_bind_eq_ok] at hrun
      obtain ⟨vm₁, hone, hrest⟩ := hrun
      exact @ih (addr + pageSize) (s.withVm vm₁) vm (h.unmapOne hF hone) hF hrest

/-- Tables and page 0 are as they were. -/
theorem TableInv.elsewhere (h : TableInv d F s) {mem : Mem} {usage : PagesUsage}
    (hsame : ∀ n ∈ logged true s.alloc, UsedFrame usage n ∧ ∀ x, InPage true n x → mem x = s.mem x)
    (hzero : ZeroPage mem) : TableInv d F { mem := mem, alloc := (usage, s.alloc.2) } := by
  have hframe : ∀ n ∈ logged true s.alloc, ∀ x, InPage true n x → mem x = s.mem x :=
    fun n hn => (hsame n hn).2
  have hwf := h.log.tables
  refine ⟨⟨⟨h.log.log.nodup, fun n hn => (hsame n hn).1, h.log.log.lt⟩, ptWf_frame hwf hframe, ?_⟩, ?_, hzero⟩
  · intro n hn
    obtain ⟨π, hπ, hdesc⟩ := h.log.reached n hn
    exact ⟨π, hπ, (descend_frame (agreeWithin_frame hwf hframe) (Nat.le_of_lt hπ)).trans hdesc⟩
  · intro v a ha
    exact h.mapped v a ((lookup_frame hwf hframe v).symm.trans ha)

/-- What one call keeps. -/
theorem TableInv.step (h : TableInv d F s) (hF : ∀ f ∈ F, f ∉ logged true s.alloc) {a : TableAction}
    (hmaps : ∀ f, a.Maps f → f ∈ F) (hok : a.Ok s) (hstep : tableStep (linear true d) s a = some s') :
    TableInv d F s' := by
  cases a with
  | map virtAddr phyAddr size rdonly =>
      rw [TableAction.Ok] at hok
      rw [tableStep] at hstep
      exact h.map hok (fun hlma f hf => hmaps f ⟨hlma, hf⟩) (except_toOption_eq_some.1 hstep)
  | unmap virtAddr size =>
      rw [tableStep] at hstep
      obtain ⟨vm, hrun, rfl⟩ := except_map_eq_ok.1 (except_toOption_eq_some.1 hstep)
      rw [unmapUserPageMapping, if_neg h.linear_ne_zero] at hrun
      split_ifs at hrun
      · cases hrun
        exact h
      · exact h.unmapLoop hF hrun
  | elsewhere mem usage =>
      cases hstep
      exact h.elsewhere hok.1 hok.2

/-- What any sequence of calls keeps; a page is in the list at the end if it ever was. -/
theorem runFrom_tableInv {as : List TableAction} (h : TableInv d F s)
    (hmaps : ∀ a ∈ as, ∀ f, a.Maps f → f ∈ F) (hok : Along (tableStep (linear true d)) TableAction.Ok s as)
    (hrun : runFrom (tableStep (linear true d)) s as = some s') (hF : ∀ f ∈ F, f ∉ logged true s'.alloc) :
    TableInv d F s' := by
  induction as generalizing s with
  | nil =>
      cases hrun
      exact h
  | cons a as ih =>
      have hall := runFrom_obtained hrun
      obtain ⟨s₁, hstep, hrest⟩ := runFrom_cons.1 hrun
      have hF₀ : ∀ f ∈ F, f ∉ logged true s.alloc := by
        intro f hf hin
        obtain ⟨p, hp, rfl⟩ := List.mem_map.1 hin
        exact hF _ hf (List.mem_map.2 ⟨p, hall hp, rfl⟩)
      exact ih (h.step hF₀ (hmaps a List.mem_cons_self) hok.1 hstep)
        (fun b hb => hmaps b (List.mem_cons_of_mem a hb)) (hok.2 s₁ hstep) hrest

end Inv

/-! ## Giving the tables back -/

/-- `free_page_tables` gives the pages at the pointers `obtained` to `free_pages`. -/
structure GivesTablesBack (m : Mem) (pgDir : Nat) (usage : PagesUsage) (obtained : List Nat)
    (calls : List (Nat × Nat)) : Prop where
  calls_eq : freeCalls m pgDir = .ok calls
  /-- Every page in one call with order 0, and there are no other calls. -/
  once : calls.Perm (obtained.map fun p => (p, 0))
  nodup : calls.Nodup
  /-- The pages are the directory and the tables below it. -/
  tables : ∀ n, n ∈ obtained.map pa ↔ Reached true m (pa pgDir) n
  unmapped : ∀ v a order, lookup true m (pa pgDir) v = some a → (va a, order) ∉ calls
  /-- No assertion fails. -/
  returns : ∃ usage', freePageTables m pgDir usage = .ok usage'

section GiveBack

variable {d : Nat} {F : Set Nat} {s : TableSys}

theorem physical_true : physical true = pa := by
  funext x
  simp only [physical, if_true]

theorem mem_logged {s : TableSys} {n : Nat} : n ∈ logged true s.alloc ↔ n ∈ s.alloc.2.map pa := by
  rw [logged, physical_true, Set.mem_ofPred_eq]

/-- The tables of the tree, in the order of the calls, are the pages of the list. -/
theorem TableInv.tableList_perm (h : TableInv d F s) : (tableList s.mem d).Perm (s.alloc.2.map pa) := by
  have hnodup := h.log.log.nodup
  rw [physical_true] at hnodup
  refine (List.perm_ext_iff_of_nodup (nodup_tableList h.log.tables.tree) hnodup).2 fun n => ?_
  rw [mem_tableList, h.tableFrames_eq, mem_logged]

theorem TableInv.calls_perm (h : TableInv d F s) :
    ((tableList s.mem d).map fun a => (va a, 0)).Perm (s.alloc.2.map fun p => (p, 0)) := by
  have hback : (s.alloc.2.map pa).map (fun a => (va a, 0)) = s.alloc.2.map fun p => (p, 0) := by
    rw [List.map_map]
    refine List.map_congr_left fun p hp => ?_
    have hp := @linear_physical true p (h.log.log.lt p hp)
    simp only [linear, physical, if_true] at hp
    rw [Function.comp_apply, hp]
  rw [← hback]
  exact h.tableList_perm.map _

theorem TableInv.givesBack (h : TableInv d F s) (hF : ∀ f ∈ F, f ∉ logged true s.alloc) :
    ∃ calls, GivesTablesBack s.mem (linear true d) s.alloc.1 s.alloc.2 calls := by
  have hd : pa (linear true d) = d := by
    simpa only [physical, if_true] using physical_linear true (h.pool h.root).2.2
  have hmem : ∀ n, n ∈ tableFrames s.mem d ↔ n ∈ logged true s.alloc := fun n => by rw [h.tableFrames_eq]
  have hpool : ∀ n ∈ tableFrames s.mem d, InPool n := fun n hn => (h.pool ((hmem n).1 hn)).1
  have hva : ∀ {n n'}, n < 2 ^ 64 → n' < 2 ^ 64 → va n = va n' → n = n' := by
    intro n n' hn hn' heq
    exact linear_inj true hn hn' (by simpa only [linear, if_true] using heq)
  refine ⟨_, freeCalls_eq hpool, h.calls_perm, ?_, fun n => ?_, ?_, ?_⟩
  · refine (nodup_tableList h.log.tables.tree).map_on ?_
    intro n hn n' hn' heq
    have hlt : ∀ n ∈ tableList s.mem d, n < 2 ^ 64 := fun n hn =>
      (h.pool ((hmem n).1 (mem_tableList.1 hn))).2.2
    exact hva (hlt n hn) (hlt n' hn') (Prod.mk.inj heq).1
  · rw [hd, ← mem_logged]
    exact (hmem n).symm
  · -- a mapped page is none of the tables
    intro v a order ha hin
    rw [hd] at ha
    obtain ⟨n, hn, heq⟩ := List.mem_map.1 hin
    have hlog := (hmem n).1 (mem_tableList.1 hn)
    obtain rfl := hva (h.pool hlog).2.2 ((physOk_of_lookup ha).2.trans (by decide)) (Prod.mk.inj heq).1
    exact hF n (h.mapped v n ha) hlog
  · refine ⟨_, freePageTables_spec (ptWf_self h.log.tables) hpool fun n hn => ?_⟩
    exact not_freeFrame_of_usedFrame (h.used ((hmem n).1 hn))

end GiveBack

/-- A table is built from a zeroed directory by calls of `setup_user_page_mapping` and
`unmap_user_page_mapping`, in any order.  If none of the frames mapped is one of the pages obtained for the
table, `free_page_tables` gives exactly these pages to `free_pages`, and no mapped frame. -/
theorem freePageTables_givesBack {mem : Mem} {usage : PagesUsage} {pgDir : Nat} {s₀ s : TableSys}
    {as : List TableAction}
    (hdir : logCalloc (getZeroedPages 0) mem (usage, []) = (pgDir, s₀.mem, s₀.alloc)) (hne : pgDir ≠ 0)
    (hzero : ZeroPage mem) (hok : Along (tableStep pgDir) TableAction.Ok s₀ as)
    (hrun : runFrom (tableStep pgDir) s₀ as = some s)
    (hframes : ∀ a ∈ as, ∀ f, a.Maps f → f ∉ s.alloc.2.map pa) :
    ∃ calls, GivesTablesBack s.mem pgDir s.alloc.1 s.alloc.2 calls := by
  obtain ⟨hlin, hinv⟩ := @tableInv_directory {f | f ∉ s.alloc.2.map pa} s₀ mem usage pgDir hdir hne hzero
  have hF : ∀ f ∈ {f | f ∉ s.alloc.2.map pa}, f ∉ logged true s.alloc := by
    intro f hf hin
    exact hf (mem_logged.1 hin)
  generalize physical true pgDir = d at hlin hinv
  subst hlin
  exact (runFrom_tableInv hinv hframes hok hrun hF).givesBack hF

/-- The first page of an empty pool, as a directory. -/
def zeroedDirectory : Nat × TableSys :=
  let (pgDir, mem, alloc) := logCalloc (getZeroedPages 0) (fun _ => 0) (fun _ => false, [])
  (pgDir, { mem := mem, alloc := alloc })

/-- Two parts of the image are mapped far from each other, and the first one is unmapped again. -/
def sampleMappings : List TableAction :=
  [.map 0x08048000 lmaUser 0x2000 true, .map 0x7f000000 (lmaUser + 0x10000) 0x1000 false,
    .unmap 0x08048000 0x2000]

/-- The two tables without leaves are given back as well. -/
theorem sampleMappings_givesBack :
    ∃ s, runFrom (tableStep pagePoolStart) zeroedDirectory.2 sampleMappings = some s ∧
      s.alloc.2.map pa = [frame 0, frame 1, frame 2, frame 3, frame 4] ∧
      ∃ calls, GivesTablesBack s.mem pagePoolStart s.alloc.1 s.alloc.2 calls := by
  have hrun : (runFrom (tableStep pagePoolStart) zeroedDirectory.2 sampleMappings).map
      (fun s => decide (s.alloc.2.map pa = [frame 0, frame 1, frame 2, frame 3, frame 4])) = some true := by
    decide +kernel
  obtain ⟨s, hrun, hobtained⟩ := Option.map_eq_some_iff.1 hrun
  have hobtained := of_decide_eq_true hobtained
  have hdir : logCalloc (getZeroedPages 0) (fun _ => 0) (fun _ => false, []) =
      (pagePoolStart, zeroedDirectory.2.mem, zeroedDirectory.2.alloc) := by
    have hfst : zeroedDirectory.1 = pagePoolStart := by decide +kernel
    rw [← hfst, zeroedDirectory]
  refine ⟨s, hrun, hobtained, freePageTables_givesBack hdir (pagePool_ne_zero 0) (fun _ _ => rfl) ?_ hrun ?_⟩
  · refine along_of_forall fun a ha t => ?_
    simp only [sampleMappings, List.mem_cons, List.not_mem_nil, or_false] at ha
    rcases ha with rfl | rfl | rfl
    · exact fun _ => by decide
    · exact fun _ => by decide
    · trivial
  · -- the image lies below the pool
    rw [hobtained]
    intro a ha f hf hin
    have hpool : 0x70000000 ≤ f := by
      simp only [List.mem_cons, List.not_mem_nil, or_false, frame] at hin
      omega
    simp only [sampleMappings, List.mem_cons, List.not_mem_nil, or_false] at ha
    rcases ha with rfl | rfl | rfl
    · have hlt := hf.2.2.2
      simp only [lmaUser] at hlt
      omega
    · have hlt := hf.2.2.2
      simp only [lmaUser] at hlt
      omega
    · exact hf

end Kernel
end ToutOS
