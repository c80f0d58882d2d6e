import ToutOS.Kernel.Steps

/-!
# Isolation — who owns a page of the pool

* `Owner`, `Owns` — a page of the pool belongs to a `pages_block` or to a page table;
* `Isolated` — every page has at most one owner, what is mapped is in use, and no two tasks see the
  same page through vmas that are not shared;
* `Invariant.isolated` — it follows from the invariant of the whole system, so it holds in every
  state that is reached, and the assertion of `free_pages` is not.
-/

namespace ToutOS
namespace Kernel

open Base Mm

variable {κ : Type} {H : KernelHeap κ} {img : KernelImage} {u : UserImage} {s s' : KernelState κ}

/-! ## Owners -/

/-- What a page can belong to. -/
inductive Owner
  /-- A `pages_block` of a vma of a task, both by their places in the lists. -/
  | block (task vma pb : Nat)
  /-- The table that a task reaches by a path of indices. -/
  | table (task : Nat) (path : List (Fin 512))

/-- The page at `a` belongs to an owner whose task has not exited. -/
def Owns (s : KernelState κ) (o : Owner) (a : Nat) : Prop :=
  match o with
  | .block i n k => (s.tasks i).live = true ∧ ∃ mm vma pb, (s.tasks i).mm = some mm ∧
      mm.mmap[n]? = some vma ∧ vma.pagesBlockList[k]? = some pb ∧ a ∈ pb.frames
  | .table i π => (s.tasks i).live = true ∧ (s.tasks i).pgDir ≠ 0 ∧ π.length < 3 ∧
      descend (ptSlot true s.vm.mem) (physical true (s.tasks i).pgDir) π = some a

/-- The page table of a task that is alive maps the page of `v` to the page at `a`. -/
def MapsTo (s : KernelState κ) (i v a : Nat) : Prop :=
  (s.tasks i).live = true ∧ (s.tasks i).pgDir ≠ 0 ∧
    userFrame s.vm.mem (s.tasks i).pgDir v = some a

/-- It does so in a vma that is not shared. -/
def MapsOwn (s : KernelState κ) (i v a : Nat) : Prop :=
  MapsTo s i v a ∧ v < 2 ^ 39 ∧ ∃ mm, (s.tasks i).mm = some mm ∧
    ∃ vma ∈ mm.mmap, vma.shared = false ∧ vma.covers (pageAddr v) = true

structure Isolated (s : KernelState κ) : Prop where
  owner : ∀ o o' a, Owns s o a → Owns s o' a → o = o'
  owned_used : ∀ o a, Owns s o a → UsedFrame s.vm.pagesUsage a
  mapped_used : ∀ i v a, MapsTo s i v a → InPool a → UsedFrame s.vm.pagesUsage a
  apart : ∀ i j v v' a, i ≠ j → MapsOwn s i v a → ¬MapsOwn s j v' a
  tables : ∀ i π j v a, Owns s (.table i π) a → ¬MapsTo s j v a

/-! ## Places in lists -/

/-- An element is found in one of the lists only. -/
theorem nodup_flatMap_index {α β : Type*} {f : α → List β} {l : List α} (h : (l.flatMap f).Nodup)
    {i j : Nat} {x y : α} (hx : l[i]? = some x) (hy : l[j]? = some y) {b : β} (hbx : b ∈ f x)
    (hby : b ∈ f y) : i = j := by
  obtain ⟨hi, rfl⟩ := List.getElem?_eq_some_iff.1 hx
  obtain ⟨hj, rfl⟩ := List.getElem?_eq_some_iff.1 hy
  have hpair := List.pairwise_iff_getElem.1 (List.nodup_flatMap.1 h).2
  rcases Nat.lt_trichotomy i j with hij | hij | hij
  · exact absurd hby (hpair i j hi hj hij hbx)
  · exact hij
  · exact absurd hbx (hpair j i hj hi hij hby)

/-- The block of a page. -/
theorem block_index {mmap : List VmArea} (h : (blockFrames mmap).Nodup) {n n' k k' a : Nat}
    {vma vma' : VmArea} {pb pb' : PagesBlock} (hn : mmap[n]? = some vma) (hn' : mmap[n']? = some vma')
    (hk : vma.pagesBlockList[k]? = some pb) (hk' : vma'.pagesBlockList[k']? = some pb')
    (ha : a ∈ pb.frames) (ha' : a ∈ pb'.frames) : n = n' ∧ k = k' := by
  rw [blockFrames, blocks, List.flatMap_assoc] at h
  have hmem : ∀ {vma : VmArea} {k : Nat} {pb : PagesBlock}, vma.pagesBlockList[k]? = some pb →
      a ∈ pb.frames → a ∈ vma.pagesBlockList.flatMap PagesBlock.frames := by
    intro vma k pb hk ha
    exact List.mem_flatMap.2 ⟨pb, List.mem_of_getElem? hk, ha⟩
  have heq := nodup_flatMap_index h hn hn' (hmem hk ha) (hmem hk' ha')
  subst heq
  rw [hn] at hn'
  cases hn'
  have hinner := (List.nodup_flatMap.1 h).1 vma (List.mem_of_getElem? hn)
  exact ⟨rfl, nodup_flatMap_index hinner hk hk' ha ha'⟩

/-! ## The invariant -/

section Invariant

variable {i : Nat} {a : Nat}

/-- The task of an owner. -/
def Owner.task : Owner → Nat
  | .block i _ _ => i
  | .table i _ => i

/-- A task that has vmas has an address space. -/
theorem TaskOk.process_of_vma {m : Mem} {t : TaskStruct} (h : TaskOk img u i m t)
    (hlive : t.live = true) {mm : MmStruct} (hmm : t.mm = some mm) {vma : VmArea}
    (hvma : vma ∈ mm.mmap) : t.pgDir ≠ 0 ∧ ProcessOk u m t.pgDir mm := by
  obtain ⟨mm', hmm', hempty, hp⟩ := h.mm hlive
  rw [hmm] at hmm'
  cases hmm'
  have hdir : t.pgDir ≠ 0 := fun hzero => by
    rw [hempty hzero] at hvma
    cases hvma
  exact ⟨hdir, hp hdir⟩

theorem Invariant.owns_mem (h : Invariant img u s) {o : Owner} (ho : Owns s o a) :
    a ∈ taskFootprint s.vm.mem (s.tasks o.task) := by
  cases o with
  | block i n k =>
      obtain ⟨hlive, mm, vma, pb, hmm, hn, hk, ha⟩ := ho
      have hvma := List.mem_of_getElem? hn
      obtain ⟨hdir, -⟩ := (h.tasks i).process_of_vma hlive hmm hvma
      exact ⟨hlive, hdir, mm, hmm, Or.inr (Or.inl (mem_blockFrames hvma (List.mem_of_getElem? hk) ha))⟩
  | table i π =>
      obtain ⟨hlive, hdir, hπ, ha⟩ := ho
      obtain ⟨mm, hmm, -⟩ := (h.tasks i).process hlive hdir
      exact ⟨hlive, hdir, mm, hmm, Or.inl ⟨π, hπ, ha⟩⟩

theorem Invariant.mapsTo_mem (h : Invariant img u s) {v : Nat} (ha : MapsTo s i v a)
    (hpool : InPool a) : a ∈ taskFootprint s.vm.mem (s.tasks i) := by
  obtain ⟨hlive, hdir, ha⟩ := ha
  obtain ⟨mm, hmm, -⟩ := (h.tasks i).process hlive hdir
  exact ⟨hlive, hdir, mm, hmm, Or.inr (Or.inr ⟨hpool, v, ha⟩)⟩

theorem Invariant.usedFrame (h : Invariant img u s)
    (ha : a ∈ taskFootprint s.vm.mem (s.tasks i)) : UsedFrame s.vm.pagesUsage a := by
  obtain ⟨hpool, hpage⟩ := (h.tasks i).footprint_pool ha
  exact usedFrame_of_not_freeFrame hpool hpage.1 (h.owned.held i a ha)

/-- A page has one owner. -/
theorem Invariant.owner (h : Invariant img u s) {o o' : Owner} (ho : Owns s o a)
    (ho' : Owns s o' a) : o = o' := by
  -- what tasks own is apart; within a task, tables and blocks are
  have htask : o.task = o'.task := by
    by_contra hne
    exact h.owned.apart _ _ a hne (h.owns_mem ho) (h.owns_mem ho')
  cases o with
  | block i n k =>
      obtain ⟨hlive, mm, vma, pb, hmm, hn, hk, ha⟩ := ho
      have hvma := List.mem_of_getElem? hn
      obtain ⟨hdir, hp⟩ := (h.tasks i).process_of_vma hlive hmm hvma
      cases o' with
      | block i' n' k' =>
          obtain rfl : i = i' := htask
          obtain ⟨-, mm', vma', pb', hmm', hn', hk', ha'⟩ := ho'
          rw [hmm] at hmm'
          cases hmm'
          obtain ⟨rfl, rfl⟩ := block_index hp.space.holdings.blocks_nodup hn hn' hk hk' ha ha'
          rfl
      | table i' π =>
          obtain rfl : i = i' := htask
          obtain ⟨-, -, hπ, hdesc⟩ := ho'
          exact absurd (mem_blockFrames hvma (List.mem_of_getElem? hk) ha)
            (hp.space.holdings.tables_blocks a ⟨π, hπ, hdesc⟩)
  | table i π =>
      obtain ⟨hlive, hdir, hπ, hdesc⟩ := ho
      obtain ⟨mm, hmm, hp⟩ := (h.tasks i).process hlive hdir
      cases o' with
      | block i' n' k' =>
          obtain rfl : i = i' := htask
          obtain ⟨-, mm', vma', pb', hmm', hn', hk', ha'⟩ := ho'
          rw [hmm] at hmm'
          cases hmm'
          exact absurd (mem_blockFrames (List.mem_of_getElem? hn') (List.mem_of_getElem? hk') ha')
            (hp.space.holdings.tables_blocks a ⟨π, hπ, hdesc⟩)
      | table i' π' =>
          obtain rfl : i = i' := htask
          obtain ⟨-, -, hπ', hdesc'⟩ := ho'
          rw [hp.space.holdings.tables.tree π π' a (by omega) (by omega) hdesc hdesc']

/-- Only one task has pages of the image to itself, and the pages of the pool are owned. -/
theorem Invariant.mapsOwn_apart (h : Invariant img u s) {j v v' : Nat} (hij : i ≠ j)
    (ha : MapsOwn s i v a) : ¬MapsOwn s j v' a := by
  intro ha'
  by_cases hpool : InPool a
  · exact h.owned.apart i j a hij (h.mapsTo_mem ha.1 hpool) (h.mapsTo_mem ha'.1 hpool)
  -- a page that is not in the pool is mapped by the task that has run `user_test`
  have huser : ∀ {k w : Nat}, MapsOwn s k w a → s.userTask = some k := by
    rintro k w ⟨⟨hlive, hdir, hk⟩, hw, mm, hmm, vma, hvma, hshared, hcov⟩
    obtain ⟨-, hp⟩ := (h.tasks k).process_of_vma hlive hmm hvma
    by_contra hne
    by_cases hlma : vma.lma = noLma
    · exact hpool (hp.space.maps.demand vma hvma hlma w a hw hcov hk)
    · have hstatic := hp.space.maps.static vma hvma hlma w hw hcov
      rw [userFrame, hstatic] at hk
      obtain rfl := Option.some.inj hk
      have := h.pool k hlive hne mm hmm vma hvma ⟨hshared, hlma⟩ (pageAddr w) hcov
      rw [pageAddr_pageAddr] at this
      exact hpool this
  exact hij (Option.some.inj ((huser ha).symm.trans (huser ha')))

theorem Invariant.isolated (h : Invariant img u s) : Isolated s := by
  refine ⟨fun o o' a => h.owner, fun o a ho => h.usedFrame (h.owns_mem ho),
    fun i v a ha hpool => h.usedFrame (h.mapsTo_mem ha hpool),
    fun i j v v' a hij => h.mapsOwn_apart hij, ?_⟩
  intro i π j v a ho ha
  have hmem := h.owns_mem ho
  have hpool := ((h.tasks i).footprint_pool hmem).1
  by_cases hij : i = j
  · subst hij
    obtain ⟨hlive, hdir, hπ, hdesc⟩ := ho
    obtain ⟨mm, hmm, hp⟩ := (h.tasks i).process hlive hdir
    exact hp.space.holdings.tables_mapped v a ha.2.2 ⟨π, hπ, hdesc⟩
  · exact h.owned.apart i j a hij hmem (h.mapsTo_mem ha hpool)

end Invariant

/-- No run reaches the assertion of `free_pages`, and the pages stay apart. -/
theorem reachable_isolated (h : Reachable H img u s) :
    Isolated s ∧ ∀ a, Enabled s a → exec H img u s a ≠ .error .freeOfUnused := by
  refine ⟨h.invariant.isolated, fun a ha hno => ?_⟩
  obtain ⟨j, hsteps⟩ := exec_step (H := H) h.invariant ha
  rw [hno] at hsteps
  rcases hsteps with herr | herr | ⟨s', hok, -⟩
  · cases herr
  · cases herr
  · cases hok

/-- The actions of a parent and its child. -/
def sampleActions : List (Action (List Nat)) :=
  [ .userTest 0, .exception 0 0x20000010, .fork 0 (sampleImage.stack 0 + 3000),
    .brk 1 (sampleImage.stack 1 + 3000) 0x08050000, .exception 1 0x0804F000 ]

theorem sampleRun_isolated :
    ∃ s, runFrom (step sampleHeap sampleImage sampleUser) sampleBoot sampleActions = some s ∧
      Isolated s ∧
      ∀ a, Enabled s a → exec sampleHeap sampleImage sampleUser s a ≠ .error .freeOfUnused := by
  refine runFrom_exists (by decide +kernel) fun s hs => ?_
  exact reachable_isolated ⟨sampleBoot, sampleActions, sampleBoot_boot, hs⟩

end Kernel
end ToutOS
