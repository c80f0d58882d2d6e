import Mathlib.Data.List.Flatten
import ToutOS.Kernel.Space

/-!
# Release — giving pages back

`free_pages` runs into its assertion when a page is not in use.  The functions here free the pages
of a list, one after the other; when the pages of the list are different and in use, they free
exactly these.

* `freed` — `pages_usage` after the pages of a list have been freed;
* `freePageTablesWith` — the traversal of `free_page_tables` with any `free_pages`; `freeCalls` writes its
  calls down;
* `freePagesBlocks_spec`, `freePageTables_spec` — the blocks of a vma, the tables of a directory;
* `exitMm_spec` — a whole address space.
-/

namespace ToutOS
namespace Kernel

open Base Mm

variable {κ : Type} {H : KernelHeap κ}

/-! ## Lists of pages -/

/-- The flags after the pages of `l` have been freed. -/
def freed (usage : PagesUsage) (l : List Nat) : PagesUsage := fun k =>
  if k < maxNumPages ∧ frame k ∈ l then false else usage k

theorem freed_append (usage : PagesUsage) (l₁ l₂ : List Nat) :
    freed (freed usage l₁) l₂ = freed usage (l₁ ++ l₂) := by
  funext k
  simp only [freed, List.mem_append]
  split_ifs <;> tauto

@[simp] theorem freed_nil (usage : PagesUsage) : freed usage [] = usage := by
  funext k
  simp [freed]

/-- The free pages afterwards. -/
theorem freeFrame_freed {usage : PagesUsage} {l : List Nat} {a : Nat} :
    FreeFrame (freed usage l) a → FreeFrame usage a ∨ a ∈ l := by
  rintro ⟨k, hk, hfree, rfl⟩
  simp only [freed] at hfree
  split_ifs at hfree with hmem
  · exact Or.inr hmem.2
  · exact Or.inl ⟨k, hk, hfree, rfl⟩

theorem freeFrame_freed_of_mem {usage : PagesUsage} {l : List Nat} {a : Nat} (hpool : InPool a)
    (hpage : IsPage a) (ha : a ∈ l) : FreeFrame (freed usage l) a := by
  obtain ⟨k, hk, rfl⟩ := exists_frame hpool hpage.1
  exact ⟨k, hk, by simp [freed, hk, ha], rfl⟩

theorem freeFrame_freed_of_free {usage : PagesUsage} {l : List Nat} {a : Nat}
    (h : FreeFrame usage a) : FreeFrame (freed usage l) a := by
  obtain ⟨k, hk, hfree, rfl⟩ := h
  exact ⟨k, hk, by simp [freed, hfree], rfl⟩

theorem not_freeFrame_freed {usage : PagesUsage} {l : List Nat} {a : Nat}
    (h : ¬FreeFrame usage a) (hl : a ∉ l) : ¬FreeFrame (freed usage l) a := fun hfree =>
  (freeFrame_freed hfree).elim h hl

/-- `free_pages` on a block. -/
theorem freePages_block {usage : PagesUsage} {pb : PagesBlock} (hvalid : pb.Valid)
    (hused : ∀ a ∈ pb.frames, ¬FreeFrame usage a) :
    freePages usage pb.linearAddr pb.order = .ok (freed usage pb.frames) := by
  obtain ⟨first, hlin, hend, hpos⟩ := hvalid
  have hframes := PagesBlock.Valid.frames_eq hlin hend hpos
  -- the pages of the block by their numbers
  have hmem : ∀ k, frame k ∈ pb.frames ↔ first ≤ k ∧ k < first + numOfOrder pb.order := by
    intro k
    rw [hframes, List.mem_map]
    constructor
    · rintro ⟨j, hj, heq⟩
      have := frame_inj heq
      have := List.mem_range.1 hj
      omega
    · rintro ⟨h₁, h₂⟩
      refine ⟨k - first, List.mem_range.2 (by omega), ?_⟩
      congr 1
      omega
  rw [hlin, freePages_spec hend hpos]
  · congr 1
    funext k
    simp only [markPages, freed, hmem]
    have hlt : first ≤ k ∧ k < first + numOfOrder pb.order → k < maxNumPages := by omega
    split_ifs <;> tauto
  · intro k h₁ h₂
    exact inPool_usage (by omega) (hused _ ((hmem k).2 ⟨h₁, h₂⟩))

/-- `free_pages_blocks` on blocks of different pages in use. -/
theorem freePagesBlocks_spec :
    ∀ {pbs : List PagesBlock} {usage : PagesUsage}, (∀ pb ∈ pbs, pb.Valid) →
      (pbs.flatMap PagesBlock.frames).Nodup →
      (∀ a ∈ pbs.flatMap PagesBlock.frames, ¬FreeFrame usage a) →
      freePagesBlocks pbs usage = .ok (freed usage (pbs.flatMap PagesBlock.frames)) := by
  intro pbs
  induction pbs with
  | nil =>
      intro usage _ _ _
      simp [freePagesBlocks, pure, Except.pure]
  | cons pb pbs ih =>
      intro usage hvalid hnodup hused
      simp only [List.flatMap_cons, List.nodup_append] at hnodup
      have hfirst := freePages_block (hvalid pb (by simp)) fun a ha => hused a (by simp [ha])
      have hrest := @ih (freed usage pb.frames) (fun p hp => hvalid p (by simp [hp])) hnodup.2.1 (by
        intro a ha
        refine not_freeFrame_freed (hused a ?_) fun hin => hnodup.2.2 a hin a ha rfl
        rw [List.flatMap_cons, List.mem_append]
        exact Or.inr ha)
      simp only [freePagesBlocks, List.foldlM_cons, hfirst, bind, Except.bind] at hrest ⊢
      rw [hrest, freed_append, List.flatMap_cons]

/-- A page as a block. -/
def pageBlock (a : Nat) : PagesBlock := { self := 0, userVirtAddr := 0, linearAddr := va a, order := 0 }

/-- Free the pages of a list. -/
def freeFrames (l : List Nat) (usage : PagesUsage) : Except Halt PagesUsage :=
  freePagesBlocks (l.map pageBlock) usage

theorem va_frame {k : Nat} (h : k < maxNumPages) : va (frame k) = pagePoolStart + pageSize * k := by
  simpa only [linear, if_true] using linear_frame h

theorem pageBlock_valid {a : Nat} (hpool : InPool a) (hpage : IsPage a) :
    (pageBlock a).Valid ∧ (pageBlock a).frames = [a] := by
  obtain ⟨k, hk, rfl⟩ := exists_frame hpool hpage.1
  have hlin := va_frame hk
  have hend : k + numOfOrder 0 ≤ maxNumPages := by
    rw [numOfOrder_zero]
    omega
  have hpos : 0 < numOfOrder 0 := by decide
  refine ⟨⟨k, hlin, hend, hpos⟩, ?_⟩
  rw [@PagesBlock.Valid.frames_eq (pageBlock (frame k)) k hlin hend hpos]
  rfl

theorem freeFrames_spec {l : List Nat} {usage : PagesUsage} (hpool : ∀ a ∈ l, InPool a ∧ IsPage a)
    (hnodup : l.Nodup) (hused : ∀ a ∈ l, ¬FreeFrame usage a) :
    freeFrames l usage = .ok (freed usage l) := by
  have hframes : (l.map pageBlock).flatMap PagesBlock.frames = l := by
    rw [List.flatMap_map]
    calc l.flatMap (fun a => (pageBlock a).frames)
        = l.flatMap fun a => [a] :=
          List.flatMap_congr fun a ha => (pageBlock_valid (hpool a ha).1 (hpool a ha).2).2
      _ = l := List.flatMap_singleton' l
  rw [freeFrames, freePagesBlocks_spec, hframes]
  · intro pb hpb
    obtain ⟨a, ha, rfl⟩ := List.mem_map.1 hpb
    exact (pageBlock_valid (hpool a ha).1 (hpool a ha).2).1
  · rwa [hframes]
  · rwa [hframes]

theorem freeFrames_singleton (a : Nat) (usage : PagesUsage) :
    freeFrames [a] usage = freePages usage (va a) 0 := by
  simp only [freeFrames, freePagesBlocks, List.map_cons, List.map_nil, List.foldlM_cons,
    List.foldlM_nil, pageBlock]
  cases freePages usage (va a) 0 <;> rfl

/-! ## Page tables -/

/-- What the entries of a table point to, listed by `g`. -/
def entriesList (m : Mem) (n : Nat) (g : Nat → List Nat) : List Nat :=
  (List.finRange 512).flatMap fun i => ((ptSlot true m n i).map g).getD []

/-- The pages that `free_page_tables` frees, in its order. -/
def tableList (m : Mem) (d : Nat) : List Nat :=
  entriesList m d (fun t => entriesList m t (fun n => [n]) ++ [t]) ++ [d]

theorem mem_entriesList {m : Mem} {n a : Nat} {g : Nat → List Nat} :
    a ∈ entriesList m n g ↔ ∃ i t, ptSlot true m n i = some t ∧ a ∈ g t := by
  simp only [entriesList, List.mem_flatMap, List.mem_finRange, true_and]
  refine exists_congr fun i => ?_
  cases ptSlot true m n i <;> simp

/-! The traversal is the same for every `free_pages`. -/

section FreeWith

variable {σ : Type}

/-- `freeEntries` with any `free_pages`. -/
def freeEntriesWith (m : Mem) (table : Nat) (free : Nat → σ → Except Halt σ) (s : σ) : Except Halt σ :=
  (List.finRange 512).foldlM (fun s i =>
    let descriptor := load m (entryAddr table i) 8
    if descriptor ≠ 0 then free (va (getPhyAddr descriptor)) s else .ok s) s

/-- `free_page_tables_layer1` with any `free_pages`. -/
def freePageTablesLayer1With (freePages : Nat → Nat → σ → Except Halt σ) (m : Mem) (pageTable : Nat)
    (s : σ) : Except Halt σ :=
  if pageTable = 0 then .ok s
  else
    (freeEntriesWith m pageTable (fun entry s => freePages entry 0 s) s).bind fun s =>
      freePages pageTable 0 s

/-- `free_page_tables` with any `free_pages`. -/
def freePageTablesWith (freePages : Nat → Nat → σ → Except Halt σ) (m : Mem) (pgDir : Nat) (s : σ) :
    Except Halt σ :=
  if pgDir = 0 then .ok s
  else
    (freeEntriesWith m pgDir (freePageTablesLayer1With freePages m) s).bind fun s => freePages pgDir 0 s

theorem freePageTables_eq_with (m : Mem) (pgDir : Nat) (usage : PagesUsage) :
    freePageTables m pgDir usage =
      freePageTablesWith (fun addr order usage => freePages usage addr order) m pgDir usage := rfl

/-- A loop over the entries visits the pages of a list if its body does. -/
theorem freeEntriesWith_eq {m : Mem} {n : Nat} {free each : Nat → σ → Except Halt σ} {g : Nat → List Nat}
    (h : ∀ i t s, ptSlot true m n i = some t → free (va t) s = (g t).foldlM (fun s a => each a s) s)
    (s : σ) :
    freeEntriesWith m (linear true n) free s = (entriesList m n g).foldlM (fun s a => each a s) s := by
  unfold freeEntriesWith entriesList
  induction List.finRange 512 generalizing s with
  | nil => rfl
  | cons i l ih =>
      rw [List.foldlM_cons, List.flatMap_cons, List.foldlM_append]
      -- one entry
      have hentry : (if load m (entryAddr (linear true n) i) 8 ≠ 0 then
            free (va (getPhyAddr (load m (entryAddr (linear true n) i) 8))) s
          else .ok s) = (((ptSlot true m n i).map g).getD []).foldlM (fun s a => each a s) s := by
        by_cases hzero : load m (entryAddr (linear true n) i) 8 = 0
        · have hslot : ptSlot true m n i = none := by simp [ptSlot, hzero]
          simp [hzero, hslot, pure, Except.pure]
        · have hslot : ptSlot true m n i =
              some (getPhyAddr (load m (entryAddr (linear true n) i) 8)) := by simp [ptSlot, hzero]
          rw [if_pos hzero, h i _ s hslot, hslot]
          rfl
      dsimp only
      rw [hentry]
      exact bind_congr fun s' => ih s'

theorem foldlM_single (freePages : Nat → Nat → σ → Except Halt σ) (l : List Nat) (a : Nat) (s : σ) :
    (l ++ [a]).foldlM (fun s a => freePages (va a) 0 s) s =
      (l.foldlM (fun s a => freePages (va a) 0 s) s).bind fun s => freePages (va a) 0 s := by
  rw [List.foldlM_append]
  cases l.foldlM (fun s a => freePages (va a) 0 s) s with
  | error e => rfl
  | ok s' =>
      change ([a].foldlM (fun s a => freePages (va a) 0 s) s') = freePages (va a) 0 s'
      rw [List.foldlM_cons]
      exact bind_pure _

/-- The tables are visited in the order of `tableList`, with order 0. -/
theorem freePageTablesWith_eq {m : Mem} {d : Nat} (hpool : ∀ n ∈ tableFrames m d, InPool n)
    (freePages : Nat → Nat → σ → Except Halt σ) (s : σ) :
    freePageTablesWith freePages m (linear true d) s =
      (tableList m d).foldlM (fun s a => freePages (va a) 0 s) s := by
  have hlin : linear true d = va d := by simp only [linear, if_true]
  have hd : linear true d ≠ 0 := hlin ▸ ne_zero_of_inPool (hpool d (root_mem_tableFrames m d))
  -- the tables of the middle level
  have hlayer1 : ∀ i t s, ptSlot true m d i = some t →
      freePageTablesLayer1With freePages m (va t) s =
        (entriesList m t (fun n => [n]) ++ [t]).foldlM (fun s a => freePages (va a) 0 s) s := by
    intro i t s ht
    have hne := ne_zero_of_inPool (hpool t ⟨[i], by simp, by simp [descend, ht]⟩)
    have hlint : va t = linear true t := by simp only [linear, if_true]
    have hbody : freeEntriesWith m (linear true t) (fun entry s => freePages entry 0 s) s =
        (entriesList m t fun n => [n]).foldlM (fun s a => freePages (va a) 0 s) s :=
      freeEntriesWith_eq (fun j n s _ => by simp) s
    rw [freePageTablesLayer1With, if_neg hne, hlint, hbody, ← hlint, foldlM_single]
  rw [freePageTablesWith, if_neg hd, freeEntriesWith_eq hlayer1, tableList, foldlM_single, hlin]

end FreeWith

/-- The calls of `free_pages` that `free_page_tables` makes. -/
def freeCalls (m : Mem) (pgDir : Nat) : Except Halt (List (Nat × Nat)) :=
  freePageTablesWith (fun addr order calls => .ok (calls ++ [(addr, order)])) m pgDir []

section Tables

variable {m : Mem} {d : Nat}

theorem freeCalls_eq (hpool : ∀ n ∈ tableFrames m d, InPool n) :
    freeCalls m (linear true d) = .ok ((tableList m d).map fun a => (va a, 0)) := by
  have hlog : ∀ (l : List Nat) (calls : List (Nat × Nat)),
      l.foldlM (fun calls a => (.ok (calls ++ [(va a, 0)]) : Except Halt (List (Nat × Nat)))) calls =
        .ok (calls ++ l.map fun a => (va a, 0)) := by
    intro l
    induction l with
    | nil =>
        intro calls
        rw [List.map_nil, List.append_nil]
        rfl
    | cons a l ih =>
        intro calls
        rw [List.map_cons, List.append_cons, ← ih]
        rfl
  rw [freeCalls, freePageTablesWith_eq hpool, hlog, List.nil_append]

theorem freeFrames_eq_foldlM (l : List Nat) (usage : PagesUsage) :
    freeFrames l usage = l.foldlM (fun usage a => freePages usage (va a) 0) usage := by
  rw [freeFrames, freePagesBlocks, List.foldlM_map]
  rfl

/-- `free_page_tables` frees the tables of a list. -/
theorem freePageTables_eq (hpool : ∀ n ∈ tableFrames m d, InPool n) (usage : PagesUsage) :
    freePageTables m (linear true d) usage = freeFrames (tableList m d) usage := by
  rw [freePageTables_eq_with, freePageTablesWith_eq hpool, freeFrames_eq_foldlM]

theorem mem_tableList {a : Nat} : a ∈ tableList m d ↔ a ∈ tableFrames m d := by
  simp only [tableList, List.mem_append, mem_entriesList, List.mem_singleton]
  constructor
  · rintro (⟨i, t, ht, ⟨j, n, hn, rfl⟩ | rfl⟩ | rfl)
    · exact ⟨[i, j], by simp, by simp [descend, ht, hn]⟩
    · exact ⟨[i], by simp, by simp [descend, ht]⟩
    · exact root_mem_tableFrames m a
  · -- a path of fewer than three indices
    rintro ⟨π, hπ, ha⟩
    rcases π with _ | ⟨i, _ | ⟨j, _ | ⟨k, π⟩⟩⟩
    · simp only [descend, Option.some.injEq] at ha
      exact Or.inr ha.symm
    · simp only [descend, Option.bind_eq_some_iff, Option.some.injEq] at ha
      obtain ⟨t, ht, rfl⟩ := ha
      exact Or.inl ⟨i, t, ht, Or.inr rfl⟩
    · simp only [descend, Option.bind_eq_some_iff, Option.some.injEq] at ha
      obtain ⟨t, ht, n, hn, rfl⟩ := ha
      exact Or.inl ⟨i, t, ht, Or.inl ⟨j, n, hn, rfl⟩⟩
    · simp only [List.length_cons] at hπ
      omega

/-- No table is freed twice, since no table is shared. -/
theorem nodup_tableList (htree : TreeLike (ptSlot true m) d 3) : (tableList m d).Nodup := by
  -- the paths of the tables of the middle and of the last level
  have hmid : ∀ i t, ptSlot true m d i = some t → descend (ptSlot true m) d [i] = some t := by
    intro i t ht
    simp [descend, ht]
  have hlast : ∀ i t j n, ptSlot true m d i = some t → ptSlot true m t j = some n →
      descend (ptSlot true m) d [i, j] = some n := by
    intro i t j n ht hn
    simp [descend, ht, hn]
  have hinner : ∀ i t, ptSlot true m d i = some t → (entriesList m t (fun n => [n]) ++ [t]).Nodup := by
    intro i t ht
    rw [List.nodup_append]
    refine ⟨?_, List.nodup_singleton t, ?_⟩
    · rw [entriesList, List.nodup_flatMap]
      refine ⟨fun j _ => by cases ptSlot true m t j <;> simp, ?_⟩
      refine (List.nodup_finRange 512).imp fun {j k} hjk => ?_
      intro a hj hk
      cases hsj : ptSlot true m t j with
      | none => simp [hsj] at hj
      | some x =>
          cases hsk : ptSlot true m t k with
          | none => simp [hsk] at hk
          | some y =>
              simp only [hsj, hsk, Option.map_some, Option.getD_some, List.mem_singleton] at hj hk
              subst hj hk
              have := htree [i, j] [i, k] _ (by simp) (by simp) (hlast i t j _ ht hsj)
                (hlast i t k _ ht hsk)
              simp at this
              exact hjk this
    · rintro a ha b hb rfl
      rw [List.mem_singleton] at hb
      subst hb
      obtain ⟨j, n, hn, ha⟩ := mem_entriesList.1 ha
      rw [List.mem_singleton] at ha
      subst ha
      have := htree [i, j] [i] _ (by simp) (by simp) (hlast i _ j _ ht hn) (hmid i _ ht)
      simp at this
  -- an element of the list of entry `i` has a path that begins with `i`
  have hpath : ∀ i a, a ∈ ((ptSlot true m d i).map fun t =>
      entriesList m t (fun n => [n]) ++ [t]).getD [] →
      ∃ π : List (Fin 512), π.length < 2 ∧ descend (ptSlot true m) d (i :: π) = some a := by
    intro i a ha
    cases ht : ptSlot true m d i with
    | none => simp [ht] at ha
    | some t =>
        simp only [ht, Option.map_some, Option.getD_some, List.mem_append, mem_entriesList,
          List.mem_singleton] at ha
        rcases ha with ⟨j, n, hn, rfl⟩ | rfl
        · exact ⟨[j], by simp, hlast i t j a ht hn⟩
        · exact ⟨[], by simp, hmid i a ht⟩
  rw [tableList, List.nodup_append]
  refine ⟨?_, List.nodup_singleton d, ?_⟩
  · rw [entriesList, List.nodup_flatMap]
    constructor
    · intro i _
      cases ht : ptSlot true m d i with
      | none => simp
      | some t => exact hinner i t ht
    · refine (List.nodup_finRange 512).imp fun {i j} hij => ?_
      intro a hi hj
      obtain ⟨π, hπ, hdπ⟩ := hpath i a hi
      obtain ⟨ρ, hρ, hdρ⟩ := hpath j a hj
      have := htree (i :: π) (j :: ρ) a (by simp; omega) (by simp; omega) hdπ hdρ
      exact hij (List.cons.inj this).1
  · rintro a ha b hb rfl
    rw [List.mem_singleton] at hb
    subst hb
    obtain ⟨i, -, ha⟩ := List.mem_flatMap.1 ha
    obtain ⟨π, hπ, hdπ⟩ := hpath i _ ha
    have := htree (i :: π) [] _ (by simp; omega) (by simp) hdπ rfl
    cases this

/-- `free_page_tables` frees the tables that are in use, each once. -/
theorem freePageTables_spec {usage : PagesUsage} (htables : PtWf true m d (tableFrames m d))
    (hpool : ∀ n ∈ tableFrames m d, InPool n) (hused : ∀ n ∈ tableFrames m d, ¬FreeFrame usage n) :
    freePageTables m (linear true d) usage = .ok (freed usage (tableList m d)) := by
  rw [freePageTables_eq hpool]
  refine freeFrames_spec ?_ (nodup_tableList htables.tree) fun a ha => hused a (mem_tableList.1 ha)
  intro a ha
  exact ⟨hpool a (mem_tableList.1 ha), htables.pages a (mem_tableList.1 ha)⟩

end Tables

/-! ## A whole address space -/

/-- The pages of the blocks that `exit_mm` gives back: those of the vmas that are not shared. -/
def ownFrames (mmap : List VmArea) : List Nat := blockFrames (mmap.filter fun vma => !vma.shared)

theorem ownFrames_sublist (mmap : List VmArea) : (ownFrames mmap).Sublist (blockFrames mmap) :=
  (List.Sublist.flatMap List.filter_sublist _).flatMap _

theorem ownFrames_cons (vma : VmArea) (mmap : List VmArea) :
    ownFrames (vma :: mmap) =
      (if vma.shared then [] else vma.pagesBlockList.flatMap PagesBlock.frames) ++ ownFrames mmap := by
  by_cases hshared : vma.shared = true
  · simp [ownFrames, hshared]
  · simp [ownFrames, hshared, blockFrames, blocks]

/-- The vmas that are not shared give back their blocks. -/
theorem exitVmas_spec :
    ∀ {mmap : List VmArea} {vm : VmState κ}, (∀ pb ∈ blocks mmap, pb.Valid) →
      (blockFrames mmap).Nodup → (∀ a ∈ blockFrames mmap, ¬FreeFrame vm.pagesUsage a) →
      ∃ heap, exitVmas H mmap vm =
        .ok { vm with pagesUsage := freed vm.pagesUsage (ownFrames mmap), heap := heap } := by
  intro mmap
  induction mmap with
  | nil =>
      intro vm _ _ _
      exact ⟨vm.heap, by simp [exitVmas, ownFrames, blockFrames, blocks]⟩
  | cons vma mmap ih =>
      intro vm hvalid hnodup hused
      have hsplit : blockFrames (vma :: mmap) =
          vma.pagesBlockList.flatMap PagesBlock.frames ++ blockFrames mmap := by
        simp [blockFrames, blocks]
      rw [hsplit] at hnodup hused
      obtain ⟨hnodup₁, hnodup₂, hdisj⟩ := List.nodup_append.1 hnodup
      have hrest : ∀ pb ∈ blocks mmap, pb.Valid := fun pb hpb => hvalid pb (by
        simp only [blocks, List.flatMap_cons, List.mem_append] at hpb ⊢
        exact Or.inr hpb)
      rw [ownFrames_cons]
      by_cases hshared : vma.shared = true
      · -- the blocks of a shared vma are not given back
        obtain ⟨heap, hexit⟩ := @ih { vm with heap := H.kfree vm.heap vma.self } hrest hnodup₂
          fun a ha => hused a (List.mem_append_right _ ha)
        refine ⟨heap, ?_⟩
        simpa [exitVmas, hshared, Except.bind] using hexit
      · have hblocks : freePagesBlocks vma.pagesBlockList vm.pagesUsage =
            .ok (freed vm.pagesUsage (vma.pagesBlockList.flatMap PagesBlock.frames)) := by
          refine freePagesBlocks_spec (fun pb hpb => hvalid pb ?_) hnodup₁ fun a ha =>
            hused a (List.mem_append_left _ ha)
          simp only [blocks, List.flatMap_cons, List.mem_append]
          exact Or.inl hpb
        obtain ⟨heap, hexit⟩ := @ih
          { vm with
            pagesUsage := freed vm.pagesUsage (vma.pagesBlockList.flatMap PagesBlock.frames)
            heap := H.kfree vm.heap vma.self } hrest hnodup₂ (by
          intro a ha
          refine not_freeFrame_freed (hused a (List.mem_append_right _ ha)) fun hin => ?_
          exact hdisj a hin a ha rfl)
        refine ⟨heap, ?_⟩
        simp only [exitVmas, hshared, hblocks, Except.bind, Bool.false_eq_true, if_false]
        rw [hexit, freed_append]

theorem exitMm_eq {pgDir : Nat} {mm : MmStruct} {vm vm' : VmState κ} {usage : PagesUsage}
    (hvmas : exitVmas H mm.mmap vm = .ok vm')
    (htables : freePageTables vm'.mem pgDir vm'.pagesUsage = .ok usage) :
    exitMm H pgDir (some mm) vm =
      .ok { vm' with pagesUsage := usage, heap := H.kfree vm'.heap mm.self } := by
  simp only [exitMm, hvmas, except_bind_ok, htables, except_map_ok]

/-- `exit_mm` on an address space whose pages are in use gives back pages of it, and reaches no
assertion. -/
theorem exitMm_spec {d : Nat} {mm : MmStruct} {vm : VmState κ} (h : Holdings vm.mem d mm.mmap)
    (hused : ∀ a ∈ footprint vm.mem d mm.mmap, ¬FreeFrame vm.pagesUsage a) :
    ∃ vm', exitMm H (linear true d) (some mm) vm = .ok vm' ∧ vm'.mem = vm.mem ∧
      vm'.pagesUsage = freed vm.pagesUsage (ownFrames mm.mmap ++ tableList vm.mem d) ∧
      Local pageOf (footprint vm.mem d mm.mmap) ∅ vm.world vm'.world := by
  have hl := ownFrames_sublist mm.mmap
  obtain ⟨heap, hexit⟩ := exitVmas_spec (H := H) h.blocks_valid h.blocks_nodup fun a ha =>
    hused a (Or.inr (Or.inl ha))
  have htables_used : ∀ n ∈ tableFrames vm.mem d,
      ¬FreeFrame (freed vm.pagesUsage (ownFrames mm.mmap)) n := fun n hn =>
    not_freeFrame_freed (hused n (Or.inl hn)) fun hin => h.tables_blocks n hn (hl.subset hin)
  have htables := freePageTables_spec h.tables h.tables_pool htables_used
  refine ⟨{ mem := vm.mem
            pagesUsage := freed (freed vm.pagesUsage (ownFrames mm.mmap)) (tableList vm.mem d)
            heap := H.kfree heap mm.self }, ?_, rfl, freed_append _ _ _, ?_⟩
  · exact exitMm_eq hexit htables
  · refine ⟨fun _ _ _ => rfl, fun a ha => ha.elim, fun a ha => ?_, fun a ha => ha.elim⟩
    change FreeFrame (freed (freed vm.pagesUsage (ownFrames mm.mmap)) (tableList vm.mem d)) a at ha
    rw [freed_append] at ha
    rcases freeFrame_freed ha with ha | ha
    · exact Or.inl ha
    · rcases List.mem_append.1 ha with ha | ha
      · exact Or.inr (Or.inr (Or.inl (hl.subset ha)))
      · exact Or.inr (Or.inl (mem_tableList.1 ha))

/-- Everything that `exit_mm` gives back. -/
structure Returnable (m : Mem) (d : Nat) (mmap : List VmArea) : Prop where
  unshared : ∀ x ∈ mmap, x.shared = true → x.pagesBlockList = []
  listed : ∀ v a, lookup true m d v = some a → InPool a → a ∈ blockFrames mmap

theorem ownFrames_eq {mmap : List VmArea} (h : ∀ x ∈ mmap, x.shared = true → x.pagesBlockList = []) :
    ownFrames mmap = blockFrames mmap := by
  induction mmap with
  | nil => rfl
  | cons x mmap ih =>
      have hsplit : blockFrames (x :: mmap) =
          x.pagesBlockList.flatMap PagesBlock.frames ++ blockFrames mmap := by
        simp [blockFrames, blocks]
      rw [ownFrames_cons, ih fun y hy => h y (by simp [hy]), hsplit]
      by_cases hshared : x.shared = true
      · rw [if_pos hshared, h x (by simp) hshared, List.flatMap_nil]
      · rw [if_neg hshared]

/-- An address space that is known to its blocks and tables is given back as a whole. -/
theorem exit_lossless {d : Nat} {mmap : List VmArea} {vm vm' : VmState κ}
    (h : Holdings vm.mem d mmap) (hret : Returnable vm.mem d mmap)
    (husage : vm'.pagesUsage = freed vm.pagesUsage (ownFrames mmap ++ tableList vm.mem d)) :
    Lossless (footprint vm.mem d mmap) ∅ vm.world vm'.world := by
  rintro a ha
  refine Or.inl ?_
  change FreeFrame vm'.pagesUsage a
  rw [husage]
  rcases ha with ha | ha
  · exact freeFrame_freed_of_free ha
  · obtain ⟨hpool, hpage⟩ := h.footprint_pool ha
    refine freeFrame_freed_of_mem hpool hpage (List.mem_append.2 ?_)
    rw [ownFrames_eq hret.unshared]
    rcases ha with ha | ha | ⟨-, v, ha⟩
    · exact Or.inr (mem_tableList.2 ha)
    · exact Or.inl ha
    · exact Or.inl (hret.listed v a ha hpool)

/-- `exit_mm` of a task without user memory. -/
theorem exitMm_kernel {mm : MmStruct} {vm : VmState κ} (h : mm.mmap = []) :
    exitMm H 0 (some mm) vm = .ok { vm with heap := H.kfree vm.heap mm.self } := by
  simp [exitMm, h, exitVmas, freePageTables, Except.bind, Except.map]

end Kernel
end ToutOS
