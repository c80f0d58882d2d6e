import Mathlib.Data.Set.Insert
import ToutOS.Base.Radix
import ToutOS.Mm.PageTable

/-!
# PageTableSpec — page tables as radix trees

`ptSlot` reads a table in memory as a node of a graph whose nodes are physical addresses, and
`lookup` follows the three indices of a virtual address.  `PtWf` collects what keeps a table
intact: no table is shared, and all tables are pages of a known set.

* `ptWf_frame`, `lookup_frame` — writes elsewhere do not matter;
* `fillTable_spec`, `fillLeaf_spec` — one new entry;
* `setupPgForAddr_spec` — one page is mapped, all others stay as they were;
* `addSingleMap_spec` — the same for a range of pages.
-/

namespace ToutOS
namespace Mm

open Base

/-! ## The tree in memory -/

/-- The table or page that entry `i` of the table at the physical address `n` points to. -/
def ptSlot (mmuOn : Bool) (m : Mem) (n : Nat) (i : Fin 512) : Option Nat :=
  let descriptor := load m (entryAddr (linear mmuOn n) i) 8
  if descriptor = 0 then none else some (getPhyAddr descriptor)

/-- The indices of a virtual address, from the top level down. -/
def pathOf (virtAddr : Nat) : List (Fin 512) := layers.map (getPgEntryIndex virtAddr)

/-- The page that `virtAddr` is mapped to in the table with root `d`, if all three entries are
filled. -/
def lookup (mmuOn : Bool) (m : Mem) (d virtAddr : Nat) : Option Nat :=
  descend (ptSlot mmuOn m) d (pathOf virtAddr)

/-- A set of physical pages. -/
def Pages (T : Set Nat) : Prop := ∀ n ∈ T, pageSize ∣ n ∧ n < 2 ^ 64

/-- The tables of the tree with root `d` are not shared and belong to `T`. -/
structure PtWf (mmuOn : Bool) (m : Mem) (d : Nat) (T : Set Nat) : Prop where
  tree : TreeLike (ptSlot mmuOn m) d 3
  tables : ∀ π n, π.length < 3 → descend (ptSlot mmuOn m) d π = some n → n ∈ T
  pages : Pages T

/-- `n` is one of the tables of the tree with root `d`. -/
def Reached (mmuOn : Bool) (m : Mem) (d n : Nat) : Prop :=
  ∃ π : List (Fin 512), π.length < 3 ∧ descend (ptSlot mmuOn m) d π = some n

/-- `x` lies in the page at the physical address `n`. -/
def InPage (mmuOn : Bool) (n x : Nat) : Prop := linear mmuOn n ≤ x ∧ x < linear mmuOn n + pageSize

variable {mmuOn : Bool} {m m' : Mem} {d : Nat} {T : Set Nat}

theorem length_pathOf (virtAddr : Nat) : (pathOf virtAddr).length = 3 := rfl

/-- Different pages do not overlap. -/
theorem inPage_unique {n n' x : Nat} (hn : pageSize ∣ n ∧ n < 2 ^ 64)
    (hn' : pageSize ∣ n' ∧ n' < 2 ^ 64) (h : InPage mmuOn n x) (h' : InPage mmuOn n' x) :
    n = n' := by
  refine linear_inj mmuOn hn.2 hn'.2 ?_
  have h₁ := dvd_linear mmuOn hn.1
  have h₂ := dvd_linear mmuOn hn'.1
  simp only [InPage, pageSize] at *
  omega

theorem inPage_entry {n x : Nat} {i : Fin 512} (h₁ : entryAddr (linear mmuOn n) i ≤ x)
    (h₂ : x < entryAddr (linear mmuOn n) i + 8) : InPage mmuOn n x := by
  have := i.isLt
  simp only [entryAddr] at h₁ h₂
  simp only [InPage, pageSize]
  omega

theorem ptSlot_congr {n : Nat} (h : ∀ x, InPage mmuOn n x → m' x = m x) (i : Fin 512) :
    ptSlot mmuOn m' n i = ptSlot mmuOn m n i := by
  have hload : load m' (entryAddr (linear mmuOn n) i) 8 = load m (entryAddr (linear mmuOn n) i) 8 :=
    load_congr fun x h₁ h₂ => h x (inPage_entry h₁ h₂)
  simp only [ptSlot, hload]

theorem ptSlot_zero {n : Nat} (h : ∀ x, InPage mmuOn n x → m x = 0) (i : Fin 512) :
    ptSlot mmuOn m n i = none := by
  have hload : load m (entryAddr (linear mmuOn n) i) 8 = 0 :=
    load_zero fun x h₁ h₂ => h x (inPage_entry h₁ h₂)
  simp [ptSlot, hload]

theorem agreeWithin_frame (h : PtWf mmuOn m d T) (hsame : ∀ n ∈ T, ∀ x, InPage mmuOn n x → m' x = m x) :
    AgreeWithin (ptSlot mmuOn m) (ptSlot mmuOn m') d 3 fun _ _ => True :=
  fun π n i hπ hn _ => ptSlot_congr (hsame n (h.tables π n hπ hn)) i

/-- A table does not change when its pages do not. -/
theorem ptWf_frame (h : PtWf mmuOn m d T) (hsame : ∀ n ∈ T, ∀ x, InPage mmuOn n x → m' x = m x) :
    PtWf mmuOn m' d T := by
  have hdesc : ∀ π : List (Fin 512), π.length < 3 →
      descend (ptSlot mmuOn m') d π = descend (ptSlot mmuOn m) d π := fun π hπ =>
    descend_frame (agreeWithin_frame h hsame) (Nat.le_of_lt hπ)
  refine ⟨?_, ?_, h.pages⟩
  · intro π ρ n hπ hρ h₁ h₂
    rw [hdesc π hπ] at h₁
    rw [hdesc ρ hρ] at h₂
    exact h.tree π ρ n hπ hρ h₁ h₂
  · intro π n hπ hn
    rw [hdesc π hπ] at hn
    exact h.tables π n hπ hn

theorem lookup_frame (h : PtWf mmuOn m d T) (hsame : ∀ n ∈ T, ∀ x, InPage mmuOn n x → m' x = m x)
    (virtAddr : Nat) : lookup mmuOn m' d virtAddr = lookup mmuOn m d virtAddr :=
  descend_frame (agreeWithin_frame h hsame) (Nat.le_of_eq (length_pathOf virtAddr))

/-- An empty directory. -/
theorem ptWf_empty (hd : d ∈ T) (hT : Pages T) (hzero : ∀ x, InPage mmuOn d x → m x = 0) :
    PtWf mmuOn m d T ∧ ∀ virtAddr, lookup mmuOn m d virtAddr = none := by
  have hnone : ∀ i π, descend (ptSlot mmuOn m) d (i :: π) = none := by
    intro i π
    simp [descend, ptSlot_zero hzero]
  refine ⟨⟨?_, ?_, hT⟩, fun virtAddr => hnone _ _⟩
  · intro π ρ n _ _ h₁ h₂
    cases π with
    | nil =>
        cases ρ with
        | nil => rfl
        | cons i ρ => simp [hnone] at h₂
    | cons i π => simp [hnone] at h₁
  · intro π n _ hn
    cases π with
    | nil =>
        cases hn
        exact hd
    | cons i π => simp [hnone] at hn

/-! ## One entry -/

/-- Writing an entry of a table. -/
theorem ptSlot_store {t e : Nat} {i : Fin 512} (ht : t ∈ T) (hT : Pages T) (he : e < 2 ^ 64) :
    ptSlot mmuOn (store m (entryAddr (linear mmuOn t) i) 8 e) t i =
        (if e = 0 then none else some (getPhyAddr e)) ∧
      ∀ n ∈ T, ∀ j, ¬(n = t ∧ j = i) →
        ptSlot mmuOn (store m (entryAddr (linear mmuOn t) i) 8 e) n j = ptSlot mmuOn m n j := by
  constructor
  · simp only [ptSlot, load_store_same (show e < 256 ^ 8 by simpa using he)]
  · intro n hn j hne
    have hload : load (store m (entryAddr (linear mmuOn t) i) 8 e) (entryAddr (linear mmuOn n) j) 8 =
        load m (entryAddr (linear mmuOn n) j) 8 := by
      refine load_store_ne ?_
      -- another page, or another entry of the same one
      by_cases hnt : n = t
      · have hji : j.val ≠ i.val := fun h => hne ⟨hnt, Fin.ext h⟩
        simp only [entryAddr, hnt]
        omega
      · have hlin : linear mmuOn n ≠ linear mmuOn t := fun h =>
          hnt (linear_inj mmuOn (hT n hn).2 (hT t ht).2 h)
        have h₁ := dvd_linear mmuOn (hT n hn).1
        have h₂ := dvd_linear mmuOn (hT t ht).1
        have hi := i.isLt
        have hj := j.isLt
        simp only [entryAddr, pageSize] at *
        omega
    simp only [ptSlot, hload]

theorem agreeExcept_store {t e : Nat} {i : Fin 512} (h : PtWf mmuOn m d T) (ht : t ∈ T)
    (he : e < 2 ^ 64) :
    AgreeExcept (ptSlot mmuOn m) (ptSlot mmuOn (store m (entryAddr (linear mmuOn t) i) 8 e)) d 3
      t i :=
  fun π n j hπ hn hne => (ptSlot_store ht h.pages he).2 n (h.tables π n hπ hn) j hne

/-- Changing an entry of a table of the last level: the tables stay where they are. -/
theorem storeLeaf_short {t e : Nat} {i : Fin 512} {π ρ : List (Fin 512)} (h : PtWf mmuOn m d T)
    (hπ : descend (ptSlot mmuOn m) d π = some t) (hlen : π.length = 2) (he : e < 2 ^ 64)
    (hρ : ρ.length < 3) :
    descend (ptSlot mmuOn (store m (entryAddr (linear mmuOn t) i) 8 e)) d ρ =
      descend (ptSlot mmuOn m) d ρ := by
  have ht : t ∈ T := h.tables π t (by omega) hπ
  refine descend_set_other h.tree (agreeExcept_store (i := i) h ht he) hπ (by omega) (by omega) ?_
  intro hthru
  have := hthru.length_le
  simp only [List.length_append, List.length_cons, List.length_nil] at this
  omega

/-- Changing an entry of a table of the last level: only the page it stands for is affected. -/
theorem storeLeaf_spec {t e : Nat} {i : Fin 512} {π : List (Fin 512)} (h : PtWf mmuOn m d T)
    (hπ : descend (ptSlot mmuOn m) d π = some t) (hlen : π.length = 2) (he : e < 2 ^ 64) :
    PtWf mmuOn (store m (entryAddr (linear mmuOn t) i) 8 e) d T ∧
      ∀ ρ : List (Fin 512), ρ.length = 3 →
        descend (ptSlot mmuOn (store m (entryAddr (linear mmuOn t) i) 8 e)) d ρ =
          if ρ = π ++ [i] then (if e = 0 then none else some (getPhyAddr e))
          else descend (ptSlot mmuOn m) d ρ := by
  have ht : t ∈ T := h.tables π t (by omega) hπ
  have hagree := agreeExcept_store (i := i) h ht he
  refine ⟨⟨treeLike_set_leaf h.tree hagree hπ (by omega), ?_, h.pages⟩, ?_⟩
  · intro ρ n hρ hn
    rw [storeLeaf_short h hπ hlen he hρ] at hn
    exact h.tables ρ n hρ hn
  · intro ρ hρ
    split_ifs with heq hzero
    · subst heq
      rw [descend_set_self h.tree hagree hπ (by omega), (ptSlot_store ht h.pages he).1, if_pos hzero]
    · subst heq
      rw [descend_set_self h.tree hagree hπ (by omega), (ptSlot_store ht h.pages he).1,
        if_neg hzero]
    · refine descend_set_other h.tree hagree hπ (by omega) (by omega) ?_
      intro hthru
      exact heq (hthru.eq_of_length (by simp [hlen, hρ])).symm

/-- Hanging a fresh page of zeros into an empty entry of an upper level: no page is affected. -/
theorem storeTable_spec {t p attrs : Nat} {i : Fin 512} {π : List (Fin 512)}
    (h : PtWf mmuOn m d T) (hπ : descend (ptSlot mmuOn m) d π = some t) (hlen : π.length < 2)
    (hempty : ptSlot mmuOn m t i = none) (hphys : PhysOk (physical mmuOn p)) (hp : p < 2 ^ 64)
    (hattrs : AttrsOk attrs) (h64 : attrs < 2 ^ 64) (hfresh : physical mmuOn p ∉ T)
    (hzero : ∀ x, p ≤ x → x < p + pageSize → m' x = 0)
    (hsame : ∀ x, x < p ∨ p + pageSize ≤ x → m' x = m x) :
    ∃ m'', m'' = store m' (entryAddr (linear mmuOn t) i) 8 (descriptor (physical mmuOn p) attrs) ∧
      PtWf mmuOn m'' d (insert (physical mmuOn p) T) ∧
      descend (ptSlot mmuOn m'') d (π ++ [i]) = some (physical mmuOn p) ∧
      ptSlot mmuOn m'' t i = some (physical mmuOn p) ∧
      ∀ ρ : List (Fin 512), ρ.length ≤ 3 → ρ ≠ π ++ [i] →
        descend (ptSlot mmuOn m'') d ρ = descend (ptSlot mmuOn m) d ρ := by
  have hlin : linear mmuOn (physical mmuOn p) = p := linear_physical hp
  have hpages : Pages (insert (physical mmuOn p) T) := by
    intro n hn
    rcases hn with rfl | hn
    · exact ⟨hphys.1, physical_lt hp⟩
    · exact h.pages n hn
  -- the tables there are do not notice the new page
  have hout : ∀ n ∈ T, ∀ x, InPage mmuOn n x → m' x = m x := by
    intro n hn x hx
    by_contra hne
    have hin : InPage mmuOn (physical mmuOn p) x := by
      simp only [InPage, hlin]
      by_contra hno
      exact hne (hsame x (by omega))
    have heq := inPage_unique (h.pages n hn) ⟨hphys.1, physical_lt hp⟩ hx hin
    exact hfresh (heq ▸ hn)
  have hwf : PtWf mmuOn m' d T := ptWf_frame h hout
  have hdesc : ∀ ρ : List (Fin 512), ρ.length ≤ 3 →
      descend (ptSlot mmuOn m') d ρ = descend (ptSlot mmuOn m) d ρ := fun ρ hρ =>
    descend_frame (agreeWithin_frame h hout) hρ
  have hπ' : descend (ptSlot mmuOn m') d π = some t := by rw [hdesc π (by omega), hπ]
  have ht : t ∈ T := h.tables π t (by omega) hπ
  have he := descriptor_lt hphys h64
  have hagree := agreeExcept_store (i := i) hwf ht he
  have hself : ptSlot mmuOn (store m' (entryAddr (linear mmuOn t) i) 8
      (descriptor (physical mmuOn p) attrs)) t i = some (physical mmuOn p) := by
    rw [(ptSlot_store ht h.pages he).1, if_neg (descriptor_ne_zero _ _),
      getPhyAddr_descriptor hphys hattrs]
  have hnew : ∀ j, ptSlot mmuOn (store m' (entryAddr (linear mmuOn t) i) 8
      (descriptor (physical mmuOn p) attrs)) (physical mmuOn p) j = none := by
    intro j
    rw [(ptSlot_store (Set.mem_insert_of_mem _ ht) hpages he).2 _ (Set.mem_insert _ _) j]
    · exact ptSlot_zero (fun x hx => hzero x (by simpa only [hlin] using hx.1)
        (by simpa only [hlin] using hx.2)) j
    · rintro ⟨heq, -⟩
      exact hfresh (heq ▸ ht)
  have hfresh' : ∀ ρ : List (Fin 512), ρ.length < 3 →
      descend (ptSlot mmuOn m') d ρ ≠ some (physical mmuOn p) := fun ρ hρ hn =>
    hfresh (hwf.tables ρ _ hρ hn)
  have hbelow := descend_below_node hwf.tree hagree hπ' (by omega) hself hnew
  refine ⟨_, rfl, ⟨treeLike_set_node hwf.tree hagree hπ' (by omega) hself hnew hfresh', ?_, hpages⟩,
    ?_, hself, ?_⟩
  · intro ρ n hρ hn
    by_cases hthru : π ++ [i] <+: ρ
    · obtain ⟨ζ, rfl⟩ := hthru
      by_cases hζ : ζ = []
      · rw [hζ, List.append_nil, descend_set_self hwf.tree hagree hπ' (by omega), hself] at hn
        cases hn
        exact Set.mem_insert _ _
      · rw [hbelow ζ hζ] at hn
        cases hn
    · rw [descend_set_other hwf.tree hagree hπ' (by omega) (by omega) hthru] at hn
      exact Set.mem_insert_of_mem _ (hwf.tables ρ n hρ hn)
  · rw [descend_set_self hwf.tree hagree hπ' (by omega), hself]
  · intro ρ hρ hne
    by_cases hthru : π ++ [i] <+: ρ
    · -- there was nothing below the entry, and there is nothing now
      obtain ⟨ζ, rfl⟩ := hthru
      have hζ : ζ ≠ [] := by
        rintro rfl
        simp at hne
      rw [hbelow ζ hζ, descend_append, descend_concat, hπ]
      simp [hempty]
    · rw [descend_set_other hwf.tree hagree hπ' (by omega) (by omega) hthru, hdesc ρ (by omega)]

/-! ## One page -/

section Setup

variable {κ : Type} {pgCallocFunc : Mem → κ → Nat × Mem × κ} {given : κ → Set Nat}

/-- What `pg_calloc_func` promises when it does not fail: a zeroed page that it has not given away
before, at a physical address that fits into a descriptor. -/
structure PgCallocOk (pgCallocFunc : Mem → κ → Nat × Mem × κ) (mmuOn : Bool)
    (given : κ → Set Nat) : Prop where
  aligned : ∀ {m k p m' k'}, pgCallocFunc m k = (p, m', k') → p ≠ 0 → pageSize ∣ p
  lt : ∀ {m k p m' k'}, pgCallocFunc m k = (p, m', k') → p ≠ 0 →
    p < 2 ^ 64 ∧ physical mmuOn p < 2 ^ 48
  fresh : ∀ {m k p m' k'}, pgCallocFunc m k = (p, m', k') → p ≠ 0 →
    physical mmuOn p ∉ given k ∧ given k' = insert (physical mmuOn p) (given k)
  zero : ∀ {m k p m' k'}, pgCallocFunc m k = (p, m', k') → p ≠ 0 →
    ∀ x, p ≤ x → x < p + pageSize → m' x = 0
  same : ∀ {m k p m' k'}, pgCallocFunc m k = (p, m', k') → p ≠ 0 →
    ∀ x, x < p ∨ p + pageSize ≤ x → m' x = m x

/-- From `st` to `st'` the tables `T` of the tree with root `d` have become `T'`: tables are only
added, from pages given away in between, and nothing outside of the tables has changed. -/
structure TablesGrow (mmuOn : Bool) (given : κ → Set Nat) (d : Nat) (st st' : PtState κ)
    (T T' : Set Nat) : Prop where
  subset : T ⊆ T'
  new : ∀ n ∈ T', n ∈ T ∨ n ∉ given st.alloc
  given_subset : given st.alloc ⊆ given st'.alloc
  given_new : ∀ n ∈ given st'.alloc, n ∈ given st.alloc ∨ n ∈ T'
  tables_given : T' ⊆ given st'.alloc
  frame : ∀ x, (∀ n ∈ T', ¬InPage mmuOn n x) → st'.mem x = st.mem x
  reached : (∀ n ∈ T, Reached mmuOn st.mem d n) → ∀ n ∈ T', Reached mmuOn st'.mem d n

theorem TablesGrow.refl {st : PtState κ} (hT : T ⊆ given st.alloc) :
    TablesGrow mmuOn given d st st T T :=
  ⟨fun _ h => h, fun _ h => Or.inl h, fun _ h => h, fun _ h => Or.inl h, hT, fun _ _ => rfl,
    fun h => h⟩

theorem TablesGrow.trans {st₁ st₂ st₃ : PtState κ} {T₁ T₂ T₃ : Set Nat}
    (h₁ : TablesGrow mmuOn given d st₁ st₂ T₁ T₂) (h₂ : TablesGrow mmuOn given d st₂ st₃ T₂ T₃) :
    TablesGrow mmuOn given d st₁ st₃ T₁ T₃ := by
  refine ⟨h₁.subset.trans h₂.subset, ?_, h₁.given_subset.trans h₂.given_subset, ?_, h₂.tables_given,
    ?_, fun h => h₂.reached (h₁.reached h)⟩
  · intro n hn
    rcases h₂.new n hn with hn₂ | hnew
    · exact h₁.new n hn₂
    · exact Or.inr fun hg => hnew (h₁.given_subset hg)
  · intro n hn
    rcases h₂.given_new n hn with hn₂ | hn₃
    · exact (h₁.given_new n hn₂).imp_right fun h => h₂.subset h
    · exact Or.inr hn₃
  · intro x hx
    exact (h₂.frame x hx).trans (h₁.frame x fun n hn => hx n (h₂.subset hn))

variable {st : PtState κ} {attrs : Nat}

/-- The entry of an upper level on the way: it leads to a table afterwards. -/
theorem upperEntry_spec (hc : PgCallocOk pgCallocFunc mmuOn given) (h : PtWf mmuOn st.mem d T)
    (hT : T ⊆ given st.alloc) (hattrs : AttrsOk attrs) (h64 : attrs < 2 ^ 64) (phyAddr : Nat)
    {t layer : Nat} (i : Fin 512) {π : List (Fin 512)} (hlayer : layer ≠ 12)
    (hπ : descend (ptSlot mmuOn st.mem) d π = some t) (hlen : π.length < 2) :
    (if load st.mem (entryAddr (linear mmuOn t) i) 8 = 0 then
        fillEntry pgCallocFunc mmuOn phyAddr attrs layer (entryAddr (linear mmuOn t) i) st
      else .ok st) = .error .assertFailed ∨
    ∃ st' T' t', (if load st.mem (entryAddr (linear mmuOn t) i) 8 = 0 then
        fillEntry pgCallocFunc mmuOn phyAddr attrs layer (entryAddr (linear mmuOn t) i) st
      else .ok st) = .ok st' ∧ PtWf mmuOn st'.mem d T' ∧ TablesGrow mmuOn given d st st' T T' ∧
      descend (ptSlot mmuOn st'.mem) d (π ++ [i]) = some t' ∧
      getPhyAddr (load st'.mem (entryAddr (linear mmuOn t) i) 8) = t' ∧
      ∀ ρ : List (Fin 512), ρ.length = 3 →
        descend (ptSlot mmuOn st'.mem) d ρ = descend (ptSlot mmuOn st.mem) d ρ := by
  by_cases hload : load st.mem (entryAddr (linear mmuOn t) i) 8 = 0
  · rcases hcall : pgCallocFunc st.mem st.alloc with ⟨p, m', k'⟩
    by_cases hp : p = 0
    · exact Or.inl (by simp [hload, fillEntry, hlayer, hcall, hp])
    have hdvd := hc.aligned hcall hp
    obtain ⟨hlt, hphys⟩ := hc.lt hcall hp
    obtain ⟨hfresh, hgiven⟩ := hc.fresh hcall hp
    have hnew : physical mmuOn p ∉ T := fun hmem => hfresh (hT hmem)
    obtain ⟨m'', hm'', hwf, hdesc, hslot, hsame⟩ := storeTable_spec (i := i) h hπ hlen
      (by simp [ptSlot, hload]) ⟨dvd_physical hdvd, hphys⟩ hlt hattrs h64 hnew (hc.zero hcall hp)
      (hc.same hcall hp)
    refine Or.inr ⟨⟨m'', k'⟩, _, physical mmuOn p, ?_, hwf, ?_, hdesc, ?_, ?_⟩
    · have haligned : p % pageSize = 0 := Nat.mod_eq_zero_of_dvd hdvd
      simp [hload, fillEntry, hlayer, hcall, hp, haligned, hm'']
    · refine ⟨Set.subset_insert _ _, ?_, ?_, ?_, ?_, ?_, ?_⟩
      · rintro n (rfl | hn)
        · exact Or.inr hfresh
        · exact Or.inl hn
      · simp [hgiven]
      · intro n hn
        rw [hgiven] at hn
        rcases hn with rfl | hn
        · exact Or.inr (Set.mem_insert _ _)
        · exact Or.inl hn
      · simp only [hgiven]
        exact Set.insert_subset_insert hT
      · -- the only bytes written are those of the new page and of the entry
        intro x hx
        have ht : t ∈ T := h.tables π t (by omega) hπ
        have hx₁ := hx _ (Set.mem_insert _ _)
        have hx₂ := hx t (Set.mem_insert_of_mem _ ht)
        have hentry : ¬(entryAddr (linear mmuOn t) i ≤ x ∧ x < entryAddr (linear mmuOn t) i + 8) :=
          fun hin => hx₂ (inPage_entry hin.1 hin.2)
        simp only [InPage, linear_physical hlt] at hx₁
        simp only [hm'', store, if_neg hentry]
        exact hc.same hcall hp x (by omega)
      · rintro hold n (rfl | hn)
        · refine ⟨π ++ [i], ?_, hdesc⟩
          rw [List.length_append, List.length_singleton]
          omega
        · -- the way to an old table does not lead through the entry, which was empty
          obtain ⟨ρ, hρ, hdρ⟩ := hold n hn
          refine ⟨ρ, hρ, ?_⟩
          rw [hsame ρ (by omega), hdρ]
          rintro rfl
          rw [descend_concat, hπ] at hdρ
          simp [ptSlot, hload] at hdρ
    · by_cases hzero : load m'' (entryAddr (linear mmuOn t) i) 8 = 0
      · simp [ptSlot, hzero] at hslot
      · simpa [ptSlot, hzero] using hslot
    · intro ρ hρ
      refine hsame ρ (by omega) ?_
      rintro rfl
      rw [List.length_append, List.length_singleton] at hρ
      omega
  · refine Or.inr ⟨st, T, getPhyAddr (load st.mem (entryAddr (linear mmuOn t) i) 8), by simp [hload], h,
      TablesGrow.refl hT, ?_, rfl, fun _ _ => rfl⟩
    simp [descend_concat, hπ, ptSlot, hload]

/-- The entry of the last level: an empty one is filled with the page to map. -/
theorem lastEntry_spec (pgCallocFunc : Mem → κ → Nat × Mem × κ) (h : PtWf mmuOn st.mem d T)
    (hT : T ⊆ given st.alloc) (hattrs : AttrsOk attrs) (h64 : attrs < 2 ^ 64) {phyAddr : Nat}
    (hphys : PhysOk phyAddr) {t : Nat} {i : Fin 512} {π : List (Fin 512)}
    (hπ : descend (ptSlot mmuOn st.mem) d π = some t) (hlen : π.length = 2) :
    ∃ st', (if load st.mem (entryAddr (linear mmuOn t) i) 8 = 0 then
        fillEntry pgCallocFunc mmuOn phyAddr attrs 12 (entryAddr (linear mmuOn t) i) st
      else .ok st) = .ok st' ∧ PtWf mmuOn st'.mem d T ∧ TablesGrow mmuOn given d st st' T T ∧
      ∀ ρ : List (Fin 512), ρ.length = 3 → descend (ptSlot mmuOn st'.mem) d ρ =
        if ρ = π ++ [i] then some ((descend (ptSlot mmuOn st.mem) d ρ).getD phyAddr)
        else descend (ptSlot mmuOn st.mem) d ρ := by
  by_cases hload : load st.mem (entryAddr (linear mmuOn t) i) 8 = 0
  · obtain ⟨hwf, hdesc⟩ := storeLeaf_spec (i := i) h hπ hlen (descriptor_lt hphys h64)
    refine ⟨{ st with mem := store st.mem (entryAddr (linear mmuOn t) i) 8 (descriptor phyAddr attrs) },
      by simp [hload, fillEntry], hwf, ?_, ?_⟩
    · refine ⟨fun _ hn => hn, fun _ hn => Or.inl hn, fun _ hn => hn, fun _ hn => Or.inl hn, hT, ?_, ?_⟩
      · intro x hx
        have ht : t ∈ T := h.tables π t (by omega) hπ
        have hentry : ¬(entryAddr (linear mmuOn t) i ≤ x ∧ x < entryAddr (linear mmuOn t) i + 8) :=
          fun hin => hx t ht (inPage_entry hin.1 hin.2)
        simp only [store, if_neg hentry]
      · intro hold n hn
        obtain ⟨ρ, hρ, hdρ⟩ := hold n hn
        exact ⟨ρ, hρ, (storeLeaf_short h hπ hlen (descriptor_lt hphys h64) hρ).trans hdρ⟩
    · intro ρ hρ
      rw [hdesc ρ hρ]
      split_ifs with heq hz
      · exact absurd hz (descriptor_ne_zero _ _)
      · rw [heq, descend_concat, hπ]
        simp [ptSlot, hload, getPhyAddr_descriptor hphys hattrs]
      · rfl
  · refine ⟨st, by simp [hload], h, TablesGrow.refl hT, fun ρ hρ => ?_⟩
    split_ifs with heq
    · rw [heq, descend_concat, hπ]
      simp [ptSlot, hload]
    · rfl

/-- `setup_pg_for_addr` maps the page of `virtAddr` unless it is mapped already, and changes no
other page. -/
theorem setupPgForAddr_spec (hc : PgCallocOk pgCallocFunc mmuOn given) (h : PtWf mmuOn st.mem d T)
    (hT : T ⊆ given st.alloc) (hattrs : AttrsOk attrs) (h64 : attrs < 2 ^ 64)
    {phyAddr : Nat} (hphys : PhysOk phyAddr) (virtAddr : Nat) :
    setupPgForAddr pgCallocFunc mmuOn (linear mmuOn d) phyAddr virtAddr attrs st =
        .error .assertFailed ∨
    ∃ st' T', setupPgForAddr pgCallocFunc mmuOn (linear mmuOn d) phyAddr virtAddr attrs st =
        .ok st' ∧ PtWf mmuOn st'.mem d T' ∧ TablesGrow mmuOn given d st st' T T' ∧
      ∀ v, lookup mmuOn st'.mem d v =
        if pathOf v = pathOf virtAddr then some ((lookup mmuOn st.mem d v).getD phyAddr)
        else lookup mmuOn st.mem d v := by
  simp only [setupPgForAddr, layers, setupPgLoop]
  -- level by level: the top one, the middle one, the last one
  rcases upperEntry_spec (π := []) (t := d) hc h hT hattrs h64 phyAddr (getPgEntryIndex virtAddr 30)
    (show 30 ≠ 12 by decide) rfl (by decide) with
    herr | ⟨st₁, T₁, t₁, hok₁, hwf₁, hgrow₁, hdesc₁, ht₁, hsame₁⟩
  · exact Or.inl (by rw [herr]; rfl)
  rw [hok₁]
  simp only [Except.bind, ht₁]
  rcases upperEntry_spec hc hwf₁ hgrow₁.tables_given hattrs h64 phyAddr
    (getPgEntryIndex virtAddr 21) (show 21 ≠ 12 by decide) hdesc₁ (by simp) with
    herr | ⟨st₂, T₂, t₂, hok₂, hwf₂, hgrow₂, hdesc₂, ht₂, hsame₂⟩
  · exact Or.inl (by rw [herr])
  rw [hok₂]
  simp only [ht₂]
  obtain ⟨st₃, hok₃, hwf₃, hgrow₃, hdesc₃⟩ := lastEntry_spec pgCallocFunc
    (i := getPgEntryIndex virtAddr 12) hwf₂ hgrow₂.tables_given hattrs h64 hphys hdesc₂ (by simp)
  rw [hok₃]
  refine Or.inr ⟨st₃, T₂, rfl, hwf₃, (hgrow₁.trans hgrow₂).trans hgrow₃, fun v => ?_⟩
  have hpath : pathOf virtAddr = [] ++ [getPgEntryIndex virtAddr 30] ++
      [getPgEntryIndex virtAddr 21] ++ [getPgEntryIndex virtAddr 12] := rfl
  rw [lookup, hdesc₃ _ (length_pathOf v), hsame₂ _ (length_pathOf v), hsame₁ _ (length_pathOf v),
    hpath, lookup]

end Setup

end Mm
end ToutOS
