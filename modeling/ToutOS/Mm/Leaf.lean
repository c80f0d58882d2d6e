import ToutOS.Base.Run
import ToutOS.Mm.Mapping

/-!
# Leaf — the entries that map pages

`lookup` tells the page of an address.  The entry of the last level holds the attributes as well.

* `leafPte` — the entry of the last level on the way of an address.
* `EntriesKept` — entries that are not zero keep their values: so it is for everything that
  `setup_pg_for_addr` does (`setupPgForAddr_kept`, `addSingleMap_kept`).
* `EntriesCleared` — entries keep their values or become zero.
* `setupPgForAddr_leaf`, `addSingleMap_leaf` — the entries of pages that are mapped anew.
-/

namespace ToutOS
namespace Mm

open Base

/-- The entry of the last level for `virtAddr`, if the tables are there and it is filled. -/
def leafPte (mmuOn : Bool) (m : Mem) (d virtAddr : Nat) : Option Nat :=
  (descend (ptSlot mmuOn m) d [getPgEntryIndex virtAddr 30, getPgEntryIndex virtAddr 21]).bind fun t =>
    let entry := load m (entryAddr (linear mmuOn t) (getPgEntryIndex virtAddr 12)) 8
    if entry = 0 then none else some entry

variable {mmuOn : Bool} {m m' m'' : Mem} {d v : Nat} {T T' : Set Nat}

theorem lookup_eq_leafPte (m : Mem) (d v : Nat) :
    lookup mmuOn m d v = (leafPte mmuOn m d v).map getPhyAddr := by
  have hpath : pathOf v = [getPgEntryIndex v 30, getPgEntryIndex v 21] ++ [getPgEntryIndex v 12] := rfl
  rw [lookup, hpath, descend_concat, leafPte]
  cases descend (ptSlot mmuOn m) d [getPgEntryIndex v 30, getPgEntryIndex v 21] with
  | none => rfl
  | some t =>
      simp only [Option.bind_some, ptSlot]
      split_ifs <;> rfl

theorem leafPte_congr {v' : Nat} (h : pathOf v = pathOf v') :
    leafPte mmuOn m d v = leafPte mmuOn m d v' := by
  simp only [pathOf, layers, List.map_cons, List.map_nil, List.cons.injEq, and_true] at h
  obtain ⟨h₁, h₂, h₃⟩ := h
  rw [leafPte, h₁, h₂, h₃, leafPte]

theorem leafPte_eq_some {e : Nat} : leafPte mmuOn m d v = some e ↔ ∃ t,
    descend (ptSlot mmuOn m) d [getPgEntryIndex v 30, getPgEntryIndex v 21] = some t ∧ e ≠ 0 ∧
      load m (entryAddr (linear mmuOn t) (getPgEntryIndex v 12)) 8 = e := by
  rw [leafPte, Option.bind_eq_some_iff]
  refine exists_congr fun t => and_congr_right fun _ => ?_
  constructor
  · intro h
    simp only at h
    split_ifs at h with hzero
    have hload := Option.some.inj h
    exact ⟨hload ▸ hzero, hload⟩
  · rintro ⟨hne, hload⟩
    simp only
    rw [hload, if_neg hne]

/-- The entries on the way are filled. -/
theorem ptSlot_eq_some {n t : Nat} {i : Fin 512} : ptSlot mmuOn m n i = some t ↔
    load m (entryAddr (linear mmuOn n) i) 8 ≠ 0 ∧
      getPhyAddr (load m (entryAddr (linear mmuOn n) i) 8) = t := by
  simp only [ptSlot]
  split_ifs with hzero
  · simp [hzero]
  · simp [hzero]

theorem descend_two {n t : Nat} {i j : Fin 512} : descend (ptSlot mmuOn m) n [i, j] = some t ↔
    ∃ n₁, ptSlot mmuOn m n i = some n₁ ∧ ptSlot mmuOn m n₁ j = some t := by
  simp [descend, Option.bind_eq_some_iff]

/-! ## Entries that are kept -/

/-- The entries of the tables `T` that are filled keep their values. -/
def EntriesKept (mmuOn : Bool) (T : Set Nat) (m m' : Mem) : Prop :=
  ∀ n ∈ T, ∀ i, load m (entryAddr (linear mmuOn n) i) 8 ≠ 0 →
    load m' (entryAddr (linear mmuOn n) i) 8 = load m (entryAddr (linear mmuOn n) i) 8

theorem EntriesKept.refl (T : Set Nat) (m : Mem) : EntriesKept mmuOn T m m := fun _ _ _ _ => rfl

theorem EntriesKept.trans (h₁ : EntriesKept mmuOn T m m') (h₂ : EntriesKept mmuOn T m' m'') :
    EntriesKept mmuOn T m m'' := by
  intro n hn i hne
  have hkept := h₁ n hn i hne
  rw [h₂ n hn i (by rwa [hkept]), hkept]

/-- What is mapped stays mapped by the same entry. -/
theorem EntriesKept.leafPte (h : EntriesKept mmuOn T m m') (hwf : PtWf mmuOn m d T) {e : Nat}
    (he : leafPte mmuOn m d v = some e) : leafPte mmuOn m' d v = some e := by
  have hslot : ∀ {n t i}, n ∈ T → ptSlot mmuOn m n i = some t → ptSlot mmuOn m' n i = some t := by
    intro n t i hn ht
    obtain ⟨hne, rfl⟩ := ptSlot_eq_some.1 ht
    rw [ptSlot_eq_some, h n hn i hne]
    exact ⟨hne, rfl⟩
  obtain ⟨t, ht, hne, hload⟩ := leafPte_eq_some.1 he
  have hmem := hwf.tables _ t (by simp) ht
  obtain ⟨n, hn, hnt⟩ := descend_two.1 ht
  have hd : d ∈ T := hwf.tables [] d (by simp) rfl
  have hnT : n ∈ T := hwf.tables [getPgEntryIndex v 30] n (by simp) (by simpa [descend] using hn)
  refine leafPte_eq_some.2 ⟨t, descend_two.2 ⟨n, hslot hd hn, hslot hnT hnt⟩, hne, ?_⟩
  rw [h t hmem _ (by rwa [hload]), hload]

/-- The tables are unchanged, and so are the entries. -/
theorem leafPte_frame (h : PtWf mmuOn m d T) (hsame : ∀ n ∈ T, ∀ x, InPage mmuOn n x → m' x = m x)
    {e : Nat} (he : leafPte mmuOn m d v = some e) : leafPte mmuOn m' d v = some e := by
  refine EntriesKept.leafPte (fun n hn i _ => ?_) h he
  exact load_congr fun x h₁ h₂ => hsame n hn x (inPage_entry h₁ h₂)

/-- Every entry keeps its value or becomes zero. -/
def EntriesCleared (m m' : Mem) : Prop := ∀ a, 8 ∣ a → load m' a 8 = 0 ∨ load m' a 8 = load m a 8

theorem EntriesCleared.refl (m : Mem) : EntriesCleared m m := fun _ _ => Or.inr rfl

theorem EntriesCleared.trans (h₁ : EntriesCleared m m') (h₂ : EntriesCleared m' m'') :
    EntriesCleared m m'' := by
  intro a ha
  rcases h₂ a ha with hzero | hsame
  · exact Or.inl hzero
  · rw [hsame]
    exact h₁ a ha

theorem entriesCleared_store (m : Mem) {a : Nat} (ha : 8 ∣ a) : EntriesCleared m (store m a 8 0) := by
  intro b hb
  by_cases hab : b = a
  · subst hab
    exact Or.inl (load_store_same (by decide))
  · exact Or.inr (load_store_ne (by omega))

theorem dvd_entryAddr {n : Nat} (hn : pageSize ∣ n) (i : Fin 512) :
    8 ∣ entryAddr (linear mmuOn n) i := by
  have h := dvd_linear mmuOn hn
  simp only [entryAddr, pageSize] at *
  omega

/-- What is mapped afterwards was mapped before by the same entry. -/
theorem EntriesCleared.leafPte (h : EntriesCleared m m') (hd : pageSize ∣ d) {e : Nat}
    (he : leafPte mmuOn m' d v = some e) : leafPte mmuOn m d v = some e := by
  have hload : ∀ {n i}, pageSize ∣ n → load m' (entryAddr (linear mmuOn n) i) 8 ≠ 0 →
      load m' (entryAddr (linear mmuOn n) i) 8 = load m (entryAddr (linear mmuOn n) i) 8 :=
    fun hn hne => (h _ (dvd_entryAddr hn _)).resolve_left hne
  have hslot : ∀ {n t i}, pageSize ∣ n → ptSlot mmuOn m' n i = some t →
      ptSlot mmuOn m n i = some t ∧ pageSize ∣ t := by
    intro n t i hn ht
    obtain ⟨hne, rfl⟩ := ptSlot_eq_some.1 ht
    rw [ptSlot_eq_some, ← hload hn hne]
    exact ⟨⟨hne, rfl⟩, (physOk_getPhyAddr _).1⟩
  obtain ⟨t, ht, hne, hentry⟩ := leafPte_eq_some.1 he
  obtain ⟨n, hn, hnt⟩ := descend_two.1 ht
  obtain ⟨hn', hdvd⟩ := hslot hd hn
  obtain ⟨hnt', hdvd'⟩ := hslot hdvd hnt
  refine leafPte_eq_some.2 ⟨t, descend_two.2 ⟨n, hn', hnt'⟩, hne, ?_⟩
  rw [← hload hdvd' (by rwa [hentry]), hentry]

/-! ## `setup_pg_for_addr` -/

section Setup

variable {κ : Type} {pgCallocFunc : Mem → κ → Nat × Mem × κ} {given : κ → Set Nat}
  {st st' : PtState κ} {attrs phyAddr : Nat}

/-- The tables `T` are not handed out, and their entries are kept. -/
structure TablesKept (mmuOn : Bool) (given : κ → Set Nat) (T : Set Nat) (st st' : PtState κ) : Prop where
  kept : EntriesKept mmuOn T st.mem st'.mem
  given : T ⊆ given st'.alloc

theorem TablesKept.trans {st'' : PtState κ} (h₁ : TablesKept mmuOn given T st st')
    (h₂ : TablesKept mmuOn given T st' st'') : TablesKept mmuOn given T st st'' :=
  ⟨h₁.kept.trans h₂.kept, h₂.given⟩

/-- Writing an entry that is zero. -/
theorem entriesKept_store {n e : Nat} {i : Fin 512} (hT : Pages T) (hn : pageSize ∣ n)
    (hsame : ∀ k ∈ T, ∀ x, InPage mmuOn k x → m' x = m x)
    (hzero : load m (entryAddr (linear mmuOn n) i) 8 = 0) :
    EntriesKept mmuOn T m (store m' (entryAddr (linear mmuOn n) i) 8 e) := by
  intro k hk j hne
  have hdvd := @dvd_entryAddr mmuOn _ hn i
  have hdvd' := @dvd_entryAddr mmuOn _ (hT k hk).1 j
  have hload : load m' (entryAddr (linear mmuOn k) j) 8 = load m (entryAddr (linear mmuOn k) j) 8 :=
    load_congr fun x h₁ h₂ => hsame k hk x (inPage_entry h₁ h₂)
  -- another entry than the one that is written
  have hother : entryAddr (linear mmuOn k) j ≠ entryAddr (linear mmuOn n) i := by
    intro heq
    rw [heq] at hne
    exact hne hzero
  rw [load_store_ne (by omega), hload]

/-- One level: an entry that is not zero is left alone. -/
theorem fillEntry_kept (hc : PgCallocOk pgCallocFunc mmuOn given) (hT : T ⊆ given st.alloc)
    (hpages : Pages T) {n layer : Nat} {i : Fin 512} (hn : pageSize ∣ n)
    (hrun : (if load st.mem (entryAddr (linear mmuOn n) i) 8 = 0 then
        fillEntry pgCallocFunc mmuOn phyAddr attrs layer (entryAddr (linear mmuOn n) i) st
      else .ok st) = .ok st') : TablesKept mmuOn given T st st' := by
  by_cases hzero : load st.mem (entryAddr (linear mmuOn n) i) 8 = 0
  · rw [if_pos hzero, fillEntry] at hrun
    by_cases hlayer : layer ≠ 12
    · rw [if_pos hlayer] at hrun
      rcases hcall : pgCallocFunc st.mem st.alloc with ⟨p, m', k'⟩
      simp only [hcall] at hrun
      split_ifs at hrun with hp hdvd
      obtain rfl := Except.ok.inj hrun
      obtain ⟨hfresh, hgiven⟩ := hc.fresh hcall hp
      refine ⟨entriesKept_store hpages hn (fun k hk x hx => hc.same hcall hp x ?_) hzero, ?_⟩
      · -- the new page is none of the tables
        by_contra hno
        have hin : InPage mmuOn (physical mmuOn p) x := by
          rw [InPage, linear_physical (hc.lt hcall hp).1]
          omega
        have hpage : pageSize ∣ physical mmuOn p ∧ physical mmuOn p < 2 ^ 64 :=
          ⟨dvd_physical (hc.aligned hcall hp), (hc.lt hcall hp).2.trans (by decide)⟩
        exact hfresh (inPage_unique (hpages k hk) hpage hx hin ▸ hT hk)
      · change T ⊆ given k'
        rw [hgiven]
        exact hT.trans (Set.subset_insert _ _)
    · rw [if_neg hlayer] at hrun
      obtain rfl := Except.ok.inj hrun
      exact ⟨entriesKept_store hpages hn (fun _ _ _ _ => rfl) hzero, hT⟩
  · rw [if_neg hzero] at hrun
    obtain rfl := Except.ok.inj hrun
    exact ⟨EntriesKept.refl T _, hT⟩

theorem setupPgLoop_kept (hc : PgCallocOk pgCallocFunc mmuOn given) (hpages : Pages T) (virtAddr : Nat) :
    ∀ {ls : List Nat} {n : Nat} {st : PtState κ}, pageSize ∣ n → T ⊆ given st.alloc →
      setupPgLoop pgCallocFunc mmuOn phyAddr virtAddr attrs ls (linear mmuOn n) st = .ok st' →
      TablesKept mmuOn given T st st' := by
  intro ls
  induction ls with
  | nil =>
      intro n st _ hT hrun
      obtain rfl := Except.ok.inj hrun
      exact ⟨EntriesKept.refl T _, hT⟩
  | cons layer ls ih =>
      intro n st hn hT hrun
      rw [setupPgLoop] at hrun
      obtain ⟨st₁, hfill, hrun⟩ := except_bind_eq_ok.1 hrun
      have hfirst := fillEntry_kept hc hT hpages hn hfill
      exact hfirst.trans (ih (physOk_getPhyAddr _).1 hfirst.given hrun)

theorem setupPgForAddr_kept (hc : PgCallocOk pgCallocFunc mmuOn given) (hpages : Pages T)
    (hT : T ⊆ given st.alloc) (hd : pageSize ∣ d) {virtAddr : Nat}
    (hrun : setupPgForAddr pgCallocFunc mmuOn (linear mmuOn d) phyAddr virtAddr attrs st = .ok st') :
    TablesKept mmuOn given T st st' :=
  setupPgLoop_kept hc hpages virtAddr hd hT hrun

theorem addSingleMapLoop_kept (hc : PgCallocOk pgCallocFunc mmuOn given) (hpages : Pages T)
    (hd : pageSize ∣ d) {endAddr : Nat} :
    ∀ {fuel phy virt : Nat} {st : PtState κ}, T ⊆ given st.alloc →
      addSingleMapLoop pgCallocFunc mmuOn (linear mmuOn d) endAddr attrs fuel phy virt st = .ok st' →
      TablesKept mmuOn given T st st' := by
  intro fuel
  induction fuel with
  | zero =>
      intro phy virt st hT hrun
      rw [addSingleMapLoop] at hrun
      split_ifs at hrun
      obtain rfl := Except.ok.inj hrun
      exact ⟨EntriesKept.refl T _, hT⟩
  | succ fuel ih =>
      intro phy virt st hT hrun
      rw [addSingleMapLoop] at hrun
      split_ifs at hrun
      · obtain ⟨st₁, hfirst, hrun⟩ := except_bind_eq_ok.1 hrun
        have hkept := setupPgForAddr_kept hc hpages hT hd hfirst
        exact hkept.trans (ih hkept.given hrun)
      · obtain rfl := Except.ok.inj hrun
        exact ⟨EntriesKept.refl T _, hT⟩

theorem addSingleMap_kept (hc : PgCallocOk pgCallocFunc mmuOn given) (hpages : Pages T)
    (hT : T ⊆ given st.alloc) (hd : pageSize ∣ d) {map : MemoryMap}
    (hrun : addSingleMap pgCallocFunc mmuOn (linear mmuOn d) map st = .ok st') :
    TablesKept mmuOn given T st st' :=
  addSingleMapLoop_kept hc hpages hd hT hrun

/-! ## New entries -/

/-- The page of `virtAddr` was not mapped: its entry is the descriptor. -/
theorem setupPgForAddr_leaf (hc : PgCallocOk pgCallocFunc mmuOn given) (h : PtWf mmuOn st.mem d T)
    (hT : T ⊆ given st.alloc) (hattrs : AttrsOk attrs) (h64 : attrs < 2 ^ 64) (hphys : PhysOk phyAddr)
    {virtAddr : Nat} (hnone : lookup mmuOn st.mem d virtAddr = none)
    (hrun : setupPgForAddr pgCallocFunc mmuOn (linear mmuOn d) phyAddr virtAddr attrs st = .ok st') :
    leafPte mmuOn st'.mem d virtAddr = some (descriptor phyAddr attrs) := by
  simp only [setupPgForAddr, layers, setupPgLoop] at hrun
  obtain ⟨st₁, hfill₁, hrun⟩ := except_bind_eq_ok.1 hrun
  obtain ⟨st₂, hfill₂, hrun⟩ := except_bind_eq_ok.1 hrun
  obtain ⟨st₃, hfill₃, hrun⟩ := except_bind_eq_ok.1 hrun
  obtain rfl := Except.ok.inj hrun
  -- the two upper levels lead to a table in which the entry is still empty
  rcases upperEntry_spec (π := []) (t := d) hc h hT hattrs h64 phyAddr (getPgEntryIndex virtAddr 30)
    (show 30 ≠ 12 by decide) rfl (by decide) with
    herr | ⟨s₁, T₁, t₁, hok₁, hwf₁, hgrow₁, hdesc₁, ht₁, hsame₁⟩
  · rw [herr] at hfill₁
    cases hfill₁
  rw [hok₁] at hfill₁
  obtain rfl := Except.ok.inj hfill₁
  rw [ht₁] at hfill₂ hfill₃
  rcases upperEntry_spec hc hwf₁ hgrow₁.tables_given hattrs h64 phyAddr
    (getPgEntryIndex virtAddr 21) (show 21 ≠ 12 by decide) hdesc₁ (by simp) with
    herr | ⟨s₂, T₂, t₂, hok₂, hwf₂, hgrow₂, hdesc₂, ht₂, hsame₂⟩
  · rw [herr] at hfill₂
    cases hfill₂
  rw [hok₂] at hfill₂
  obtain rfl := Except.ok.inj hfill₂
  rw [ht₂] at hfill₃
  have hempty : load s₂.mem (entryAddr (linear mmuOn t₂) (getPgEntryIndex virtAddr 12)) 8 = 0 := by
    by_contra hne
    have hlook : lookup mmuOn s₂.mem d virtAddr = none := by
      rw [lookup, hsame₂ _ (length_pathOf _), hsame₁ _ (length_pathOf _), ← hnone, lookup]
    have hleaf : leafPte mmuOn s₂.mem d virtAddr ≠ none := by
      rw [leafPte_eq_some.2 ⟨t₂, hdesc₂, hne, rfl⟩]
      exact Option.some_ne_none _
    rw [lookup_eq_leafPte, Option.map_eq_none_iff] at hlook
    exact hleaf hlook
  rw [if_pos hempty, fillEntry, if_neg (not_not.2 rfl)] at hfill₃
  obtain rfl := Except.ok.inj hfill₃
  have hlt := descriptor_lt hphys h64
  refine leafPte_eq_some.2 ⟨t₂, ?_, descriptor_ne_zero _ _, load_store_same (by simpa using hlt)⟩
  rw [← hdesc₂]
  exact storeLeaf_short hwf₂ hdesc₂ (by simp) hlt (by simp)

/-- The loop of `add_single_map` with `r` pages to go. -/
theorem addSingleMapLoop_leaf (hc : PgCallocOk pgCallocFunc mmuOn given) (hattrs : AttrsOk attrs)
    (h64 : attrs < 2 ^ 64) (endAddr : Nat) :
    ∀ {fuel r phy virt : Nat} {st : PtState κ} {T : Set Nat}, r ≤ 2 ^ 27 → pageSize ∣ phy →
      phy + pageSize * r ≤ 2 ^ 48 → endAddr ≤ phy + pageSize * r →
      (0 < r → phy + pageSize * r < endAddr + pageSize) → PtWf mmuOn st.mem d T → T ⊆ given st.alloc →
      addSingleMapLoop pgCallocFunc mmuOn (linear mmuOn d) endAddr attrs fuel phy virt st = .ok st' →
      ∀ v j, j < r → pathOf v = pathOf (virt + pageSize * j) → lookup mmuOn st.mem d v = none →
        leafPte mmuOn st'.mem d v = some (descriptor (phy + pageSize * j) attrs) := by
  intro fuel
  induction fuel with
  | zero =>
      intro r phy virt st T _ _ _ hend hlast _ _ hrun v j hj
      have hlast := hlast (by omega)
      rw [addSingleMapLoop] at hrun
      split_ifs at hrun with hlt
      simp only [pageSize] at hlast
      omega
  | succ fuel ih =>
      intro r phy virt st T hr hdvd hlim hend hlast hwf hT hrun v j hj hpath hnone
      have hlast := hlast (by omega)
      have hlt : phy < endAddr := by
        simp only [pageSize] at hlast
        have : 4096 * 1 ≤ 4096 * r := Nat.mul_le_mul_left _ (by omega)
        omega
      rw [addSingleMapLoop, if_pos hlt] at hrun
      obtain ⟨st₁, hfirst, hrun⟩ := except_bind_eq_ok.1 hrun
      have hphys : PhysOk phy := ⟨hdvd, by simp only [pageSize] at hlim; omega⟩
      have hd : pageSize ∣ d := (hwf.pages d (hwf.tables [] d (by simp) rfl)).1
      rcases setupPgForAddr_spec hc hwf hT hattrs h64 hphys virt with
        herr | ⟨s₁, T₁, hok, hwf₁, hgrow₁, hlook⟩
      · rw [herr] at hfirst
        cases hfirst
      rw [hok] at hfirst
      obtain rfl := Except.ok.inj hfirst
      cases j with
      | zero =>
          -- the first page: its entry is kept by the rest of the loop
          have hpath₀ : pathOf v = pathOf virt := by simpa using hpath
          have hnone₀ : lookup mmuOn st.mem d virt = none := by rw [lookup, ← hpath₀, ← hnone, lookup]
          have hleaf := setupPgForAddr_leaf hc hwf hT hattrs h64 hphys hnone₀ hok
          have hkept := addSingleMapLoop_kept hc hwf₁.pages hd hgrow₁.tables_given hrun
          rw [leafPte_congr hpath₀, Nat.mul_zero, Nat.add_zero]
          exact hkept.kept.leafPte hwf₁ hleaf
      | succ j =>
          simp only [pageSize] at hdvd hlim hend hlast hpath hnone ih ⊢
          have hnext : add64 phy 4096 = phy + 4096 := by
            simp only [add64]
            omega
          have hshift : pathOf (add64 virt 4096 + 4096 * j) = pathOf (virt + 4096 * (j + 1)) := by
            rw [pathOf_eq_iff]
            simp only [add64]
            omega
          have hne : pathOf v ≠ pathOf virt := by
            rw [hpath, ne_eq, pathOf_eq_iff]
            omega
          have hnone₁ : lookup mmuOn s₁.mem d v = none := by rw [hlook, if_neg hne, hnone]
          simp only [pageSize, hnext] at hrun
          have hmul : 4096 * r = 4096 + 4096 * (r - 1) := by omega
          have hleaf := ih (r := r - 1) (by omega) (by omega) (by omega) (by omega) (by omega) hwf₁
            hgrow₁.tables_given hrun v j (by omega) (by rw [hshift, hpath]) hnone₁
          have hphy : phy + 4096 + 4096 * j = phy + 4096 * (j + 1) := by omega
          rw [hleaf, hphy]

/-- The page of an address of the range is one of its pages. -/
theorem InRange.index {map : MemoryMap} (hin : InRange map v) (hdvd : pageSize ∣ map.virtAddr) :
    ∃ j, j < numPages map.size ∧ pageAddr v = map.virtAddr + pageSize * j := by
  obtain ⟨hge, hlt⟩ := hin
  refine ⟨(pageAddr v - map.virtAddr) / pageSize, ?_, ?_⟩ <;>
  · simp only [pageAddr, pageSize] at *
    omega

/-- A range of whole pages: the entries of those that were not mapped. -/
theorem addSingleMap_leaf {w : Nat} (hc : PgCallocOk pgCallocFunc mmuOn given) {map : MemoryMap}
    (hm : MapOk w map) (hwf : PtWf mmuOn st.mem d T) (hT : T ⊆ given st.alloc)
    (hrun : addSingleMap pgCallocFunc mmuOn (linear mmuOn d) map st = .ok st') (hv₁ : w ≤ v)
    (hv₂ : v < w + 2 ^ 39) (hin : InRange map v) (hnone : lookup mmuOn st.mem d v = none) :
    leafPte mmuOn st'.mem d v = some (descriptor (map.phyAddr + (pageAddr v - map.virtAddr)) map.attrs) := by
  obtain ⟨hn₁, hn₂, hn₃⟩ := add_single_numPages map.size
  have hphy := hm.phy_le
  have hvirt := hm.virt_le
  have hge := hm.virt_ge
  have hdvd := hm.virt_dvd
  have hend : add64 map.phyAddr map.size = map.phyAddr + map.size := add64_of_lt (by omega)
  have hr : numPages map.size ≤ 2 ^ 27 := by
    simp only [pageSize] at hvirt
    omega
  obtain ⟨j, hjr, hj⟩ := hin.index hdvd
  rw [addSingleMap, hend] at hrun
  have hleaf := addSingleMapLoop_leaf hc hm.attrs_ok hm.attrs_lt (map.phyAddr + map.size) hr hm.phy_dvd
    hphy (by omega) (fun hpos => by have := hn₂ hpos; omega) hwf hT hrun v j hjr
    ((pathOf_window hm hv₁ hv₂ hjr).2 hj) hnone
  rw [hleaf, hj, Nat.add_sub_cancel_left]

end Setup

end Mm
end ToutOS
