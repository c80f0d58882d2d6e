import ToutOS.Mm.Mapping

/-!
# TableLog — the pages that a table has been given

`add_single_map` with a `pg_calloc_func` that writes down which pages it hands out.

* `AllocSim`, `addSingleMap_sim` — two allocators that hand out the same pages build the same table.
* `addSingleMap_alloc` — what a call of the allocator keeps.
* `addSingleMapLoop_frames` — what is mapped are frames of the range.
* `logCalloc` — an allocator with a list of the pages it has handed out; `addSingleMap_unlogged` says that
  the list changes nothing.
* `TableLog` — the pages of the list are the tables of the tree, no more and no fewer.
* `TableLog.addSingleMap` — mapping a range keeps it so.
-/

namespace ToutOS
namespace Mm

open Base

variable {κ κ' : Type}

/-! ## Two allocators -/

/-- The page table with the allocator seen through `f`. -/
def PtState.mapAlloc (f : κ → κ') (st : PtState κ) : PtState κ' := { mem := st.mem, alloc := f st.alloc }

/-- The allocators hand out the same pages, and `f` leads from the state of one to that of the other. -/
structure AllocSim (f : κ → κ') (calloc : Mem → κ → Nat × Mem × κ) (calloc' : Mem → κ' → Nat × Mem × κ') :
    Prop where
  page : ∀ m k, (calloc' m (f k)).1 = (calloc m k).1
  rest : ∀ m k, (calloc m k).1 ≠ 0 → (calloc' m (f k)).2 = ((calloc m k).2.1, f (calloc m k).2.2)

section Sim

variable {f : κ → κ'} {calloc : Mem → κ → Nat × Mem × κ} {calloc' : Mem → κ' → Nat × Mem × κ'}
  {mmuOn : Bool}

theorem fillEntry_sim (h : AllocSim f calloc calloc') (phyAddr attrs layer entry : Nat) (st : PtState κ) :
    fillEntry calloc' mmuOn phyAddr attrs layer entry (st.mapAlloc f) =
      (fillEntry calloc mmuOn phyAddr attrs layer entry st).map (PtState.mapAlloc f) := by
  by_cases hlayer : layer = 12
  · rw [fillEntry, fillEntry, if_neg (not_not.2 hlayer), if_neg (not_not.2 hlayer)]
    rfl
  · have hpage := h.page st.mem st.alloc
    have hrest := h.rest st.mem st.alloc
    rcases hcall : calloc st.mem st.alloc with ⟨p, m, k⟩
    rcases hcall' : calloc' st.mem (f st.alloc) with ⟨p', rest⟩
    rw [hcall, hcall'] at hpage hrest
    obtain rfl : p' = p := hpage
    simp only [fillEntry, if_pos hlayer, PtState.mapAlloc, hcall, hcall']
    by_cases hp : p' = 0
    · rw [if_pos hp, if_pos hp]
      rfl
    · obtain rfl : rest = (m, f k) := hrest hp
      rw [if_neg hp, if_neg hp]
      split_ifs <;> rfl

theorem setupPgLoop_sim (h : AllocSim f calloc calloc') (phyAddr virtAddr attrs : Nat) :
    ∀ (ls : List Nat) (table : Nat) (st : PtState κ),
      setupPgLoop calloc' mmuOn phyAddr virtAddr attrs ls table (st.mapAlloc f) =
        (setupPgLoop calloc mmuOn phyAddr virtAddr attrs ls table st).map (PtState.mapAlloc f) := by
  intro ls
  induction ls with
  | nil =>
      intro table st
      rfl
  | cons layer ls ih =>
      intro table st
      rw [setupPgLoop, setupPgLoop]
      have hmem : (st.mapAlloc f).mem = st.mem := rfl
      have hentry : (if load st.mem (entryAddr table (getPgEntryIndex virtAddr layer)) 8 = 0 then
            fillEntry calloc' mmuOn phyAddr attrs layer (entryAddr table (getPgEntryIndex virtAddr layer))
              (st.mapAlloc f)
          else .ok (st.mapAlloc f)) =
          (if load st.mem (entryAddr table (getPgEntryIndex virtAddr layer)) 8 = 0 then
            fillEntry calloc mmuOn phyAddr attrs layer (entryAddr table (getPgEntryIndex virtAddr layer)) st
          else .ok st).map (PtState.mapAlloc f) := by
        split_ifs
        · exact fillEntry_sim h ..
        · rfl
      rw [hmem, hentry]
      generalize (if load st.mem (entryAddr table (getPgEntryIndex virtAddr layer)) 8 = 0 then
        fillEntry calloc mmuOn phyAddr attrs layer (entryAddr table (getPgEntryIndex virtAddr layer)) st
        else .ok st) = first
      cases first with
      | error e => rfl
      | ok st₁ => exact ih _ st₁

theorem addSingleMapLoop_sim (h : AllocSim f calloc calloc') (pgDirStart endAddr attrs : Nat) :
    ∀ (fuel phyAddr virtAddr : Nat) (st : PtState κ),
      addSingleMapLoop calloc' mmuOn pgDirStart endAddr attrs fuel phyAddr virtAddr (st.mapAlloc f) =
        (addSingleMapLoop calloc mmuOn pgDirStart endAddr attrs fuel phyAddr virtAddr st).map
          (PtState.mapAlloc f) := by
  intro fuel
  induction fuel with
  | zero =>
      intro phyAddr virtAddr st
      rw [addSingleMapLoop, addSingleMapLoop]
      split_ifs <;> rfl
  | succ fuel ih =>
      intro phyAddr virtAddr st
      rw [addSingleMapLoop, addSingleMapLoop]
      split_ifs
      · rw [setupPgForAddr, setupPgLoop_sim h, ← setupPgForAddr]
        cases setupPgForAddr calloc mmuOn pgDirStart phyAddr virtAddr attrs st with
        | error e => rfl
        | ok st₁ => exact ih _ _ st₁
      · rfl

/-- The tables are the same. -/
theorem addSingleMap_sim (h : AllocSim f calloc calloc') (pgDirStart : Nat) (m : MemoryMap)
    (st : PtState κ) :
    addSingleMap calloc' mmuOn pgDirStart m (st.mapAlloc f) =
      (addSingleMap calloc mmuOn pgDirStart m st).map (PtState.mapAlloc f) := by
  rw [addSingleMap, addSingleMapLoop_sim h, addSingleMap]

end Sim

/-! ## The frames of a range -/

/-- A page between two addresses. -/
def FrameOf (start endAddr a : Nat) : Prop := pageSize ∣ a ∧ start ≤ a ∧ a < endAddr

instance (start endAddr a : Nat) : Decidable (FrameOf start endAddr a) :=
  inferInstanceAs (Decidable (_ ∧ _))

/-- The loop of `add_single_map` has enough iterations. -/
theorem range_le_run (start size : Nat) : start + size ≤ start + pageSize * (size / pageSize + 1) := by
  simp only [pageSize]
  omega

/-- The loop of `add_single_map` maps frames of its range only, however long the range is. -/
theorem addSingleMapLoop_frames {calloc : Mem → κ → Nat × Mem × κ} {mmuOn : Bool} {given : κ → Set Nat}
    {d attrs endAddr : Nat} (hc : PgCallocOk calloc mmuOn given) (hattrs : AttrsOk attrs)
    (h64 : attrs < 2 ^ 64) (hend : endAddr ≤ 2 ^ 48) :
    ∀ {fuel phy virt : Nat} {st : PtState κ} {T : Set Nat}, pageSize ∣ phy →
      endAddr ≤ phy + pageSize * fuel → PtWf mmuOn st.mem d T → T ⊆ given st.alloc →
      addSingleMapLoop calloc mmuOn (linear mmuOn d) endAddr attrs fuel phy virt st =
          .error .assertFailed ∨
      ∃ st' T', addSingleMapLoop calloc mmuOn (linear mmuOn d) endAddr attrs fuel phy virt st = .ok st' ∧
        PtWf mmuOn st'.mem d T' ∧ TablesGrow mmuOn given d st st' T T' ∧
        ∀ v a, lookup mmuOn st'.mem d v = some a → lookup mmuOn st.mem d v = some a ∨
          FrameOf phy endAddr a := by
  intro fuel
  induction fuel with
  | zero =>
      intro phy virt st T _ hfuel hwf hT
      refine Or.inr ⟨st, T, ?_, hwf, TablesGrow.refl hT, fun _ _ h => Or.inl h⟩
      rw [addSingleMapLoop, if_neg (by omega)]
  | succ fuel ih =>
      intro phy virt st T hphy hfuel hwf hT
      rw [addSingleMapLoop]
      by_cases hlt : phy < endAddr
      · rw [if_pos hlt]
        rcases setupPgForAddr_spec hc hwf hT hattrs h64 (show PhysOk phy from ⟨hphy, by omega⟩) virt with
          herr | ⟨st₁, T₁, hok, hwf₁, hgrow₁, hlook⟩
        · exact Or.inl (by rw [herr]; rfl)
        have hnext : add64 phy pageSize = phy + pageSize := by
          simp only [add64, pageSize]
          omega
        rw [hok, hnext]
        have hfuel' : endAddr ≤ phy + pageSize + pageSize * fuel := by
          rw [Nat.mul_succ] at hfuel
          omega
        rcases @ih (phy + pageSize) (add64 virt pageSize) st₁ T₁ (Nat.dvd_add hphy (Nat.dvd_refl _)) hfuel'
          hwf₁ hgrow₁.tables_given with herr | ⟨st', T', hok', hwf', hgrow', hnew⟩
        · exact Or.inl herr
        refine Or.inr ⟨st', T', hok', hwf', hgrow₁.trans hgrow', fun v a ha => ?_⟩
        rcases hnew v a ha with hone | ⟨hdvd, hge, hle⟩
        · -- mapped by the first page of the range, or before
          rw [hlook] at hone
          split_ifs at hone with hpath
          · cases hold : lookup mmuOn st.mem d v with
            | some b =>
                rw [hold, Option.getD_some] at hone
                exact Or.inl hone
            | none =>
                rw [hold, Option.getD_none] at hone
                obtain rfl := Option.some.inj hone
                exact Or.inr ⟨hphy, Nat.le_refl _, hlt⟩
          · exact Or.inl hone
        · exact Or.inr ⟨hdvd, by omega, hle⟩
      · rw [if_neg hlt]
        exact Or.inr ⟨st, T, rfl, hwf, TablesGrow.refl hT, fun _ _ h => Or.inl h⟩

/-! ## The state of the allocator -/

section Alloc

variable {calloc : Mem → κ → Nat × Mem × κ} {P : κ → Prop} {mmuOn : Bool} {st st' : PtState κ}

theorem fillEntry_alloc (hP : ∀ m k, P k → P (calloc m k).2.2) {phyAddr attrs layer entry : Nat}
    (h : P st.alloc) (hrun : fillEntry calloc mmuOn phyAddr attrs layer entry st = .ok st') :
    P st'.alloc := by
  have hcall := hP st.mem st.alloc h
  rcases hpage : calloc st.mem st.alloc with ⟨p, m, k⟩
  rw [hpage] at hcall
  simp only [fillEntry, hpage] at hrun
  split_ifs at hrun <;> cases hrun
  · exact hcall
  · exact h

theorem setupPgLoop_alloc (hP : ∀ m k, P k → P (calloc m k).2.2) (phyAddr virtAddr attrs : Nat) :
    ∀ {ls : List Nat} {table : Nat} {st st' : PtState κ}, P st.alloc →
      setupPgLoop calloc mmuOn phyAddr virtAddr attrs ls table st = .ok st' → P st'.alloc := by
  intro ls
  induction ls with
  | nil =>
      intro table st st' h hrun
      cases hrun
      exact h
  | cons layer ls ih =>
      intro table st st' h hrun
      rw [setupPgLoop] at hrun
      split_ifs at hrun with hload
      · rcases hfill : fillEntry calloc mmuOn phyAddr attrs layer
          (entryAddr table (getPgEntryIndex virtAddr layer)) st with e | st₁
        · rw [hfill] at hrun
          cases hrun
        · rw [hfill] at hrun
          exact ih (fillEntry_alloc hP h hfill) hrun
      · exact ih h hrun

/-- What a call of `pg_calloc_func` keeps holds after a range has been mapped. -/
theorem addSingleMap_alloc (hP : ∀ m k, P k → P (calloc m k).2.2) {pgDirStart : Nat} {map : MemoryMap}
    (h : P st.alloc) (hrun : addSingleMap calloc mmuOn pgDirStart map st = .ok st') : P st'.alloc := by
  rw [addSingleMap] at hrun
  generalize map.size / pageSize + 1 = fuel at hrun
  generalize map.phyAddr = phyAddr at hrun
  generalize map.virtAddr = virtAddr at hrun
  generalize add64 phyAddr map.size = endAddr at hrun
  induction fuel generalizing phyAddr virtAddr st with
  | zero =>
      rw [addSingleMapLoop] at hrun
      split_ifs at hrun
      cases hrun
      exact h
  | succ fuel ih =>
      rw [addSingleMapLoop] at hrun
      split_ifs at hrun
      · rcases hpage : setupPgForAddr calloc mmuOn pgDirStart phyAddr virtAddr map.attrs st with e | st₁
        · rw [hpage] at hrun
          cases hrun
        · rw [hpage] at hrun
          exact ih (setupPgLoop_alloc hP phyAddr virtAddr map.attrs h hpage) _ _ hrun
      · cases hrun
        exact h

end Alloc

/-! ## The list -/

/-- The allocator, with the list of the pointers that it has handed out. -/
def logCalloc (calloc : Mem → κ → Nat × Mem × κ) (m : Mem) (k : κ × List Nat) :
    Nat × Mem × (κ × List Nat) :=
  let (p, m', k') := calloc m k.1
  (p, m', k', if p = 0 then k.2 else k.2 ++ [p])

/-- The pages of the list. -/
def logged (mmuOn : Bool) (k : κ × List Nat) : Set Nat := {n | n ∈ k.2.map (physical mmuOn)}

/-- The pointers of the list are different pages that have been given away. -/
structure LogOk (mmuOn : Bool) (given : κ → Set Nat) (k : κ × List Nat) : Prop where
  nodup : (k.2.map (physical mmuOn)).Nodup
  given : logged mmuOn k ⊆ given k.1
  lt : ∀ p ∈ k.2, p < 2 ^ 64

section Log

variable {calloc : Mem → κ → Nat × Mem × κ} {mmuOn : Bool} {given : κ → Set Nat} {m : Mem} {d : Nat}

theorem allocSim_unlog (calloc : Mem → κ → Nat × Mem × κ) : AllocSim Prod.fst (logCalloc calloc) calloc :=
  ⟨fun _ _ => rfl, fun _ _ _ => rfl⟩

/-- The list changes nothing. -/
theorem addSingleMap_unlogged (pgDirStart : Nat) (map : MemoryMap) (st : PtState (κ × List Nat)) :
    (addSingleMap (logCalloc calloc) mmuOn pgDirStart map st).map (PtState.mapAlloc Prod.fst) =
      addSingleMap calloc mmuOn pgDirStart map (st.mapAlloc Prod.fst) :=
  (addSingleMap_sim (allocSim_unlog calloc) pgDirStart map st).symm

theorem logged_append (k : κ) (log : List Nat) (p : Nat) :
    logged mmuOn (k, log ++ [p]) = insert (physical mmuOn p) (logged mmuOn (k, log)) := by
  ext n
  simp only [logged, List.map_append, List.map_cons, List.map_nil, Set.mem_ofPred_eq, List.mem_append,
    List.mem_singleton, Set.mem_insert_iff, or_comm]

/-- The page handed out next is not in the list. -/
theorem LogOk.append {k : κ × List Nat} (h : LogOk mmuOn given k) (hc : PgCallocOk calloc mmuOn given)
    (hp : (calloc m k.1).1 ≠ 0) :
    physical mmuOn (calloc m k.1).1 ∉ logged mmuOn k ∧
      LogOk mmuOn given ((calloc m k.1).2.2, k.2 ++ [(calloc m k.1).1]) := by
  obtain ⟨k, log⟩ := k
  rcases hcall : calloc m k with ⟨p, m', k'⟩
  simp only [hcall] at hp ⊢
  obtain ⟨hfresh, hgiven⟩ := hc.fresh hcall hp
  have hnew : physical mmuOn p ∉ logged mmuOn (k, log) := fun hin => hfresh (h.given hin)
  refine ⟨hnew, ?_, ?_, ?_⟩
  · simp only [List.map_append, List.map_cons, List.map_nil]
    rw [List.nodup_append]
    refine ⟨h.nodup, by simp, ?_⟩
    rintro n hn q hq rfl
    rw [List.mem_singleton] at hq
    exact hnew (hq ▸ hn)
  · rw [logged_append, hgiven]
    exact Set.insert_subset_insert h.given
  · intro q hq
    rcases List.mem_append.1 hq with hq | hq
    · exact h.lt q hq
    · rw [List.mem_singleton.1 hq]
      exact (hc.lt hcall hp).1

/-- The allocator on lists that are true; a call that fails leaves no trace. -/
def okCalloc (hc : PgCallocOk calloc mmuOn given) (m : Mem) (k : { k // LogOk mmuOn given k }) :
    Nat × Mem × { k // LogOk mmuOn given k } :=
  if hp : (calloc m k.val.1).1 = 0 then (0, m, k)
  else
    ((calloc m k.val.1).1, (calloc m k.val.1).2.1,
      ⟨((calloc m k.val.1).2.2, k.val.2 ++ [(calloc m k.val.1).1]), (k.property.append hc hp).2⟩)

theorem allocSim_okCalloc (hc : PgCallocOk calloc mmuOn given) :
    AllocSim Subtype.val (okCalloc hc) (logCalloc calloc) := by
  refine ⟨fun m k => ?_, fun m k hne => ?_⟩
  · rw [okCalloc]
    split_ifs with hp
    · exact hp
    · rfl
  · by_cases hp : (calloc m k.val.1).1 = 0
    · rw [okCalloc, dif_pos hp] at hne
      exact absurd rfl hne
    · rw [okCalloc, dif_neg hp]
      simp only [logCalloc, if_neg hp]

/-- To this allocator only the pages of the list are taken. -/
theorem okCalloc_ok (hc : PgCallocOk calloc mmuOn given) :
    PgCallocOk (okCalloc hc) mmuOn fun k => logged mmuOn k.val := by
  have hcall : ∀ {m p m'} {k k' : { k // LogOk mmuOn given k }}, okCalloc hc m k = (p, m', k') → p ≠ 0 →
      calloc m k.val.1 = (p, m', k'.val.1) ∧ k'.val.2 = k.val.2 ++ [p] := by
    intro m p m' k k' hcall hp
    by_cases hzero : (calloc m k.val.1).1 = 0
    · rw [okCalloc, dif_pos hzero] at hcall
      exact absurd (congrArg Prod.fst hcall).symm hp
    · rw [okCalloc, dif_neg hzero] at hcall
      obtain ⟨rfl, hrest⟩ := Prod.mk.inj hcall
      obtain ⟨rfl, rfl⟩ := Prod.mk.inj hrest
      exact ⟨rfl, rfl⟩
  refine ⟨fun h hp => ?_, fun h hp => ?_, fun {m k p m' k'} h hp => ?_, fun h hp => ?_, fun h hp => ?_⟩
  · exact hc.aligned (hcall h hp).1 hp
  · exact hc.lt (hcall h hp).1 hp
  · obtain ⟨h₁, h₂⟩ := hcall h hp
    have hp' : (calloc m k.val.1).1 ≠ 0 := by rwa [h₁]
    have hnew := (k.property.append hc hp').1
    rw [h₁] at hnew
    refine ⟨hnew, ?_⟩
    have hlog := @logged_append κ mmuOn k'.val.1 k.val.2 p
    rw [← h₂] at hlog
    exact hlog
  · exact hc.zero (hcall h hp).1 hp
  · exact hc.same (hcall h hp).1 hp

/-- The tables of the tree with root `d` are the pages of the list. -/
structure TableLog (mmuOn : Bool) (given : κ → Set Nat) (d : Nat) (st : PtState (κ × List Nat)) : Prop where
  log : LogOk mmuOn given st.alloc
  tables : PtWf mmuOn st.mem d (logged mmuOn st.alloc)
  reached : ∀ n ∈ logged mmuOn st.alloc, Reached mmuOn st.mem d n

/-- A range is mapped: the new tables are the pages that have been handed out. -/
theorem TableLog.addSingleMap {st : PtState (κ × List Nat)} (h : TableLog mmuOn given d st)
    (hc : PgCallocOk calloc mmuOn given) {map : MemoryMap} (hphy : pageSize ∣ map.phyAddr)
    (hend : map.phyAddr + map.size ≤ 2 ^ 48) (hattrs : AttrsOk map.attrs) (h64 : map.attrs < 2 ^ 64) :
    Mm.addSingleMap (logCalloc calloc) mmuOn (linear mmuOn d) map st = .error .assertFailed ∨
    ∃ st', Mm.addSingleMap (logCalloc calloc) mmuOn (linear mmuOn d) map st = .ok st' ∧
      TableLog mmuOn given d st' ∧ logged mmuOn st.alloc ⊆ logged mmuOn st'.alloc ∧
      (∀ x, (∀ n ∈ logged mmuOn st'.alloc, ¬InPage mmuOn n x) → st'.mem x = st.mem x) ∧
      ∀ v a, lookup mmuOn st'.mem d v = some a → lookup mmuOn st.mem d v = some a ∨
        FrameOf map.phyAddr (map.phyAddr + map.size) a := by
  have hadd : add64 map.phyAddr map.size = map.phyAddr + map.size := add64_of_lt (by omega)
  -- the state with its list as a true one
  obtain ⟨stOk, rfl⟩ : ∃ stOk : PtState { k // LogOk mmuOn given k }, stOk.mapAlloc Subtype.val = st :=
    ⟨⟨st.mem, ⟨st.alloc, h.log⟩⟩, rfl⟩
  have hwf : PtWf mmuOn stOk.mem d (logged mmuOn stOk.alloc.val) := h.tables
  rw [addSingleMap_sim (allocSim_okCalloc hc), Mm.addSingleMap, hadd]
  rcases addSingleMapLoop_frames (okCalloc_ok hc) hattrs h64 hend hphy (range_le_run _ _) hwf
    (Set.Subset.refl _) with herr | ⟨st', T', hok, hwf', hgrow, hlook⟩
  · exact Or.inl (by rw [herr]; rfl)
  have hT : T' = logged mmuOn st'.alloc.val := by
    refine Set.Subset.antisymm hgrow.tables_given fun n hn => ?_
    rcases hgrow.given_new n hn with hold | hnew
    · exact hgrow.subset hold
    · exact hnew
  subst hT
  exact Or.inr ⟨st'.mapAlloc Subtype.val, by rw [hok]; rfl,
    ⟨st'.alloc.property, hwf', hgrow.reached h.reached⟩, hgrow.subset, hgrow.frame, hlook⟩

end Log

end Mm
end ToutOS
