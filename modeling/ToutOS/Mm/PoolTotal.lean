import ToutOS.Mm.PoolRuns

/-!
# PoolTotal — the bytes that are in use

`total_length` is counted up by `alloc_mem` and down by `free_mem`, from the sizes in the headers;
`get_pool_malloc_total_length` adds the sizes up again.

* `walkBlks`, `walkBlks_spec` — a walk over the blocks that folds a function;
* `getPoolMallocTotalLength` — the sum over the blocks in use, compared with the counter;
* `Tallied`, `poolStep_tallied` — the counter is the sum of the sizes in the callers' hands;
* `poolRun_total` — in every run the two agree.
-/

namespace ToutOS
namespace Mm

open Base

/-! ## Walks -/

section Walk

variable {α : Type} {pool : MemPool} {m : Mem}

/-- `for (p = …; p != NULL; p = next_mem_blk(pool, p))` with a body that updates `acc`. -/
def walkBlks (pool : MemPool) (m : Mem) (body : α → Nat → α) : Nat → Nat → α → Option α
  | 0, p, acc => if p = 0 then some acc else none
  | fuel + 1, p, acc =>
      if p = 0 then some acc else walkBlks pool m body fuel (nextMemBlk pool m p) (body acc p)

theorem walkBlks_null {body : α → Nat → α} {fuel : Nat} {acc : α} :
    walkBlks pool m body fuel 0 acc = some acc := by
  cases fuel <;> simp [walkBlks]

/-- The walk visits the blocks in order. -/
theorem walkBlks_spec (hpool : PoolBounds pool) (body : α → Nat → α) :
    ∀ {fuel a : Nat} {b : Blk} {bs : List Blk} {acc : α}, a ≠ 0 → Laid m a (b :: bs) pool.end_ →
      (b :: bs).length ≤ fuel → walkBlks pool m body fuel a acc =
        some (((placed Blk.len a (b :: bs)).map Prod.fst).foldl body acc) := by
  intro fuel
  induction fuel with
  | zero =>
      intro a b bs acc _ _ hfuel
      simp at hfuel
  | succ fuel ih =>
      intro a b bs acc ha hlaid hfuel
      obtain ⟨hb, hrest⟩ := tiles_cons.1 hlaid
      have hlen := b.len_ge
      rw [walkBlks, if_neg ha]
      cases bs with
      | nil => rw [nextMemBlk_last hpool hb.toHdrAt (tiles_nil.1 hrest), walkBlks_null]; rfl
      | cons c bs =>
          have hc := c.len_ge
          have hend := hrest.2
          simp only [span_cons] at hend
          rw [nextMemBlk_inner hpool hb.toHdrAt (by omega), ih (by omega) hrest (by simpa using hfuel)]
          rfl

end Walk

/-! ## The sum -/

/-- `get_pool_malloc_total_length`: the value that is returned, and whether the sums differ. -/
def getPoolMallocTotalLength (pool : MemPool) (m : Mem) : Option (Nat × Bool) :=
  (walkBlks pool m (fun totalLength p =>
      if isBlkFree m p then totalLength else add64 totalLength (userLen m p))
    pool.fuel pool.start 0).map fun totalLength =>
      if pool.totalLength ≠ totalLength then (2 ^ 64 - 1, true) else (pool.totalLength, false)

/-- The sizes asked for, added up. -/
def sizes (live : List (Nat × Nat)) : Nat := (live.map Prod.snd).sum

@[simp] theorem sizes_nil : sizes [] = 0 := rfl

@[simp] theorem sizes_cons (p n : Nat) (live : List (Nat × Nat)) :
    sizes ((p, n) :: live) = n + sizes live := by
  simp [sizes]

/-- The loop adds up the sizes in the headers of the blocks in use. -/
theorem foldl_userLen {m : Mem} :
    ∀ {l : List (Nat × Blk)} {total : Nat}, (∀ x b, (x, b) ∈ l → HdrAt m x b) → total < 2 ^ 64 →
      (l.map Prod.fst).foldl (fun total p => if isBlkFree m p then total else add64 total (userLen m p))
        total = (total + sizes ((l.filter fun xb => !xb.2.isFree).map liveOf)) % 2 ^ 64 := by
  intro l
  induction l with
  | nil =>
      intro total _ htotal
      exact (Nat.mod_eq_of_lt htotal).symm
  | cons xb l ih =>
      obtain ⟨x, b⟩ := xb
      intro total hl htotal
      have hb := hl x b (List.mem_cons_self ..)
      have hrest : ∀ y c, (y, c) ∈ l → HdrAt m y c := fun y c hc => hl y c (List.mem_cons_of_mem _ hc)
      rw [List.map_cons, List.foldl_cons, hb.isBlkFree_eq]
      cases hfree : b.isFree with
      | true =>
          rw [List.filter_cons_of_neg (by simp [hfree])]
          exact ih hrest htotal
      | false =>
          obtain ⟨n, hn⟩ : ∃ n, b.user = some n := by
            cases huser : b.user with
            | none => simp [Blk.isFree, huser] at hfree
            | some n => exact ⟨n, rfl⟩
          have hlt : add64 total n < 2 ^ 64 := Nat.mod_lt _ (by decide)
          rw [List.filter_cons_of_pos (by simp [hfree]), List.map_cons, liveOf, hn, Option.getD_some,
            sizes_cons, (hb.user n hn).2, if_neg (by simp), ih hrest hlt, add64]
          omega

/-! ## The counter -/

variable {σ : Type} {sbrkFunc : σ → Nat → Option Nat × σ} {brk : σ → Nat} {base : Nat}

/-- The counter is the sum of the sizes in the callers' hands. -/
def Tallied (s : PoolSys σ) : Prop := s.st.pool.totalLength = sizes s.live % 2 ^ 64

/-- One pointer less. -/
theorem sizes_forget {p n : Nat} :
    ∀ {live : List (Nat × Nat)}, (live.map Prod.fst).Nodup → (p, n) ∈ live →
      sizes live = n + sizes (PoolSys.forget live p) := by
  intro live
  induction live with
  | nil =>
      intro _ hmem
      cases hmem
  | cons q live ih =>
      obtain ⟨q, k⟩ := q
      intro hnodup hmem
      obtain ⟨hq, hlive⟩ := List.nodup_cons.1 hnodup
      rcases List.mem_cons.1 hmem with heq | hmem
      · obtain ⟨rfl, rfl⟩ := Prod.mk.inj heq
        -- the pointer does not occur again
        have hsame : PoolSys.forget live p = live := by
          refine List.filter_eq_self.2 fun r hr => ?_
          simp only [decide_eq_true_eq]
          rintro rfl
          exact hq (List.mem_map.2 ⟨r, hr, rfl⟩)
        rw [sizes_cons, PoolSys.forget, List.filter_cons_of_neg (by simp)]
        exact congrArg (fun l => n + sizes l) hsame.symm
      · have hne : q ≠ p := by
          rintro rfl
          exact hq (List.mem_map.2 ⟨_, hmem, rfl⟩)
        rw [sizes_cons, PoolSys.forget, List.filter_cons_of_pos (by simpa using hne), sizes_cons,
          ih hlive hmem, PoolSys.forget]
        omega

theorem poolStep_tallied (hsbrk : ContiguousSbrk sbrkFunc brk base) {s s' : PoolSys σ} {bs : List Blk}
    {a : PoolAction} (h : PoolInv brk base s bs) (ht : Tallied s) (ha : CallersInPayload s a)
    (hstep : poolStep sbrkFunc s a = some s') : Tallied s' := by
  cases a with
  | alloc size =>
      obtain ⟨p, st', k, halloc, -, -, hres⟩ := allocMem_spec hsbrk h.wf size.toNat_lt
      simp only [poolStep, halloc, Option.map_some, Option.some.injEq] at hstep
      rw [← hstep, Tallied]
      rcases hres with ⟨rfl, -, htotal⟩ | ⟨pre, b, post, -, -, -, rfl, -, htotal, -⟩
      · rw [htotal, PoolSys.record, if_pos rfl]
        exact ht
      · rw [htotal, PoolSys.record, if_neg (by omega), sizes_cons, ht, add64]
        omega
  | free p =>
      rcases ha with hnull | ⟨n, hlive⟩ | hrefused
      · obtain ⟨hfree, hforget⟩ := freeMem_refused h (Or.inl hnull)
        simp only [poolStep, hfree, hforget, Option.map_some, Option.some.injEq] at hstep
        rwa [← hstep]
      · obtain ⟨x, b, hxb, rfl, huser⟩ := h.mem_live.1 hlive
        obtain ⟨pre, post, rfl, rfl⟩ := mem_placed.1 (mem_used.1 hxb).1
        obtain ⟨st', hfree, -, -, -, htotal⟩ := freeMem_spec h.wf huser
        simp only [poolStep, hfree, Option.map_some, Option.some.injEq] at hstep
        rw [← hstep, Tallied, htotal, ht, sizes_forget h.pointers_nodup hlive, sub64]
        dsimp only
        omega
      · obtain ⟨hfree, hforget⟩ := freeMem_refused h (Or.inr hrefused)
        simp only [poolStep, hfree, hforget, Option.map_some, Option.some.injEq] at hstep
        rwa [← hstep]
  | write x v =>
      simp only [poolStep, Option.some.injEq] at hstep
      rwa [← hstep]

/-- The walk comes to the sum of the sizes in the callers' hands. -/
theorem PoolInv.walk_total {s : PoolSys σ} {bs : List Blk} (h : PoolInv brk base s bs)
    (ht : Tallied s) : getPoolMallocTotalLength s.st.pool s.st.mem =
      some (sizes s.live % 2 ^ 64, false) := by
  obtain ⟨b, cs, rfl⟩ := List.exists_cons_of_ne_nil h.wf.ne_nil
  have hstart := h.wf.bounds.start_ge
  have hfuel := length_le_span (b :: cs)
  have hend := h.wf.laid.2
  have hsum : sizes ((used base (b :: cs)).map liveOf) = sizes s.live :=
    ((h.live.map Prod.snd).sum_nat).symm
  rw [getPoolMallocTotalLength, walkBlks_spec h.wf.bounds _ (by omega) h.wf.laid
    (by rw [MemPool.fuel]; omega), foldl_userLen (fun x c hc => (h.wf.laid.1 x c hc).toHdrAt) (by decide)]
  have hsame : s.st.pool.totalLength = sizes s.live % 2 ^ 64 := ht
  rw [h.wf.start_eq, ← used, hsum, Nat.zero_add, Option.map_some, if_neg (not_not_intro hsame), hsame]

/-- Whatever is allocated and freed in whatever order, the counter is the sum of the sizes in the
callers' hands modulo `2 ^ 64`, and the walk comes to the same sum. -/
theorem poolRun_total {m : Mem} {k : σ} {st : PoolState σ} {acts : List PoolAction}
    (hsbrk : ContiguousSbrk sbrkFunc brk (brk k)) (hinit : initMm sbrkFunc m k = some st)
    (hacts : Along (poolStep sbrkFunc) CallersInPayload { st := st, live := [] } acts) :
    ∃ s, runFrom (poolStep sbrkFunc) { st := st, live := [] } acts = some s ∧
      s.st.pool.totalLength = (s.live.map Prod.snd).sum % 2 ^ 64 ∧
      getPoolMallocTotalLength s.st.pool s.st.mem =
        some ((s.live.map Prod.snd).sum % 2 ^ 64, false) := by
  have hstart : Tallied { st := st, live := [] } := (initMm_spec hsbrk rfl hinit).2
  obtain ⟨s, hrun, ⟨bs, h⟩, ht⟩ := runFrom_progress_along
    (I := fun s => (∃ bs, PoolInv brk (brk k) s bs) ∧ Tallied s)
    (fun s a ⟨⟨bs, h⟩, ht⟩ ha => by
      obtain ⟨s', bs', hstep, hinv⟩ := poolStep_inv hsbrk h ha
      exact ⟨s', hstep, ⟨bs', hinv⟩, poolStep_tallied hsbrk h ht ha hstep⟩)
    ⟨⟨_, (initMm_inv hsbrk rfl hinit).1⟩, hstart⟩ hacts
  exact ⟨s, hrun, ht, h.walk_total ht⟩

/-- A block is split, a pointer is refused and a block is merged again. -/
theorem poolRun_total_kmalloc :
    ∃ s, runFrom (poolStep kernelMockSbrk) { st := kmallocPool, live := [] }
        [.alloc 24, .alloc 100, .free 5, .free (memPoolStart + 32), .alloc (2 ^ 64 - 1)] = some s ∧
      s.st.pool.totalLength = (s.live.map Prod.snd).sum % 2 ^ 64 ∧
      getPoolMallocTotalLength s.st.pool s.st.mem =
        some ((s.live.map Prod.snd).sum % 2 ^ 64, false) :=
  poolRun_total kernelMockSbrk_contiguous kmallocPool_init (by decide +kernel)

end Mm
end ToutOS
