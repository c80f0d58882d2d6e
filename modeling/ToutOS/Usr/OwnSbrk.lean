import ToutOS.Usr.Stdlib

/-!
# OwnSbrk — a program that moves the break itself

`enlarge_mem_pool` takes the new memory where `sbrk` says, and moves the end of the pool by as much.
These are the same only while nobody but the pool moves the break.

* `OwnSys`, `ownStep` — calls of `malloc` and `free` mixed with calls of `sbrk`; the ghost list `own`
  holds what the program has got from `sbrk`;
* `GrowsInPlace` — the pool need not grow, cannot grow, or ends at the break;
* `stuckSbrk`, `allocMem_stuck` — a call that does not grow the pool is one with an `sbrk` that fails;
* `OwnInv`, `ownStep_inv` — the pool ends in front of the program's own memory;
* `ownRun_apart` — what follows for runs.
-/

namespace ToutOS
namespace Usr

open Base Mm Kernel

variable {σ : Type} (sbrkFunc : σ → Nat → Option Nat × σ)

/-! ## The program -/

structure OwnSys (σ : Type) where
  sys : PoolSys σ
  /-- The ranges that the program has got from its calls of `sbrk`. -/
  own : List (Nat × Nat)

inductive OwnAction
  /-- A call of `malloc` or `free`, or a write. -/
  | pool (a : PoolAction)
  /-- `sbrk(n)`. -/
  | sbrk (n : Nat)
  deriving DecidableEq

def ownStep (s : OwnSys σ) : OwnAction → Option (OwnSys σ)
  | .pool a => (poolStep sbrkFunc s.sys a).map fun sys => { s with sys := sys }
  | .sbrk n =>
      match sbrkFunc s.sys.st.sbrk n with
      | (none, k) => some { s with sys := { s.sys with st := { s.sys.st with sbrk := k } } }
      | (some r, k) =>
          some { sys := { s.sys with st := { s.sys.st with sbrk := k } }, own := (r, n) :: s.own }

/-- The program frees what it owns, writes to its blocks and to what is not the pool's, and asks
`sbrk` for memory. -/
def OwnCallers (s : OwnSys σ) : OwnAction → Prop
  | .pool a => CallersInPayload s.sys a
  | .sbrk n => 0 < n

instance (s : OwnSys σ) : (a : OwnAction) → Decidable (OwnCallers s a)
  | .pool a => inferInstanceAs (Decidable (CallersInPayload s.sys a))
  | .sbrk n => inferInstanceAs (Decidable (0 < n))

/-- A free block of the pool is big enough. -/
def HasFit (st : PoolState σ) (size : Nat) : Prop :=
  walkBlks st.pool st.mem (fun found p => found || (isBlkFree st.mem p && bigMemBlk st.mem p size))
    st.pool.fuel st.pool.start false = some true

instance (st : PoolState σ) (size : Nat) : Decidable (HasFit st size) :=
  inferInstanceAs (Decidable (_ = _))

/-- `malloc` finds a block, or the pool ends at the break, or `sbrk` has no memory left for it. -/
def GrowsInPlace (brk : σ → Nat) (s : OwnSys σ) : OwnAction → Prop
  | .pool (.alloc size) =>
      size = 0 ∨ HasFit s.sys.st (alignedTo8Bytes size.toNat) ∨
        brk s.sys.st.sbrk = s.sys.st.pool.end_ ∨
        (sbrkFunc s.sys.st.sbrk (sub64 s.sys.st.pool.end_ s.sys.st.pool.start)).1 = none
  | _ => True

instance (brk : σ → Nat) (s : OwnSys σ) : (a : OwnAction) → Decidable (GrowsInPlace sbrkFunc brk s a)
  | .pool (.alloc _) => inferInstanceAs (Decidable (_ ∨ _ ∨ _ ∨ _))
  | .pool (.free _) => isTrue trivial
  | .pool (.write _ _) => isTrue trivial
  | .sbrk _ => isTrue trivial

/-! ## Calls that do not grow the pool -/

/-- An `sbrk` that has no memory left. -/
def stuckSbrk (k : σ) (n : Nat) : Option Nat × σ := (none, (sbrkFunc k n).2)

variable {sbrkFunc} {brk : σ → Nat} {base : Nat}

theorem stuckSbrk_contiguous (hsbrk : ContiguousSbrk sbrkFunc brk base) (stop : Nat) :
    ContiguousSbrk (stuckSbrk sbrkFunc) (fun _ => stop) base := by
  refine ⟨fun k n r k' hcall => ?_, fun _ _ _ _ => rfl, hsbrk.base_ge, hsbrk.base_le⟩
  cases (Prod.mk.inj hcall).1

/-- A flag that a loop sets and never clears. -/
theorem foldl_or (f : Nat → Bool) (l : List Nat) (found : Bool) :
    l.foldl (fun found p => found || f p) found = (found || l.any f) := by
  induction l generalizing found with
  | nil => exact (Bool.or_false found).symm
  | cons p l ih => rw [List.foldl_cons, ih, List.any_cons, Bool.or_assoc]

/-- The search over the pool. -/
theorem scanFreeBlk_fit {st : PoolState σ} {bs : List Blk} (h : PoolWf brk base st bs) (size : Nat) :
    ∃ q, scanFreeBlk st.pool st.mem size st.pool.fuel st.pool.start = some q ∧
      (q = 0 → ¬HasFit st size) := by
  obtain ⟨b, cs, rfl⟩ := List.exists_cons_of_ne_nil h.ne_nil
  have hstart := h.bounds.start_ge
  have hfuel := length_le_span (b :: cs)
  have hend := h.laid.2
  have hlimit := h.bounds.size_lt
  have haddr := h.bounds.addr_le
  have hlength : (b :: cs).length ≤ st.pool.fuel := by
    rw [MemPool.fuel]
    omega
  rcases scanFreeBlk_spec size h.bounds (by omega) h.laid hlength with
    ⟨hscan, hnone⟩ | ⟨pre, c, post, -, hscan, -⟩
  · refine ⟨0, hscan, fun _ hfit => ?_⟩
    rw [HasFit, walkBlks_spec h.bounds _ (by omega) h.laid hlength, Option.some.injEq] at hfit
    -- a block at which the flag is set would fit
    rw [foldl_or, Bool.false_or, List.any_eq_true] at hfit
    obtain ⟨p, hp, hbig⟩ := hfit
    obtain ⟨⟨x, c⟩, hc, rfl⟩ := List.mem_map.1 hp
    have hat := (h.laid.1 x c hc).toHdrAt
    have hbounds := placed_bounds hc
    obtain ⟨pre, post, heq, -⟩ := mem_placed.1 hc
    rw [Bool.and_eq_true, hat.isBlkFree_eq, bigMemBlk_iff hat (by omega)] at hbig
    exact hnone c (by rw [heq]; simp) hbig
  · exact ⟨_, hscan, fun hq => by omega⟩

section Search

variable {f : σ → Nat → Option Nat × σ} {st : PoolState σ} {size rounds : Nat}

theorem findAFreeBlk_found {q : Nat}
    (hscan : scanFreeBlk st.pool st.mem size st.pool.fuel st.pool.start = some q) (hq : q ≠ 0) :
    findAFreeBlk f size (rounds + 1) st = some (q, st) := by
  rw [findAFreeBlk, hscan, Option.bind_some, if_pos hq]

theorem findAFreeBlk_refused {k : σ}
    (hscan : scanFreeBlk st.pool st.mem size st.pool.fuel st.pool.start = some 0)
    (hcall : f st.sbrk (sub64 st.pool.end_ st.pool.start) = (none, k)) :
    findAFreeBlk f size (rounds + 1) st = some (0, { st with sbrk := k }) := by
  simp only [findAFreeBlk, hscan, enlargeMemPool, hcall, Option.bind_some, ne_eq, not_true_eq_false,
    if_false, Bool.false_eq_true]

/-- `malloc` need not grow the pool or cannot. -/
def Stuck (sbrkFunc : σ → Nat → Option Nat × σ) (st : PoolState σ) (size : Nat) : Prop :=
  size = 0 ∨ HasFit st (alignedTo8Bytes size) ∨
    (sbrkFunc st.sbrk (sub64 st.pool.end_ st.pool.start)).1 = none

/-- Such a call is one with an `sbrk` that fails, and it does not move the break. -/
theorem allocMem_stuck (hsbrk : ContiguousSbrk sbrkFunc brk base) {brk' : σ → Nat} {bs : List Blk}
    (h : PoolWf brk' base st bs) (hstuck : Stuck sbrkFunc st size) :
    allocMem sbrkFunc st size = allocMem (stuckSbrk sbrkFunc) st size ∧
      ∀ p st', allocMem sbrkFunc st size = some (p, st') → brk st'.sbrk = brk st.sbrk := by
  by_cases hzero : size = 0
  · simp only [allocMem, if_pos hzero]
    refine ⟨trivial, fun p st' hres => ?_⟩
    obtain ⟨-, rfl⟩ := Prod.mk.inj (Option.some.inj hres)
    rfl
  obtain ⟨q, hscan, hfit⟩ := scanFreeBlk_fit h (alignedTo8Bytes size)
  by_cases hq : q = 0
  · -- `sbrk` is asked once
    have hnone := (hstuck.resolve_left hzero).resolve_left (hfit hq)
    rw [hq] at hscan
    rcases hcall : sbrkFunc st.sbrk (sub64 st.pool.end_ st.pool.start) with ⟨o, k⟩
    rw [hcall] at hnone
    obtain rfl : o = none := hnone
    have hstuckCall : stuckSbrk sbrkFunc st.sbrk (sub64 st.pool.end_ st.pool.start) = (none, k) := by
      rw [stuckSbrk, hcall]
    have halloc : ∀ {f}, f st.sbrk (sub64 st.pool.end_ st.pool.start) = (none, k) →
        allocMem f st size = some (0, { st with sbrk := k }) := by
      intro f hf
      have hfind : findAFreeBlk f (alignedTo8Bytes size) 64 st = _ := findAFreeBlk_refused hscan hf
      rw [allocMem, if_neg hzero, getMemBlk, hfind]
      rfl
    rw [halloc hcall, halloc hstuckCall]
    refine ⟨rfl, fun p st' hres => ?_⟩
    obtain ⟨-, rfl⟩ := Prod.mk.inj (Option.some.inj hres)
    exact hsbrk.failure _ _ _ hcall
  · have hfind : ∀ f, findAFreeBlk f (alignedTo8Bytes size) 64 st = some (q, st) := fun f =>
      findAFreeBlk_found hscan hq
    have hfree : ∀ f, allocMem f st size = allocMem sbrkFunc st size := by
      intro f
      rw [allocMem, allocMem, getMemBlk, getMemBlk, hfind, hfind]
    refine ⟨(hfree _).symm, fun p st' hres => ?_⟩
    simp only [allocMem, if_neg hzero, getMemBlk, hfind, Option.map_some, ne_eq, hq, not_false_eq_true,
      if_true] at hres
    obtain ⟨-, rfl⟩ := Prod.mk.inj (Option.some.inj hres)
    rfl

end Search

theorem freeMem_sbrk {st st' : PoolState σ} {p : Nat} (h : freeMem st p = some st') :
    st'.sbrk = st.sbrk := by
  simp only [freeMem] at h
  split_ifs at h
  · obtain rfl := Option.some.inj h
    rfl
  · obtain ⟨m', -, rfl⟩ := Option.map_eq_some_iff.1 h
    rfl
  · obtain rfl := Option.some.inj h
    rfl

/-! ## The invariant -/

/-- The pool ends in front of what the program has got from `sbrk`, all of which lies in front of the
break. -/
structure OwnInv (brk : σ → Nat) (base : Nat) (s : OwnSys σ) (bs : List Blk) : Prop where
  pool : PoolInv (fun _ => s.sys.st.pool.end_) base s.sys bs
  end_le : s.sys.st.pool.end_ ≤ brk s.sys.st.sbrk
  own : ∀ a n, (a, n) ∈ s.own → 0 < n ∧ s.sys.st.pool.end_ ≤ a ∧ a + n ≤ brk s.sys.st.sbrk

/-- A step on the pool that does not move its end. -/
theorem OwnInv.keep {s : OwnSys σ} {bs bs' : List Blk} {sys' : PoolSys σ} (h : OwnInv brk base s bs)
    (hinv : PoolInv (fun _ => s.sys.st.pool.end_) base sys' bs')
    (hbrk : brk sys'.st.sbrk = brk s.sys.st.sbrk) : OwnInv brk base { s with sys := sys' } bs' := by
  have hend : s.sys.st.pool.end_ = sys'.st.pool.end_ := hinv.wf.brk_eq
  refine ⟨hinv.rebrk rfl, ?_, fun a n hmem => ?_⟩
  · rw [← hend, hbrk]
    exact h.end_le
  · rw [← hend, hbrk]
    exact h.own a n hmem

/-- Every step of a run in which the pool grows in place is carried out and keeps the invariant. -/
theorem ownStep_inv (hsbrk : ContiguousSbrk sbrkFunc brk base) {s : OwnSys σ} {bs : List Blk}
    {a : OwnAction} (h : OwnInv brk base s bs) (ha : OwnCallers s a)
    (hgrow : GrowsInPlace sbrkFunc brk s a) :
    ∃ s' bs', ownStep sbrkFunc s a = some s' ∧ OwnInv brk base s' bs' := by
  have hstuckSbrk := stuckSbrk_contiguous hsbrk s.sys.st.pool.end_
  cases a with
  | pool a =>
      cases a with
      | alloc size =>
          by_cases hplace : brk s.sys.st.sbrk = s.sys.st.pool.end_
          · -- the pool ends at the break, so the program has got nothing yet
            have hnone : s.own = [] := by
              refine List.eq_nil_iff_forall_not_mem.2 fun r hr => ?_
              obtain ⟨hpos, hge, hle⟩ := h.own r.1 r.2 hr
              omega
            have hpool : PoolInv brk base s.sys bs := h.pool.rebrk hplace
            have hcaller : CallersInPayload s.sys (.alloc size) := ha
            obtain ⟨sys', bs', hstep, hinv⟩ := poolStep_inv hsbrk hpool hcaller
            have hbrk : brk sys'.st.sbrk = sys'.st.pool.end_ := hinv.wf.brk_eq
            refine ⟨{ s with sys := sys' }, bs', by rw [ownStep, hstep, Option.map_some],
              hinv.rebrk rfl, Nat.le_of_eq hbrk.symm, fun a n hmem => ?_⟩
            rw [hnone] at hmem
            cases hmem
          · have hstuck : Stuck sbrkFunc s.sys.st size.toNat := by
              rcases hgrow with rfl | hfit | hat | hfail
              · exact Or.inl rfl
              · exact Or.inr (Or.inl hfit)
              · exact absurd hat hplace
              · exact Or.inr (Or.inr hfail)
            obtain ⟨hsame, hkeeps⟩ := allocMem_stuck hsbrk h.pool.wf hstuck
            obtain ⟨p, st', bs', halloc, -, hinv, -⟩ := allocMem_inv hstuckSbrk h.pool size.toNat_lt
            rw [← hsame] at halloc
            exact ⟨_, bs', by rw [ownStep, poolStep, halloc, Option.map_some, Option.map_some],
              h.keep hinv (hkeeps p st' halloc)⟩
      | free p =>
          have hfree : CallersInPayload s.sys (.free p) := ha
          obtain ⟨sys', bs', hstep, hinv⟩ := poolStep_inv hstuckSbrk h.pool hfree
          have hstep : poolStep sbrkFunc s.sys (.free p) = some sys' := hstep
          obtain ⟨st', hfree, hsys⟩ := Option.map_eq_some_iff.1 hstep
          refine ⟨{ s with sys := sys' }, bs', by rw [ownStep, hstep, Option.map_some], h.keep hinv ?_⟩
          rw [← hsys]
          exact congrArg brk (freeMem_sbrk hfree)
      | write x v =>
          exact ⟨_, bs, rfl, h.keep (write_inv h.pool ha) rfl⟩
  | sbrk n =>
      have hend := h.end_le
      have hpool : ∀ k, PoolInv (fun _ => s.sys.st.pool.end_) base
          { s.sys with st := { s.sys.st with sbrk := k } } bs := fun k => h.pool.rebrk rfl
      rcases hcall : sbrkFunc s.sys.st.sbrk n with ⟨_ | r, k⟩
      · exact ⟨_, bs, by simp only [ownStep, hcall], h.keep (hpool k) (hsbrk.failure _ _ _ hcall)⟩
      · obtain ⟨hr, hbrk, -⟩ := hsbrk.success _ _ _ _ hcall
        refine ⟨{ sys := { s.sys with st := { s.sys.st with sbrk := k } }, own := (r, n) :: s.own }, bs,
          by simp only [ownStep, hcall], hpool k, ?_, fun a m hmem => ?_⟩
        · dsimp only
          omega
        · dsimp only
          rcases List.mem_cons.1 hmem with heq | hmem
          · obtain ⟨rfl, rfl⟩ := Prod.mk.inj heq
            exact ⟨ha, by omega, by omega⟩
          · obtain ⟨hpos, hge, hle⟩ := h.own a m hmem
            exact ⟨hpos, hge, by omega⟩

/-! ## Runs -/

/-- The pool consists of the blocks `bs`, the walk visits them and nothing else, and none of them overlaps
memory of the program's own. -/
structure PoolApart (s : OwnSys σ) (bs : List Blk) : Prop where
  tiled : TiledBy s.sys bs
  walk : walkBlks s.sys.st.pool s.sys.st.mem (fun seen p => seen ++ [p]) s.sys.st.pool.fuel
    s.sys.st.pool.start [] = some ((placed Blk.len s.sys.st.pool.start bs).map Prod.fst)
  visited : ∀ x b, (x, b) ∈ placed Blk.len s.sys.st.pool.start bs → ∀ a n, (a, n) ∈ s.own →
    Apart x b.len a n
  live : ∀ p n, (p, n) ∈ s.sys.live → ∀ a k, (a, k) ∈ s.own →
    Apart (p - sizeofMemBlk) (blkLen s.sys.st.mem (p - sizeofMemBlk)) a k

theorem OwnInv.apart {s : OwnSys σ} {bs : List Blk} (h : OwnInv brk base s bs) : PoolApart s bs := by
  have hwf := h.pool.wf
  have hstart := hwf.bounds.start_ge
  have hend := hwf.laid.2
  have htiled := h.pool.tiledBy
  have hvisited : ∀ x b, (x, b) ∈ placed Blk.len s.sys.st.pool.start bs → ∀ a n, (a, n) ∈ s.own →
      Apart x b.len a n := by
    intro x b hb a n hmem
    have hbounds := placed_bounds hb
    obtain ⟨-, hge, -⟩ := h.own a n hmem
    exact Or.inl (by omega)
  refine ⟨htiled, ?_, hvisited, fun p n hlive a k hmem => ?_⟩
  · obtain ⟨b, cs, rfl⟩ := List.exists_cons_of_ne_nil hwf.ne_nil
    have hfuel := length_le_span (b :: cs)
    have hlist : ∀ l seen : List Nat, l.foldl (fun seen p => seen ++ [p]) seen = seen ++ l := by
      intro l
      induction l with
      | nil => exact fun seen => (List.append_nil seen).symm
      | cons p l ih =>
          intro seen
          rw [List.foldl_cons, ih, List.append_assoc, List.singleton_append]
    rw [walkBlks_spec hwf.bounds _ (by omega) hwf.laid (by rw [MemPool.fuel]; omega), hlist,
      List.nil_append]
  · obtain ⟨x, b, hb, rfl, -⟩ := (htiled.live_iff p n).1 hlive
    rw [Nat.add_sub_cancel, (htiled.tiles.1 x b hb).blkLen]
    exact hvisited x b hb a k hmem

/-- As long as the pool grows in place whenever it grows, every call of `malloc` and `free` returns, the
walk visits the blocks of the allocator only, and no block overlaps what the program has got from
`sbrk`. -/
theorem ownRun_apart {m : Mem} {k : σ} {st : PoolState σ} {acts : List OwnAction}
    (hsbrk : ContiguousSbrk sbrkFunc brk (brk k)) (hinit : initMm sbrkFunc m k = some st)
    (hacts : Along (ownStep sbrkFunc) (fun s a => OwnCallers s a ∧ GrowsInPlace sbrkFunc brk s a)
      { sys := { st := st, live := [] }, own := [] } acts) :
    ∃ s, runFrom (ownStep sbrkFunc) { sys := { st := st, live := [] }, own := [] } acts = some s ∧
      ∃ bs, PoolApart s bs := by
  have hpool := (initMm_inv hsbrk rfl hinit).1
  have hbrk : brk st.sbrk = st.pool.end_ := hpool.wf.brk_eq
  have hstart : OwnInv brk (brk k) { sys := { st := st, live := [] }, own := [] }
      [freeBlk initialBlkLen] :=
    ⟨hpool.rebrk rfl, Nat.le_of_eq hbrk.symm, fun a n hno => by cases hno⟩
  obtain ⟨s, hrun, bs, h⟩ := runFrom_progress_along
    (I := fun s => ∃ bs, OwnInv brk (brk k) s bs)
    (fun s a ⟨bs, h⟩ ha => by
      obtain ⟨s', bs', hstep, hinv⟩ := ownStep_inv hsbrk h ha.1 ha.2
      exact ⟨s', hstep, bs', hinv⟩)
    ⟨_, hstart⟩ hacts
  exact ⟨s, hrun, bs, h.apart⟩

/-- The pool grows, the program takes memory of its own, and there is still room in the pool. -/
def sampleOwn : List OwnAction :=
  [ .pool (.alloc 8), .pool (.alloc 100), .pool (.free 0x0804C020), .sbrk 0x1000,
    .pool (.write 0x0804C800 7), .pool (.alloc 16), .sbrk 0x10000000 ]

theorem ownRun_apart_sample :
    ∃ s, runFrom (ownStep userSbrk) { sys := { st := samplePool, live := [] }, own := [] } sampleOwn =
        some s ∧
      ∃ bs, PoolApart s bs :=
  ownRun_apart sampleBreak_contiguous samplePool_init (by decide +kernel)

/-- The pool grows behind the program's own memory: the walk takes that for a block without end, and
`malloc` hands it out and does not return again. -/
theorem ownRun_gap : ∃ st s, initMm userSbrk (fun _ => 0) sampleBreak = some st ∧
    Along (ownStep userSbrk) OwnCallers { sys := { st := st, live := [] }, own := [] }
      [.sbrk 0x1000, .pool (.alloc 100)] ∧
    runFrom (ownStep userSbrk) { sys := { st := st, live := [] }, own := [] }
      [.sbrk 0x1000, .pool (.alloc 100)] = some s ∧
    (∃ p a, s.sys.live = [(p, 100)] ∧ s.own = [(a, 0x1000)] ∧ ¬Apart p 100 a 0x1000) ∧
    ownStep userSbrk s (.pool (.alloc 8)) = none ∧ ¬∃ bs, PoolApart s bs := by
  have hend : (runFrom (ownStep userSbrk) { sys := { st := samplePool, live := [] }, own := [] }
      [.sbrk 0x1000, .pool (.alloc 100)]).map (fun s => (s.sys.live, s.own,
        (ownStep userSbrk s (.pool (.alloc 8))).isNone,
        walkBlks s.sys.st.pool s.sys.st.mem (fun seen p => seen ++ [p]) s.sys.st.pool.fuel
          s.sys.st.pool.start [])) =
      some ([(0x0804C048, 100)], [(0x0804C028, 0x1000)], true, none) := by decide +kernel
  obtain ⟨s, hrun, hs⟩ := Option.map_eq_some_iff.1 hend
  simp only [Prod.mk.injEq] at hs
  obtain ⟨hlive, hown, hstops, hwalk⟩ := hs
  refine ⟨samplePool, s, samplePool_init, by decide +kernel, hrun, ⟨_, _, hlive, hown, by
    simp only [Apart]; omega⟩, Option.isNone_iff_eq_none.1 hstops, ?_⟩
  rintro ⟨bs, hapart⟩
  have := hapart.walk
  rw [hwalk] at this
  cases this

end Usr
end ToutOS
