import ToutOS.Mm.PoolTotal
import ToutOS.Usr.Unistd

/-!
# Stdlib — `usr/stdlib.c`: `malloc`, `free` and `calloc`

The pool of a program is one of `mm/mm.c` that grows with `sbrk`.  A program that writes where it has no
memory is ended by the kernel.

* `userSbrk`, `userSbrk_law` — `sbrk` of a program whose system calls succeed, for increments that are
  not negative;
* `clearLoop`, `clearLoop_spec`, `clearLoop_ends` — the loop of `calloc` and its `int` index;
* `StdlibAction`, `stdlibStep` — a program that calls `malloc`, `free` and `calloc` and writes to memory;
* `calloc_iff` — what `calloc` returns has room for the product, and is zero, if and only if the product
  can be represented.
-/

namespace ToutOS
namespace Usr

open Base Mm Kernel

/-! ## The break -/

/-- The break of a program lies in the range that the kernel leaves it. -/
structure UserBreak extends Break where
  start_le : start ≤ brk
  brk_le : brk ≤ maxBrkAddr

/-- `sbrk` for increments that are not negative. -/
def userSbrk (k : UserBreak) (increment : Nat) : Option Nat × UserBreak :=
  if h : k.brk + increment ≤ maxBrkAddr then
    (some k.brk,
      { k with
        brk := k.brk + increment
        start_le := k.start_le.trans (Nat.le_add_right ..)
        brk_le := h })
  else (none, k)

/-- It is the `sbrk` of the integers. -/
theorem userSbrk_law (k : UserBreak) (increment : Nat) : sbrkLaw k.toBreak increment =
    ((userSbrk k increment).1.getD failed, (userSbrk k increment).2.toBreak) := by
  have hstart := k.start_le
  rw [sbrkLaw, userSbrk]
  by_cases hfit : k.brk + increment ≤ maxBrkAddr
  · rw [if_pos (by omega), dif_pos hfit, Option.getD_some, ← Int.natCast_add, Int.toNat_natCast]
  · rw [if_neg (by omega), dif_neg hfit, Option.getD_none]

theorem userSbrk_contiguous {base : Nat} (hbase : 8 ≤ base) (hmax : base ≤ maxBrkAddr) :
    ContiguousSbrk userSbrk (fun k => k.brk) base := by
  have hlimit : maxBrkAddr = 0x0C000000 := rfl
  refine ⟨?_, ?_, hbase, by omega⟩
  · intro k n r k' hcall
    by_cases hfit : k.brk + n ≤ maxBrkAddr
    · rw [userSbrk, dif_pos hfit] at hcall
      obtain ⟨hr, rfl⟩ := Prod.mk.inj hcall
      exact ⟨(Option.some.inj hr).symm, rfl, by simp only; omega⟩
    · rw [userSbrk, dif_neg hfit] at hcall
      cases (Prod.mk.inj hcall).1
  · intro k n k' hcall
    by_cases hfit : k.brk + n ≤ maxBrkAddr
    · rw [userSbrk, dif_pos hfit] at hcall
      cases (Prod.mk.inj hcall).1
    · rw [userSbrk, dif_neg hfit] at hcall
      rw [← (Prod.mk.inj hcall).2]

/-! ## `calloc` -/

/-- An `int` with these 32 bits as a `size_t`. -/
def sizeOfInt (i : Nat) : Nat := if i < 2 ^ 31 then i else 2 ^ 64 - 2 ^ 32 + i

/-- `for (i = 0; i < total_size; i++) p[i] = 0;` with an `int` for `i`; a store where nothing is
writable ends the program. -/
def clearLoop (writable : Nat → Bool) (p totalSize : Nat) : Nat → Nat → Mem → Option Mem
  | 0, _, _ => none
  | fuel + 1, i, m =>
      if sizeOfInt i < totalSize then
        if writable (add64 p (sizeOfInt i)) then
          clearLoop writable p totalSize fuel ((i + 1) % 2 ^ 32)
            (Function.update m (add64 p (sizeOfInt i)) 0)
        else none
      else some m

section Stdlib

variable {σ : Type} (sbrkFunc : σ → Nat → Option Nat × σ) (writable : σ → Nat → Bool)

/-- `malloc`. -/
def malloc (st : PoolState σ) (size : Nat) : Option (Nat × PoolState σ) := allocMem sbrkFunc st size

/-- `free`. -/
def free (st : PoolState σ) (ptr : Nat) : Option (PoolState σ) := freeMem st ptr

/-- `calloc`; `none` when the program has been ended. -/
def calloc (st : PoolState σ) (nmemb size : Nat) : Option (Nat × PoolState σ) :=
  let totalSize := nmemb * size % 2 ^ 64
  (malloc sbrkFunc st totalSize).bind fun (p, st) =>
    if p = 0 then some (0, st)
    else
      (clearLoop (writable st.sbrk) p totalSize (2 ^ 32) 0 st.mem).map fun mem =>
        (p, { st with mem := mem })

/-- What a program does with its pool. -/
inductive StdlibAction
  /-- A call of `malloc` or `free`, or a write. -/
  | pool (a : PoolAction)
  | calloc (nmemb size : UInt64)
  deriving DecidableEq

def stdlibStep (s : PoolSys σ) : StdlibAction → Option (PoolSys σ)
  | .pool a => poolStep sbrkFunc s a
  | .calloc nmemb size =>
      (calloc sbrkFunc writable s.st nmemb.toNat size.toNat).map fun (p, st) =>
        { st := st
          live := PoolSys.record s.live p (nmemb.toNat * size.toNat % 2 ^ 64) }

/-- The program frees what it owns and writes between the headers and tails of its blocks. -/
def ProgramInPayload (s : PoolSys σ) : StdlibAction → Prop
  | .pool a => CallersInPayload s a
  | .calloc _ _ => True

instance (s : PoolSys σ) : (a : StdlibAction) → Decidable (ProgramInPayload s a)
  | .pool a => inferInstanceAs (Decidable (CallersInPayload s a))
  | .calloc _ _ => isTrue trivial

/-- The memory of a program: the heap up to the break is writable, and there is a hole in the `2 ^ 31`
bytes that begin where the pool does. -/
structure UserMemory (brk : σ → Nat) (base : Nat) : Prop where
  heap : ∀ k x, base ≤ x → x < brk k → writable k x = true
  hole : ∀ k, ∃ x, base ≤ x ∧ x < base + 2 ^ 31 ∧ brk k ≤ x ∧ writable k x = false

end Stdlib

/-! ## The loop -/

section Loop

variable {writable : Nat → Bool} {p totalSize : Nat}

/-- The loop clears its range if the program may write there; `P` is kept if single writes keep it. -/
theorem clearLoop_spec {P : Mem → Prop} (hsize : totalSize < 2 ^ 31) (hp : p + totalSize < 2 ^ 64)
    (hwritable : ∀ x, p ≤ x → x < p + totalSize → writable x = true)
    (hP : ∀ m x, p ≤ x → x < p + totalSize → P m → P (Function.update m x 0)) :
    ∀ {fuel i : Nat} {m : Mem}, i ≤ totalSize → totalSize < fuel + i → P m →
      (∀ x, p ≤ x → x < p + i → m x = 0) →
      ∃ m', clearLoop writable p totalSize fuel i m = some m' ∧ P m' ∧
        ∀ x, p ≤ x → x < p + totalSize → m' x = 0 := by
  intro fuel
  induction fuel with
  | zero =>
      intro i m hi hfuel
      omega
  | succ fuel ih =>
      intro i m hi hfuel hm hzero
      have hindex : sizeOfInt i = i := if_pos (by omega)
      rw [clearLoop, hindex]
      by_cases hlt : i < totalSize
      · have haddr : add64 p i = p + i := add64_of_lt (by omega)
        have hnext : (i + 1) % 2 ^ 32 = i + 1 := Nat.mod_eq_of_lt (by omega)
        rw [if_pos hlt, haddr, if_pos (hwritable _ (by omega) (by omega)), hnext]
        refine ih (by omega) (by omega) (hP m _ (by omega) (by omega) hm) fun x hx₁ hx₂ => ?_
        by_cases hx : x = p + i
        · rw [hx, Function.update_self]
        · rw [Function.update_of_ne hx]
          exact hzero x hx₁ (by omega)
      · rw [if_neg hlt]
        exact ⟨m, rfl, hm, fun x hx₁ hx₂ => hzero x hx₁ (by omega)⟩

/-- The loop does not come past a byte that is not writable. -/
theorem clearLoop_ends {j : Nat} (hj : j < 2 ^ 31) (hlt : j < totalSize) (hp : p + j < 2 ^ 64)
    (hhole : writable (p + j) = false) :
    ∀ {fuel i : Nat} {m : Mem}, i ≤ j → clearLoop writable p totalSize fuel i m = none := by
  intro fuel
  induction fuel with
  | zero => exact fun _ => rfl
  | succ fuel ih =>
      intro i m hi
      have hindex : sizeOfInt i = i := if_pos (by omega)
      have haddr : add64 p i = p + i := add64_of_lt (by omega)
      have hnext : (i + 1) % 2 ^ 32 = i + 1 := Nat.mod_eq_of_lt (by omega)
      rw [clearLoop, hindex, if_pos (by omega), haddr, hnext]
      by_cases hij : i = j
      · rw [hij, hhole, if_neg (by decide)]
      · rw [ih (by omega), ite_self]

end Loop

/-! ## Runs -/

section Runs

variable {σ : Type} {sbrkFunc : σ → Nat → Option Nat × σ} {writable : σ → Nat → Bool} {brk : σ → Nat}
  {base : Nat} {s s' : PoolSys σ} {bs : List Blk}

/-- The block `(x, u)` of the pool has been handed out for `total` bytes, all of which are zero. -/
structure Cleared (brk : σ → Nat) (base : Nat) (s : PoolSys σ) (st' : PoolState σ) (bs' : List Blk)
    (x total : Nat) (u : Blk) : Prop where
  inv : PoolInv brk base { st := st', live := (x + 32, total) :: s.live } bs'
  mem : (x, u) ∈ used base bs'
  room : 40 + total ≤ u.len
  zero : ∀ y, x + 32 ≤ y → y < x + 32 + total → st'.mem y = 0

/-- The region that `malloc` has returned is cleared. -/
theorem clearLoop_cleared {st' : PoolState σ} {x total : Nat} {u : Blk}
    (hmem : UserMemory writable brk base)
    (h : PoolInv brk base { st := st', live := (x + 32, total) :: s.live } bs)
    (hu : (x, u) ∈ used base bs) (hroom : 40 + total ≤ u.len) :
    ∃ m', clearLoop (writable st'.sbrk) (x + 32) total (2 ^ 32) 0 st'.mem = some m' ∧
      Cleared brk base s { st' with mem := m' } bs x total u := by
  obtain ⟨hplaced, hused⟩ := mem_used.1 hu
  have hbase : st'.pool.start = base := h.wf.start_eq
  have hbrk : brk st'.sbrk = st'.pool.end_ := h.wf.brk_eq
  have hbounds := placed_bounds hplaced
  have hend := h.wf.laid.2
  have hsize := h.wf.bounds.size_lt
  have haddr := h.wf.bounds.addr_le
  dsimp only at hend hsize haddr
  rw [← hbase] at hbounds
  have hwritable : ∀ y, x + 32 ≤ y → y < x + 32 + total → writable st'.sbrk y = true := fun y h₁ h₂ =>
    hmem.heap _ y (by omega) (by omega)
  -- every write of the loop is one of the caller to its new block
  have hwrite : ∀ m y, x + 32 ≤ y → y < x + 32 + total →
      PoolInv brk base { st := { st' with mem := m }, live := (x + 32, total) :: s.live } bs →
      PoolInv brk base { st := { st' with mem := Function.update m y 0 }
                         live := (x + 32, total) :: s.live } bs := by
    intro m y h₁ h₂ hm
    have hb := (hm.wf.laid.1 x u (by rw [hm.wf.start_eq]; exact hplaced)).blkLen
    refine write_inv (v := 0) hm (Or.inr ⟨x + 32, total, List.mem_cons_self .., h₁, ?_⟩)
    simp only [sizeofMemBlk, sizeofMemBlkTail, Nat.add_sub_cancel] at hb ⊢
    omega
  obtain ⟨m', hloop, hinv, hzero⟩ := clearLoop_spec (by omega) (by omega) hwritable hwrite
    (Nat.zero_le total) (show total < 2 ^ 32 + 0 by omega) h (fun y h₁ h₂ => by omega)
  exact ⟨m', hloop, hinv, hu, hroom, hzero⟩

/-- What a call of `calloc` does: it returns unless the wrapped product is above `2 ^ 64 - 8`. -/
theorem calloc_cases (hsbrk : ContiguousSbrk sbrkFunc brk base) (hmem : UserMemory writable brk base)
    (h : PoolInv brk base s bs) (nmemb size : Nat) :
    (calloc sbrkFunc writable s.st nmemb size = none ∧ 2 ^ 64 - 8 < nmemb * size % 2 ^ 64) ∨
    (∃ st' bs', calloc sbrkFunc writable s.st nmemb size = some (0, st') ∧
      PoolInv brk base { st := st', live := s.live } bs') ∨
    ∃ st' bs' x u, calloc sbrkFunc writable s.st nmemb size = some (x + 32, st') ∧
      Cleared brk base s st' bs' x (nmemb * size % 2 ^ 64) u := by
  have hlt : nmemb * size % 2 ^ 64 < 2 ^ 64 := Nat.mod_lt _ (by decide)
  generalize htotal : nmemb * size % 2 ^ 64 = total at hlt
  obtain ⟨p, st', bs', halloc, -, hinv, hres⟩ := allocMem_inv hsbrk h hlt
  have hcall : calloc sbrkFunc writable s.st nmemb size = if p = 0 then some (0, st') else
      (clearLoop (writable st'.sbrk) p total (2 ^ 32) 0 st'.mem).map fun mem =>
        (p, { st' with mem := mem }) := by
    simp only [calloc, htotal, malloc, halloc, Option.bind_some]
  rcases hres with ⟨rfl, -⟩ | ⟨x, u, rfl, -, hlen, hused, -⟩
  · rw [if_pos rfl] at hcall
    exact Or.inr (Or.inl ⟨st', bs', hcall, hinv⟩)
  have hu : (x, u) ∈ used base bs' := (hused (x, u)).2 (Or.inl rfl)
  have hne : x + 32 ≠ 0 := by omega
  rw [PoolSys.record, if_neg hne] at hinv
  rw [if_neg hne] at hcall
  by_cases hbig : 2 ^ 64 - 8 < total
  · -- the loop runs into the hole
    refine Or.inl ⟨?_, hbig⟩
    obtain ⟨y, hy₁, hy₂, hy₃, hhole⟩ := hmem.hole st'.sbrk
    have hbrk : brk st'.sbrk = st'.pool.end_ := hinv.wf.brk_eq
    have hbounds := placed_bounds (mem_used.1 hu).1
    have hend := hinv.wf.laid.2
    have haddr := hinv.wf.bounds.addr_le
    have hbase := hinv.wf.start_eq
    have hge := u.len_ge
    dsimp only at hend haddr hbase
    have hyp : x + 32 + (y - (x + 32)) = y := by omega
    rw [hcall, clearLoop_ends (j := y - (x + 32)) (by omega) (by omega) (by omega) (by rw [hyp, hhole])
      (Nat.zero_le _), Option.map_none]
  · have hfit : total ≤ alignedTo8Bytes total := by
      simp only [alignedTo8Bytes, add64]
      omega
    obtain ⟨m', hloop, hcleared⟩ := clearLoop_cleared hmem hinv hu (by omega)
    rw [hloop, Option.map_some] at hcall
    exact Or.inr (Or.inr ⟨_, bs', x, u, hcall, hcleared⟩)

theorem stdlibStep_inv (hsbrk : ContiguousSbrk sbrkFunc brk base) (hmem : UserMemory writable brk base)
    {a : StdlibAction} (h : PoolInv brk base s bs) (ha : ProgramInPayload s a)
    (hstep : stdlibStep sbrkFunc writable s a = some s') : ∃ bs', PoolInv brk base s' bs' := by
  cases a with
  | pool a =>
      obtain ⟨t, bs', ht, hinv⟩ := poolStep_inv hsbrk h ha
      rw [stdlibStep, ht] at hstep
      obtain rfl := Option.some.inj hstep
      exact ⟨bs', hinv⟩
  | calloc nmemb size =>
      rcases calloc_cases hsbrk hmem h nmemb.toNat size.toNat with
        ⟨hcall, -⟩ | ⟨st', bs', hcall, hinv⟩ | ⟨st', bs', x, u, hcall, hcleared⟩
      · rw [stdlibStep, hcall] at hstep
        cases hstep
      · rw [stdlibStep, hcall] at hstep
        obtain rfl := Option.some.inj hstep
        exact ⟨bs', hinv⟩
      · rw [stdlibStep, hcall] at hstep
        obtain rfl := Option.some.inj hstep
        have hrecord : PoolSys.record s.live (x + 32) (nmemb.toNat * size.toNat % 2 ^ 64) =
            (x + 32, nmemb.toNat * size.toNat % 2 ^ 64) :: s.live := if_neg (by omega)
        refine ⟨bs', ?_⟩
        change PoolInv brk base { st := st', live := PoolSys.record _ _ _ } bs'
        rw [hrecord]
        exact hcleared.inv

/-- The `n` bytes at `p` lie in a block in use, between its header and its tail, and are zero. -/
def ZeroedInBlock (st : PoolState σ) (p n : Nat) : Prop :=
  (∃ bs x b, Tiles Blk.len (HdrAt st.mem) st.pool.start bs st.pool.end_ ∧
    (x, b) ∈ placed Blk.len st.pool.start bs ∧ b.isFree = false ∧ x + sizeofMemBlk ≤ p ∧
    p + n + sizeofMemBlkTail ≤ x + b.len) ∧
  ∀ y, p ≤ y → y < p + n → st.mem y = 0

theorem Cleared.zeroed {st' : PoolState σ} {x total : Nat} {u : Blk}
    (h : Cleared brk base s st' bs x total u) :
    ZeroedInBlock st' (x + 32) total := by
  obtain ⟨hplaced, hused⟩ := mem_used.1 h.mem
  have hbase : st'.pool.start = base := h.inv.wf.start_eq
  have hroom := h.room
  refine ⟨⟨bs, x, u, tiles_congr h.inv.wf.laid fun _ _ _ hb => hb.toHdrAt, ?_, hused, Nat.le_refl _, ?_⟩,
    h.zero⟩
  · rwa [hbase]
  · simp only [sizeofMemBlkTail]
    omega

/-- A region of a pool is shorter than the address space. -/
theorem ZeroedInBlock.lt {st : PoolState σ} {p n : Nat} (hpool : PoolBounds st.pool)
    (h : ZeroedInBlock st p n) : n < 2 ^ 64 := by
  obtain ⟨⟨bs, x, b, htiles, hplaced, -, -, hle⟩, -⟩ := h
  have hbounds := placed_bounds hplaced
  have hend := htiles.2
  have hsize := hpool.size_lt
  have haddr := hpool.addr_le
  omega

/-- In every state of a program's pool `calloc` returns, unless the wrapped product is so large that
clearing ends the program; and what it returns, if not null, is as `nmemb` and `size` say if and only if
their product can be represented. -/
theorem calloc_iff {m : Mem} {k : σ} {st : PoolState σ} {acts : List StdlibAction}
    (hsbrk : ContiguousSbrk sbrkFunc brk (brk k)) (hmem : UserMemory writable brk (brk k))
    (hinit : initMm sbrkFunc m k = some st)
    (hacts : Along (stdlibStep sbrkFunc writable) ProgramInPayload { st := st, live := [] } acts)
    (hrun : runFrom (stdlibStep sbrkFunc writable) { st := st, live := [] } acts = some s)
    (nmemb size : UInt64) :
    (nmemb.toNat * size.toNat % 2 ^ 64 ≤ 2 ^ 64 - 8 →
      (calloc sbrkFunc writable s.st nmemb.toNat size.toNat).isSome = true) ∧
    ∀ p st', calloc sbrkFunc writable s.st nmemb.toNat size.toNat = some (p, st') → p ≠ 0 →
      (ZeroedInBlock st' p (nmemb.toNat * size.toNat) ↔ nmemb.toNat * size.toNat < 2 ^ 64) := by
  obtain ⟨bs, h⟩ := runFrom_invariant_along (I := fun s => ∃ bs, PoolInv brk (brk k) s bs)
    (fun _ _ _ ⟨_, h⟩ ha hstep => stdlibStep_inv hsbrk hmem h ha hstep)
    ⟨_, (initMm_inv hsbrk rfl hinit).1⟩ hacts hrun
  rcases calloc_cases hsbrk hmem h nmemb.toNat size.toNat with
    ⟨hcall, hbig⟩ | ⟨t, bs', hcall, hinv⟩ | ⟨t, bs', x, u, hcall, hcleared⟩
  · rw [hcall]
    exact ⟨fun hle => by omega, fun p st' hno => by cases hno⟩
  · rw [hcall]
    refine ⟨fun _ => rfl, fun p st' hres hp => ?_⟩
    obtain ⟨rfl, -⟩ := Prod.mk.inj (Option.some.inj hres)
    exact absurd rfl hp
  · rw [hcall]
    refine ⟨fun _ => rfl, fun p st' hres hp => ?_⟩
    obtain ⟨rfl, rfl⟩ := Prod.mk.inj (Option.some.inj hres)
    constructor
    · exact ZeroedInBlock.lt hcleared.inv.wf.bounds
    · intro hlt
      have hzeroed := hcleared.zeroed
      rwa [Nat.mod_eq_of_lt hlt] at hzeroed

end Runs

/-- The break of a new program. -/
def sampleBreak : UserBreak :=
  { start := 0x0804B000
    brk := 0x0804C000
    start_le := by decide
    brk_le := by decide }

/-- The pool of a program after `init_malloc_free`, in memory that was zero before. -/
def samplePool : PoolState UserBreak :=
  { mem := initFreeBlk (fun _ => 0) 0x0804C000 initialBlkLen
    pool := { start := 0x0804C000, end_ := 0x0804C000 + initialBlkLen, totalLength := 0 }
    sbrk := (userSbrk sampleBreak initialBlkLen).2 }

theorem samplePool_init : initMm userSbrk (fun _ => 0) sampleBreak = some samplePool := rfl

theorem sampleBreak_contiguous : ContiguousSbrk userSbrk (fun k => k.brk) sampleBreak.brk :=
  userSbrk_contiguous (by decide) (by decide)

/-- A program has no memory where the break cannot go. -/
def sampleWritable (_ : UserBreak) (x : Nat) : Bool := x < maxBrkAddr

theorem sampleWritable_memory : UserMemory sampleWritable (fun k => k.brk) sampleBreak.brk := by
  refine ⟨fun k x _ hx => ?_, fun k => ⟨maxBrkAddr, by decide, by decide, k.brk_le,
    decide_eq_false (Nat.lt_irrefl _)⟩⟩
  exact decide_eq_true (Nat.lt_of_lt_of_le hx k.brk_le)

/-- Three blocks are handed out and one is given back. -/
def sampleAllocs : List StdlibAction :=
  [.calloc 3 8, .pool (.alloc 100), .calloc (2 ^ 61 + 1) 8, .pool (.free 0x0804C020)]

theorem calloc_sample : ∃ s,
    runFrom (stdlibStep userSbrk sampleWritable) { st := samplePool, live := [] } sampleAllocs = some s ∧
      (5 * 7 % 2 ^ 64 ≤ 2 ^ 64 - 8 → (calloc userSbrk sampleWritable s.st 5 7).isSome = true) ∧
      ∀ p st', calloc userSbrk sampleWritable s.st 5 7 = some (p, st') → p ≠ 0 →
        (ZeroedInBlock st' p (5 * 7) ↔ 5 * 7 < 2 ^ 64) := by
  have hend : (runFrom (stdlibStep userSbrk sampleWritable) { st := samplePool, live := [] }
      sampleAllocs).isSome = true := by decide +kernel
  obtain ⟨s, hrun⟩ := Option.isSome_iff_exists.1 hend
  exact ⟨s, hrun, calloc_iff sampleBreak_contiguous sampleWritable_memory samplePool_init
    (by decide +kernel) hrun 5 7⟩

/-- `calloc(2^61 + 1, 8)` returns a block with room for 8 bytes. -/
theorem calloc_overflows : ∃ st p st', initMm userSbrk (fun _ => 0) sampleBreak = some st ∧
    calloc userSbrk sampleWritable st (2 ^ 61 + 1) 8 = some (p, st') ∧ p ≠ 0 ∧
    ¬ZeroedInBlock st' p ((2 ^ 61 + 1) * 8) := by
  have hend : (calloc userSbrk sampleWritable samplePool (2 ^ 61 + 1) 8).map
      (fun r => (r.1, r.2.pool.start, r.2.pool.end_)) = some (0x0804C020, 0x0804C000, 0x0804C050) := by
    decide +kernel
  obtain ⟨⟨p, st'⟩, hcall, hres⟩ := Option.map_eq_some_iff.1 hend
  simp only [Prod.mk.injEq] at hres
  obtain ⟨rfl, hstart, hstop⟩ := hres
  have hpool : PoolBounds st'.pool := ⟨by omega, by omega, by omega⟩
  refine ⟨samplePool, _, st', samplePool_init, hcall, by decide, fun hok => ?_⟩
  exact absurd (hok.lt hpool) (by decide)

end Usr
end ToutOS
