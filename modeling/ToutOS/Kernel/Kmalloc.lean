import ToutOS.Base.Ledger
import ToutOS.Mm.PoolRuns
import ToutOS.Kernel.Vm

/-!
# Kmalloc — `mm/memory.c`: `kmalloc` and `kfree` on the kernel's pool

* `kmallocFree` — the two calls, on the pool of `mm.c` with the kernel's `sbrk`.
* `KmallocOk` — the pool is in order, as every pool is that the calls have led to.
* `HeapLaws` — what the callers of `kmalloc` rely on, said of a ledger of the records that are out.
* `kmallocFree_laws` — the kernel's pool keeps it.

What the kernel writes into a record is kept in the task table and not in the memory of the pool; the
allocator does not read it.
-/

namespace ToutOS
namespace Kernel

open Base Mm

/-! ## The calls -/

/-- `kmalloc` and `kfree`.  The loops of `alloc_mem` and `free_mem` end in every pool that calls of them
have led to. -/
def kmallocFree : KernelHeap (PoolSys MockSbrk) where
  kmalloc s size :=
    match allocMem kernelMockSbrk s.st size with
    | some (p, st) => (p, { st := st, live := PoolSys.record s.live p size })
    | none => (0, s)
  kfree s p := (poolStep kernelMockSbrk s (.free p)).getD s

/-- The pool after calls of `kmalloc` and `kfree` by callers that keep to their own blocks. -/
def KmallocReached (s : PoolSys MockSbrk) : Prop :=
  ∃ m st acts, initMm kernelMockSbrk m mockSbrkInit = some st ∧
    Along (poolStep kernelMockSbrk) CallersInPayload { st := st, live := [] } acts ∧
    runFrom (poolStep kernelMockSbrk) { st := st, live := [] } acts = some s

/-- The pool is cut into blocks, and those in use are the live ones. -/
def KmallocOk (s : PoolSys MockSbrk) : Prop := ∃ bs, PoolInv MockSbrk.last mockSbrkInit.last s bs

theorem KmallocReached.ok {s : PoolSys MockSbrk} (h : KmallocReached s) : KmallocOk s := by
  obtain ⟨m, st, acts, hinit, hacts, hrun⟩ := h
  obtain ⟨t, hrun', hinv⟩ := poolRun_inv kernelMockSbrk_contiguous rfl hinit hacts
  rw [hrun] at hrun'
  exact Option.some.inj hrun' ▸ hinv

/-- The pointers that `kmalloc` has returned and that have not been freed. -/
def liveBlocks (s : PoolSys MockSbrk) : Set Nat := fun p => p ∈ s.live.map Prod.fst

/-! ## What callers rely on -/

/-- `Holds held heap`: the records in `held` are out, each once.  A call of `kmalloc` fails or enters a
record, and `kfree` takes one off. -/
structure HeapLaws {κ : Type} (H : KernelHeap κ) (Holds : List Nat → κ → Prop) : Prop where
  perm : ∀ {l l' heap}, l.Perm l' → Holds l heap → Holds l' heap
  unique : ∀ {l l' heap}, Holds l heap → Holds l' heap → l.Perm l'
  fail : ∀ {l heap size}, Holds l heap → size < 2 ^ 64 → (H.kmalloc heap size).1 = 0 →
    Holds l (H.kmalloc heap size).2
  take : ∀ {l heap size}, Holds l heap → size < 2 ^ 64 → (H.kmalloc heap size).1 ≠ 0 →
    Holds ((H.kmalloc heap size).1 :: l) (H.kmalloc heap size).2
  give : ∀ {l heap p}, Holds (p :: l) heap → Holds l (H.kfree heap p)

/-- The blocks of the pool are those of `start` and the records in `held`. -/
structure PoolHolds (start : Set Nat) (held : List Nat) (s : PoolSys MockSbrk) : Prop where
  ok : KmallocOk s
  ledger : Ledger start held (liveBlocks s)

theorem KmallocOk.holds {s : PoolSys MockSbrk} (h : KmallocOk s) : PoolHolds (liveBlocks s) [] s :=
  ⟨h, Ledger.refl _⟩

section Pool

variable {start : Set Nat} {held : List Nat} {s : PoolSys MockSbrk} {size p : Nat}

/-- `kmalloc` returns a null pointer and the live blocks stay as they are, or a new one. -/
theorem kmalloc_holds (h : PoolHolds start held s) (hsize : size < 2 ^ 64) :
    ((kmallocFree.kmalloc s size).1 = 0 → PoolHolds start held (kmallocFree.kmalloc s size).2) ∧
      ((kmallocFree.kmalloc s size).1 ≠ 0 →
        PoolHolds start ((kmallocFree.kmalloc s size).1 :: held) (kmallocFree.kmalloc s size).2) := by
  obtain ⟨bs, hinv⟩ := h.ok
  obtain ⟨p, st, bs', halloc, -, hinv', -⟩ := allocMem_inv kernelMockSbrk_contiguous hinv hsize
  have hcall : kmallocFree.kmalloc s size = (p, { st := st, live := PoolSys.record s.live p size }) := by
    simp only [kmallocFree, halloc]
  rw [hcall]
  constructor
  · intro hp
    have hlive : PoolSys.record s.live p size = s.live := if_pos hp
    rw [hlive] at hinv' ⊢
    exact ⟨⟨bs', hinv'⟩, h.ledger⟩
  · intro hp
    have hlive : PoolSys.record s.live p size = (p, size) :: s.live := if_neg hp
    rw [hlive] at hinv' ⊢
    -- the pointer is live now, and no pointer is live twice
    have hfresh : p ∉ s.live.map Prod.fst := (List.nodup_cons.1 hinv'.pointers_nodup).1
    exact ⟨⟨bs', hinv'⟩, h.ledger.take hfresh fun b => List.mem_cons⟩

theorem KmallocOk.kmalloc (h : KmallocOk s) (hsize : size < 2 ^ 64) :
    KmallocOk (kmallocFree.kmalloc s size).2 := by
  have hcall := kmalloc_holds h.holds hsize
  by_cases hp : (kmallocFree.kmalloc s size).1 = 0
  · exact (hcall.1 hp).ok
  · exact (hcall.2 hp).ok

/-- `kfree` of a live pointer. -/
theorem kfree_holds (h : PoolHolds start (p :: held) s) : PoolHolds start held (kmallocFree.kfree s p) := by
  obtain ⟨bs, hinv⟩ := h.ok
  have hlive : p ∈ s.live.map Prod.fst := (h.ledger.live_iff p).2 (Or.inr (by simp))
  obtain ⟨⟨q, n⟩, hq, rfl⟩ := List.mem_map.1 hlive
  obtain ⟨st, bs', hfree, hinv', -, -⟩ := freeMem_inv hinv hq
  have hcall : kmallocFree.kfree s q = { st := st, live := PoolSys.forget s.live q } := by
    simp only [kmallocFree, poolStep, hfree, Option.map_some, Option.getD_some]
  rw [hcall]
  refine ⟨⟨bs', hinv'⟩, h.ledger.give fun b => ?_⟩
  change b ∈ (PoolSys.forget s.live q).map Prod.fst ↔ b ∈ s.live.map Prod.fst ∧ b ≠ q
  simp only [PoolSys.forget, List.mem_map, List.mem_filter, decide_eq_true_eq]
  constructor
  · rintro ⟨x, ⟨hx, hne⟩, rfl⟩
    exact ⟨⟨x, hx, rfl⟩, hne⟩
  · rintro ⟨⟨x, hx, rfl⟩, hne⟩
    exact ⟨x, ⟨hx, hne⟩, rfl⟩

end Pool

/-- The kernel's pool keeps the laws. -/
theorem kmallocFree_laws (start : Set Nat) : HeapLaws kmallocFree (PoolHolds start) where
  perm hperm h := ⟨h.ok, h.ledger.perm hperm⟩
  unique h h' := h.ledger.unique h'.ledger
  fail h hsize := (kmalloc_holds h hsize).1
  take h hsize := (kmalloc_holds h hsize).2
  give h := kfree_holds h

end Kernel
end ToutOS
