import ToutOS.Base.ByteMem

/-!
# Pool — the block allocator of `mm/mm.c`

A pool is one address range, cut into blocks.  A block starts with a `struct mem_blk` (32 bytes) and
ends with a `struct mem_blk_tail` (8 bytes) that points back to the header.  The functions below
read and write headers and tails in byte memory, with `size_t` arithmetic modulo `2 ^ 64`; a null
pointer is `0`.

* Loops take a bound on the number of iterations and return `none` when it is used up.  The bound of
  the block walks is the length of the pool, that of the growth rounds is the width of an address.
* `sbrk_func` is a parameter with a state of its own; `none` stands for `(void *)-1`.
* The lock of a pool is held during the whole of `alloc_mem` and `free_mem`, so calls are atomic.
-/

namespace ToutOS
namespace Mm

open Base

/-! ## Headers and tails -/

def memBlkMagic : Nat := 0xABCD1234

/-- `sizeof (struct mem_blk)`. -/
def sizeofMemBlk : Nat := 32

/-- `sizeof (struct mem_blk_tail)`. -/
def sizeofMemBlkTail : Nat := 8

def magicNum (m : Mem) (p : Nat) : Nat := load m p 4

def inUse (m : Mem) (p : Nat) : Nat := load m (p + 4) 4

def blkLen (m : Mem) (p : Nat) : Nat := load m (p + 8) 8

def userStart (m : Mem) (p : Nat) : Nat := load m (p + 16) 8

def userLen (m : Mem) (p : Nat) : Nat := load m (p + 24) 8

def setMagicNum (m : Mem) (p v : Nat) : Mem := store m p 4 v

def setInUse (m : Mem) (p v : Nat) : Mem := store m (p + 4) 4 v

def setBlkLen (m : Mem) (p v : Nat) : Mem := store m (p + 8) 8 v

def setUserStart (m : Mem) (p v : Nat) : Mem := store m (p + 16) 8 v

def setUserLen (m : Mem) (p v : Nat) : Mem := store m (p + 24) 8 v

/-- `get_tail`. -/
def getTail (m : Mem) (p : Nat) : Nat := sub64 (add64 p (blkLen m p)) sizeofMemBlkTail

/-- `init_free_blk`.  The loop that clears the block counts with an `int`, so it stops after `2 ^ 31`
bytes. -/
def initFreeBlk (m : Mem) (p size : Nat) : Mem :=
  let m := fill m p (min size (2 ^ 31)) 0
  let m := setMagicNum m p memBlkMagic
  let m := setInUse m p 0
  let m := setBlkLen m p size
  store m (getTail m p) 8 p

/-! ## Walking the blocks -/

structure MemPool where
  start : Nat
  end_ : Nat
  totalLength : Nat
  deriving DecidableEq, Repr

/-- The number of iterations granted to a walk over the blocks. -/
def MemPool.fuel (pool : MemPool) : Nat := pool.end_ - pool.start

/-- `prev_mem_blk`. -/
def prevMemBlk (pool : MemPool) (m : Mem) (p : Nat) : Nat :=
  let tail := sub64 p sizeofMemBlkTail
  if tail < pool.start then 0 else load m tail 8

/-- `next_mem_blk`. -/
def nextMemBlk (pool : MemPool) (m : Mem) (p : Nat) : Nat :=
  let header := add64 p (blkLen m p)
  if pool.end_ ≤ header then 0 else header

/-- `big_mem_blk`. -/
def bigMemBlk (m : Mem) (p size : Nat) : Bool :=
  size ≤ sub64 (sub64 (blkLen m p) sizeofMemBlk) sizeofMemBlkTail

/-- `is_blk_free`. -/
def isBlkFree (m : Mem) (p : Nat) : Bool := inUse m p = 0

/-- The first loop of `merge_free_blk`. -/
def mostPrev (pool : MemPool) (m : Mem) : Nat → Nat → Nat → Option Nat
  | 0, p, most => if p = 0 then some most else none
  | fuel + 1, p, most =>
      if p = 0 then some most
      else if isBlkFree m p then mostPrev pool m fuel (prevMemBlk pool m p) p
      else some most

/-- The second loop of `merge_free_blk`. -/
def mostNext (pool : MemPool) (m : Mem) : Nat → Nat → Nat → Option Nat
  | 0, p, most => if p = 0 then some most else none
  | fuel + 1, p, most =>
      if p = 0 then some most
      else if isBlkFree m p then mostNext pool m fuel (nextMemBlk pool m p) p
      else some most

/-- `merge_free_blk`. -/
def mergeFreeBlk (pool : MemPool) (m : Mem) (free : Nat) : Option Mem :=
  (mostPrev pool m pool.fuel free free).bind fun mostPrev =>
    (mostNext pool m pool.fuel free free).map fun mostNext =>
      initFreeBlk m mostPrev (sub64 (add64 mostNext (blkLen m mostNext)) mostPrev)

/-- The loop of `find_a_free_blk`; `0` when no block is big enough. -/
def scanFreeBlk (pool : MemPool) (m : Mem) (size : Nat) : Nat → Nat → Option Nat
  | 0, p => if p = 0 then some 0 else none
  | fuel + 1, p =>
      if p = 0 then some 0
      else if isBlkFree m p && bigMemBlk m p size then some p
      else scanFreeBlk pool m size fuel (nextMemBlk pool m p)

/-! ## Splitting and marking -/

/-- `should_split`. -/
def shouldSplit (m : Mem) (p size : Nat) : Bool :=
  add64 (add64 (add64 (add64 sizeofMemBlk size) sizeofMemBlkTail) sizeofMemBlk) sizeofMemBlkTail
    < blkLen m p

/-- `split_mem_blk`. -/
def splitMemBlk (pool : MemPool) (m : Mem) (p size : Nat) : Mem :=
  let oldBlkLen := blkLen m p
  let newBlkLen := add64 (add64 sizeofMemBlk size) sizeofMemBlkTail
  let m := initFreeBlk m p newBlkLen
  let next := nextMemBlk pool m p
  initFreeBlk m next (sub64 oldBlkLen newBlkLen)

/-- `mark_mem_blk`. -/
def markMemBlk (pool : MemPool) (m : Mem) (p size : Nat) : Mem :=
  let m := if shouldSplit m p size then splitMemBlk pool m p size else m
  let m := setInUse m p 1
  let m := setUserStart m p (add64 p sizeofMemBlk)
  setUserLen m p size

/-! ## Allocating and freeing -/

section Sbrk

variable {σ : Type} (sbrkFunc : σ → Nat → Option Nat × σ)

structure PoolState (σ : Type) where
  mem : Mem
  pool : MemPool
  sbrk : σ

/-- `enlarge_mem_pool`; the flag says whether the pool has grown. -/
def enlargeMemPool (st : PoolState σ) : Option (Bool × PoolState σ) :=
  let increment := sub64 st.pool.end_ st.pool.start
  match sbrkFunc st.sbrk increment with
  | (none, k) => some (false, { st with sbrk := k })
  | (some ret, k) =>
      let pool := { st.pool with end_ := add64 st.pool.end_ increment }
      let mem := initFreeBlk st.mem ret increment
      (mergeFreeBlk pool mem ret).map fun mem => (true, { mem := mem, pool := pool, sbrk := k })

/-- `find_a_free_blk`; `0` when no block is big enough and the pool cannot grow. -/
def findAFreeBlk (size : Nat) : Nat → PoolState σ → Option (Nat × PoolState σ)
  | 0, _ => none
  | rounds + 1, st =>
      (scanFreeBlk st.pool st.mem size st.pool.fuel st.pool.start).bind fun p =>
        if p ≠ 0 then some (p, st)
        else
          (enlargeMemPool sbrkFunc st).bind fun (grown, st) =>
            if grown then findAFreeBlk size rounds st else some (0, st)

/-- `get_mem_blk`. -/
def getMemBlk (st : PoolState σ) (size : Nat) : Option (Nat × PoolState σ) :=
  (findAFreeBlk sbrkFunc size 64 st).map fun (p, st) =>
    if p ≠ 0 then (p, { st with mem := markMemBlk st.pool st.mem p size }) else (0, st)

/-- `ALIGNED_TO_8BYTES`. -/
def alignedTo8Bytes (val : Nat) : Nat := add64 val 7 / 8 * 8

/-- `alloc_mem`: the pointer returned and the state after the call. -/
def allocMem (st : PoolState σ) (size : Nat) : Option (Nat × PoolState σ) :=
  if size = 0 then some (0, st)
  else
    (getMemBlk sbrkFunc st (alignedTo8Bytes size)).map fun (p, st) =>
      if p ≠ 0 then
        let mem := setUserLen st.mem p size
        let pool := { st.pool with totalLength := add64 st.pool.totalLength size }
        (userStart mem p, { st with mem := mem, pool := pool })
      else (0, st)

/-- `mem_blk_ok`. -/
def memBlkOk (m : Mem) (p : Nat) : Bool := magicNum m p = memBlkMagic && inUse m p = 1

/-- `free_mem_blk`. -/
def freeMemBlk (pool : MemPool) (m : Mem) (p : Nat) : Option Mem :=
  mergeFreeBlk pool (setInUse m p 0) p

/-- `free_mem`; a pointer whose header does not check out is only reported. -/
def freeMem (st : PoolState σ) (userStart : Nat) : Option (PoolState σ) :=
  if userStart = 0 then some st
  else
    let memBlk := sub64 userStart sizeofMemBlk
    if memBlkOk st.mem memBlk then
      let pool :=
        { st.pool with totalLength := sub64 st.pool.totalLength (userLen st.mem memBlk) }
      (freeMemBlk pool st.mem memBlk).map fun mem => { st with mem := mem, pool := pool }
    else some st

/-- The length of the pool after `init_mm`. -/
def initialBlkLen : Nat := sizeofMemBlk + sizeofMemBlkTail

/-- `init_mm`; `none` when `sbrk_func` fails. -/
def initMm (m : Mem) (k : σ) : Option (PoolState σ) :=
  match sbrkFunc k initialBlkLen with
  | (none, _) => none
  | (some start, k) =>
      some
        { mem := initFreeBlk m start initialBlkLen
          pool := { start := start, end_ := add64 start initialBlkLen, totalLength := 0 }
          sbrk := k }

end Sbrk

/-! ## The kernel's `sbrk` -/

/-- `MEM_POOL_SIZE`. -/
def memPoolSize : Nat := 512 * 2 ^ 20

/-- `MEM_POOL_START`: `PAGE_OFFSET + RAM_ADDR_START` and 256 MiB. -/
def memPoolStart : Nat := 0xFFFFFFC000000000 + 0x40000000 + 256 * 2 ^ 20

/-- The static variables of `kernel_mock_sbrk`. -/
structure MockSbrk where
  last : Nat
  allocatedSize : Nat
  last_eq : last = memPoolStart + allocatedSize
  size_le : allocatedSize ≤ memPoolSize

def mockSbrkInit : MockSbrk :=
  { last := memPoolStart, allocatedSize := 0, last_eq := rfl, size_le := Nat.zero_le _ }

/-- `kernel_mock_sbrk`, for the increments of a pool, which are not negative. -/
def kernelMockSbrk (k : MockSbrk) (increment : Nat) : Option Nat × MockSbrk :=
  if h : k.allocatedSize + increment ≤ memPoolSize then
    (some k.last,
      { last := k.last + increment
        allocatedSize := k.allocatedSize + increment
        last_eq := by rw [k.last_eq, Nat.add_assoc]
        size_le := h })
  else (none, k)

end Mm
end ToutOS
