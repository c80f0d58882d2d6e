import Mathlib.Order.Interval.Finset.Nat
import ToutOS.Base.Walk
import ToutOS.Mm.PageTable

/-!
# DumpStack — the frame-pointer walk of `kernel/misc.c`

`dump_stack` follows the saved frame pointers as long as they lie in the page of the stack and the
return addresses lie in the kernel.  IRQs are off.  Between two frame records it calls `printk`, which
writes below the stack pointer; `mem i` is what memory holds when the loop is entered for the `i`-th
time.

* `withinStack`, `dumpLoop`, `dumpStack` — the functions, with the lines that are printed;
* `nextFrame`, `dumpLoop_walk` — in memory that does not change, the loop is a walk along links;
* `dumpReturns_kept` — what `printk` writes elsewhere than in the records does not matter;
* `dumpReturns_iff` — when the walk ends;
* `dumpReturns_of_increasing` — the stack as the compiler lays it out.
-/

namespace ToutOS
namespace Kernel

open Base Mm Relation

/-! ## The code -/

/-- `KERNEL_LINEAR_START`. -/
def kernelLinearStart : Nat := va 0x40000000

/-- `within_stack`, with the stack pointer it reads. -/
def withinStack (sp fp : Nat) : Bool :=
  let stackMin := sp / pageSize * pageSize
  let stackMax := add64 stackMin pageSize
  stackMin ≤ fp && fp < stackMax

/-- `branch_addr`, one instruction before the saved return address. -/
def branchAddr (m : Mem) (fp : Nat) : Nat := sub64 (load m (add64 fp 8) 8) 4

/-- The loop of `dump_stack`, with the addresses that are printed. -/
def dumpLoop (mem : Nat → Mem) (sp : Nat) : Nat → Nat → Nat → Option (List Nat)
  | 0, _, _ => none
  | fuel + 1, i, fp =>
      if withinStack sp fp then
        if branchAddr (mem i) fp < kernelLinearStart then some []
        else (dumpLoop mem sp fuel (i + 1) (load (mem i) fp 8)).map (branchAddr (mem i) fp :: ·)
      else some []

/-- The lines of `dump_stack`. -/
inductive DumpLine
  | first (coreId : Nat)
  | elrEl1 (coreId elr : Nat)
  | branch (addr : Nat)
  | last (coreId : Nat)
  deriving DecidableEq, Repr

/-- `dump_stack`, with the registers it reads: `fp` is `X29`. -/
def dumpStack (mem : Nat → Mem) (coreId elrEl1 sp fp fuel : Nat) : Option (List DumpLine) :=
  (dumpLoop mem sp fuel 0 fp).map fun branches =>
    .first coreId :: .elrEl1 coreId elrEl1 :: (branches.map .branch ++ [.last coreId])

/-- The walk terminates, and `dump_stack` returns. -/
def DumpReturns (mem : Nat → Mem) (coreId elrEl1 sp fp : Nat) : Prop :=
  ∃ fuel lines, dumpStack mem coreId elrEl1 sp fp fuel = some lines

/-! ## The links -/

/-- The frame record behind that at `fp`; `none` where the loop ends. -/
def nextFrame (m : Mem) (sp fp : Nat) : Option Nat :=
  if withinStack sp fp = true ∧ kernelLinearStart ≤ branchAddr m fp then some (load m fp 8) else none

variable {m : Mem} {mem : Nat → Mem} {coreId elrEl1 sp fp fuel : Nat}

theorem dumpLoop_walk (i : Nat) :
    dumpLoop (fun _ => m) sp fuel i fp =
      (walk (nextFrame m sp) fuel fp).map (List.map (branchAddr m)) := by
  induction fuel generalizing i fp with
  | zero => rfl
  | succ fuel ih =>
      rw [dumpLoop, walk, nextFrame]
      by_cases hin : withinStack sp fp = true
      · by_cases hlow : branchAddr m fp < kernelLinearStart
        · rw [if_pos hin, if_pos hlow, if_neg fun h => Nat.not_le.2 hlow h.2]
          rfl
        · rw [if_pos hin, if_neg hlow, if_pos ⟨hin, Nat.le_of_not_lt hlow⟩, ih]
          simp only [Option.map_map, Function.comp_def, List.map_cons]
      · rw [if_neg hin, if_neg fun h => hin h.1]
        rfl

theorem dumpReturns_iff_loop :
    DumpReturns mem coreId elrEl1 sp fp ↔ ∃ fuel, (dumpLoop mem sp fuel 0 fp).isSome = true := by
  simp only [DumpReturns, dumpStack, ← Option.isSome_iff_exists, Option.isSome_map]

theorem dumpReturns_iff_stops :
    DumpReturns (fun _ => m) coreId elrEl1 sp fp ↔ Stops (nextFrame m sp) fp := by
  simp only [dumpReturns_iff_loop, dumpLoop_walk, Option.isSome_map, Stops]

/-! ## Memory that changes -/

/-- Memory `m'` holds the same frame record at `fp` as `m`. -/
def SameRecord (m m' : Mem) (fp : Nat) : Prop :=
  load m' fp 8 = load m fp 8 ∧ branchAddr m' fp = branchAddr m fp

/-- The loop depends on the records it gets to. -/
theorem dumpLoop_congr (i : Nat)
    (hsame : ∀ j a, ReflTransGen (Links (nextFrame m sp)) fp a → SameRecord m (mem j) a) :
    dumpLoop mem sp fuel i fp = dumpLoop (fun _ => m) sp fuel i fp := by
  induction fuel generalizing i fp with
  | zero => rfl
  | succ fuel ih =>
      obtain ⟨hlink, hbranch⟩ := hsame i fp ReflTransGen.refl
      simp only [dumpLoop, hlink, hbranch]
      by_cases hon : withinStack sp fp = true ∧ kernelLinearStart ≤ branchAddr m fp
      · have hlinks : Links (nextFrame m sp) fp (load m fp 8) := if_pos hon
        rw [ih (i + 1) fun j a ha => hsame j a (ReflTransGen.head hlinks ha)]
      · by_cases hin : withinStack sp fp = true
        · have hlow : branchAddr m fp < kernelLinearStart := Nat.lt_of_not_le fun h => hon ⟨hin, h⟩
          simp only [if_pos hin, if_pos hlow]
        · simp only [if_neg hin]

/-- What is written elsewhere than in the records that the walk gets to does not matter. -/
theorem dumpReturns_kept
    (hsame : ∀ j a, ReflTransGen (Links (nextFrame m sp)) fp a → SameRecord m (mem j) a) :
    DumpReturns mem coreId elrEl1 sp fp ↔ DumpReturns (fun _ => m) coreId elrEl1 sp fp := by
  simp only [dumpReturns_iff_loop, dumpLoop_congr 0 hsame]

/-! ## When the walk ends -/

/-- Only the addresses of one page link on. -/
theorem finite_nextFrame (m : Mem) (sp : Nat) : {a | (nextFrame m sp a).isSome = true}.Finite := by
  refine (Set.finite_Iio (add64 (sp / pageSize * pageSize) pageSize)).subset fun a ha => ?_
  have hin : withinStack sp a = true := by
    by_contra hout
    have hnone : nextFrame m sp a = none := if_neg fun h => hout h.1
    rw [Set.mem_ofPred_eq, hnone] at ha
    cases ha
  simp only [withinStack, Bool.and_eq_true, decide_eq_true_eq] at hin
  exact hin.2

/-- For every contents of memory, the walk from `fp` terminates exactly if no frame record that it gets
to links back to itself, directly or by way of others. -/
theorem dumpReturns_iff (m : Mem) (coreId elrEl1 sp fp : Nat) :
    DumpReturns (fun _ => m) coreId elrEl1 sp fp ↔ ¬ReachesCycle (nextFrame m sp) fp := by
  rw [dumpReturns_iff_stops, stops_iff_no_cycle (finite_nextFrame m sp)]

/-- Each record of a stack lies above the one before. -/
theorem dumpReturns_of_increasing
    (hup : ∀ a b, ReflTransGen (Links (nextFrame m sp)) fp a → Links (nextFrame m sp) a b → a < b) :
    DumpReturns (fun _ => m) coreId elrEl1 sp fp := by
  rw [dumpReturns_iff_stops, stops_iff_no_cycle (finite_nextFrame m sp)]
  exact not_reachesCycle_of_increasing hup

/-- The record of `dump_stack`, and behind it one that links to itself. -/
def loopedStack : Mem :=
  store (store (store (store (fun _ => 0) 0xFFFFFFC040020F20 8 0xFFFFFFC040020F80)
    0xFFFFFFC040020F28 8 0xFFFFFFC040010800) 0xFFFFFFC040020F80 8 0xFFFFFFC040020F80)
    0xFFFFFFC040020F88 8 0xFFFFFFC040010900

theorem loopedStack_hangs :
    ¬DumpReturns (fun _ => loopedStack) 0 0 0xFFFFFFC040020F00 0xFFFFFFC040020F20 := by
  have hfirst : Links (nextFrame loopedStack 0xFFFFFFC040020F00) 0xFFFFFFC040020F20
      0xFFFFFFC040020F80 := by
    show nextFrame _ _ _ = _
    decide +kernel
  have hself : Links (nextFrame loopedStack 0xFFFFFFC040020F00) 0xFFFFFFC040020F80
      0xFFFFFFC040020F80 := by
    show nextFrame _ _ _ = _
    decide +kernel
  rw [dumpReturns_iff_stops]
  exact fun hstops => hstops.no_cycle ⟨_, ReflTransGen.single hfirst, TransGen.single hself⟩

end Kernel
end ToutOS
