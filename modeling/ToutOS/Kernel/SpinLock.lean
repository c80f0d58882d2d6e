import Mathlib.Data.Set.Function
import Mathlib.Logic.Function.Basic
import ToutOS.Base.Run

/-!
# SpinLock — `spin_lock` and `spin_unlock` with exclusive loads and stores

One lock word, any number of CPUs, one instruction at a time.  `LDXR` opens the exclusive monitor of
its CPU, every store to the word closes the monitors of all CPUs, and `STXR` stores only if the
monitor of its CPU is still open; it may fail for no reason (`fails`).  Only the holder calls
`spin_unlock`.  The instructions that save, set and restore `DAIF` do not touch the word and are in
`Preempt`.

* `LockPc` — the instruction a CPU is at; `owns` and `critical` are the stretches that matter.
* `SpinInv` — the word is 1 exactly while a CPU owns the lock, and what an open monitor knows of the
  word.
* `spinRun_exclusive` — at most one CPU is between the return of `spin_lock` and the store that
  releases the lock.
* `spinRun_released_iff` — every `spin_unlock` has released the lock when it returns in exactly the
  runs in which its `STXR` never fails; the word is then never left at 1 without an owner.
-/

namespace ToutOS
namespace Kernel

open Base

/-! ## The instructions -/

inductive LockPc
  /-- In neither function, and not the holder. -/
  | out
  | lockLdxr
  /-- At `CBZ X1, _try_lock`. -/
  | lockCbz (x1 : Nat)
  | lockStxr
  /-- At `CBNZ X2, spin_lock`. -/
  | lockCbnz (x2 : Nat)
  /-- `spin_lock` has returned. -/
  | holding
  | unlockLdxr
  /-- At `CBZ X1, _un_locked`. -/
  | unlockCbz (x1 : Nat)
  | unlockStxr
  /-- Past the `STXR` of `spin_unlock`; `released` says whether it has stored. -/
  | unlockRet (released : Bool)
  deriving DecidableEq, Repr

/-- From the store of 1 to the store of 0. -/
def LockPc.owns : LockPc → Bool
  | .lockCbnz x2 => x2 == 0
  | .holding | .unlockLdxr | .unlockCbz _ | .unlockStxr => true
  | .out | .lockLdxr | .lockCbz _ | .lockStxr | .unlockRet _ => false

/-- From the return of `spin_lock` to the store of 0. -/
def LockPc.critical : LockPc → Bool
  | .holding | .unlockLdxr | .unlockCbz _ | .unlockStxr => true
  | _ => false

/-- What the last `LDXR` has loaded, as far as it is still of interest. -/
def LockPc.seen : LockPc → Option Nat
  | .lockCbz x1 | .unlockCbz x1 => some x1
  | .lockStxr => some 0
  | _ => none

/-- Between `LDXR` and `STXR` of `spin_unlock`. -/
def LockPc.releasing : LockPc → Bool
  | .unlockCbz _ | .unlockStxr => true
  | _ => false

structure SpinSys where
  /-- `lock->data[0]`. -/
  word : Nat
  pc : Nat → LockPc
  monitor : Nat → Bool
  /-- History: the CPU whose `STXR` of `spin_lock` was the last store, if it was one of these. -/
  owner : Option Nat
  /-- History: `spin_lock` has returned, and no `STXR` of `spin_unlock` has stored since. -/
  inside : Nat → Bool
  /-- History: the calls of `spin_unlock` that have returned, and whether they have stored 0. -/
  unlocks : List (Nat × Bool)

inductive SpinAction
  /-- CPU `c` calls `spin_lock`. -/
  | lock (c : Nat)
  /-- CPU `c`, the holder, calls `spin_unlock`. -/
  | unlock (c : Nat)
  /-- CPU `c` executes its next instruction; an `STXR` fails if `fails`. -/
  | exec (c : Nat) (fails : Bool)
  deriving DecidableEq, Repr

/-- CPU `c` goes on at `pc`. -/
def SpinSys.goto (s : SpinSys) (c : Nat) (pc : LockPc) : SpinSys :=
  { s with pc := Function.update s.pc c pc }

/-- `LDXR` on CPU `c`. -/
def SpinSys.ldxr (s : SpinSys) (c : Nat) : SpinSys :=
  { s with monitor := Function.update s.monitor c true }

/-- An `STXR` that stores. -/
def SpinSys.stxr (s : SpinSys) (x1 : Nat) : SpinSys := { s with word := x1, monitor := fun _ => false }

/-- An `STXR` that does not. -/
def SpinSys.stxrFailed (s : SpinSys) (c : Nat) : SpinSys :=
  { s with monitor := Function.update s.monitor c false }

def spinExec (s : SpinSys) (c : Nat) (fails : Bool) : Option SpinSys :=
  match s.pc c with
  | .out => none
  | .holding => none
  | .lockLdxr => some ((s.ldxr c).goto c (.lockCbz s.word))
  | .lockCbz x1 => some (s.goto c (if x1 = 0 then .lockStxr else .lockLdxr))
  | .lockStxr =>
      some <|
        if s.monitor c = true ∧ fails = false then
          { (s.stxr 1).goto c (.lockCbnz 0) with owner := some c }
        else (s.stxrFailed c).goto c (.lockCbnz 1)
  | .lockCbnz x2 =>
      some <|
        if x2 = 0 then { s.goto c .holding with inside := Function.update s.inside c true }
        else s.goto c .lockLdxr
  | .unlockLdxr => some ((s.ldxr c).goto c (.unlockCbz s.word))
  | .unlockCbz x1 => some (s.goto c (if x1 = 0 then .unlockRet false else .unlockStxr))
  | .unlockStxr =>
      some <|
        if s.monitor c = true ∧ fails = false then
          { (s.stxr 0).goto c (.unlockRet true) with
            owner := none
            inside := Function.update s.inside c false }
        else (s.stxrFailed c).goto c (.unlockRet false)
  | .unlockRet released => some { s.goto c .out with unlocks := (c, released) :: s.unlocks }

def spinStep (s : SpinSys) : SpinAction → Option SpinSys
  | .lock c => if s.pc c = .out then some (s.goto c .lockLdxr) else none
  | .unlock c => if s.pc c = .holding then some (s.goto c .unlockLdxr) else none
  | .exec c fails => spinExec s c fails

/-- `spin_lock_init`: the lock is free. -/
def spinInit : SpinSys :=
  { word := 0
    pc := fun _ => .out
    monitor := fun _ => false
    owner := none
    inside := fun _ => false
    unlocks := [] }

/-- Every `spin_unlock` that has returned has stored 0, and the word is not left at 1 by anybody but
an owner. -/
def Released (s : SpinSys) : Prop :=
  (∀ u ∈ s.unlocks, u.2 = true) ∧ (s.word ≠ 0 → ∃ c, (s.pc c).owns = true)

/-- The `STXR` of `spin_unlock` does not fail. -/
def UnlockStores (s : SpinSys) : SpinAction → Prop
  | .exec c fails => s.pc c = .unlockStxr → fails = false
  | .lock _ => True
  | .unlock _ => True

instance (s : SpinSys) : ∀ a, Decidable (UnlockStores s a)
  | .exec c fails => inferInstanceAs (Decidable (s.pc c = .unlockStxr → fails = false))
  | .lock _ | .unlock _ => isTrue trivial

/-! ## The invariant -/

/-- What holds of CPU `c`. -/
structure SpinCpuOk (word : Nat) (owner : Option Nat) (c : Nat) (pc : LockPc) (monitor inside : Bool) :
    Prop where
  owns : pc.owns = true → owner = some c
  inside_owns : inside = true → owner = some c
  critical : pc.critical = true → inside = true
  /-- While the monitor is open, the word is what has been loaded. -/
  seen : ∀ x, pc.seen = some x → monitor = true → word = x
  /-- Nobody closes the monitor of an owner. -/
  releasing : pc.releasing = true → monitor = true
  lost : pc = .unlockRet false → inside = true

structure SpinInv (s : SpinSys) : Prop where
  word : s.word = if s.owner = none then 0 else 1
  cpus : ∀ c, SpinCpuOk s.word s.owner c (s.pc c) (s.monitor c) (s.inside c)

theorem spinInit_inv : SpinInv spinInit :=
  { word := rfl
    cpus := fun _ => ⟨nofun, nofun, nofun, nofun, nofun, nofun⟩ }

theorem LockPc.owns_of_releasing {pc : LockPc} (h : pc.releasing = true) : pc.owns = true := by
  cases pc <;> first | rfl | cases h

/-- A store by another CPU, to a CPU that does not own the lock. -/
theorem SpinCpuOk.stored {word : Nat} {owner : Option Nat} {d : Nat} {pc : LockPc} {monitor inside : Bool}
    (h : SpinCpuOk word owner d pc monitor inside) (hd : owner ≠ some d) (word' : Nat)
    (owner' : Option Nat) : SpinCpuOk word' owner' d pc false inside :=
  { owns := fun hpc => absurd (h.owns hpc) hd
    inside_owns := fun hin => absurd (h.inside_owns hin) hd
    critical := h.critical
    seen := fun _ _ => nofun
    releasing := fun hpc => absurd (h.owns (LockPc.owns_of_releasing hpc)) hd
    lost := h.lost }

section Invariant

variable {s : SpinSys}

theorem SpinInv.owner_none (h : SpinInv s) (hword : s.word = 0) : s.owner = none := by
  by_contra howner
  have := h.word
  rw [if_neg howner] at this
  omega

theorem SpinInv.word_ne_zero (h : SpinInv s) {c : Nat} (howner : s.owner = some c) : s.word ≠ 0 := by
  rw [h.word, howner]
  nofun

/-- CPU `c` moves on by itself: the others see nothing of it. -/
theorem SpinInv.move (h : SpinInv s) {c : Nat} {pc : LockPc} {monitor inside : Bool}
    {unlocks : List (Nat × Bool)} (hc : SpinCpuOk s.word s.owner c pc monitor inside) :
    SpinInv
      { s with
        pc := Function.update s.pc c pc
        monitor := Function.update s.monitor c monitor
        inside := Function.update s.inside c inside
        unlocks := unlocks } := by
  refine ⟨h.word, fun d => ?_⟩
  by_cases hd : d = c
  · subst hd
    simpa only [Function.update_self] using hc
  · simpa only [Function.update_of_ne hd] using h.cpus d

/-- CPU `c` goes on at `pc`. -/
theorem SpinInv.goto (h : SpinInv s) {c : Nat} {pc : LockPc}
    (hc : SpinCpuOk s.word s.owner c pc (s.monitor c) (s.inside c)) : SpinInv (s.goto c pc) := by
  have hmove := @SpinInv.move s h c pc (s.monitor c) (s.inside c) s.unlocks hc
  rw [Function.update_eq_self, Function.update_eq_self] at hmove
  exact hmove

/-- CPU `c` executes an `LDXR`. -/
theorem SpinInv.ldxr (h : SpinInv s) {c : Nat} {pc : LockPc}
    (hc : SpinCpuOk s.word s.owner c pc true (s.inside c)) : SpinInv ((s.ldxr c).goto c pc) := by
  have hmove := @SpinInv.move s h c pc true (s.inside c) s.unlocks hc
  rw [Function.update_eq_self] at hmove
  exact hmove

/-- CPU `c` executes an `STXR` that does not store. -/
theorem SpinInv.stxrFailed (h : SpinInv s) {c : Nat} {pc : LockPc}
    (hc : SpinCpuOk s.word s.owner c pc false (s.inside c)) :
    SpinInv ((s.stxrFailed c).goto c pc) := by
  have hmove := @SpinInv.move s h c pc false (s.inside c) s.unlocks hc
  rw [Function.update_eq_self] at hmove
  exact hmove

/-- CPU `c` stores `x1` while no other CPU owns the lock. -/
theorem SpinInv.store (h : SpinInv s) {c x1 : Nat} {pc : LockPc} {owner : Option Nat} {inside : Bool}
    (hothers : ∀ d, d ≠ c → s.owner ≠ some d) (hword : x1 = if owner = none then 0 else 1)
    (hc : SpinCpuOk x1 owner c pc false inside) :
    SpinInv
      { s with
        word := x1
        pc := Function.update s.pc c pc
        monitor := fun _ => false
        owner := owner
        inside := Function.update s.inside c inside } := by
  refine ⟨hword, fun d => ?_⟩
  by_cases hd : d = c
  · subst hd
    simpa only [Function.update_self] using hc
  · simpa only [Function.update_of_ne hd] using (h.cpus d).stored (hothers d hd) x1 owner

/-- A CPU at the `STXR` of `spin_lock` with its monitor open finds the lock free. -/
theorem SpinInv.lock_free (h : SpinInv s) {c : Nat} (hpc : s.pc c = .lockStxr)
    (hmonitor : s.monitor c = true) : s.owner = none :=
  h.owner_none ((h.cpus c).seen 0 (by rw [hpc]; rfl) hmonitor)

/-- A CPU behind the `LDXR` of `spin_unlock` has loaded a 1. -/
theorem SpinInv.loaded (h : SpinInv s) {c x1 : Nat} (hpc : s.pc c = .unlockCbz x1) : x1 ≠ 0 := by
  have hc := h.cpus c
  rw [hpc] at hc
  have hword := hc.seen x1 rfl (hc.releasing rfl)
  rw [← hword]
  exact h.word_ne_zero (hc.owns rfl)

theorem SpinInv.exec (h : SpinInv s) {s' : SpinSys} {c : Nat} {fails : Bool}
    (hexec : spinExec s c fails = some s') : SpinInv s' := by
  have hc := h.cpus c
  cases hpc : s.pc c with
  | out => simp [spinExec, hpc] at hexec
  | holding => simp [spinExec, hpc] at hexec
  | lockLdxr =>
      simp only [spinExec, hpc, Option.some.injEq] at hexec
      rw [hpc] at hc
      rw [← hexec]
      exact h.ldxr
        ⟨nofun, hc.inside_owns, nofun, fun x hx _ => Option.some.inj hx, nofun, nofun⟩
  | lockCbz x1 =>
      simp only [spinExec, hpc, Option.some.injEq] at hexec
      rw [hpc] at hc
      rw [← hexec]
      apply h.goto
      by_cases hx : x1 = 0
      · -- as long as the monitor is open, the word is still the 0 that has been loaded
        rw [if_pos hx]
        exact ⟨nofun, hc.inside_owns, nofun, fun x h0 hm =>
          (hc.seen x1 rfl hm).trans (hx.trans (Option.some.inj h0)), nofun, nofun⟩
      · rw [if_neg hx]
        exact ⟨nofun, hc.inside_owns, nofun, nofun, nofun, nofun⟩
  | lockStxr =>
      simp only [spinExec, hpc, Option.some.injEq] at hexec
      rw [hpc] at hc
      by_cases hstore : s.monitor c = true ∧ fails = false
      · -- the word has not changed since it was loaded: nobody owns the lock
        have hfree := h.lock_free hpc hstore.1
        have hnew := @SpinInv.store s h c 1 (.lockCbnz 0) (some c) (s.inside c)
          (fun d _ => by rw [hfree]; nofun) rfl
          ⟨fun _ => rfl, fun _ => rfl, nofun, fun _ _ => nofun, nofun, nofun⟩
        rw [Function.update_eq_self] at hnew
        rw [if_pos hstore] at hexec
        exact hexec ▸ hnew
      · rw [if_neg hstore] at hexec
        rw [← hexec]
        exact h.stxrFailed ⟨nofun, hc.inside_owns, nofun, nofun, nofun, nofun⟩
  | lockCbnz x2 =>
      simp only [spinExec, hpc, Option.some.injEq] at hexec
      rw [hpc] at hc
      by_cases hx : x2 = 0
      · -- `spin_lock` returns: its CPU owns the lock since the store
        have howner : s.owner = some c := hc.owns (by rw [hx]; rfl)
        have hmove := @SpinInv.move s h c .holding (s.monitor c) true s.unlocks
          ⟨fun _ => howner, fun _ => howner, fun _ => rfl, nofun, nofun, nofun⟩
        rw [Function.update_eq_self] at hmove
        rw [if_pos hx] at hexec
        exact hexec ▸ hmove
      · rw [if_neg hx] at hexec
        rw [← hexec]
        exact h.goto ⟨nofun, hc.inside_owns, nofun, nofun, nofun, nofun⟩
  | unlockLdxr =>
      simp only [spinExec, hpc, Option.some.injEq] at hexec
      rw [hpc] at hc
      rw [← hexec]
      exact h.ldxr ⟨fun _ => hc.owns rfl, hc.inside_owns, fun _ => hc.critical rfl,
        fun x hx _ => Option.some.inj hx, fun _ => rfl, nofun⟩
  | unlockCbz x1 =>
      simp only [spinExec, hpc, Option.some.injEq, if_neg (h.loaded hpc)] at hexec
      rw [hpc] at hc
      rw [← hexec]
      exact h.goto ⟨fun _ => hc.owns rfl, hc.inside_owns, fun _ => hc.critical rfl, nofun,
        fun _ => hc.releasing rfl, nofun⟩
  | unlockStxr =>
      simp only [spinExec, hpc, Option.some.injEq] at hexec
      rw [hpc] at hc
      have howner : s.owner = some c := hc.owns rfl
      by_cases hstore : s.monitor c = true ∧ fails = false
      · -- only its owner stores a 0
        have hnew := @SpinInv.store s h c 0 (.unlockRet true) none false
          (fun d hd => by rw [howner]; exact fun he => hd (Option.some.inj he).symm) rfl
          ⟨nofun, nofun, nofun, fun _ _ => nofun, nofun, nofun⟩
        rw [if_pos hstore] at hexec
        exact hexec ▸ hnew
      · rw [if_neg hstore] at hexec
        rw [← hexec]
        exact h.stxrFailed
          ⟨nofun, hc.inside_owns, nofun, nofun, nofun, fun _ => hc.critical rfl⟩
  | unlockRet released =>
      simp only [spinExec, hpc, Option.some.injEq] at hexec
      rw [hpc] at hc
      have hmove := @SpinInv.move s h c .out (s.monitor c) (s.inside c) ((c, released) :: s.unlocks)
        ⟨nofun, hc.inside_owns, nofun, nofun, nofun, nofun⟩
      rw [Function.update_eq_self, Function.update_eq_self] at hmove
      exact hexec ▸ hmove

theorem spinStep_inv {s' : SpinSys} {a : SpinAction} (h : SpinInv s)
    (hstep : spinStep s a = some s') : SpinInv s' := by
  cases a with
  | lock c =>
      simp only [spinStep, Option.ite_none_right_eq_some, Option.some.injEq] at hstep
      obtain ⟨hpc, hstep⟩ := hstep
      rw [← hstep]
      exact h.goto ⟨nofun, (h.cpus c).inside_owns, nofun, nofun, nofun, nofun⟩
  | unlock c =>
      simp only [spinStep, Option.ite_none_right_eq_some, Option.some.injEq] at hstep
      obtain ⟨hpc, hstep⟩ := hstep
      have hc := h.cpus c
      rw [hpc] at hc
      rw [← hstep]
      exact h.goto
        ⟨fun _ => hc.owns rfl, hc.inside_owns, fun _ => hc.critical rfl, nofun, nofun, nofun⟩
  | exec c fails => exact h.exec hstep

/-! ## Mutual exclusion and release -/

theorem SpinInv.exclusive (h : SpinInv s) {c d : Nat} (hc : s.inside c = true)
    (hd : s.inside d = true) : c = d :=
  Option.some.inj (((h.cpus c).inside_owns hc).symm.trans ((h.cpus d).inside_owns hd))

/-- The owner of the word, when the word is not left behind. -/
theorem SpinInv.owner_of_word (h : SpinInv s) (hreleased : Released s) {c : Nat}
    (howner : s.owner = some c) : (s.pc c).owns = true := by
  obtain ⟨d, hd⟩ := hreleased.2 (h.word_ne_zero howner)
  obtain rfl := Option.some.inj (howner.symm.trans ((h.cpus d).owns hd))
  exact hd

/-- CPU `c` goes from one instruction of its own to the next: an owner stays one. -/
theorem Released.move (hreleased : Released s) {s' : SpinSys} {c : Nat}
    {pc : LockPc} (hpc : s'.pc = Function.update s.pc c pc) (hword : s'.word = s.word)
    (hunlocks : ∀ u ∈ s'.unlocks, u.2 = true) (howns : (s.pc c).owns = true → pc.owns = true) :
    Released s' := by
  refine ⟨hunlocks, fun hne => ?_⟩
  rw [hword] at hne
  obtain ⟨d, hd⟩ := hreleased.2 hne
  refine ⟨d, ?_⟩
  rw [hpc]
  by_cases hdc : d = c
  · subst hdc
    rw [Function.update_self]
    exact howns hd
  · rwa [Function.update_of_ne hdc]

theorem SpinInv.exec_released_iff (h : SpinInv s) (hreleased : Released s) {s' : SpinSys} {c : Nat}
    {fails : Bool} (hexec : spinExec s c fails = some s') :
    Released s' ↔ (s.pc c = .unlockStxr → fails = false) := by
  cases hpc : s.pc c with
  | out => simp [spinExec, hpc] at hexec
  | holding => simp [spinExec, hpc] at hexec
  | lockLdxr =>
      simp only [spinExec, hpc, Option.some.injEq] at hexec
      subst hexec
      refine iff_of_true (hreleased.move rfl rfl hreleased.1 ?_) nofun
      rw [hpc]
      nofun
  | lockCbz x1 =>
      simp only [spinExec, hpc, Option.some.injEq] at hexec
      subst hexec
      refine iff_of_true (hreleased.move rfl rfl hreleased.1 ?_) nofun
      rw [hpc]
      nofun
  | lockStxr =>
      simp only [spinExec, hpc, Option.some.injEq] at hexec
      subst hexec
      refine iff_of_true ?_ nofun
      by_cases hstore : s.monitor c = true ∧ fails = false
      · rw [if_pos hstore]
        refine ⟨hreleased.1, fun _ => ⟨c, ?_⟩⟩
        simp only [SpinSys.goto, Function.update_self]
        rfl
      · rw [if_neg hstore]
        refine hreleased.move rfl rfl hreleased.1 ?_
        rw [hpc]
        nofun
  | lockCbnz x2 =>
      simp only [spinExec, hpc, Option.some.injEq] at hexec
      subst hexec
      refine iff_of_true ?_ nofun
      by_cases hx : x2 = 0
      · rw [if_pos hx]
        exact hreleased.move rfl rfl hreleased.1 fun _ => rfl
      · rw [if_neg hx]
        refine hreleased.move rfl rfl hreleased.1 ?_
        rw [hpc]
        intro howns
        exact absurd (beq_iff_eq.1 howns) hx
  | unlockLdxr =>
      simp only [spinExec, hpc, Option.some.injEq] at hexec
      subst hexec
      exact iff_of_true (hreleased.move rfl rfl hreleased.1 fun _ => rfl) nofun
  | unlockCbz x1 =>
      simp only [spinExec, hpc, Option.some.injEq, if_neg (h.loaded hpc)] at hexec
      subst hexec
      exact iff_of_true (hreleased.move rfl rfl hreleased.1 fun _ => rfl) nofun
  | unlockStxr =>
      have hinv : SpinInv s' := h.exec hexec
      simp only [spinExec, hpc, Option.some.injEq] at hexec
      have hc := h.cpus c
      rw [hpc] at hc
      have hmonitor : s.monitor c = true := hc.releasing rfl
      have howner : s.owner = some c := hc.owns rfl
      cases fails with
      | false =>
          rw [if_pos ⟨hmonitor, rfl⟩] at hexec
          subst hexec
          exact iff_of_true ⟨hreleased.1, fun hne => absurd rfl hne⟩ fun _ => rfl
      | true =>
          rw [if_neg (fun hstore => Bool.noConfusion hstore.2)] at hexec
          subst hexec
          -- the word is still 1, and the CPU that owned it is about to return
          refine iff_of_false (fun hrel => ?_) (fun hall => Bool.noConfusion (hall rfl))
          have howns := @SpinInv.owner_of_word _ hinv hrel c howner
          simp only [SpinSys.goto, Function.update_self] at howns
          cases howns
  | unlockRet released =>
      simp only [spinExec, hpc, Option.some.injEq] at hexec
      subst hexec
      refine iff_of_true ?_ nofun
      have hstored : released = true := by
        cases released with
        | true => rfl
        | false =>
            -- a lost release would have left the word at 1 without an owner
            have hc := h.cpus c
            have howns := h.owner_of_word hreleased (hc.inside_owns (hc.lost hpc))
            rw [hpc] at howns
            cases howns
      refine hreleased.move rfl rfl (List.forall_mem_cons.2 ⟨hstored, hreleased.1⟩) ?_
      rw [hpc]
      nofun

theorem spinStep_released_iff {s' : SpinSys} {a : SpinAction} (h : SpinInv s)
    (hreleased : Released s) (hstep : spinStep s a = some s') : Released s' ↔ UnlockStores s a := by
  cases a with
  | lock c =>
      simp only [spinStep, Option.ite_none_right_eq_some, Option.some.injEq] at hstep
      obtain ⟨hpc, rfl⟩ := hstep
      refine iff_of_true (hreleased.move rfl rfl hreleased.1 ?_) trivial
      rw [hpc]
      nofun
  | unlock c =>
      simp only [spinStep, Option.ite_none_right_eq_some, Option.some.injEq] at hstep
      obtain ⟨hpc, rfl⟩ := hstep
      exact iff_of_true (hreleased.move rfl rfl hreleased.1 fun _ => rfl) trivial
  | exec c fails => exact h.exec_released_iff hreleased hstep

end Invariant

/-! ## Whole runs -/

theorem spinRun_inv {acts : List SpinAction} {s : SpinSys}
    (hrun : runFrom spinStep spinInit acts = some s) : SpinInv s :=
  runFrom_invariant (fun _ _ _ h hstep => spinStep_inv h hstep) spinInit_inv hrun

/-- Whatever the order of the instructions and whichever `STXR` fail: a CPU to which `spin_lock` has
returned is inside until its `spin_unlock` stores 0, and no two CPUs are inside. -/
theorem spinRun_exclusive {acts : List SpinAction} {s : SpinSys}
    (hrun : runFrom spinStep spinInit acts = some s) :
    (∀ c, (s.pc c).critical = true → s.inside c = true) ∧
      ∀ c d, s.inside c = true → s.inside d = true → c = d :=
  ⟨fun c hc => ((spinRun_inv hrun).cpus c).critical hc,
    fun _ _ hc hd => (spinRun_inv hrun).exclusive hc hd⟩

/-- Both CPUs load 0; CPU 1 stores first, after a failure; CPU 0 comes in when CPU 1 has left. -/
def sampleContention : List SpinAction :=
  [.lock 0, .lock 1, .exec 0 false, .exec 1 false, .exec 0 false, .exec 1 false, .exec 1 true,
    .exec 1 false, .exec 1 false, .exec 1 false, .exec 1 false, .exec 1 false, .exec 0 false,
    .exec 0 false, .exec 0 false, .unlock 1, .exec 1 false, .exec 1 false, .exec 1 false,
    .exec 1 false, .exec 0 false, .exec 0 false, .exec 0 false, .exec 0 false, .exec 0 false]

theorem spinRun_contention :
    ∃ s, runFrom spinStep spinInit sampleContention = some s ∧
      s.inside 0 = true ∧ s.unlocks = [(1, true)] ∧ ∀ d, s.inside d = true → d = 0 := by
  have hend : (runFrom spinStep spinInit sampleContention).map
      (fun s => (s.inside 0, s.unlocks)) = some (true, [(1, true)]) := by
    decide +kernel
  obtain ⟨s, hrun, hs⟩ := Option.map_eq_some_iff.1 hend
  obtain ⟨hin, hunlocks⟩ := Prod.mk.inj hs
  exact ⟨s, hrun, hin, hunlocks, fun d hd => (spinRun_exclusive hrun).2 d 0 hd hin⟩

/-- Every `spin_unlock` that returns has released the lock, and the lock is never held by nobody, in
exactly the runs in which no `STXR` of `spin_unlock` fails. -/
theorem spinRun_released_iff {acts : List SpinAction} {s : SpinSys}
    (hrun : runFrom spinStep spinInit acts = some s) :
    Always spinStep Released spinInit acts ↔ Along spinStep UnlockStores spinInit acts :=
  always_iff_along (fun _ _ _ h hstep => spinStep_inv h hstep)
    (fun _ _ _ h hreleased hstep => spinStep_released_iff h hreleased hstep) spinInit_inv
    ⟨nofun, fun hne => absurd rfl hne⟩ hrun

theorem spinRun_released_contention :
    ∃ s, runFrom spinStep spinInit sampleContention = some s ∧ s.unlocks = [(1, true)] ∧
      Always spinStep Released spinInit sampleContention := by
  have hend : (runFrom spinStep spinInit sampleContention).map SpinSys.unlocks =
      some [(1, true)] := by
    decide +kernel
  obtain ⟨s, hrun, hunlocks⟩ := Option.map_eq_some_iff.1 hend
  exact ⟨s, hrun, hunlocks, (spinRun_released_iff hrun).2 (by decide +kernel)⟩

/-- The `STXR` of `spin_unlock` fails once. -/
def sampleLost : List SpinAction :=
  [.lock 0, .exec 0 false, .exec 0 false, .exec 0 false, .exec 0 false, .unlock 0, .exec 0 false,
    .exec 0 false, .exec 0 true, .exec 0 false]

/-- `spin_unlock` has returned, the word is still 1, and nobody is at the lock. -/
theorem spinRun_lost :
    ∃ s, runFrom spinStep spinInit sampleLost = some s ∧
      s.unlocks = [(0, false)] ∧ s.word = 1 ∧ s.pc 0 = .out ∧ ¬ Released s := by
  have hend : (runFrom spinStep spinInit sampleLost).map
      (fun s => (s.unlocks, s.word, s.pc 0)) = some ([(0, false)], 1, .out) := by
    decide +kernel
  obtain ⟨s, hrun, hs⟩ := Option.map_eq_some_iff.1 hend
  simp only [Prod.mk.injEq] at hs
  obtain ⟨hunlocks, hword, hpc⟩ := hs
  refine ⟨s, hrun, hunlocks, hword, hpc, fun h => ?_⟩
  have := h.1 (0, false) (by rw [hunlocks]; exact List.mem_singleton.2 rfl)
  cases this

end Kernel
end ToutOS
