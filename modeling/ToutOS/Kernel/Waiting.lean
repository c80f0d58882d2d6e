import ToutOS.Kernel.Syscall
import ToutOS.Kernel.Timer

/-!
# Waiting — `schedule_timeout` and the calls that sleep with it

The tick is counted in 64 bits; `schedule_timeout` keeps the expiry in an `unsigned int` and what is
left of the timeout in an `int`.

* `scheduleTimeout` — the expiry of the timer that a call arms, and what the call returns, from its
  two readings of the tick; `scheduleTimeout_ok_iff` says when both are what the callers mean.
* `Wait`, `InOrder` — the readings of the tick in a run, whenever the task is woken.
* `msleep`, `sysNanosleepRun` — the loops over these readings; `scheduleTimeout_wait` is what one
  round keeps, `msleep_waits` and `nanosleepLoop_waits` what a run keeps.
* `msleep_waits_iff`, `nanosleep_waits_iff` — for which times no run ends too early.
-/

namespace ToutOS
namespace Kernel

open Base

/-! ## `schedule_timeout` -/

/-- `get_tick` when the timer interrupt has come `t` times. -/
def getTick (t : Nat) : Nat := t % 2 ^ 64

/-- What a call of `schedule_timeout` does. -/
structure TimeoutCall where
  /-- The field of the timer that is armed. -/
  expires : Nat
  result : Int
  deriving DecidableEq, Repr

/-- `schedule_timeout(timeout)`, with the tick it reads before and after `schedule`. -/
def scheduleTimeout (timeout tick tick' : Nat) : TimeoutCall :=
  let expires : Nat := (timeout + tick) % 2 ^ 32
  let delta := ((expires : Int) - tick').bmod (2 ^ 32)
  { expires := expires
    result := if delta < 0 then 0 else delta }

/-- The timer is due `timeout` ticks on, in 64 bits, and the call returns what is left of the
timeout, as far as an `int` holds it. -/
structure TimeoutOk (timeout tick tick' : Nat) : Prop where
  expires : (scheduleTimeout timeout tick tick').expires = (tick + timeout) % 2 ^ 64
  result : (tick + timeout : Int) - tick' < 2 ^ 31 →
    (scheduleTimeout timeout tick tick').result = max 0 ((tick + timeout : Int) - tick')

/-- The remainder is taken for positive if the task runs again more than `2 ^ 31` ticks late. -/
theorem scheduleTimeout_result_iff (timeout tick tick' : Nat) :
    ((tick + timeout : Int) - tick' < 2 ^ 31 →
      (scheduleTimeout timeout tick tick').result = max 0 ((tick + timeout : Int) - tick')) ↔
      (tick' - (tick + timeout)) % 2 ^ 32 ≤ 2 ^ 31 := by
  simp only [scheduleTimeout, Int.bmod_def]
  split_ifs <;> omega

/-- `schedule_timeout` does what is meant exactly if the expiry fits into 32 bits, and the task does
not run again more than `2 ^ 31` ticks late. -/
theorem scheduleTimeout_ok_iff (timeout tick tick' : Nat) :
    TimeoutOk timeout tick tick' ↔
      (tick + timeout) % 2 ^ 64 < 2 ^ 32 ∧ (tick' - (tick + timeout)) % 2 ^ 32 ≤ 2 ^ 31 := by
  have hexpires : (scheduleTimeout timeout tick tick').expires = (tick + timeout) % 2 ^ 64 ↔
      (tick + timeout) % 2 ^ 64 < 2 ^ 32 := by
    simp only [scheduleTimeout]
    omega
  constructor
  · rintro ⟨h₁, h₂⟩
    exact ⟨hexpires.1 h₁, (scheduleTimeout_result_iff timeout tick tick').1 h₂⟩
  · rintro ⟨h₁, h₂⟩
    exact ⟨hexpires.2 h₁, (scheduleTimeout_result_iff timeout tick tick').2 h₂⟩

/-- The tick does not fit into an `unsigned int` any more: the timer's expiry has passed when it is
armed. -/
theorem scheduleTimeout_expired :
    (scheduleTimeout 1 (2 ^ 32 - 1) (2 ^ 32)).expires = 0 ∧ ¬TimeoutOk 1 (2 ^ 32 - 1) (2 ^ 32) := by
  refine ⟨by decide, fun h => ?_⟩
  have := h.expires
  revert this
  decide

/-- The expiry that the steps of `schedule_timeout` on the shared list of timers arm a timer with. -/
theorem arm_expires {s s₁ s₂ : TimerSys} {k p timeout : Nat}
    (h₁ : timerStep s (.readTick k timeout) = some s₁) (h₂ : timerStep s₁ (.arm k p) = some s₂)
    (tick' : Nat) : s₂.timers.expires p = (scheduleTimeout timeout s.tick tick').expires := by
  cases h₁
  simp only [timerStep, Function.update_self, Option.bind_some, armTimer] at h₂
  split_ifs at h₂
  cases h₂
  exact Function.update_self ..

/-! ## Runs -/

/-- A task in `schedule_timeout`: how often the timer interrupt has come when the expiry is computed,
and when the task runs again. -/
structure Wait where
  before : Nat
  after : Nat
  deriving DecidableEq, Repr

/-- The waits come one after the other, the first of them not before `now`. -/
def InOrder : Nat → List Wait → Prop
  | _, [] => True
  | now, w :: rest => now ≤ w.before ∧ w.before ≤ w.after ∧ InOrder w.after rest

/-- The call of `schedule_timeout` with this wait. -/
def Wait.call (w : Wait) (timeout : Nat) : TimeoutCall :=
  scheduleTimeout timeout (getTick w.before) (getTick w.after)

/-- No part of the timeout gets lost: what has passed and what is left are at least as much. -/
theorem scheduleTimeout_wait {timeout : Nat} {w : Wait} (htimeout : timeout < 2 ^ 31)
    (hle : w.before ≤ w.after) :
    0 ≤ (w.call timeout).result ∧ (w.call timeout).result < 2 ^ 31 ∧
      (w.before + timeout : Int) ≤ w.after + (w.call timeout).result := by
  simp only [Wait.call, scheduleTimeout, getTick, Int.bmod_def]
  refine ⟨?_, ?_, ?_⟩ <;> split_ifs <;> omega

/-! ## `msleep` -/

/-- The timeout that `msleep` begins with, with 10 ms to a tick. -/
def msleepTimeout (msecs : Nat) : Nat := (msecs + 10 - 1) % 2 ^ 32 / 10

/-- The loop of `msleep`: when it is left, `none` while the task still waits. -/
def msleepLoop : Nat → Nat → List Wait → Option Nat
  | timeout, now, waits =>
      if timeout = 0 then some now
      else
        match waits with
        | [] => none
        | w :: rest => msleepLoop (w.call timeout).result.toNat w.after rest

/-- `msleep(msecs)`, called after `start` ticks. -/
def msleep (msecs start : Nat) (waits : List Wait) : Option Nat :=
  msleepLoop (msleepTimeout msecs) start waits

theorem msleepLoop_waits {waits : List Wait} :
    ∀ {timeout now end' : Nat}, timeout < 2 ^ 31 → InOrder now waits →
      msleepLoop timeout now waits = some end' → now + timeout ≤ end' := by
  induction waits with
  | nil =>
      intro timeout now end' _ _ h
      rw [msleepLoop] at h
      split_ifs at h with hzero
      obtain rfl := Option.some.inj h
      omega
  | cons w waits ih =>
      intro timeout now end' htimeout horder h
      obtain ⟨hnow, hle, horder⟩ := horder
      rw [msleepLoop] at h
      split_ifs at h with hzero
      · obtain rfl := Option.some.inj h
        omega
      · obtain ⟨hpos, hlt, hkeep⟩ := scheduleTimeout_wait htimeout hle
        have := ih (by omega) horder h
        omega

/-- Whenever the task is woken, `msleep` returns only when its timeout has passed. -/
theorem msleep_waits {msecs start end' : Nat} {waits : List Wait} (horder : InOrder start waits)
    (h : msleep msecs start waits = some end') : start + msleepTimeout msecs ≤ end' := by
  refine msleepLoop_waits ?_ horder h
  rw [msleepTimeout]
  omega

/-- No run of `msleep(msecs)` from a tick below `2 ^ 31` ends before `msecs` have passed. -/
def MsleepWaits (msecs : Nat) : Prop :=
  ∀ start < 2 ^ 31, ∀ waits, InOrder start waits → ∀ end', msleep msecs start waits = some end' →
    start + (msecs + 9) / 10 ≤ end'

/-- `msleep` waits for as long as asked unless the rounding to ticks overflows. -/
theorem msleep_waits_iff (msecs : Nat) (h : msecs < 2 ^ 32) :
    MsleepWaits msecs ↔ msecs < 2 ^ 32 - 9 := by
  constructor
  · intro hwaits
    by_contra hbig
    -- there is nothing to wait for
    have hzero : msleepTimeout msecs = 0 := by
      rw [msleepTimeout]
      omega
    have hrun : msleep msecs 0 [] = some 0 := by rw [msleep, hzero, msleepLoop, if_pos rfl]
    have := hwaits 0 (by decide) [] trivial 0 hrun
    omega
  · intro hsmall start _ waits horder end' hrun
    have := msleep_waits horder hrun
    rw [msleepTimeout] at this
    omega

theorem msleep_waits_second : 1000 < 2 ^ 32 - 9 ∧ MsleepWaits 1000 :=
  ⟨by decide, (msleep_waits_iff 1000 (by decide)).2 (by decide)⟩

/-- The longest time that can be asked for is no time at all. -/
theorem msleep_longest : msleep (2 ^ 32 - 1) 0 [] = some 0 ∧ ¬MsleepWaits (2 ^ 32 - 1) := by
  have hrun : msleep (2 ^ 32 - 1) 0 [] = some 0 := by decide
  refine ⟨hrun, fun h => ?_⟩
  have := h 0 (by decide) [] trivial 0 hrun
  omega

/-! ## `nanosleep` -/

/-- A round of the loop of `sys_nanosleep`: the wait, and how often the timer interrupt has come when
the tick is read after it. -/
structure SleepRound where
  wait : Wait
  now : Nat
  deriving DecidableEq, Repr

/-- The rounds come one after the other, the first of them not before `now`. -/
def RoundsInOrder : Nat → List SleepRound → Prop
  | _, [] => True
  | now, d :: rest =>
      now ≤ d.wait.before ∧ d.wait.before ≤ d.wait.after ∧ d.wait.after ≤ d.now ∧
        RoundsInOrder d.now rest

/-- What is left until `end_tick`, an `int`. -/
def ticksLeft (endTick : Int) (now : Nat) : Int := (endTick - getTick now).bmod (2 ^ 32)

/-- `end_tick`. -/
def endTickOf (timeout : Int) (start : Nat) : Int := (timeout + getTick start).bmod (2 ^ 32)

/-- When the loop of `sys_nanosleep` is left, `none` while the task still waits. -/
def nanosleepEnd (endTick : Int) : List SleepRound → Int → Int → Nat → Option Nat
  | rounds, ret, timeout, now =>
      if ret ≠ 0 ∧ 0 < timeout then
        match rounds with
        | [] => none
        | d :: rest =>
            nanosleepEnd endTick rest (d.wait.call timeout.toNat).result (ticksLeft endTick d.now) d.now
      else some now

/-- `nanosleep` of the user's library: the result, and how often the timer interrupt has come when it
returns. -/
def nanosleep (tvSec tvNsec : Int) (start : Nat) (rounds : List SleepRound) : Option (Int × Nat) :=
  if tvSec < 0 ∨ tvNsec < 0 ∨ 1000000000 ≤ tvNsec then some (-1, start)
  else
    let timeout := Lib.toInt (timespecToJiffies tvSec tvNsec)
    if timeout ≤ 0 then some (-1, start)
    else (nanosleepEnd (endTickOf timeout start) rounds (-1) timeout start).map fun end' => (0, end')

/-- The ticks that a time takes, without any overflow. -/
def sleepTicks (tvSec tvNsec : Int) : Int := tvSec * 100 + (tvNsec + 9999999) / 10000000

/-- `timespec_to_jiffies` keeps the low 32 bits. -/
theorem timespecToJiffies_eq {tvSec tvNsec : Int} (hnsec : 0 ≤ tvNsec) (hlt : tvNsec < 1000000000) :
    (timespecToJiffies tvSec tvNsec : Int) = sleepTicks tvSec tvNsec % 2 ^ 32 := by
  have hsec : toLong (tvSec * 100) % 2 ^ 32 = tvSec * 100 % 2 ^ 32 := by
    rw [toLong, Int.bmod_def]
    split_ifs <;> omega
  have hround : toLong ((tvNsec + 10 * 1000000 - 1) * 100) = (tvNsec + 9999999) * 100 := by
    rw [toLong, Int.bmod_def]
    split_ifs <;> omega
  have hdiv : ((tvNsec + 9999999) * 100).tdiv 1000000000 = (tvNsec + 9999999) / 10000000 := by
    rw [Int.tdiv_eq_ediv_of_nonneg (by omega)]
    omega
  rw [timespecToJiffies, hround, hdiv, sleepTicks]
  omega

/-- The timeout that is left before the end. -/
theorem ticksLeft_of_lt {timeout : Int} {start now : Nat} (htimeout : timeout < 2 ^ 31)
    (hle : start ≤ now) (hlt : (now : Int) < start + timeout) :
    ticksLeft (endTickOf timeout start) now = timeout - (now - start) := by
  simp only [ticksLeft, endTickOf, getTick, Int.bmod_def]
  split_ifs <;> omega

/-- The loop is not left before the end. -/
theorem le_of_left {timeout ret : Int} {start now : Nat} (htimeout : timeout < 2 ^ 31)
    (hle : start ≤ now) (hret : ret = 0 → start + timeout ≤ now)
    (hleft : ¬(ret ≠ 0 ∧ 0 < ticksLeft (endTickOf timeout start) now)) : start + timeout ≤ now := by
  by_contra hearly
  have hticks := ticksLeft_of_lt htimeout hle (Int.not_le.1 hearly)
  exact hleft ⟨fun hzero => hearly (hret hzero), by omega⟩

/-- A call of `schedule_timeout` that returns 0 returns when the end has been reached. -/
theorem le_of_call_zero {timeout : Int} {start now : Nat} {w : Wait} (htimeout : timeout < 2 ^ 31)
    (hle : start ≤ now) (hnow : now ≤ w.before) (hw : w.before ≤ w.after)
    (hzero : (w.call (ticksLeft (endTickOf timeout start) now).toNat).result = 0) :
    start + timeout ≤ w.after := by
  by_cases hlt : (now : Int) < start + timeout
  · rw [ticksLeft_of_lt htimeout hle hlt] at hzero
    have hkeep := (@scheduleTimeout_wait (timeout - (now - start)).toNat w (by omega) hw).2.2
    rw [hzero] at hkeep
    omega
  · omega

theorem nanosleepEnd_waits {timeout : Int} {start : Nat} (htimeout : timeout < 2 ^ 31)
    {rounds : List SleepRound} :
    ∀ {ret : Int} {now end' : Nat}, start ≤ now → RoundsInOrder now rounds →
      (ret = 0 → start + timeout ≤ now) →
      nanosleepEnd (endTickOf timeout start) rounds ret (ticksLeft (endTickOf timeout start) now) now =
        some end' →
      start + timeout ≤ end' := by
  induction rounds with
  | nil =>
      intro ret now end' hle _ hret h
      rw [nanosleepEnd] at h
      split_ifs at h with hleft
      obtain rfl := Option.some.inj h
      exact le_of_left htimeout hle hret hleft
  | cons d rounds ih =>
      intro ret now end' hle horder hret h
      obtain ⟨hbefore, hwait, hafter, horder⟩ := horder
      rw [nanosleepEnd] at h
      split_ifs at h with hleft
      · refine ih (by omega) horder (fun hzero => ?_) h
        have := le_of_call_zero htimeout hle hbefore hwait hzero
        omega
      · obtain rfl := Option.some.inj h
        exact le_of_left htimeout hle hret hleft

/-- No run of `nanosleep` ends too early: it has failed before any wait, or the time has passed. -/
def NanosleepWaits (tvSec tvNsec : Int) : Prop :=
  ∀ start rounds, RoundsInOrder start rounds → ∀ ret end',
    nanosleep tvSec tvNsec start rounds = some (ret, end') →
      (ret = -1 ∧ nanosleep tvSec tvNsec start [] = some (-1, start)) ∨
        (ret = 0 ∧ start + sleepTicks tvSec tvNsec ≤ end')

/-- `int timeout`: the low 32 bits, with a sign. -/
theorem toInt_jiffies {tvSec tvNsec : Int} (hnsec : 0 ≤ tvNsec) (hlt : tvNsec < 1000000000) :
    Lib.toInt (timespecToJiffies tvSec tvNsec) = (sleepTicks tvSec tvNsec).bmod (2 ^ 32) := by
  have hjiffies := @timespecToJiffies_eq tvSec tvNsec hnsec hlt
  have hleft := Int.bmod_def (timespecToJiffies tvSec tvNsec) (2 ^ 32)
  have hright := Int.bmod_def (sleepTicks tvSec tvNsec) (2 ^ 32)
  unfold Lib.toInt
  generalize (timespecToJiffies tvSec tvNsec : Int).bmod (2 ^ 32) = a at hleft ⊢
  generalize (sleepTicks tvSec tvNsec).bmod (2 ^ 32) = b at hright ⊢
  split_ifs at hleft hright <;> omega

/-- `nanosleep` for a valid time, in terms of the timeout. -/
theorem nanosleep_eq {tvSec tvNsec timeout : Int} (hsec : 0 ≤ tvSec) (hnsec : 0 ≤ tvNsec)
    (hlt : tvNsec < 1000000000) (htimeout : (sleepTicks tvSec tvNsec).bmod (2 ^ 32) = timeout)
    (start : Nat) (rounds : List SleepRound) :
    nanosleep tvSec tvNsec start rounds =
      if timeout ≤ 0 then some (-1, start)
      else (nanosleepEnd (endTickOf timeout start) rounds (-1) timeout start).map fun end' =>
        (0, end') := by
  rw [nanosleep, if_neg (by omega), toInt_jiffies hnsec hlt, htimeout]

/-- A round that ends with its timeout is the last one. -/
theorem nanosleepEnd_exact {timeout : Nat} (hpos : 0 < timeout) (hlt : timeout < 2 ^ 31) :
    nanosleepEnd (endTickOf timeout 0) [⟨⟨0, timeout⟩, timeout⟩] (-1) timeout 0 = some timeout := by
  have hzero : ((⟨0, timeout⟩ : Wait).call timeout).result = 0 := by
    simp only [Wait.call, scheduleTimeout, getTick, Int.bmod_def]
    split_ifs <;> omega
  rw [nanosleepEnd, if_pos ⟨by decide, by omega⟩]
  simp only [Int.toNat_natCast, hzero]
  rw [nanosleepEnd, if_neg fun h => h.1 rfl]

/-- `nanosleep` never returns too early unless the number of ticks exceeds 32 bits, and what is left
of it is a positive `int`. -/
theorem nanosleep_waits_iff {tvSec tvNsec : Int} (hsec : 0 ≤ tvSec) (hnsec : 0 ≤ tvNsec)
    (hlt : tvNsec < 1000000000) :
    NanosleepWaits tvSec tvNsec ↔
      sleepTicks tvSec tvNsec < 2 ^ 32 ∨ sleepTicks tvSec tvNsec % 2 ^ 32 = 0 ∨
        2 ^ 31 ≤ sleepTicks tvSec tvNsec % 2 ^ 32 := by
  have hticks : 0 ≤ sleepTicks tvSec tvNsec := by
    rw [sleepTicks]
    omega
  have hcall := @nanosleep_eq tvSec tvNsec _ hsec hnsec hlt rfl
  have hbmod := Int.bmod_def (sleepTicks tvSec tvNsec) (2 ^ 32)
  rw [NanosleepWaits]
  generalize sleepTicks tvSec tvNsec = R at hcall hticks hbmod ⊢
  generalize R.bmod (2 ^ 32) = timeout at hcall hbmod
  have htimeout : timeout < 2 ^ 31 := by
    split_ifs at hbmod <;> omega
  by_cases hpos : timeout ≤ 0
  · -- nothing to wait for
    refine iff_of_true (fun start rounds _ ret end' h => ?_) ?_
    · rw [hcall, if_pos hpos] at h ⊢
      exact Or.inl ⟨(Prod.mk.inj (Option.some.inj h)).1.symm, rfl⟩
    · split_ifs at hbmod <;> omega
  · have hmod : timeout = R % 2 ^ 32 := by
      split_ifs at hbmod <;> omega
    constructor
    · intro hwaits
      by_contra hbig
      -- the task is woken when the low 32 bits have passed
      obtain ⟨n, rfl⟩ := Int.eq_ofNat_of_zero_le (show 0 ≤ timeout by omega)
      have hrun := hwaits 0 [⟨⟨0, n⟩, n⟩] ⟨Nat.le_refl 0, Nat.zero_le n, Nat.le_refl n, trivial⟩ 0 n
        (by rw [hcall, if_neg hpos, nanosleepEnd_exact (by omega) (by omega)]; rfl)
      rcases hrun with ⟨hret, -⟩ | ⟨-, hend⟩
      · cases hret
      · omega
    · intro hsmall start rounds horder ret end' h
      rw [hcall, if_neg hpos] at h
      obtain ⟨e, hend, he⟩ := Option.map_eq_some_iff.1 h
      obtain ⟨rfl, rfl⟩ := Prod.mk.inj he
      have hstart : ticksLeft (endTickOf timeout start) start = timeout := by
        rw [ticksLeft_of_lt htimeout (Nat.le_refl start) (by omega)]
        omega
      have hnonzero : (-1 : Int) = 0 → start + timeout ≤ start := fun hret => absurd hret (by decide)
      have hle := nanosleepEnd_waits htimeout (Nat.le_refl start) horder hnonzero (by
        rw [hstart]
        exact hend)
      exact Or.inr ⟨rfl, by omega⟩

theorem nanosleep_waits_second : sleepTicks 1 1 = 101 ∧ NanosleepWaits 1 1 :=
  ⟨by decide, (nanosleep_waits_iff (by decide) (by decide) (by decide)).2
    (Or.inl (by decide))⟩

/-- More than a year is over after four ticks. -/
theorem nanosleep_year :
    nanosleep 42949673 0 0 [⟨⟨0, 4⟩, 4⟩] = some (0, 4) ∧ ¬NanosleepWaits 42949673 0 := by
  have hrun : nanosleep 42949673 0 0 [⟨⟨0, 4⟩, 4⟩] = some (0, 4) := by decide
  refine ⟨hrun, fun h => ?_⟩
  have horder : RoundsInOrder 0 [⟨⟨0, 4⟩, 4⟩] := ⟨by decide, by decide, by decide, trivial⟩
  rcases h 0 _ horder 0 4 hrun with ⟨hret, -⟩ | ⟨-, hend⟩
  · cases hret
  · revert hend
    decide

/-! ## The system call -/

/-- What `sys_nanosleep` sees of the rounds. -/
def roundTimeouts (endTick : Int) : Int → List SleepRound → List (Int × Nat)
  | _, [] => []
  | timeout, d :: rest =>
      ((d.wait.call timeout.toNat).result, getTick d.now) ::
        roundTimeouts endTick (ticksLeft endTick d.now) rest

theorem nanosleepLoop_rounds (endTick : Int) (rounds : List SleepRound) :
    ∀ (ret timeout : Int) (now : Nat),
      nanosleepLoop endTick (roundTimeouts endTick timeout rounds) ret timeout =
        (nanosleepEnd endTick rounds ret timeout now).isSome := by
  induction rounds with
  | nil =>
      intro ret timeout now
      rw [roundTimeouts, nanosleepLoop, nanosleepEnd]
      split_ifs <;> rfl
  | cons d rounds ih =>
      intro ret timeout now
      rw [roundTimeouts, nanosleepLoop, nanosleepEnd]
      split_ifs
      · exact ih _ _ d.now
      · rfl

theorem setResult_result (r : PtRegs) (x : Nat) : (r.setResult x).regs 0 = x := by
  simp only [PtRegs.setResult, Function.update_self]

/-- The system call returns as `nanosleep` does, for the time that the user's pointer leads to. -/
theorem sysNanosleep_rounds {mmu : Mmu} {env : SvcEnv} {r r' : PtRegs} {sec nsec start : Nat}
    {rounds : List SleepRound} {timeout : Int} (hsec : loadBytes mmu (r.regs 0) 8 = some sec)
    (hnsec : loadBytes mmu (add64 (r.regs 0) 8) 8 = some nsec) (hvalid : 0 ≤ toLong sec)
    (hlow : 0 ≤ toLong nsec) (hhigh : toLong nsec < 1000000000)
    (htimeout : Lib.toInt (timespecToJiffies (toLong sec) (toLong nsec)) = timeout)
    (htick : env.tick = getTick start)
    (htimeouts : env.timeouts = roundTimeouts (endTickOf timeout start) timeout rounds)
    (h : (sysNanosleep mmu env r).outcome = .returned r') :
    ∃ ret end', nanosleep (toLong sec) (toLong nsec) start rounds = some (ret, end') ∧
      (ret = 0 ∧ r'.regs 0 = 0 ∨ ret = -1 ∧ r'.regs 0 = minusOne) := by
  have hreq : nanosleepTimeout mmu (r.regs 0) = some timeout := by
    rw [nanosleepTimeout, hsec, hnsec]
    exact congrArg some htimeout
  rw [nanosleep, if_neg (by omega), htimeout]
  simp only [sysNanosleep, hreq] at h
  by_cases hpos : timeout ≤ 0
  · rw [if_pos hpos] at h ⊢
    obtain rfl := SvcOutcome.returned.inj h
    exact ⟨-1, start, rfl, Or.inr ⟨rfl, setResult_result r minusOne⟩⟩
  · rw [if_neg hpos] at h ⊢
    -- the loop of the call ends when that of `nanosleep` does
    have hdone : nanosleepDone env timeout =
        (nanosleepEnd (endTickOf timeout start) rounds (-1) timeout start).isSome := by
      rw [nanosleepDone, htick, htimeouts]
      exact nanosleepLoop_rounds _ rounds (-1) timeout start
    rw [hdone] at h
    cases hend : nanosleepEnd (endTickOf timeout start) rounds (-1) timeout start with
    | none =>
        rw [hend] at h
        cases h
    | some end' =>
        rw [hend] at h
        refine ⟨0, end', rfl, Or.inl ⟨rfl, ?_⟩⟩
        simp only [Option.isSome_some, if_true] at h
        split_ifs at h with hok
        obtain rfl := SvcOutcome.returned.inj h
        exact setResult_result r 0

end Kernel
end ToutOS
