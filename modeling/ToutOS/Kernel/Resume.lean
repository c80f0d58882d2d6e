import ToutOS.Kernel.Swapper

/-!
# Resume — what a thread goes on with

A thread that is interrupted, switched away from, forked or started goes on later, after any number of
steps of all CPUs.

* `threadsRun_leave` — a return from an exception gives the thread all its registers back, whatever
  exceptions it has taken in between and wherever it has been switched to and from;
* `threadsRun_switch` — a thread that is switched to has the registers with which it was left;
* `threadsRun_fork` — the child of a `sys_fork` gets to user mode with the registers of its parent and
  zero in `x0`;
* `threadsRun_start` — a new kernel thread calls its function with its argument;
* `threadsRun_current` — `get_current_proc` finds the thread that the CPU runs.
-/

namespace ToutOS
namespace Kernel

open Base

variable {T : Type} [DecidableEq T] [Fintype T] {N : Nat} {pl : Placement T} {L : Labels} {st : Starts}
  {s s' : Cores T N} {c : Fin N} {t : T}

/-! ## A thread that does not run -/

/-- The thread is not switched to, and its slot is not cleared. -/
def Undisturbed (t : T) : ThreadsAction T N → Prop
  | .switchTo _ u => u ≠ t
  | .clear u => u ≠ t
  | _ => True

/-- What an action does to the history of thread `t`. -/
inductive HistoryStep (s : Cores T N) (t : T) : ThreadsAction T N → ThreadHistory → Prop where
  | same (a : ThreadsAction T N) : HistoryStep s t a (s.history t)
  | except {c : Fin N} (v : Ventry) (vector : Word) (p : Pending) (hc : s.current c = t) :
      HistoryStep s t (.except c v vector)
        { s.history t with pending := p :: (s.history t).pending }
  | leave {c : Fin N} {p : Pending} {ps : List Pending} (hc : s.current c = t)
      (hp : (s.history t).pending = p :: ps) :
      HistoryStep s t (.leave c) { s.history t with pending := ps }
  | left {c : Fin N} (next : T) (hc : s.current c = t) (k : CpuContext) :
      HistoryStep s t (.switchTo c next) { s.history t with away := some k }
  | entered (c : Fin N) : HistoryStep s t (.switchTo c t) { s.history t with away := none }
  | setReg {c : Fin N} (k : Fin 31) (v : Word) {p : Pending} {ps : List Pending} (hc : s.current c = t)
      (hp : (s.history t).pending = p :: ps) :
      HistoryStep s t (.setReg c k v) { s.history t with pending := p.setReg k v :: ps }
  | forked {c : Fin N} (child : T) (pid : Word) (p : Pending) (hc : s.current c = t) :
      HistoryStep s t (.fork c child pid) { s.history t with pending := [p] }
  | made (a : ThreadsAction T N) (h : ThreadHistory) (hfresh : s.fresh t) : HistoryStep s t a h
  | callFunc {c : Fin N} (hc : s.current c = t) :
      HistoryStep s t (.callFunc c) { s.history t with starting := none }
  | clear : HistoryStep s t (.clear t) {}

omit [Fintype T] in
/-- The history after code has run on one CPU. -/
theorem next_history (s : Cores T N) (c : Fin N) (m : Arm) (h : ThreadHistory) (t : T) :
    (s.next c m h).history t = if t = s.current c then h else s.history t := by
  simp only [Cores.next, Function.update_apply]

theorem threadsStep_history {a : ThreadsAction T N} (ha : threadsStep pl L st s a = some s') (t : T) :
    HistoryStep s t a (s'.history t) := by
  cases threadsStep_move pl ha with
  | except c v vector =>
      rw [next_history]
      split_ifs with ht
      · subst ht
        exact .except v vector _ rfl
      · exact .same _
  | leave c p ps hpending =>
      rw [next_history]
      split_ifs with ht
      · subst ht
        exact .leave rfl hpending
      · exact .same _
  | switchTo c next =>
      simp only [Function.update_apply]
      -- the thread that is switched to, the one that is left, and the others
      split_ifs with ht
      · subst ht
        exact .entered c
      · rw [next_history]
        split_ifs with ht'
        · subst ht'
          exact .left next rfl _
        · exact .same _
  | compute c r => exact .same _
  | store y b => exact .same _
  | setReg c k v p ps hpending =>
      rw [next_history]
      split_ifs with ht
      · subst ht
        exact .setReg k v rfl hpending
      · exact .same _
  | fork c child pid p hpending hkernel hsync hfresh =>
      simp only [Function.update_apply]
      split_ifs with ht ht'
      · subst ht
        exact .made _ _ hfresh
      · subst ht'
        exact .forked child pid _ rfl
      · exact .same _
  | kernelThread u fn args hfresh =>
      simp only [Function.update_apply]
      split_ifs with ht
      · subst ht
        exact .made _ _ hfresh
      · exact .same _
  | callFunc c =>
      rw [next_history]
      split_ifs with ht
      · subst ht
        exact .callFunc rfl
      · exact .same _
  | clear u =>
      simp only [Function.update_apply]
      split_ifs with ht
      · subst ht
        exact .clear
      · exact .same _

/-- What is saved for a thread that does not run stays as it is. -/
theorem ThreadsInv.history_kept (hi : ThreadsInv pl s) {a : ThreadsAction T N}
    (haway : (s.history t).away.isSome = true) (hu : Undisturbed t a)
    (ha : threadsStep pl L st s a = some s') : s'.history t = s.history t := by
  have hidle : ∀ d, s.current d ≠ t := hi.not_current haway
  have hstep := threadsStep_history ha t
  generalize s'.history t = h at hstep ⊢
  cases hstep with
  | same => rfl
  | except v vector p hc => exact absurd hc (hidle _)
  | leave hc hp => exact absurd hc (hidle _)
  | left next hc k => exact absurd hc (hidle _)
  | entered c => exact absurd rfl hu
  | setReg k v hc hp => exact absurd hc (hidle _)
  | forked child pid p hc => exact absurd hc (hidle _)
  | made _ _ hfresh =>
      rw [hfresh.2.1] at haway
      cases haway
  | callFunc hc => exact absurd hc (hidle _)
  | clear => exact absurd rfl hu

/-- The same over a run. -/
theorem ThreadsInv.history_kept_run {as : List (ThreadsAction T N)} (hi : ThreadsInv pl s)
    (haway : (s.history t).away.isSome = true)
    (hu : Along (threadsStep pl L st) (fun _ => Undisturbed t) s as)
    (hrun : runFrom (threadsStep pl L st) s as = some s') :
    ThreadsInv pl s' ∧ s'.history t = s.history t := by
  refine runFrom_invariant_along (I := fun s' => ThreadsInv pl s' ∧ s'.history t = s.history t)
    (fun s₁ a s₂ h₁ hP ha => ?_) ⟨hi, rfl⟩ hu hrun
  obtain ⟨hi₁, hhistory⟩ := h₁
  have haway₁ : (s₁.history t).away.isSome = true := by rw [hhistory]; exact haway
  exact ⟨hi₁.step ha, (hi₁.history_kept haway₁ hP ha).trans hhistory⟩

/-- CPU `c` has switched to `t`, which was left with the context `k`. -/
structure SwitchedTo (s s' : Cores T N) (c : Fin N) (t : T) (k : CpuContext) : Prop where
  context : contextOf (s'.cpu c) = k
  pc : (s'.cpu c).pc.toNat = k.pc
  current : s'.current c = t
  history : s'.history t = { s.history t with away := none }

omit [Fintype T] in
theorem contextOf_sp (r : ArmRegs) : (contextOf r).sp = r.sp.toNat := rfl

theorem ThreadsInv.switched {k : CpuContext} (hi : ThreadsInv pl s) (haway : (s.history t).away = some k)
    (ha : threadsStep pl L st s (.switchTo c t) = some s') : SwitchedTo s s' c t k := by
  cases threadsStep_move pl ha with
  | switchTo _ _ _ hne _ h₀ h₁ =>
      have hspec := cpuSwitchTo_threads hne h₀ h₁
      have hcontext : contextOf (run cpuSwitchTo (s.arm c)).toArmRegs = k := by
        rw [hspec.context]
        exact ((hi.threads t).context k haway).1
      refine ⟨?_, ?_, ?_, ?_⟩
      · simp only [Cores.next, Function.update_self]
        exact hcontext
      · simp only [Cores.next, Function.update_self, hspec.pc, ← hcontext]
        rfl
      · simp only [Function.update_self]
      · simp only [Function.update_self]

/-- A thread that has been left is switched to, after a run that has not disturbed it. -/
theorem ThreadsInv.switched_run {s₁ s₂ : Cores T N} {as : List (ThreadsAction T N)} {k : CpuContext}
    (hi : ThreadsInv pl s) (haway : (s.history t).away = some k)
    (hu : Along (threadsStep pl L st) (fun _ => Undisturbed t) s as)
    (hrun : runFrom (threadsStep pl L st) s as = some s₁)
    (hswitch : threadsStep pl L st s₁ (.switchTo c t) = some s₂) :
    ThreadsInv pl s₂ ∧ SwitchedTo s s₂ c t k := by
  obtain ⟨hi₁, hhistory⟩ := hi.history_kept_run (by rw [haway]; rfl) hu hrun
  have hswitched := hi₁.switched (by rw [hhistory, haway]) hswitch
  refine ⟨hi₁.step hswitch, hswitched.context, hswitched.pc, hswitched.current, ?_⟩
  rw [hswitched.history, hhistory]

/-- The child of a `sys_fork` is in the exception of its parent; its context has the place where it
begins, and its frame as the stack pointer. -/
theorem ThreadsInv.forked {child : T} {pid : Word} {p : Pending} (hi : ThreadsInv pl s)
    (hpending : (s.history (s.current c)).pending = [p])
    (hfork : threadsStep pl L st s (.fork c child pid) = some s') :
    ∃ k, s'.history child = { pending := [childPending pl child p], away := some k } ∧
      k.pc = st.childReturnsFromFork.toNat ∧ k.sp = (childPending pl child p).frame ∧
      p.ventry = .el0Sync ∧ p.regs.user = true := by
  cases threadsStep_move pl hfork with
  | fork _ _ _ q hq hkernel hsync hfresh =>
      obtain rfl : p = q := (List.cons.inj (hpending.symm.trans hq)).1
      have hok := hi.threads (s.current c)
      have hp : p ∈ (s.history (s.current c)).pending := by rw [hpending]; exact List.mem_cons_self
      obtain ⟨hlo, -, hhi⟩ := hok.frames.mem hp
      have htop := stackTop_le pl (s.current c) (s.history (s.current c))
      have hmem := forkMem_spec st s.mem (hfresh.1 c) pid hlo (by omega)
      have hle := pl.stack_le child
      have hmod := Nat.mod_lt p.frame (show 0 < kernelStackSize by decide)
      generalize forkMem pl st s.mem (s.current c) child p.frame pid = m' at hmem ⊢
      refine ⟨contextAt m' (pl.record child), Function.update_self .., ?_, ?_, hsync,
        (hok.saved p hp).2.1 (by rw [hsync]; rfl)⟩
      · rw [← hmem.pc]
        rfl
      · change (loadWord m' (contextWord pl child 11)).toNat = pl.stack child + p.frame % kernelStackSize
        rw [hmem.sp, BitVec.toNat_ofNat, Nat.mod_eq_of_lt (by omega)]

/-- The child of a `sys_fork` begins at `child_returns_from_fork`.  It leaves the kernel as its parent
would have done when it made the call, with zero in `x0`. -/
theorem threadsRun_fork {s₀ s₁ s₂ s₃ : Cores T N} {as bs : List (ThreadsAction T N)} {d : Fin N}
    {child : T} {pid : Word} {p : Pending} (hb : ThreadsBoot pl s₀)
    (hs : runFrom (threadsStep pl L st) s₀ as = some s)
    (hpending : (s.history (s.current c)).pending = [p])
    (hfork : threadsStep pl L st s (.fork c child pid) = some s₁)
    (hu : Along (threadsStep pl L st) (fun _ => Undisturbed child) s₁ bs)
    (hrun : runFrom (threadsStep pl L st) s₁ bs = some s₂)
    (hswitch : threadsStep pl L st s₂ (.switchTo d child) = some s₃) :
    (s₃.cpu d).pc = st.childReturnsFromFork ∧
      let m := run childReturnsFromFork (s₃.arm d)
      m.x = Function.update p.regs.x 0 0 ∧ m.sys .spEl0 = p.regs.sys .spEl0 ∧ m.pc = p.regs.pc ∧
        m.pstate = p.regs.pstate ∧ m.user = true := by
  have hi := threadsRun_inv hb hs
  obtain ⟨k, hchild, hpc, hframe, hsync, huser⟩ := hi.forked hpending hfork
  -- the child waits for its first turn
  obtain ⟨hi₃, hswitched⟩ := (hi.step hfork).switched_run (by rw [hchild]) hu hrun hswitch
  have hpend₃ : (s₃.history (s₃.current d)).pending = [childPending pl child p] := by
    rw [hswitched.current, hswitched.history, hchild]
  have hsp : (s₃.cpu d).sp.toNat = (childPending pl child p).frame := by
    rw [← contextOf_sp, hswitched.context, hframe]
  have hleave := hi₃.leave_eq hpend₃ hsp
  have hcode : (childPending pl child p).ventry.leave = childReturnsFromFork := by
    rw [show (childPending pl child p).ventry = p.ventry from rfl, hsync]
    rfl
  rw [hcode] at hleave
  refine ⟨BitVec.eq_of_toNat_eq (hswitched.pc.trans hpc), ?_⟩
  rw [hleave]
  refine ⟨rfl, ?_, rfl, rfl, huser⟩
  simp [Arm.setRegs, leaveRegs, exitSys, Ventry.el, Pending.saved, childPending, hsync]

/-- The registers of a user program. -/
def sampleUserRegs : ArmRegs where
  x k := BitVec.ofNat 64 (2000 + k)
  sp := BitVec.ofNat 64 (sampleSwapperImage.stackOf sampleTask + kernelStackSize)
  sys _ := 0x20800000
  pc := 0x8048000
  pstate := 0

/-- The thread goes to user mode and makes a system call. -/
def sampleSvc : List (ThreadsAction (KernelThread 2) 2) :=
  sampleFirst ++ [.callFunc 0, .compute 0 sampleUserRegs, .except 0 .el0Sync 0xFFFF000040010400]

/-- The thread forks, and the other CPU switches to the child. -/
theorem sampleFork_child : ∃ (s₃ : Cores (KernelThread 2) 2) (p : Pending),
    runFrom sampleStep sampleCores (sampleSvc ++ [.fork 0 sampleChildThread 2,
        .compute 1 (sampleCall (.inr 1) sampleChildThread 64), .switchTo 1 sampleChildThread]) = some s₃ ∧
    let m := run childReturnsFromFork (s₃.arm 1)
    m.x = Function.update p.regs.x 0 0 ∧ m.sys .spEl0 = p.regs.sys .spEl0 ∧ m.pc = p.regs.pc ∧
      m.pstate = p.regs.pstate ∧ m.user = true := by
  have hall : (runFrom sampleStep sampleCores (sampleSvc ++ (.fork 0 sampleChildThread 2 ::
      ([.compute 1 (sampleCall (.inr 1) sampleChildThread 64)] ++ [.switchTo 1 sampleChildThread])))).isSome =
      true := by
    decide +kernel
  obtain ⟨s₃, hrun⟩ := Option.isSome_iff_exists.1 hall
  obtain ⟨s, h₀, hrest⟩ := runFrom_append.1 hrun
  obtain ⟨s₁, h₁, hlast⟩ := runFrom_cons.1 hrest
  obtain ⟨s₂, h₂, hswitch⟩ := runFrom_append.1 hlast
  obtain ⟨s₃', h₃, hnil⟩ := runFrom_cons.1 hswitch
  cases hnil
  obtain ⟨p, hp⟩ := List.length_eq_one_iff.1 (sample_end h₀
    (P := fun s => (s.history (s.current 0)).pending.length = 1) (by decide +kernel))
  exact ⟨s₃, p, hrun, (threadsRun_fork sampleCores_boot h₀ hp h₁ (along_of_forall fun a ha _ => by
    cases List.mem_singleton.1 ha
    trivial) h₂ h₃).2⟩

/-- The context of a thread that `kernel_thread` has made has the place where the thread begins, and a
stack with its function and argument only. -/
theorem made_history {fn args : Word} (hmade : threadsStep pl L st s (.kernelThread t fn args) = some s') :
    ∃ k, s'.history t = { away := some k, starting := some (fn, args) } ∧
      k.pc = st.callThreadFunc.toNat ∧ k.sp = pl.stack t + kernelStackSize - 16 := by
  cases threadsStep_move pl hmade with
  | kernelThread _ _ _ hfresh =>
      have hmem := @kernelThreadMem_spec T pl st s.mem t fn args
      have hstack := pl.stack_le t
      generalize kernelThreadMem pl st s.mem t fn args = m' at hmem ⊢
      refine ⟨contextAt m' (pl.record t), Function.update_self .., ?_, ?_⟩
      · rw [← hmem.pc]
        rfl
      · change (loadWord m' (contextWord pl t 11)).toNat = _
        rw [hmem.sp, BitVec.toNat_ofNat, Nat.mod_eq_of_lt (by omega)]

/-- A thread that `kernel_thread` has made begins at `call_thread_func`, and calls its function with its
argument and an empty stack. -/
theorem threadsRun_start {s₀ s₁ s₂ s₃ : Cores T N} {as bs : List (ThreadsAction T N)} {fn args : Word}
    (hb : ThreadsBoot pl s₀) (hs : runFrom (threadsStep pl L st) s₀ as = some s)
    (hmade : threadsStep pl L st s (.kernelThread t fn args) = some s₁)
    (hu : Along (threadsStep pl L st) (fun _ => Undisturbed t) s₁ bs)
    (hrun : runFrom (threadsStep pl L st) s₁ bs = some s₂)
    (hswitch : threadsStep pl L st s₂ (.switchTo c t) = some s₃) :
    (s₃.cpu c).pc = st.callThreadFunc ∧
      let m := run callThreadFunc (s₃.arm c)
      m.pc = fn ∧ m.x 0 = args ∧ m.sp.toNat = pl.stack t + kernelStackSize := by
  have hi := threadsRun_inv hb hs
  obtain ⟨k, hthread, hpc₀, hsp₀⟩ := made_history hmade
  obtain ⟨hi₃, hswitched⟩ := (hi.step hmade).switched_run (by rw [hthread]) hu hrun hswitch
  have hstack := pl.stack_le t
  have hsize : 24 ≤ kernelStackSize := by decide
  have hsp : (s₃.cpu c).sp.toNat = pl.stack t + kernelStackSize - 16 := by
    rw [← contextOf_sp, hswitched.context, hsp₀]
  have hstarting : (s₃.history t).starting = some (fn, args) := by
    rw [hswitched.history, hthread]
  -- the function and its argument are still at the top of the stack
  obtain ⟨hfn, hargs⟩ := (hi₃.threads t).start fn args hstarting
  obtain ⟨hx, hpc, hnew, -, -⟩ := callThreadFunc_spec (s₃.arm c)
  refine ⟨BitVec.eq_of_toNat_eq (hswitched.pc.trans hpc₀), ?_, ?_, ?_⟩
  · rw [hpc, ← hfn]
    change loadWord s₃.mem ((s₃.cpu c).sp.toNat + 8) = _
    rw [hsp]
    exact congrArg (loadWord s₃.mem) (by omega)
  · rw [hx, ← hargs]
    change loadWord s₃.mem (s₃.cpu c).sp.toNat = _
    rw [hsp]
  · rw [hnew]
    change ((s₃.cpu c).sp + BitVec.ofNat 64 16).toNat = _
    rw [bump_toNat, hsp]
    · omega
    · omega

theorem sampleFirst_started : ∃ s₃, runFrom sampleStep sampleCores sampleFirst = some s₃ ∧
    (s₃.cpu 0).pc = sampleStarts.callThreadFunc ∧
    let m := run callThreadFunc (s₃.arm 0)
    m.pc = 0xFFFF000040013000 ∧ m.x 0 = 5 ∧
      m.sp.toNat = sampleSwapperImage.placement.stack sampleTask + kernelStackSize := by
  have hall : (runFrom sampleStep sampleCores sampleFirst).isSome = true := by decide +kernel
  obtain ⟨s₃, hrun⟩ := Option.isSome_iff_exists.1 hall
  obtain ⟨s₁, h₁, hrest⟩ := runFrom_cons.1 hrun
  obtain ⟨s₂, h₂, hlast⟩ := (@runFrom_append _ _ _ _ _ [_] [_]).1 hrest
  obtain ⟨s₃', h₃, hnil⟩ := runFrom_cons.1 hlast
  cases hnil
  exact ⟨s₃, hrun, threadsRun_start sampleCores_boot (runFrom_nil _ _) h₁ (along_of_forall fun a ha _ => by
    cases List.mem_singleton.1 ha
    trivial) h₂ h₃⟩

/-! ## Exceptions -/

/-- The action does not return from the exception of thread `t` that has `n` older ones, and sets none
of the registers saved for it. -/
def KeepsException (t : T) (n : Nat) (s : Cores T N) : ThreadsAction T N → Prop
  | .leave c => s.current c = t → n + 1 < (s.history t).pending.length
  | .setReg c _ _ => s.current c = t → n + 1 < (s.history t).pending.length
  | .fork c _ _ => s.current c ≠ t
  | .clear u => u ≠ t
  | _ => True

instance (t : T) (n : Nat) (s : Cores T N) : (a : ThreadsAction T N) → Decidable (KeepsException t n s a)
  | .leave _ => inferInstanceAs (Decidable (_ → _))
  | .setReg _ _ _ => inferInstanceAs (Decidable (_ → _))
  | .fork _ _ _ => inferInstanceAs (Decidable (_ ≠ _))
  | .clear _ => inferInstanceAs (Decidable (_ ≠ _))
  | .except _ _ _ => inferInstanceAs (Decidable True)
  | .switchTo _ _ => inferInstanceAs (Decidable True)
  | .compute _ _ => inferInstanceAs (Decidable True)
  | .store _ _ => inferInstanceAs (Decidable True)
  | .kernelThread _ _ _ => inferInstanceAs (Decidable True)
  | .callFunc _ => inferInstanceAs (Decidable True)

/-- An exception stays where it is below newer ones. -/
theorem pending_kept {a : ThreadsAction T N} {p : Pending} {qs ps : List Pending}
    (hpending : (s.history t).pending = qs ++ p :: ps) (hk : KeepsException t ps.length s a)
    (ha : threadsStep pl L st s a = some s') : ∃ qs', (s'.history t).pending = qs' ++ p :: ps := by
  have hstep := threadsStep_history ha t
  -- a change of the newest exception is not one of this one
  have hnewer : ∀ q rs, (s.history t).pending = q :: rs → ps.length + 1 < (s.history t).pending.length →
      ∃ qs', rs = qs' ++ p :: ps := by
    intro q rs hq hlt
    rw [hpending] at hq hlt
    cases qs with
    | nil => simp at hlt
    | cons q' qs' => exact ⟨qs', (List.cons.inj hq).2.symm⟩
  generalize s'.history t = h at hstep ⊢
  cases hstep with
  | same => exact ⟨qs, hpending⟩
  | except v vector q hc => exact ⟨q :: qs, by rw [hpending]; rfl⟩
  | leave hc hq => exact hnewer _ _ hq (hk hc)
  | left next hc k => exact ⟨qs, hpending⟩
  | entered c => exact ⟨qs, hpending⟩
  | setReg k v hc hq =>
      obtain ⟨qs', hrs⟩ := hnewer _ _ hq (hk hc)
      exact ⟨_ :: qs', by rw [hrs]; rfl⟩
  | forked child pid q hc => exact absurd hc hk
  | made _ _ hfresh =>
      have hempty := hfresh.2.2.1
      simp [hpending] at hempty
  | callFunc hc => exact ⟨qs, hpending⟩
  | clear => exact absurd rfl hk

/-- The registers with which a thread goes on after an exception: all of those that it had, but for
`ELR_EL1` and `SPSR_EL1`, and for `SP_EL0` where the exception comes from the kernel. -/
structure Resumed (v : Ventry) (r r' : ArmRegs) : Prop where
  x : r'.x = r.x
  sp : r'.sp = r.sp
  pc : r'.pc = r.pc
  pstate : r'.pstate = r.pstate
  spEl0 : v.el = 0 → r'.sys .spEl0 = r.sys .spEl0

/-- A return from an exception gives the thread all its registers back: whatever exceptions it has taken
and returned from in between, whatever threads have run, and on whichever CPU it goes on. -/
theorem threadsRun_leave {s₀ s₁ s₂ s₃ : Cores T N} {as bs : List (ThreadsAction T N)} {d : Fin N}
    {v : Ventry} {vector : Word} (hb : ThreadsBoot pl s₀)
    (hs : runFrom (threadsStep pl L st) s₀ as = some s)
    (htaken : threadsStep pl L st s (.except c v vector) = some s₁)
    (hk : Along (threadsStep pl L st)
      (KeepsException (s.current c) (s.history (s.current c)).pending.length) s₁ bs)
    (hrun : runFrom (threadsStep pl L st) s₁ bs = some s₂) (hd : s₂.current d = s.current c)
    (hdepth : (s₂.history (s.current c)).pending.length =
      (s.history (s.current c)).pending.length + 1)
    (hleave : threadsStep pl L st s₂ (.leave d) = some s₃) :
    Resumed v (s.cpu c) (s₃.cpu d) := by
  have hi := threadsRun_inv hb hs
  have hi₁ := hi.step htaken
  generalize hps : (s.history (s.current c)).pending = ps at *
  generalize ht : s.current c = t at *
  have hpend₁ : (s₁.history t).pending =
      { frame := (s.cpu c).sp.toNat - sFrameSize, ventry := v, regs := s.cpu c } :: ps := by
    cases threadsStep_move pl htaken with
    | except => rw [next_history, if_pos ht.symm, ht, hps]
  generalize hp : ({ frame := (s.cpu c).sp.toNat - sFrameSize, ventry := v, regs := s.cpu c } : Pending) = p
    at hpend₁
  -- the exception is still there, and it is the newest one
  have hkept : ThreadsInv pl s₂ ∧ ∃ qs, (s₂.history t).pending = qs ++ p :: ps := by
    refine runFrom_invariant_along
      (I := fun s' => ThreadsInv pl s' ∧ ∃ qs, (s'.history t).pending = qs ++ p :: ps) ?_
      ⟨hi₁, [], hpend₁⟩ hk hrun
    rintro _ _ _ ⟨hinv, _, hq⟩ hP ha
    exact ⟨hinv.step ha, pending_kept hq hP ha⟩
  obtain ⟨hi₂, qs, hpend₂⟩ := hkept
  have hqs : qs = [] := by
    rw [hpend₂, List.length_append, List.length_cons] at hdepth
    exact List.length_eq_zero_iff.1 (by omega)
  rw [hqs, List.nil_append, ← hd] at hpend₂
  cases threadsStep_move pl hleave with
  | leave _ q rs hq _ hnewest =>
      obtain rfl : p = q := (List.cons.inj (hpend₂.symm.trans hq)).1
      have hregs := hi₂.leave_eq hpend₂ hnewest
      simp only [Cores.next, Function.update_self, hregs]
      have hsp : p.regs.sp.toNat = p.frame + sFrameSize := by
        have hframes := (hi₂.threads (s₂.current d)).frames
        rw [hpend₂] at hframes
        exact hframes.2.2.1
      subst hp
      refine ⟨rfl, BitVec.eq_of_toNat_eq ?_, rfl, rfl, fun hel => ?_⟩
      · change ((s₂.cpu d).sp + BitVec.ofNat 64 sFrameSize).toNat = (s.cpu c).sp.toNat
        rw [bump_toNat, hnewest]
        · exact hsp.symm
        · rw [hnewest, ← hsp]
          exact (s.cpu c).sp.isLt
      · simp [Arm.setRegs, leaveRegs, exitSys, Pending.saved, hel]

/-- An interrupt of a swapper, and an exception of its handler. -/
def sampleInterrupt : List (ThreadsAction (KernelThread 2) 2) :=
  [.except 0 .el1Irq 0xFFFF000040010280, .except 0 .el1Sync 0xFFFF000040010200, .leave 0, .leave 0]

theorem sampleInterrupt_resumed : ∃ s₃, runFrom sampleStep sampleCores sampleInterrupt = some s₃ ∧
    Resumed .el1Irq (sampleCores.cpu 0) (s₃.cpu 0) := by
  have hall : (runFrom sampleStep sampleCores sampleInterrupt).isSome = true := by decide +kernel
  obtain ⟨s₃, hrun⟩ := Option.isSome_iff_exists.1 hall
  refine ⟨s₃, hrun, ?_⟩
  obtain ⟨s₁, h₁, hrest⟩ := runFrom_cons.1 hrun
  obtain ⟨s₂, h₂, hlast⟩ := (@runFrom_append _ _ _ _ _ [_, _] [_]).1 hrest
  obtain ⟨s₃', h₃, hnil⟩ := runFrom_cons.1 hlast
  cases hnil
  have hrun₂ : runFrom sampleStep sampleCores (sampleInterrupt.take 3) = some s₂ :=
    runFrom_cons.2 ⟨s₁, h₁, h₂⟩
  have hkeeps : Along sampleStep (KeepsException (.inr 0) 0) sampleCores (sampleInterrupt.take 3) := by
    decide +kernel
  exact threadsRun_leave sampleCores_boot (runFrom_nil _ _) h₁ (hkeeps.2 s₁ h₁) h₂
    (sample_end hrun₂ (P := fun s => s.current 0 = .inr 0) (by decide +kernel))
    (sample_end hrun₂ (P := fun s => (s.history (.inr 0)).pending.length = 1) (by decide +kernel)) h₃

/-! ## The running thread -/

/-- `get_current_proc`, executed with the stack pointer of a CPU, finds the thread that the CPU runs. -/
theorem threadsRun_current {s₀ : Cores T N} {as : List (ThreadsAction T N)} (hb : ThreadsBoot pl s₀)
    (hs : runFrom (threadsStep pl L st) s₀ as = some s) (c : Fin N)
    (hsp : (s.cpu c).sp.toNat < pl.stack (s.current c) + kernelStackSize) :
    getCurrentProc s.mem (s.cpu c).sp.toNat = pl.record (s.current c) := by
  have hi := threadsRun_inv hb hs
  have hlow := (hi.cpus c).low
  have hinfo := hi.info (s.current c) (.inr ⟨c, rfl⟩)
  have hrecord := pl.record_le (s.current c)
  have hbase : (s.cpu c).sp.toNat / kernelStackSize * kernelStackSize = pl.stack (s.current c) := by
    obtain ⟨n, hn⟩ := pl.stack_dvd (s.current c)
    simp only [kernelStackSize] at *
    omega
  have hsize : sizeofTaskStruct = 176 := rfl
  have hword := congrArg BitVec.toNat hinfo
  have hlt := load_lt s.mem (pl.stack (s.current c)) 8
  rw [loadWord, BitVec.toNat_ofNat, BitVec.toNat_ofNat, Nat.mod_eq_of_lt (by omega),
    Nat.mod_eq_of_lt (by omega)] at hword
  rw [getCurrentProc, hbase, hword]

/-- After the thread has been switched to, it is the current one. -/
theorem sampleFirst_current : ∃ s, runFrom sampleStep sampleCores sampleFirst = some s ∧
    getCurrentProc s.mem (s.cpu 0).sp.toNat = sampleSwapperImage.placement.record (s.current 0) := by
  have hall : (runFrom sampleStep sampleCores sampleFirst).isSome = true := by decide +kernel
  obtain ⟨s, hrun⟩ := Option.isSome_iff_exists.1 hall
  exact ⟨s, hrun, threadsRun_current sampleCores_boot hrun 0 (sample_end hrun
    (P := fun s => (s.cpu 0).sp.toNat < sampleSwapperImage.placement.stack (s.current 0) + kernelStackSize)
    (by decide +kernel))⟩

end Kernel
end ToutOS
