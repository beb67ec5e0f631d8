import EterOS.Lib.Run
import EterOS.Syscall.SignalAgree
/-!
# SignalKill — whether SIGKILL can be blocked, caught or lost

A run of the signal calls of any tasks.  No sender sets the bit of `SIGKILL` that delivery looks at (`NoKillBit`), so a
kill of another task never ends in signal 9; only a task that kills itself dies of it, inside `task_kill`.  And only
`sys_rt_sigreturn` can put `SIGKILL` or `SIGSTOP` into a mask (`MaskOk`).
-/
namespace EterOS.Syscall

/-! ## Runs of the signal calls -/

/-- A signal call of a task on its own fields, with what user memory and the access checks answer. -/
inductive OwnCall where
  | sigaction (sig : Int) (act : Option KernelSigaction) (wantOld : Bool) (sigsetsize : UInt64) (oldOk actOk : Bool)
  | sigprocmask (how : SigHow) (set : UInt64)
  | sigsuspend (mask : UInt64)
  | deliver (regs : SyscallRegs) (stackOk : UInt64 → Bool)
  | sigreturn (regs : SyscallRegs) (frame : Option SigFrame)

/-- One step of the system, by the task in slot `c` or by the terminal. -/
inductive SigStep where
  | own (c : Nat) (call : OwnCall)
  | poll (c : Nat)
  | kill (c : Nat) (pid sig : Int)
  | taskKill (c : Nat) (pid : UInt32)
  | tty (group : Nat → Bool) (sig : TtySignal)
  | fork (c slot : Nat) (id : UInt32)

def canCall (s : SigSystem) (c : Nat) : Prop := (s.tasks c).state ≠ .dead ∧ (s.tasks c).suspendMask = none

instance (s : SigSystem) (c : Nat) : Decidable (canCall s c) := inferInstanceAs (Decidable (_ ∧ _))

def ownStep (t : SigTask) : OwnCall → SigTask
  | .sigaction sig act wantOld size oldOk actOk =>
    match (sysRtSigaction t sig act wantOld size oldOk actOk).map (·.1) with
    | .ok t' => t'
    -- an access outside the arrays ends the run of the model: it is the subject of `SignalAgree`
    | .error _ => t
  | .sigprocmask how set => (sysRtSigprocmask t how set).1
  | .sigsuspend mask => sysRtSigsuspend t mask
  | .deliver regs stackOk =>
    match handleSignalIfNeeded t regs stackOk with
    | .ok d => d.task
    | .error _ => t
  | .sigreturn regs frame => (sysRtSigreturn t regs frame).1

def sigStep (s : SigSystem) : SigStep → SigSystem
  | .own c call => if canCall s c then s.set c (ownStep (s.tasks c) call) else s
  | .poll c => s.set c (sigsuspendPoll (s.tasks c))
  | .kill c pid sig => if canCall s c then (sysKill s c pid sig).1 else s
  | .taskKill c pid => if canCall s c then (taskKill s c pid).1 else s
  | .tty group sig => devSignalPgrp s group sig
  | .fork c slot id => if canCall s c then s.set slot (forkSignals (s.tasks c) id) else s

/-! ## The two invariants of one task -/

/-- The mask holds neither `SIGKILL` nor `SIGSTOP`. -/
def Clean (m : BitVec 32) : Prop := m &&& unblockable = 0

instance (m : BitVec 32) : Decidable (Clean m) := inferInstanceAs (Decidable (_ = _))

def MaskOk (t : SigTask) : Prop := Clean t.signalMask ∧ ∀ m ∈ t.suspendMask, Clean m

/-- The bit under which delivery would look for `SIGKILL` is not pending. -/
def NoKillBit (t : SigTask) : Prop := t.signalPending.getLsbD 8 = false

theorem clean_or {m n : BitVec 32} (hm : Clean m) (hn : Clean n) : Clean (m ||| n) := by
  unfold Clean at *
  rw [BitVec.and_or_distrib_right, hm, hn]
  rfl

theorem clean_and {m : BitVec 32} (hm : Clean m) (n : BitVec 32) : Clean (m &&& n) := by
  unfold Clean at *
  rw [BitVec.and_assoc, BitVec.and_comm n, ← BitVec.and_assoc, hm]
  exact BitVec.zero_and

theorem clean_filtered (m : BitVec 32) : Clean (m &&& ~~~unblockable) := by
  unfold Clean
  rw [BitVec.and_assoc, BitVec.not_and_self]
  exact BitVec.and_zero

variable {sig : Nat}

theorem sigBit_getLsbD_eight (h : sig ≠ SIGKILL) (h0 : 1 ≤ sig) : (sigBit sig).getLsbD 8 = false := by
  have hne : ¬ 8 = sig - 1 := by
    unfold SIGKILL at h
    omega
  simp [sigBit, hne]

variable {t : SigTask}

theorem noKillBit_or (ht : NoKillBit t) {b : BitVec 32} (hb : b.getLsbD 8 = false) :
    (t.signalPending ||| b).getLsbD 8 = false := by
  rw [BitVec.getLsbD_or, ht, hb]
  rfl

/-! ## What each call keeps -/

structure SameSignals (t t' : SigTask) : Prop where
  state : t'.state = t.state
  mask : t'.signalMask = t.signalMask
  suspend : t'.suspendMask = t.suspendMask
  pending : t'.signalPending = t.signalPending

variable {t' : SigTask}

theorem SameSignals.maskOk (h : SameSignals t t') (ht : MaskOk t) : MaskOk t' := by
  unfold MaskOk
  rw [h.mask, h.suspend]
  exact ht

theorem SameSignals.noKillBit (h : SameSignals t t') (ht : NoKillBit t) : NoKillBit t' := by
  unfold NoKillBit
  rw [h.pending]
  exact ht

variable {i : Nat} {a : SigAction}

theorem writeAction_same (h : writeAction t i a = .ok t') : SameSignals t t' := by
  unfold writeAction at h
  split at h
  · cases h
    exact ⟨rfl, rfl, rfl, rfl⟩
  · cases h

theorem sigaction_same {sig : Int} {act : Option KernelSigaction} {wantOld : Bool} {size : UInt64}
    {oldOk actOk : Bool} (h : (sysRtSigaction t sig act wantOld size oldOk actOk).map (·.1) = .ok t') :
    SameSignals t t' := by
  rw [sysRtSigaction_eq] at h
  have hrefl : SameSignals t t := ⟨rfl, rfl, rfl, rfl⟩
  split at h
  · cases hr : readAction t (sig.toNat - 1) <;> cases act <;> cases actOk <;> cases wantOld <;>
      simp only [hr, Except.map, bind, Except.bind, if_true, if_false, Bool.false_eq_true, reduceCtorEq,
        Except.ok.injEq] at h
    all_goals first
      | exact writeAction_same h
      | exact h ▸ hrefl
  · cases h
    exact hrefl

theorem sigprocmask_maskOk (ht : MaskOk t) (how : SigHow) (set : UInt64) : MaskOk (sysRtSigprocmask t how set).1 := by
  cases how with
  | other => exact ht
  | block | unblock | setmask => exact ⟨clean_filtered _, ht.2⟩

theorem sigprocmask_pending (t : SigTask) (how : SigHow) (set : UInt64) :
    (sysRtSigprocmask t how set).1.signalPending = t.signalPending := by
  cases how <;> rfl

theorem poll_maskOk (ht : MaskOk t) : MaskOk (sigsuspendPoll t) := by
  unfold sigsuspendPoll
  split
  · rename_i old ho
    split
    · exact ⟨ht.2 old ho, fun m hm => by cases hm⟩
    · exact ht
  · exact ht

theorem poll_pending (t : SigTask) : (sigsuspendPoll t).signalPending = t.signalPending := by
  unfold sigsuspendPoll
  split
  · split <;> rfl
  · rfl

theorem handlerMask_clean (ht : Clean t.signalMask) (sig : Nat) (a : SigAction) : Clean (handlerMask t sig a) := by
  unfold handlerMask
  split
  · exact clean_or ht (clean_filtered _)
  · exact clean_or (clean_and ht _) (clean_filtered _)

theorem setupSigcontext_maskOk (ht : MaskOk t) (regs : SyscallRegs) (sig : Nat) (a : SigAction)
    (stackOk : UInt64 → Bool) (seen : List (Nat × SigAction)) :
    MaskOk (setupSigcontext t regs sig a stackOk seen).task := by
  unfold setupSigcontext
  dsimp only
  split
  · exact ht
  · exact ⟨handlerMask_clean ht.1 sig a, ht.2⟩

theorem setupSigcontext_pending (t : SigTask) (regs : SyscallRegs) (sig : Nat) (a : SigAction)
    (stackOk : UInt64 → Bool) (seen : List (Nat × SigAction)) :
    (setupSigcontext t regs sig a stackOk seen).task.signalPending = t.signalPending := by
  unfold setupSigcontext
  dsimp only
  split <;> rfl

/-- A frame that cannot be written ends the task with the status of `task_exit`, not with a signal. -/
theorem setupSigcontext_status (ht : t.state ≠ .dead) (regs : SyscallRegs) (sig : Nat) (a : SigAction)
    (stackOk : UInt64 → Bool) (seen : List (Nat × SigAction)) :
    (setupSigcontext t regs sig a stackOk seen).task.state ≠ .dead ∨
      (setupSigcontext t regs sig a stackOk seen).task.waitStatus = SIGSEGV * 256 := by
  unfold setupSigcontext
  dsimp only
  split
  · exact .inr rfl
  · exact .inl ht

variable {regs : SyscallRegs} {stackOk : UInt64 → Bool} {seen : List (Nat × SigAction)} {d : Delivery}

theorem takeSignal_cases
   
    (h : takeSignal regs stackOk sig a seen t = some (.ok d)) :
    d.task = taskStopSignal t sig ∨ d.task = taskExitSignal t sig ∨
      ∃ t', SameSignals t t' ∧ d = setupSigcontext t' regs sig a stackOk seen := by
  unfold takeSignal at h
  split at h
  · cases h
  · split at h
    · split at h
      · cases h
      · split at h
        · cases h
          exact .inl rfl
        · cases h
          exact .inr (.inl rfl)
    · refine .inr (.inr ?_)
      split at h
      · -- `SA_RESETHAND` writes the entry before the frame is built
        cases hw : writeAction t sig ⟨SIG_DFL, 0, 0, 0⟩ with
        | error e =>
          rw [hw] at h
          cases h
        | ok t' =>
          rw [hw] at h
          cases h
          exact ⟨t', writeAction_same hw, rfl⟩
      · cases h
        exact ⟨t, ⟨rfl, rfl, rfl, rfl⟩, rfl⟩

theorem takeSignal_maskOk
    (ht : MaskOk t)
    (h : takeSignal regs stackOk sig a seen t = some (.ok d)) : MaskOk d.task := by
  obtain hd | hd | ⟨t', hs, rfl⟩ := takeSignal_cases h
  · rw [hd]
    exact ht
  · rw [hd]
    exact ht
  · exact setupSigcontext_maskOk (hs.maskOk ht) regs sig a stackOk seen

theorem takeSignal_noKillBit
    (ht : NoKillBit t)
    (h : takeSignal regs stackOk sig a seen t = some (.ok d)) : NoKillBit d.task := by
  obtain hd | hd | ⟨t', hs, rfl⟩ := takeSignal_cases h
  · rw [hd]
    exact ht
  · rw [hd]
    exact ht
  · unfold NoKillBit
    rw [setupSigcontext_pending]
    exact hs.noKillBit ht

/-- The task ended, with termination signal `sig`. -/
def TerminatedBy (t : SigTask) (sig : Nat) : Prop := t.state = .dead ∧ t.waitStatus = sig

instance (t : SigTask) (sig : Nat) : Decidable (TerminatedBy t sig) := inferInstanceAs (Decidable (_ ∧ _))

theorem takeSignal_not_killed
    (ht : t.state ≠ .dead) (hsig : sig < 32)
    (hne : sig ≠ SIGKILL) (h : takeSignal regs stackOk sig a seen t = some (.ok d)) :
    ¬ TerminatedBy d.task SIGKILL := by
  rintro ⟨hdead, hw⟩
  obtain hd | hd | ⟨t', hs, rfl⟩ := takeSignal_cases h
  · rw [hd] at hdead
    cases hdead
  · rw [hd] at hw
    have hw' : sig % 128 = SIGKILL := hw
    rw [Nat.mod_eq_of_lt (by omega)] at hw'
    exact hne hw'
  · obtain hl | hl := setupSigcontext_status (hs.state ▸ ht) regs sig a stackOk seen
    · exact hl hdead
    · rw [hw] at hl
      exact absurd hl (by decide)

/-! ## The delivery loop -/

theorem clearPending_noKillBit (ht : NoKillBit t) (sig : Nat) : NoKillBit (clearPending t sig) := by
  have ht' : t.signalPending.getLsbD 8 = false := ht
  show (t.signalPending &&& ~~~sigBit sig).getLsbD 8 = false
  rw [BitVec.getLsbD_and, ht', Bool.false_and]

theorem pending_ne_sigkill (ht : NoKillBit t) (h : t.signalPending &&& sigBit sig ≠ 0) : sig ≠ SIGKILL := by
  rintro rfl
  apply h
  have ht' : t.signalPending.getLsbD 8 = false := ht
  apply BitVec.eq_of_getLsbD_eq
  intro i hi
  have hb : (sigBit SIGKILL).getLsbD i = decide (8 = i) := by
    simp only [sigBit, SIGKILL, BitVec.getLsbD_twoPow]
    simp
  rw [BitVec.getLsbD_and, hb]
  by_cases h8 : 8 = i
  · subst h8
    rw [ht', Bool.false_and]
    rfl
  · simp [h8]

theorem handleLoop_keeps : ∀ (sigs : List Nat) (seen : List (Nat × SigAction)) (t : SigTask) (d : Delivery),
    (∀ sig ∈ sigs, sig < 32) →
      NoKillBit t → t.state ≠ .dead → handleLoop regs stackOk sigs seen t = .ok d →
      NoKillBit d.task ∧ (MaskOk t → MaskOk d.task) ∧ ¬ TerminatedBy d.task SIGKILL
  | [], seen, t, d, _, hk, hl, h => by
    cases h
    exact ⟨hk, id, fun hd => hl hd.1⟩
  | sig :: sigs, seen, t, d, hlt, hk, hl, h => by
    have htail : ∀ x ∈ sigs, x < 32 := fun x hx => hlt x (List.mem_cons_of_mem _ hx)
    rw [handleLoop] at h
    split at h
    · rename_i hp
      have hk' := clearPending_noKillBit hk sig
      split at h
      · cases h
      · rename_i a _
        split at h
        · rename_i r hr
          subst h
          refine ⟨takeSignal_noKillBit hk' hr, fun hm => takeSignal_maskOk (t := clearPending t sig) hm hr, ?_⟩
          exact takeSignal_not_killed (t := clearPending t sig) hl (hlt sig List.mem_cons_self)
            (pending_ne_sigkill hk hp.1) hr
        · exact handleLoop_keeps sigs _ (clearPending t sig) d htail hk' hl h
    · exact handleLoop_keeps sigs seen t d htail hk hl h

theorem handleSignal_keeps
    (hk : NoKillBit t) (hl : t.state ≠ .dead) (h : handleSignalIfNeeded t regs stackOk = .ok d) :
    NoKillBit d.task ∧ (MaskOk t → MaskOk d.task) ∧ ¬ TerminatedBy d.task SIGKILL := by
  unfold handleSignalIfNeeded at h
  split at h
  · cases h
    exact ⟨hk, id, fun hd => hl hd.1⟩
  · refine handleLoop_keeps _ [] t d (fun sig hs => ?_) hk hl h
    obtain ⟨_, hs⟩ := List.mem_range'_1.1 hs
    omega

/-! ## What a sender does to a task -/

/-- The masks are kept and the pending set only gains bits other than the one of `SIGKILL`. -/
structure Marked (t t' : SigTask) : Prop where
  mask : t'.signalMask = t.signalMask
  suspend : t'.suspendMask = t.suspendMask
  pending : ∃ b : BitVec 32, b.getLsbD 8 = false ∧ t'.signalPending = t.signalPending ||| b

theorem Marked.refl (t : SigTask) : Marked t t := ⟨rfl, rfl, 0, rfl, by simp⟩

theorem Marked.maskOk (h : Marked t t') (ht : MaskOk t) : MaskOk t' := by
  unfold MaskOk
  rw [h.mask, h.suspend]
  exact ht

theorem Marked.noKillBit (h : Marked t t') (ht : NoKillBit t) : NoKillBit t' := by
  obtain ⟨b, hb, hp⟩ := h.pending
  unfold NoKillBit
  rw [hp]
  exact noKillBit_or ht hb

theorem killMark_marked (t : SigTask) : Marked t (killMark t) := ⟨rfl, rfl, BitVec.twoPow 32 SIGKILL, by decide, rfl⟩

theorem signalMark_marked (t : SigTask) (h : sig ≠ SIGKILL) (h0 : 1 ≤ sig) : Marked t (signalMark t sig) :=
  ⟨rfl, rfl, sigBit sig, sigBit_getLsbD_eight h h0, rfl⟩

theorem contMark_marked (t : SigTask) (h : sig ≠ SIGKILL) (h0 : 1 ≤ sig) : Marked t (signalMark (contMark t sig) sig) := by
  unfold contMark
  split
  · exact ⟨rfl, rfl, sigBit sig, sigBit_getLsbD_eight h h0, rfl⟩
  · exact signalMark_marked t h h0

theorem taskKill_marked (s : SigSystem) (cur : Nat) (pid : UInt32) (i : Nat) :
    Marked (s.tasks i) ((taskKill s cur pid).1.tasks i) := by
  have hone : Marked (s.tasks i) (if killHits s pid i then killMark (s.tasks i) else s.tasks i) := by
    split
    · exact killMark_marked _
    · exact Marked.refl _
  unfold taskKill
  split
  · exact Marked.refl _
  · split
    · dsimp only
      split
      · simp only [SigSystem.set]
        by_cases hi : i = cur
        · subst hi
          rename_i hhit
          rw [if_pos rfl]
          rw [if_pos hhit] at hone
          exact ⟨hone.mask, hone.suspend, hone.pending⟩
        · rw [if_neg hi]
          exact hone
      · exact hone
    · exact Marked.refl _

theorem sysKill_marked (s : SigSystem) (cur : Nat) (pid sig : Int) (i : Nat) :
    Marked (s.tasks i) ((sysKill s cur pid sig).1.tasks i) := by
  unfold sysKill
  split
  · exact Marked.refl _
  split
  · exact Marked.refl _
  rename_i hrange
  split
  · exact Marked.refl _
  rename_i target _
  split
  · exact Marked.refl _
  split
  · exact Marked.refl _
  rename_i hzero
  split
  · split
    · exact taskKill_marked s cur _ i
    · exact Marked.refl _
  · rename_i hne
    have h9 : sig.toNat ≠ SIGKILL := by
      simp only [SIGKILL, SIGTERM] at hne ⊢
      omega
    simp only [SigSystem.set]
    by_cases hi : i = target
    · subst hi
      rw [if_pos rfl]
      exact contMark_marked _ h9 (by omega)
    · rw [if_neg hi]
      exact Marked.refl _

theorem tty_marked (s : SigSystem) (group : Nat → Bool) (sig : TtySignal) (i : Nat) :
    Marked (s.tasks i) ((devSignalPgrp s group sig).tasks i) := by
  unfold devSignalPgrp
  dsimp only
  split
  · exact signalMark_marked _ (by cases sig <;> decide) (by cases sig <;> decide)
  · exact Marked.refl _

/-! ## Steps and runs -/

/-- The frame a task hands to `sys_rt_sigreturn` has the bits of `SIGKILL` and `SIGSTOP` clear. -/
def FrameClean (s : SigSystem) : SigStep → Prop
  | .own c (.sigreturn _ (some f)) => canCall s c → Clean f.sigmask
  | _ => True

def AllMaskOk (s : SigSystem) : Prop := ∀ i, MaskOk (s.tasks i)

def AllNoKillBit (s : SigSystem) : Prop := ∀ i, NoKillBit (s.tasks i)

variable {s : SigSystem} {c : Nat}

theorem set_forall {P : SigTask → Prop} (h : ∀ i, P (s.tasks i)) (ht : P t) : ∀ i, P ((s.set c t).tasks i) := by
  intro i
  simp only [SigSystem.set]
  by_cases hi : i = c
  · rw [if_pos hi]
    exact ht
  · rw [if_neg hi]
    exact h i

theorem ownStep_noKillBit (ht : NoKillBit t) (hl : t.state ≠ .dead) (call : OwnCall) : NoKillBit (ownStep t call) := by
  cases call with
  | sigaction sig act wantOld size oldOk actOk =>
    simp only [ownStep]
    split
    · rename_i t' h
      exact (sigaction_same h).noKillBit ht
    · exact ht
  | sigprocmask how set =>
    unfold NoKillBit
    rw [ownStep, sigprocmask_pending]
    exact ht
  | sigsuspend mask => exact ht
  | deliver regs stackOk =>
    simp only [ownStep]
    split
    · rename_i d h
      exact (handleSignal_keeps ht hl h).1
    · exact ht
  | sigreturn regs frame => cases frame <;> exact ht

theorem ownStep_maskOk {call : OwnCall} (ht : MaskOk (s.tasks c))
    (hk : NoKillBit (s.tasks c)) (hc : canCall s c) (hf : FrameClean s (.own c call)) :
    MaskOk (ownStep (s.tasks c) call) := by
  cases call with
  | sigaction sig act wantOld size oldOk actOk =>
    simp only [ownStep]
    split
    · rename_i t' h
      exact (sigaction_same h).maskOk ht
    · exact ht
  | sigprocmask how set => exact sigprocmask_maskOk ht how set
  | sigsuspend mask =>
    refine ⟨clean_filtered _, fun m hm => ?_⟩
    obtain rfl := Option.some.inj hm
    exact ht.1
  | deliver regs stackOk =>
    simp only [ownStep]
    split
    · rename_i d h
      exact (handleSignal_keeps hk hc.1 h).2.1 ht
    · exact ht
  | sigreturn regs frame =>
    cases frame with
    | none => exact ht
    | some f => exact ⟨hf hc, ht.2⟩

theorem sigStep_noKillBit (hs : AllNoKillBit s) (st : SigStep) : AllNoKillBit (sigStep s st) := by
  cases st with
  | own c call =>
    simp only [sigStep]
    split
    · rename_i hc
      exact set_forall hs (ownStep_noKillBit (hs c) hc.1 call)
    · exact hs
  | poll c =>
    refine set_forall hs ?_
    unfold NoKillBit
    rw [poll_pending]
    exact hs c
  | kill c pid sig =>
    simp only [sigStep]
    split
    · exact fun i => (sysKill_marked s c pid sig i).noKillBit (hs i)
    · exact hs
  | taskKill c pid =>
    simp only [sigStep]
    split
    · exact fun i => (taskKill_marked s c pid i).noKillBit (hs i)
    · exact hs
  | tty group sig => exact fun i => (tty_marked s group sig i).noKillBit (hs i)
  | fork c slot id =>
    simp only [sigStep]
    split
    · exact set_forall hs (BitVec.getLsbD_zero)
    · exact hs

theorem sigStep_maskOk (hs : AllMaskOk s) (hk : AllNoKillBit s) (st : SigStep) (hf : FrameClean s st) :
    AllMaskOk (sigStep s st) := by
  cases st with
  | own c call =>
    simp only [sigStep]
    split
    · rename_i hc
      exact set_forall hs (ownStep_maskOk (hs c) (hk c) hc hf)
    · exact hs
  | poll c => exact set_forall hs (poll_maskOk (hs c))
  | kill c pid sig =>
    simp only [sigStep]
    split
    · exact fun i => (sysKill_marked s c pid sig i).maskOk (hs i)
    · exact hs
  | taskKill c pid =>
    simp only [sigStep]
    split
    · exact fun i => (taskKill_marked s c pid i).maskOk (hs i)
    · exact hs
  | tty group sig => exact fun i => (tty_marked s group sig i).maskOk (hs i)
  | fork c slot id =>
    simp only [sigStep]
    split
    · -- the child keeps the parent's mask and is in no suspension
      exact set_forall hs ⟨(hs c).1, fun m hm => by cases hm⟩
    · exact hs

/-! ## Sending SIGKILL -/

inductive KillPath where
  | sysKill (pid : Int)
  | taskKill (pid : UInt32)

def KillPath.pid : KillPath → UInt32
  | .sysKill pid => UInt32.ofNat pid.toNat
  | .taskKill pid => pid

def sendKill (s : SigSystem) (c : Nat) : KillPath → SigSystem × Int
  | .sysKill pid => sysKill s c pid SIGKILL
  | .taskKill pid => taskKill s c pid

/-- The task is gone with termination signal 9, at once or at its next return to user mode, whatever that finds. -/
def KilledAtReturn (t : SigTask) : Prop :=
  TerminatedBy t SIGKILL ∨ ∀ regs stackOk, ∃ d, handleSignalIfNeeded t regs stackOk = .ok d ∧ TerminatedBy d.task SIGKILL

theorem sendKill_sent {path : KillPath} (h : (sendKill s c path).2 = 0) :
    (sendKill s c path).1 = (taskKill s c path.pid).1 ∧ (taskKill s c path.pid).2 = 0 := by
  cases path with
  | taskKill pid => exact ⟨rfl, h⟩
  | sysKill pid =>
    have hok : ∀ e : Int, e ≠ 0 → (s, e).2 = 0 → False := fun e he h => he h
    revert h
    unfold sendKill sysKill KillPath.pid
    dsimp only
    split
    · exact fun h => (hok _ (by decide) h).elim
    split
    · exact fun h => (hok _ (by decide) h).elim
    split
    · exact fun h => (hok _ (by decide) h).elim
    split
    · exact fun h => (hok _ (by decide) h).elim
    rw [if_neg (by decide), if_pos (.inl rfl)]
    split
    · rename_i ht
      exact fun _ => ⟨rfl, ht⟩
    · exact fun h => (hok _ (by decide) h).elim

theorem taskKill_hit {pid : UInt32} (h : (taskKill s c pid).2 = 0) (hi : killHits s pid i = true) :
    (taskKill s c pid).1.tasks i =
      if i = c then taskExitSignal (killMark (s.tasks i)) SIGKILL else killMark (s.tasks i) := by
  revert h
  unfold taskKill
  split
  · intro h
    cases h
  split
  · intro _
    dsimp only
    by_cases hc : i = c
    · subst hc
      rw [if_pos hi, if_pos rfl]
      simp [SigSystem.set, hi]
    · rw [if_neg hc]
      split
      · simp [SigSystem.set, hc, hi]
      · simp [hi]
  · intro h
    cases h

theorem sendKill_killed_iff (hk : AllNoKillBit s) {path : KillPath}
    (h : (sendKill s c path).2 = 0) (hi : killHits s path.pid i = true) :
    KilledAtReturn ((sendKill s c path).1.tasks i) ↔ i = c := by
  obtain ⟨hs, h0⟩ := sendKill_sent h
  rw [hs, taskKill_hit h0 hi]
  by_cases hc : i = c
  · rw [if_pos hc]
    exact ⟨fun _ => hc, fun _ => .inl ⟨rfl, rfl⟩⟩
  · rw [if_neg hc]
    refine ⟨fun hkill => absurd hkill ?_, fun h => absurd h hc⟩
    have hlive : (s.tasks i).state ≠ .dead := by
      simp only [killHits, Bool.and_eq_true, bne_iff_ne] at hi
      exact hi.2
    have hlive' : (killMark (s.tasks i)).state ≠ .dead := by
      intro hd
      simp only [killMark, wakeState] at hd
      split at hd
      · cases hd
      · exact hlive hd
    rintro (hd | hd)
    · exact hlive' hd.1
    · obtain ⟨d, hd, ht⟩ := hd {} (fun _ => true)
      exact (handleSignal_keeps ((killMark_marked _).noKillBit (hk i)) hlive' hd).2.2 ht

/-- **When SIGKILL does what it should.**  From tasks whose masks are clean and that nobody has killed: along any run
of signal calls every mask stays without `SIGKILL` and `SIGSTOP` just when every frame handed to `sys_rt_sigreturn`
has them clear; and in every state of any run, a task hit by a kill dies of signal 9 just when it is the sender. -/
theorem sigkill_effective_iff (s : SigSystem) (hm : AllMaskOk s) (hk : AllNoKillBit s) (steps : List SigStep) :
    ((∀ s' ∈ Run.states sigStep s steps, ∀ i, Clean (s'.tasks i).signalMask) ↔
      Run.Guarded sigStep FrameClean s steps) ∧
    ∀ s' ∈ Run.states sigStep s steps, ∀ c path, (sendKill s' c path).2 = 0 → ∀ i, killHits s' path.pid i = true →
      (KilledAtReturn ((sendKill s' c path).1.tasks i) ↔ i = c) := by
  refine ⟨⟨?_, ?_⟩, ?_⟩
  · refine Run.guarded_of_states_forall (fun s st hclean => ?_) steps s
    match st with
    | .own c (.sigreturn regs (some f)) =>
      intro hc
      have h := hclean c
      simp only [sigStep, if_pos hc, SigSystem.set] at h
      rw [if_pos trivial] at h
      exact h
    | .own _ (.sigaction ..) | .own _ (.sigprocmask ..) | .own _ (.sigsuspend ..) | .own _ (.deliver ..)
    | .own _ (.sigreturn _ none) | .poll _ | .kill .. | .taskKill .. | .tty .. | .fork .. => trivial
  · intro hg s' hs' i
    have hinv := Run.states_forall (P := fun s => AllMaskOk s ∧ AllNoKillBit s)
      (fun s st hs hc => ⟨sigStep_maskOk hs.1 hs.2 st hc, sigStep_noKillBit hs.2 st⟩) steps s ⟨hm, hk⟩ hg s' hs'
    exact (hinv.1 i).1
  · intro s' hs' c path h i hi
    have hk' := Run.states_forall (P := AllNoKillBit) (C := fun _ _ => True)
      (fun s st hs _ => sigStep_noKillBit hs st) steps s hk (Run.guarded_of_forall (fun _ _ => trivial) steps s) s' hs'
    exact sendKill_killed_iff hk' h hi

def twoTasks : SigSystem where
  tasks := fun i => if i = 2 then { freshSigTask with id := 6, tgid := 6 } else freshSigTask
  taskCount := 3

/-- The task in slot 1 handles SIGUSR1, blocks what it can, is sent the signal, and comes back from a handler. -/
def handledSteps : List SigStep :=
  [.own 1 (.sigaction 10 (some ⟨0x400000, 0, 0, 0⟩) false 8 true true), .own 1 (.sigprocmask .block 0xFFFFFFFFFFFFFFFF),
    .kill 2 5 10, .own 1 (.sigreturn {} (some ⟨0, 0, {}, 0, {}, 0, 0x200, 0⟩))]

/-- No mask holds SIGKILL on the way, and a task that kills itself then is gone with signal 9. -/
theorem sigkill_effective_self : (∀ s' ∈ Run.states sigStep twoTasks handledSteps, ∀ i, Clean (s'.tasks i).signalMask) ∧
    ((handledSteps.foldl sigStep twoTasks).tasks 1).signalMask = 0x200 ∧
    KilledAtReturn ((sendKill (handledSteps.foldl sigStep twoTasks) 1 (.taskKill 5)).1.tasks 1) := by
  have hm : AllMaskOk twoTasks := fun i => by
    simp only [twoTasks]
    split <;> exact ⟨by decide, fun m hm => by cases hm⟩
  have hk : AllNoKillBit twoTasks := fun i => by
    simp only [twoTasks]
    split <;> exact BitVec.getLsbD_zero
  obtain ⟨hclean, hkilled⟩ := sigkill_effective_iff twoTasks hm hk handledSteps
  have hframes : Run.Guarded sigStep FrameClean twoTasks handledSteps :=
    ⟨trivial, trivial, trivial, fun _ => by decide, trivial⟩
  exact ⟨hclean.2 hframes, by decide,
    (hkilled _ (Run.foldl_mem_states handledSteps twoTasks) 1 (.taskKill 5) (by decide) 1 (by decide)).2 rfl⟩

/-- A kill of another task is reported sent and ends it with signal 10; and a frame with all bits set blocks
`SIGKILL`. -/
theorem sigkill_lost_and_blocked :
    ((sendKill twoTasks 1 (.sysKill 6)).2 = 0 ∧ killHits twoTasks 6 2 = true ∧
      ¬ KilledAtReturn ((sendKill twoTasks 1 (.sysKill 6)).1.tasks 2)) ∧
    ¬ Clean ((sigStep twoTasks (.own 1 (.sigreturn {} (some ⟨0, 0, {}, 0, {}, 0, 0xFFFFFFFF, 0⟩)))).tasks 1).signalMask
    := by
  refine ⟨⟨by decide, by decide, ?_⟩, by decide⟩
  rintro (h | h)
  · exact absurd h (by decide)
  · obtain ⟨d, hd, ht⟩ := h {} (fun _ => true)
    cases hd
    exact absurd ht (by decide)

end EterOS.Syscall
