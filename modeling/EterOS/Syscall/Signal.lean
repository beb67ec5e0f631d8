import EterOS.Syscall.Basic
/-!
# Signal — registration, the pending and blocked sets, delivery and return of signals

`kernel/arch/x86_64/syscall.c` (`sys_rt_sigaction` to `handle_signal_if_needed`) and `task_exit_signal`,
`task_stop_signal` of `kernel/task.c`.  An index into the four parallel action arrays, all of 32 entries, is checked:
an access outside them is a `Fault`, since the code would touch whatever `task_t` holds next to the array.

Registration stores the action of `sig` at `sig - 1`; delivery of `sig` reads the entry `sig`.
-/
namespace EterOS.Syscall

/-! ## Constants -/

def SIGKILL : Nat := 9
def SIGUSR1 : Nat := 10
def SIGSEGV : Nat := 11
def SIGTERM : Nat := 15
def SIGCHLD : Nat := 17
def SIGCONT : Nat := 18
def SIGSTOP : Nat := 19
def SIGTSTP : Nat := 20
def SIGTTIN : Nat := 21
def SIGTTOU : Nat := 22
def SIGURG : Nat := 23
def SIGWINCH : Nat := 28

def SIG_DFL : UInt64 := 0
def SIG_IGN : UInt64 := 1

def SA_SIGINFO : UInt32 := 0x00000004
def SA_RESTORER : UInt64 := 0x04000000
def SA_ONSTACK : UInt32 := 0x08000000
def SA_NODEFER : UInt32 := 0x40000000
def SA_RESETHAND : UInt32 := 0x80000000

def SS_ONSTACK : UInt32 := 1
def SS_DISABLE : UInt32 := 2
def MINSIGSTKSZ : UInt64 := 2048

def CLD_EXITED : Nat := 1
def CLD_KILLED : Nat := 2
def CLD_STOPPED : Nat := 5
def CLD_CONTINUED : Nat := 6

/-- `1u << (sig - 1)`: the bit of a signal in `signal_pending` and `signal_mask`. -/
def sigBit (sig : Nat) : BitVec 32 := BitVec.twoPow 32 (sig - 1)

/-- `(1u << (SIGKILL - 1)) | (1u << (SIGSTOP - 1))`: what no mask may hold. -/
def unblockable : BitVec 32 := sigBit SIGKILL ||| sigBit SIGSTOP

/-! ## The signal state of a task -/

structure SigAction where
  handler : UInt64
  flags : UInt32
  mask : UInt64
  restorer : UInt64
  deriving DecidableEq

structure KernelSigaction where
  handler : UInt64
  flags : UInt64
  restorer : UInt64
  mask : UInt64

/-- The fields of `task_t` the signal code reads or writes.  `suspendMask` is the local `old_mask` of a
`sys_rt_sigsuspend` in progress. -/
structure SigTask where
  id : UInt32
  tgid : UInt32
  uid : UInt32
  name : String
  state : TaskState
  signalMask : BitVec 32
  signalPending : BitVec 32
  signalHandlers : Vector UInt64 32
  signalRestorers : Vector UInt64 32
  signalFlags : Vector UInt32 32
  signalActionMasks : Vector UInt64 32
  sigaltstackSp : UInt64
  sigaltstackSize : UInt64
  sigaltstackFlags : UInt32
  userRsp : UInt64
  exitCode : Nat
  waitStatus : Nat
  waitCode : Nat
  waitPending : Bool
  suspendMask : Option (BitVec 32)

inductive Fault where
  | outOfBounds (i : Nat)

def readAction (t : SigTask) (i : Nat) : Except Fault SigAction :=
  if h : i < 32 then
    .ok ⟨t.signalHandlers[i], t.signalFlags[i], t.signalActionMasks[i], t.signalRestorers[i]⟩
  else .error (.outOfBounds i)

def writeAction (t : SigTask) (i : Nat) (a : SigAction) : Except Fault SigTask :=
  if h : i < 32 then
    .ok { t with
      signalHandlers := t.signalHandlers.set i a.handler
      signalFlags := t.signalFlags.set i a.flags
      signalActionMasks := t.signalActionMasks.set i a.mask
      signalRestorers := t.signalRestorers.set i a.restorer }
  else .error (.outOfBounds i)

/-! ## Registration -/

/-- What `sys_rt_sigaction` stores: the flags cut to 32 bits, the mask without the unblockable signals, the restorer
only when `SA_RESTORER` says there is one. -/
def storedAction (act : KernelSigaction) : SigAction where
  handler := act.handler
  flags := act.flags.toUInt32
  mask := act.mask &&& ~~~(((1 : UInt64) <<< 8) ||| ((1 : UInt64) <<< 18))
  restorer := if act.flags &&& SA_RESTORER ≠ 0 then act.restorer else 0

/-- `sys_rt_sigaction`.  `wantOld` and `act` say which pointers are not NULL, `oldOk` and `actOk` what
`vmm_verify_user_access` answers for them. -/
def sysRtSigaction (t : SigTask) (sig : Int) (act : Option KernelSigaction) (wantOld : Bool) (sigsetsize : UInt64)
    (oldOk actOk : Bool) : Except Fault (SigTask × Int × Option SigAction) := do
  if sigsetsize ≠ 8 then return (t, -EINVAL, none)
  if sig < 1 ∨ sig > 64 then return (t, -EINVAL, none)
  if sig = SIGKILL ∨ sig = SIGSTOP then return (t, -EINVAL, none)
  if wantOld ∧ !oldOk then return (t, -EFAULT, none)
  let old ← if wantOld then (readAction t (sig.toNat - 1)).map some else pure none
  match act with
  | none => return (t, 0, old)
  | some a =>
    if !actOk then return (t, -EFAULT, old)
    let t' ← writeAction t (sig.toNat - 1) (storedAction a)
    return (t', 0, old)

/-! ## Blocking -/

inductive SigHow where
  | block | unblock | setmask | other

/-- `sys_rt_sigprocmask` with a readable `set`; `other` is any value of `how` it refuses. -/
def sysRtSigprocmask (t : SigTask) (how : SigHow) (set : UInt64) : SigTask × Int :=
  let s : BitVec 32 := BitVec.ofNat 32 set.toNat
  match how with
  | .block => ({ t with signalMask := (t.signalMask ||| s) &&& ~~~unblockable }, 0)
  | .unblock => ({ t with signalMask := (t.signalMask &&& ~~~s) &&& ~~~unblockable }, 0)
  | .setmask => ({ t with signalMask := s &&& ~~~unblockable }, 0)
  | .other => (t, -EINVAL)

def sysRtSigsuspend (t : SigTask) (mask : UInt64) : SigTask :=
  { t with signalMask := BitVec.ofNat 32 mask.toNat &&& ~~~unblockable, suspendMask := some t.signalMask }

/-- One turn of its loop: a pending signal the temporary mask lets through puts the old mask back and ends the call. -/
def sigsuspendPoll (t : SigTask) : SigTask :=
  match t.suspendMask with
  | some old => if t.signalPending &&& ~~~t.signalMask ≠ 0 then { t with signalMask := old, suspendMask := none } else t
  | none => t

/-! ## Exit and stop -/

def taskExitInternal (t : SigTask) (status waitStatus waitCode : Nat) : SigTask :=
  { t with state := .dead, exitCode := status, waitStatus := waitStatus, waitCode := waitCode, waitPending := true }

def taskExit (t : SigTask) (status : Nat) : SigTask :=
  taskExitInternal t status (status % 256 * 256) CLD_EXITED

def taskExitSignal (t : SigTask) (sig : Nat) : SigTask :=
  taskExitInternal t (128 + sig % 128) (sig % 128) CLD_KILLED

def taskStopSignal (t : SigTask) (sig : Nat) : SigTask :=
  { t with waitStatus := (sig % 256) * 256 + 0x7F, waitCode := CLD_STOPPED, waitPending := true, state := .stopped }

/-! ## Delivery -/

/-- `struct sigframe`: `info` and `uc` carry the fields `setup_sigcontext` fills when `SA_SIGINFO` is set. -/
structure SigFrame where
  restorer : UInt64
  siSigno : Nat
  ucMcontext : SyscallRegs
  ucSigmask : BitVec 32
  regs : SyscallRegs
  userRsp : UInt64
  sigmask : BitVec 32
  ssFlagsPrev : UInt32

/-- `sizeof(struct sigframe)`, and the offsets of its `info` and `uc`. -/
def sigframeSize : UInt64 := 440
def sigframeInfo : UInt64 := 8
def sigframeUc : UInt64 := 136

/-- The alternate stack is used: asked for, enabled, not in use, and large enough. -/
def useAltstack (t : SigTask) (a : SigAction) : Bool :=
  a.flags &&& SA_ONSTACK ≠ 0 && t.sigaltstackFlags &&& SS_DISABLE == 0 && t.sigaltstackFlags &&& SS_ONSTACK == 0 &&
    t.sigaltstackSp != 0 && decide (t.sigaltstackSize ≥ MINSIGSTKSZ)

/-- Where the frame goes: below the red zone, aligned as the ABI wants it at a function's entry. -/
def frameSp (t : SigTask) (a : SigAction) : UInt64 :=
  let top := if useAltstack t a then t.sigaltstackSp + t.sigaltstackSize else t.userRsp
  ((top - 128 - sigframeSize - 8) &&& ~~~0xF) - 8

def handlerMask (t : SigTask) (sig : Nat) (a : SigAction) : BitVec 32 :=
  let saMask : BitVec 32 := BitVec.ofNat 32 a.mask.toNat
  if a.flags &&& SA_NODEFER = 0 then t.signalMask ||| ((saMask ||| sigBit sig) &&& ~~~unblockable)
  else (t.signalMask &&& ~~~sigBit sig) ||| (saMask &&& ~~~unblockable)

def sigFrameOf (t : SigTask) (regs : SyscallRegs) (sig : Nat) (a : SigAction) : SigFrame where
  restorer := a.restorer
  siSigno := if a.flags &&& SA_SIGINFO ≠ 0 then sig else 0
  ucMcontext := if a.flags &&& SA_SIGINFO ≠ 0 then regs else {}
  ucSigmask := if a.flags &&& SA_SIGINFO ≠ 0 then t.signalMask else 0
  regs := regs
  userRsp := t.userRsp
  sigmask := t.signalMask
  ssFlagsPrev := t.sigaltstackFlags

/-- What a return to user mode leaves: the task, its registers, the frame put on the user stack, and the actions
looked up on the way, each with its signal. -/
structure Delivery where
  task : SigTask
  regs : SyscallRegs
  frame : Option SigFrame
  consulted : List (Nat × SigAction)

/-- `setup_sigcontext`.  `stackOk` is the answer of `vmm_verify_user_access` for the frame's place. -/
def setupSigcontext (t : SigTask) (regs : SyscallRegs) (sig : Nat) (a : SigAction) (stackOk : UInt64 → Bool)
    (seen : List (Nat × SigAction)) : Delivery :=
  let sp := frameSp t a
  if !stackOk sp then ⟨taskExit t SIGSEGV, regs, none, seen⟩
  else
    let info := a.flags &&& SA_SIGINFO ≠ 0
    ⟨{ t with
        signalMask := handlerMask t sig a
        userRsp := sp
        sigaltstackFlags := if useAltstack t a then t.sigaltstackFlags ||| SS_ONSTACK else t.sigaltstackFlags },
      { regs with
        rdi := UInt64.ofNat sig
        rsi := if info then sp + sigframeInfo else 0
        rdx := if info then sp + sigframeUc else 0
        rcx := a.handler },
      some (sigFrameOf t regs sig a), seen⟩

def dflIgnored (sig : Nat) : Bool := sig == SIGCHLD || sig == SIGCONT || sig == SIGURG || sig == SIGWINCH

def dflStops (sig : Nat) : Bool := sig == SIGSTOP || sig == SIGTSTP || sig == SIGTTIN || sig == SIGTTOU

def clearPending (t : SigTask) (sig : Nat) : SigTask := { t with signalPending := t.signalPending &&& ~~~sigBit sig }

/-- What becomes of a signal whose action is `a`: `none` is `continue`, else the function returns here. -/
def takeSignal (regs : SyscallRegs) (stackOk : UInt64 → Bool) (sig : Nat) (a : SigAction)
    (seen : List (Nat × SigAction)) (t : SigTask) : Option (Except Fault Delivery) :=
  if a.handler = SIG_IGN then none
  else if a.handler = SIG_DFL then
    if dflIgnored sig then none
    else if dflStops sig then some (.ok ⟨taskStopSignal t sig, regs, none, seen⟩)
    else some (.ok ⟨taskExitSignal t sig, regs, none, seen⟩)
  else if a.flags &&& SA_RESETHAND ≠ 0 then
    some ((writeAction t sig ⟨SIG_DFL, 0, 0, 0⟩).map fun t' => setupSigcontext t' regs sig a stackOk seen)
  else some (.ok (setupSigcontext t regs sig a stackOk seen))

/-- The loop of `handle_signal_if_needed`, over the signals still to look at. -/
def handleLoop (regs : SyscallRegs) (stackOk : UInt64 → Bool) : List Nat → List (Nat × SigAction) → SigTask →
    Except Fault Delivery
  | [], seen, t => .ok ⟨t, regs, none, seen⟩
  | sig :: sigs, seen, t =>
    if t.signalPending &&& sigBit sig ≠ 0 ∧ t.signalMask &&& sigBit sig = 0 then
      -- the entry read is `sig`, where registration wrote `sig - 1`
      match readAction (clearPending t sig) sig with
      | .error e => .error e
      | .ok a =>
        match takeSignal regs stackOk sig a (seen ++ [(sig, a)]) (clearPending t sig) with
        | some r => r
        | none => handleLoop regs stackOk sigs (seen ++ [(sig, a)]) (clearPending t sig)
    else handleLoop regs stackOk sigs seen t

/-- `handle_signal_if_needed`: the lowest pending signal that is not blocked, of 1 to 31. -/
def handleSignalIfNeeded (t : SigTask) (regs : SyscallRegs) (stackOk : UInt64 → Bool) : Except Fault Delivery :=
  if t.signalPending = 0 then .ok ⟨t, regs, none, []⟩
  else handleLoop regs stackOk (List.range' 1 31) [] t

/-- `sys_rt_sigreturn`: `frame` is what the user stack holds, or `none` when it cannot be read. -/
def sysRtSigreturn (t : SigTask) (regs : SyscallRegs) (frame : Option SigFrame) : SigTask × SyscallRegs :=
  match frame with
  | none => (taskExit t SIGSEGV, regs)
  | some f =>
    ({ t with
        signalMask := f.sigmask
        sigaltstackFlags :=
          if f.ssFlagsPrev &&& SS_ONSTACK ≠ 0 then t.sigaltstackFlags ||| SS_ONSTACK
          else t.sigaltstackFlags &&& ~~~SS_ONSTACK
        userRsp := f.userRsp }, f.regs)

/-! ## Sending -/

def wakeState (st : TaskState) : TaskState :=
  if st = .blocked ∨ st = .sleeping ∨ st = .stopped then .ready else st

/-- `task_kill`'s mark on one task: the bit is `1 << SIGKILL`, not `1 << (SIGKILL - 1)`. -/
def killMark (t : SigTask) : SigTask :=
  { t with signalPending := t.signalPending ||| BitVec.twoPow 32 SIGKILL, state := wakeState t.state }

/-- The mark of any other signal, by `sys_kill` and `dev_signal_pgrp`. -/
def signalMark (t : SigTask) (sig : Nat) : SigTask :=
  { t with signalPending := t.signalPending ||| sigBit sig, state := wakeState t.state }

/-- `sys_kill` records a stopped target's continuation for its parent. -/
def contMark (t : SigTask) (sig : Nat) : SigTask :=
  if sig = SIGCONT ∧ t.state = .stopped then
    { t with waitStatus := 0xFFFF, waitCode := CLD_CONTINUED, waitPending := true }
  else t

/-- The task table: `MAX_TASKS` is 64, and slots at or above `task_count` were never used. -/
structure SigSystem where
  tasks : Nat → SigTask
  taskCount : Nat

def SigSystem.set (s : SigSystem) (i : Nat) (t : SigTask) : SigSystem :=
  { s with tasks := fun j => if j = i then t else s.tasks j }

/-- `task_kill` marks slot `i`: a live task of the group, the kernel's slot excepted. -/
def killHits (s : SigSystem) (pid : UInt32) (i : Nat) : Bool :=
  decide (1 ≤ i) && decide (i < s.taskCount) && (s.tasks i).tgid == pid && (s.tasks i).state != .dead

/-- `task_kill`, by the task in slot `cur`.  A caller that marks itself exits at once. -/
def taskKill (s : SigSystem) (cur : Nat) (pid : UInt32) : SigSystem × Int :=
  if pid = 0 then (s, -1)
  else if (List.range s.taskCount).any (killHits s pid) then
    let marked := { s with tasks := fun i => if killHits s pid i then killMark (s.tasks i) else s.tasks i }
    if killHits s pid cur then (marked.set cur (taskExitSignal (marked.tasks cur) SIGKILL), 0) else (marked, 0)
  else (s, -1)

def taskGetById (s : SigSystem) (id : UInt32) : Option Nat :=
  (List.range 64).find? fun i => (s.tasks i).id == id && (s.tasks i).name != "" && (s.tasks i).state != .dead

def sysKill (s : SigSystem) (cur : Nat) (pid sig : Int) : SigSystem × Int :=
  if pid ≤ 0 then (s, -EINVAL)
  else if sig < 0 ∨ sig > 31 then (s, -EINVAL)
  else
    match taskGetById s (UInt32.ofNat pid.toNat) with
    | none => (s, -ESRCH)
    | some i =>
      if (s.tasks cur).uid ≠ 0 ∧ (s.tasks cur).uid ≠ (s.tasks i).uid then (s, -EPERM)
      else if sig = 0 then (s, 0)
      else if sig = SIGKILL ∨ sig = SIGTERM then
        if (taskKill s cur (UInt32.ofNat pid.toNat)).2 = 0 then ((taskKill s cur (UInt32.ofNat pid.toNat)).1, 0)
        else (s, -ESRCH)
      else (s.set i (signalMark (contMark (s.tasks i) sig.toNat) sig.toNat), 0)

inductive TtySignal where
  | sigint | sigtstp | sigttin | sigttou

def TtySignal.number : TtySignal → Nat
  | .sigint => 2
  | .sigtstp => SIGTSTP
  | .sigttin => SIGTTIN
  | .sigttou => SIGTTOU

def devSignalPgrp (s : SigSystem) (group : Nat → Bool) (sig : TtySignal) : SigSystem :=
  { s with tasks := fun i => if group i && (s.tasks i).state != .dead then signalMark (s.tasks i) sig.number else s.tasks i }

def forkSignals (parent : SigTask) (id : UInt32) : SigTask :=
  { parent with
    id := id, tgid := id, state := .ready, signalPending := 0, suspendMask := none
    sigaltstackFlags := parent.sigaltstackFlags &&& ~~~SS_ONSTACK
    waitStatus := 0, waitCode := 0, waitPending := false }

end EterOS.Syscall
