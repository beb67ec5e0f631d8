import EterOS.Sched.AddressSpace
/-!
# Life — signals, stops and deaths between the calls of the scheduler

`task_kill` and `task_stop_signal` of `kernel/task.c`, and what `sys_kill` and `dev_signal_pgrp` do to their target, on the
task table.  `sys_kill` reads and marks its target without the lock and only then calls `task_wakeup`, so the mark and the
wake-up are two steps, and other CPUs run between them.

A task that has called `task_exit` makes no call any more: should it be scheduled once again, it halts.
-/
namespace EterOS.Sched

open Function (update update_self update_of_ne)

def SIGKILL : Nat := 9
def SIGTERM : Nat := 15
def SIGCONT : Nat := 18

namespace State

/-! ## Signals -/

/-- `1u << (sig - 1)`, as `sys_kill` and `dev_signal_pgrp` set it. -/
def sigMark (s : State) (t : Slot) (sig : Nat) : State :=
  s.modTask t fun task => { task with signalPending := task.signalPending ||| BitVec.twoPow 32 (sig - 1) }

/-- `sys_kill` records a stopped target's continuation for its parent. -/
def contMark (s : State) (t : Slot) (sig : Nat) : State :=
  if sig = SIGCONT ∧ (s.tasks t).state = .stopped then
    s.modTask t fun task => { task with waitStatus := 0xFFFF, waitCode := CLD_CONTINUED, waitPending := true }
  else s

/-- `task_kill` on one slot: the bit is `1 << SIGKILL`. -/
def killOne (pid : Nat) (s : State) (i : Slot) : State :=
  if (s.tasks i).tgid = pid ∧ (s.tasks i).state ≠ .dead then
    let s := s.modTask i fun task => { task with signalPending := task.signalPending ||| BitVec.twoPow 32 SIGKILL }
    if (s.tasks i).state = .blocked ∨ (s.tasks i).state = .sleeping ∨ (s.tasks i).state = .stopped then s.wake i else s
  else s

/-- The slots `task_kill` scans: all that were ever used, but task 0's. -/
def killScan (s : State) : List Slot :=
  (List.finRange MAX_TASKS).filter fun i => i ≠ 0 && decide (i.val < s.taskCount)

def taskKill (s : State) (pid : Nat) : State :=
  if pid = 0 then s else s.killScan.foldl (killOne pid) s

/-- `task_stop_signal` up to its unlock; `task_wakeup` of the parent and `schedule` follow. -/
def taskStopSignal (s : State) (c sig : Nat) : State :=
  (s.markYielding c).modTask (s.current c) fun task =>
    { task with waitStatus := sig % 256 * 256 + 0x7F, waitCode := CLD_STOPPED, waitPending := true, state := .stopped }

end State

/-! ## The machine -/

inductive LifeOp
  | proc (op : ProcOp)
  | taskKill (c pid : Nat)
  /-- `sys_kill` with any signal but SIGKILL and SIGTERM, up to the wake-ups. -/
  | sysKill (t : Slot) (sig : Nat)
  /-- `dev_signal_pgrp` on one task of the group, up to the wake-up. -/
  | devSignal (t : Slot) (sig : Nat)
  /-- The `task_wakeup` of the target that ends both. -/
  | wakeFor (t : Slot) (sig : Nat)
  | taskStopSignal (c sig : Nat)

/-- The CPU whose current task makes the call; `schedule` is also the timer's, and anyone wakes a task. -/
def Op.caller : Op → Option Nat
  | .taskCreate c _ | .taskYield c | .taskBlock c | .taskBlockWithTimeout c _ | .taskSleep c _ _ | .taskExit c _ _ => some c
  | .schedule _ | .taskWakeup _ | .taskWakeExpired _ => none

def ProcOp.caller : ProcOp → Option Nat
  | .sched op => op.caller
  | .taskFork c _ | .taskClone c _ _ | .forkReturn c _ | .taskExec c _ | .execReturn c _ | .taskSetupPrivatePml4 c _ |
    .taskWaitpid c _ _ | .taskWaitid c _ _ _ => some c

def State.isDead (s : State) (t : Slot) : Bool := (s.tasks t).state == .dead

/-- A task on CPU `c` that has not exited. -/
def State.breathes (s : State) (c : Nat) : Bool := !s.isDead (s.current c)

def State.mayLife (s : State) : LifeOp → Bool
  | .proc op => s.mayCallProc op && op.caller.all s.breathes
  | .taskKill c _ | .taskStopSignal c _ => s.online c && !(s.cpus c).yielding && s.breathes c
  | .sysKill t sig => decide (1 ≤ sig ∧ sig ≤ 31 ∧ sig ≠ SIGKILL ∧ sig ≠ SIGTERM) && !s.isDead t
  | .devSignal t sig => decide (1 ≤ sig ∧ sig ≤ 31) && !s.isDead t
  | .wakeFor _ _ => true

def State.callLife (s : State) : LifeOp → State
  | .proc op => s.callProc op
  | .taskKill _ pid => s.taskKill pid
  | .sysKill t sig => (s.sigMark t sig).contMark t sig
  | .devSignal t sig => s.sigMark t sig
  | .wakeFor t _ => s.taskWakeup t
  | .taskStopSignal c sig => s.taskStopSignal c sig

def lifeStep (s : State) (op : LifeOp) : State :=
  if s.mayLife op then s.callLife op else s

/-! ## What the signals leave alone -/

variable {s s' : State} {t u : Slot} {c : Nat}

theorem SchedFrame.setPending (h : SchedFrame s s') (t : Slot) (p : BitVec 32) :
    SchedFrame s (s'.modTask t fun task => { task with signalPending := task.signalPending ||| p }) :=
  h.modTask t ⟨rfl, fun hd => hd⟩

theorem SchedFrame.killOne (h : SchedFrame s s') (pid : Nat) (i : Slot) : SchedFrame s (State.killOne pid s' i) := by
  unfold State.killOne
  split
  · have h' := h.setPending i (BitVec.twoPow 32 SIGKILL)
    dsimp only
    split
    · exact h'.wake i
    · exact h'
  · exact h

theorem SchedFrame.taskKill (h : SchedFrame s s') (pid : Nat) : SchedFrame s (s'.taskKill pid) := by
  have hfold : ∀ (is : List Slot) (s' : State), SchedFrame s s' → SchedFrame s (is.foldl (State.killOne pid) s') := by
    intro is
    induction is with
    | nil => exact fun _ h => h
    | cons i is ih => exact fun s' h => ih _ (h.killOne pid i)
  unfold State.taskKill
  split
  · exact h
  · exact hfold _ s' h

/-- What a process is to its parent: who it is, whose child it is, and whether it is dead with its death untold. -/
structure Task.Alike (t t' : Task) : Prop where
  id : t'.id = t.id
  parentId : t'.parentId = t.parentId
  tgid : t'.tgid = t.tgid
  dead : t'.state = .dead → t.state = .dead ∧ t'.waitPending = t.waitPending ∧ t'.waitStatus = t.waitStatus

theorem Task.Moved.alike {a b : Task} (h : a.Moved b) : a.Alike b :=
  ⟨h.id_eq, h.parentId_eq, h.tgid_eq, fun hd => ⟨h.dead hd, h.waitPending_eq, h.waitStatus_eq⟩⟩

theorem Task.Alike.refl (a : Task) : a.Alike a := ⟨rfl, rfl, rfl, fun h => ⟨h, rfl, rfl⟩⟩

theorem Task.Alike.trans {a b d : Task} (h : a.Alike b) (h' : b.Alike d) : a.Alike d := by
  refine ⟨h'.id.trans h.id, h'.parentId.trans h.parentId, h'.tgid.trans h.tgid, fun hd => ?_⟩
  obtain ⟨hb, hp', hs'⟩ := h'.dead hd
  obtain ⟨ha, hp, hs⟩ := h.dead hb
  exact ⟨ha, hp'.trans hp, hs'.trans hs⟩

structure LifeFrame (s s' : State) : Prop where
  task : ∀ u, (s.tasks u).Alike (s'.tasks u)
  bitmap : s'.taskBitmap = s.taskBitmap
  nextId : s'.nextId = s.nextId

theorem LifeFrame.refl (s : State) : LifeFrame s s := ⟨fun _ => Task.Alike.refl _, rfl, rfl⟩

theorem SchedFrame.life (h : SchedFrame s s') : LifeFrame s s' := ⟨fun u => (h.task u).alike, h.bitmap, h.nextId⟩

theorem LifeFrame.trans {s2 : State} (h : LifeFrame s s') (h' : LifeFrame s' s2) : LifeFrame s s2 :=
  ⟨fun u => (h.task u).trans (h'.task u), h'.bitmap.trans h.bitmap, h'.nextId.trans h.nextId⟩

theorem LifeFrame.modTask (h : LifeFrame s s') (t : Slot) {f : Task → Task} (hf : (s'.tasks t).Alike (f (s'.tasks t))) :
    LifeFrame s (s'.modTask t f) := by
  refine h.trans ⟨fun u => ?_, rfl, rfl⟩
  by_cases hu : u = t
  · subst hu
    rw [modTask_tasks_self]
    exact hf
  · rw [modTask_tasks_ne hu]
    exact Task.Alike.refl _

theorem LifeFrame.finishChild (h : LifeFrame s s') (k : Slot) (pgid cr3 : Nat) :
    LifeFrame s (s'.finishChild k pgid cr3) := by
  refine h.trans ⟨fun u => ?_, rfl, rfl⟩
  by_cases hu : u = k
  · subst hu
    simp only [State.finishChild, State.enqueueReady, modTask_tasks_self]
    exact ⟨rfl, rfl, rfl, fun hd => by cases hd⟩
  · have htask : (s'.finishChild k pgid cr3).tasks u = s'.tasks u := update_of_ne hu _ _
    rw [htask]
    exact Task.Alike.refl _

theorem LifeFrame.setCall (h : LifeFrame s s') (t : Slot) (call : Call) :
    LifeFrame s (s'.modTask t fun task => { task with inCall := call }) :=
  h.modTask t ⟨rfl, rfl, rfl, fun hd => ⟨hd, rfl, rfl⟩⟩

theorem LifeFrame.loadCr3 (h : LifeFrame s s') (c cr3 : Nat) : LifeFrame s (s'.loadCr3 c cr3) :=
  (h.modTask (s'.current c) (f := fun t => { t with cr3 := cr3 }) ⟨rfl, rfl, rfl, fun hd => ⟨hd, rfl, rfl⟩⟩).trans
    ⟨fun _ => Task.Alike.refl _, rfl, rfl⟩

theorem LifeFrame.vmmDestroyPml4 (h : LifeFrame s s') (t : Slot) (cr3 : Nat) : LifeFrame s (s'.vmmDestroyPml4 t cr3) := by
  unfold State.vmmDestroyPml4
  split
  · exact h
  · exact h.trans ⟨fun _ => Task.Alike.refl _, rfl, rfl⟩

theorem LifeFrame.allocRoot (h : LifeFrame s s') (cr3 : Nat) : LifeFrame s (s'.allocRoot cr3) :=
  h.trans ⟨fun _ => Task.Alike.refl _, rfl, rfl⟩

theorem lifeFrame_forkReturn (c childCr3 : Nat) : LifeFrame s (s.forkReturn c childCr3) := by
  unfold State.forkReturn
  split
  · rename_i k _
    dsimp only
    refine LifeFrame.setCall (LifeFrame.finishChild ?_ _ _ _) _ _
    split
    · exact LifeFrame.refl s
    · exact (LifeFrame.refl s).allocRoot childCr3
  · exact LifeFrame.refl s

theorem lifeFrame_execReturn (c : Nat) (loaded : Bool) : LifeFrame s (s.execReturn c loaded) := by
  have hcall := (LifeFrame.refl s).setCall (s.current c) .none
  unfold State.execReturn
  dsimp only
  split
  · split
    · exact hcall.vmmDestroyPml4 _ _
    · exact (hcall.loadCr3 c _).vmmDestroyPml4 _ _
  · exact LifeFrame.refl s

theorem lifeFrame_sysKill (t : Slot) (sig : Nat) (halive : s.isDead t = false) :
    LifeFrame s ((s.sigMark t sig).contMark t sig) := by
  have hmark : LifeFrame s (s.sigMark t sig) := ((SchedFrame.refl s).setPending t _).life
  have hdead : ((s.sigMark t sig).tasks t).state ≠ .dead := by
    simpa [State.sigMark, State.isDead] using halive
  unfold State.contMark
  split
  · exact hmark.modTask t ⟨rfl, rfl, rfl, fun hd => absurd hd hdead⟩
  · exact hmark

theorem lifeFrame_taskStopSignal (c sig : Nat) : LifeFrame s (s.taskStopSignal c sig) := by
  have hyield : LifeFrame s (s.markYielding c) := ⟨fun _ => Task.Alike.refl _, rfl, rfl⟩
  exact hyield.modTask _ ⟨rfl, rfl, rfl, fun hd => by cases hd⟩

def LifeOp.changes : LifeOp → Bool
  | .proc (.sched (.taskCreate _ _)) | .proc (.sched (.taskExit _ _ _)) | .proc (.taskFork _ _) | .proc (.taskClone _ _ _) |
    .proc (.taskWaitpid _ _ _) | .proc (.taskWaitid _ _ _ _) => true
  | _ => false

theorem lifeFrame_call {op : LifeOp} (hmay : s.mayLife op = true) (hop : op.changes = false) :
    LifeFrame s (s.callLife op) := by
  cases op with
  | proc op =>
    cases op with
    | sched op =>
      refine (schedFrame_call ?_ ?_).life
      · rintro c stack rfl
        cases hop
      · rintro c ws wc rfl
        cases hop
    | taskFork c stack => cases hop
    | taskClone c flags stack => cases hop
    | taskWaitpid c pid options => cases hop
    | taskWaitid c idtype id options => cases hop
    | forkReturn c childCr3 => exact lifeFrame_forkReturn c childCr3
    | taskExec c newCr3 => exact (((LifeFrame.refl s).allocRoot newCr3).loadCr3 c newCr3).setCall _ _
    | execReturn c loaded => exact lifeFrame_execReturn c loaded
    | taskSetupPrivatePml4 c newCr3 => exact ((LifeFrame.refl s).allocRoot newCr3).loadCr3 c newCr3
  | taskKill c pid => exact ((SchedFrame.refl s).taskKill pid).life
  | sysKill t sig =>
    simp only [State.mayLife, Bool.and_eq_true, Bool.not_eq_true'] at hmay
    exact lifeFrame_sysKill t sig hmay.2
  | devSignal t sig => exact ((SchedFrame.refl s).setPending t _).life
  | wakeFor t sig => exact ((SchedFrame.refl s).taskWakeup t).life
  | taskStopSignal c sig => exact lifeFrame_taskStopSignal c sig

end EterOS.Sched
