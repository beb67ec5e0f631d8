import EterOS.Sched.QueueRun
/-!
# Frame — what the scheduler leaves alone

Waking, blocking and switching change where a task is: its state, its wake-up tick, its pending signals, the queues and the
CPUs' own fields.  `SchedFrame` says that nothing else differs and that no task has died; every call of the scheduler is of
this kind, save `task_create` and the marking part of `task_exit`.
-/
namespace EterOS.Sched

open Function (update update_self update_of_ne)

variable {s s' : State} {t u : Slot} {c : Nat}

/-- Only the state, the tick and the pending signals of the task differ, and it has not died. -/
structure Task.Moved (t t' : Task) : Prop where
  rest : t' = { t with state := t'.state, wakeTick := t'.wakeTick, signalPending := t'.signalPending }
  dead : t'.state = .dead → t.state = .dead

namespace Task.Moved

variable {a b d : Task}

theorem refl (a : Task) : Moved a a := ⟨rfl, fun hd => hd⟩

theorem trans (h : Moved a b) (h' : Moved b d) : Moved a d := by
  refine ⟨?_, fun hd => h.dead (h'.dead hd)⟩
  have hd := h'.rest
  rw [h.rest] at hd
  exact hd

theorem id_eq (h : Moved a b) : b.id = a.id := by rw [h.rest]

theorem parentId_eq (h : Moved a b) : b.parentId = a.parentId := by rw [h.rest]

theorem tgid_eq (h : Moved a b) : b.tgid = a.tgid := by rw [h.rest]

theorem cr3_eq (h : Moved a b) : b.cr3 = a.cr3 := by rw [h.rest]

theorem waitStatus_eq (h : Moved a b) : b.waitStatus = a.waitStatus := by rw [h.rest]

theorem waitPending_eq (h : Moved a b) : b.waitPending = a.waitPending := by rw [h.rest]

theorem inCall_eq (h : Moved a b) : b.inCall = a.inCall := by rw [h.rest]

theorem building_eq (h : Moved a b) : b.building = a.building := by rw [h.rest]

end Task.Moved

structure SchedFrame (s s' : State) : Prop where
  task : ∀ u, (s.tasks u).Moved (s'.tasks u)
  bitmap : s'.taskBitmap = s.taskBitmap
  count : s'.taskCount = s.taskCount
  nextId : s'.nextId = s.nextId
  roots : s'.roots = s.roots
  destroyed : s'.destroyed = s.destroyed

namespace SchedFrame

theorem of_eq (htasks : s'.tasks = s.tasks) (hbit : s'.taskBitmap = s.taskBitmap) (hcount : s'.taskCount = s.taskCount)
    (hnext : s'.nextId = s.nextId) (hroots : s'.roots = s.roots) (hdest : s'.destroyed = s.destroyed) :
    SchedFrame s s' :=
  ⟨fun u => by rw [htasks]; exact Task.Moved.refl _, hbit, hcount, hnext, hroots, hdest⟩

theorem refl (s : State) : SchedFrame s s := of_eq rfl rfl rfl rfl rfl rfl

theorem trans {s2 : State} (h : SchedFrame s s') (h' : SchedFrame s' s2) : SchedFrame s s2 :=
  ⟨fun u => (h.task u).trans (h'.task u), h'.bitmap.trans h.bitmap, h'.count.trans h.count, h'.nextId.trans h.nextId,
    h'.roots.trans h.roots, h'.destroyed.trans h.destroyed⟩

theorem modTask (h : SchedFrame s s') (t : Slot) {f : Task → Task} (hf : (s'.tasks t).Moved (f (s'.tasks t))) :
    SchedFrame s (s'.modTask t f) := by
  refine h.trans ⟨fun u => ?_, rfl, rfl, rfl, rfl, rfl⟩
  by_cases hu : u = t
  · subst hu
    rw [modTask_tasks_self]
    exact hf
  · rw [modTask_tasks_ne hu]
    exact Task.Moved.refl _

theorem setState (h : SchedFrame s s') (t : Slot) {st : TaskState} (hst : st ≠ .dead) :
    SchedFrame s (s'.modTask t fun task => { task with state := st }) :=
  h.modTask t ⟨rfl, fun hd => absurd hd hst⟩

theorem setTick (h : SchedFrame s s') (t : Slot) (tick : Nat) :
    SchedFrame s (s'.modTask t fun task => { task with wakeTick := tick }) :=
  h.modTask t ⟨rfl, id⟩

theorem setWait (h : SchedFrame s s') (t : Slot) (tick : Nat) {st : TaskState} (hst : st ≠ .dead) :
    SchedFrame s (s'.modTask t fun task => { task with wakeTick := tick, state := st }) :=
  h.modTask t ⟨rfl, fun hd => absurd hd hst⟩

theorem modCpu (h : SchedFrame s s') (c : Nat) (g : Cpu → Cpu) : SchedFrame s (s'.modCpu c g) :=
  h.trans (of_eq rfl rfl rfl rfl rfl rfl)

theorem enqueueReady (h : SchedFrame s s') (t : Slot) : SchedFrame s (s'.enqueueReady t) :=
  h.trans (of_eq rfl rfl rfl rfl rfl rfl)

theorem dequeueReady (h : SchedFrame s s') (t : Slot) : SchedFrame s (s'.dequeueReady t) :=
  h.trans (of_eq rfl rfl rfl rfl rfl rfl)

theorem enqueueSleep (h : SchedFrame s s') (t : Slot) : SchedFrame s (s'.enqueueSleep t) :=
  h.trans (of_eq rfl rfl rfl rfl rfl rfl)

theorem dequeueSleep (h : SchedFrame s s') (t : Slot) : SchedFrame s (s'.dequeueSleep t) :=
  h.trans (of_eq rfl rfl rfl rfl rfl rfl)

theorem wake (h : SchedFrame s s') (t : Slot) : SchedFrame s (s'.wake t) := by
  have h' := (h.setState t (show TaskState.ready ≠ .dead by decide)).dequeueSleep t
  unfold State.wake
  dsimp only
  split
  · exact h'
  · exact h'.enqueueReady t

theorem wakeExpiredLoop (tick : Nat) :
    ∀ (fuel : Nat) (curr : Option Slot) (s : State), SchedFrame s (State.wakeExpiredLoop tick fuel curr s)
  | 0, _, s => refl s
  | _ + 1, none, s => refl s
  | fuel + 1, some curr, s => by
    unfold State.wakeExpiredLoop
    split
    · exact ((refl s).wake curr).trans (wakeExpiredLoop tick fuel _ _)
    · exact refl s

theorem taskWakeup (h : SchedFrame s s') (t : Slot) : SchedFrame s (s'.taskWakeup t) := by
  have hfirst : SchedFrame s
      (if (s'.tasks t).state = .blocked ∨ (s'.tasks t).state = .sleeping then s'.wake t else s') := by
    split
    · exact h.wake t
    · exact h
  unfold State.taskWakeup
  dsimp only
  generalize (if (s'.tasks t).state = .blocked ∨ (s'.tasks t).state = .sleeping then s'.wake t else s') = s1 at hfirst ⊢
  split
  · have h' := hfirst.setState t (show TaskState.ready ≠ .dead by decide)
    split
    · exact h'
    · exact h'.enqueueReady t
  · exact hfirst

theorem taskWakeParentWaiter (h : SchedFrame s s') (id : Nat) : SchedFrame s (s'.taskWakeParentWaiter id) := by
  have hfold : ∀ (is : List Slot) (s' : State), SchedFrame s s' →
      SchedFrame s (is.foldl (fun s i => if s.isWaiter id i then s.wake i else s) s') := by
    intro is
    induction is with
    | nil => exact fun _ h => h
    | cons i is ih =>
      intro s' h
      rw [List.foldl_cons]
      refine ih _ ?_
      split
      · exact h.wake i
      · exact h
  exact hfold _ s' h

theorem resume (h : SchedFrame s s') (t : Slot) : SchedFrame s (s'.resume t) := by
  unfold State.resume
  dsimp only
  refine setTick ?_ _ _
  apply dequeueSleep
  split
  · exact (h.dequeueReady t).setState t (by decide)
  · exact h

theorem putBack (h : SchedFrame s s') (t : Slot) : SchedFrame s (s'.putBack t) := by
  unfold State.putBack
  split
  · apply enqueueReady
    exact h.setState t (by decide)
  · exact h

theorem switchTo (h : SchedFrame s s') (c : Nat) (t : Slot) : SchedFrame s (s'.switchTo c t) := by
  unfold State.switchTo
  dsimp only
  apply modCpu
  refine setTick ?_ _ _
  apply dequeueSleep
  refine setState ?_ _ (by decide)
  split
  · exact h.dequeueReady t
  · exact h

theorem schedule (h : SchedFrame s s') (c : Nat) : SchedFrame s (s'.schedule c) := by
  have hyield := h.modCpu c fun cpu => { cpu with yielding := false }
  unfold State.schedule
  dsimp only
  split
  · exact hyield.resume _
  · split
    · exact hyield.modCpu _ _
    · exact ((hyield.modCpu _ _).putBack _).switchTo _ _

end SchedFrame

/-- `task_exit_internal` before it looks for a waiting parent: the task is DEAD and its children are task 0's. -/
def State.exitMark (s : State) (c waitStatus waitCode : Nat) : State :=
  ((s.markYielding c).modTask (s.current c) fun task =>
    { task with state := .dead, waitStatus := waitStatus, waitCode := waitCode, waitPending := true }).reparent
      (s.tasks (s.current c)).id

structure Exited (s s' : State) (t : Slot) (waitStatus : Nat) (i : Slot) : Prop where
  id : (s'.tasks i).id = (s.tasks i).id
  tgid : (s'.tasks i).tgid = (s.tasks i).tgid
  building : (s'.tasks i).building = (s.tasks i).building
  inCall : (s'.tasks i).inCall = (s.tasks i).inCall
  parentId : (s'.tasks i).parentId =
    if (s.tasks i).id ≠ 0 ∧ (s.tasks i).parentId = (s.tasks t).id then (s.tasks 0).id else (s.tasks i).parentId
  self : i = t → (s'.tasks i).state = .dead ∧ (s'.tasks i).waitPending = true ∧ (s'.tasks i).waitStatus = waitStatus
  other : i ≠ t → (s'.tasks i).state = (s.tasks i).state ∧ (s'.tasks i).waitPending = (s.tasks i).waitPending ∧
    (s'.tasks i).waitStatus = (s.tasks i).waitStatus

theorem exitMark_exited (s : State) (c waitStatus waitCode : Nat) (i : Slot) :
    Exited s (s.exitMark c waitStatus waitCode) (s.current c) waitStatus i := by
  generalize ht : s.current c = t
  have htask : ∀ j, (((s.markYielding c).modTask t fun task =>
      { task with state := .dead, waitStatus := waitStatus, waitCode := waitCode, waitPending := true }).tasks j) =
      if j = t then
        { s.tasks t with state := .dead, waitStatus := waitStatus, waitCode := waitCode, waitPending := true }
      else s.tasks j := by
    intro j
    by_cases hj : j = t
    · subst hj
      rw [modTask_tasks_self, if_pos rfl]
      rfl
    · rw [modTask_tasks_ne hj, if_neg hj]
      rfl
  have hid : ∀ j, (if j = t then
        { s.tasks t with state := .dead, waitStatus := waitStatus, waitCode := waitCode, waitPending := true }
      else s.tasks j).id = (s.tasks j).id := by
    intro j
    split
    · rename_i hj
      rw [hj]
    · rfl
  have hexit : (s.exitMark c waitStatus waitCode).tasks i =
      if (s.tasks i).id ≠ 0 ∧ (s.tasks i).parentId = (s.tasks t).id then
        { (if i = t then
            { s.tasks t with state := .dead, waitStatus := waitStatus, waitCode := waitCode, waitPending := true }
          else s.tasks i) with parentId := (s.tasks 0).id }
      else if i = t then
        { s.tasks t with state := .dead, waitStatus := waitStatus, waitCode := waitCode, waitPending := true }
      else s.tasks i := by
    have hparent : (if i = t then
          { s.tasks t with state := .dead, waitStatus := waitStatus, waitCode := waitCode, waitPending := true }
        else s.tasks i).parentId = (s.tasks i).parentId := by
      split
      · rename_i hi
        rw [hi]
      · rfl
    unfold State.exitMark State.reparent
    rw [ht]
    dsimp only
    rw [htask i, htask 0, hid i, hid 0, hparent]
  constructor
  · rw [hexit]
    split
    · exact hid i
    · exact hid i
  · rw [hexit]
    split <;> split <;> simp_all
  · rw [hexit]
    split <;> split <;> simp_all
  · rw [hexit]
    split <;> split <;> simp_all
  · rw [hexit]
    split <;> split <;> simp_all
  · rintro rfl
    rw [hexit]
    simp only [if_true]
    split <;> exact ⟨rfl, rfl, rfl⟩
  · intro hi
    rw [hexit]
    simp only [if_neg hi]
    split <;> exact ⟨rfl, rfl, rfl⟩

theorem schedFrame_taskExit (s : State) (c waitStatus waitCode : Nat) :
    SchedFrame (s.exitMark c waitStatus waitCode) (s.taskExit c waitStatus waitCode) := by
  have hself : (((s.markYielding c).modTask (s.current c) fun task =>
      { task with state := .dead, waitStatus := waitStatus, waitCode := waitCode, waitPending := true }).tasks
        (s.current c)).id = (s.tasks (s.current c)).id := by
    simp [State.markYielding, State.modCpu]
  unfold State.taskExit
  dsimp only
  rw [hself]
  exact (SchedFrame.refl _).taskWakeParentWaiter _

theorem schedFrame_call {op : Op} (hcreate : ∀ c stack, op ≠ .taskCreate c stack)
    (hexit : ∀ c ws wc, op ≠ .taskExit c ws wc) :
    SchedFrame s (s.call op) := by
  have hyield : ∀ c, SchedFrame s (s.markYielding c) := fun c => (SchedFrame.refl s).modCpu c _
  cases op with
  | taskCreate c stack => exact absurd rfl (hcreate c stack)
  | taskExit c waitStatus waitCode => exact absurd rfl (hexit c waitStatus waitCode)
  | schedule c => exact (SchedFrame.refl s).schedule c
  | taskYield c => exact ((SchedFrame.refl s).modCpu c _).schedule c
  | taskBlock c =>
    unfold State.call State.taskBlock
    dsimp only
    split
    · exact (hyield c).setState _ (by decide)
    · exact (hyield c).setWait _ _ (by decide)
  | taskBlockWithTimeout c wakeTick =>
    unfold State.call State.taskBlockWithTimeout
    dsimp only
    split
    · exact (hyield c).setState _ (by decide)
    · apply SchedFrame.enqueueSleep
      exact (hyield c).setWait _ _ (by decide)
  | taskSleep c ms now =>
    unfold State.call State.taskSleep
    apply SchedFrame.enqueueSleep
    exact (hyield c).setWait _ _ (by decide)
  | taskWakeup t => exact (SchedFrame.refl s).taskWakeup t
  | taskWakeExpired tick => exact SchedFrame.wakeExpiredLoop tick MAX_TASKS _ s

end EterOS.Sched
