import EterOS.Sched.LifeInv
/-!
# Stopped — what makes a stopped task run again

Only SIGCONT and SIGKILL should (`Resumes`).  But `task_wakeup` has a branch of its own for a stopped task, and every sender
of a signal calls it; `task_wake_parent_waiter` takes a stopped parent for a waiting one; and `schedule` makes whatever it
falls back to RUNNING.  `Wakes` lists these; the timer is not among them, since a stopped task is never on the sleep list.
-/
namespace EterOS.Sched

open Function (update update_self update_of_ne)

variable {s s' : State} {q : Nat → List Slot} {l : List Slot} {t u k : Slot} {c : Nat}

def State.Stopped (s : State) (t : Slot) : Prop :=
  (s.tasks t).state = .stopped ∧ ∃ q, s.ready.Rep q ∧ ∀ c, t ∉ q c

/-- The step delivers SIGCONT or SIGKILL to task `t`. -/
def State.Resumes (s : State) : LifeOp → Slot → Bool
  | .taskKill _ pid, t => pid != 0 && s.killScan.contains t && (s.tasks t).tgid == pid
  | .wakeFor u sig, t => u == t && (sig == SIGCONT || sig == SIGKILL)
  | _, _ => false

/-- The parent `task_exit_internal` looks for: the exiting task's own, which is its children's new one if it is its own
parent. -/
def State.exitParent (s : State) (c : Nat) : Nat :=
  let task := s.tasks (s.current c)
  if task.id ≠ 0 ∧ task.parentId = task.id then (s.tasks 0).id else task.parentId

/-- `schedule` on CPU `c` finds nothing to run and falls back to task `t`. -/
def State.fallsTo (s : State) (c : Nat) (t : Slot) : Bool :=
  (s.findNextTask c (s.current c)).isNone && s.fallback c == t && s.current c != t

/-- The step takes the stopped task `t` for one that waits, or for one that can run. -/
def State.Wakes (s : State) (op : LifeOp) (t : Slot) : Bool :=
  s.mayLife op && match op with
    | .proc (.sched (.taskWakeup u)) | .wakeFor u _ => u == t
    | .proc (.sched (.taskExit c _ _)) => (s.tasks t).id == s.exitParent c
    | .proc (.sched (.schedule c)) | .proc (.sched (.taskYield c)) => s.fallsTo c t
    | _ => false

/-! ## Waking -/

theorem wake_tasks : (s.wake u).tasks = update s.tasks u { s.tasks u with state := .ready } := by
  unfold State.wake
  dsimp only
  split <;> rfl

theorem wake_ne (hu : t ≠ u) : (s.wake u).tasks t = s.tasks t := by
  rw [wake_tasks, update_of_ne hu]

theorem taskWakeup_ne (hu : t ≠ u) : (s.taskWakeup u).tasks t = s.tasks t := by
  unfold State.taskWakeup
  have hfirst : (if (s.tasks u).state = .blocked ∨ (s.tasks u).state = .sleeping then s.wake u else s).tasks t =
      s.tasks t := by
    split
    · exact wake_ne hu
    · rfl
  dsimp only
  generalize (if (s.tasks u).state = .blocked ∨ (s.tasks u).state = .sleeping then s.wake u else s) = s1 at hfirst ⊢
  rw [← hfirst]
  split
  · split
    · exact update_of_ne hu _ _
    · exact update_of_ne hu _ _
  · rfl

theorem taskWakeup_stopped (ht : (s.tasks t).state = .stopped) : ((s.taskWakeup t).tasks t).state = .ready := by
  have hnot : ¬((s.tasks t).state = .blocked ∨ (s.tasks t).state = .sleeping) := by simp [ht]
  unfold State.taskWakeup
  simp only [if_neg hnot, if_pos ht]
  split <;> simp [State.enqueueReady]

theorem wakeExpired_ne (tick : Nat) : ∀ (fuel : Nat) {s : State} {q : Nat → List Slot} {l : List Slot}, Inv s q l →
    t ∉ l → (State.wakeExpiredLoop tick fuel s.sleep.sleepHead s).tasks t = s.tasks t
  | 0, _, _, _, _, _ => rfl
  | fuel + 1, s, q, [], h, _ => by
    rw [h.sleep.head]
    rfl
  | fuel + 1, s, q, a :: l, h, ht => by
    have hnext : s.sleep.nextSleep a = l.head? := (show Dll.Linked _ _ ([] ++ a :: l) from h.sleep.linked).at_mid.2
    rw [h.sleep.head, List.head?_cons, State.wakeExpiredLoop]
    by_cases hd : (s.tasks a).wakeTick ≤ tick
    · have hr : s.runnable a = false := by
        rcases ((h.task a).sleeper List.mem_cons_self).2 with hs | hs <;> simp [State.runnable, hs]
      obtain ⟨q1, h1⟩ := h.wake (h.used_of_not_runnable hr) hr
      rw [List.erase_cons_head] at h1
      have ih := wakeExpired_ne tick fuel h1 fun hl => ht (List.mem_cons_of_mem _ hl)
      rw [h1.sleep.head] at ih
      rw [if_pos hd, hnext, ih]
      exact wake_ne fun he => ht (he ▸ List.mem_cons_self)
    · rw [if_neg hd]

theorem taskWakeExpired_ne {tick : Nat} (h : Inv s.settled q l) (ht : t ∉ l) :
    (s.taskWakeExpired tick).tasks t = s.tasks t := by
  have hloop := wakeExpired_ne tick MAX_TASKS h ht
  rw [State.settled, wakeExpiredLoop_withBitmap] at hloop
  exact hloop

theorem wakeParentWaiter_state (id : Nat) : ∀ (is : List Slot) (s : State),
    ((is.foldl (fun s i => if s.isWaiter id i then s.wake i else s) s).tasks t).state =
      if t ∈ is ∧ s.isWaiter id t = true then .ready else (s.tasks t).state
  | [], s => by simp
  | i :: is, s => by
    rw [List.foldl_cons, wakeParentWaiter_state id is]
    by_cases hit : i = t
    · subst hit
      by_cases hw : s.isWaiter id i = true
      · have hready : ((s.wake i).tasks i).state = .ready := by rw [wake_tasks, update_self]
        have hnot : (s.wake i).isWaiter id i = false := by simp [State.isWaiter, hready]
        simp [hw, hnot, hready]
      · simp [hw]
    · have hsame : (if s.isWaiter id i = true then s.wake i else s).tasks t = s.tasks t := by
        split
        · exact wake_ne (Ne.symm hit)
        · rfl
      have hwaiter : ∀ s1 : State, s1.tasks t = s.tasks t → s1.isWaiter id t = s.isWaiter id t := fun s1 he => by
        unfold State.isWaiter
        rw [he]
      rw [hwaiter _ hsame, hsame]
      simp [Ne.symm hit]

theorem isWaiter_stopped {id : Nat} (ht : (s.tasks t).state = .stopped) : s.isWaiter id t = ((s.tasks t).id == id) := by
  simp [State.isWaiter, ht]

theorem taskExit_stopped {ws wc : Nat} (hcur : s.current c ≠ t) (ht : (s.tasks t).state = .stopped) :
    ((s.taskExit c ws wc).tasks t).state = if (s.tasks t).id == s.exitParent c then .ready else .stopped := by
  have hx := exitMark_exited s c ws wc
  have hself : (((s.markYielding c).modTask (s.current c) fun task =>
      { task with state := .dead, waitStatus := ws, waitCode := wc, waitPending := true }).tasks (s.current c)).id =
        (s.tasks (s.current c)).id := by
    simp [State.markYielding, State.modCpu]
  have hmark : s.taskExit c ws wc = (s.exitMark c ws wc).taskWakeParentWaiter
      ((s.exitMark c ws wc).tasks (s.current c)).parentId := by
    unfold State.taskExit
    dsimp only
    rw [hself]
    rfl
  have hstate := ((hx t).other (Ne.symm hcur)).1
  have hparent : ((s.exitMark c ws wc).tasks (s.current c)).parentId = s.exitParent c := (hx (s.current c)).parentId
  rw [hmark, hparent]
  unfold State.taskWakeParentWaiter
  rw [wakeParentWaiter_state, isWaiter_stopped (hstate.trans ht), (hx t).id, hstate, ht]
  simp

/-! ## Switching -/

theorem resume_stopped (ht : (s.tasks t).state = .stopped) : ((s.resume u).tasks t).state = .stopped := by
  unfold State.resume
  by_cases hu : t = u
  · subst hu
    simp [ht, State.dequeueSleep]
  · dsimp only
    split <;> simp [State.dequeueSleep, State.dequeueReady, State.modTask, update_of_ne hu, ht]

theorem putBack_stopped (ht : (s.tasks t).state = .stopped) : ((s.putBack u).tasks t).state = .stopped := by
  unfold State.putBack
  split
  · rename_i hr
    have hu : t ≠ u := by
      rintro rfl
      simp [State.runnable, ht] at hr
    exact (congrArg Task.state (update_of_ne hu _ _)).trans ht
  · exact ht

theorem switchTo_state : ((s.switchTo c u).tasks t).state = if u = t then .running else (s.tasks t).state := by
  unfold State.switchTo
  by_cases hu : u = t
  · subst hu
    simp [State.modCpu, State.dequeueSleep]
  · have htu : t ≠ u := Ne.symm hu
    dsimp only
    split <;> simp [State.modCpu, State.dequeueSleep, State.dequeueReady, State.modTask, update_of_ne htu]

/-- What `schedule` does to a stopped task that is in no queue: nothing, unless it falls back to it. -/
theorem schedule_stopped (hready : s.ready.Rep q) (hq : ∀ c, t ∉ q c) (ht : (s.tasks t).state = .stopped) :
    ((s.schedule c).tasks t).state = if s.fallsTo c t then .running else .stopped := by
  have hcur : (s.modCpu c fun cpu => { cpu with yielding := false }).current c = s.current c := by
    simp [State.current]
  have hfb : (s.modCpu c fun cpu => { cpu with yielding := false }).fallback c = s.fallback c := by
    simp [State.fallback]
  have hfind : ∀ u, (s.modCpu c fun cpu => { cpu with yielding := false }).findNextTask c u = s.findNextTask c u :=
    fun _ => rfl
  have hrun : ∀ u, (s.modCpu c fun cpu => { cpu with yielding := false }).runnable u = s.runnable u := fun _ => rfl
  have hsome : ∀ n, s.findNextTask c (s.current c) = some n → n ≠ t := by
    rintro n hn rfl
    unfold State.findNextTask at hn
    rw [hready.head] at hn
    cases hhead : (q c).head? with
    | some a =>
      rw [hhead] at hn
      obtain rfl : a = n := Option.some.inj hn
      exact hq c (List.mem_of_mem_head? hhead)
    | none =>
      rw [hhead] at hn
      dsimp only at hn
      split at hn
      · rename_i hr
        rw [Option.some.inj hn] at hr
        simp [State.runnable, ht] at hr
      · cases hn
  -- the incoming task is the stopped one only when it is fallen back to
  have hnone : (s.findNextTask c (s.current c)).getD (s.fallback c) = t → s.findNextTask c (s.current c) = none := by
    intro hn
    cases hf : s.findNextTask c (s.current c) with
    | some n =>
      rw [hf] at hn
      exact absurd hn (hsome n hf)
    | none => rfl
  have hnext : s.fallsTo c t = true ↔ (s.findNextTask c (s.current c)).getD (s.fallback c) = t ∧ s.current c ≠ t := by
    unfold State.fallsTo
    cases hn : s.findNextTask c (s.current c) with
    | some n => simp [hsome n hn]
    | none => simp
  unfold State.schedule
  dsimp only
  rw [hcur, hfb, hfind, hrun]
  split
  · rename_i he
    have hno : ¬ s.fallsTo c t = true := fun hf => (hnext.1 hf).2 (he.symm.trans (hnext.1 hf).1)
    rw [if_neg hno]
    exact resume_stopped ht
  · rename_i hne
    split
    · rename_i hr
      have hno : ¬ s.fallsTo c t = true := by
        intro hf
        have hfind := hnone (hnext.1 hf).1
        simp only [Bool.and_eq_true] at hr
        unfold State.findNextTask at hfind
        rw [if_pos hr.1] at hfind
        split at hfind <;> cases hfind
      rw [if_neg hno]
      exact ht
    · rw [switchTo_state]
      by_cases hn : (s.findNextTask c (s.current c)).getD (s.fallback c) = t
      · rw [if_pos hn, if_pos (hnext.2 ⟨hn, fun he => hne (hn.trans he.symm)⟩)]
      · rw [if_neg hn, if_neg fun hf => hn (hnext.1 hf).1]
        exact putBack_stopped ht

/-! ## The steps that leave a task's state alone -/

theorem modTask_state {f : Task → Task} (hf : ∀ a, (f a).state = a.state) :
    ((s.modTask u f).tasks t).state = (s.tasks t).state := by
  by_cases hu : t = u
  · subst hu
    rw [modTask_tasks_self, hf]
  · rw [modTask_tasks_ne hu]

theorem FreeSlot.ne_of_alive (hf : FreeSlot s s' k) (hused : s.taskBitmap t = true) (halive : (s.tasks t).state ≠ .dead) :
    t ≠ k := by
  rintro rfl
  rcases hf.free with hb | hr
  · rw [hused] at hb
    cases hb
  · exact halive (reapable_spec hr).1

theorem taskCreate_other (hused : s.taskBitmap t = true) (halive : (s.tasks t).state ≠ .dead) (stack : Bool) :
    (s.taskCreate c stack).tasks t = s.tasks t := by
  unfold State.taskCreate
  split
  · rfl
  · split
    · rename_i hf
      rw [findFreeSlot_none hf]
    · rename_i s' k hfind
      have hf := findFreeSlot_some hfind
      have hne := hf.ne_of_alive hused halive
      split
      · exact (hf.other t hne).2
      · exact (update_of_ne hne _ _).trans (hf.other t hne).2

theorem newChild_other (hused : s.taskBitmap t = true) (halive : (s.tasks t).state ≠ .dead) {tgid pgid : Option Nat}
    {stack : Bool} {child : Option Slot} (hn : s.newChild c tgid pgid stack = (s', child)) :
    s'.tasks t = s.tasks t := by
  unfold State.newChild at hn
  split at hn
  · cases hn
    rfl
  · split at hn
    · rename_i hf
      cases hn
      rw [findFreeSlot_none hf]
    · rename_i s1 k hfind
      have hf := findFreeSlot_some hfind
      have hne := hf.ne_of_alive hused halive
      split at hn
      · cases hn
        exact (hf.other t hne).2
      · cases hn
        exact (update_of_ne hne _ _).trans (hf.other t hne).2

theorem finishChild_ne {pgid cr3 : Nat} (hk : t ≠ k) : (s.finishChild k pgid cr3).tasks t = s.tasks t := update_of_ne hk _ _

theorem waitStep_state {target event : Slot → Bool} {options : BitVec 32} (halive : (s.tasks t).state ≠ .dead) :
    ((s.waitStep c target event options).1.tasks t).state = (s.tasks t).state := by
  unfold State.waitStep
  split
  · rename_i i _
    dsimp only
    split
    · rfl
    · split
      · rfl
      · split
        · rename_i hdead
          have hne : t ≠ i := by
            rintro rfl
            exact halive hdead
          rw [((taskReapZombieLocked_frame (s := s) (t := i)).1 t hne).2]
        · have hmod : ((s.modTask i fun t => { t with waitPending := false, waitCode := 0 }).tasks t).state =
              (s.tasks t).state := modTask_state fun _ => rfl
          exact hmod
  · split
    · rfl
    · split <;> rfl

theorem loadCr3_state {cr3 : Nat} : ((s.loadCr3 c cr3).tasks t).state = (s.tasks t).state :=
  modTask_state (f := fun t => { t with cr3 := cr3 }) fun _ => rfl

theorem vmmDestroyPml4_tasks {cr3 : Nat} : (s.vmmDestroyPml4 u cr3).tasks = s.tasks := by
  unfold State.vmmDestroyPml4
  split <;> rfl

theorem execReturn_state {loaded : Bool} : ((s.execReturn c loaded).tasks t).state = (s.tasks t).state := by
  have hcall : ((s.modTask (s.current c) fun task => { task with inCall := .none }).tasks t).state =
      (s.tasks t).state := modTask_state fun _ => rfl
  unfold State.execReturn
  dsimp only
  split
  · split
    · rw [vmmDestroyPml4_tasks]
      exact hcall
    · rw [vmmDestroyPml4_tasks, loadCr3_state]
      exact hcall
  · rfl

theorem sysKill_state {sig : Nat} : (((s.sigMark u sig).contMark u sig).tasks t).state = (s.tasks t).state := by
  have hmark : ((s.sigMark u sig).tasks t).state = (s.tasks t).state := modTask_state fun _ => rfl
  unfold State.contMark
  split
  · refine (modTask_state ?_).trans hmark
    exact fun _ => rfl
  · exact hmark

theorem killOne_other {pid : Nat} {i : Slot} (ht : t ≠ i ∨ (s.tasks t).tgid ≠ pid) :
    (State.killOne pid s i).tasks t = s.tasks t := by
  unfold State.killOne
  split
  · rename_i hi
    have hne : t ≠ i := by
      rcases ht with ht | ht
      · exact ht
      · rintro rfl
        exact ht hi.1
    have hmod : ((s.modTask i fun task => { task with
        signalPending := task.signalPending ||| BitVec.twoPow 32 SIGKILL }).tasks t) = s.tasks t := modTask_tasks_ne hne
    dsimp only
    split
    · rw [wake_ne hne, hmod]
    · exact hmod
  · rfl

theorem taskKill_other {pid : Nat} (ht : s.Resumes (.taskKill c pid) t = false) : (s.taskKill pid).tasks t = s.tasks t := by
  have hfold : ∀ (is : List Slot) (s : State), (t ∉ is ∨ (s.tasks t).tgid ≠ pid) →
      (is.foldl (State.killOne pid) s).tasks t = s.tasks t := by
    intro is
    induction is with
    | nil => exact fun _ _ => rfl
    | cons i is ih =>
      intro s ht
      have hi : t ≠ i ∨ (s.tasks t).tgid ≠ pid := ht.imp_left fun hn => List.ne_of_not_mem_cons hn
      have hsame := killOne_other (s := s) (i := i) hi
      rw [List.foldl_cons, ih _ (by rw [hsame]; exact ht.imp_left fun hn => List.not_mem_of_not_mem_cons hn), hsame]
  unfold State.taskKill
  split
  · rfl
  · rename_i hpid
    refine hfold _ s ?_
    by_contra hn
    push Not at hn
    simp [State.Resumes, hpid, hn.1, hn.2] at ht

/-! ## One step -/

/-- **One step**: a stopped task stays stopped just when the step is none of those that wake it. -/
theorem LifeInv.stopped_iff (h : LifeInv s q l) {op : LifeOp} (hm : LifeMet s op = true)
    (ht : (s.tasks t).state = .stopped) (hres : s.Resumes op t = false) :
    ((lifeStep s op).tasks t).state = .stopped ↔ s.Wakes op t = false := by
  have hused : s.taskBitmap t = true := by
    by_contra hn
    have := (h.queues.task t).unused (by simp [State.settled, State.withBitmap, State.live, hn])
    simp [State.settled, State.withBitmap, ht] at this
  have halive : (s.tasks t).state ≠ .dead := by simp [ht]
  have hnq : ∀ c, t ∉ q c := h.queues.not_queued_of_state (by simp [State.settled, State.withBitmap, ht])
  have hnl : t ∉ l := fun hl => by
    rcases ((h.queues.task t).sleeper hl).2 with hs | hs <;> simp [State.settled, State.withBitmap, ht] at hs
  have hnotBuilding : ∀ k, (s.tasks k).building = true → t ≠ k := by
    rintro k hk rfl
    rw [h.building_ready hk] at ht
    cases ht
  have hcurrent : ∀ c, (s.cpus c).yielding = false → (s.cpus c).currentTask.isSome = true → s.current c ≠ t := by
    intro c hy hc he
    obtain ⟨u, hu⟩ := Option.isSome_iff_exists.1 hc
    rw [current_eq hu] at he
    subst he
    have hr : s.runnable u = true := ((h.queues.task u).current c hu).2.2 hy
    simp [State.runnable, ht] at hr
  unfold lifeStep
  by_cases hmay : s.mayLife op = true
  swap
  · simp [State.Wakes, hmay, ht]
  rw [if_pos hmay]
  -- a step that is not among those of `Wakes` has only to leave the state alone
  have stay : ∀ {b : Bool}, b = false → ((s.callLife op).tasks t).state = .stopped →
      (((s.callLife op).tasks t).state = .stopped ↔ b = false) := fun hb hs => by simp [hb, hs]
  have decided : ∀ (st : TaskState) {b : Bool},
    st ≠ .stopped → ((s.callLife op).tasks t).state = (if b = true then st else .stopped) →
      (((s.callLife op).tasks t).state = .stopped ↔ b = false) := by
    intro st b hst hs
    rw [hs]
    cases b <;> simp [hst]
  cases op with
  | proc op =>
    cases op with
    | sched op =>
      cases op with
      | taskCreate c stack =>
        exact stay (by simp [State.Wakes]) ((congrArg Task.state (taskCreate_other hused halive stack)).trans ht)
      | schedule c =>
        exact decided .running (by decide)
          ((schedule_stopped (s := s) h.queues.ready hnq ht).trans (by simp [State.Wakes, hmay]))
      | taskYield c =>
        have hfalls : (s.modCpu c fun cpu => { cpu with schedTicks := SCHEDULER_HZ }).fallsTo c t = s.fallsTo c t := by
          simp [State.fallsTo, State.current, State.fallback, State.findNextTask, State.runnable, State.modCpu]
        refine decided .running (by decide)
          ((schedule_stopped (s := s.modCpu c fun cpu => { cpu with schedTicks := SCHEDULER_HZ }) h.queues.ready hnq
            ht).trans ?_)
        rw [hfalls]
        simp [State.Wakes, hmay]
      | taskBlock c =>
        simp only [State.mayLife, State.mayCallProc, State.mayCall, Bool.and_eq_true, Bool.not_eq_true'] at hmay
        have hne := Ne.symm (hcurrent c hmay.1.2 hm)
        refine stay (by simp [State.Wakes]) ?_
        unfold State.callLife State.callProc State.call State.taskBlock
        dsimp only
        split <;> rw [modTask_tasks_ne hne] <;> exact ht
      | taskBlockWithTimeout c wakeTick =>
        simp only [State.mayLife, State.mayCallProc, State.mayCall, Bool.and_eq_true, Bool.not_eq_true'] at hmay
        have hne := Ne.symm (hcurrent c hmay.1.2 hm)
        refine stay (by simp [State.Wakes]) ?_
        unfold State.callLife State.callProc State.call State.taskBlockWithTimeout
        dsimp only
        split
        · rw [modTask_tasks_ne hne]; exact ht
        · exact (congrArg Task.state (update_of_ne hne _ _)).trans ht
      | taskSleep c ms now =>
        simp only [State.mayLife, State.mayCallProc, State.mayCall, Bool.and_eq_true, Bool.not_eq_true'] at hmay
        have hne := Ne.symm (hcurrent c hmay.1.2 hm)
        exact stay (by simp [State.Wakes]) ((congrArg Task.state (update_of_ne hne _ _)).trans ht)
      | taskExit c ws wc =>
        have hmay' := hmay
        simp only [State.mayLife, State.mayCallProc, State.mayCall, Bool.and_eq_true, Bool.not_eq_true'] at hmay'
        have hne := hcurrent c hmay'.1.2 hm
        have hcall : s.callLife (.proc (.sched (.taskExit c ws wc))) = s.taskExit c ws wc := rfl
        refine decided .ready (by decide) ?_
        rw [hcall, taskExit_stopped hne ht]
        simp [State.Wakes, hmay]
      | taskWakeup u =>
        refine decided .ready (by decide) ?_
        by_cases hu : u = t
        · subst hu
          rw [if_pos (by simp [State.Wakes, hmay])]
          exact taskWakeup_stopped ht
        · rw [if_neg (by simp [State.Wakes, hu])]
          exact (congrArg Task.state (taskWakeup_ne (Ne.symm hu))).trans ht
      | taskWakeExpired tick =>
        have hcall : s.callLife (.proc (.sched (.taskWakeExpired tick))) = s.taskWakeExpired tick := rfl
        refine stay (by simp [State.Wakes]) ?_
        rw [hcall, taskWakeExpired_ne h.queues hnl]
        exact ht
    | taskFork c stack =>
      refine stay (by simp [State.Wakes]) ?_
      unfold State.callLife State.callProc State.taskFork
      dsimp only
      split
      · rw [newChild_other hused halive ‹_›]; exact ht
      · refine (modTask_state ?_).trans (newChild_other hused halive ‹_› ▸ ht)
        exact fun _ => rfl
    | taskClone c flags stack =>
      refine stay (by simp [State.Wakes]) ?_
      unfold State.callLife State.callProc State.taskClone
      dsimp only
      split
      · rw [newChild_other hused halive ‹_›]; exact ht
      · rename_i s' k hn
        have hsame := newChild_other hused halive hn
        split
        · obtain ⟨h', hk⟩ := h.newChild hn
          have hne : t ≠ k := by
            rintro rfl
            have := h'.building_ready (hk t rfl).1
            rw [hsame, ht] at this
            cases this
          rw [finishChild_ne hne, hsame]; exact ht
        · refine (modTask_state ?_).trans (hsame ▸ ht)
          exact fun _ => rfl
    | forkReturn c childCr3 =>
      simp only [State.mayLife, State.mayCallProc, Bool.and_eq_true] at hmay
      refine stay (by simp [State.Wakes]) ?_
      unfold State.callLife State.callProc State.forkReturn
      dsimp only
      split
      · rename_i k hcall
        have hne := hnotBuilding k (h.forking _ k (caller_spec hmay.1.1).2 hcall)
        refine (modTask_state ?_).trans ?_
        · exact fun _ => rfl
        rw [finishChild_ne hne]
        split <;> exact ht
      · exact ht
    | taskExec c newCr3 =>
      refine stay (by simp [State.Wakes]) ?_
      unfold State.callLife State.callProc State.taskExec
      dsimp only
      refine (modTask_state ?_).trans (loadCr3_state.trans ht)
      exact fun _ => rfl
    | execReturn c loaded => exact stay (by simp [State.Wakes]) (execReturn_state.trans ht)
    | taskSetupPrivatePml4 c newCr3 => exact stay (by simp [State.Wakes]) (loadCr3_state.trans ht)
    | taskWaitpid c pid options => exact stay (by simp [State.Wakes]) ((waitStep_state halive).trans ht)
    | taskWaitid c idtype id options =>
      refine stay (by simp [State.Wakes]) ?_
      unfold State.callLife State.callProc State.taskWaitid
      dsimp only
      split
      · exact ht
      · split
        · exact ht
        · exact (waitStep_state halive).trans ht
  | taskKill c pid =>
    exact stay (by simp [State.Wakes]) ((congrArg Task.state (taskKill_other hres)).trans ht)
  | sysKill u sig => exact stay (by simp [State.Wakes]) (sysKill_state.trans ht)
  | devSignal u sig =>
    have hmark : ((s.sigMark u sig).tasks t).state = (s.tasks t).state := modTask_state fun _ => rfl
    exact stay (by simp [State.Wakes]) (hmark.trans ht)
  | wakeFor u sig =>
    refine decided .ready (by decide) ?_
    by_cases hu : u = t
    · subst hu
      rw [if_pos (by simp [State.Wakes, State.mayLife])]
      exact taskWakeup_stopped ht
    · rw [if_neg (by simp [State.Wakes, hu])]
      exact (congrArg Task.state (taskWakeup_ne (Ne.symm hu))).trans ht
  | taskStopSignal c sig =>
    simp only [State.mayLife, Bool.and_eq_true, Bool.not_eq_true'] at hmay
    have hne := Ne.symm (hcurrent c hmay.1.2 hm)
    exact stay (by simp [State.Wakes]) ((congrArg Task.state (update_of_ne hne _ _)).trans ht)

/-! ## Runs -/

theorem LifeInv.stopped (h : LifeInv s q l) (ht : (s.tasks t).state = .stopped) : s.Stopped t :=
  ⟨ht, q, h.queues.ready, h.queues.not_queued_of_state (by simp [State.settled, State.withBitmap, ht])⟩

/-- **Stopped tasks stay stopped** and out of the queues over a step that delivers neither SIGCONT nor SIGKILL to them just
when the step is none of those of `Wakes`; in every run from boot whose steps meet the condition of the queues. -/
theorem stopped_stay_stopped_iff (n : Fin MAX_CPUS) (up : Nat → Bool) (pml4 : Nat) (ops : List LifeOp)
    (hmet : Run.Guarded lifeStep (fun s op => LifeMet s op = true) (State.boot (n.val + 1) up pml4) ops) :
    Run.Guarded lifeStep (fun s op => ∀ t, (s.tasks t).state = .stopped → s.Resumes op t = false →
      ((lifeStep s op).Stopped t ↔ s.Wakes op t = false)) (State.boot (n.val + 1) up pml4) ops := by
  refine Run.guarded_imp (P := fun s => ∃ q l, LifeInv s q l) (fun s op hs hm => ?_) ops _
    (boot_lifeInv (n.val + 1) (Nat.succ_pos _) n.isLt up pml4) hmet
  obtain ⟨q, l, h⟩ := hs
  obtain ⟨q', l', h'⟩ := h.step hm
  refine ⟨⟨q', l', h'⟩, fun t ht hres => ?_⟩
  rw [← h.stopped_iff hm ht hres]
  exact ⟨fun hs => hs.1, h'.stopped⟩

def stopOps : List LifeOp :=
  [.proc (.sched (.taskCreate 0 true)), .proc (.sched (.taskYield 0)), .taskStopSignal 0 19, .proc (.sched (.schedule 0)),
    .proc (.sched (.taskWakeExpired 7)), .sysKill 1 18, .wakeFor 1 18, .proc (.sched (.taskYield 0))]

theorem stopped_stay_stopped_cont :
    Run.Guarded lifeStep (fun s op => LifeMet s op = true) (State.boot 1 (fun _ => false) 1) stopOps ∧
    Run.Guarded lifeStep (fun s op => ∀ t, (s.tasks t).state = .stopped → s.Resumes op t = false →
      ((lifeStep s op).Stopped t ↔ s.Wakes op t = false)) (State.boot 1 (fun _ => false) 1) stopOps := by
  have hmet : Run.Guarded lifeStep (fun s op => LifeMet s op = true) (State.boot 1 (fun _ => false) 1) stopOps := by
    simp only [stopOps, Run.Guarded]
    decide +kernel
  exact ⟨hmet, stopped_stay_stopped_iff ⟨0, by decide⟩ (fun _ => false) 1 stopOps hmet⟩

/-- A task stops; task 0 sends it SIGUSR1. -/
theorem signal_wakes_stopped :
    ¬ ∀ (n : Fin MAX_CPUS) (up : Nat → Bool) (pml4 : Nat) (ops : List LifeOp),
      Run.Guarded lifeStep (fun s op => ∀ t, (s.tasks t).state = .stopped → s.Resumes op t = false →
        (lifeStep s op).Stopped t) (State.boot (n.val + 1) up pml4) ops := by
  intro hall
  have hg := hall ⟨0, by decide⟩ (fun _ => false) 1
    ([.proc (.sched (.taskCreate 0 true)), .proc (.sched (.taskYield 0)), .taskStopSignal 0 19,
      .proc (.sched (.schedule 0)), .sysKill 1 10] ++ [.wakeFor 1 10])
  obtain ⟨-, hlast, -⟩ := Run.guarded_append.1 hg
  have hstop := hlast 1 (by decide +kernel) (by decide +kernel)
  exact absurd hstop.1 (by decide +kernel)

/-- The exit of a child wakes its stopped parent just the same. -/
example : ((List.foldl lifeStep (State.boot 1 (fun _ => false) 1)
    [.proc (.sched (.taskCreate 0 true)), .proc (.sched (.taskYield 0)), .proc (.taskFork 0 true), .proc (.forkReturn 0 3),
      .taskStopSignal 0 19, .proc (.sched (.schedule 0)), .proc (.sched (.taskYield 0)),
      .proc (.sched (.taskExit 0 0 1))]).tasks 1).state = .ready := by
  decide +kernel

end EterOS.Sched
