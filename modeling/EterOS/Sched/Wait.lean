import EterOS.Sched.AddressSpace
/-!
# Wait — `task_waitpid` against `task_waitid`

Two loops choose among the same children: `task_is_wait_target` by ids and thread groups, `task_waitid` by ids and process
groups.  When they take the same ones, over a whole call, with whatever happens to the tasks while it sleeps.
-/
namespace EterOS.Sched
namespace State

variable {s : State} {c : Nat} {pid : Int} {options : BitVec 32} {target target' event event' : Slot → Bool}

/-! ## The turn of the loop -/

/-- `idtype` and `id` of `task_waitid` for a `pid` of `task_waitpid`. -/
def selector (pid : Int) : Int × Int :=
  if 0 < pid then (P_PID, pid) else if pid = -1 then (P_ALL, 0) else if pid = 0 then (P_PGID, 0) else (P_PGID, -pid)

/-- `task_waitid` as `task_waitpid` is called: it reports exits, too. -/
def taskWaitidAs (s : State) (c : Nat) (pid : Int) (options : BitVec 32) : State × WaitResult :=
  s.taskWaitid c (selector pid).1 (selector pid).2 (options ||| WEXITED)

/-- A child that `task_waitpid` considers; with `__WALL` also a thread. -/
def waitpidConsiders (s : State) (c : Nat) (pid : Int) (options : BitVec 32) (i : Slot) : Bool :=
  s.waitable c i && s.waitpidTarget c pid options i

def waitidConsiders (s : State) (c : Nat) (pid : Int) (options : BitVec 32) (i : Slot) : Bool :=
  s.waitable c i && s.waitidTarget c (selector pid).1 (selector pid).2 (options ||| WEXITED) i

/-- **The process groups are the thread groups**: of the children, those with the thread group that `task_waitpid` looks for
are those in the process group. -/
def GroupsAgree (s : State) (c : Nat) (pid : Int) (options : BitVec 32) : Prop :=
  pid ≤ 0 → pid ≠ -1 → ∀ i, s.waitable c i = true → isWaitChild (s.tasks (s.current c)) (s.tasks i) options = true →
    (asInt (s.tasks i).id = pid ∨ asInt (s.tasks i).tgid = pid ∨ pid < -1 ∧ asInt (s.tasks i).tgid = -pid ↔
      asInt (s.tasks i).pgid = if pid = 0 then asInt (s.tasks (s.current c)).pgid else -pid)

theorem hasBit_or {w : Nat} {o e b : BitVec w} (h : e &&& b = 0) : hasBit (o ||| e) b = hasBit o b := by
  have : (o ||| e) &&& b = o &&& b := by
    apply BitVec.eq_of_getLsbD_eq
    intro i hi
    have hbit : (e &&& b).getLsbD i = false := by
      rw [h]
      simp
    rw [BitVec.getLsbD_and] at hbit
    rw [BitVec.getLsbD_and, BitVec.getLsbD_and, BitVec.getLsbD_or, Bool.and_or_distrib_right, hbit, Bool.or_false]
  unfold hasBit
  rw [this]

theorem hasBit_exited (options : BitVec 32) : hasBit (options ||| WEXITED) WEXITED = true := by
  unfold hasBit
  have hbit : ((options ||| WEXITED) &&& WEXITED).getLsbD 2 = true := by simp [WEXITED]
  rw [bne_iff_ne]
  intro h0
  rw [h0] at hbit
  simp at hbit

theorem hasBit_events (options : BitVec 32) : hasBit (options ||| WEXITED) (WEXITED ||| WSTOPPED ||| WCONTINUED) = true := by
  unfold hasBit
  have hbit : ((options ||| WEXITED) &&& (WEXITED ||| WSTOPPED ||| WCONTINUED)).getLsbD 2 = true := by
    simp [WEXITED]
  rw [bne_iff_ne]
  intro h0
  rw [h0] at hbit
  simp at hbit

theorem waitStep_congr {options' : BitVec 32} (ht : ∀ i, (s.waitable c i && target i) = (s.waitable c i && target' i))
    (he : ∀ i, event i = event' i) (hnowait : hasBit options' WNOWAIT = hasBit options WNOWAIT)
    (hnohang : hasBit options' WNOHANG = hasBit options WNOHANG) :
    s.waitStep c target event options = s.waitStep c target' event' options' := by
  have hslot : s.waitSlot c target event = s.waitSlot c target' event' := by
    unfold waitSlot
    congr 1
    funext i
    rw [ht, he]
  have hany : (fun i => s.waitable c i && target i) = fun i => s.waitable c i && target' i := funext ht
  unfold waitStep
  rw [hslot, hany, hnowait, hnohang]

theorem taskWaitidAs_eq : s.taskWaitidAs c pid options =
    s.waitStep c (s.waitidTarget c (selector pid).1 (selector pid).2 (options ||| WEXITED))
      (s.waitpidEvent options) options := by
  have htype : ¬ ((selector pid).1 ≠ P_PID ∧ (selector pid).1 ≠ P_PGID ∧ (selector pid).1 ≠ P_ALL) := by
    unfold selector
    repeat' split
    all_goals simp
  have hevent : ∀ i, s.waitidEvent (options ||| WEXITED) i = s.waitpidEvent options i := by
    intro i
    unfold waitidEvent waitpidEvent WSTOPPED
    rw [hasBit_exited, hasBit_or (b := WUNTRACED) (by decide), hasBit_or (b := WCONTINUED) (by decide)]
    by_cases hd : (s.tasks i).state = .dead
    · simp [hd]
    · have hd' : ((s.tasks i).state == .dead) = false := beq_eq_false_iff_ne.2 hd
      rw [if_neg hd, hd', Bool.false_or]
  unfold taskWaitidAs taskWaitid
  rw [hasBit_events, if_neg (by decide), if_neg fun h => htype ⟨h.1, h.2.1, h.2.2.1⟩]
  exact waitStep_congr (fun _ => rfl) hevent (hasBit_or (by decide)).symm (hasBit_or (by decide)).symm

/-- **Whom the two consider**: the same children just when the groups agree. -/
theorem considers_iff :
    (∀ i, s.waitpidConsiders c pid options i = s.waitidConsiders c pid options i) ↔ s.GroupsAgree c pid options := by
  have hchild : ∀ i, isWaitChild (s.tasks (s.current c)) (s.tasks i) (options ||| WEXITED) =
      isWaitChild (s.tasks (s.current c)) (s.tasks i) options := fun i => by
    unfold isWaitChild
    rw [hasBit_or (by decide)]
  have hpid : ∀ i, s.waitpidTarget c pid options i = (isWaitChild (s.tasks (s.current c)) (s.tasks i) options &&
      (pid == -1 || asInt (s.tasks i).id == pid || asInt (s.tasks i).tgid == pid ||
        decide (pid < -1) && asInt (s.tasks i).tgid == -pid)) := fun i => by
    unfold waitpidTarget taskIsWaitTarget isWaitChild
    rw [Bool.or_assoc, ← Bool.and_or_distrib_left]
  have hid : ∀ i, s.waitidTarget c (selector pid).1 (selector pid).2 (options ||| WEXITED) i =
      (isWaitChild (s.tasks (s.current c)) (s.tasks i) options &&
        if 0 < pid then asInt (s.tasks i).id == pid || asInt (s.tasks i).tgid == pid
        else if pid = -1 then true
        else asInt (s.tasks i).pgid == if pid = 0 then asInt (s.tasks (s.current c)).pgid else -pid) := fun i => by
    unfold waitidTarget selector
    rw [hchild]
    by_cases hpos : 0 < pid
    · simp [hpos, P_PID]
    by_cases hone : pid = -1
    · simp [hone, P_ALL, P_PID, P_PGID]
    by_cases hzero : pid = 0
    · simp [hzero, P_PID, P_PGID]
    · simp [hpos, hone, hzero, P_PID, P_PGID]
  unfold GroupsAgree waitpidConsiders waitidConsiders
  by_cases hall : 0 < pid ∨ pid = -1
  · refine ⟨fun _ hle hne => absurd hall (by omega), fun _ i => ?_⟩
    rw [hpid, hid]
    rcases hall with hpos | hone
    · have hne : (pid == -1) = false := beq_eq_false_iff_ne.2 (by omega)
      have hlt : ¬ pid < -1 := by omega
      simp [hpos, hne, hlt]
    · simp [hone]
  · have hpos : ¬ 0 < pid := fun h => hall (.inl h)
    have hone : ¬ pid = -1 := fun h => hall (.inr h)
    constructor
    · intro h _ _ i hw hc
      have := h i
      rw [hpid, hid, hw, hc, if_neg hpos, if_neg hone] at this
      have hiff := Bool.eq_iff_iff.1 this
      simpa [hone, or_assoc] using hiff
    · intro h i
      rw [hpid, hid, if_neg hpos, if_neg hone]
      by_cases hw : s.waitable c i = true
      · by_cases hc : isWaitChild (s.tasks (s.current c)) (s.tasks i) options = true
        · have hiff := h (by omega) hone i hw hc
          rw [hw, hc, Bool.eq_iff_iff]
          simpa [hone, or_assoc] using hiff
        · simp [hc]
      · simp [hw]

/-- A turn of both finds the same, and does the same with it, where they consider the same children. -/
theorem turn_eq (h : ∀ i, s.waitpidConsiders c pid options i = s.waitidConsiders c pid options i) :
    s.taskWaitpid c pid options = s.taskWaitidAs c pid options := by
  rw [taskWaitidAs_eq]
  exact waitStep_congr h (fun _ => rfl) rfl rfl

/-! ## The call -/

/-- A call: its turns, with what becomes of the tasks while it sleeps between two of them. -/
def waitCall (turn : State → State × WaitResult) : List (State → State) → State → State × WaitResult
  | [], s => turn s
  | change :: changes, s =>
    match turn s with
    | (s, .retry _) => waitCall turn changes (change s)
    | result => result

def waitLooks (turn : State → State × WaitResult) : List (State → State) → State → List State
  | [], s => [s]
  | change :: changes, s =>
    s :: match turn s with
      | (s, .retry _) => waitLooks turn changes (change s)
      | _ => []

theorem waitCall_congr {turn turn' : State → State × WaitResult} : ∀ (changes : List (State → State)) (s : State),
    (∀ s' ∈ waitLooks turn changes s, turn s' = turn' s') → waitCall turn changes s = waitCall turn' changes s
  | [], s, h => h s (by simp [waitLooks])
  | change :: changes, s, h => by
    have hs : turn s = turn' s := h s (by simp [waitLooks])
    unfold waitCall
    rw [← hs]
    rcases ht : turn s with ⟨s1, r⟩
    cases r with
    | retry ms =>
      refine waitCall_congr changes (change s1) fun s' hs' => h s' ?_
      rw [waitLooks, ht]
      exact List.mem_cons_of_mem _ hs'
    | event pid status code => rfl
    | noChild => rfl
    | nothing => rfl
    | invalid => rfl

/-- **`waitpid` is `waitid`**: at every turn the same children are considered, and the calls end alike, with the same child,
its status, and the same event used up. -/
structure SameWait (c : Nat) (pid : Int) (options : BitVec 32) (changes : List (State → State)) (s : State) : Prop where
  considers : ∀ s' ∈ waitLooks (fun s => s.taskWaitpid c pid options) changes s, ∀ i,
    s'.waitpidConsiders c pid options i = s'.waitidConsiders c pid options i
  ends : waitCall (fun s => s.taskWaitpid c pid options) changes s =
    waitCall (fun s => s.taskWaitidAs c pid options) changes s

/-- **When `waitpid` is `waitid`**: where the groups agree whenever the call looks. -/
theorem same_wait_iff (c : Nat) (pid : Int) (options : BitVec 32) (changes : List (State → State)) (s : State) :
    SameWait c pid options changes s ↔
      ∀ s' ∈ waitLooks (fun s => s.taskWaitpid c pid options) changes s, s'.GroupsAgree c pid options := by
  constructor
  · exact fun h s' hs' => considers_iff.1 (h.considers s' hs')
  · intro h
    have hsame : ∀ s' ∈ waitLooks (fun s => s.taskWaitpid c pid options) changes s, ∀ i,
        s'.waitpidConsiders c pid options i = s'.waitidConsiders c pid options i := fun s' hs' => considers_iff.2 (h s' hs')
    exact ⟨hsame, waitCall_congr changes s fun s' hs' => turn_eq (hsame s' hs')⟩

def forked : State :=
  List.foldl procStep (State.boot 1 (fun _ => false) 1)
    [.sched (.taskCreate 0 true), .sched (.taskYield 0), .taskSetupPrivatePml4 0 2, .taskFork 0 true, .forkReturn 0 3]

/-- `waitpid(0, WNOHANG)` knows no child there, `waitid(P_PGID, 0, WNOHANG | WEXITED)` does; and `waitpid(-2)` takes the
child for its thread group, 2, though no process group has that number. -/
theorem waitpid_misses_group : ¬ SameWait 0 0 WNOHANG [] forked ∧
    (forked.taskWaitpid 0 0 WNOHANG).2 = .noChild ∧ (forked.taskWaitidAs 0 0 WNOHANG).2 = .nothing ∧
    ¬ SameWait 0 (-2) WNOHANG [] forked := by
  have hpid : (forked.taskWaitpid 0 0 WNOHANG).2 = .noChild := by decide +kernel
  have hid : (forked.taskWaitidAs 0 0 WNOHANG).2 = .nothing := by decide +kernel
  have hpid' : (forked.taskWaitpid 0 (-2) WNOHANG).2 = .nothing := by decide +kernel
  have hid' : (forked.taskWaitidAs 0 (-2) WNOHANG).2 = .noChild := by decide +kernel
  refine ⟨fun h => ?_, hpid, hid, fun h => ?_⟩
  · have hends := congrArg (·.2) h.ends
    exact WaitResult.noConfusion (hpid.symm.trans (hends.trans hid))
  · have hends := congrArg (·.2) h.ends
    exact WaitResult.noConfusion (hpid'.symm.trans (hends.trans hid'))

end State
end EterOS.Sched
