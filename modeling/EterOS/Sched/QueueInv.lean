import EterOS.Lib.Run
import EterOS.Sched.Task
/-!
# QueueInv — the four accounts of where a task is agree

The state field, the ready queues, the sleep list and the `current_task` pointers are updated separately.  `TaskInv`
says of one task that they agree, `Inv` of all of them, with the queues read as lists.  An operation changes what is
said of one task at a time: `Inv.change` is the rule every operation goes through.
-/
namespace EterOS.Sched

open List
open Function (update update_self update_of_ne)

structure TaskInv (s : State) (q : Nat → List Slot) (l : List Slot) (t : Slot) : Prop where
  queued : (∃ c, t ∈ q c) ↔
    s.taskBitmap t = true ∧ (s.tasks t).state = .ready ∧ ∀ c, (s.cpus c).currentTask ≠ some t
  sleeping : s.taskBitmap t = true → (s.tasks t).state = .sleeping → t ∈ l
  sleeper : t ∈ l → s.taskBitmap t = true ∧ ((s.tasks t).state = .sleeping ∨ (s.tasks t).state = .blocked)
  current : ∀ c, (s.cpus c).currentTask = some t →
    s.taskBitmap t = true ∧ s.online c = true ∧ ((s.cpus c).yielding = false → s.runnable t = true)
  once : ∀ c c', (s.cpus c).currentTask = some t → (s.cpus c').currentTask = some t → c = c'
  unused : s.taskBitmap t = false → (s.tasks t).state = .ready

/-- The CPUs that are online are among the first `total_cpus`, and the boot CPU is. -/
structure CpusOk (s : State) : Prop where
  boot : s.online 0 = true
  pos : 0 < s.totalCpus
  max : s.totalCpus ≤ MAX_CPUS
  lt : ∀ c, s.online c = true → c < s.totalCpus

structure Inv (s : State) (q : Nat → List Slot) (l : List Slot) : Prop where
  ready : s.ready.Rep q
  sleep : s.sleep.Rep l
  sorted : l.Pairwise fun a b => (s.tasks a).wakeTick ≤ (s.tasks b).wakeTick
  task : ∀ t, TaskInv s q l t
  cpus : CpusOk s

variable {s s' : State} {q q' : Nat → List Slot} {l l' : List Slot} {t u : Slot} {c : Nat}

structure SameFor (s : State) (q : Nat → List Slot) (l : List Slot) (s' : State) (q' : Nat → List Slot)
    (l' : List Slot) (u : Slot) : Prop where
  used : s'.taskBitmap u = s.taskBitmap u
  state : (s'.tasks u).state = (s.tasks u).state
  wakeTick : (s'.tasks u).wakeTick = (s.tasks u).wakeTick
  queue : ∀ c, u ∈ q' c ↔ u ∈ q c
  list : u ∈ l' ↔ u ∈ l
  current : ∀ c, (s'.cpus c).currentTask = some u ↔ (s.cpus c).currentTask = some u
  yielding : ∀ c, (s.cpus c).currentTask = some u → (s'.cpus c).yielding = false → (s.cpus c).yielding = false

theorem TaskInv.same (h : TaskInv s q l u) (hs : SameFor s q l s' q' l' u)
    (honline : ∀ c, s.online c = true → s'.online c = true) : TaskInv s' q' l' u := by
  refine ⟨?_, ?_, ?_, fun c hc => ?_, fun c c' hc hc' => ?_, ?_⟩
  · have hcur : (∀ c, (s'.cpus c).currentTask ≠ some u) ↔ ∀ c, (s.cpus c).currentTask ≠ some u :=
      forall_congr' fun c => not_congr (hs.current c)
    rw [hs.used, hs.state, hcur, ← h.queued]
    exact exists_congr fun c => hs.queue c
  · rw [hs.used, hs.state, hs.list]
    exact h.sleeping
  · rw [hs.used, hs.state, hs.list]
    exact h.sleeper
  · obtain ⟨hu, ho, hr⟩ := h.current c ((hs.current c).1 hc)
    refine ⟨hs.used ▸ hu, honline c ho, fun hy => ?_⟩
    have := hr (hs.yielding c ((hs.current c).1 hc) hy)
    simpa [State.runnable, hs.state] using this
  · exact h.once c c' ((hs.current c).1 hc) ((hs.current c').1 hc')
  · rw [hs.used, hs.state]
    exact h.unused

/-- **One task at a time**: the accounts stay in step when they change for `t` alone and agree on `t` afterwards. -/
theorem Inv.change (h : Inv s q l) (t : Slot) (hready : s'.ready.Rep q') (hsleep : s'.sleep.Rep l')
    (hsame : ∀ u, u ≠ t → SameFor s q l s' q' l' u)
    (hsorted : l'.Pairwise fun a b => (s'.tasks a).wakeTick ≤ (s'.tasks b).wakeTick)
    (hcpus : CpusOk s') (honline : ∀ c, s.online c = true → s'.online c = true)
    (ht : TaskInv s' q' l' t) : Inv s' q' l' := by
  refine ⟨hready, hsleep, hsorted, fun u => ?_, hcpus⟩
  by_cases hu : u = t
  · exact hu ▸ ht
  · exact (h.task u).same (hsame u hu) honline

theorem Inv.sorted_of (h : Inv s q l) (s' : State) (hsub : l'.Sublist l)
    (htick : ∀ u ∈ l', (s'.tasks u).wakeTick = (s.tasks u).wakeTick) :
    l'.Pairwise fun a b => (s'.tasks a).wakeTick ≤ (s'.tasks b).wakeTick := by
  refine (h.sorted.sublist hsub).imp_of_mem fun ha hb hab => ?_
  rw [htick _ ha, htick _ hb]
  exact hab

/-! ## What the invariant says of a task in a given place -/

theorem Inv.not_queued_of_current (h : Inv s q l) (hc : (s.cpus c).currentTask = some t) : ∀ c', t ∉ q c' :=
  fun c' hq => ((h.task t).queued.1 ⟨c', hq⟩).2.2 c hc

theorem Inv.not_queued_of_state (h : Inv s q l) (ht : (s.tasks t).state ≠ .ready) : ∀ c', t ∉ q c' :=
  fun c' hq => ht ((h.task t).queued.1 ⟨c', hq⟩).2.1

theorem Inv.not_sleeper_of_runnable (h : Inv s q l) (ht : s.runnable t = true) : t ∉ l := by
  intro hl
  simp only [State.runnable, Bool.or_eq_true, beq_iff_eq] at ht
  rcases (h.task t).sleeper hl with ⟨-, hs | hs⟩ <;> simp [hs] at ht

theorem Inv.not_current (h : Inv s q l) (ht : s.isCurrent t = false) : ∀ c, (s.cpus c).currentTask ≠ some t := by
  intro c hc
  have hlt := Nat.lt_of_lt_of_le (h.cpus.lt c ((h.task t).current c hc).2.1) h.cpus.max
  simp only [State.isCurrent, any_eq_false, mem_range, beq_iff_eq] at ht
  exact ht c hlt hc

theorem isActive_iff (h : CpusOk s) (hcur : ∀ c, (s.cpus c).currentTask = some t → s.online c = true) :
    s.isActive t = true ↔ ∃ c, (s.cpus c).currentTask = some t := by
  simp only [State.isActive, any_eq_true, mem_range, Bool.and_eq_true, beq_iff_eq]
  constructor
  · rintro ⟨c, -, -, hc⟩
    exact ⟨c, hc⟩
  · rintro ⟨c, hc⟩
    have ho := hcur c hc
    exact ⟨c, Nat.lt_of_lt_of_le (h.lt c ho) h.max, ho, hc⟩

/-! ## Fields after an update -/

section Fields

variable {f : Task → Task} {g : Cpu → Cpu} {c' : Nat}

@[simp] theorem modTask_tasks_self : (s.modTask t f).tasks t = f (s.tasks t) := update_self ..

theorem modTask_tasks_ne (h : u ≠ t) : (s.modTask t f).tasks u = s.tasks u := update_of_ne h ..

@[simp] theorem modCpu_cpus_self : (s.modCpu c g).cpus c = g (s.cpus c) := update_self ..

theorem modCpu_cpus_ne (h : c' ≠ c) : (s.modCpu c g).cpus c' = s.cpus c' := update_of_ne h ..

@[simp] theorem markYielding_currentTask : ((s.markYielding c).cpus c').currentTask = (s.cpus c').currentTask := by
  by_cases h : c' = c
  · subst h; simp [State.markYielding]
  · simp [State.markYielding, modCpu_cpus_ne h]

@[simp] theorem markYielding_online : (s.markYielding c).online c' = s.online c' := by
  by_cases h : c' = c
  · subst h; simp [State.markYielding, State.online]
  · simp [State.markYielding, State.online, modCpu_cpus_ne h]

theorem markYielding_yielding : ((s.markYielding c).cpus c').yielding = false → c' ≠ c ∧ (s.cpus c').yielding = false := by
  by_cases h : c' = c
  · subst h; simp [State.markYielding]
  · simp [State.markYielding, modCpu_cpus_ne h, h]

end Fields

theorem CpusOk.congr (h : CpusOk s) (ho : ∀ c, s'.online c = s.online c) (ht : s'.totalCpus = s.totalCpus) : CpusOk s' :=
  ⟨(ho 0).trans h.boot, ht ▸ h.pos, ht ▸ h.max, fun c hc => ht ▸ h.lt c ((ho c).symm.trans hc)⟩

/-! ## Marking the current task -/

theorem markYielding_self : ((s.markYielding c).cpus c).yielding = true := by
  simp [State.markYielding]

theorem TaskInv.of_yielding (h : TaskInv s q l t) (hc : (s.cpus c).currentTask = some t)
    (hcur : ∀ c', (s'.cpus c').currentTask = (s.cpus c').currentTask) (hused : s'.taskBitmap t = s.taskBitmap t)
    (honline : ∀ c', s'.online c' = s.online c') (hyield : (s'.cpus c).yielding = true)
    (hsleeping : (s'.tasks t).state = .sleeping → t ∈ l')
    (hsleeper : t ∈ l' → (s'.tasks t).state = .sleeping ∨ (s'.tasks t).state = .blocked) : TaskInv s' q l' t := by
  obtain ⟨hu, -, -⟩ := h.current c hc
  refine ⟨?_, fun _ => hsleeping, fun hl => ⟨hused.trans hu, hsleeper hl⟩, fun c' hc' => ?_, fun c1 c2 h1 h2 => ?_,
    fun hno => ?_⟩
  · constructor
    · intro hq
      exact absurd hc ((h.queued.1 hq).2.2 c)
    · rintro ⟨-, -, hno⟩
      exact absurd ((hcur c).trans hc) (hno c)
  · rw [hcur] at hc'
    have heq := h.once c' c hc' hc
    refine ⟨hused.trans hu, (honline c').trans (h.current c' hc').2.1, fun hy => ?_⟩
    rw [heq, hyield] at hy
    cases hy
  · rw [hcur] at h1 h2
    exact h.once c1 c2 h1 h2
  · rw [hused, hu] at hno
    cases hno

theorem Inv.mark (h : Inv s q l) (hc : (s.cpus c).currentTask = some t) (hy : (s.cpus c).yielding = false)
    {f : Task → Task} (hf : (f (s.tasks t)).state ≠ .sleeping) : Inv ((s.markYielding c).modTask t f) q l := by
  have hl : t ∉ l := h.not_sleeper_of_runnable (((h.task t).current c hc).2.2 hy)
  set s1 := (s.markYielding c).modTask t f with hs1
  have hself : s1.tasks t = f (s.tasks t) := modTask_tasks_self
  have hne : ∀ u, u ≠ t → s1.tasks u = s.tasks u := fun u hu => modTask_tasks_ne hu
  have hcur : ∀ c', (s1.cpus c').currentTask = (s.cpus c').currentTask := fun c' => markYielding_currentTask
  have honline : ∀ c', s1.online c' = s.online c' := fun c' => markYielding_online
  refine h.change t h.ready h.sleep (fun u hu => ?_) (h.sorted_of s1 (List.Sublist.refl l) fun u hu => ?_)
    (h.cpus.congr honline rfl) (fun c' hc' => (honline c').trans hc') ?_
  · exact ⟨rfl, by rw [hne u hu], by rw [hne u hu], fun _ => Iff.rfl, Iff.rfl, fun c' => by rw [hcur c'],
      fun c' _ hy' => (markYielding_yielding hy').2⟩
  · rw [hne u fun he => hl (he ▸ hu)]
  · refine (h.task t).of_yielding hc hcur rfl honline markYielding_self (fun hs => ?_) fun hl' => absurd hl' hl
    rw [hself] at hs
    exact absurd hs hf

theorem Inv.markSleep (h : Inv s q l) (hc : (s.cpus c).currentTask = some t) (hy : (s.cpus c).yielding = false)
    {f : Task → Task} (hf : (f (s.tasks t)).state = .sleeping ∨ (f (s.tasks t)).state = .blocked) :
    ∃ l', Inv (((s.markYielding c).modTask t f).enqueueSleep t) q l' := by
  have hl : t ∉ l := h.not_sleeper_of_runnable (((h.task t).current c hc).2.2 hy)
  set s1 := (s.markYielding c).modTask t f with hs1
  have hself : s1.tasks t = f (s.tasks t) := modTask_tasks_self
  have hne : ∀ u, u ≠ t → s1.tasks u = s.tasks u := fun u hu => modTask_tasks_ne hu
  have hcur : ∀ c', (s1.cpus c').currentTask = (s.cpus c').currentTask := fun c' => markYielding_currentTask
  have honline : ∀ c', s1.online c' = s.online c' := fun c' => markYielding_online
  have hsorted := h.sorted_of s1 (List.Sublist.refl l) fun u hu => by rw [hne u fun he => hl (he ▸ hu)]
  have hmem : ∀ u, u ∈ l.takeWhile (fun u => decide ((s1.tasks u).wakeTick < (s1.tasks t).wakeTick)) ++
      t :: l.dropWhile (fun u => decide ((s1.tasks u).wakeTick < (s1.tasks t).wakeTick)) ↔ u = t ∨ u ∈ l := by
    intro u
    have := takeWhile_append_dropWhile
      (p := fun u => decide ((s1.tasks u).wakeTick < (s1.tasks t).wakeTick)) (l := l)
    rw [mem_append, mem_cons]
    conv_rhs => rw [← this, mem_append]
    tauto
  refine ⟨_, h.change t h.ready (enqueueSleep_rep h.sleep hl) (fun u hu => ?_) (enqueueSleep_sorted hsorted)
    (h.cpus.congr honline rfl) (fun c' hc' => (honline c').trans hc') ?_⟩
  · have htask : (s1.enqueueSleep t).tasks u = s.tasks u := hne u hu
    exact ⟨rfl, by rw [htask], by rw [htask], fun _ => Iff.rfl, by rw [hmem u]; simp [hu], fun c' => by
      rw [← hcur c']; rfl, fun c' _ hy' => (markYielding_yielding hy').2⟩
  · rw [← hself] at hf
    exact (h.task t).of_yielding hc hcur rfl honline markYielding_self (fun _ => (hmem t).2 (.inl rfl)) fun _ => hf

/-! ## A task on no CPU -/

theorem TaskInv.outside (hcur : ∀ c, (s.cpus c).currentTask ≠ some t) (hq : ∀ c, t ∉ q c) (hl : t ∉ l)
    (hused : s.taskBitmap t = true → (s.tasks t).state ≠ .ready ∧ (s.tasks t).state ≠ .sleeping)
    (hunused : s.taskBitmap t = false → (s.tasks t).state = .ready) : TaskInv s q l t :=
  ⟨⟨fun ⟨c, hc⟩ => absurd hc (hq c), fun ⟨hu, hr, _⟩ => absurd hr (hused hu).1⟩, fun hu hs => absurd hs (hused hu).2,
    fun h => absurd h hl, fun c hc => absurd hc (hcur c), fun c _ hc => absurd hc (hcur c), hunused⟩

theorem TaskInv.inQueue (hcur : ∀ c, (s.cpus c).currentTask ≠ some t) (hq : t ∈ q c) (hl : t ∉ l)
    (hused : s.taskBitmap t = true) (hstate : (s.tasks t).state = .ready) : TaskInv s q l t :=
  ⟨⟨fun _ => ⟨hused, hstate, hcur⟩, fun _ => ⟨c, hq⟩⟩, fun _ hs => by simp [hstate] at hs, fun h => absurd h hl,
    fun c hc => absurd hc (hcur c), fun c _ hc => absurd hc (hcur c), fun _ => hstate⟩

theorem mem_update_append {cpu : Nat} (hu : u ≠ t) : u ∈ update q cpu (q cpu ++ [t]) c ↔ u ∈ q c := by
  rw [Function.update_apply]
  split
  · rename_i hc
    subst hc
    simp [hu]
  · rfl

/-! ## Waking a task -/

theorem Inv.wake (h : Inv s q l) (hused : s.taskBitmap t = true) (hstate : s.runnable t = false) :
    ∃ q', Inv (s.wake t) q' (l.erase t) := by
  have hnq : ∀ c, t ∉ q c := h.not_queued_of_state fun hs => by simp [State.runnable, hs] at hstate
  set s1 := (s.modTask t fun task => { task with state := .ready }).dequeueSleep t with hs1
  have hself : (s1.tasks t).state = .ready := by simp [hs1, State.dequeueSleep]
  have hne : ∀ u, u ≠ t → s1.tasks u = s.tasks u := fun u hu => update_of_ne hu _ _
  have hnd : l.Nodup := h.sleep.linked.1
  have hlist : ∀ u, u ≠ t → (u ∈ l.erase t ↔ u ∈ l) := fun u hu => mem_erase_of_ne hu
  have ht : t ∉ l.erase t := hnd.not_mem_erase
  have hsorted := h.sorted_of s1 (erase_sublist (a := t)) fun u hu => by
    rw [hne u (by rintro rfl; exact ht hu)]
  have hact := isActive_iff (s := s1) (t := t) (h.cpus.congr (fun _ => rfl) rfl) fun c hc =>
    ((h.task t).current c hc).2.1
  have hwake : s.wake t = if s1.isActive t then s1 else s1.enqueueReady t := rfl
  have hrun : s1.runnable t = true := by simp [State.runnable, hself]
  by_cases hc : ∃ c, (s1.cpus c).currentTask = some t
  · rw [hwake, if_pos (hact.2 hc)]
    refine ⟨q, h.change t h.ready (dequeueSleep_rep h.sleep) (fun u hu => ?_) hsorted
      (h.cpus.congr (fun _ => rfl) rfl) (fun _ => id) ?_⟩
    · exact ⟨rfl, by rw [hne u hu], by rw [hne u hu], fun _ => Iff.rfl, hlist u hu, fun _ => Iff.rfl, fun _ _ => id⟩
    · obtain ⟨c, hc⟩ := hc
      refine ⟨⟨fun ⟨c', hq⟩ => absurd hq (hnq c'), fun ⟨_, _, hno⟩ => absurd hc (hno c)⟩,
        fun _ hs => by simp [hself] at hs, fun hl => absurd hl ht, fun c' hc' => ⟨hused, ?_, fun _ => hrun⟩,
        (h.task t).once, fun _ => hself⟩
      exact ((h.task t).current c' hc').2.1
  · have hno : ∀ c, (s1.cpus c).currentTask ≠ some t := fun c hc' => hc ⟨c, hc'⟩
    rw [hwake, if_neg fun ha => hc (hact.1 ha)]
    have hready : s1.ready.Rep q := h.ready
    refine ⟨_, h.change t (enqueueReady_rep hready hnq) (dequeueSleep_rep h.sleep) (fun u hu => ?_) hsorted
      (h.cpus.congr (fun _ => rfl) rfl) (fun _ => id) ?_⟩
    · have htask : (s1.enqueueReady t).tasks u = s.tasks u := hne u hu
      exact ⟨rfl, by rw [htask], by rw [htask], fun c => mem_update_append hu, hlist u hu, fun _ => Iff.rfl, fun _ _ => id⟩
    · exact TaskInv.inQueue hno (by rw [update_self]; simp) ht hused hself

theorem state_dequeueSleep_of_not_mem (h : s.sleep.Rep l) (ht : t ∉ l) : s.dequeueSleep t = s := by
  unfold State.dequeueSleep
  rw [dequeueSleep_of_not_mem h ht]

theorem state_dequeueReady_of_not_mem (h : s.ready.Rep q) (ht : ∀ c, t ∉ q c) : s.dequeueReady t = s := by
  unfold State.dequeueReady
  rw [dequeueReady_of_not_mem h ht]

theorem Inv.used_of_not_runnable (h : Inv s q l) (hs : s.runnable t = false) : s.taskBitmap t = true := by
  by_contra hu
  have := (h.task t).unused (by simpa using hu)
  simp [State.runnable, this] at hs

theorem Inv.taskWakeup (h : Inv s q l) : ∃ q' l', Inv (s.taskWakeup t) q' l' := by
  unfold State.taskWakeup
  by_cases hb : (s.tasks t).state = .blocked ∨ (s.tasks t).state = .sleeping
  · have hr : s.runnable t = false := by rcases hb with hb | hb <;> simp [State.runnable, hb]
    have hready : ((s.wake t).tasks t).state = .ready := by
      unfold State.wake
      simp only []
      split <;> simp [State.dequeueSleep, State.enqueueReady]
    obtain ⟨q', h'⟩ := h.wake (h.used_of_not_runnable hr) hr
    refine ⟨q', l.erase t, ?_⟩
    simpa [if_pos hb, hready] using h'
  · rw [if_neg hb]
    dsimp only
    split
    · -- a stopped task is not on the sleep list, so waking it is the same
      rename_i hs
      have hr : s.runnable t = false := by simp [State.runnable, hs]
      have hl : t ∉ l := fun hl => hb (((h.task t).sleeper hl).2.symm)
      obtain ⟨q', h'⟩ := h.wake (h.used_of_not_runnable hr) hr
      refine ⟨q', l.erase t, ?_⟩
      have hd : (s.modTask t fun task => { task with state := .ready }).dequeueSleep t =
          s.modTask t fun task => { task with state := .ready } :=
        state_dequeueSleep_of_not_mem (s := s.modTask t fun task => { task with state := .ready }) h.sleep hl
      unfold State.wake at h'
      rwa [hd] at h'
    · exact ⟨q, l, h⟩

theorem wake_wakeTick : ((s.wake t).tasks u).wakeTick = (s.tasks u).wakeTick := by
  have htask : (s.wake t).tasks = (s.modTask t fun task => { task with state := .ready }).tasks := by
    unfold State.wake
    dsimp only
    split <;> rfl
  rw [htask]
  by_cases hu : u = t
  · subst hu; simp
  · rw [modTask_tasks_ne hu]

/-- The loop reads the list from its head on, and each turn takes the head off: it wakes the tasks at the front that
are due, and ends there. -/
theorem Inv.wakeExpiredLoop (tick : Nat) : ∀ (fuel : Nat) {s : State} {q : Nat → List Slot} {l : List Slot},
    Inv s q l → l.length ≤ fuel → ∃ q', Inv (State.wakeExpiredLoop tick fuel s.sleep.sleepHead s) q'
      (l.dropWhile fun u => decide ((s.tasks u).wakeTick ≤ tick))
  | 0, s, q, l, h, hf => by
    obtain rfl : l = [] := by simpa using hf
    exact ⟨q, h⟩
  | fuel + 1, s, q, [], h, _ => by
    rw [h.sleep.head]
    exact ⟨q, h⟩
  | fuel + 1, s, q, a :: l, h, hf => by
    have hnext : s.sleep.nextSleep a = l.head? := 
      (show Dll.Linked _ _ ([] ++ a :: l) from h.sleep.linked).at_mid.2
    rw [h.sleep.head, List.head?_cons, State.wakeExpiredLoop]
    by_cases hd : (s.tasks a).wakeTick ≤ tick
    · have hr : s.runnable a = false := by
        rcases ((h.task a).sleeper mem_cons_self).2 with hs | hs <;> simp [State.runnable, hs]
      obtain ⟨q1, h1⟩ := h.wake (h.used_of_not_runnable hr) hr
      rw [erase_cons_head] at h1
      obtain ⟨q2, h2⟩ := Inv.wakeExpiredLoop tick fuel h1 (by simpa using hf)
      refine ⟨q2, ?_⟩
      rw [h1.sleep.head] at h2
      simp only [wake_wakeTick] at h2
      simpa [hd, hnext] using h2
    · rw [if_neg hd, dropWhile_cons, if_neg (by simpa using hd)]
      exact ⟨q, h⟩

theorem Inv.taskWakeExpired (h : Inv s q l) (tick : Nat) :
    ∃ q', Inv (s.taskWakeExpired tick) q' (l.dropWhile fun u => decide ((s.tasks u).wakeTick ≤ tick)) :=
  Inv.wakeExpiredLoop tick MAX_TASKS h (length_le_maxTasks h.sleep.linked.1)

theorem Inv.taskWakeParentWaiter (h : Inv s q l) (parentId : Nat) :
    ∃ q' l', Inv (s.taskWakeParentWaiter parentId) q' l' := by
  have hfold : ∀ (is : List Slot) (s : State), (∃ q l, Inv s q l) →
      ∃ q l, Inv (is.foldl (fun s i => if s.isWaiter parentId i then s.wake i else s) s) q l := by
    intro is
    induction is with
    | nil => exact fun s hs => hs
    | cons i is ih =>
      rintro s ⟨q, l, hs⟩
      rw [foldl_cons]
      refine ih _ ?_
      by_cases hw : s.isWaiter parentId i = true
      · rw [if_pos hw]
        have hr : s.runnable i = false := by
          simp only [State.isWaiter, Bool.and_eq_true, Bool.or_eq_true, beq_iff_eq] at hw
          rcases hw.2 with (hs' | hs') | hs' <;> simp [State.runnable, hs']
        obtain ⟨q', h'⟩ := hs.wake (hs.used_of_not_runnable hr) hr
        exact ⟨q', _, h'⟩
      · rw [if_neg hw]
        exact ⟨q, l, hs⟩
  exact hfold _ s ⟨q, l, h⟩

theorem Inv.congr (h : Inv s q l) (hready : s'.ready = s.ready) (hsleep : s'.sleep = s.sleep)
    (hused : s'.taskBitmap = s.taskBitmap) (hstate : ∀ u, (s'.tasks u).state = (s.tasks u).state)
    (htick : ∀ u, (s'.tasks u).wakeTick = (s.tasks u).wakeTick)
    (hcur : ∀ c, (s'.cpus c).currentTask = (s.cpus c).currentTask) (honline : ∀ c, s'.online c = s.online c)
    (hyield : ∀ c, (s'.cpus c).yielding = false → (s.cpus c).yielding = false) (htotal : s'.totalCpus = s.totalCpus) :
    Inv s' q l := by
  refine ⟨hready ▸ h.ready, hsleep ▸ h.sleep, h.sorted_of s' (List.Sublist.refl l) fun u _ => htick u, fun u => ?_,
    h.cpus.congr honline htotal⟩
  exact (h.task u).same ⟨by rw [hused], hstate u, htick u, fun _ => Iff.rfl, Iff.rfl, fun c => by rw [hcur c],
    fun c _ => hyield c⟩ fun c hc => (honline c).trans hc

theorem Inv.reparent (h : Inv s q l) (id : Nat) : Inv (s.reparent id) q l := by
  refine h.congr rfl rfl rfl (fun u => ?_) (fun u => ?_) (fun _ => rfl) (fun _ => rfl) (fun _ hy => hy) rfl
  · unfold State.reparent
    dsimp only
    split <;> rfl
  · unfold State.reparent
    dsimp only
    split <;> rfl

/-! ## The calls that mark the current task -/

theorem current_eq (hc : (s.cpus c).currentTask = some t) : s.current c = t := by
  simp [State.current, hc]

theorem Inv.taskBlock (h : Inv s q l) (hc : (s.cpus c).currentTask = some t) (hy : (s.cpus c).yielding = false) :
    Inv (s.taskBlock c) q l := by
  unfold State.taskBlock
  rw [current_eq hc]
  dsimp only
  split
  · exact h.mark hc hy (by simp)
  · exact h.mark hc hy (by simp)

theorem Inv.taskBlockWithTimeout (h : Inv s q l) (hc : (s.cpus c).currentTask = some t)
    (hy : (s.cpus c).yielding = false) (wakeTick : Nat) : ∃ l', Inv (s.taskBlockWithTimeout c wakeTick) q l' := by
  unfold State.taskBlockWithTimeout
  rw [current_eq hc]
  dsimp only
  split
  · exact ⟨l, h.mark hc hy (by simp)⟩
  · exact h.markSleep hc hy (.inr rfl)

theorem Inv.taskSleep (h : Inv s q l) (hc : (s.cpus c).currentTask = some t) (hy : (s.cpus c).yielding = false)
    (ms now : Nat) : ∃ l', Inv (s.taskSleep c ms now) q l' := by
  unfold State.taskSleep
  rw [current_eq hc]
  exact h.markSleep hc hy (.inl rfl)

theorem Inv.taskExit (h : Inv s q l) (hc : (s.cpus c).currentTask = some t) (hy : (s.cpus c).yielding = false)
    (waitStatus waitCode : Nat) : ∃ q' l', Inv (s.taskExit c waitStatus waitCode) q' l' := by
  unfold State.taskExit
  rw [current_eq hc]
  dsimp only
  exact ((h.mark hc hy (by simp)).reparent _).taskWakeParentWaiter _

/-! ## Slots -/

/-- What `find_free_slot` changes: the slot it returns, which was unused or a zombie no CPU runs. -/
structure FreeSlot (s s' : State) (t : Slot) : Prop where
  free : s.taskBitmap t = false ∨ s.reapable t = true
  used : s'.taskBitmap t = true
  fresh : s.taskBitmap t = false → s'.tasks t = s.tasks t
  reaped : s.taskBitmap t = true → (s'.tasks t).state = .ready
  other : ∀ u, u ≠ t → s'.taskBitmap u = s.taskBitmap u ∧ s'.tasks u = s.tasks u
  ready : s'.ready = s.ready
  sleep : s'.sleep = s.sleep
  cpus : s'.cpus = s.cpus
  totalCpus : s'.totalCpus = s.totalCpus

theorem taskReapZombieLocked_frame : (∀ u, u ≠ t → (s.taskReapZombieLocked t).taskBitmap u = s.taskBitmap u ∧
      (s.taskReapZombieLocked t).tasks u = s.tasks u) ∧
    ((s.taskReapZombieLocked t).tasks t).state = .ready ∧ (s.taskReapZombieLocked t).ready = s.ready ∧
    (s.taskReapZombieLocked t).sleep = s.sleep ∧ (s.taskReapZombieLocked t).cpus = s.cpus ∧
    (s.taskReapZombieLocked t).totalCpus = s.totalCpus := by
  have hrel : (s.releaseCr3 t).tasks = s.tasks ∧ (s.releaseCr3 t).taskBitmap = s.taskBitmap ∧
      (s.releaseCr3 t).ready = s.ready ∧ (s.releaseCr3 t).sleep = s.sleep ∧ (s.releaseCr3 t).cpus = s.cpus ∧
      (s.releaseCr3 t).totalCpus = s.totalCpus := by
    unfold State.releaseCr3 State.vmmDestroyPml4
    split
    · split <;> exact ⟨rfl, rfl, rfl, rfl, rfl, rfl⟩
    · exact ⟨rfl, rfl, rfl, rfl, rfl, rfl⟩
  obtain ⟨ht, hb, hr, hs, hc, hn⟩ := hrel
  refine ⟨fun u hu => ⟨?_, ?_⟩, ?_, hr, hs, hc, hn⟩
  · exact (update_of_ne hu _ _).trans (by rw [← hb]; rfl)
  · exact (update_of_ne hu _ _).trans (by rw [ht])
  · simp [State.taskReapZombieLocked]

theorem findFreeSlot_some (hf : s.findFreeSlot = (s', some t)) : FreeSlot s s' t := by
  unfold State.findFreeSlot at hf
  split at hf
  · rename_i slot hfind
    simp only [Prod.mk.injEq, Option.some.injEq] at hf
    obtain ⟨rfl, rfl⟩ := hf
    have hfree : s.taskBitmap slot = false := by simpa using List.find?_some hfind
    exact ⟨.inl hfree, update_self .., fun _ => rfl, fun hu => by simp [hfree] at hu,
      fun u hu => ⟨update_of_ne hu .., rfl⟩, rfl, rfl, rfl, rfl⟩
  · rename_i hfull
    have hall : ∀ u, s.taskBitmap u = true := fun u => by
      simpa using List.find?_eq_none.1 hfull u (mem_finRange u)
    split at hf
    · rename_i i hfind
      simp only [Prod.mk.injEq, Option.some.injEq] at hf
      obtain ⟨rfl, rfl⟩ := hf
      obtain ⟨hother, hstate, hr, hs, hc, hn⟩ := taskReapZombieLocked_frame (s := s) (t := i)
      exact ⟨.inr (List.find?_some hfind), update_self .., fun hu => by simp [hall i] at hu,
        fun _ => hstate, fun u hu => ⟨(update_of_ne hu ..).trans (hother u hu).1, (hother u hu).2⟩, hr, hs, hc, hn⟩
    · simp at hf

theorem findFreeSlot_none (hf : s.findFreeSlot = (s', none)) : s' = s := by
  unfold State.findFreeSlot at hf
  split at hf
  · cases hf
  · split at hf
    · cases hf
    · cases hf
      rfl

theorem Inv.freeSlot (h : Inv s q l) (hf : FreeSlot s s' t) :
    (∀ c, t ∉ q c) ∧ t ∉ l ∧ ∀ c, (s.cpus c).currentTask ≠ some t := by
  rcases hf.free with hu | hz
  · have hno : s.taskBitmap t ≠ true := by simp [hu]
    exact ⟨fun c hq => hno ((h.task t).queued.1 ⟨c, hq⟩).1, fun hl => hno ((h.task t).sleeper hl).1,
      fun c hc => hno ((h.task t).current c hc).1⟩
  · simp only [State.reapable, Bool.and_eq_true, Bool.not_eq_true', beq_iff_eq] at hz
    obtain ⟨⟨⟨-, hdead⟩, -⟩, hcur⟩ := hz
    refine ⟨h.not_queued_of_state (by simp [hdead]), fun hl => ?_, h.not_current hcur⟩
    rcases ((h.task t).sleeper hl).2 with hs | hs <;> simp [hdead] at hs

theorem FreeSlot.same (hf : FreeSlot s s' t) {s2 : State} (hu : u ≠ t)
    (hused : s2.taskBitmap u = s'.taskBitmap u) (htask : s2.tasks u = s'.tasks u)
    (hq : ∀ c, u ∈ q' c ↔ u ∈ q c)
    (hcur : ∀ c, (s2.cpus c).currentTask = some u ↔ (s.cpus c).currentTask = some u)
    (hyield : ∀ c, (s2.cpus c).yielding = (s.cpus c).yielding) : SameFor s q l s2 q' l u := by
  obtain ⟨hb, ht⟩ := hf.other u hu
  exact ⟨hused.trans hb, by rw [htask, ht], by rw [htask, ht], hq, Iff.rfl, hcur, fun c _ hy => by rwa [← hyield c]⟩

theorem Inv.fillSlot (h : Inv s q l) (hs : FreeSlot s s' t) {s2 : State} (hbit : s2.taskBitmap = s'.taskBitmap)
    (hready : s2.ready = s'.ready) (hsleep : s2.sleep = s'.sleep) (hcpus : s2.cpus = s'.cpus)
    (htotal : s2.totalCpus = s'.totalCpus) (htask : ∀ u, u ≠ t → s2.tasks u = s'.tasks u)
    (hstate : (s2.tasks t).state = .ready) : ∃ q' l', Inv (s2.enqueueReady t) q' l' := by
  obtain ⟨hnq, hnl, hnc⟩ := h.freeSlot hs
  have hrep : s2.ready.Rep q := hready.trans hs.ready ▸ h.ready
  have hcpu : s2.cpus = s.cpus := hcpus.trans hs.cpus
  have honline : ∀ c, s2.online c = s.online c := fun c => by rw [State.online, hcpu]; rfl
  refine ⟨_, l, h.change t (enqueueReady_rep hrep hnq) (hsleep.trans hs.sleep ▸ h.sleep) (fun u hu => ?_)
    (h.sorted_of _ (List.Sublist.refl l) fun u hu => ?_) (h.cpus.congr honline (htotal.trans hs.totalCpus))
    (fun c hc => (honline c).trans hc) ?_⟩
  · exact hs.same hu (congrFun hbit u) (htask u hu) (fun c => mem_update_append hu)
      (fun c => by rw [← hcpu]; rfl) (fun c => by rw [← hcpu]; rfl)
  · have hne : u ≠ t := by rintro rfl; exact hnl hu
    exact congrArg Task.wakeTick ((htask u hne).trans (hs.other u hne).2)
  · refine TaskInv.inQueue (c := readyCpu s2.totalCpus s2.online s2.ready t) (fun c => ?_) ?_ hnl
      ((congrFun hbit t).trans hs.used) hstate
    · have := hnc c
      rw [← hcpu] at this
      exact this
    · rw [update_self]
      exact mem_append_right _ (mem_singleton_self t)

theorem Inv.freeSlot_ready (h : Inv s q l) (hs : FreeSlot s s' t) : (s'.tasks t).state = .ready := by
  cases hb : s.taskBitmap t with
  | false => rw [hs.fresh hb]; exact (h.task t).unused hb
  | true => exact hs.reaped hb

theorem Inv.dropSlot (h : Inv s q l) (hs : FreeSlot s s' t) :
    Inv { s' with taskBitmap := update s'.taskBitmap t false } q l := by
  obtain ⟨hnq, hnl, hnc⟩ := h.freeSlot hs
  have hstate := h.freeSlot_ready hs
  have honline : ∀ c, s'.online c = s.online c := fun c => by rw [State.online, hs.cpus]; rfl
  refine h.change t (hs.ready ▸ h.ready) (hs.sleep ▸ h.sleep) (fun u hu => ?_)
    (h.sorted_of _ (List.Sublist.refl l) fun u hu => ?_) (h.cpus.congr honline hs.totalCpus)
    (fun c hc => (honline c).trans hc) ?_
  · exact hs.same hu (update_of_ne hu ..) rfl (fun _ => Iff.rfl) (fun c => by rw [← hs.cpus]) (fun c => by rw [← hs.cpus])
  · rw [(hs.other u (by rintro rfl; exact hnl hu)).2]
  · exact TaskInv.outside (fun c => by rw [hs.cpus]; exact hnc c) hnq hnl (fun hu => by simp at hu) fun _ => hstate

theorem Inv.taskCreate (h : Inv s q l) (stack : Bool) : ∃ q' l', Inv (s.taskCreate c stack) q' l' := by
  unfold State.taskCreate
  split
  · exact ⟨q, l, h⟩
  · split
    · rename_i s' hf
      rw [findFreeSlot_none hf]
      exact ⟨q, l, h⟩
    · rename_i s' slot hf
      have hs := findFreeSlot_some hf
      split
      · exact ⟨q, l, h.dropSlot hs⟩
      · dsimp only
        exact h.fillSlot hs rfl rfl rfl rfl rfl (fun u hu => update_of_ne hu ..) (by simp)

end EterOS.Sched
