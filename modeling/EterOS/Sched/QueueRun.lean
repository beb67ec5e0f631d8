import EterOS.Sched.QueueInv
/-!
# QueueRun — the queues over whole runs

`schedule` moves two tasks: the outgoing one to a ready queue, if it can go on, and the incoming one onto the CPU.  When
nothing is ready it falls back to the CPU's idle task or to task 0, and looks at nothing else: if that task is itself the
one that has just blocked, it is taken off the sleep list and goes on with its state as it was; if another CPU runs it,
two CPUs do.  `Met` is the condition that keeps both from happening, `run_queuesOk` the claim about every run that meets it.
-/
namespace EterOS.Sched

open List
open Function (update update_self update_of_ne)

variable {s s' : State} {q q' : Nat → List Slot} {l l' : List Slot} {t u : Slot} {c : Nat}

/-! ## schedule -/

/-- CPU `c` between the outgoing and the incoming task. -/
def vacate (s : State) (c : Nat) : State :=
  s.modCpu c fun cpu => { cpu with yielding := false, schedTicks := 0, currentTask := none }

theorem vacate_online (c' : Nat) : (vacate s c).online c' = s.online c' := by
  by_cases h : c' = c
  · subst h; simp [vacate, State.online]
  · simp [vacate, State.online, modCpu_cpus_ne h]

theorem putBack_cpus : (s.putBack t).cpus = s.cpus := by
  unfold State.putBack
  split <;> rfl

theorem putBack_taskBitmap : (s.putBack t).taskBitmap = s.taskBitmap := by
  unfold State.putBack
  split <;> rfl

theorem Inv.putBack (h : Inv s q l) (hc : (s.cpus c).currentTask = some t) : ∃ q', Inv ((vacate s c).putBack t) q' l := by
  have hnq := h.not_queued_of_current hc
  have hcpus : CpusOk (vacate s c) := h.cpus.congr vacate_online rfl
  have honline : ∀ c', s.online c' = true → (vacate s c).online c' = true := fun c' hc' => (vacate_online c').trans hc'
  have hno : ∀ c', ((vacate s c).cpus c').currentTask ≠ some t := by
    intro c' hc'
    by_cases hcc : c' = c
    · subst hcc; simp [vacate] at hc'
    · rw [vacate, modCpu_cpus_ne hcc] at hc'
      exact hcc ((h.task t).once c' c hc' hc)
  have hcur : ∀ u, u ≠ t → ∀ c', ((vacate s c).cpus c').currentTask = some u ↔ (s.cpus c').currentTask = some u := by
    intro u hu c'
    by_cases hcc : c' = c
    · subst hcc
      simp [vacate, hc, Ne.symm hu]
    · rw [vacate, modCpu_cpus_ne hcc]
  have hyield : ∀ u, u ≠ t → ∀ c', (s.cpus c').currentTask = some u → ((vacate s c).cpus c').yielding = false →
      (s.cpus c').yielding = false := by
    intro u hu c' hcu hy
    have hcc : c' ≠ c := by
      rintro rfl
      exact hu (Option.some.inj (hcu.symm.trans hc))
    rwa [vacate, modCpu_cpus_ne hcc] at hy
  have hrun : (vacate s c).runnable t = s.runnable t := rfl
  unfold State.putBack
  split
  · rename_i hr
    rw [hrun] at hr
    have hl := h.not_sleeper_of_runnable hr
    refine ⟨_, h.change t (enqueueReady_rep h.ready hnq) h.sleep (fun u hu => ?_)
      (h.sorted_of _ (List.Sublist.refl l) fun u hu => ?_) (hcpus.congr (fun _ => rfl) rfl) honline ?_⟩
    · have htask : (((vacate s c).modTask t fun t => { t with state := .ready }).enqueueReady t).tasks u = s.tasks u :=
        update_of_ne hu _ _
      exact ⟨rfl, by rw [htask], by rw [htask], fun c' => mem_update_append hu, Iff.rfl, hcur u hu, hyield u hu⟩
    · exact congrArg Task.wakeTick (update_of_ne (by rintro rfl; exact hl hu) _ _)
    · refine TaskInv.inQueue hno (by rw [update_self]; exact mem_append_right _ (mem_singleton_self t)) hl
        ((h.task t).current c hc).1 (by simp [State.enqueueReady])
  · rename_i hr
    rw [hrun] at hr
    refine ⟨q, h.change t h.ready h.sleep (fun u hu => ?_) h.sorted hcpus honline ?_⟩
    · exact ⟨rfl, rfl, rfl, fun _ => Iff.rfl, Iff.rfl, hcur u hu, hyield u hu⟩
    · have hused := ((h.task t).current c hc).1
      refine ⟨⟨fun hq => absurd hq.choose_spec (hnq _), fun hq => ?_⟩, (h.task t).sleeping, (h.task t).sleeper,
        fun c' hc' => absurd hc' (hno c'), fun c' _ hc' => absurd hc' (hno c'), fun hu => ?_⟩
      · have hs' : (s.tasks t).state = .ready := hq.2.1
        simp [State.runnable, hs'] at hr
      · have hu' : s.taskBitmap t = false := hu
        simp [hused] at hu'

theorem Inv.dequeued (h : Inv s q l) (hused : s.taskBitmap t = true) (hno : ∀ c', (s.cpus c').currentTask ≠ some t) :
    ∃ q' r', (if (s.tasks t).state = .ready then s.dequeueReady t else s) = { s with ready := r' } ∧ r'.Rep q' ∧
      (∀ c', t ∉ q' c') ∧ ∀ u, u ≠ t → ∀ c', u ∈ q' c' ↔ u ∈ q c' := by
  split
  · rename_i hs
    obtain ⟨cq, hq⟩ := (h.task t).queued.2 ⟨hused, hs, hno⟩
    refine ⟨_, _, rfl, dequeueReady_rep h.ready hq, fun c' => ?_, fun u hu c' => ?_⟩
    · rw [Function.update_apply]
      split
      · exact (h.ready.linked cq).1.not_mem_erase
      · rename_i hcc
        exact h.ready.not_mem_of_ne hq hcc
    · rw [Function.update_apply]
      split
      · rename_i hcc
        rw [hcc]
        exact mem_erase_of_ne hu
      · rfl
  · rename_i hs
    exact ⟨q, s.ready, rfl, h.ready, h.not_queued_of_state hs, fun _ _ _ => Iff.rfl⟩

theorem switchTo_vacate {n : Slot} :
    (((s.modCpu c fun cpu => { cpu with yielding := false }).modCpu c fun cpu => { cpu with schedTicks := 0 }).putBack
      t).switchTo c n = ((vacate s c).putBack t).switchTo c n := by
  set a := (s.modCpu c fun cpu => { cpu with yielding := false }).modCpu c fun cpu => { cpu with schedTicks := 0 }
  have hcpus : ∀ c', c' ≠ c → a.cpus c' = (vacate s c).cpus c' := fun c' hcc => by
    rw [vacate, modCpu_cpus_ne hcc, modCpu_cpus_ne hcc, modCpu_cpus_ne hcc]
  have hcpu : ∀ x y, ({ a.cpus c with currentTask := x, cr3 := y } : Cpu) =
      { (vacate s c).cpus c with currentTask := x, cr3 := y } := fun x y => by simp [a, vacate]
  have hcr3 : (a.cpus c).cr3 = ((vacate s c).cpus c).cr3 := by simp [a, vacate]
  have honline : a.online = (vacate s c).online := by
    funext c'
    by_cases hcc : c' = c
    · subst hcc; simp [a, vacate, State.online]
    · rw [State.online, hcpus c' hcc]; rfl
  have hput : a.putBack t = { (vacate s c).putBack t with cpus := a.cpus } := by
    unfold State.putBack State.enqueueReady
    have hon : ∀ f, (a.modTask t f).online = ((vacate s c).modTask t f).online := fun _ => honline
    rw [hon]
    have hrun : a.runnable t = (vacate s c).runnable t := rfl
    rw [hrun]
    split <;> rfl
  have hvac : ((vacate s c).putBack t).cpus = (vacate s c).cpus := putBack_cpus
  rw [hput]
  generalize (vacate s c).putBack t = b at hvac ⊢
  rw [← hvac] at hcpus hcpu hcr3
  have hupd : ∀ k : Nat, update a.cpus c
        { a.cpus c with
          currentTask := some n
          cr3 := if k ≠ (a.cpus c).cr3 ∧ k ≠ 0 then k else (a.cpus c).cr3 } =
      update b.cpus c
        { b.cpus c with
          currentTask := some n
          cr3 := if k ≠ (b.cpus c).cr3 ∧ k ≠ 0 then k else (b.cpus c).cr3 } := by
    intro k
    funext c'
    by_cases hcc : c' = c
    · subst hcc
      rw [update_self, update_self, hcpu, hcr3]
    · rw [update_of_ne hcc, update_of_ne hcc, hcpus c' hcc]
  unfold State.switchTo
  dsimp only
  split
  · exact congrArg (fun v => { (((b.dequeueReady n).modTask n fun t => { t with state := .running }).dequeueSleep n).modTask
      n fun t => { t with wakeTick := 0 } with cpus := v }) (hupd _)
  · exact congrArg (fun v => { ((b.modTask n fun t => { t with state := .running }).dequeueSleep n).modTask
      n fun t => { t with wakeTick := 0 } with cpus := v }) (hupd _)

theorem Inv.switchTo (h : Inv s q l) (hc : (s.cpus c).currentTask = none) (honline : s.online c = true)
    (hused : s.taskBitmap t = true) (hno : ∀ c', (s.cpus c').currentTask ≠ some t) :
    ∃ q' l', Inv (s.switchTo c t) q' l' := by
  obtain ⟨q', r', hdeq, hready, hnq, hqsame⟩ := h.dequeued hused hno
  unfold State.switchTo
  rw [hdeq]
  set s1 := (({ s with ready := r' }.modTask t fun t => { t with state := .running }).dequeueSleep t).modTask t
    fun t => { t with wakeTick := 0 } with hs1
  dsimp only
  rw [← hs1]
  generalize hg : (fun cpu : Cpu => { cpu with
    currentTask := some t
    cr3 := if (s1.tasks t).cr3 ≠ cpu.cr3 ∧ (s1.tasks t).cr3 ≠ 0 then (s1.tasks t).cr3 else cpu.cr3 }) = g
  have hgcur : ∀ cpu, (g cpu).currentTask = some t := fun cpu => by rw [← hg]
  have hgo : ∀ cpu, (g cpu).online = cpu.online := fun cpu => by rw [← hg]
  have hself : (s1.tasks t).state = .running := by simp [hs1, State.dequeueSleep]
  have hne : ∀ u, u ≠ t → s1.tasks u = s.tasks u := fun u hu => (update_of_ne hu _ _).trans (update_of_ne hu _ _)
  have hcself : ((s1.modCpu c g).cpus c).currentTask = some t := by simp [hgcur]
  have hcne : ∀ c', c' ≠ c → (s1.modCpu c g).cpus c' = s.cpus c' := fun c' hcc => modCpu_cpus_ne hcc
  have honl : ∀ c', (s1.modCpu c g).online c' = s.online c' := fun c' => by
    by_cases hcc : c' = c
    · subst hcc
      simp only [State.online, modCpu_cpus_self, hgo]
      rfl
    · simp [State.online, hcne c' hcc]
  have ht : t ∉ l.erase t := h.sleep.linked.1.not_mem_erase
  have hof : ∀ c', ((s1.modCpu c g).cpus c').currentTask = some t → c' = c := fun c' hc' => by
    by_contra hcc
    rw [hcne c' hcc] at hc'
    exact hno c' hc'
  refine ⟨q', l.erase t, h.change t hready (dequeueSleep_rep h.sleep) (fun u hu => ?_)
    (h.sorted_of _ (erase_sublist (a := t)) fun u hu => ?_) (h.cpus.congr honl rfl)
    (fun c' hc' => (honl c').trans hc') ?_⟩
  · have htask : (s1.modCpu c g).tasks u = s.tasks u := hne u hu
    refine ⟨rfl, by rw [htask], by rw [htask], hqsame u hu, mem_erase_of_ne hu, fun c' => ?_, fun c' hcu hy => ?_⟩
    · by_cases hcc : c' = c
      · rw [hcc, hcself, hc]
        simp [Ne.symm hu]
      · rw [hcne c' hcc]
    · have hcc : c' ≠ c := by
        rintro rfl
        simp [hc] at hcu
      rwa [hcne c' hcc] at hy
  · exact congrArg Task.wakeTick (hne u (by rintro rfl; exact ht hu))
  · have hst : ((s1.modCpu c g).tasks t).state = .running := hself
    refine ⟨⟨fun hq => absurd hq.choose_spec (hnq _), fun hq => absurd hq.2.1 (by simp [hst])⟩,
      fun _ hs => by simp [hst] at hs, fun hl => absurd hl ht, fun c' hc' => ?_, fun c1 c2 h1 h2 => ?_, fun hu => ?_⟩
    · rw [hof c' hc']
      exact ⟨hused, (honl c).trans honline, fun _ => by simp [State.runnable, hst]⟩
    · rw [hof c1 h1, hof c2 h2]
    · have hu' : s.taskBitmap t = false := hu
      simp [hused] at hu'

theorem Inv.stay (h : Inv s q l) (hc : (s.cpus c).currentTask = some t) (hr : s.runnable t = true)
    (hready : s'.ready = s.ready) (hsleep : s'.sleep = s.sleep) (hbit : s'.taskBitmap = s.taskBitmap)
    (htask : ∀ u, u ≠ t → s'.tasks u = s.tasks u) (hrun : s'.runnable t = true)
    (hcur : ∀ c', (s'.cpus c').currentTask = (s.cpus c').currentTask) (honline : ∀ c', s'.online c' = s.online c')
    (hyield : ∀ c', c' ≠ c → (s'.cpus c').yielding = (s.cpus c').yielding) (htotal : s'.totalCpus = s.totalCpus) :
    Inv s' q l := by
  have hl := h.not_sleeper_of_runnable hr
  obtain ⟨hused, -, -⟩ := (h.task t).current c hc
  refine h.change t (hready ▸ h.ready) (hsleep ▸ h.sleep) (fun u hu => ?_)
    (h.sorted_of _ (List.Sublist.refl l) fun u hu => ?_) (h.cpus.congr honline htotal)
    (fun c' hc' => (honline c').trans hc') ?_
  · refine ⟨congrFun hbit u, by rw [htask u hu], by rw [htask u hu], fun _ => Iff.rfl, Iff.rfl,
      fun c' => by rw [hcur c'], fun c' hcu hy => ?_⟩
    have hcc : c' ≠ c := by
      rintro rfl
      exact hu (Option.some.inj (hcu.symm.trans hc))
    rwa [← hyield c' hcc]
  · rw [htask u (by rintro rfl; exact hl hu)]
  · refine ⟨⟨fun ⟨c', hq⟩ => absurd hq (h.not_queued_of_current hc c'), fun ⟨_, _, hno⟩ => ?_⟩, fun _ hs => ?_,
      fun hl' => absurd hl' hl, fun c' hc' => ?_, fun c1 c2 h1 h2 => ?_, fun hu => ?_⟩
    · exact absurd ((hcur c).trans hc) (hno c)
    · simp [State.runnable, hs] at hrun
    · rw [hcur c'] at hc'
      exact ⟨(congrFun hbit t).trans hused, (honline c').trans ((h.task t).current c' hc').2.1, fun _ => hrun⟩
    · rw [hcur] at h1 h2
      exact (h.task t).once c1 c2 h1 h2
    · rw [hbit, hused] at hu
      cases hu

theorem modCpu_frame {g : Cpu → Cpu} (hcur : ∀ cpu, (g cpu).currentTask = cpu.currentTask)
    (honline : ∀ cpu, (g cpu).online = cpu.online) :
    (∀ c', ((s.modCpu c g).cpus c').currentTask = (s.cpus c').currentTask) ∧
    (∀ c', (s.modCpu c g).online c' = s.online c') ∧
    ∀ c', c' ≠ c → ((s.modCpu c g).cpus c').yielding = (s.cpus c').yielding := by
  refine ⟨fun c' => ?_, fun c' => ?_, fun c' hcc => by rw [modCpu_cpus_ne hcc]⟩
  · by_cases hcc : c' = c
    · subst hcc; simp [hcur]
    · rw [modCpu_cpus_ne hcc]
  · by_cases hcc : c' = c
    · subst hcc; simp [State.online, honline]
    · rw [State.online, modCpu_cpus_ne hcc]; rfl

theorem Inv.resume (h : Inv s q l) (hc : (s.cpus c).currentTask = some t) (hr : s.runnable t = true) :
    Inv ((s.modCpu c fun cpu => { cpu with yielding := false }).resume t) q l := by
  set s0 := s.modCpu c fun cpu => { cpu with yielding := false } with hs0
  have hready : s0.ready.Rep q := h.ready
  have hsleep : s0.sleep.Rep l := h.sleep
  obtain ⟨hcur, honline, hyield⟩ := modCpu_frame (s := s) (c := c) (g := fun cpu => { cpu with yielding := false })
    (fun _ => rfl) fun _ => rfl
  have hl := h.not_sleeper_of_runnable hr
  unfold State.resume
  rw [state_dequeueReady_of_not_mem hready (h.not_queued_of_current hc)]
  dsimp only
  split
  · have hsl : (s0.modTask t fun t => { t with state := .running }).sleep.Rep l := hsleep
    rw [state_dequeueSleep_of_not_mem hsl hl]
    exact h.stay hc hr rfl rfl rfl (fun u hu => (update_of_ne hu _ _).trans (update_of_ne hu _ _))
      (by simp [State.runnable]) hcur honline hyield rfl
  · rw [state_dequeueSleep_of_not_mem hsleep hl]
    refine h.stay hc hr rfl rfl rfl (fun u hu => update_of_ne hu _ _) ?_ hcur honline hyield rfl
    have hr0 : s0.runnable t = true := hr
    simpa [State.runnable] using hr0

/-- **One call of `schedule`**, on a CPU that has a current task, when the task it falls back to, if it does, is one that
no CPU runs. -/
theorem Inv.schedule (h : Inv s q l) (hc : (s.cpus c).currentTask = some t) (hfall : s.findNextTask c t = none →
      s.taskBitmap (s.fallback c) = true ∧ ∀ c', (s.cpus c').currentTask ≠ some (s.fallback c)) :
    ∃ q' l', Inv (s.schedule c) q' l' := by
  set s0 := s.modCpu c fun cpu => { cpu with yielding := false } with hs0
  have hcur0 : s0.current c = t := by simp [hs0, State.current, hc]
  have hfind : s0.findNextTask c t = s.findNextTask c t := rfl
  have hfb : s0.fallback c = s.fallback c := by simp [hs0, State.fallback]
  unfold State.schedule
  dsimp only
  rw [← hs0, hcur0, hfind, hfb]
  have honline := ((h.task t).current c hc).2.1
  -- the incoming task, when it is another one, is in use and no CPU runs it
  have hnext : (s.findNextTask c t).getD (s.fallback c) = t ∧ s.runnable t = true ∨
      s.taskBitmap ((s.findNextTask c t).getD (s.fallback c)) = true ∧
        ∀ c', (s.cpus c').currentTask ≠ some ((s.findNextTask c t).getD (s.fallback c)) := by
    cases hf : s.findNextTask c t with
    | none => exact .inr (hfall hf)
    | some n =>
      unfold State.findNextTask at hf
      rw [h.ready.head] at hf
      cases hq : (q c).head? with
      | some a =>
        rw [hq] at hf
        obtain rfl : a = n := Option.some.inj hf
        obtain ⟨hu, -, hno⟩ := (h.task a).queued.1 ⟨c, mem_of_mem_head? hq⟩
        exact .inr ⟨hu, hno⟩
      | none =>
        rw [hq] at hf
        dsimp only at hf
        split at hf
        · rename_i hr
          obtain rfl : t = n := Option.some.inj hf
          exact .inl ⟨rfl, hr⟩
        · cases hf
  generalize (s.findNextTask c t).getD (s.fallback c) = n at hnext
  rcases hnext with ⟨rfl, hr⟩ | ⟨hu, hno⟩
  · rw [if_pos rfl]
    exact ⟨q, l, h.resume hc hr⟩
  · have hne : n ≠ t := fun he => hno c (he ▸ hc)
    rw [if_neg hne]
    split
    · rename_i hr
      simp only [Bool.and_eq_true] at hr
      obtain ⟨hcur, hon, hyield⟩ := modCpu_frame (s := s0) (c := c)
        (g := fun cpu => { cpu with schedTicks := ((s0.cpus c).schedTicks + 1) % 2 ^ 32 }) (fun _ => rfl) fun _ => rfl
      obtain ⟨hcur', hon', hyield'⟩ := modCpu_frame (s := s) (c := c) (g := fun cpu => { cpu with yielding := false })
        (fun _ => rfl) fun _ => rfl
      exact ⟨q, l, h.stay hc hr.1 rfl rfl rfl (fun _ _ => rfl) hr.1 (fun c' => (hcur c').trans (hcur' c'))
        (fun c' => (hon c').trans (hon' c')) (fun c' hcc => (hyield c' hcc).trans (hyield' c' hcc)) rfl⟩
    · obtain ⟨q1, h1⟩ := h.putBack hc
      rw [hs0, switchTo_vacate]
      have hcpus : ((vacate s c).putBack t).cpus = (vacate s c).cpus := putBack_cpus
      refine h1.switchTo ?_ ?_ ?_ fun c' => ?_
      · rw [hcpus, vacate, modCpu_cpus_self]
      · rw [State.online, hcpus]
        exact (vacate_online c).trans honline
      · rw [putBack_taskBitmap]
        exact hu
      · rw [hcpus]
        by_cases hcc : c' = c
        · subst hcc; simp [vacate]
        · rw [vacate, modCpu_cpus_ne hcc]
          exact hno c'

/-! ## Boot -/

theorem schedulerInit_inv {totalCpus pml4 : Nat} (hpos : 0 < totalCpus) (hmax : totalCpus ≤ MAX_CPUS) :
    Inv (State.schedulerInit totalCpus pml4) (fun _ => []) [] := by
  have hcur : ∀ c t, ((State.schedulerInit totalCpus pml4).cpus c).currentTask = some t → c = 0 ∧ t = 0 := by
    intro c t hc
    by_cases h : c = 0
    · subst h
      exact ⟨rfl, by simpa [State.schedulerInit, eq_comm] using hc⟩
    · simp [State.schedulerInit, update_of_ne h, Cpu.zero] at hc
  have honline : ∀ c, (State.schedulerInit totalCpus pml4).online c = true → c = 0 := by
    intro c hc
    by_contra h
    simp [State.schedulerInit, State.online, update_of_ne h, Cpu.zero] at hc
  refine ⟨⟨fun _ => Dll.linked_nil, fun _ => rfl, fun _ => rfl, fun _ => rfl, fun _ _ h => by simp at h,
    fun _ _ => ⟨rfl, rfl⟩⟩, ⟨Dll.linked_nil, rfl, fun _ _ => ⟨rfl, rfl⟩⟩, List.Pairwise.nil, fun t => ?_,
    ⟨rfl, hpos, hmax, fun c hc => honline c hc ▸ hpos⟩⟩
  by_cases ht : t = 0
  · subst ht
    refine ⟨⟨fun h => by simp at h, fun h => by simp [State.schedulerInit] at h⟩,
      fun _ h => by simp [State.schedulerInit] at h, fun h => by simp at h, fun c hc => ?_, fun c c' hc hc' => ?_,
      fun h => by simp [State.schedulerInit] at h⟩
    · rw [(hcur c 0 hc).1]
      exact ⟨rfl, rfl, fun _ => rfl⟩
    · rw [(hcur c 0 hc).1, (hcur c' 0 hc').1]
  · have hz : (State.schedulerInit totalCpus pml4).tasks t = Task.zero := by
      simp [State.schedulerInit, update_of_ne ht]
    refine TaskInv.outside (fun c hc => ht (hcur c t hc).2) (fun _ h => by simp at h) (fun h => by simp at h)
      (fun h => ?_) fun _ => by rw [hz]; rfl
    simp [State.schedulerInit, ht] at h

theorem CpusOk.setOnline (h : CpusOk s) (hc : c < s.totalCpus) (honline : ∀ c', s'.online c' = (s.online c' || c' == c))
    (htotal : s'.totalCpus = s.totalCpus) : CpusOk s' := by
  refine ⟨by rw [honline, h.boot]; rfl, htotal ▸ h.pos, htotal ▸ h.max, fun c' hc' => ?_⟩
  rw [honline, Bool.or_eq_true, beq_iff_eq] at hc'
  rw [htotal]
  rcases hc' with hc' | rfl
  · exact h.lt c' hc'
  · exact hc

theorem setOnline_online {g : Cpu → Cpu} (hg : ∀ cpu, (g cpu).online = true) (c' : Nat) :
    (s.modCpu c g).online c' = (s.online c' || c' == c) := by
  by_cases hcc : c' = c
  · subst hcc; simp [State.online, hg]
  · simp [State.online, modCpu_cpus_ne hcc, hcc]

theorem Inv.idleSlot (h : Inv s q l) (hs : FreeSlot s s' t) (hc : c < s.totalCpus) (hoff : s.online c = false)
    {s3 : State} (hready : s3.ready = { s'.ready with targetCpu := update s'.ready.targetCpu t c })
    (hsleep : s3.sleep = s'.sleep) (hbit : s3.taskBitmap = s'.taskBitmap)
    (htask : ∀ u, u ≠ t → s3.tasks u = s'.tasks u) (hstate : (s3.tasks t).state = .running)
    (hcself : (s3.cpus c).currentTask = some t) (hcne : ∀ c', c' ≠ c → s3.cpus c' = s'.cpus c')
    (honline : ∀ c', s3.online c' = (s.online c' || c' == c)) (htotal : s3.totalCpus = s'.totalCpus) :
    Inv s3 q l := by
  obtain ⟨hnq, hnl, hnc⟩ := h.freeSlot hs
  have hnone : ∀ u, (s.cpus c).currentTask ≠ some u := fun u hu => by
    simp [((h.task u).current c hu).2.1] at hoff
  have hcne' : ∀ c', c' ≠ c → s3.cpus c' = s.cpus c' := fun c' hcc => by rw [hcne c' hcc, hs.cpus]
  have hof : ∀ c', (s3.cpus c').currentTask = some t → c' = c := fun c' hc' => by
    by_contra hcc
    rw [hcne' c' hcc] at hc'
    exact hnc c' hc'
  have hused : s3.taskBitmap t = true := (congrFun hbit t).trans hs.used
  refine h.change t ?_ (hsleep.trans hs.sleep ▸ h.sleep) (fun u hu => ?_)
    (h.sorted_of _ (List.Sublist.refl l) fun u hu => ?_) (h.cpus.setOnline hc honline (htotal.trans hs.totalCpus))
    (fun c' hc' => by rw [honline, hc']; rfl) ?_
  · rw [hready, hs.ready]
    refine { h.ready with target := fun c' u hu => ?_ }
    exact (update_of_ne (by rintro rfl; exact hnq c' hu) _ _).trans (h.ready.target c' u hu)
  · obtain ⟨hb, ht⟩ := hs.other u hu
    refine ⟨(congrFun hbit u).trans hb, by rw [htask u hu, ht], by rw [htask u hu, ht], fun _ => Iff.rfl, Iff.rfl,
      fun c' => ?_, fun c' hcu hy => ?_⟩
    · by_cases hcc : c' = c
      · rw [hcc, hcself]
        simp [Ne.symm hu, hnone u]
      · rw [hcne' c' hcc]
    · rwa [hcne' c' (by rintro rfl; exact hnone u hcu)] at hy
  · have hne : u ≠ t := by rintro rfl; exact hnl hu
    rw [htask u hne, (hs.other u hne).2]
  · refine ⟨⟨fun ⟨c', hq⟩ => absurd hq (hnq c'), fun ⟨_, hr, _⟩ => by simp [hstate] at hr⟩,
      fun _ hr => by simp [hstate] at hr, fun hl => absurd hl hnl, fun c' hc' => ?_, fun c1 c2 h1 h2 => ?_, fun hu => ?_⟩
    · rw [hof c' hc', honline]
      exact ⟨hused, by simp, fun _ => by simp [State.runnable, hstate]⟩
    · rw [hof c1 h1, hof c2 h2]
    · rw [hused] at hu
      cases hu

theorem Inv.taskInitAp (h : Inv s q l) (hc : c < s.totalCpus) (hoff : s.online c = false) : Inv (s.taskInitAp c) q l := by
  have hnone : ∀ t, (s.cpus c).currentTask ≠ some t := fun t ht => by
    simp [((h.task t).current c ht).2.1] at hoff
  unfold State.taskInitAp
  split
  · rename_i s' hf
    rw [findFreeSlot_none hf]
    have honline := setOnline_online (s := s) (c := c) (g := fun cpu => { cpu with online := true }) fun _ => rfl
    refine ⟨h.ready, h.sleep, h.sorted, fun u => (h.task u).same ⟨rfl, rfl, rfl, fun _ => Iff.rfl, Iff.rfl,
      fun c' => ?_, fun c' hcu hy => ?_⟩ fun c' hc' => by rw [honline, hc']; rfl, h.cpus.setOnline hc honline rfl⟩
    · by_cases hcc : c' = c
      · subst hcc; simp
      · rw [modCpu_cpus_ne hcc]
    · rwa [modCpu_cpus_ne (by rintro rfl; exact hnone u hcu)] at hy
  · rename_i s' slot hf
    have hs := findFreeSlot_some hf
    dsimp only
    refine h.idleSlot hs hc hoff rfl rfl rfl (fun u hu => update_of_ne hu ..) (by simp [State.modCpu])
      (by simp) (fun c' hcc => modCpu_cpus_ne hcc) (fun c' => ?_) rfl
    rw [setOnline_online fun _ => rfl]
    simp [State.online, State.modTask, hs.cpus]

theorem taskInitAp_frame : (s.taskInitAp c).totalCpus = s.totalCpus ∧ ∀ c', c' ≠ c →
    (s.taskInitAp c).online c' = s.online c' := by
  unfold State.taskInitAp
  split
  · rename_i s' hf
    rw [findFreeSlot_none hf]
    exact ⟨rfl, fun c' hcc => by rw [State.online, modCpu_cpus_ne hcc]; rfl⟩
  · rename_i s' slot hf
    have hs := findFreeSlot_some hf
    refine ⟨hs.totalCpus, fun c' hcc => ?_⟩
    rw [State.online, modCpu_cpus_ne hcc]
    simp only [State.modTask, hs.cpus]
    rfl

theorem boot_inv (totalCpus : Nat) (hpos : 0 < totalCpus) (hmax : totalCpus ≤ MAX_CPUS) (up : Nat → Bool) (pml4 : Nat) :
    Inv (State.boot totalCpus up pml4) (fun _ => []) [] := by
  have hfold : ∀ (is : List Nat) (s : State), is.Nodup → Inv s (fun _ => []) [] →
      (∀ c ∈ is, c < s.totalCpus ∧ s.online c = false) → Inv (is.foldl State.taskInitAp s) (fun _ => []) [] := by
    intro is
    induction is with
    | nil => exact fun s _ h _ => h
    | cons c is ih =>
      intro s hnd h hoff
      rw [nodup_cons] at hnd
      obtain ⟨hc, ho⟩ := hoff c mem_cons_self
      refine ih _ hnd.2 (h.taskInitAp hc ho) fun c' hc' => ?_
      obtain ⟨ht, hsame⟩ := taskInitAp_frame (s := s) (c := c)
      obtain ⟨hlt, ho'⟩ := hoff c' (mem_cons_of_mem _ hc')
      exact ⟨ht ▸ hlt, (hsame c' (by rintro rfl; exact hnd.1 hc')).trans ho'⟩
  have hnd : (List.range totalCpus).Nodup := nodup_range
  refine hfold _ _ ?_ (schedulerInit_inv hpos hmax) fun c hc => ?_
  · exact (hnd.sublist (tail_sublist _)).filter _
  · have hmem := (mem_filter.1 hc).1
    have hlt : c < totalCpus := mem_range.1 (mem_of_mem_tail hmem)
    refine ⟨hlt, ?_⟩
    have hne : c ≠ 0 := by
      rintro rfl
      obtain ⟨n, rfl⟩ : ∃ n, totalCpus = n + 1 := ⟨totalCpus - 1, by omega⟩
      rw [range_succ_eq_map] at hmem
      simp at hmem
    simp [State.schedulerInit, State.online, update_of_ne hne, Cpu.zero]

/-! ## Runs -/

inductive Op
  | taskCreate (c : Nat) (stack : Bool)
  | schedule (c : Nat)
  | taskYield (c : Nat)
  | taskBlock (c : Nat)
  | taskBlockWithTimeout (c wakeTick : Nat)
  | taskSleep (c ms now : Nat)
  | taskExit (c waitStatus waitCode : Nat)
  | taskWakeup (t : Slot)
  | taskWakeExpired (tick : Nat)

/-- A CPU that is online makes the call; between marking its current task and calling `schedule` it makes no other. -/
def State.mayCall (s : State) : Op → Bool
  | .schedule c => s.online c
  | .taskCreate c _ | .taskYield c | .taskBlock c | .taskBlockWithTimeout c _ | .taskSleep c _ _ | .taskExit c _ _ =>
    s.online c && !(s.cpus c).yielding
  | .taskWakeup _ | .taskWakeExpired _ => true

def State.call (s : State) : Op → State
  | .taskCreate c stack => s.taskCreate c stack
  | .schedule c => s.schedule c
  | .taskYield c => s.taskYield c
  | .taskBlock c => s.taskBlock c
  | .taskBlockWithTimeout c wakeTick => s.taskBlockWithTimeout c wakeTick
  | .taskSleep c ms now => s.taskSleep c ms now
  | .taskExit c waitStatus waitCode => s.taskExit c waitStatus waitCode
  | .taskWakeup t => s.taskWakeup t
  | .taskWakeExpired tick => s.taskWakeExpired tick

def step (s : State) (op : Op) : State :=
  if s.mayCall op then s.call op else s

/-- The CPU has a current task and, if `schedule` there has to fall back, it falls back to a task that is in use and that
no CPU runs. -/
def State.canSchedule (s : State) (c : Nat) : Bool :=
  match (s.cpus c).currentTask with
  | none => false
  | some t => (s.findNextTask c t).isSome || s.taskBitmap (s.fallback c) && !s.isCurrent (s.fallback c)

def Met (s : State) : Op → Bool
  | .schedule c | .taskYield c => s.canSchedule c
  | .taskBlock c | .taskBlockWithTimeout c _ | .taskSleep c _ _ | .taskExit c _ _ => (s.cpus c).currentTask.isSome
  | .taskCreate _ _ | .taskWakeup _ | .taskWakeExpired _ => true

theorem Inv.canSchedule (h : Inv s q l) (hm : s.canSchedule c = true) :
    ∃ t, (s.cpus c).currentTask = some t ∧ (s.findNextTask c t = none →
      s.taskBitmap (s.fallback c) = true ∧ ∀ c', (s.cpus c').currentTask ≠ some (s.fallback c)) := by
  unfold State.canSchedule at hm
  split at hm
  · cases hm
  · rename_i t hc
    refine ⟨t, hc, fun hnone => ?_⟩
    rw [hnone] at hm
    simp only [Option.isSome_none, Bool.false_or, Bool.and_eq_true, Bool.not_eq_true'] at hm
    exact ⟨hm.1, h.not_current hm.2⟩

theorem Inv.taskYield (h : Inv s q l) (hm : s.canSchedule c = true) : ∃ q' l', Inv (s.taskYield c) q' l' := by
  obtain ⟨hcur, honline, hyield⟩ := modCpu_frame (s := s) (c := c)
    (g := fun cpu => { cpu with schedTicks := SCHEDULER_HZ }) (fun _ => rfl) fun _ => rfl
  have h' : Inv (s.modCpu c fun cpu => { cpu with schedTicks := SCHEDULER_HZ }) q l := by
    refine h.congr rfl rfl rfl (fun _ => rfl) (fun _ => rfl) hcur honline (fun c' hy => ?_) rfl
    by_cases hcc : c' = c
    · subst hcc; simpa using hy
    · rwa [hyield c' hcc] at hy
  obtain ⟨t, hc, hfall⟩ := h.canSchedule hm
  have hfb : (s.modCpu c fun cpu => { cpu with schedTicks := SCHEDULER_HZ }).fallback c = s.fallback c := by
    simp [State.fallback]
  refine h'.schedule ((hcur c).trans hc) fun hnone => ?_
  rw [hfb]
  exact ⟨(hfall hnone).1, fun c' => by rw [hcur c']; exact (hfall hnone).2 c'⟩

theorem not_yielding (h : (s.online c && !(s.cpus c).yielding) = true) : (s.cpus c).yielding = false := by
  simp only [Bool.and_eq_true, Bool.not_eq_true'] at h
  exact h.2

theorem Inv.step (h : Inv s q l) {op : Op} (hm : Met s op = true) : ∃ q' l', Inv (step s op) q' l' := by
  unfold Sched.step
  split
  · rename_i hmay
    cases op with
    | taskCreate c stack => exact h.taskCreate stack
    | schedule c =>
      obtain ⟨t, hc, hfall⟩ := h.canSchedule hm
      exact h.schedule hc hfall
    | taskYield c => exact h.taskYield hm
    | taskBlock c =>
      obtain ⟨t, hc⟩ := Option.isSome_iff_exists.1 hm
      exact ⟨q, l, h.taskBlock hc (not_yielding hmay)⟩
    | taskBlockWithTimeout c wakeTick =>
      obtain ⟨t, hc⟩ := Option.isSome_iff_exists.1 hm
      exact ⟨q, h.taskBlockWithTimeout hc (not_yielding hmay) wakeTick⟩
    | taskSleep c ms now =>
      obtain ⟨t, hc⟩ := Option.isSome_iff_exists.1 hm
      exact ⟨q, h.taskSleep hc (not_yielding hmay) ms now⟩
    | taskExit c waitStatus waitCode =>
      obtain ⟨t, hc⟩ := Option.isSome_iff_exists.1 hm
      exact h.taskExit hc (not_yielding hmay) waitStatus waitCode
    | taskWakeup t => exact h.taskWakeup
    | taskWakeExpired tick =>
      obtain ⟨q', h'⟩ := h.taskWakeExpired tick
      exact ⟨q', _, h'⟩
  · exact ⟨q, l, h⟩

/-- Each ready queue is a doubly linked list without repetition, of the length its CPU counts; a task is in one just when
it is READY and current on no CPU; the sleep list is linked, without repetition and sorted, it holds every SLEEPING task
and only SLEEPING and BLOCKED ones; and a task is current on one CPU at most. -/
structure QueuesOk (s : State) (q : Nat → List Slot) (l : List Slot) : Prop where
  readyLinked : ∀ c, Dll.Linked s.ready.nextReady s.ready.prevReady (q c)
  readyHead : ∀ c, s.ready.localReadyHead c = (q c).head?
  readyTail : ∀ c, s.ready.localReadyTail c = (q c).getLast?
  readyCount : ∀ c, s.ready.localTaskCount c = (q c).length
  readyOnce : ∀ c c' t, t ∈ q c → t ∈ q c' → c = c'
  readyIff : ∀ t, (∃ c, t ∈ q c) ↔
    s.taskBitmap t = true ∧ (s.tasks t).state = .ready ∧ ∀ c, (s.cpus c).currentTask ≠ some t
  sleepLinked : Dll.Linked s.sleep.nextSleep s.sleep.prevSleep l
  sleepHead : s.sleep.sleepHead = l.head?
  sleepSorted : l.Pairwise fun a b => (s.tasks a).wakeTick ≤ (s.tasks b).wakeTick
  sleepAll : ∀ t, s.taskBitmap t = true → (s.tasks t).state = .sleeping → t ∈ l
  sleepOnly : ∀ t ∈ l, s.taskBitmap t = true ∧ ((s.tasks t).state = .sleeping ∨ (s.tasks t).state = .blocked)
  currentOnce : ∀ c c' t, (s.cpus c).currentTask = some t → (s.cpus c').currentTask = some t → c = c'

theorem Inv.queuesOk (h : Inv s q l) : QueuesOk s q l where
  readyLinked := h.ready.linked
  readyHead := h.ready.head
  readyTail := h.ready.tail
  readyCount := h.ready.count
  readyOnce c c' t ht ht' := (h.ready.target c t ht).symm.trans (h.ready.target c' t ht')
  readyIff t := (h.task t).queued
  sleepLinked := h.sleep.linked
  sleepHead := h.sleep.head
  sleepSorted := h.sorted
  sleepAll t := (h.task t).sleeping
  sleepOnly t := (h.task t).sleeper
  currentOnce c c' t := (h.task t).once c c'

/-- **The queues over a run**: from boot on, with any CPUs up and the calls in any order, as long as no `schedule` falls
back to a task that a CPU is still running. -/
theorem run_queuesOk (n : Fin MAX_CPUS) (up : Nat → Bool) (pml4 : Nat) (ops : List Op)
    (hmet : Run.Guarded step (fun s op => Met s op = true) (State.boot (n.val + 1) up pml4) ops) :
    ∀ s ∈ Run.states step (State.boot (n.val + 1) up pml4) ops, ∃ q l, QueuesOk s q l := by
  intro s hs
  have hboot := boot_inv (n.val + 1) (Nat.succ_pos _) n.isLt up pml4
  obtain ⟨q, l, h⟩ := Run.states_forall (P := fun s => ∃ q l, Inv s q l)
    (fun s op hP hm => by
      obtain ⟨q, l, h⟩ := hP
      exact h.step hm) ops _ ⟨_, _, hboot⟩ hmet s hs
  exact ⟨q, l, h.queuesOk⟩

def sleepOps : List Op :=
  [.taskCreate 0 true, .taskSleep 0 5 0, .schedule 0, .taskWakeExpired 5, .taskYield 0, .taskWakeup 1, .taskExit 0 0 1,
    .schedule 0]

theorem run_queuesOk_sleep :
    Run.Guarded step (fun s op => Met s op = true) (State.boot 1 (fun _ => false) 1) sleepOps ∧
    ∀ s ∈ Run.states step (State.boot 1 (fun _ => false) 1) sleepOps, ∃ q l, QueuesOk s q l := by
  have hmet : Run.Guarded step (fun s op => Met s op = true) (State.boot 1 (fun _ => false) 1) sleepOps := by
    simp only [sleepOps, Run.Guarded]
    decide +kernel
  exact ⟨hmet, run_queuesOk ⟨0, by decide⟩ (fun _ => false) 1 sleepOps hmet⟩

/-- Task 0 sleeps with nothing else to run: it stays current, SLEEPING and off the sleep list. -/
theorem sleep_alone_leaves_list :
    ¬ ∀ (n : Fin MAX_CPUS) (up : Nat → Bool) (pml4 : Nat) (ops : List Op),
      ∀ s ∈ Run.states step (State.boot (n.val + 1) up pml4) ops, ∃ q l, QueuesOk s q l := by
  intro hall
  obtain ⟨q, l, h⟩ := hall ⟨0, by decide⟩ (fun _ => false) 1 [.taskSleep 0 100 0, .schedule 0] _ (Run.foldl_mem_states _ _)
  have hnil : l.head? = none := h.sleepHead.symm.trans (by decide +kernel)
  have hmem := h.sleepAll 0 (by decide +kernel) (by decide +kernel)
  rw [List.head?_eq_none_iff.1 hnil] at hmem
  cases hmem

end EterOS.Sched
