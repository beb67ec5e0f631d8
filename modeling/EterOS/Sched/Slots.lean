import EterOS.Sched.Life
/-!
# Slots — when a task can be created

`task_create`, `task_fork` and `task_clone` ask two accounts for a slot: `task_count`, one more than the highest slot that
ever held a task, which never falls, and `task_bitmap`.  A slot is rightly taken (`Held`) by a task that has not exited, by
one a CPU has not switched away from yet, or by a zombie whose parent can still wait for it.

`Slots` ties the bitmap to the ids: a slot in use has an id, an empty one has none, and the parent of a task is alive or
task 0.
-/
namespace EterOS.Sched

open Function (update update_self update_of_ne)

variable {s s' : State} {t u k : Slot} {c : Nat}

/-! ## Who may hold a slot -/

/-- A `waitpid(-1)` of task `j` would find the death of `i`.  Task 0 is left out: what is orphaned goes to it so that
`find_free_slot` may recycle the slot. -/
def State.couldWait (s : State) (j i : Slot) : Bool :=
  j != 0 && s.taskBitmap j && !s.isDead j && (s.tasks j).id != (s.tasks i).id &&
    taskIsWaitTarget (s.tasks j) (s.tasks i) (-1) 0 &&
    (s.tasks i).waitPending

def State.Alive (s : State) (i : Slot) : Prop :=
  (i = 0 ∨ (s.tasks i).id ≠ 0) ∧ (s.tasks i).state ≠ .dead

/-- The slot holds a task that is alive, that a CPU has still to switch away from, or that its parent can wait for. -/
def State.Held (s : State) (i : Slot) : Prop :=
  s.Alive i ∨ (s.tasks i).state = .dead ∧ ((∃ c, (s.cpus c).currentTask = some i) ∨ ∃ j, s.couldWait j i = true)

/-! ## The invariant -/

structure Slots (s : State) : Prop where
  kernel : s.taskBitmap 0 = true ∧ (s.tasks 0).id = 0 ∧ (s.tasks 0).parentId = 0 ∧ (s.tasks 0).state ≠ .dead
  named : ∀ i, i ≠ 0 → s.taskBitmap i = true → (s.tasks i).id ≠ 0
  empty : ∀ i, s.taskBitmap i = false → (s.tasks i).id = 0
  parented : ∀ i, s.taskBitmap i = true → (s.tasks i).parentId = 0 ∨
    ∃ j, s.taskBitmap j = true ∧ (s.tasks j).state ≠ .dead ∧ (s.tasks j).id = (s.tasks i).parentId
  apart : ∀ i, i ≠ 0 → s.taskBitmap i = true → (s.tasks i).parentId ≠ (s.tasks i).id
  untold : ∀ i, s.taskBitmap i = true → (s.tasks i).state = .dead → (s.tasks i).waitPending = true
  /-- Ids are handed out in turn, until they are used up. -/
  below : s.nextId = 0 ∨ ∀ i, (s.tasks i).id < s.nextId
  range : s.nextId < 2 ^ 32

theorem Slots.frame (h : Slots s) (hf : LifeFrame s s') : Slots s' := by
  obtain ⟨hbit, hid, hparent, halive⟩ := h.kernel
  refine ⟨⟨?_, ?_, ?_, ?_⟩, fun i h0 hi => ?_, fun i hi => ?_, fun i hi => ?_, fun i h0 hi => ?_, fun i hi hd => ?_, ?_,
    hf.nextId ▸ h.range⟩
  · rw [hf.bitmap]; exact hbit
  · rw [(hf.task 0).id]; exact hid
  · rw [(hf.task 0).parentId]; exact hparent
  · exact fun hd => halive ((hf.task 0).dead hd).1
  · rw [(hf.task i).id]
    exact h.named i h0 (hf.bitmap ▸ hi)
  · rw [(hf.task i).id]
    exact h.empty i (hf.bitmap ▸ hi)
  · rw [(hf.task i).parentId]
    refine (h.parented i (hf.bitmap ▸ hi)).imp_right ?_
    rintro ⟨j, hj, hd, he⟩
    exact ⟨j, hf.bitmap ▸ hj, fun hd' => hd ((hf.task j).dead hd').1, by rw [(hf.task j).id, he]⟩
  · rw [(hf.task i).parentId, (hf.task i).id]
    exact h.apart i h0 (hf.bitmap ▸ hi)
  · obtain ⟨hd', hp, -⟩ := (hf.task i).dead hd
    rw [hp]
    exact h.untold i (hf.bitmap ▸ hi) hd'
  · rw [hf.nextId]
    refine h.below.imp_right fun hb i => ?_
    rw [(hf.task i).id]
    exact hb i

theorem taskReapZombieLocked_nextId (k : Slot) : (s.taskReapZombieLocked k).nextId = s.nextId := by
  unfold State.taskReapZombieLocked State.releaseCr3 State.vmmDestroyPml4
  dsimp only [State.modTask]
  split
  · split <;> rfl
  · rfl

theorem Slots.reap (h : Slots s) (h0 : k ≠ 0) (hdead : (s.tasks k).state = .dead) : Slots (s.taskReapZombieLocked k) := by
  obtain ⟨hother, hstate, -⟩ := taskReapZombieLocked_frame (s := s) (t := k)
  have hbit : (s.taskReapZombieLocked k).taskBitmap k = false := update_self ..
  have hid : ((s.taskReapZombieLocked k).tasks k).id = 0 := by simp [State.taskReapZombieLocked]
  have hnext := taskReapZombieLocked_nextId (s := s) k
  have hne : ∀ i, (s.taskReapZombieLocked k).taskBitmap i = true → i ≠ k := by
    rintro i hi rfl
    rw [hbit] at hi
    cases hi
  obtain ⟨hb0, ht0⟩ := hother 0 (Ne.symm h0)
  refine ⟨?_, fun i hi0 hi => ?_, fun i hi => ?_, fun i hi => ?_, fun i hi0 hi => ?_, fun i hi hd => ?_, ?_, hnext ▸ h.range⟩
  · rw [hb0, ht0]; exact h.kernel
  · obtain ⟨hb, ht⟩ := hother i (hne i hi)
    rw [ht]
    exact h.named i hi0 (hb ▸ hi)
  · by_cases hik : i = k
    · rw [hik]; exact hid
    · obtain ⟨hb, ht⟩ := hother i hik
      rw [ht]
      exact h.empty i (hb ▸ hi)
  · obtain ⟨hb, ht⟩ := hother i (hne i hi)
    rw [ht]
    refine (h.parented i (hb ▸ hi)).imp_right ?_
    rintro ⟨j, hj, hd, he⟩
    have hjk : j ≠ k := by
      rintro rfl
      exact hd hdead
    obtain ⟨hbj, htj⟩ := hother j hjk
    exact ⟨j, hbj.trans hj, by rw [htj]; exact hd, by rw [htj]; exact he⟩
  · obtain ⟨hb, ht⟩ := hother i (hne i hi)
    rw [ht]
    exact h.apart i hi0 (hb ▸ hi)
  · obtain ⟨hb, ht⟩ := hother i (hne i hi)
    rw [ht] at hd ⊢
    exact h.untold i (hb ▸ hi) hd
  · rw [hnext]
    refine h.below.imp_right fun hb i => ?_
    by_cases hik : i = k
    · rw [hik, hid]
      exact Nat.pos_of_ne_zero fun hz => by simpa [hz] using hb k
    · rw [(hother i hik).2]
      exact hb i

/-! ## Exit -/

theorem Slots.exitMark (h : Slots s) (h0 : s.current c ≠ 0) (ws wc : Nat) : Slots (s.exitMark c ws wc) := by
  have hx := exitMark_exited s c ws wc
  obtain ⟨hbit, hid, hparent, halive⟩ := h.kernel
  have hparentOf : ∀ i, ((s.exitMark c ws wc).tasks i).parentId = 0 ∨
    ((s.exitMark c ws wc).tasks i).parentId = (s.tasks i).parentId ∧
        ¬((s.tasks i).id ≠ 0 ∧ (s.tasks i).parentId = (s.tasks (s.current c)).id) := by
    intro i
    rw [(hx i).parentId, hid]
    split
    · exact .inl rfl
    · rename_i hn
      exact .inr ⟨rfl, hn⟩
  have hstate : ∀ j, j ≠ s.current c → ((s.exitMark c ws wc).tasks j).state = (s.tasks j).state :=
    fun j hj => ((hx j).other hj).1
  refine ⟨⟨hbit, (hx 0).id.trans hid, ?_, ?_⟩, fun i hi0 hi => ?_, fun i hi => ?_, fun i hi => ?_, fun i hi0 hi => ?_,
    fun i hi hd => ?_, h.below.imp_right fun hb i => ?_, h.range⟩
  · rcases hparentOf 0 with hp | ⟨hp, -⟩
    · exact hp
    · exact hp.trans hparent
  · rw [hstate 0 (Ne.symm h0)]
    exact halive
  · rw [(hx i).id]
    exact h.named i hi0 hi
  · rw [(hx i).id]
    exact h.empty i hi
  · rcases hparentOf i with hp | ⟨hp, hn⟩
    · exact .inl hp
    · rw [hp]
      by_cases hi0 : i = 0
      · exact .inl (hi0 ▸ hparent)
      · refine (h.parented i hi).imp_right ?_
        rintro ⟨j, hj, hd, he⟩
        have hjt : j ≠ s.current c := by
          rintro rfl
          exact hn ⟨h.named i hi0 hi, he.symm⟩
        exact ⟨j, hj, by rw [hstate j hjt]; exact hd, (hx j).id.trans he⟩
  · rw [(hx i).id]
    rcases hparentOf i with hp | ⟨hp, -⟩
    · rw [hp]
      exact (h.named i hi0 hi).symm
    · rw [hp]
      exact h.apart i hi0 hi
  · by_cases hit : i = s.current c
    · exact ((hx i).self hit).2.1
    · obtain ⟨hs, hp, -⟩ := (hx i).other hit
      rw [hp]
      exact h.untold i hi (hs ▸ hd)
  · rw [(hx i).id]
    exact hb i

/-! ## A slot is filled -/

theorem Slots.fill (h : Slots s) (hf : FreeSlot s s' k) {s2 : State} (hbit : s2.taskBitmap = s'.taskBitmap)
    (htask : ∀ u, u ≠ k → s2.tasks u = s'.tasks u) (hnext : s2.nextId = (s.nextId + 1) % 2 ^ 32) (hnew : s.nextId ≠ 0)
    (hid : (s2.tasks k).id = s.nextId) (hstate : (s2.tasks k).state = .ready)
    (hparent : (s2.tasks k).parentId = 0 ∨
      ∃ j, s.taskBitmap j = true ∧ (s.tasks j).state ≠ .dead ∧ (s.tasks j).id = (s2.tasks k).parentId) : Slots s2 := by
  have hk0 : k ≠ 0 := by
    rintro rfl
    rcases hf.free with hb | hr
    · rw [h.kernel.1] at hb
      cases hb
    · simp [State.reapable] at hr
  have hne : ∀ j, s.taskBitmap j = true → (s.tasks j).state ≠ .dead → j ≠ k := by
    rintro j hj hd rfl
    rcases hf.free with hb | hr
    · rw [hj] at hb
      cases hb
    · simp only [State.reapable, Bool.and_eq_true, beq_iff_eq] at hr
      exact hd hr.1.1.2
  have hother : ∀ j, j ≠ k → s2.taskBitmap j = s.taskBitmap j ∧ s2.tasks j = s.tasks j := fun j hj =>
    ⟨(congrFun hbit j).trans (hf.other j hj).1, (htask j hj).trans (hf.other j hj).2⟩
  have hlift : ∀ p, (∃ j, s.taskBitmap j = true ∧ (s.tasks j).state ≠ .dead ∧ (s.tasks j).id = p) →
      ∃ j, s2.taskBitmap j = true ∧ (s2.tasks j).state ≠ .dead ∧ (s2.tasks j).id = p := by
    rintro p ⟨j, hj, hd, he⟩
    obtain ⟨hb, ht⟩ := hother j (hne j hj hd)
    exact ⟨j, hb.trans hj, by rw [ht]; exact hd, by rw [ht]; exact he⟩
  have hlt : ∀ i, (s.tasks i).id < s.nextId := h.below.resolve_left hnew
  obtain ⟨hb0, ht0⟩ := hother 0 (Ne.symm hk0)
  refine ⟨?_, fun i hi0 hi => ?_, fun i hi => ?_, fun i hi => ?_, fun i hi0 hi => ?_, fun i hi hd => ?_, ?_,
    hnext ▸ Nat.mod_lt _ (by decide)⟩
  · rw [hb0, ht0]; exact h.kernel
  · by_cases hik : i = k
    · rw [hik, hid]; exact hnew
    · obtain ⟨hb, ht⟩ := hother i hik
      rw [ht]
      exact h.named i hi0 (hb ▸ hi)
  · by_cases hik : i = k
    · rw [hik, hbit, hf.used] at hi
      cases hi
    · obtain ⟨hb, ht⟩ := hother i hik
      rw [ht]
      exact h.empty i (hb ▸ hi)
  · by_cases hik : i = k
    · rw [hik]
      exact hparent.imp_right (hlift _)
    · obtain ⟨hb, ht⟩ := hother i hik
      rw [ht]
      exact (h.parented i (hb ▸ hi)).imp_right (hlift _)
  · by_cases hik : i = k
    · rw [hik, hid]
      rcases hparent with hp | ⟨j, hj, hd, he⟩
      · rw [hp]
        exact hnew.symm
      · rw [← he]
        exact Nat.ne_of_lt (hlt j)
    · obtain ⟨hb, ht⟩ := hother i hik
      rw [ht]
      exact h.apart i hi0 (hb ▸ hi)
  · by_cases hik : i = k
    · rw [hik, hstate] at hd
      cases hd
    · obtain ⟨hb, ht⟩ := hother i hik
      rw [ht] at hd ⊢
      exact h.untold i (hb ▸ hi) hd
  · rw [hnext]
    by_cases hwrap : (s.nextId + 1) % 2 ^ 32 = 0
    · exact .inl hwrap
    · have hadd : (s.nextId + 1) % 2 ^ 32 = s.nextId + 1 := by
        have := h.range
        omega
      refine .inr fun i => ?_
      rw [hadd]
      by_cases hik : i = k
      · rw [hik, hid]
        exact Nat.lt_succ_self _
      · rw [(hother i hik).2]
        exact Nat.lt_succ_of_lt (hlt i)

theorem dropSlot_eq (hf : s.findFreeSlot = (s', some k)) : { s' with taskBitmap := update s'.taskBitmap k false } = s ∨
      s.reapable k = true ∧ { s' with taskBitmap := update s'.taskBitmap k false } = s.taskReapZombieLocked k := by
  unfold State.findFreeSlot at hf
  split at hf
  · rename_i slot hfind
    simp only [Prod.mk.injEq, Option.some.injEq] at hf
    obtain ⟨rfl, rfl⟩ := hf
    have hfree : s.taskBitmap slot = false := by simpa using List.find?_some hfind
    left
    dsimp only
    rw [Function.update_idem, ← hfree, Function.update_eq_self]
  · split at hf
    · rename_i i hfind
      simp only [Prod.mk.injEq, Option.some.injEq] at hf
      obtain ⟨rfl, rfl⟩ := hf
      right
      refine ⟨List.find?_some hfind, ?_⟩
      dsimp only
      rw [Function.update_idem]
      unfold State.taskReapZombieLocked
      dsimp only
      rw [Function.update_idem]
    · simp at hf

theorem Slots.dropSlot (h : Slots s) (hf : s.findFreeSlot = (s', some k)) :
    Slots { s' with taskBitmap := update s'.taskBitmap k false } := by
  rcases dropSlot_eq hf with he | ⟨hr, he⟩
  · rw [he]; exact h
  · rw [he]
    simp only [State.reapable, Bool.and_eq_true, beq_iff_eq, decide_eq_true_eq] at hr
    exact h.reap (by simpa using hr.1.1.1) hr.1.1.2

theorem findFreeSlot_nextId (hf : s.findFreeSlot = (s', some k)) : s'.nextId = s.nextId := by
  rcases dropSlot_eq hf with he | ⟨-, he⟩
  · have hnext := congrArg State.nextId he
    exact hnext
  · have hnext := congrArg State.nextId he
    exact hnext.trans (taskReapZombieLocked_nextId k)

theorem Slots.taskCreate (h : Slots s) (hnew : s.nextId ≠ 0) (c : Nat) (stack : Bool) : Slots (s.taskCreate c stack) := by
  unfold State.taskCreate
  split
  · exact h
  · split
    · rename_i s' hf
      rw [findFreeSlot_none hf]
      exact h
    · rename_i s' k hf
      have hnext := findFreeSlot_nextId hf
      split
      · exact h.dropSlot hf
      · dsimp only
        refine h.fill (findFreeSlot_some hf) rfl (fun u hu => update_of_ne hu ..) ?_ hnew ?_ ?_ (.inl ?_)
        · exact congrArg (fun n => (n + 1) % 2 ^ 32) hnext
        · simp [State.enqueueReady, hnext]
        · simp [State.enqueueReady]
        · simp [State.enqueueReady]

theorem Slots.newChild (h : Slots s) (hnew : s.nextId ≠ 0) (hlive : s.live (s.current c) = true)
    (halive : s.isDead (s.current c) = false) {tgid pgid : Option Nat} {stack : Bool} {child : Option Slot}
    (hn : s.newChild c tgid pgid stack = (s', child)) : Slots s' := by
  unfold State.newChild at hn
  split at hn
  · cases hn
    exact h
  · split at hn
    · rename_i s1 hf
      cases hn
      rw [findFreeSlot_none hf]
      exact h
    · rename_i s1 k hf
      have hnext := findFreeSlot_nextId hf
      split at hn
      · cases hn
        exact h.dropSlot hf
      · cases hn
        have hfree := findFreeSlot_some hf
        have hcur : s1.current c = s.current c := by rw [State.current, hfree.cpus]; rfl
        have hused : s.taskBitmap (s.current c) = true := by
          simp only [State.live, Bool.and_eq_true] at hlive
          exact hlive.1
        have hdead : (s.tasks (s.current c)).state ≠ .dead := by simpa [State.isDead] using halive
        have hk : s.current c ≠ k := by
          rintro rfl
          rcases hfree.free with hb | hr
          · rw [hused] at hb
            cases hb
          · simp only [State.reapable, Bool.and_eq_true, beq_iff_eq] at hr
            exact hdead hr.1.1.2
        refine h.fill hfree rfl (fun u hu => update_of_ne hu ..) ?_ hnew ?_ ?_ (.inr ⟨s.current c, hused, hdead, ?_⟩)
        · exact congrArg (fun n => (n + 1) % 2 ^ 32) hnext
        · simp [State.modTask, hnext]
        · simp [State.modTask]
        · simp [State.modTask, hcur, (hfree.other _ hk).2]

/-! ## wait -/

theorem Slots.waitStep (h : Slots s) {target event : Slot → Bool} {options : BitVec 32} :
    Slots (s.waitStep c target event options).1 := by
  unfold State.waitStep
  split
  · rename_i i hi
    dsimp only
    split
    · exact h
    · split
      · exact h
      · split
        · rename_i hz
          refine h.reap ?_ hz
          rintro rfl
          exact h.kernel.2.2.2 hz
        · rename_i hz
          have hframe : LifeFrame s (s.modTask i fun t => { t with waitPending := false, waitCode := 0 }) :=
            (LifeFrame.refl s).modTask i ⟨rfl, rfl, rfl, fun hd => absurd hd hz⟩
          exact h.frame hframe
  · split
    · exact h
    · split <;> exact h

/-! ## The condition -/

def State.hasRoom (s : State) : Bool :=
  s.freeBit.isSome || ((List.finRange MAX_TASKS).find? s.reapable).isSome

/-- A task is created while ids are left, and task 0, the kernel's idle loop, does not exit. -/
def IdsMet (s : State) : LifeOp → Bool
  | .proc (.sched (.taskCreate _ _)) | .proc (.taskFork _ _) | .proc (.taskClone _ _ _) => s.nextId != 0
  | .proc (.sched (.taskExit c _ _)) => s.current c != 0
  | _ => true

/-- The condition on one call: a task is created while the highest slot has never held one, or when there is no room. -/
def SlotsMet (s : State) (op : LifeOp) : Bool :=
  IdsMet s op && match op with
    | .proc (.sched (.taskCreate _ _)) | .proc (.taskFork _ _) | .proc (.taskClone _ _ _) =>
      decide (s.taskCount < MAX_TASKS) || !s.hasRoom
    | _ => true

theorem SlotsMet.ids {op : LifeOp} (h : SlotsMet s op = true) : IdsMet s op = true := by
  simp only [SlotsMet, Bool.and_eq_true] at h
  exact h.1

theorem breathes_spec (h : s.breathes c = true) : s.isDead (s.current c) = false := by
  simpa [State.breathes] using h

theorem Slots.step (h : Slots s) {op : LifeOp} (hm : IdsMet s op = true) : Slots (lifeStep s op) := by
  unfold lifeStep
  split
  · rename_i hmay
    by_cases hop : op.changes = false
    · exact h.frame (lifeFrame_call hmay hop)
    · match op, hop with
      | .proc (.sched (.taskCreate c stack)), _ =>
        exact h.taskCreate (by simpa [IdsMet] using hm) c stack
      | .proc (.sched (.taskExit c ws wc)), _ =>
        exact (h.exitMark (by simpa [IdsMet] using hm) ws wc).frame (schedFrame_taskExit s c ws wc).life
      | .proc (.taskFork c stack), _ =>
        simp only [State.mayLife, State.mayCallProc, ProcOp.caller, Option.all_some, Bool.and_eq_true] at hmay
        have hids : s.nextId ≠ 0 := by simpa [IdsMet] using hm
        have hnew : ∀ s' child, s.newChild c none none stack = (s', child) → Slots s' := fun _ _ hn =>
          h.newChild hids (idleCaller_spec hmay.1).2.1 (breathes_spec hmay.2) hn
        unfold State.callLife State.callProc State.taskFork
        dsimp only
        split
        · exact hnew _ _ ‹_›
        · exact (hnew _ _ ‹_›).frame ((LifeFrame.refl _).setCall _ _)
      | .proc (.taskClone c flags stack), _ =>
        simp only [State.mayLife, State.mayCallProc, ProcOp.caller, Option.all_some, Bool.and_eq_true] at hmay
        have hids : s.nextId ≠ 0 := by simpa [IdsMet] using hm
        have hnew : ∀ tgid pgid s' child, s.newChild c tgid pgid stack = (s', child) → Slots s' := fun _ _ _ _ hn =>
          h.newChild hids (idleCaller_spec hmay.1).2.1 (breathes_spec hmay.2) hn
        unfold State.callLife State.callProc State.taskClone
        dsimp only
        split
        · exact hnew _ _ _ _ ‹_›
        · split
          · exact (hnew _ _ _ _ ‹_›).frame ((LifeFrame.refl _).finishChild _ _ _)
          · exact (hnew _ _ _ _ ‹_›).frame ((LifeFrame.refl _).setCall _ _)
      | .proc (.taskWaitpid c pid options), _ => exact h.waitStep
      | .proc (.taskWaitid c idtype id options), _ =>
        unfold State.callLife State.callProc State.taskWaitid
        dsimp only
        split
        · exact h
        · split
          · exact h
          · exact h.waitStep
  · exact h

/-! ## What a full table holds -/

theorem freeBit_some (hf : s.freeBit = some k) : s.taskBitmap k = false ∧ ∀ j, j < k → s.taskBitmap j = true := by
  obtain ⟨hk, i, hi, he, hbefore⟩ := List.find?_eq_some_iff_getElem.1 hf
  refine ⟨by simpa using hk, fun j hj => ?_⟩
  rw [List.getElem_finRange] at he
  have hji : j.val < i := by
    rw [← he] at hj
    exact hj
  have hused := hbefore j.val hji
  rw [List.getElem_finRange] at hused
  simpa using hused

theorem freeBit_none (hf : s.freeBit = none) (i : Slot) : s.taskBitmap i = true := by
  simpa using List.find?_eq_none.1 hf i (List.mem_finRange i)

theorem Slots.held (h : Slots s) (hroom : s.hasRoom = false) (i : Slot) : s.Held i := by
  simp only [State.hasRoom, Bool.or_eq_false_iff, Option.isSome_eq_false_iff, Option.isNone_iff_eq_none] at hroom
  have hused := freeBit_none hroom.1 i
  by_cases hi0 : i = 0
  · exact .inl ⟨.inl hi0, hi0 ▸ h.kernel.2.2.2⟩
  by_cases hdead : (s.tasks i).state = .dead
  · refine .inr ⟨hdead, ?_⟩
    have hreap : ¬ s.reapable i = true := List.find?_eq_none.1 hroom.2 i (List.mem_finRange i)
    by_cases hcur : s.isCurrent i = true
    · simp only [State.isCurrent, List.any_eq_true, beq_iff_eq] at hcur
      obtain ⟨c, -, hc⟩ := hcur
      exact .inl ⟨c, hc⟩
    · have hparent : (s.tasks i).parentId ≠ 0 := by
        intro hp
        apply hreap
        simp [State.reapable, hi0, hdead, hp, h.kernel.2.1, hcur]
      obtain ⟨j, hj, hd, he⟩ := (h.parented i hused).resolve_left hparent
      refine .inr ⟨j, ?_⟩
      have hne : (s.tasks i).parentId ≠ (s.tasks i).id := h.apart i hi0 hused
      have hj0 : j ≠ 0 := by
        rintro rfl
        exact hparent (he.symm.trans h.kernel.2.1)
      simp [State.couldWait, State.isDead, State.taskIsWaitTarget, hj0, hj, hd, he, hne, h.untold i hused hdead]
  · exact .inl ⟨.inr (h.named i hi0 hused), hdead⟩

/-! ## A call that fails for lack of a slot -/

def LifeOp.creates : LifeOp → Bool
  | .proc (.sched (.taskCreate _ true)) | .proc (.taskFork _ true) | .proc (.taskClone _ _ true) => true
  | _ => false

def State.LacksSlot (s : State) (op : LifeOp) : Prop :=
  op.creates = true ∧ s.mayLife op = true ∧ (lifeStep s op).nextId = s.nextId

theorem findFreeSlot_of_hasRoom (hroom : s.hasRoom = true) : ∃ s' k, s.findFreeSlot = (s', some k) := by
  unfold State.findFreeSlot
  simp only [State.hasRoom, Bool.or_eq_true] at hroom
  split
  · exact ⟨_, _, rfl⟩
  · rename_i hnone
    obtain ⟨i, hi⟩ := Option.isSome_iff_exists.1 (hroom.resolve_left (by simp [hnone]))
    rw [hi]
    exact ⟨_, _, rfl⟩

theorem succ_mod_ne (n : Nat) : (n + 1) % 2 ^ 32 ≠ n := by
  have : (n + 1) % 2 ^ 32 < 2 ^ 32 := Nat.mod_lt _ (by decide)
  omega

theorem taskCreate_nextId (hcount : s.taskCount < MAX_TASKS) (hf : s.findFreeSlot = (s', some k)) :
    (s.taskCreate c true).nextId = (s.nextId + 1) % 2 ^ 32 := by
  unfold State.taskCreate
  have hnext := findFreeSlot_nextId hf
  rw [if_neg (Nat.not_le.2 hcount), hf, ← hnext]
  rfl

theorem newChild_some (hcount : s.taskCount < MAX_TASKS) (hroom : s.hasRoom = true) (tgid pgid : Option Nat) :
    ∃ s' k, s.newChild c tgid pgid true = (s', some k) ∧ s'.nextId = (s.nextId + 1) % 2 ^ 32 := by
  obtain ⟨s1, k, hf⟩ := findFreeSlot_of_hasRoom hroom
  unfold State.newChild
  have hnext := findFreeSlot_nextId hf
  rw [if_neg (Nat.not_le.2 hcount), hf, ← hnext]
  exact ⟨_, k, rfl, rfl⟩

theorem creates_of_hasRoom {op : LifeOp} (hop : op.creates = true) (hmay : s.mayLife op = true)
    (hcount : s.taskCount < MAX_TASKS) (hroom : s.hasRoom = true) :
    (lifeStep s op).nextId = (s.nextId + 1) % 2 ^ 32 := by
  unfold lifeStep
  rw [if_pos hmay]
  match op, hop with
  | .proc (.sched (.taskCreate c true)), _ =>
    obtain ⟨s', k, hf⟩ := findFreeSlot_of_hasRoom hroom
    exact taskCreate_nextId hcount hf
  | .proc (.taskFork c true), _ =>
    obtain ⟨s', k, hn, hnext⟩ := newChild_some (c := c) hcount hroom none none
    unfold State.callLife State.callProc State.taskFork
    dsimp only
    rw [hn]
    exact hnext
  | .proc (.taskClone c flags true), _ =>
    obtain ⟨s', k, hn, hnext⟩ := newChild_some (c := c) hcount hroom
      (if hasBit flags CLONE_THREAD then some (s.tasks (s.current c)).tgid else none)
      (some (s.tasks (s.current c)).pgid)
    unfold State.callLife State.callProc State.taskClone
    dsimp only
    rw [hn]
    dsimp only
    split
    · exact hnext
    · exact hnext

theorem Slots.lacks (h : Slots s) {op : LifeOp} (hm : SlotsMet s op = true) (hl : s.LacksSlot op) (i : Slot) : s.Held i := by
  obtain ⟨hop, hmay, hsame⟩ := hl
  refine h.held ?_ i
  by_contra hroom
  have hroom : s.hasRoom = true := by simpa using hroom
  have hcount : s.taskCount < MAX_TASKS := by
    match op, hop with
    | .proc (.sched (.taskCreate c true)), _ | .proc (.taskFork c true), _ | .proc (.taskClone c flags true), _ =>
      simp only [SlotsMet, Bool.and_eq_true, Bool.or_eq_true, decide_eq_true_eq] at hm
      exact hm.2.resolve_right (by simp [hroom])
  exact succ_mod_ne s.nextId ((creates_of_hasRoom hop hmay hcount hroom).symm.trans hsame)

/-! ## How many tasks can be created -/

/-- The next `k` calls of `task_create` on CPU `c` all create a task. -/
def State.CreatesAll (c : Nat) : State → Nat → Prop
  | _, 0 => True
  | s, k + 1 => (s.taskCreate c true).nextId ≠ s.nextId ∧ CreatesAll c (s.taskCreate c true) k

def State.emptySlots (s : State) : Finset Slot :=
  Finset.univ.filter fun i => s.taskBitmap i = false

theorem mem_emptySlots (i : Slot) : i ∈ s.emptySlots ↔ s.taskBitmap i = false := by
  simp [State.emptySlots]

theorem taskCreate_lowest (hcount : s.taskCount < MAX_TASKS) (hf : s.freeBit = some k) :
    (s.taskCreate c true).emptySlots = s.emptySlots.erase k ∧
      (s.taskCreate c true).taskCount = max s.taskCount (k.val + 1) ∧ (s.taskCreate c true).nextId ≠ s.nextId := by
  have hslot : s.findFreeSlot = ({ s with taskBitmap := update s.taskBitmap k true }, some k) := by
    unfold State.findFreeSlot
    rw [hf]
  have hnext := taskCreate_nextId (c := c) hcount hslot
  refine ⟨?_, ?_, by rw [hnext]; exact succ_mod_ne s.nextId⟩
  · have hbit : (s.taskCreate c true).taskBitmap = update s.taskBitmap k true := by
      unfold State.taskCreate
      rw [if_neg (Nat.not_le.2 hcount), hslot]
      rfl
    ext i
    rw [Finset.mem_erase, mem_emptySlots, mem_emptySlots, hbit, Function.update_apply]
    by_cases hi : i = k <;> simp [hi]
  · unfold State.taskCreate
    rw [if_neg (Nat.not_le.2 hcount), hslot]
    rfl

theorem freeBit_isSome (h : s.emptySlots.Nonempty) : ∃ k, s.freeBit = some k := by
  obtain ⟨i, hi⟩ := h
  rw [mem_emptySlots] at hi
  cases hf : s.freeBit with
  | some k => exact ⟨k, rfl⟩
  | none =>
    rw [freeBit_none hf i] at hi
    cases hi

theorem createsAll_of_empty (c : Nat) : ∀ (n : Nat) (s : State), n ≤ s.emptySlots.card →
    (n = 0 ∨ s.taskCount < MAX_TASKS) → s.CreatesAll c n
  | 0, _, _, _ => trivial
  | n + 1, s, hn, hcount => by
    have hcount : s.taskCount < MAX_TASKS := hcount.resolve_left (Nat.succ_ne_zero n)
    obtain ⟨k, hk⟩ := freeBit_isSome (Finset.card_pos.1 (Nat.lt_of_lt_of_le (Nat.succ_pos n) hn))
    obtain ⟨hempty, hnew, hnext⟩ := taskCreate_lowest (c := c) hcount hk
    obtain ⟨hfree, hlow⟩ := freeBit_some hk
    have hcard : n ≤ (s.emptySlots.erase k).card := by
      rw [Finset.card_erase_of_mem ((mem_emptySlots k).2 hfree)]
      omega
    refine ⟨hnext, createsAll_of_empty c n _ (hempty ▸ hcard) ?_⟩
    by_cases hn0 : n = 0
    · exact .inl hn0
    · -- another empty slot is left, and it lies above the one just taken
      obtain ⟨j, hj⟩ := Finset.card_pos.1 (Nat.lt_of_lt_of_le (Nat.pos_of_ne_zero hn0) hcard)
      obtain ⟨hjk, hj⟩ := Finset.mem_erase.1 hj
      have hkj : k < j := by
        rcases lt_trichotomy j k with hlt | heq | hgt
        · rw [mem_emptySlots, hlow j hlt] at hj
          cases hj
        · exact absurd heq hjk
        · exact hgt
      rw [hnew]
      exact .inr (Nat.max_lt.2 ⟨hcount, Nat.lt_of_le_of_lt (Nat.succ_le_of_lt hkj) j.isLt⟩)

theorem empty_of_createsAll (c : Nat) : ∀ (n : Nat) (s : State), (∀ i, (s.tasks i).state ≠ .dead) → s.CreatesAll c n →
    n ≤ s.emptySlots.card
  | 0, _, _, _ => Nat.zero_le _
  | n + 1, s, halive, ⟨hnext, hrest⟩ => by
    have hcount : s.taskCount < MAX_TASKS := by
      by_contra hc
      apply hnext
      unfold State.taskCreate
      rw [if_pos (Nat.not_lt.1 hc)]
    have hnone : (List.finRange MAX_TASKS).find? s.reapable = none := by
      rw [List.find?_eq_none]
      intro i _ hi
      simp only [State.reapable, Bool.and_eq_true, beq_iff_eq] at hi
      exact halive i hi.1.1.2
    cases hf : s.freeBit with
    | none =>
      refine absurd ?_ hnext
      have hslot : s.findFreeSlot = (s, none) := by
        unfold State.findFreeSlot
        rw [hf, hnone]
      unfold State.taskCreate
      rw [if_neg (Nat.not_le.2 hcount), hslot]
    | some k =>
      obtain ⟨hempty, -, -⟩ := taskCreate_lowest (c := c) hcount hf
      have halive' : ∀ i, ((s.taskCreate c true).tasks i).state ≠ .dead := by
        intro i
        unfold State.taskCreate State.findFreeSlot
        rw [if_neg (Nat.not_le.2 hcount), hf]
        by_cases hi : i = k
        · subst hi
          simp [State.enqueueReady]
        · simpa [State.enqueueReady, State.modTask, update_of_ne hi] using halive i
      have hle := empty_of_createsAll c n _ halive' hrest
      rw [hempty, Finset.card_erase_of_mem ((mem_emptySlots k).2 (freeBit_some hf).1)] at hle
      have hpos := Finset.card_pos.2 ⟨k, (mem_emptySlots k).2 (freeBit_some hf).1⟩
      omega

/-! ## Boot -/

/-- After boot the first `n` slots hold task 0 and the idle tasks, with their numbers for ids. -/
structure BootSlots (s : State) (n : Nat) : Prop where
  bitmap : ∀ i, s.taskBitmap i = decide (i.val < n)
  count : s.taskCount = n
  next : s.nextId = n
  pos : 0 < n
  le : n ≤ MAX_TASKS
  id : ∀ i, (s.tasks i).id = if i.val < n then i.val else 0
  parent : ∀ i, (s.tasks i).parentId = 0
  alive : ∀ i, (s.tasks i).state ≠ .dead

theorem BootSlots.taskInitAp {n : Nat} (h : BootSlots s n) (c : Nat) : ∃ n', BootSlots (s.taskInitAp c) n' := by
  have hnone : (List.finRange MAX_TASKS).find? s.reapable = none := by
    rw [List.find?_eq_none]
    intro i _ hi
    simp only [State.reapable, Bool.and_eq_true, beq_iff_eq] at hi
    exact h.alive i hi.1.1.2
  unfold State.taskInitAp State.findFreeSlot
  rw [hnone]
  cases hf : s.freeBit with
  | none => exact ⟨n, h.bitmap, h.count, h.next, h.pos, h.le, h.id, h.parent, h.alive⟩
  | some k =>
    obtain ⟨hfree, hlow⟩ := freeBit_some hf
    have hk : k.val = n := by
      rw [h.bitmap] at hfree
      have hge : n ≤ k.val := by simpa using hfree
      rcases Nat.eq_or_lt_of_le hge with he | hlt
      · exact he.symm
      · have hn := hlow ⟨n, Nat.lt_trans hlt k.isLt⟩ hlt
        rw [h.bitmap] at hn
        simp at hn
    have hmod : (s.nextId + 1) % 2 ^ 32 = n + 1 := by
      rw [h.next]
      have := h.le
      exact Nat.mod_eq_of_lt (by simp only [MAX_TASKS] at this; omega)
    have hlt : ∀ i : Slot, i ≠ k → (i.val < n + 1 ↔ i.val < n) := by
      intro i hi
      have hne : i.val ≠ n := fun he => hi (Fin.ext (he.trans hk.symm))
      omega
    refine ⟨n + 1, fun i => ?_, ?_, hmod, Nat.succ_pos n, hk ▸ k.isLt, fun i => ?_, fun i => ?_, fun i => ?_⟩
    · by_cases hi : i = k
      · subst hi
        simp [State.modCpu, State.modTask, hk]
      · simp [State.modCpu, State.modTask, update_of_ne hi, h.bitmap, hlt i hi]
    · simp only [State.modCpu, State.modTask, h.count, hk]
      omega
    · by_cases hi : i = k
      · subst hi
        simp [State.modCpu, State.modTask, hk, h.next]
      · simp [State.modCpu, State.modTask, update_of_ne hi, h.id, hlt i hi]
    · by_cases hi : i = k
      · subst hi
        simp [State.modCpu, State.modTask]
      · simp [State.modCpu, State.modTask, update_of_ne hi, h.parent]
    · by_cases hi : i = k
      · subst hi
        simp [State.modCpu, State.modTask]
      · simp [State.modCpu, State.modTask, update_of_ne hi, h.alive]

theorem boot_bootSlots (totalCpus : Nat) (up : Nat → Bool) (pml4 : Nat) :
    ∃ n, BootSlots (State.boot totalCpus up pml4) n := by
  have hfold : ∀ (is : List Nat) (s : State), (∃ n, BootSlots s n) → ∃ n, BootSlots (is.foldl State.taskInitAp s) n := by
    intro is
    induction is with
    | nil => exact fun _ h => h
    | cons c is ih =>
      rintro s ⟨n, h⟩
      exact ih _ (h.taskInitAp c)
  refine hfold _ _ ⟨1, fun i => ?_, rfl, rfl, Nat.one_pos, by decide, fun i => ?_, fun i => ?_, fun i => ?_⟩
  · by_cases hi : i = 0
    · subst hi; simp [State.schedulerInit]
    · have : ¬ i.val < 1 := fun hlt => hi (Fin.ext (by simpa using hlt))
      simp [State.schedulerInit, hi, this]
  all_goals
    by_cases hi : i = 0
    · subst hi; simp [State.schedulerInit, Task.zero]
    · simp [State.schedulerInit, Task.zero, hi]

theorem BootSlots.slots {n : Nat} (h : BootSlots s n) : Slots s := by
  have hpos := h.pos
  have hle : n ≤ 64 := h.le
  refine ⟨⟨by simp [h.bitmap, hpos], by simp [h.id], h.parent 0, h.alive 0⟩, fun i h0 hi => ?_, fun i hi => ?_,
    fun i _ => .inl (h.parent i), fun i h0 hi => ?_, fun i _ hd => absurd hd (h.alive i), .inr fun i => ?_, ?_⟩
  · rw [h.bitmap, decide_eq_true_eq] at hi
    rw [h.id, if_pos hi]
    exact fun he => h0 (Fin.ext he)
  · rw [h.bitmap, decide_eq_false_iff_not] at hi
    rw [h.id, if_neg hi]
  · rw [h.bitmap, decide_eq_true_eq] at hi
    rw [h.parent, h.id, if_pos hi]
    exact fun he => h0 (Fin.ext he.symm)
  · rw [h.id, h.next]
    split
    · assumption
    · exact hpos
  · rw [h.next]
    omega

/-! ## Runs -/

/-- **Slots are reused**: in every run from boot whose calls meet the condition, a creation fails for lack of a slot only
when every slot is rightly taken; and where no task is left but those of boot, as many can be created as after boot. -/
theorem slots_are_reused (n : Fin MAX_CPUS) (up : Nat → Bool) (pml4 : Nat) (ops : List LifeOp)
    (hmet : Run.Guarded lifeStep (fun s op => SlotsMet s op = true) (State.boot (n.val + 1) up pml4) ops) :
    Run.Guarded lifeStep (fun s op => s.LacksSlot op → ∀ i, s.Held i) (State.boot (n.val + 1) up pml4) ops ∧
    ∀ s ∈ Run.states lifeStep (State.boot (n.val + 1) up pml4) ops, s.taskCount < MAX_TASKS →
      (∀ i, (s.tasks i).id ≠ 0 → ((State.boot (n.val + 1) up pml4).tasks i).id ≠ 0) →
      ∀ c k, (State.boot (n.val + 1) up pml4).CreatesAll c k → s.CreatesAll c k := by
  obtain ⟨m, hboot⟩ := boot_bootSlots (n.val + 1) up pml4
  constructor
  · exact Run.guarded_imp (P := Slots) (fun s op hs hm => ⟨hs.step (SlotsMet.ids hm), hs.lacks hm⟩) ops _ hboot.slots hmet
  · intro s hs hcount hgone c k hk
    have h : Slots s := Run.states_forall (P := Slots)
      (fun s op hs hm => hs.step (SlotsMet.ids hm)) ops _ hboot.slots hmet s hs
    have hsub : (State.boot (n.val + 1) up pml4).emptySlots ⊆ s.emptySlots := by
      intro i hi
      rw [mem_emptySlots] at hi ⊢
      by_contra hused
      have hused : s.taskBitmap i = true := by simpa using hused
      have hi0 : i ≠ 0 := by
        rintro rfl
        rw [hboot.slots.kernel.1] at hi
        cases hi
      exact hgone i (h.named i hi0 hused) (hboot.slots.empty i hi)
    have hle := Nat.le_trans (empty_of_createsAll c k _ hboot.alive hk) (Finset.card_le_card hsub)
    exact createsAll_of_empty c k s hle (.inr hcount)

def forkOps : List LifeOp :=
  [.proc (.sched (.taskCreate 0 true)), .proc (.sched (.taskYield 0)), .proc (.taskFork 0 true), .proc (.forkReturn 0 3),
    .proc (.sched (.taskYield 0)), .proc (.sched (.taskYield 0)), .proc (.sched (.taskExit 0 0 1)),
    .proc (.sched (.schedule 0)), .proc (.taskWaitpid 0 (-1) 0), .proc (.sched (.taskExit 0 0 1)),
    .proc (.sched (.schedule 0)), .proc (.taskWaitpid 0 (-1) 0), .proc (.sched (.taskCreate 0 true))]

theorem slots_are_reused_fork :
    Run.Guarded lifeStep (fun s op => SlotsMet s op = true) (State.boot 1 (fun _ => false) 1) forkOps ∧
    Run.Guarded lifeStep (fun s op => s.LacksSlot op → ∀ i, s.Held i) (State.boot 1 (fun _ => false) 1) forkOps ∧
    ∀ s ∈ Run.states lifeStep (State.boot 1 (fun _ => false) 1) forkOps, s.taskCount < MAX_TASKS →
      (∀ i, (s.tasks i).id ≠ 0 → ((State.boot 1 (fun _ => false) 1).tasks i).id ≠ 0) →
      ∀ c k, (State.boot 1 (fun _ => false) 1).CreatesAll c k → s.CreatesAll c k := by
  have hmet : Run.Guarded lifeStep (fun s op => SlotsMet s op = true) (State.boot 1 (fun _ => false) 1) forkOps := by
    simp only [forkOps, Run.Guarded]
    decide +kernel
  exact ⟨hmet, slots_are_reused ⟨0, by decide⟩ (fun _ => false) 1 forkOps hmet⟩

def fillOps : List LifeOp :=
  [.proc (.sched (.taskCreate 0 true)), .proc (.sched (.taskYield 0)), .proc (.taskFork 0 true), .proc (.forkReturn 0 3),
    .proc (.sched (.taskYield 0)), .proc (.sched (.taskYield 0))] ++
    List.replicate 61 (.proc (.sched (.taskCreate 0 true))) ++
    [.proc (.sched (.taskExit 0 0 1)), .proc (.sched (.schedule 0)), .proc (.taskWaitpid 0 (-1) 0)]

/-- Slot 2 is empty again, yet the parent cannot fork another. -/
theorem full_table_stays_full :
    ¬ ∀ (n : Fin MAX_CPUS) (up : Nat → Bool) (pml4 : Nat) (ops : List LifeOp),
      Run.Guarded lifeStep (fun s op => s.LacksSlot op → ∀ i, s.Held i) (State.boot (n.val + 1) up pml4) ops := by
  intro hall
  have hg := hall ⟨0, by decide⟩ (fun _ => false) 1 (fillOps ++ [.proc (.taskFork 0 true)])
  obtain ⟨-, hlast, -⟩ := Run.guarded_append.1 hg
  set s := fillOps.foldl lifeStep (State.boot 1 (fun _ => false) 1) with hs
  have hrun : (s.tasks 2).id = 0 ∧ (s.tasks 2).state = .ready ∧ s.mayLife (.proc (.taskFork 0 true)) = true ∧
      (lifeStep s (.proc (.taskFork 0 true))).nextId = s.nextId := by
    rw [hs]
    decide +kernel
  obtain ⟨hid, hstate, hmay, hnext⟩ := hrun
  rcases hlast ⟨rfl, hmay, hnext⟩ 2 with ⟨hheld, -⟩ | ⟨hdead, -⟩
  · exact hheld.elim (by decide) fun hne => hne hid
  · rw [hstate] at hdead
    cases hdead

end EterOS.Sched
