import EterOS.Sched.Slots
/-!
# LifeInv — the queues over runs of the whole machine

A child that is still being built has a slot and the state READY, but no place in a queue yet: to the queues its slot is
empty. `settled` is the table read that way, and `LifeInv` says that the settled table is in order and that every child
being built is so for one caller.  `LifeMet` is the condition of the queues, on the settled table.
-/
namespace EterOS.Sched

open Function (update update_self update_of_ne)

variable {s s' : State} {q q' : Nat → List Slot} {l l' : List Slot} {t u k : Slot} {c : Nat}

def State.withBitmap (s : State) (b : Slot → Bool) : State := { s with taskBitmap := b }

/-- The table with the slots of children that are being built taken for empty. -/
def State.settled (s : State) : State := s.withBitmap s.live

structure LifeInv (s : State) (q : Nat → List Slot) (l : List Slot) : Prop where
  queues : Inv s.settled q l
  built : ∀ t, (s.tasks t).building = true → s.taskBitmap t = true
  forking : ∀ t k, s.live t = true → (s.tasks t).inCall = .fork k → (s.tasks k).building = true
  forkOnce : ∀ t t' k, s.live t = true → s.live t' = true → (s.tasks t).inCall = .fork k →
    (s.tasks t').inCall = .fork k → t = t'

/-! ## No call of the scheduler but `task_create` reads the bitmap -/

section WithBitmap

variable (b : Slot → Bool)

theorem wake_withBitmap (s : State) (t : Slot) : (s.withBitmap b).wake t = (s.wake t).withBitmap b := by
  unfold State.wake
  dsimp only
  rw [apply_ite (fun s : State => s.withBitmap b)]
  rfl

theorem wakeExpiredLoop_withBitmap (tick : Nat) : ∀ (fuel : Nat) (curr : Option Slot) (s : State),
    State.wakeExpiredLoop tick fuel curr (s.withBitmap b) = (State.wakeExpiredLoop tick fuel curr s).withBitmap b
  | 0, _, _ => rfl
  | _ + 1, none, _ => rfl
  | fuel + 1, some curr, s => by
    unfold State.wakeExpiredLoop
    rw [wake_withBitmap, wakeExpiredLoop_withBitmap tick fuel, apply_ite (fun s : State => s.withBitmap b)]
    rfl

theorem taskWakeup_withBitmap (s : State) (t : Slot) : (s.withBitmap b).taskWakeup t = (s.taskWakeup t).withBitmap b := by
  unfold State.taskWakeup
  dsimp only
  rw [wake_withBitmap]
  have hfirst : (if ((s.withBitmap b).tasks t).state = .blocked ∨ ((s.withBitmap b).tasks t).state = .sleeping then
      (s.wake t).withBitmap b else s.withBitmap b) =
      (if (s.tasks t).state = .blocked ∨ (s.tasks t).state = .sleeping then s.wake t else s).withBitmap b :=
    (apply_ite (fun s : State => s.withBitmap b) _ _ _).symm
  rw [hfirst]
  generalize (if (s.tasks t).state = .blocked ∨ (s.tasks t).state = .sleeping then s.wake t else s) = s1
  rw [apply_ite (fun s : State => s.withBitmap b), apply_ite (fun s : State => s.withBitmap b)]
  rfl

theorem taskWakeParentWaiter_withBitmap (s : State) (id : Nat) :
    (s.withBitmap b).taskWakeParentWaiter id = (s.taskWakeParentWaiter id).withBitmap b := by
  have hfold : ∀ (is : List Slot) (s : State),
    is.foldl (fun s i => if s.isWaiter id i then s.wake i else s) (s.withBitmap b) =
        (is.foldl (fun s i => if s.isWaiter id i then s.wake i else s) s).withBitmap b := by
    intro is
    induction is with
    | nil => exact fun _ => rfl
    | cons i is ih =>
      intro s
      rw [List.foldl_cons, List.foldl_cons, ← ih, wake_withBitmap, apply_ite (fun s : State => s.withBitmap b)]
      rfl
  exact hfold _ s

theorem schedule_withBitmap (s : State) (c : Nat) : (s.withBitmap b).schedule c = (s.schedule c).withBitmap b := by
  have hresume : ∀ (s : State) (t : Slot), (s.withBitmap b).resume t = (s.resume t).withBitmap b := by
    intro s t
    have hif : (if ((s.withBitmap b).tasks t).state = .ready then
        ((s.withBitmap b).dequeueReady t).modTask t fun task => { task with state := .running } else s.withBitmap b) =
        (if (s.tasks t).state = .ready then (s.dequeueReady t).modTask t fun task => { task with state := .running }
          else s).withBitmap b := by
      by_cases hr : (s.tasks t).state = .ready
      · exact (if_pos (c := ((s.withBitmap b).tasks t).state = .ready) hr).trans (by rw [if_pos hr]; rfl)
      · exact (if_neg (c := ((s.withBitmap b).tasks t).state = .ready) hr).trans (by rw [if_neg hr])
    unfold State.resume
    dsimp only
    rw [hif]
    rfl
  have hput : ∀ (s : State) (t : Slot), (s.withBitmap b).putBack t = (s.putBack t).withBitmap b := by
    intro s t
    unfold State.putBack
    rw [apply_ite (fun s : State => s.withBitmap b)]
    rfl
  have hswitch : ∀ (s : State) (c : Nat) (t : Slot), (s.withBitmap b).switchTo c t = (s.switchTo c t).withBitmap b := by
    intro s c t
    have hif : (if ((s.withBitmap b).tasks t).state = .ready then (s.withBitmap b).dequeueReady t else s.withBitmap b) =
        (if (s.tasks t).state = .ready then s.dequeueReady t else s).withBitmap b := by
      by_cases hr : (s.tasks t).state = .ready
      · exact (if_pos (c := ((s.withBitmap b).tasks t).state = .ready) hr).trans (by rw [if_pos hr]; rfl)
      · exact (if_neg (c := ((s.withBitmap b).tasks t).state = .ready) hr).trans (by rw [if_neg hr])
    unfold State.switchTo
    dsimp only
    rw [hif]
    rfl
  unfold State.schedule
  dsimp only
  rw [apply_ite (fun s : State => s.withBitmap b), apply_ite (fun s : State => s.withBitmap b), ← hresume, ← hswitch, ← hput]
  rfl

theorem call_withBitmap (s : State) {op : Op} (hop : ∀ c stack, op ≠ .taskCreate c stack) :
    (s.withBitmap b).call op = (s.call op).withBitmap b := by
  cases op with
  | taskCreate c stack => exact absurd rfl (hop c stack)
  | schedule c => exact schedule_withBitmap b s c
  | taskYield c => exact schedule_withBitmap b (s.modCpu c fun cpu => { cpu with schedTicks := SCHEDULER_HZ }) c
  | taskBlock c =>
    unfold State.call State.taskBlock
    dsimp only
    rw [apply_ite (fun s : State => s.withBitmap b)]
    rfl
  | taskBlockWithTimeout c wakeTick =>
    unfold State.call State.taskBlockWithTimeout
    dsimp only
    rw [apply_ite (fun s : State => s.withBitmap b)]
    rfl
  | taskSleep c ms now => rfl
  | taskExit c ws wc =>
    unfold State.call State.taskExit
    dsimp only
    rw [← taskWakeParentWaiter_withBitmap]
    rfl
  | taskWakeup t => exact taskWakeup_withBitmap b s t
  | taskWakeExpired tick => exact wakeExpiredLoop_withBitmap b tick MAX_TASKS _ s

end WithBitmap

/-! ## Who is being built -/

theorem live_iff : s.live t = true ↔ s.taskBitmap t = true ∧ (s.tasks t).building = false := by
  simp [State.live]

/-- Which slots are in use, which are being built and who is in which call stays as it was. -/
structure BuildSame (s s' : State) : Prop where
  bitmap : s'.taskBitmap = s.taskBitmap
  building : ∀ u, (s'.tasks u).building = (s.tasks u).building
  inCall : ∀ u, (s'.tasks u).inCall = (s.tasks u).inCall

theorem BuildSame.live (h : BuildSame s s') : s'.live = s.live := by
  funext u
  rw [State.live, State.live, h.bitmap, h.building u]

theorem SchedFrame.build (h : SchedFrame s s') : BuildSame s s' :=
  ⟨h.bitmap, fun u => (h.task u).building_eq, fun u => (h.task u).inCall_eq⟩

theorem BuildSame.settled (h : BuildSame s s') : s'.settled = s'.withBitmap s.live := by
  rw [State.settled, h.live]

theorem LifeInv.same (h : LifeInv s q l) (hb : BuildSame s s') (hq : Inv s'.settled q' l') : LifeInv s' q' l' := by
  refine ⟨hq, fun t ht => ?_, fun t k ht hc => ?_, fun t t' k ht ht' hc hc' => ?_⟩
  · rw [hb.bitmap]
    exact h.built t (hb.building t ▸ ht)
  · rw [hb.building]
    exact h.forking t k (hb.live ▸ ht) (hb.inCall t ▸ hc)
  · exact h.forkOnce t t' k (hb.live ▸ ht) (hb.live ▸ ht') (hb.inCall t ▸ hc) (hb.inCall t' ▸ hc')

theorem LifeInv.congr (h : LifeInv s q l) (hb : BuildSame s s') (hready : s'.ready = s.ready) (hsleep : s'.sleep = s.sleep)
    (hstate : ∀ u, (s'.tasks u).state = (s.tasks u).state) (htick : ∀ u, (s'.tasks u).wakeTick = (s.tasks u).wakeTick)
    (hcur : ∀ c, (s'.cpus c).currentTask = (s.cpus c).currentTask) (honline : ∀ c, s'.online c = s.online c)
    (hyield : ∀ c, (s'.cpus c).yielding = false → (s.cpus c).yielding = false) (htotal : s'.totalCpus = s.totalCpus) :
    LifeInv s' q l :=
  h.same hb (h.queues.congr hready hsleep hb.live hstate htick hcur honline hyield htotal)

theorem LifeInv.building_ready (h : LifeInv s q l) (hk : (s.tasks k).building = true) : (s.tasks k).state = .ready :=
  (h.queues.task k).unused (by simp [State.settled, State.withBitmap, State.live, hk])

theorem LifeInv.not_building (h : LifeInv s q l) (hk : (s.tasks k).state ≠ .ready) : (s.tasks k).building = false := by
  by_contra hb
  exact hk (h.building_ready (by simpa using hb))

theorem taskExit_build (s : State) (c ws wc : Nat) : BuildSame s (s.taskExit c ws wc) := by
  have hmark : BuildSame s (s.exitMark c ws wc) :=
    ⟨rfl, fun u => (exitMark_exited s c ws wc u).building, fun u => (exitMark_exited s c ws wc u).inCall⟩
  have hwake := (schedFrame_taskExit s c ws wc).build
  exact ⟨hwake.bitmap.trans hmark.bitmap, fun u => (hwake.building u).trans (hmark.building u),
    fun u => (hwake.inCall u).trans (hmark.inCall u)⟩

theorem call_build {op : Op} (hop : ∀ c stack, op ≠ .taskCreate c stack) : BuildSame s (s.call op) := by
  by_cases hexit : ∃ c ws wc, op = .taskExit c ws wc
  · obtain ⟨c, ws, wc, rfl⟩ := hexit
    exact taskExit_build s c ws wc
  · exact (schedFrame_call hop fun c ws wc he => hexit ⟨c, ws, wc, he⟩).build

theorem LifeInv.call (h : LifeInv s q l) {op : Op} (hop : ∀ c stack, op ≠ .taskCreate c stack)
    (hmay : s.mayCall op = true) (hm : Met s.settled op = true) : ∃ q' l', LifeInv (s.call op) q' l' := by
  have hb := call_build (s := s) hop
  obtain ⟨q', l', hq⟩ := h.queues.step hm
  have hstep : Sched.step s.settled op = s.settled.call op := if_pos hmay
  refine ⟨q', l', h.same hb ?_⟩
  rw [hb.settled, ← call_withBitmap s.live s hop]
  rw [hstep] at hq
  exact hq

/-! ## Slots -/

theorem LifeInv.freeSlot (h : LifeInv s q l) (hf : FreeSlot s s' k) :
    FreeSlot s.settled { s' with taskBitmap := update s.live k true } k := by
  refine ⟨hf.free.imp_left fun hb => ?_, update_self .., fun hb => ?_, fun hb => ?_, fun u hu => ?_, hf.ready, hf.sleep,
    hf.cpus, hf.totalCpus⟩
  · simp [State.settled, State.withBitmap, State.live, hb]
  · rcases hf.free with hb' | hr
    · exact hf.fresh hb'
    · simp only [State.reapable, Bool.and_eq_true, beq_iff_eq] at hr
      have hdead := hr.1.1.2
      have hbuild := h.not_building (k := k) (by simp [hdead])
      have hused : s.taskBitmap k = false := by simpa [State.settled, State.withBitmap, State.live, hbuild] using hb
      exact hf.fresh hused
  · exact hf.reaped (live_iff.1 hb).1
  · exact ⟨update_of_ne hu .., (hf.other u hu).2⟩

theorem LifeInv.free_not_building (h : LifeInv s q l) (hf : FreeSlot s s' k) : (s.tasks k).building = false := by
  rcases hf.free with hb | hr
  · by_contra hk
    have := h.built k (by simpa using hk)
    rw [hb] at this
    cases this
  · simp only [State.reapable, Bool.and_eq_true, beq_iff_eq] at hr
    exact h.not_building (by simp [hr.1.1.2])

theorem Inv.emptied (h : Inv s q l) (hdead : (s.tasks k).state = .dead) (hcur : s.isCurrent k = false)
    (hbit : s'.taskBitmap = update s.taskBitmap k false) (hk : (s'.tasks k).state = .ready)
    (hother : ∀ u, u ≠ k → s'.tasks u = s.tasks u) (hready : s'.ready = s.ready) (hsleep : s'.sleep = s.sleep)
    (hcpus : s'.cpus = s.cpus) (htotal : s'.totalCpus = s.totalCpus) : Inv s' q l := by
  have hnq := h.not_queued_of_state (t := k) (by simp [hdead])
  have hnl : k ∉ l := fun hl => by
    rcases ((h.task k).sleeper hl).2 with hs | hs <;> simp [hdead] at hs
  have honline : ∀ c, s'.online c = s.online c := fun c => by rw [State.online, hcpus]; rfl
  refine h.change k (hready ▸ h.ready) (hsleep ▸ h.sleep) (fun u hu => ?_)
    (h.sorted_of _ (List.Sublist.refl l) fun u hu => ?_) (h.cpus.congr honline htotal) (fun c hc => (honline c).trans hc) ?_
  · exact ⟨by rw [hbit]; exact update_of_ne hu .., by rw [hother u hu], by rw [hother u hu], fun _ => Iff.rfl, Iff.rfl,
      fun c => by rw [hcpus], fun c _ hy => by rwa [hcpus] at hy⟩
  · rw [hother u (by rintro rfl; exact hnl hu)]
  · refine TaskInv.outside (fun c => ?_) hnq hnl (fun hu => ?_) fun _ => hk
    · rw [hcpus]
      exact h.not_current hcur c
    · rw [hbit, update_self] at hu
      cases hu

theorem LifeInv.reap (h : LifeInv s q l) (hdead : (s.tasks k).state = .dead) (hcur : s.isCurrent k = false) :
    LifeInv (s.taskReapZombieLocked k) q l := by
  obtain ⟨hother, hstate, hready, hsleep, hcpus, htotal⟩ := taskReapZombieLocked_frame (s := s) (t := k)
  have hbuild := h.not_building (k := k) (by simp [hdead])
  have hbit : (s.taskReapZombieLocked k).taskBitmap k = false := update_self ..
  have hlive : (s.taskReapZombieLocked k).live = update s.live k false := by
    funext u
    by_cases hu : u = k
    · subst hu
      rw [update_self, State.live, hbit, Bool.false_and]
    · rw [update_of_ne hu, State.live, (hother u hu).1, (hother u hu).2]
      rfl
  have hof : ∀ u, (s.taskReapZombieLocked k).live u = true → u ≠ k ∧ s.live u = true := by
    intro u hu
    rw [hlive, Function.update_apply] at hu
    split at hu
    · cases hu
    · exact ⟨‹_›, hu⟩
  refine ⟨h.queues.emptied hdead hcur hlive hstate (fun u hu => (hother u hu).2) hready hsleep hcpus htotal,
    fun t ht => ?_, fun t j ht hc => ?_, fun t t' j ht ht' hc hc' => ?_⟩
  · by_cases htk : t = k
    · subst htk
      have hb : ((s.taskReapZombieLocked t).tasks t).building = (s.tasks t).building := by
        unfold State.taskReapZombieLocked State.releaseCr3 State.vmmDestroyPml4
        dsimp only
        split
        · split <;> simp
        · simp
      rw [hb, hbuild] at ht
      cases ht
    · rw [(hother t htk).2] at ht
      exact (hother t htk).1.trans (h.built t ht)
  · obtain ⟨htk, ht⟩ := hof t ht
    rw [(hother t htk).2] at hc
    have hj := h.forking t j ht hc
    have hjk : j ≠ k := by
      rintro rfl
      rw [hbuild] at hj
      cases hj
    rw [(hother j hjk).2]
    exact hj
  · obtain ⟨htk, ht⟩ := hof t ht
    obtain ⟨htk', ht'⟩ := hof t' ht'
    rw [(hother t htk).2] at hc
    rw [(hother t' htk').2] at hc'
    exact h.forkOnce t t' j ht ht' hc hc'

theorem reapable_spec (hr : s.reapable k = true) : (s.tasks k).state = .dead ∧ s.isCurrent k = false := by
  simp only [State.reapable, Bool.and_eq_true, beq_iff_eq, Bool.not_eq_true'] at hr
  exact ⟨hr.1.1.2, hr.2⟩

theorem LifeInv.dropSlot (h : LifeInv s q l) (hf : s.findFreeSlot = (s', some k)) :
    LifeInv { s' with taskBitmap := update s'.taskBitmap k false } q l := by
  rcases dropSlot_eq hf with he | ⟨hr, he⟩
  · rw [he]; exact h
  · rw [he]
    obtain ⟨hdead, hcur⟩ := reapable_spec hr
    exact h.reap hdead hcur

/-- The slot `find_free_slot` gave gets a task that is in no call: the children that were being built still are. -/
theorem LifeInv.calls (h : LifeInv s q l) (hf : FreeSlot s s' k) {s2 : State} (hbit : s2.taskBitmap = s'.taskBitmap)
    (htask : ∀ u, u ≠ k → s2.tasks u = s'.tasks u) (hcall : (s2.tasks k).inCall = .none) :
    (∀ t, (s2.tasks t).building = true → s2.taskBitmap t = true) ∧
    (∀ t j, s2.live t = true → (s2.tasks t).inCall = .fork j → (s2.tasks j).building = true ∧ j ≠ k) ∧
    ∀ t t' j, s2.live t = true → s2.live t' = true → (s2.tasks t).inCall = .fork j → (s2.tasks t').inCall = .fork j →
    t = t' := by
  have hother : ∀ u, u ≠ k → s2.taskBitmap u = s.taskBitmap u ∧ s2.tasks u = s.tasks u := fun u hu =>
    ⟨(congrFun hbit u).trans (hf.other u hu).1, (htask u hu).trans (hf.other u hu).2⟩
  have hof : ∀ t j, s2.live t = true → (s2.tasks t).inCall = .fork j → s.live t = true ∧ (s.tasks t).inCall = .fork j := by
    intro t j ht hc
    have htk : t ≠ k := by
      rintro rfl
      rw [hcall] at hc
      cases hc
    obtain ⟨hb, he⟩ := hother t htk
    rw [he] at hc
    rw [State.live, hb, he] at ht
    exact ⟨ht, hc⟩
  refine ⟨fun t ht => ?_, fun t j ht hc => ?_, fun t t' j ht ht' hc hc' => ?_⟩
  · by_cases htk : t = k
    · rw [htk, hbit, hf.used]
    · obtain ⟨hb, he⟩ := hother t htk
      rw [he] at ht
      exact hb.trans (h.built t ht)
  · obtain ⟨ht, hc⟩ := hof t j ht hc
    have hj := h.forking t j ht hc
    have hjk : j ≠ k := by
      rintro rfl
      rw [h.free_not_building hf] at hj
      cases hj
    rw [(hother j hjk).2]
    exact ⟨hj, hjk⟩
  · obtain ⟨ht, hc⟩ := hof t j ht hc
    obtain ⟨ht', hc'⟩ := hof t' j ht' hc'
    exact h.forkOnce t t' j ht ht' hc hc'

theorem LifeInv.taskCreate (h : LifeInv s q l) (c : Nat) (stack : Bool) : ∃ q' l', LifeInv (s.taskCreate c stack) q' l' := by
  unfold State.taskCreate
  split
  · exact ⟨q, l, h⟩
  · split
    · rename_i s' hf
      rw [findFreeSlot_none hf]
      exact ⟨q, l, h⟩
    · rename_i s' k hfind
      have hf := findFreeSlot_some hfind
      split
      · exact ⟨q, l, h.dropSlot hfind⟩
      · dsimp only
        generalize hs2 : State.mk _ _ _ _ _ _ _ _ _ _ = s2
        have hbit : s2.taskBitmap = s'.taskBitmap := by rw [← hs2]; rfl
        have htask : ∀ u, u ≠ k → s2.tasks u = s'.tasks u := fun u hu => by rw [← hs2]; exact update_of_ne hu ..
        have hself : (s2.tasks k).state = .ready ∧ (s2.tasks k).inCall = .none ∧ (s2.tasks k).building = false := by
          rw [← hs2]
          simp
        have hlive : s2.live = update s.live k true := by
          funext u
          by_cases hu : u = k
          · subst hu
            rw [update_self, State.live, hbit, hf.used, hself.2.2]
            rfl
          · rw [update_of_ne hu, State.live, hbit, htask u hu, (hf.other u hu).1, (hf.other u hu).2]
            rfl
        obtain ⟨hbuilt, hforking, honce⟩ := h.calls hf hbit htask hself.2.1
        have hput : (s2.withBitmap (update s.live k true)).taskBitmap = update s.live k true := rfl
        obtain ⟨q', l', hq⟩ := h.queues.fillSlot (h.freeSlot hf) hput
          (by rw [← hs2]; rfl) (by rw [← hs2]; rfl) (by rw [← hs2]; rfl) (by rw [← hs2]; rfl) htask hself.1
        have hset : (s2.enqueueReady k).settled = (s2.enqueueReady k).withBitmap s2.live := rfl
        refine ⟨q', l', ?_, hbuilt, fun t j ht hc => (hforking t j ht hc).1, honce⟩
        rw [hset, hlive]
        exact hq

/-- The child of a caller that goes on to clone its address space: it is being built, and for nobody else. -/
theorem LifeInv.newChild (h : LifeInv s q l) {tgid pgid : Option Nat} {stack : Bool} {child : Option Slot}
    (hn : s.newChild c tgid pgid stack = (s', child)) :
    LifeInv s' q l ∧ ∀ k, child = some k → (s'.tasks k).building = true ∧ ∀ t, s'.live t = true →
    (s'.tasks t).inCall ≠ .fork k := by
  unfold State.newChild at hn
  split at hn
  · cases hn
    exact ⟨h, fun k hk => by cases hk⟩
  · split at hn
    · rename_i s1 hf
      cases hn
      rw [findFreeSlot_none hf]
      exact ⟨h, fun k hk => by cases hk⟩
    · rename_i s1 k hfind
      have hf := findFreeSlot_some hfind
      split at hn
      · cases hn
        exact ⟨h.dropSlot hfind, fun k hk => by cases hk⟩
      · cases hn
        generalize hs2 : State.mk _ _ _ _ _ _ _ _ _ _ = s2
        have hbit : s2.taskBitmap = s1.taskBitmap := by rw [← hs2]; rfl
        have htask : ∀ u, u ≠ k → s2.tasks u = s1.tasks u := fun u hu => by rw [← hs2]; exact update_of_ne hu ..
        have hself : (s2.tasks k).state = .ready ∧ (s2.tasks k).wakeTick = (s1.tasks k).wakeTick ∧
            (s2.tasks k).inCall = .none ∧ (s2.tasks k).building = true := by
          rw [← hs2]
          simp [State.modTask]
        have hrest : s2.ready = s1.ready ∧ s2.sleep = s1.sleep ∧ s2.cpus = s1.cpus ∧ s2.totalCpus = s1.totalCpus := by
          rw [← hs2]
          exact ⟨rfl, rfl, rfl, rfl⟩
        obtain ⟨hready, hsleep, hcpus, htotal⟩ := hrest
        obtain ⟨hbuilt, hforking, honce⟩ := h.calls hf hbit htask hself.2.2.1
        have hfree := h.freeSlot hf
        have hdrop := h.queues.dropSlot hfree
        have hstate := h.queues.freeSlot_ready hfree
        refine ⟨⟨hdrop.congr hready hsleep ?_ (fun u => ?_) (fun u => ?_) (fun c => ?_) (fun c => ?_) (fun c hy => ?_)
          htotal, hbuilt, fun t j ht hc => (hforking t j ht hc).1, honce⟩, fun k' hk' => ?_⟩
        · funext u
          by_cases hu : u = k
          · subst hu
            simp [State.settled, State.withBitmap, State.live, hself.2.2.2]
          · simp [State.settled, State.withBitmap, State.live, update_of_ne hu, hbit, htask u hu, (hf.other u hu).1,
              (hf.other u hu).2]
        · by_cases hu : u = k
          · subst hu
            exact hself.1.trans hstate.symm
          · exact congrArg Task.state (htask u hu)
        · by_cases hu : u = k
          · subst hu
            exact hself.2.1
          · exact congrArg Task.wakeTick (htask u hu)
        · exact congrArg (fun cpus : Nat → Cpu => (cpus c).currentTask) hcpus
        · exact congrArg (fun cpus : Nat → Cpu => (cpus c).online) hcpus
        · exact (congrArg (fun cpus : Nat → Cpu => (cpus c).yielding) hcpus).symm.trans hy
        · cases hk'
          exact ⟨hself.2.2.2, fun t ht hc => (hforking t k ht hc).2 rfl⟩

theorem LifeInv.finishChild (h : LifeInv s q l) (hk : (s.tasks k).building = true)
    (hnone : ∀ t, s.live t = true → (s.tasks t).inCall ≠ .fork k) (pgid cr3 : Nat) :
    ∃ q' l', LifeInv (s.finishChild k pgid cr3) q' l' := by
  have hdead : s.live k = false := by simp [State.live, hk]
  have hfree : FreeSlot s.settled (s.withBitmap (update s.live k true)) k :=
    ⟨.inl hdead, update_self .., fun _ => rfl, fun _ => h.building_ready hk, fun u hu => ⟨update_of_ne hu .., rfl⟩, rfl,
      rfl, rfl, rfl⟩
  unfold State.finishChild
  dsimp only
  generalize hs2 : State.mk _ _ _ _ _ _ _ _ _ _ = s2
  have hbit : s2.taskBitmap = s.taskBitmap := by rw [← hs2]; rfl
  have htask : ∀ u, u ≠ k → s2.tasks u = s.tasks u := fun u hu => by rw [← hs2]; exact update_of_ne hu ..
  have hself : (s2.tasks k).state = .ready ∧ (s2.tasks k).inCall = .none ∧ (s2.tasks k).building = false := by
    rw [← hs2]
    simp
  have hlive : s2.live = update s.live k true := by
    funext u
    by_cases hu : u = k
    · subst hu
      rw [update_self, State.live, hbit, h.built u hk, hself.2.2]
      rfl
    · rw [update_of_ne hu, State.live, hbit, htask u hu]
      rfl
  have hof : ∀ t j, s2.live t = true → (s2.tasks t).inCall = .fork j → s.live t = true ∧ (s.tasks t).inCall = .fork j := by
    intro t j ht hc
    have htk : t ≠ k := by
      rintro rfl
      rw [hself.2.1] at hc
      cases hc
    rw [htask t htk] at hc
    rw [hlive, update_of_ne htk] at ht
    exact ⟨ht, hc⟩
  have hput : (s2.withBitmap (update s.live k true)).taskBitmap = update s.live k true := rfl
  obtain ⟨q', l', hq⟩ := h.queues.fillSlot hfree hput
    (by rw [← hs2]; rfl) (by rw [← hs2]; rfl) (by rw [← hs2]; rfl) (by rw [← hs2]; rfl) htask hself.1
  have hset : (s2.enqueueReady k).settled = (s2.enqueueReady k).withBitmap s2.live := rfl
  refine ⟨q', l', ?_, fun t ht => ?_, fun t j ht hc => ?_, fun t t' j ht ht' hc hc' => ?_⟩
  · rw [hset, hlive]
    exact hq
  · have htk : t ≠ k := by
      rintro rfl
      have : (s2.tasks t).building = true := ht
      rw [hself.2.2] at this
      cases this
    have ht' : (s2.tasks t).building = true := ht
    rw [htask t htk] at ht'
    exact (congrFun hbit t).trans (h.built t ht')
  · obtain ⟨ht1, hc1⟩ := hof t j ht hc
    have hjk : j ≠ k := by
      rintro rfl
      exact hnone t ht1 hc1
    have hj := h.forking t j ht1 hc1
    rw [← htask j hjk] at hj
    exact hj
  · obtain ⟨ht, hc⟩ := hof t j ht hc
    obtain ⟨ht', hc'⟩ := hof t' j ht' hc'
    exact h.forkOnce t t' j ht ht' hc hc'

/-! ## The other calls -/

theorem LifeInv.modTask (h : LifeInv s q l) (t : Slot) {f : Task → Task}
    (hf : ∀ a, (f a).state = a.state ∧ (f a).wakeTick = a.wakeTick ∧ (f a).building = a.building ∧ (f a).inCall = a.inCall) :
    LifeInv (s.modTask t f) q l := by
  have htask : ∀ u, ((s.modTask t f).tasks u).state = (s.tasks u).state ∧
    ((s.modTask t f).tasks u).wakeTick = (s.tasks u).wakeTick ∧
      ((s.modTask t f).tasks u).building = (s.tasks u).building ∧ ((s.modTask t f).tasks u).inCall = (s.tasks u).inCall := by
    intro u
    by_cases hu : u = t
    · subst hu
      rw [modTask_tasks_self]
      exact hf _
    · rw [modTask_tasks_ne hu]
      exact ⟨rfl, rfl, rfl, rfl⟩
  exact h.congr ⟨rfl, fun u => (htask u).2.2.1, fun u => (htask u).2.2.2⟩ rfl rfl (fun u => (htask u).1)
    (fun u => (htask u).2.1) (fun _ => rfl) (fun _ => rfl) (fun _ hy => hy) rfl

theorem LifeInv.setCall (h : LifeInv s q l) (t : Slot) {call : Call}
    (hfork : ∀ k, call = .fork k → (s.tasks k).building = true ∧ ∀ u, s.live u = true → (s.tasks u).inCall ≠ .fork k) :
    LifeInv (s.modTask t fun task => { task with inCall := call }) q l := by
  have hne : ∀ u, u ≠ t → (s.modTask t fun task => { task with inCall := call }).tasks u = s.tasks u :=
    fun u hu => modTask_tasks_ne hu
  have hself : (s.modTask t fun task => { task with inCall := call }).tasks t = { s.tasks t with inCall := call } :=
    modTask_tasks_self
  have hbuild : ∀ u, ((s.modTask t fun task => { task with inCall := call }).tasks u).building = (s.tasks u).building := by
    intro u
    by_cases hu : u = t
    · rw [hu, hself]
    · rw [hne u hu]
  have hlive : (s.modTask t fun task => { task with inCall := call }).live = s.live := by
    funext u
    rw [State.live, State.live, hbuild u]
    rfl
  have hof : ∀ u k, s.live u = true → ((s.modTask t fun task => { task with inCall := call }).tasks u).inCall = .fork k →
      u = t ∧ call = .fork k ∨ u ≠ t ∧ (s.tasks u).inCall = .fork k := by
    intro u k _ hc
    by_cases hu : u = t
    · rw [hu, hself] at hc
      exact .inl ⟨hu, hc⟩
    · rw [hne u hu] at hc
      exact .inr ⟨hu, hc⟩
  refine ⟨h.queues.congr rfl rfl hlive (fun u => ?_) (fun u => ?_) (fun _ => rfl) (fun _ => rfl) (fun _ hy => hy) rfl,
    fun u hu => h.built u (hbuild u ▸ hu), fun u k hu hc => ?_, fun u u' k hu hu' hc hc' => ?_⟩
  · by_cases hu : u = t
    · have he := congrArg Task.state hself
      rw [hu]
      exact he
    · exact congrArg Task.state (hne u hu)
  · by_cases hu : u = t
    · have he := congrArg Task.wakeTick hself
      rw [hu]
      exact he
    · exact congrArg Task.wakeTick (hne u hu)
  · rw [hbuild]
    rw [hlive] at hu
    rcases hof u k hu hc with ⟨-, he⟩ | ⟨-, he⟩
    · exact (hfork k he).1
    · exact h.forking u k hu he
  · rw [hlive] at hu hu'
    rcases hof u k hu hc with ⟨rfl, he⟩ | ⟨hut, he⟩
    · rcases hof u' k hu' hc' with ⟨rfl, -⟩ | ⟨-, he'⟩
      · rfl
      · exact absurd he' ((hfork k he).2 u' hu')
    · rcases hof u' k hu' hc' with ⟨rfl, he'⟩ | ⟨-, he'⟩
      · exact absurd he ((hfork k he').2 u hu)
      · exact h.forkOnce u u' k hu hu' he he'

theorem LifeInv.wake (h : LifeInv s q l) (hr : s.runnable t = false) : ∃ q' l', LifeInv (s.wake t) q' l' := by
  have hb := ((SchedFrame.refl s).wake t).build
  obtain ⟨q', hq⟩ := h.queues.wake (h.queues.used_of_not_runnable hr) hr
  refine ⟨q', l.erase t, h.same hb ?_⟩
  rw [hb.settled, ← wake_withBitmap]
  exact hq

theorem LifeInv.taskWakeup (h : LifeInv s q l) (t : Slot) : ∃ q' l', LifeInv (s.taskWakeup t) q' l' :=
  h.call (fun _ _ he => by cases he) (show s.mayCall (.taskWakeup t) = true from rfl) rfl

theorem LifeInv.taskKill (h : LifeInv s q l) (pid : Nat) : ∃ q' l', LifeInv (s.taskKill pid) q' l' := by
  have hfold : ∀ (is : List Slot) (s : State),
      (∃ q l, LifeInv s q l) → ∃ q l, LifeInv (is.foldl (State.killOne pid) s) q l := by
    intro is
    induction is with
    | nil => exact fun _ h => h
    | cons i is ih =>
      rintro s ⟨q, l, h⟩
      rw [List.foldl_cons]
      apply ih
      unfold State.killOne
      split
      · have hmark := h.modTask i (f := fun task =>
          { task with signalPending := task.signalPending ||| BitVec.twoPow 32 SIGKILL }) fun _ => ⟨rfl, rfl, rfl, rfl⟩
        dsimp only
        split
        · rename_i hs
          refine hmark.wake ?_
          rcases hs with hs | hs | hs <;> simp only [State.runnable, hs] <;> decide
        · exact ⟨q, l, hmark⟩
      · exact ⟨q, l, h⟩
  unfold State.taskKill
  split
  · exact ⟨q, l, h⟩
  · exact hfold _ s ⟨q, l, h⟩

theorem LifeInv.sysKill (h : LifeInv s q l) (t : Slot) (sig : Nat) : LifeInv ((s.sigMark t sig).contMark t sig) q l := by
  have hmark : LifeInv (s.sigMark t sig) q l := h.modTask t fun _ => ⟨rfl, rfl, rfl, rfl⟩
  unfold State.contMark
  split
  · exact hmark.modTask t fun _ => ⟨rfl, rfl, rfl, rfl⟩
  · exact hmark

theorem LifeInv.taskStopSignal (h : LifeInv s q l) (hcur : (s.cpus c).currentTask = some t)
    (hy : (s.cpus c).yielding = false) (sig : Nat) : LifeInv (s.taskStopSignal c sig) q l := by
  have hb : BuildSame s (s.taskStopSignal c sig) := by
    refine ⟨rfl, fun u => ?_, fun u => ?_⟩
    · by_cases hu : u = s.current c
      · subst hu; simp [State.taskStopSignal, State.markYielding, State.modCpu]
      · exact congrArg Task.building (modTask_tasks_ne hu)
    · by_cases hu : u = s.current c
      · subst hu; simp [State.taskStopSignal, State.markYielding, State.modCpu]
      · exact congrArg Task.inCall (modTask_tasks_ne hu)
  refine h.same hb ?_
  rw [hb.settled]
  have hmark := h.queues.mark hcur hy (f := fun task =>
    { task with waitStatus := sig % 256 * 256 + 0x7F, waitCode := CLD_STOPPED, waitPending := true, state := .stopped })
    (by simp)
  unfold State.taskStopSignal
  rw [current_eq hcur]
  exact hmark

theorem LifeInv.waitStep (h : LifeInv s q l) {target event : Slot → Bool} {options : BitVec 32} :
    LifeInv (s.waitStep c target event options).1 q l := by
  unfold State.waitStep
  split
  · rename_i i _
    dsimp only
    split
    · exact h
    · rename_i hz
      split
      · exact h
      · split
        · rename_i hdead
          exact h.reap hdead (by simpa [hdead] using hz)
        · have hmod : LifeInv (s.modTask i fun t => { t with waitPending := false, waitCode := 0 }) q l :=
            h.modTask i fun _ => ⟨rfl, rfl, rfl, rfl⟩
          exact hmod
  · split
    · exact h
    · split <;> exact h

/-! ## exec and fork -/

theorem LifeInv.allocRoot (h : LifeInv s q l) (cr3 : Nat) : LifeInv (s.allocRoot cr3) q l :=
  h.congr ⟨rfl, fun _ => rfl, fun _ => rfl⟩ rfl rfl (fun _ => rfl) (fun _ => rfl) (fun _ => rfl) (fun _ => rfl)
    (fun _ hy => hy) rfl

theorem LifeInv.vmmDestroyPml4 (h : LifeInv s q l) (t : Slot) (cr3 : Nat) : LifeInv (s.vmmDestroyPml4 t cr3) q l := by
  unfold State.vmmDestroyPml4
  split
  · exact h
  · exact h.congr ⟨rfl, fun _ => rfl, fun _ => rfl⟩ rfl rfl (fun _ => rfl) (fun _ => rfl) (fun _ => rfl) (fun _ => rfl)
      (fun _ hy => hy) rfl

theorem LifeInv.loadCr3 (h : LifeInv s q l) (c cr3 : Nat) : LifeInv (s.loadCr3 c cr3) q l := by
  have hmod : LifeInv (s.modTask (s.current c) fun t => { t with cr3 := cr3 }) q l :=
    h.modTask _ fun _ => ⟨rfl, rfl, rfl, rfl⟩
  have hcpu : ∀ c', ((s.loadCr3 c cr3).cpus c').currentTask = (s.cpus c').currentTask ∧
      ((s.loadCr3 c cr3).cpus c').online = (s.cpus c').online ∧
      ((s.loadCr3 c cr3).cpus c').yielding = (s.cpus c').yielding := by
    intro c'
    by_cases hc : c' = c
    · subst hc
      simp [State.loadCr3, State.modTask]
    · have he : (s.loadCr3 c cr3).cpus c' = s.cpus c' := modCpu_cpus_ne hc
      rw [he]
      exact ⟨rfl, rfl, rfl⟩
  exact hmod.congr ⟨rfl, fun _ => rfl, fun _ => rfl⟩ rfl rfl (fun _ => rfl) (fun _ => rfl) (fun c' => (hcpu c').1)
    (fun c' => (hcpu c').2.1) (fun c' hy => (hcpu c').2.2.symm.trans hy) rfl

theorem LifeInv.execReturn (h : LifeInv s q l) (c : Nat) (loaded : Bool) : LifeInv (s.execReturn c loaded) q l := by
  have hcall := h.setCall (s.current c) fun k (hk : Call.none = .fork k) => by cases hk
  unfold State.execReturn
  dsimp only
  split
  · split
    · exact hcall.vmmDestroyPml4 _ _
    · exact (hcall.loadCr3 c _).vmmDestroyPml4 _ _
  · exact h

theorem finishChild_comm {pgid cr3 : Nat} (hk : k ≠ t) :
    (s.finishChild k pgid cr3).modTask t (fun task => { task with inCall := .none }) =
      (s.modTask t fun task => { task with inCall := .none }).finishChild k pgid cr3 := by
  have htasks : ((s.finishChild k pgid cr3).modTask t fun task => { task with inCall := .none }).tasks =
      ((s.modTask t fun task => { task with inCall := .none }).finishChild k pgid cr3).tasks := by
    funext u
    by_cases hut : u = t
    · subst hut
      simp [State.finishChild, State.enqueueReady, State.modTask, update_of_ne (Ne.symm hk)]
    · by_cases huk : u = k
      · subst huk
        simp [State.finishChild, State.enqueueReady, State.modTask, update_of_ne hk]
      · simp [State.finishChild, State.enqueueReady, State.modTask, update_of_ne hut, update_of_ne huk]
  exact congrArg (fun tasks => { (s.modTask t fun task => { task with inCall := .none }).finishChild k pgid cr3 with
    tasks := tasks }) htasks

theorem LifeInv.forkReturn (h : LifeInv s q l) (hlive : s.live (s.current c) = true) (childCr3 : Nat) :
    ∃ q' l', LifeInv (s.forkReturn c childCr3) q' l' := by
  unfold State.forkReturn
  split
  · rename_i k hcall
    have hk := h.forking _ k hlive hcall
    have hne : k ≠ s.current c := by
      rintro rfl
      rw [(live_iff.1 hlive).2] at hk
      cases hk
    -- the page table of the child is in nobody's way
    have hroot : LifeInv (if childCr3 = 0 then s else s.allocRoot childCr3) q l := by
      split
      · exact h
      · exact h.allocRoot childCr3
    have htasks : (if childCr3 = 0 then s else s.allocRoot childCr3).tasks = s.tasks := by split <;> rfl
    have hbit : (if childCr3 = 0 then s else s.allocRoot childCr3).taskBitmap = s.taskBitmap := by split <;> rfl
    have hcur : (if childCr3 = 0 then s else s.allocRoot childCr3).current c = s.current c := by split <;> rfl
    dsimp only
    generalize (if childCr3 = 0 then s else s.allocRoot childCr3) = s1 at hroot htasks hbit hcur ⊢
    have hlive1 : s1.live = s.live := by
      funext u
      rw [State.live, State.live, htasks, hbit]
    rw [hcur, finishChild_comm hne]
    have hfree := hroot.setCall (s.current c) fun k (hk : Call.none = .fork k) => by cases hk
    have htask : ∀ u, u ≠ s.current c → (s1.modTask (s.current c) fun task => { task with inCall := .none }).tasks u =
        s.tasks u := fun u hu => (modTask_tasks_ne hu).trans (congrFun htasks u)
    have hself : ((s1.modTask (s.current c) fun task => { task with inCall := .none }).tasks (s.current c)).inCall =
      .none := by simp
    refine hfree.finishChild (by rw [htask k hne]; exact hk) (fun u hu hc => ?_) _ _
    by_cases huc : u = s.current c
    · rw [huc, hself] at hc
      cases hc
    · rw [htask u huc] at hc
      have hu' : s.live u = true := by
        rw [State.live, htask u huc] at hu
        rw [← hlive1, State.live, htasks]
        exact hu
      exact huc (h.forkOnce u (s.current c) k hu' hlive hc hcall)
  · exact ⟨q, l, h⟩

/-! ## Runs -/

def LifeMet (s : State) : LifeOp → Bool
  | .proc (.sched op) => Met s.settled op
  | .taskStopSignal c _ => (s.cpus c).currentTask.isSome
  | _ => true

theorem mayCall_of_mayCallProc {op : Op} (h : s.mayCallProc (.sched op) = true) : s.mayCall op = true := by
  cases op with
  | taskCreate c stack =>
    simp only [State.mayCallProc, Bool.and_eq_true] at h
    exact h.1
  | _ => exact h

theorem LifeInv.step (h : LifeInv s q l) {op : LifeOp} (hm : LifeMet s op = true) :
    ∃ q' l', LifeInv (lifeStep s op) q' l' := by
  unfold lifeStep
  split
  · rename_i hmay
    cases op with
    | proc op =>
      simp only [State.mayLife, Bool.and_eq_true] at hmay
      cases op with
      | sched op =>
        by_cases hop : ∃ c stack, op = .taskCreate c stack
        · obtain ⟨c, stack, rfl⟩ := hop
          exact h.taskCreate c stack
        · exact h.call (fun c stack he => hop ⟨c, stack, he⟩) (mayCall_of_mayCallProc hmay.1) hm
      | taskFork c stack =>
        unfold State.callLife State.callProc State.taskFork
        dsimp only
        split
        · rename_i s' hn
          exact ⟨q, l, (h.newChild hn).1⟩
        · rename_i s' k hn
          obtain ⟨h', hk⟩ := h.newChild hn
          refine ⟨q, l, h'.setCall _ fun k' hk' => ?_⟩
          cases hk'
          exact hk k rfl
      | taskClone c flags stack =>
        unfold State.callLife State.callProc State.taskClone
        dsimp only
        split
        · rename_i s' hn
          exact ⟨q, l, (h.newChild hn).1⟩
        · rename_i s' k hn
          obtain ⟨h', hk⟩ := h.newChild hn
          split
          · exact h'.finishChild (hk k rfl).1 (hk k rfl).2 _ _
          · refine ⟨q, l, h'.setCall _ fun k' hk' => ?_⟩
            cases hk'
            exact hk k rfl
      | forkReturn c childCr3 =>
        simp only [State.mayCallProc, Bool.and_eq_true] at hmay
        exact h.forkReturn (caller_spec hmay.1.1).2 childCr3
      | taskExec c newCr3 =>
        exact ⟨q, l, ((h.allocRoot newCr3).loadCr3 c newCr3).setCall _ fun k hk => by cases hk⟩
      | execReturn c loaded => exact ⟨q, l, h.execReturn c loaded⟩
      | taskSetupPrivatePml4 c newCr3 => exact ⟨q, l, (h.allocRoot newCr3).loadCr3 c newCr3⟩
      | taskWaitpid c pid options => exact ⟨q, l, h.waitStep⟩
      | taskWaitid c idtype id options =>
        unfold State.callLife State.callProc State.taskWaitid
        dsimp only
        split
        · exact ⟨q, l, h⟩
        · split
          · exact ⟨q, l, h⟩
          · exact ⟨q, l, h.waitStep⟩
    | taskKill c pid => exact h.taskKill pid
    | sysKill t sig => exact ⟨q, l, h.sysKill t sig⟩
    | devSignal t sig =>
      have hmark : LifeInv (s.sigMark t sig) q l := h.modTask t fun _ => ⟨rfl, rfl, rfl, rfl⟩
      exact ⟨q, l, hmark⟩
    | wakeFor t sig => exact h.taskWakeup t
    | taskStopSignal c sig =>
      obtain ⟨t, hcur⟩ := Option.isSome_iff_exists.1 hm
      simp only [State.mayLife, Bool.and_eq_true, Bool.not_eq_true'] at hmay
      exact ⟨q, l, h.taskStopSignal hcur hmay.1.2 sig⟩
  · exact ⟨q, l, h⟩

theorem boot_build (totalCpus : Nat) (up : Nat → Bool) (pml4 : Nat) (t : Slot) :
    ((State.boot totalCpus up pml4).tasks t).building = false := by
  have hfold : ∀ (is : List Nat) (s : State), (∀ t, (s.tasks t).building = false) →
      ∀ t, ((is.foldl State.taskInitAp s).tasks t).building = false := by
    intro is
    induction is with
    | nil => exact fun _ h => h
    | cons c is ih =>
      intro s h
      rw [List.foldl_cons]
      refine ih _ fun t => ?_
      unfold State.taskInitAp
      split
      · rename_i s' hf
        rw [findFreeSlot_none hf]
        exact h t
      · rename_i s' k hf
        by_cases ht : t = k
        · subst ht
          simp [State.modCpu]
        · have he : s'.tasks t = s.tasks t := ((findFreeSlot_some hf).other t ht).2
          simp [State.modCpu, State.modTask, update_of_ne ht, he, h t]
  refine hfold _ _ (fun t => ?_) t
  by_cases ht : t = 0
  · subst ht; simp [State.schedulerInit, Task.zero]
  · simp [State.schedulerInit, update_of_ne ht, Task.zero]

theorem boot_lifeInv (totalCpus : Nat) (hpos : 0 < totalCpus) (hmax : totalCpus ≤ MAX_CPUS) (up : Nat → Bool) (pml4 : Nat) :
    ∃ q l, LifeInv (State.boot totalCpus up pml4) q l := by
  have hq := boot_inv totalCpus hpos hmax up pml4
  have hb := boot_build totalCpus up pml4
  have hcall := (boot_booting totalCpus up pml4).inCall
  refine ⟨fun _ => [], [], ?_, fun t ht => ?_, fun t k _ hc => ?_, fun t t' k _ _ hc => ?_⟩
  · have hlive : (State.boot totalCpus up pml4).live = (State.boot totalCpus up pml4).taskBitmap := by
      funext t
      simp [State.live, hb t]
    rw [State.settled, hlive]
    exact hq
  · rw [hb] at ht
    cases ht
  · rw [hcall] at hc
    cases hc
  · rw [hcall] at hc
    cases hc

end EterOS.Sched
