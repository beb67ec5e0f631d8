import EterOS.Sched.Process
/-!
# AddressSpace — no live address space is torn down

A zombie's PML4 goes when no other slot with a state other than 0 has it, and `task_exec` lets its old one go in any case.
State 0 is READY, so a sibling that is only ready to run does not count; and a thread that execs takes the address space of
its siblings with it.  `Met` of this module leaves out just these, and `run_destroys_safe` says that nothing else goes wrong.

The argument rests on one invariant, `Spaces`: the PML4 of every task is allocated, and a task inside `task_exec` shares
neither its old nor its new one.
-/
namespace EterOS.Sched

open List
open Function (update update_self update_of_ne)

def State.live (s : State) (t : Slot) : Bool :=
  s.taskBitmap t && !(s.tasks t).building

def DestroyCall.live (d : DestroyCall) (t : Slot) : Bool :=
  d.taskBitmap t && !(d.tasks t).building

/-- The frame is no other task's CR3, whatever its state, and not the kernel task's. -/
def DestroyCall.Safe (d : DestroyCall) : Prop :=
  (∀ u, u ≠ d.slot → d.live u = true → (d.tasks u).cr3 ≠ d.cr3) ∧ (d.live 0 = true → (d.tasks 0).cr3 ≠ d.cr3)

def State.execs (s : State) (t : Slot) (old : Nat) : Prop :=
  s.live t = true ∧ (s.tasks t).inCall = .exec old

structure Spaces (s : State) : Prop where
  rooted : ∀ t, s.live t = true → (s.tasks t).cr3 = 0 ∨ (s.tasks t).cr3 ∈ s.roots
  oldRooted : ∀ t old, s.execs t old → old = 0 ∨ old ∈ s.roots
  oldAlone : ∀ t old, s.execs t old → old ≠ 0 → ∀ u, s.live u = true → (s.tasks u).cr3 ≠ old
  oldApart : ∀ t t' old, s.execs t old → s.execs t' old → old ≠ 0 → t = t'
  newAlone : ∀ t old, s.execs t old → (s.tasks t).cr3 ≠ 0 ∧ ∀ u, u ≠ t → s.live u = true → (s.tasks u).cr3 ≠ (s.tasks t).cr3
  safe : ∀ d ∈ s.destroyed, d.Safe

variable {s s' : State} {t u k : Slot} {c : Nat}

structure SpaceSame (s s' : State) (u : Slot) : Prop where
  used : s'.taskBitmap u = s.taskBitmap u
  cr3 : (s'.tasks u).cr3 = (s.tasks u).cr3
  building : (s'.tasks u).building = (s.tasks u).building
  inCall : (s'.tasks u).inCall = (s.tasks u).inCall

theorem SpaceSame.live (h : SpaceSame s s' u) : s'.live u = s.live u := by
  rw [State.live, State.live, h.used, h.building]

theorem SpaceSame.execs (h : SpaceSame s s' u) (old : Nat) : s'.execs u old ↔ s.execs u old := by
  rw [State.execs, State.execs, h.live, h.inCall]

theorem SpaceSame.of_eq (hbit : s'.taskBitmap u = s.taskBitmap u) (ht : s'.tasks u = s.tasks u) : SpaceSame s s' u :=
  ⟨hbit, by rw [ht], by rw [ht], by rw [ht]⟩

theorem SpaceSame.trans {s2 : State} (h : SpaceSame s s' u) (h' : SpaceSame s' s2 u) : SpaceSame s s2 u :=
  ⟨h'.used.trans h.used, h'.cr3.trans h.cr3, h'.building.trans h.building, h'.inCall.trans h.inCall⟩

theorem Spaces.congr (h : Spaces s) (hsame : ∀ u, SpaceSame s s' u) (hroots : s'.roots = s.roots)
    (hdest : s'.destroyed = s.destroyed) : Spaces s' := by
  refine ⟨fun t ht => ?_, fun t old ht => ?_, fun t old ht h0 u hu => ?_, fun t t' old ht ht' => ?_, fun t old ht => ?_,
    fun d hd => h.safe d (hdest ▸ hd)⟩
  · rw [(hsame t).live] at ht
    rw [(hsame t).cr3, hroots]
    exact h.rooted t ht
  · rw [hroots]
    exact h.oldRooted t old (((hsame t).execs old).1 ht)
  · rw [(hsame u).live] at hu
    rw [(hsame u).cr3]
    exact h.oldAlone t old (((hsame t).execs old).1 ht) h0 u hu
  · exact h.oldApart t t' old (((hsame t).execs old).1 ht) (((hsame t').execs old).1 ht')
  · obtain ⟨h0, hne⟩ := h.newAlone t old (((hsame t).execs old).1 ht)
    rw [(hsame t).cr3]
    refine ⟨h0, fun u hut hu => ?_⟩
    rw [(hsame u).live] at hu
    rw [(hsame u).cr3]
    exact hne u hut hu

/-- A value that is no old and no new CR3 of a task inside `task_exec`, other than `k`. -/
def Apart (s : State) (k : Slot) (v : Nat) : Prop :=
  ∀ t old, t ≠ k → s.execs t old → (old ≠ 0 → v ≠ old) ∧ v ≠ (s.tasks t).cr3

theorem Spaces.assign (h : Spaces s) (k : Slot) (hsame : ∀ u, u ≠ k → SpaceSame s s' u)
    (hroots : ∀ r ∈ s.roots, r ∈ s'.roots) (hdest : s'.destroyed = s.destroyed)
    (hcall : s'.live k = true → ∀ old, (s'.tasks k).inCall ≠ .exec old)
    (hv : s'.live k = true → ((s'.tasks k).cr3 = 0 ∨ (s'.tasks k).cr3 ∈ s'.roots) ∧ Apart s k (s'.tasks k).cr3) :
    Spaces s' := by
  have hex : ∀ t old, s'.execs t old → t ≠ k ∧ s.execs t old := by
    intro t old ht
    by_cases hk : t = k
    · subst hk; exact absurd ht.2 (hcall ht.1 old)
    · exact ⟨hk, ((hsame t hk).execs old).1 ht⟩
  refine ⟨fun t ht => ?_, fun t old ht => ?_, fun t old ht h0 u hu => ?_, fun t t' old ht ht' => ?_, fun t old ht => ?_,
    fun d hd => h.safe d (hdest ▸ hd)⟩
  · by_cases hk : t = k
    · subst hk; exact (hv ht).1
    · rw [(hsame t hk).live] at ht
      rw [(hsame t hk).cr3]
      exact (h.rooted t ht).imp_right (hroots _)
  · exact (h.oldRooted t old (hex t old ht).2).imp_right (hroots _)
  · by_cases hk : u = k
    · subst hk
      exact ((hv hu).2 t old (hex t old ht).1 (hex t old ht).2).1 h0
    · rw [(hsame u hk).live] at hu
      rw [(hsame u hk).cr3]
      exact h.oldAlone t old (hex t old ht).2 h0 u hu
  · exact h.oldApart t t' old (hex t old ht).2 (hex t' old ht').2
  · obtain ⟨htk, ht⟩ := hex t old ht
    obtain ⟨h0, hne⟩ := h.newAlone t old ht
    rw [(hsame t htk).cr3]
    refine ⟨h0, fun u hut hu => ?_⟩
    by_cases hk : u = k
    · subst hk
      exact ((hv hu).2 t old htk ht).2
    · rw [(hsame u hk).live] at hu
      rw [(hsame u hk).cr3]
      exact hne u hut hu

theorem Spaces.apart_fresh (h : Spaces s) {v : Nat} (h0 : v ≠ 0) (hv : v ∉ s.roots) (k : Slot) : Apart s k v := by
  intro t old _ ht
  refine ⟨fun hold he => ?_, fun he => ?_⟩
  · rcases h.oldRooted t old ht with h' | h'
    · exact hold h'
    · exact hv (he ▸ h')
  · rcases h.rooted t ht.1 with h' | h'
    · exact h0 (he.trans h')
    · exact hv (he ▸ h')

theorem Spaces.apart_shared (h : Spaces s) (ht : s.live t = true) (hcall : ∀ old, (s.tasks t).inCall ≠ .exec old)
    (k : Slot) : Apart s k (s.tasks t).cr3 := by
  intro t' old _ ht'
  have hne : t ≠ t' := fun he => hcall old (he ▸ ht'.2)
  exact ⟨fun h0 => h.oldAlone t' old ht' h0 t ht, (h.newAlone t' old ht').2 t hne ht⟩

theorem Spaces.apart_zero (h : Spaces s) (k : Slot) : Apart s k 0 :=
  fun t old _ ht => ⟨fun h0 he => h0 he.symm, fun he => (h.newAlone t old ht).1 he.symm⟩

theorem Spaces.dropRoot (h : Spaces s) (hsame : ∀ u, SpaceSame s s' u) {v : Nat}
    (hroots : s'.roots = s.roots.filter (· ≠ v)) (hdest : ∀ d ∈ s'.destroyed, d ∈ s.destroyed ∨ d.Safe)
    (hfree : ∀ u, s.live u = true → (s.tasks u).cr3 ≠ v) (hold : ∀ t old, s.execs t old → old ≠ v) : Spaces s' := by
  have hkeep : ∀ r ∈ s.roots, r ≠ v → r ∈ s'.roots := fun r hr hne => by
    rw [hroots]
    exact mem_filter.2 ⟨hr, by simpa using hne⟩
  have hmid : Spaces { s' with roots := s.roots, destroyed := s.destroyed } :=
    h.congr (fun u => ⟨(hsame u).used, (hsame u).cr3, (hsame u).building, (hsame u).inCall⟩) rfl rfl
  refine ⟨fun t ht => ?_, fun t old ht => ?_, hmid.oldAlone, hmid.oldApart, hmid.newAlone, fun d hd => ?_⟩
  · refine (hmid.rooted t ht).imp_right fun hr => hkeep _ hr ?_
    rw [(hsame t).cr3]
    exact hfree t ((hsame t).live ▸ ht)
  · exact (hmid.oldRooted t old ht).imp_right fun hr => hkeep _ hr (hold t old (((hsame t).execs old).1 ht))
  · exact (hdest d hd).elim (h.safe d) id

/-! ## Reaping -/

/-- No task that is merely READY has the zombie's CR3, or the zombie's CR3 stays anyway: it has none, or the kernel's, or
one that a task in another state has too.  A child still without its CR3 is not reaped. -/
def State.canReap (s : State) (z : Slot) : Bool :=
  !(s.tasks z).building &&
    ((s.tasks z).cr3 == 0 || (s.tasks z).cr3 == (s.tasks 0).cr3 || s.sharedCr3 z ||
      (List.finRange MAX_TASKS).all fun u =>
        u == z || !s.live u || (s.tasks u).state != .ready || (s.tasks u).cr3 != (s.tasks z).cr3)

theorem canReap_alone (hz : s.canReap k = true) (h0 : (s.tasks k).cr3 ≠ 0) (hkernel : (s.tasks k).cr3 ≠ (s.tasks 0).cr3)
    (hscan : s.sharedCr3 k = false) : ∀ u, u ≠ k → s.live u = true → (s.tasks u).cr3 ≠ (s.tasks k).cr3 := by
  intro u hu hlive he
  simp only [State.canReap, h0, hkernel, hscan, Bool.and_eq_true, Bool.or_eq_true, beq_iff_eq, all_eq_true,
    false_or, Bool.false_eq_true] at hz
  have hready := hz.2 u (mem_finRange u)
  simp only [hu, hlive, he, Bool.not_true, Bool.false_eq_true, bne_self_eq_false, or_false, false_or, bne_iff_ne] at hready
  simp only [State.sharedCr3, any_eq_false, Bool.and_eq_true, decide_eq_true_eq, beq_iff_eq, not_and] at hscan
  exact hscan u (mem_finRange u) ⟨hu, hready⟩ he

theorem reap_same (hu : u ≠ k) : SpaceSame s (s.taskReapZombieLocked k) u :=
  SpaceSame.of_eq (taskReapZombieLocked_frame.1 u hu).1 (taskReapZombieLocked_frame.1 u hu).2

theorem Spaces.reap (h : Spaces s) (hk : s.taskBitmap k = true) (hz : s.canReap k = true) :
    Spaces (s.taskReapZombieLocked k) := by
  have hlive : s.live k = true := by
    simp only [State.canReap, Bool.and_eq_true] at hz
    simp [State.live, hk, hz.1]
  -- first the slot, then its PML4
  have hgone : (s.taskReapZombieLocked k).taskBitmap k = false := update_self ..
  have hmid : ∀ u, u ≠ k → SpaceSame s { s.taskReapZombieLocked k with roots := s.roots, destroyed := s.destroyed } u :=
    fun u hu => ⟨(reap_same hu).used, (reap_same hu).cr3, (reap_same hu).building, (reap_same hu).inCall⟩
  have hslot : Spaces { s.taskReapZombieLocked k with roots := s.roots, destroyed := s.destroyed } := by
    refine h.assign k hmid (fun _ hr => hr) rfl (fun hl => ?_) fun hl => ?_
    · simp [State.live, hgone] at hl
    · simp [State.live, hgone] at hl
  by_cases hrel : (s.tasks k).cr3 ≠ 0 ∧ (s.tasks k).cr3 ≠ (s.tasks 0).cr3 ∧ s.sharedCr3 k = false
  · obtain ⟨h0, hkernel, hscan⟩ := hrel
    have halone := canReap_alone hz h0 hkernel hscan
    have hrelease : s.releaseCr3 k = { s with
        roots := s.roots.filter (· ≠ (s.tasks k).cr3)
        destroyed := ⟨k, (s.tasks k).cr3, s.tasks, s.taskBitmap⟩ :: s.destroyed } := by
      rw [State.releaseCr3, if_pos ⟨hkernel, hscan⟩, State.vmmDestroyPml4, if_neg h0]
    refine hslot.dropRoot (v := (s.tasks k).cr3) (fun u => ⟨rfl, rfl, rfl, rfl⟩) ?_ (fun d hd => ?_) (fun u hu => ?_)
      fun t old ht => ?_
    · simp [State.taskReapZombieLocked, hrelease, State.modTask]
    · simp only [State.taskReapZombieLocked, hrelease, State.modTask, mem_cons] at hd
      rcases hd with rfl | hd
      · exact .inr ⟨halone, fun _ => hkernel.symm⟩
      · exact .inl hd
    · have huk : u ≠ k := by rintro rfl; simp [State.live, hgone] at hu
      rw [SpaceSame.live (hmid u huk)] at hu
      rw [(hmid u huk).cr3]
      exact halone u huk hu
    · have htk : t ≠ k := by rintro rfl; simp [State.execs, State.live, hgone] at ht
      have hts := ((hmid t htk).execs old).1 ht
      rintro rfl
      exact h.oldAlone t _ hts h0 k hlive rfl
  · have hrelease : s.releaseCr3 k = s := by
      unfold State.releaseCr3 State.vmmDestroyPml4
      split
      · rename_i hcond
        split
        · rfl
        · rename_i h0
          exact absurd ⟨h0, hcond⟩ hrel
      · rfl
    refine hslot.congr (fun u => ⟨rfl, rfl, rfl, rfl⟩) ?_ ?_
    · simp [State.taskReapZombieLocked, hrelease, State.modTask]
    · simp [State.taskReapZombieLocked, hrelease, State.modTask]

/-! ## Slots -/

def State.canTakeSlot (s : State) : Bool :=
  s.freeBit.isSome || ((List.finRange MAX_TASKS).find? s.reapable).all s.canReap

theorem Spaces.takeSlot (h : Spaces s) (hmet : s.canTakeSlot = true) (hf : s.findFreeSlot = (s', some k)) :
    ∃ s1, Spaces s1 ∧ (∀ u, u ≠ k → SpaceSame s s1 u) ∧ (∀ u, u ≠ k → SpaceSame s1 s' u) ∧ s'.roots = s1.roots ∧
      s'.destroyed = s1.destroyed := by
  unfold State.findFreeSlot at hf
  split at hf
  · simp only [Prod.mk.injEq, Option.some.injEq] at hf
    obtain ⟨rfl, rfl⟩ := hf
    exact ⟨s, h, fun u hu => ⟨rfl, rfl, rfl, rfl⟩, fun u hu => SpaceSame.of_eq (update_of_ne hu ..) rfl, rfl, rfl⟩
  · rename_i hfull
    have hall : ∀ u, s.taskBitmap u = true := fun u => by
      simpa using List.find?_eq_none.1 hfull u (mem_finRange u)
    split at hf
    · rename_i i hfind
      simp only [Prod.mk.injEq, Option.some.injEq] at hf
      obtain ⟨rfl, rfl⟩ := hf
      have hcan : s.canReap i = true := by simpa [State.canTakeSlot, hfull, hfind] using hmet
      exact ⟨_, h.reap (hall i) hcan, fun u hu => reap_same hu,
        fun u hu => SpaceSame.of_eq (update_of_ne hu ..) rfl, rfl, rfl⟩
    · simp at hf

theorem FreeSlot.ne_current (hf : FreeSlot s s' k) (hlive : s.live (s.current c) = true) (hc : c < MAX_CPUS) :
    s.current c ≠ k := by
  rintro rfl
  rcases hf.free with hu | hz
  · simp [State.live, hu] at hlive
  · simp only [State.reapable, Bool.and_eq_true, Bool.not_eq_true', decide_eq_true_eq, State.isCurrent,
      any_eq_false, mem_range, beq_iff_eq] at hz
    cases hcur : (s.cpus c).currentTask with
    | none => exact hz.1.1.1 (by simp [State.current, hcur])
    | some t => exact hz.2 c hc (by simp [State.current, hcur])

theorem Spaces.apart_self (h : Spaces s) (ht : s.live t = true) : Apart s t (s.tasks t).cr3 :=
  fun t' old hne ht' => ⟨fun h0 => h.oldAlone t' old ht' h0 t ht, (h.newAlone t' old ht').2 t (Ne.symm hne) ht⟩

theorem Spaces.taskCreate (h : Spaces s) (hc : c < MAX_CPUS) (hlive : s.live (s.current c) = true)
    (hcall : (s.tasks (s.current c)).inCall = .none) (hmet : s.canTakeSlot = true)
    (hcr3 : (s.cpus c).cr3 = (s.tasks (s.current c)).cr3) (stack : Bool) : Spaces (s.taskCreate c stack) := by
  unfold State.taskCreate
  split
  · exact h
  · split
    · rename_i s' hf
      rwa [findFreeSlot_none hf]
    · rename_i s' k hf
      have hs := findFreeSlot_some hf
      obtain ⟨s1, h1, hsame, hsame', hroots, hdest⟩ := h.takeSlot hmet hf
      have hne := hs.ne_current hlive hc
      split
      · refine h1.assign k (fun u hu => (hsame' u hu).trans (SpaceSame.of_eq (update_of_ne hu ..) rfl))
          (fun r hr => hroots ▸ hr) hdest (fun hl => ?_) fun hl => ?_
        · simp [State.live] at hl
        · simp [State.live] at hl
      · have hp := hsame (s.current c) hne
        have hlive1 : s1.live (s.current c) = true := hp.live.trans hlive
        have hval : (s'.cpus c).cr3 = (s1.tasks (s.current c)).cr3 := by rw [hs.cpus, hcr3, hp.cr3]
        refine h1.assign k (fun u hu => (hsame' u hu).trans (SpaceSame.of_eq rfl (update_of_ne hu ..)))
          (fun r hr => hroots ▸ hr) hdest (fun _ old => ?_) fun _ => ?_
        · simp [State.enqueueReady]
        · simp only [State.enqueueReady, modTask_tasks_self, hval]
          refine ⟨(h1.rooted _ hlive1).imp_right fun hr => hroots ▸ hr, h1.apart_shared hlive1 (fun old => ?_) k⟩
          rw [hp.inCall, hcall]
          simp

theorem Spaces.newChild (h : Spaces s) (hc : c < MAX_CPUS) (hlive : s.live (s.current c) = true)
    (hmet : s.canTakeSlot = true) {tgid pgid : Option Nat} {stack : Bool} {r : Option Slot}
    (hn : s.newChild c tgid pgid stack = (s', r)) :
    Spaces s' ∧ s'.cpus = s.cpus ∧ ∀ k, r = some k → s.current c ≠ k ∧ ∀ u, u ≠ k → SpaceSame s s' u := by
  unfold State.newChild at hn
  split at hn
  · simp only [Prod.mk.injEq] at hn
    obtain ⟨rfl, rfl⟩ := hn
    exact ⟨h, rfl, fun k hk => by cases hk⟩
  · split at hn
    · rename_i s2 hf
      simp only [Prod.mk.injEq] at hn
      obtain ⟨rfl, rfl⟩ := hn
      rw [findFreeSlot_none hf]
      exact ⟨h, rfl, fun k hk => by cases hk⟩
    · rename_i s2 k hf
      have hs := findFreeSlot_some hf
      obtain ⟨s1, h1, hsame, hsame', hroots, hdest⟩ := h.takeSlot hmet hf
      split at hn
      · simp only [Prod.mk.injEq] at hn
        obtain ⟨rfl, rfl⟩ := hn
        refine ⟨h1.assign k (fun u hu => (hsame' u hu).trans (SpaceSame.of_eq (update_of_ne hu ..) rfl))
          (fun r hr => hroots ▸ hr) hdest (fun hl => ?_) fun hl => ?_, hs.cpus, fun k hk => by cases hk⟩
        · simp [State.live] at hl
        · simp [State.live] at hl
      · simp only [Prod.mk.injEq] at hn
        obtain ⟨rfl, rfl⟩ := hn
        have hto : ∀ u, u ≠ k → SpaceSame s2 { s2.modTask k fun t => { t with
            id := s2.nextId, parentId := (s2.tasks (s2.current c)).id, tgid := tgid.getD s2.nextId
            pgid := pgid.getD s2.nextId, state := .ready, inCall := .none, building := true } with
              nextId := (s2.nextId + 1) % 2 ^ 32 } u := fun u hu => SpaceSame.of_eq rfl (update_of_ne hu ..)
        refine ⟨h1.assign k (fun u hu => (hsame' u hu).trans (hto u hu)) (fun r hr => hroots ▸ hr) hdest
          (fun hl => ?_) fun hl => ?_, hs.cpus, fun k' hk' => ?_⟩
        · simp [State.live] at hl
        · simp [State.live] at hl
        · obtain rfl : k = k' := Option.some.inj hk'
          exact ⟨hs.ne_current hlive hc, fun u hu => (hsame u hu).trans ((hsame' u hu).trans (hto u hu))⟩

/-! ## fork and clone -/

theorem Spaces.setCall (h : Spaces s) (t : Slot) {call : Call} (hcall : ∀ old, call ≠ .exec old) :
    Spaces (s.modTask t fun task => { task with inCall := call }) := by
  have hsame : ∀ u, u ≠ t → SpaceSame s (s.modTask t fun task => { task with inCall := call }) u :=
    fun u hu => SpaceSame.of_eq rfl (modTask_tasks_ne hu)
  refine h.assign t hsame (fun _ hr => hr) rfl (fun _ old => ?_) fun hl => ?_
  · rw [modTask_tasks_self]
    exact hcall old
  · have hlive : s.live t = true := by simpa [State.live, State.modTask] using hl
    rw [modTask_tasks_self]
    exact ⟨h.rooted t hlive, h.apart_self hlive⟩

theorem Spaces.finishChild (h : Spaces s) {cr3 pgid : Nat} (hroot : cr3 = 0 ∨ cr3 ∈ s.roots) (hapart : Apart s k cr3) :
    Spaces (s.finishChild k pgid cr3) := by
  refine h.assign k (fun u hu => SpaceSame.of_eq rfl (update_of_ne hu ..)) (fun _ hr => hr) rfl (fun _ old => ?_)
    fun _ => ?_
  · simp [State.finishChild, State.enqueueReady]
  · simp only [State.finishChild, State.enqueueReady, modTask_tasks_self]
    exact ⟨hroot, hapart⟩

theorem Spaces.taskFork (h : Spaces s) (hc : c < MAX_CPUS) (hlive : s.live (s.current c) = true)
    (hmet : s.canTakeSlot = true) (stack : Bool) : Spaces (s.taskFork c stack) := by
  unfold State.taskFork
  split
  · rename_i s' hn
    exact (h.newChild hc hlive hmet hn).1
  · rename_i s' k hn
    exact (h.newChild hc hlive hmet hn).1.setCall _ fun old => by simp

theorem Spaces.taskClone (h : Spaces s) (hc : c < MAX_CPUS) (hlive : s.live (s.current c) = true)
    (hcall : (s.tasks (s.current c)).inCall = .none) (hmet : s.canTakeSlot = true) (flags : BitVec 64) (stack : Bool) :
    Spaces (s.taskClone c flags stack) := by
  unfold State.taskClone
  dsimp only
  split
  · rename_i s' hn
    exact (h.newChild hc hlive hmet hn).1
  · rename_i s' k hn
    obtain ⟨h', -, hk⟩ := h.newChild hc hlive hmet hn
    obtain ⟨hne, hsame⟩ := hk k rfl
    split
    · -- the thread shares the caller's CR3
      have hp := hsame _ hne
      rw [← hp.cr3]
      refine h'.finishChild (h'.rooted _ (hp.live.trans hlive)) (h'.apart_shared (hp.live.trans hlive) (fun old => ?_) k)
      rw [hp.inCall, hcall]
      simp
    · exact h'.setCall _ fun old => by simp

theorem Spaces.allocRoot (h : Spaces s) (cr3 : Nat) : Spaces (s.allocRoot cr3) :=
  ⟨fun t ht => (h.rooted t ht).imp_right (mem_cons_of_mem _),
    fun t old ht => (h.oldRooted t old ht).imp_right (mem_cons_of_mem _), h.oldAlone, h.oldApart, h.newAlone, h.safe⟩

theorem Spaces.forkReturn (h : Spaces s) {childCr3 : Nat} (hfresh : childCr3 ∉ s.roots) :
    Spaces (s.forkReturn c childCr3) := by
  unfold State.forkReturn
  split
  · rename_i k hcall
    dsimp only
    refine Spaces.setCall ?_ _ fun old => by simp
    split
    · rename_i h0
      subst h0
      exact h.finishChild (.inl rfl) (h.apart_zero k)
    · rename_i h0
      exact (h.allocRoot childCr3).finishChild (.inr mem_cons_self) (h.apart_fresh h0 hfresh k)
  · exact h

/-! ## exec -/

/-- The caller shares its CR3 with no other task, and it is not the kernel's. -/
def State.canExec (s : State) (c : Nat) : Bool :=
  let t := s.current c
  (s.tasks t).cr3 == 0 || (s.tasks t).cr3 != (s.tasks 0).cr3 &&
    (List.finRange MAX_TASKS).all fun u => u == t || !s.live u || (s.tasks u).cr3 != (s.tasks t).cr3

theorem canExec_alone (hmet : s.canExec c = true) (h0 : (s.tasks (s.current c)).cr3 ≠ 0) :
    ∀ u, u ≠ s.current c → s.live u = true → (s.tasks u).cr3 ≠ (s.tasks (s.current c)).cr3 := by
  intro u hu hlive
  simp only [State.canExec, Bool.or_eq_true, beq_iff_eq, h0, false_or, Bool.and_eq_true, all_eq_true] at hmet
  simpa [hu, hlive] using hmet.2 u (mem_finRange u)

theorem loadCr3_tasks {v : Nat} : (s.loadCr3 c v).tasks =
    update s.tasks (s.current c) { s.tasks (s.current c) with cr3 := v } := rfl

theorem taskExec_tasks {v : Nat} : (s.taskExec c v).tasks = update s.tasks (s.current c)
      { s.tasks (s.current c) with cr3 := v, inCall := .exec (s.tasks (s.current c)).cr3 } := by
  have hcur : (s.allocRoot v).current c = s.current c := rfl
  have htasks : (s.allocRoot v).tasks = s.tasks := rfl
  have h : (s.taskExec c v).tasks = update ((s.allocRoot v).loadCr3 c v).tasks (s.current c)
      { ((s.allocRoot v).loadCr3 c v).tasks (s.current c) with inCall := .exec (s.tasks (s.current c)).cr3 } := rfl
  rw [h, loadCr3_tasks, hcur, htasks, update_self, Function.update_idem]

theorem Spaces.taskExec (h : Spaces s) (hlive : s.live (s.current c) = true) (hmet : s.canExec c = true) {newCr3 : Nat}
    (h0 : newCr3 ≠ 0) (hfresh : newCr3 ∉ s.roots) : Spaces (s.taskExec c newCr3) := by
  have htasks := taskExec_tasks (s := s) (c := c) (v := newCr3)
  have halone := canExec_alone hmet
  generalize s.current c = t at hlive htasks halone
  have hbit : (s.taskExec c newCr3).taskBitmap = s.taskBitmap := rfl
  have hroots : (s.taskExec c newCr3).roots = newCr3 :: s.roots := rfl
  have hdest : (s.taskExec c newCr3).destroyed = s.destroyed := rfl
  generalize s.taskExec c newCr3 = s' at htasks hbit hroots hdest ⊢
  have hself : s'.tasks t = { s.tasks t with cr3 := newCr3, inCall := .exec (s.tasks t).cr3 } := by
    rw [htasks, update_self]
  have hsame : ∀ u, u ≠ t → SpaceSame s s' u := fun u hu =>
    SpaceSame.of_eq (congrFun hbit u) (by rw [htasks, update_of_ne hu])
  have hlive' : s'.live t = true := by
    rw [State.live, hself, hbit]
    exact hlive
  have hfr : ∀ u, s.live u = true → newCr3 ≠ (s.tasks u).cr3 := fun u hu he => by
    rcases h.rooted u hu with hu0 | hr
    · exact h0 (he.trans hu0)
    · exact hfresh (he ▸ hr)
  have hfrOld : ∀ u old, s.execs u old → newCr3 ≠ old := fun u old hu he => by
    rcases h.oldRooted u old hu with hu0 | hr
    · exact h0 (he.trans hu0)
    · exact hfresh (he ▸ hr)
  -- who is inside `task_exec` afterwards: the caller, and who was before
  have hex : ∀ u old, s'.execs u old → u = t ∧ old = (s.tasks t).cr3 ∨ u ≠ t ∧ s.execs u old := by
    intro u old hu
    by_cases hut : u = t
    · subst hut
      refine .inl ⟨rfl, ?_⟩
      have := hu.2
      rw [hself] at this
      exact (Call.exec.inj this).symm
    · exact .inr ⟨hut, ((hsame u hut).execs old).1 hu⟩
  have hcr3 : ∀ u, s'.live u = true → u = t ∧ (s'.tasks u).cr3 = newCr3 ∨
      u ≠ t ∧ s.live u = true ∧ (s'.tasks u).cr3 = (s.tasks u).cr3 := by
    intro u hu
    by_cases hut : u = t
    · subst hut
      exact .inl ⟨rfl, by rw [hself]⟩
    · exact .inr ⟨hut, (hsame u hut).live ▸ hu, (hsame u hut).cr3⟩
  refine ⟨fun u hu => ?_, fun u old hu => ?_, fun u old hu hold v hv => ?_, fun u u' old hu hu' hold => ?_,
    fun u old hu => ?_, fun d hd => h.safe d (hdest ▸ hd)⟩
  · rw [hroots]
    rcases hcr3 u hu with ⟨-, hc⟩ | ⟨-, hl, hc⟩
    · exact .inr (hc ▸ mem_cons_self)
    · exact hc ▸ (h.rooted u hl).imp_right (mem_cons_of_mem _)
  · rw [hroots]
    rcases hex u old hu with ⟨-, rfl⟩ | ⟨-, hu⟩
    · exact (h.rooted t hlive).imp_right (mem_cons_of_mem _)
    · exact (h.oldRooted u old hu).imp_right (mem_cons_of_mem _)
  · rcases hex u old hu with ⟨-, rfl⟩ | ⟨-, hu⟩ <;> rcases hcr3 v hv with ⟨-, hc⟩ | ⟨hvt, hl, hc⟩ <;> rw [hc]
    · exact hfr t hlive
    · exact halone hold v hvt hl
    · exact hfrOld u old hu
    · exact h.oldAlone u old hu hold v hl
  · rcases hex u old hu with ⟨rfl, rfl⟩ | ⟨-, hu⟩ <;> rcases hex u' _ hu' with ⟨rfl, ho⟩ | ⟨-, hu'⟩
    · rfl
    · exact absurd rfl (h.oldAlone u' _ hu' hold u hlive)
    · exact absurd ho.symm (h.oldAlone u _ hu hold u' hlive)
    · exact h.oldApart u u' old hu hu' hold
  · rcases hex u old hu with ⟨rfl, -⟩ | ⟨hut, hu⟩
    · rw [hself]
      refine ⟨h0, fun v hvu hv => ?_⟩
      rcases hcr3 v hv with ⟨hvt, -⟩ | ⟨-, hl, hc⟩
      · exact absurd hvt hvu
      · rw [hc]
        exact (hfr v hl).symm
    · obtain ⟨hn0, hn⟩ := h.newAlone u old hu
      rw [(hsame u hut).cr3]
      refine ⟨hn0, fun v hvu hv => ?_⟩
      rcases hcr3 v hv with ⟨-, hc⟩ | ⟨-, hl, hc⟩
      · rw [hc]
        exact hfr u hu.1
      · rw [hc]
        exact hn v hvu hl

/-- The end of `task_exec`: of the old and the new PML4, the one the task does not keep goes. -/
theorem Spaces.execDone (h : Spaces s) {old keep drop : Nat} (ht : s.execs t old)
    (hcase : keep = (s.tasks t).cr3 ∧ drop = old ∨ keep = old ∧ drop = (s.tasks t).cr3)
    (hsame : ∀ u, u ≠ t → s'.tasks u = s.tasks u)
    (hself : s'.tasks t = { s.tasks t with cr3 := keep, inCall := .none }) (hbit : s'.taskBitmap = s.taskBitmap)
    (hroots : s'.roots = s.roots) (hdest : s'.destroyed = s.destroyed) : Spaces (s'.vmmDestroyPml4 t drop) := by
  have hlive : s'.live t = true := by
    rw [State.live, hself, hbit]
    exact ht.1
  obtain ⟨hn0, hnew⟩ := h.newAlone t old ht
  have hsp : ∀ u, u ≠ t → SpaceSame s s' u := fun u hu => SpaceSame.of_eq (congrFun hbit u) (hsame u hu)
  have hkeep : (keep = 0 ∨ keep ∈ s.roots) ∧ Apart s t keep := by
    rcases hcase with ⟨rfl, -⟩ | ⟨rfl, -⟩
    · exact ⟨h.rooted t ht.1, h.apart_self ht.1⟩
    · refine ⟨h.oldRooted t _ ht, fun t' old' hne ht' => ⟨fun h0 he => ?_, fun he => ?_⟩⟩
      · subst he
        exact hne (h.oldApart t' t _ ht' ht h0)
      · by_cases h0 : keep = 0
        · exact (h.newAlone t' old' ht').1 (he.symm.trans h0)
        · exact h.oldAlone t _ ht h0 t' ht'.1 he.symm
  have h' : Spaces s' := by
    refine h.assign t hsp (fun r hr => hroots ▸ hr) hdest (fun _ o => ?_) fun _ => ?_
    · rw [hself]
      simp
    · rw [hself, hroots]
      exact hkeep
  unfold State.vmmDestroyPml4
  split
  · exact h'
  · rename_i h0
    have hdrop : ∀ u, s'.live u = true → (s'.tasks u).cr3 ≠ drop := by
      intro u hu
      by_cases hut : u = t
      · subst hut
        rw [hself]
        rcases hcase with ⟨rfl, rfl⟩ | ⟨rfl, rfl⟩
        · exact h.oldAlone u _ ht h0 u ht.1
        · by_cases hk : keep = 0
          · exact fun he => h0 (he.symm.trans hk)
          · exact (h.oldAlone u _ ht hk u ht.1).symm
      · rw [(hsp u hut).live] at hu
        rw [(hsp u hut).cr3]
        rcases hcase with ⟨-, rfl⟩ | ⟨-, rfl⟩
        · exact h.oldAlone t _ ht h0 u hu
        · exact hnew u hut hu
    refine h'.dropRoot (fun u => ⟨rfl, rfl, rfl, rfl⟩) rfl (fun d hd => ?_) hdrop fun u o hu => ?_
    · rcases mem_cons.1 hd with rfl | hd
      · exact .inr ⟨fun u _ hu => hdrop u hu, fun hu => hdrop 0 hu⟩
      · exact .inl hd
    · have hut : u ≠ t := by
        rintro rfl
        have := hu.2
        rw [hself] at this
        cases this
      have hus := ((hsp u hut).execs o).1 hu
      rintro rfl
      rcases hcase with ⟨-, rfl⟩ | ⟨-, rfl⟩
      · exact hut (h.oldApart u t _ hus ht h0)
      · exact h.oldAlone u _ hus h0 t ht.1 rfl

theorem Spaces.execReturn (h : Spaces s) (hlive : s.live (s.current c) = true) (loaded : Bool) :
    Spaces (s.execReturn c loaded) := by
  unfold State.execReturn
  dsimp only
  split
  · rename_i old hcall
    split
    · exact h.execDone ⟨hlive, hcall⟩ (.inl ⟨rfl, rfl⟩) (fun u hu => modTask_tasks_ne hu) modTask_tasks_self rfl rfl rfl
    · have hcur : (s.modTask (s.current c) fun t => { t with inCall := .none }).current c = s.current c := rfl
      refine h.execDone ⟨hlive, hcall⟩ (.inr ⟨rfl, rfl⟩) (fun u hu => ?_) ?_ rfl rfl rfl
      · rw [loadCr3_tasks, hcur, update_of_ne hu, modTask_tasks_ne hu]
      · rw [loadCr3_tasks, hcur, update_self, modTask_tasks_self]
  · exact h

theorem Spaces.taskSetupPrivatePml4 (h : Spaces s) (hcall : (s.tasks (s.current c)).inCall = .none) {newCr3 : Nat}
    (h0 : newCr3 ≠ 0) (hfresh : newCr3 ∉ s.roots) : Spaces (s.taskSetupPrivatePml4 c newCr3) := by
  have htasks : (s.taskSetupPrivatePml4 c newCr3).tasks =
      update s.tasks (s.current c) { s.tasks (s.current c) with cr3 := newCr3 } := rfl
  refine h.assign (s.current c) (fun u hu => SpaceSame.of_eq rfl (by rw [htasks, update_of_ne hu]))
    (fun r hr => mem_cons_of_mem _ hr) rfl (fun _ old => ?_) fun _ => ?_
  · rw [htasks, update_self, hcall]
    simp
  · rw [htasks, update_self]
    exact ⟨.inr mem_cons_self, h.apart_fresh h0 hfresh _⟩

/-! ## wait -/

def State.canWait (s : State) (i : Option Slot) : Bool :=
  i.all fun z => (s.tasks z).state != .dead || s.taskBitmap z && s.canReap z

theorem Spaces.waitStep (h : Spaces s) {target event : Slot → Bool} {options : BitVec 32}
    (hmet : s.canWait (s.waitSlot c target event) = true) : Spaces (s.waitStep c target event options).1 := by
  unfold State.waitStep
  split
  · rename_i i hi
    rw [hi] at hmet
    dsimp only
    split
    · exact h
    · split
      · exact h
      · split
        · rename_i hz
          simp only [State.canWait, Option.all_some, hz, bne_self_eq_false, Bool.false_or, Bool.and_eq_true] at hmet
          exact h.reap hmet.1 hmet.2
        · refine h.congr (fun u => ?_) rfl rfl
          by_cases hu : u = i
          · subst hu
            exact ⟨rfl, by simp, by simp, by simp⟩
          · exact SpaceSame.of_eq rfl (update_of_ne hu ..)
  · split
    · exact h
    · split <;> exact h

/-! ## The calls that touch no address space -/

theorem SchedFrame.space (h : SchedFrame s s') (u : Slot) : SpaceSame s s' u :=
  ⟨congrFun h.bitmap u, (h.task u).cr3_eq, (h.task u).building_eq, (h.task u).inCall_eq⟩

theorem Spaces.frame (h : Spaces s) (hf : SchedFrame s s') : Spaces s' := h.congr hf.space hf.roots hf.destroyed

theorem Spaces.taskExit (h : Spaces s) (c waitStatus waitCode : Nat) : Spaces (s.taskExit c waitStatus waitCode) := by
  have hmark : ∀ u, SpaceSame s ((s.markYielding c).modTask (s.current c) fun task =>
      { task with state := .dead, waitStatus := waitStatus, waitCode := waitCode, waitPending := true }) u := by
    intro u
    by_cases hu : u = s.current c
    · subst hu
      exact ⟨rfl, by simp [State.markYielding, State.modCpu], by simp [State.markYielding, State.modCpu],
        by simp [State.markYielding, State.modCpu]⟩
    · exact SpaceSame.of_eq rfl (modTask_tasks_ne hu)
  have hexit : Spaces (s.exitMark c waitStatus waitCode) := by
    refine h.congr (fun u => (hmark u).trans ?_) rfl rfl
    unfold State.exitMark State.reparent
    constructor <;> dsimp only <;> split <;> rfl
  exact hexit.frame (schedFrame_taskExit s c waitStatus waitCode)

theorem Spaces.call (h : Spaces s) {op : Op} (hop : ∀ c stack, op ≠ .taskCreate c stack) : Spaces (s.call op) := by
  by_cases hexit : ∃ c waitStatus waitCode, op = .taskExit c waitStatus waitCode
  · obtain ⟨c, waitStatus, waitCode, rfl⟩ := hexit
    exact h.taskExit c waitStatus waitCode
  · exact h.frame (schedFrame_call hop fun c ws wc he => hexit ⟨c, ws, wc, he⟩)

/-! ## Boot -/

/-- Before the first `task_create`: everything runs on the boot PML4. -/
structure Booting (s : State) (pml4 : Nat) : Prop where
  alive : ∀ t, (s.tasks t).state ≠ .dead
  cr3 : ∀ t, s.taskBitmap t = true → (s.tasks t).cr3 = pml4
  inCall : ∀ t, (s.tasks t).inCall = .none
  loaded : ∀ c, (s.cpus c).cr3 = pml4
  roots : s.roots = [pml4]
  destroyed : s.destroyed = []

theorem Booting.taskInitAp {pml4 : Nat} (h : Booting s pml4) : Booting (s.taskInitAp c) pml4 := by
  have hcpus : ∀ (s : State) (g : Cpu → Cpu), (∀ cpu, (g cpu).cr3 = cpu.cr3) → (∀ c, (s.cpus c).cr3 = pml4) →
      ∀ c', ((s.modCpu c g).cpus c').cr3 = pml4 := by
    intro s g hg hs c'
    by_cases hcc : c' = c
    · subst hcc; simp [hg, hs]
    · rw [modCpu_cpus_ne hcc, hs]
  have hnone : (List.finRange MAX_TASKS).find? s.reapable = none := by
    rw [List.find?_eq_none]
    intro i _ hi
    simp only [State.reapable, Bool.and_eq_true, beq_iff_eq] at hi
    exact h.alive i hi.1.1.2
  unfold State.taskInitAp State.findFreeSlot
  rw [hnone]
  cases hfree : s.freeBit with
  | none => exact ⟨h.alive, h.cr3, h.inCall, hcpus s _ (fun _ => rfl) h.loaded, h.roots, h.destroyed⟩
  | some slot =>
    dsimp only
    refine ⟨fun t => ?_, fun t ht => ?_, fun t => ?_, hcpus _ _ (fun _ => rfl) h.loaded, h.roots, h.destroyed⟩
    · by_cases hts : t = slot
      · subst hts; simp [State.modCpu]
      · exact fun hd => h.alive t (by simpa [State.modCpu, State.modTask, update_of_ne hts] using hd)
    · by_cases hts : t = slot
      · subst hts; simp [State.modCpu, State.modTask, h.loaded]
      · have := h.cr3 t (by simpa [State.modCpu, State.modTask, update_of_ne hts] using ht)
        simpa [State.modCpu, State.modTask, update_of_ne hts] using this
    · by_cases hts : t = slot
      · subst hts; simp [State.modCpu]
      · simpa [State.modCpu, State.modTask, update_of_ne hts] using h.inCall t

theorem boot_booting (totalCpus : Nat) (up : Nat → Bool) (pml4 : Nat) : Booting (State.boot totalCpus up pml4) pml4 := by
  have hfold : ∀ (is : List Nat) (s : State), Booting s pml4 → Booting (is.foldl State.taskInitAp s) pml4 := by
    intro is
    induction is with
    | nil => exact fun _ h => h
    | cons c is ih => exact fun s h => ih _ h.taskInitAp
  refine hfold _ _ ⟨fun t => ?_, fun t ht => ?_, fun t => ?_, fun c => ?_, rfl, rfl⟩
  · by_cases ht : t = 0
    · subst ht; simp [State.schedulerInit]
    · simp [State.schedulerInit, update_of_ne ht, Task.zero]
  · obtain rfl : t = 0 := by simpa [State.schedulerInit] using ht
    simp [State.schedulerInit]
  · by_cases ht : t = 0
    · subst ht; simp [State.schedulerInit, Task.zero]
    · simp [State.schedulerInit, update_of_ne ht, Task.zero]
  · by_cases hc : c = 0
    · subst hc; simp [State.schedulerInit]
    · simp [State.schedulerInit, update_of_ne hc]

theorem Booting.spaces {pml4 : Nat} (h : Booting s pml4) : Spaces s := by
  have hnot : ∀ t old, ¬ s.execs t old := fun t old ht => by simp [State.execs, h.inCall t] at ht
  refine ⟨fun t ht => .inr ?_, fun t old ht => absurd ht (hnot t old), fun t old ht => absurd ht (hnot t old),
    fun t _ old ht => absurd ht (hnot t old), fun t old ht => absurd ht (hnot t old), fun d hd => ?_⟩
  · simp only [State.live, Bool.and_eq_true] at ht
    rw [h.cr3 t ht.1, h.roots]
    exact mem_singleton_self _
  · rw [h.destroyed] at hd
    cases hd

/-! ## Runs -/

inductive ProcOp
  | sched (op : Op)
  | taskFork (c : Nat) (stack : Bool)
  | taskClone (c : Nat) (flags : BitVec 64) (stack : Bool)
  | forkReturn (c childCr3 : Nat)
  | taskExec (c newCr3 : Nat)
  | execReturn (c : Nat) (loaded : Bool)
  | taskSetupPrivatePml4 (c newCr3 : Nat)
  | taskWaitpid (c : Nat) (pid : Int) (options : BitVec 32)
  | taskWaitid (c : Nat) (idtype id : Int) (options : BitVec 32)

/-- A task of the table runs on CPU `c` and is not about to give it up. -/
def State.caller (s : State) (c : Nat) : Bool :=
  s.online c && decide (c < MAX_CPUS) && !(s.cpus c).yielding && s.live (s.current c)

def State.idleCaller (s : State) (c : Nat) : Bool :=
  s.caller c && (s.tasks (s.current c)).inCall == .none

/-- `pmm_alloc_page` can hand the frame out. -/
def State.freshRoot (s : State) (cr3 : Nat) : Bool :=
  cr3 != 0 && !s.roots.contains cr3

def State.mayCallProc (s : State) : ProcOp → Bool
  | .sched (.taskCreate c stack) => s.mayCall (.taskCreate c stack) && s.idleCaller c
  | .sched op => s.mayCall op
  | .taskFork c _ | .taskClone c _ _ | .taskWaitpid c _ _ | .taskWaitid c _ _ _ => s.idleCaller c
  | .forkReturn c childCr3 => s.caller c && !s.roots.contains childCr3
  | .taskExec c newCr3 | .taskSetupPrivatePml4 c newCr3 => s.idleCaller c && s.freshRoot newCr3
  | .execReturn c _ => s.caller c

def State.callProc (s : State) : ProcOp → State
  | .sched op => s.call op
  | .taskFork c stack => s.taskFork c stack
  | .taskClone c flags stack => s.taskClone c flags stack
  | .forkReturn c childCr3 => s.forkReturn c childCr3
  | .taskExec c newCr3 => s.taskExec c newCr3
  | .execReturn c loaded => s.execReturn c loaded
  | .taskSetupPrivatePml4 c newCr3 => s.taskSetupPrivatePml4 c newCr3
  | .taskWaitpid c pid options => (s.taskWaitpid c pid options).1
  | .taskWaitid c idtype id options => (s.taskWaitid c idtype id options).1

def procStep (s : State) (op : ProcOp) : State :=
  if s.mayCallProc op then s.callProc op else s

/-- The condition on one call: a zombie that is reaped, to report it or to make room, shares its CR3 with no task that is
READY and nothing more; a task that execs shares its CR3 with none, the kernel included; and `task_create` runs on the
caller's own CR3. -/
def SpacesMet (s : State) : ProcOp → Bool
  | .sched (.taskCreate c _) => s.canTakeSlot && (s.cpus c).cr3 == (s.tasks (s.current c)).cr3
  | .taskFork _ _ | .taskClone _ _ _ => s.canTakeSlot
  | .taskExec c _ => s.canExec c
  | .taskWaitpid c pid options => s.canWait (s.waitSlot c (s.waitpidTarget c pid options) (s.waitpidEvent options))
  | .taskWaitid c idtype id options =>
    s.canWait (s.waitSlot c (s.waitidTarget c idtype id options) (s.waitidEvent options))
  | .sched _ | .forkReturn _ _ | .execReturn _ _ | .taskSetupPrivatePml4 _ _ => true

theorem caller_spec (h : s.caller c = true) : c < MAX_CPUS ∧ s.live (s.current c) = true := by
  simp only [State.caller, Bool.and_eq_true, decide_eq_true_eq] at h
  exact ⟨h.1.1.2, h.2⟩

theorem idleCaller_spec (h : s.idleCaller c = true) :
    c < MAX_CPUS ∧ s.live (s.current c) = true ∧ (s.tasks (s.current c)).inCall = .none := by
  simp only [State.idleCaller, Bool.and_eq_true, beq_iff_eq] at h
  exact ⟨(caller_spec h.1).1, (caller_spec h.1).2, h.2⟩

theorem freshRoot_spec {cr3 : Nat} (h : s.freshRoot cr3 = true) : cr3 ≠ 0 ∧ cr3 ∉ s.roots := by
  simpa [State.freshRoot] using h

theorem Spaces.procStep (h : Spaces s) {op : ProcOp} (hm : SpacesMet s op = true) : Spaces (procStep s op) := by
  unfold Sched.procStep
  split
  · rename_i hmay
    cases op with
    | sched op =>
      by_cases hop : ∃ c stack, op = .taskCreate c stack
      · obtain ⟨c, stack, rfl⟩ := hop
        simp only [State.mayCallProc, Bool.and_eq_true] at hmay
        simp only [SpacesMet, Bool.and_eq_true, beq_iff_eq] at hm
        obtain ⟨hc, hlive, hcall⟩ := idleCaller_spec hmay.2
        exact h.taskCreate hc hlive hcall hm.1 hm.2 stack
      · exact h.call fun c stack he => hop ⟨c, stack, he⟩
    | taskFork c stack =>
      obtain ⟨hc, hlive, -⟩ := idleCaller_spec hmay
      exact h.taskFork hc hlive hm stack
    | taskClone c flags stack =>
      obtain ⟨hc, hlive, hcall⟩ := idleCaller_spec hmay
      exact h.taskClone hc hlive hcall hm flags stack
    | forkReturn c childCr3 =>
      simp only [State.mayCallProc, Bool.and_eq_true] at hmay
      exact h.forkReturn (by simpa using hmay.2)
    | taskExec c newCr3 =>
      simp only [State.mayCallProc, Bool.and_eq_true] at hmay
      obtain ⟨-, hlive, -⟩ := idleCaller_spec hmay.1
      obtain ⟨h0, hfresh⟩ := freshRoot_spec hmay.2
      exact h.taskExec hlive hm h0 hfresh
    | execReturn c loaded => exact h.execReturn (caller_spec hmay).2 loaded
    | taskSetupPrivatePml4 c newCr3 =>
      simp only [State.mayCallProc, Bool.and_eq_true] at hmay
      obtain ⟨-, -, hcall⟩ := idleCaller_spec hmay.1
      obtain ⟨h0, hfresh⟩ := freshRoot_spec hmay.2
      exact h.taskSetupPrivatePml4 hcall h0 hfresh
    | taskWaitpid c pid options => exact h.waitStep hm
    | taskWaitid c idtype id options =>
      unfold State.callProc State.taskWaitid
      dsimp only
      split
      · exact h
      · split
        · exact h
        · exact h.waitStep hm
  · exact h

/-- **No live address space is torn down**, in any run from boot whose calls meet the condition. -/
theorem run_destroys_safe (n : Fin MAX_CPUS) (up : Nat → Bool) (pml4 : Nat) (ops : List ProcOp)
    (hmet : Run.Guarded procStep (fun s op => SpacesMet s op = true) (State.boot (n.val + 1) up pml4) ops) :
    ∀ s ∈ Run.states procStep (State.boot (n.val + 1) up pml4) ops, ∀ d ∈ s.destroyed, d.Safe := by
  intro s hs
  have hboot := (boot_booting (n.val + 1) up pml4).spaces
  exact (Run.states_forall (P := Spaces) (fun s op hP hm => hP.procStep hm) ops _ hboot hmet s hs).safe

def reapOps : List ProcOp :=
  [.sched (.taskCreate 0 true), .sched (.taskYield 0), .taskSetupPrivatePml4 0 2, .taskFork 0 true, .forkReturn 0 3,
    .taskExec 0 4, .execReturn 0 true, .sched (.taskExit 0 0 1), .sched (.schedule 0), .taskWaitpid 0 (-1) 0]

theorem run_destroys_safe_process :
    Run.Guarded procStep (fun s op => SpacesMet s op = true) (State.boot 1 (fun _ => false) 1) reapOps ∧
    ∀ s ∈ Run.states procStep (State.boot 1 (fun _ => false) 1) reapOps, ∀ d ∈ s.destroyed, d.Safe := by
  have hmet : Run.Guarded procStep (fun s op => SpacesMet s op = true) (State.boot 1 (fun _ => false) 1) reapOps := by
    simp only [reapOps, Run.Guarded]
    decide +kernel
  exact ⟨hmet, run_destroys_safe ⟨0, by decide⟩ (fun _ => false) 1 reapOps hmet⟩

/-- A process makes a thread and exits; task 0 reaps it before the thread has run. -/
theorem reap_destroys_space_of_ready_thread :
    ¬ ∀ (n : Fin MAX_CPUS) (up : Nat → Bool) (pml4 : Nat) (ops : List ProcOp),
      ∀ s ∈ Run.states procStep (State.boot (n.val + 1) up pml4) ops, ∀ d ∈ s.destroyed, d.Safe := by
  intro hall
  have hsafe := hall ⟨0, by decide⟩ (fun _ => false) 1
    [.sched (.taskCreate 0 true), .sched (.taskYield 0), .taskSetupPrivatePml4 0 2,
      .taskClone 0 (CLONE_VM ||| CLONE_THREAD) true, .sched (.taskExit 0 0 1), .sched (.schedule 0),
      .taskWaitpid 0 (-1) 0] _ (Run.foldl_mem_states _ _)
  have hshared : (List.foldl procStep (State.boot 1 (fun _ => false) 1)
      [.sched (.taskCreate 0 true), .sched (.taskYield 0), .taskSetupPrivatePml4 0 2,
        .taskClone 0 (CLONE_VM ||| CLONE_THREAD) true, .sched (.taskExit 0 0 1), .sched (.schedule 0),
        .taskWaitpid 0 (-1) 0]).destroyed.any
        (fun d => d.slot != 2 && d.live 2 && (d.tasks 2).cr3 == d.cr3) = true := by
    decide +kernel
  obtain ⟨d, hd, hshare⟩ := any_eq_true.1 hshared
  simp only [Bool.and_eq_true, bne_iff_ne, beq_iff_eq] at hshare
  exact (hsafe d hd).1 2 (Ne.symm hshare.1.1) hshare.1.2 hshare.2

/-- So does a thread that execs: the rest of the process loses its address space. -/
example : (List.foldl procStep (State.boot 1 (fun _ => false) 1)
    [.sched (.taskCreate 0 true), .sched (.taskYield 0), .taskSetupPrivatePml4 0 2,
      .taskClone 0 (CLONE_VM ||| CLONE_THREAD) true, .taskExec 0 3, .execReturn 0 true]).destroyed.any
      (fun d => d.slot != 2 && d.live 2 && (d.tasks 2).cr3 == d.cr3) = true := by
  decide +kernel

end EterOS.Sched
